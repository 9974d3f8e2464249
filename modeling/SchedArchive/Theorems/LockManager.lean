import SchedArchive.Auction.Attempts
import SchedArchive.Theorems.Runs

-- The lock manager of the auction engine as a table of readers and writers.

namespace AuctionBatchScheduler

open AuctionEngine LockTable

-- After a sequence of calls the keys in `s` hold their `locks`: a key acquires while it holds
-- nothing, and releases the list that it acquired. No list repeats an account.
inductive Holding : Engine → Finset TransactionKey → (TransactionKey → List Lock) → Prop
  | new {e locks} : e.lockManager.accountLocks = ∅ → Holding e ∅ locks
  | granted {e e' s locks key x} :
    Holding e s locks → key ∉ s → (x.map Prod.fst).Nodup → e.acquireLocks key x = (e', true) →
    Holding e' (insert key s) (Function.update locks key x)
  | refused {e e' s locks key x} :
    Holding e s locks → key ∉ s → (x.map Prod.fst).Nodup → e.acquireLocks key x = (e', false) →
    Holding e' s locks
  | released {e s locks key} :
    Holding e s locks → key ∈ s → Holding (e.releaseLocks key (locks key)) (s.erase key) locks

-- What can happen to the lock manager while a key keeps its locks: the calls for other keys.
inductive Meanwhile (key : TransactionKey) (e₁ : Engine) : Engine → Prop
  | refl : Meanwhile key e₁ e₁
  | acquire {e₂ k x} :
    Meanwhile key e₁ e₂ → k ≠ key → Meanwhile key e₁ (e₂.acquireLocks k x).1
  | release {e₂ k x} :
    Meanwhile key e₁ e₂ → k ≠ key → Meanwhile key e₁ (e₂.releaseLocks k x)

-- As long as the key keeps its locks, no other request for an account that the list names with a
-- write is granted.
def Exclusive (key : TransactionKey) (x : List Lock) (e₁ : Engine) : Prop :=
  ∀ e₂, Meanwhile key e₁ e₂ → ∀ a, (a, true) ∈ x → ∀ k ≠ key, ∀ y, a ∈ y.map Prod.fst →
    (e₂.acquireLocks k y).2 = false

-- The last mention of every account that the list names with a write is a write.
def WritesLast (x : List Lock) : Prop :=
  ∀ a, (a, true) ∈ x → ∃ before after, x = before ++ (a, true) :: after ∧ a ∉ after.map Prod.fst

variable {m m' : LockManager ℚ} {e e' e₁ e₂ : Engine} {g : Holders TransactionKey Pubkey}
variable {k k' : TransactionKey} {x y : List Lock} {a a' : Pubkey} {v : Bool}
variable {s : Finset TransactionKey} {locks : TransactionKey → List Lock}

-- There is only one way to record who holds what.
theorem Records.accountLocks_eq (h : Records m g) (h' : Records m' g) :
    m'.accountLocks = m.accountLocks := by
  refine Finmap.ext_lookup fun a => ?_
  have he : (m'.accountLocks.lookup a).getD ∅ = (m.accountLocks.lookup a).getD ∅ := by
    refine Finmap.ext_lookup fun k => Option.ext fun v => ?_
    rw [h.lockers, h'.lockers]
  cases hl : m.accountLocks.lookup a <;> cases hl' : m'.accountLocks.lookup a
  case none.none => rfl
  case none.some lockers =>
    rw [hl, hl'] at he
    exact absurd he <| h'.nonempty a lockers hl'
  case some.none lockers =>
    rw [hl, hl'] at he
    exact absurd he.symm <| h.nonempty a lockers hl
  case some.some lockers lockers' =>
    rw [hl, hl'] at he
    exact congrArg some he

theorem acquireLocks_eq_true (ha : e.acquireLocks k x = (e', true)) :
    e.lockManager.tryAcquire x = true ∧ e' = { e with lockManager := e.lockManager.acquire k x } := by
  rw [acquireLocks] at ha
  split at ha
  case isTrue ht => exact ⟨ht, (congrArg Prod.fst ha).symm⟩
  case isFalse => cases congrArg Prod.snd ha

theorem acquireLocks_snd : (e.acquireLocks k x).2 = e.lockManager.tryAcquire x := by
  rw [acquireLocks]
  split
  case isTrue ht  => exact ht.symm
  case isFalse ht => exact (Bool.not_eq_true _ ▸ ht).symm

theorem acquireLocks_eq_false (ha : (e.acquireLocks k x).2 = false) :
    (e.acquireLocks k x).1 = e := by
  rw [acquireLocks_snd] at ha
  rw [acquireLocks, if_neg (by simp [ha])]

-- A key that holds nothing yet is recorded with the list it acquires.

theorem held_update (hk : k ∉ s) : held s (Function.update locks k x) = held s locks := by
  refine held_congr fun k' hk' => ?_
  rw [Function.update_of_ne]
  rintro rfl
  exact hk hk'

theorem add_held_update (hk : k ∉ s) :
    add (held s locks) k x = held (insert k s) (Function.update locks k x) := by
  rw [← held_update hk, ← add_held, Function.update_self]

theorem Holding.records (h : Holding e s locks) : Records e.lockManager (held s locks) := by
  induction h
  case new he =>
    rw [held_empty]
    exact Records.congr (m := .withDecayRate 0) records_new he
  case granted hk hx ha ih =>
    obtain ⟨_, rfl⟩ := acquireLocks_eq_true ha
    rw [← add_held_update hk]
    exact ih.acquire hx fun l hl => hk (mem_held.mp hl).left
  case refused ha ih =>
    have he := acquireLocks_eq_false <| congrArg Prod.snd ha
    rw [ha] at he
    obtain rfl := he
    exact ih
  case released hk ih =>
    rw [← remove_held]
    exact ih.release fun l hl => (mem_held.mp hl).right

-- A table of readers and writers: what the calls return, and what is recorded.
structure Table (e : Engine) (s : Finset TransactionKey) (locks : TransactionKey → List Lock) :
    Prop where
  grants   : ∀ key x, (e.acquireLocks key x).2 = true ↔ ∀ k ∈ s, ¬Conflict x (locks k)
  refuses  : ∀ key x, (e.acquireLocks key x).2 = false → (e.acquireLocks key x).1 = e
  holders  : ∀ a k v, ((e.lockManager.accountLocks.lookup a).getD ∅).lookup k = some v ↔
               k ∈ s ∧ (a, v) ∈ locks k
  entries  : ∀ a, a ∈ e.lockManager.accountLocks ↔ ∃ k ∈ s, a ∈ (locks k).map Prod.fst
  restores : ∀ key x e', key ∉ s → (x.map Prod.fst).Nodup → e.acquireLocks key x = (e', true) →
               (e'.releaseLocks key x).lockManager.accountLocks = e.lockManager.accountLocks

-- An account has an entry exactly if someone holds it.
theorem Records.mem_accountLocks_iff (h : Records m g) :
    a ∈ m.accountLocks ↔ ∃ k v, k ∈ g (a, v) := by
  simp only [← h.lockers]
  constructor
  case mp =>
    intro ha
    obtain ⟨lockers, hl⟩ := Finmap.mem_iff.mp ha
    by_contra hn
    refine h.nonempty a lockers hl <| Finmap.eq_empty_iff_lookup.mpr fun k => ?_
    refine Option.eq_none_iff_forall_ne_some.mpr fun v hv => hn ⟨k, v, ?_⟩
    rwa [hl]
  case mpr =>
    rintro ⟨k, v, hv⟩
    by_contra ha
    rw [Finmap.lookup_eq_none.mpr ha] at hv
    simp at hv

-- The lock manager is an exact table of readers and writers after every sequence of calls.
theorem holding_table (h : Holding e s locks) : Table e s locks where
  grants key x  := by rw [acquireLocks_snd, h.records.canLock_iff, grants_held]
  refuses _ _   := acquireLocks_eq_false
  holders a k v := by rw [h.records.lockers, mem_held]
  entries a     := by
    rw [h.records.mem_accountLocks_iff]
    simp [mem_held]
  restores key x e' hk hx ha := by
    have hr := ((h.granted hk hx ha).released <| Finset.mem_insert_self ..).records
    rw [Finset.erase_insert hk, held_update hk, Function.update_self] at hr
    exact h.records.accountLocks_eq hr

-- Two keys read an account.
theorem holding_table_readers :
    ∃ e locks, Holding e {2, 1} locks ∧ Table e {2, 1} locks := by
  have h₁ : Holding (initialEngine.acquireLocks 1 [(10, false)]).1 {1}
      (Function.update (fun _ => []) 1 [(10, false)]) :=
    .granted (.new rfl) (by decide) (by decide) (Prod.ext rfl (by decide))
  have h₂ : Holding ((initialEngine.acquireLocks 1 [(10, false)]).1.acquireLocks 2 [(10, false)]).1
      {2, 1} (Function.update (Function.update (fun _ => []) 1 [(10, false)]) 2 [(10, false)]) :=
    .granted h₁ (by decide) (by decide) (Prod.ext rfl (by decide))
  exact ⟨_, _, h₂, holding_table h₂⟩

-- Lists that repeat an account.

-- The mode in which a key holds an account.
def mode (m : LockManager ℚ) (a : Pubkey) (k : TransactionKey) : Option Bool :=
  ((m.accountLocks.lookup a).getD ∅).lookup k

theorem mode_acquireOne :
    mode (m.acquireOne k (a, v)) a' k' = if a' = a ∧ k' = k then some v else mode m a' k' := by
  rw [mode, LockManager.acquireOne, Finmap.lookup_insert_eq_ite]
  by_cases ha : a' = a
  case neg => simp [ha, mode]
  case pos =>
    subst ha
    simp [mode, Finmap.lookup_insert_eq_ite]

theorem mode_acquire (hk : k' ≠ k) : mode (m.acquire k x) a k' = mode m a k' := by
  rw [LockManager.acquire]
  induction x generalizing m
  case nil => rfl
  case cons l x ih =>
    rw [List.foldl_cons, ih, mode_acquireOne, if_neg fun h => hk h.right]

theorem mode_acquire_of_not_mem (ha : a ∉ x.map Prod.fst) :
    mode (m.acquire k x) a k' = mode m a k' := by
  rw [mode, lookup_acquire_of_not_mem ha, mode]

-- The last mention of an account decides the mode in which it is held.
theorem mode_acquire_of_last {before after : List Lock} (ha : a ∉ after.map Prod.fst) :
    mode (m.acquire k (before ++ (a, v) :: after)) a k = some v := by
  have he : m.acquire k (before ++ (a, v) :: after) =
      ((m.acquire k before).acquireOne k (a, v)).acquire k after := by
    simp only [LockManager.acquire, List.foldl_append, List.foldl_cons]
  rw [he, mode_acquire_of_not_mem ha, mode_acquireOne, if_pos ⟨rfl, rfl⟩]

theorem mode_releaseOne (hk : k' ≠ k) : mode (m.releaseOne k (a', v)) a k' = mode m a k' := by
  rw [mode, lookup_releaseOne]
  split_ifs with ha he
  case pos =>
    subst ha
    have hn := congrArg (Finmap.lookup k') he
    rw [Finmap.lookup_erase_ne hk] at hn
    exact hn.symm
  case neg =>
    subst ha
    exact Finmap.lookup_erase_ne hk
  case neg => rfl

theorem mode_release (hk : k' ≠ k) : mode (m.release k x) a k' = mode m a k' := by
  rw [LockManager.release]
  induction x generalizing m
  case nil => rfl
  case cons l x ih => rw [List.foldl_cons, ih, mode_releaseOne hk]

theorem tryAcquire_iff_mode : m.tryAcquire x = true ↔ ∀ a v, (a, v) ∈ x →
    (∀ k, mode m a k ≠ some true) ∧ (v = true → ∀ k, mode m a k ≠ some false) := by
  simp only [LockManager.tryAcquire, List.all_eq_true, Prod.forall, all_canLock, canLock_iff_lookup,
    mode]

-- An account that someone writes is granted to no one.
theorem refused_of_mode (hm : mode e.lockManager a k = some true) (ha : a ∈ y.map Prod.fst) :
    (e.acquireLocks k' y).2 = false := by
  obtain ⟨⟨a, v⟩, hy, rfl⟩ := List.mem_map.mp ha
  rw [acquireLocks_snd, ← Bool.not_eq_true, tryAcquire_iff_mode]
  exact fun hg => (hg a v hy).left k hm

-- The other keys' calls do not change how the key holds an account.
theorem Meanwhile.mode_eq (hw : Meanwhile k e₁ e₂) :
    mode e₂.lockManager a k = mode e₁.lockManager a k := by
  induction hw
  case refl => rfl
  case acquire e₂ k' x _ hk ih =>
    rw [acquireLocks]
    split
    case isTrue  => exact (mode_acquire hk.symm).trans ih
    case isFalse => exact ih
  case release hk ih => exact (mode_release hk.symm).trans ih

theorem exists_last_mention (ha : a ∈ x.map Prod.fst) :
    ∃ v before after, x = before ++ (a, v) :: after ∧ a ∉ after.map Prod.fst := by
  induction x
  case nil => simp at ha
  case cons l x ih =>
    by_cases hx : a ∈ x.map Prod.fst
    case pos =>
      obtain ⟨v, before, after, he, hn⟩ := ih hx
      exact ⟨v, l :: before, after, by rw [he, List.cons_append], hn⟩
    case neg =>
      obtain rfl : a = l.1 := (List.mem_cons.mp ha).resolve_right hx
      exact ⟨l.2, [], x, rfl, hx⟩

-- An account that was free is only held by the key that acquired it.
theorem readable_of_last_read {before after : List Lock} (k' : TransactionKey)
    (ha : e.acquireLocks k x = (e₁, true)) (hx : x = before ++ (a, false) :: after)
    (hn : a ∉ after.map Prod.fst) (hw : (a, true) ∈ x) :
    (e₁.acquireLocks k' [(a, false)]).2 = true := by
  obtain ⟨hg, rfl⟩ := acquireLocks_eq_true ha
  rw [acquireLocks_snd, tryAcquire_iff_mode]
  intro a' v hm
  obtain ⟨rfl, rfl⟩ := Prod.mk.inj <| List.mem_singleton.mp hm
  refine ⟨fun k'' => ?_, fun hf => by cases hf⟩
  by_cases hk : k'' = k
  case pos =>
    rw [hk, hx]
    change mode (e.lockManager.acquire k _) a' k ≠ some true
    rw [mode_acquire_of_last hn]
    simp
  case neg =>
    change mode (e.lockManager.acquire k x) a' k'' ≠ some true
    rw [mode_acquire hk]
    exact (tryAcquire_iff_mode.mp hg a' true hw).left k''

-- A list that repeats accounts is held in its strongest mode exactly if the last mention of every
-- account it writes is a write: each mention overwrites the one before it.
theorem exclusive_iff_writes_last (ha : e.acquireLocks k x = (e₁, true)) :
    Exclusive k x e₁ ↔ WritesLast x := by
  constructor
  case mp =>
    intro hx a hw
    obtain ⟨v, before, after, he, hn⟩ := exists_last_mention <| List.mem_map_of_mem hw
    cases v
    case true => exact ⟨before, after, he, hn⟩
    case false =>
      have hr := readable_of_last_read (k + 1) ha he hn hw
      rw [hx e₁ .refl a hw (k + 1) (Nat.succ_ne_self k) [(a, false)] (by simp)] at hr
      cases hr
  case mpr =>
    intro hl e₂ hm a hw k' _ y hy
    obtain ⟨before, after, he, hn⟩ := hl a hw
    refine refused_of_mode (k := k) ?_ hy
    rw [hm.mode_eq, (acquireLocks_eq_true ha).right, he]
    exact mode_acquire_of_last hn

-- The account is read first and then written.
theorem exclusive_iff_writes_last_upgrade :
    ∃ e₁, initialEngine.acquireLocks 1 [(10, false), (10, true)] = (e₁, true) ∧
      Exclusive 1 [(10, false), (10, true)] e₁ := by
  have ha : initialEngine.acquireLocks 1 [(10, false), (10, true)] = (_, true) :=
    Prod.ext rfl (by decide)
  refine ⟨_, ha, (exclusive_iff_writes_last ha).mpr fun a hw => ?_⟩
  obtain rfl : a = 10 := by simpa using hw
  exact ⟨[(10, false)], [], rfl, by simp⟩

-- The account is written first and then read: it is held for reading, and others may read it too.
theorem writer_held_as_reader :
    ∃ e₁, initialEngine.acquireLocks 1 [(10, true), (10, false)] = (e₁, true) ∧
      (e₁.acquireLocks 2 [(10, false)]).2 = true ∧ ¬Exclusive 1 [(10, true), (10, false)] e₁ := by
  have hg : ((initialEngine.acquireLocks 1 [(10, true), (10, false)]).1.acquireLocks 2
      [(10, false)]).2 = true := by decide
  refine ⟨(initialEngine.acquireLocks 1 [(10, true), (10, false)]).1, Prod.ext rfl (by decide), hg,
    fun hx => ?_⟩
  rw [hx _ .refl 10 (by simp) 2 (by decide) [(10, false)] (by simp)] at hg
  cases hg

end AuctionBatchScheduler
