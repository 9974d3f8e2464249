import SchedArchive.Auction.Depths

-- What an attempt to send a bundle comes to, in any state of the lock manager.

namespace AuctionBatchScheduler

open AuctionEngine Except Ledger

variable {m m' : LockManager ℚ} {e e' e₀ : Engine} {k : TransactionKey} {x y : List Lock}
variable {a : Pubkey} {txs bundle : List (TransactionKey × List Lock)}

-- The transactions can be locked one after the other, each next to those in front of it.
def InTurn : Engine → List (TransactionKey × List Lock) → Prop
  | _, []                     => True
  | e, (key, txLocks) :: rest => canLock e txLocks ∧ InTurn (lock e key txLocks) rest

instance decidableInTurn :
    (e : Engine) → (txs : List (TransactionKey × List Lock)) → Decidable (InTurn e txs)
  | _, []                     => isTrue trivial
  | e, (key, txLocks) :: rest =>
    let _ := decidableInTurn (lock e key txLocks) rest
    inferInstanceAs <| Decidable (canLock e txLocks ∧ InTurn (lock e key txLocks) rest)

theorem accountLocks_acquire_congr (hm : m'.accountLocks = m.accountLocks) :
    (m'.acquire k x).accountLocks = (m.acquire k x).accountLocks := by
  simp only [LockManager.acquire]
  induction x generalizing m m'
  case nil => exact hm
  case cons l x ih =>
    refine ih ?_
    simp only [LockManager.acquireOne, hm]

theorem accountLocks_lock_congr
    (he : e'.lockManager.accountLocks = e.lockManager.accountLocks) :
    (lock e' k x).lockManager.accountLocks = (lock e k x).lockManager.accountLocks := by
  simp only [lock, acquireLocks, tryAcquire_congr he]
  split
  case isTrue  => exact accountLocks_acquire_congr he
  case isFalse => exact he

-- The queue depths do not matter.
theorem inTurn_congr (he : e'.lockManager.accountLocks = e.lockManager.accountLocks) :
    InTurn e' txs ↔ InTurn e txs := by
  induction txs generalizing e e'
  case nil => rfl
  case cons tx txs ih =>
    simp only [InTurn, canLock, tryAcquire_congr he]
    rw [ih <| accountLocks_lock_congr he]

theorem acquireBundle_iff_inTurn (bundle : List (TransactionKey × List Lock)) :
    (acquireBundle bundle txs e).2 = true ↔ InTurn e txs := by
  induction txs generalizing e
  case nil => simp [acquireBundle, InTurn]
  case cons tx txs ih =>
    obtain ⟨k, x⟩ := tx
    rw [acquireBundle_cons, InTurn, canLock]
    split
    case isTrue hl =>
      have hk : lock e k x = { e with lockManager := e.lockManager.acquire k x } := by
        rw [lock, acquireLocks, if_pos (by exact hl)]
      rw [ih, hk, inTurn_congr accountLocks_queueTransaction]
      exact (and_iff_right hl).symm
    case isFalse hl => simp [hl]

-- An account that was just locked has an entry.
theorem lookup_acquire_of_mem (ha : a ∈ x.map Prod.fst) : ∃ lockers,
    (m.acquire k x).accountLocks.lookup a = some lockers ∧ lockers ≠ ∅ := by
  suffices hs : ∀ m : LockManager ℚ, (∃ lockers, m.accountLocks.lookup a = some lockers ∧
      lockers ≠ ∅) ∨ a ∈ x.map Prod.fst → ∃ lockers,
      (m.acquire k x).accountLocks.lookup a = some lockers ∧ lockers ≠ ∅ from hs m (.inr ha)
  clear ha
  simp only [LockManager.acquire]
  induction x
  case nil => simp
  case cons l x ih =>
    obtain ⟨a', v⟩ := l
    intro m hm
    refine ih _ ?_
    by_cases he : a = a'
    case pos =>
      subst he
      refine .inl ⟨((m.accountLocks.lookup a).getD ∅).insert k v, ?_, fun hn => ?_⟩
      · simp [LockManager.acquireOne]
      · simpa [hn] using Finmap.lookup_insert (a := k) (b := v) ((m.accountLocks.lookup a).getD ∅)
    case neg =>
      refine hm.imp (fun hl => ?_) fun hm => ?_
      · simpa [LockManager.acquireOne, Finmap.lookup_insert_of_ne _ he] using hl
      · simpa [he] using hm

theorem lookup_acquire_of_not_mem (ha : a ∉ x.map Prod.fst) :
    (m.acquire k x).accountLocks.lookup a = m.accountLocks.lookup a := by
  simp only [LockManager.acquire]
  induction x generalizing m
  case nil => rfl
  case cons l x ih =>
    obtain ⟨a', v⟩ := l
    simp only [List.map_cons, List.mem_cons, not_or] at ha
    refine (ih ha.right).trans ?_
    simp [LockManager.acquireOne, Finmap.lookup_insert_of_ne _ ha.left]

-- Without repeated accounts, every account in the list has one more holder.
theorem lookup_acquire_of_nodup {v : Bool} (hx : (x.map Prod.fst).Nodup) (hm : (a, v) ∈ x) :
    (m.acquire k x).accountLocks.lookup a =
      some (((m.accountLocks.lookup a).getD ∅).insert k v) := by
  induction x generalizing m
  case nil => cases hm
  case cons l x ih =>
    obtain ⟨hl, hx⟩ := List.nodup_cons.mp hx
    change ((m.acquireOne k l).acquire k x).accountLocks.lookup a = _
    rcases List.mem_cons.mp hm with rfl | hm
    · rw [lookup_acquire_of_not_mem hl]
      exact Finmap.lookup_insert _
    · have ha : a ≠ l.1 := fun he => hl <| he ▸ List.mem_map_of_mem hm
      have hn : (m.acquireOne k l).accountLocks.lookup a = m.accountLocks.lookup a :=
        Finmap.lookup_insert_of_ne _ ha
      rw [ih hx hm, hn]

-- Locks that are granted now were granted before others were taken.
theorem canLock_of_lock (hx : canLock e x = true) (hy : canLock (lock e k x) y = true) :
    canLock e y = true := by
  rw [lock, acquireLocks, if_pos (by exact hx)] at hy
  simp only [canLock, LockManager.tryAcquire, List.all_eq_true] at hx hy ⊢
  rintro ⟨a, v⟩ hm
  have hy := hy (a, v) hm
  by_cases ha : a ∈ x.map Prod.fst
  case neg => simpa only [lookup_acquire_of_not_mem ha] using hy
  case pos =>
    obtain ⟨lockers, hl, hn⟩ := lookup_acquire_of_mem (m := e.lockManager) (k := k) ha
    obtain ⟨⟨b, v'⟩, hx', he⟩ := List.mem_map.mp ha
    obtain rfl : b = a := he
    have hx := hx (b, v') hx'
    simp only [hl, Option.all_some] at hy
    cases v
    case true => exact absurd (by simpa [AccountLockers.canLock] using hy) hn
    case false =>
      cases ho : e.lockManager.accountLocks.lookup b
      case none => simp
      case some old =>
        simp only [ho, Option.all_some, canLock_iff_lookup] at hx ⊢
        exact ⟨hx.left, fun hf => by cases hf⟩

theorem InTurn.canLock (ht : InTurn e txs) :
    ∀ tx ∈ txs, AuctionBatchScheduler.canLock e tx.2 = true := by
  induction txs generalizing e
  case nil => simp
  case cons tx txs ih =>
    intro tx' hm
    rcases List.mem_cons.mp hm with rfl | hm
    · exact ht.left
    · exact canLock_of_lock ht.left <| ih ht.right tx' hm

section Depth

-- How deep an account is queued, where no entry counts as 0.
def depth (m : LockManager ℚ) (a : Pubkey) : ℚ :=
  (m.queueDepths.lookup a).getD 0

theorem depth_queue : depth (m.queueTransaction x) a = depth m a + mentions x a := by
  simp only [LockManager.queueTransaction]
  induction x generalizing m
  case nil => simp [mentions]
  case cons l x ih =>
    obtain ⟨a', v⟩ := l
    rw [List.foldl_cons, ih, mentions_cons]
    by_cases he : a = a'
    case pos =>
      subst he
      simp only [depth, LockManager.queueOne, Finmap.lookup_insert, Option.getD_some, if_true]
      push_cast
      ring
    case neg =>
      simp [depth, LockManager.queueOne, Finmap.lookup_insert_of_ne _ he, he]

theorem depth_le_queue : depth m a ≤ depth (m.queueTransaction x) a := by
  rw [depth_queue]
  exact le_add_of_nonneg_right <| Nat.cast_nonneg _

theorem queueDepths_releaseAll :
    (releaseAll e txs).lockManager.queueDepths = e.lockManager.queueDepths := by
  rw [releaseAll]
  induction txs generalizing e
  case nil          => rfl
  case cons tx _ ih => exact ih.trans queueDepths_release

-- Nothing was queued since `e₀`, or some account is queued deeper by now.
structure Grown (e₀ e : Engine) : Prop where
  le    : ∀ a, depth e₀.lockManager a ≤ depth e.lockManager a
  grown : e.lockManager.accountLocks = e₀.lockManager.accountLocks ∨
            ∃ a, depth e₀.lockManager a < depth e.lockManager a

theorem Grown.refl : Grown e e :=
  ⟨fun _ => le_rfl, .inl rfl⟩

theorem Grown.next (hg : Grown e₀ e) :
    Grown e₀ (queueTransaction { e with lockManager := e.lockManager.acquire k x } x) := by
  have hd : ∀ a, depth (e.lockManager.acquire k x) a = depth e.lockManager a := fun a => by
    rw [depth, queueDepths_acquire, depth]
  refine ⟨fun a => (hg.le a).trans <| (hd a).symm.trans_le depth_le_queue, ?_⟩
  cases x
  case nil => exact hg.grown
  case cons l x =>
    refine .inr ⟨l.1, (hg.le l.1).trans_lt ?_⟩
    change _ < depth (LockManager.queueTransaction _ _) _
    rw [depth_queue, hd, mentions_cons, if_pos rfl]
    exact lt_add_of_pos_right _ <| by positivity

-- The locks are given back if one of the transactions cannot be locked, the queue depths are not:
-- what was granted on its own has met a lock of an earlier transaction, which was queued for it.
theorem acquireBundle_grows (hc : ∀ tx ∈ txs, canLock e₀ tx.2 = true) (hg : Grown e₀ e)
    (ha : acquireBundle bundle txs e = (e', false)) :
    ∃ a, depth e₀.lockManager a < depth e'.lockManager a := by
  induction txs generalizing e
  case nil => simp [acquireBundle] at ha
  case cons tx txs ih =>
    obtain ⟨k, x⟩ := tx
    rw [acquireBundle_cons] at ha
    split at ha
    case isTrue => exact ih (fun tx ht => hc tx <| List.mem_cons_of_mem _ ht) hg.next ha
    case isFalse hl =>
      cases ha
      have hx := hc (k, x) List.mem_cons_self
      simp only [depth, queueDepths_releaseAll]
      refine hg.grown.resolve_left fun he => hl ?_
      rwa [canLock, tryAcquire_congr he]

end Depth

end AuctionBatchScheduler
