import SchedArchive.Lib.FiniteMap
import SchedArchive.Custody.Locks
import SchedArchive.Batch.Scheduler

-- The lock table of `BatchScheduler` records exactly who holds what.

namespace BatchScheduler

open Except LockTable

variable {s s' : InFlightLocks} {g : Holders TransactionKey Pubkey} {k : TransactionKey}
variable {x : List Lock} {l : Lock}

-- Every account has exactly the recorded writers and readers, and no entry is empty.
structure Exact (s : InFlightLocks) (g : Holders TransactionKey Pubkey) : Prop where
  lockers  : ∀ a, (s.lookup a).getD .default = ⟨g (a, true), g (a, false)⟩
  nonempty : ∀ a lockers, s.lookup a = some lockers → lockers.isEmpty = false

theorem exact_empty : Exact ∅ fun _ => ∅ where
  lockers  := by simp [AccountLockers.default]
  nonempty := by simp

-- There is only one table for given holders.
theorem Exact.unique (h : Exact s g) (h' : Exact s' g) : s = s' := by
  have hd : ∀ lockers : AccountLockers, lockers.isEmpty = false → lockers ≠ .default := by
    rintro lockers hn rfl
    exact nomatch hn
  refine Finmap.ext_lookup fun a => ?_
  have he : (s.lookup a).getD .default = (s'.lookup a).getD .default :=
    (h.lockers a).trans (h'.lockers a).symm
  cases hs : s.lookup a <;> cases hs' : s'.lookup a
  case none.none => rfl
  case none.some lockers =>
    rw [hs, hs'] at he
    exact absurd he.symm <| hd lockers <| h'.nonempty a lockers hs'
  case some.none lockers =>
    rw [hs, hs'] at he
    exact absurd he <| hd lockers <| h.nonempty a lockers hs
  case some.some =>
    rw [hs, hs'] at he
    exact congrArg some he

theorem Exact.canLock_account (h : Exact s g) (a : Pubkey) (v : Bool) :
    (s.lookup a).all (·.canLock v) = true ↔ g (a, true) = ∅ ∧ (v = true → g (a, false) = ∅) := by
  have hl := h.lockers a
  cases hs : s.lookup a
  case none =>
    simp only [hs, Option.getD_none, AccountLockers.default, AccountLockers.mk.injEq] at hl
    simp [← hl.left, ← hl.right]
  case some lockers =>
    simp only [hs, Option.getD_some] at hl
    cases v <;> simp [hl, AccountLockers.canLock, AccountLockers.isEmpty]

theorem Exact.canLock_iff (h : Exact s g) : canLock s x = true ↔ Grants g x := by
  simp only [canLock, List.all_eq_true, Prod.forall, h.canLock_account, Grants]

-- An entry is replaced by one for other holders of its account.
theorem Exact.insert {g' : Holders TransactionKey Pubkey} {a : Pubkey} {lockers : AccountLockers}
    (h : Exact s g) (hl : lockers = ⟨g' (a, true), g' (a, false)⟩) (hn : lockers.isEmpty = false)
    (hg : ∀ a' ≠ a, ∀ v, g' (a', v) = g (a', v)) : Exact (s.insert a lockers) g' where
  lockers a' := by
    rw [Finmap.lookup_insert_eq_ite]
    split
    case isTrue ha => simp [ha, hl]
    case isFalse ha => simp [hg a' ha, h.lockers a']
  nonempty a' lockers' hs := by
    rw [Finmap.lookup_insert_eq_ite] at hs
    split at hs
    case isTrue => exact Option.some_inj.mp hs ▸ hn
    case isFalse => exact h.nonempty a' lockers' hs

-- The entry of an account that no one holds any more is gone.
theorem Exact.erase {g' : Holders TransactionKey Pubkey} {a : Pubkey} (h : Exact s g)
    (hl : AccountLockers.default = ⟨g' (a, true), g' (a, false)⟩)
    (hg : ∀ a' ≠ a, ∀ v, g' (a', v) = g (a', v)) : Exact (s.erase a) g' where
  lockers a' := by
    rw [Finmap.lookup_erase_eq_ite]
    split
    case isTrue ha => simp [ha, hl]
    case isFalse ha => simp [hg a' ha, h.lockers a']
  nonempty a' lockers' hs := by
    rw [Finmap.lookup_erase_eq_ite] at hs
    split at hs
    case isTrue => exact nomatch hs
    case isFalse => exact h.nonempty a' lockers' hs

theorem Exact.lockOne (h : Exact s g) (hk : k ∉ g l) :
    (lockOne k s l).Ensures (Exact · (add g k [l])) (fun _ => False) := by
  obtain ⟨a, v⟩ := l
  rw [BatchScheduler.lockOne, h.lockers a]
  cases v
  all_goals
    simp only [AccountLockers.insert, ensures_bind, ensures_require, ensures_pure]
    refine ⟨fun _ => h.insert ?_ ?_ ?_, fun hn => hn hk⟩
    · simp [add]
    · simp [AccountLockers.isEmpty]
    · intro a' ha v'
      simp [add, ha]

-- One by one: no lock is taken twice, as none is listed twice.
theorem Exact.lock (h : Exact s g) (hx : x.Nodup) (hk : ∀ l ∈ x, k ∉ g l) :
    (lock s k x).Ensures (Exact · (add g k x)) (fun _ => False) := by
  rw [BatchScheduler.lock]
  induction x generalizing s g
  case nil => simpa [add_nil] using h
  case cons l x ih =>
    obtain ⟨hl, hx⟩ := List.nodup_cons.mp hx
    rw [List.foldlM_cons, ensures_bind, ← add_cons]
    refine (h.lockOne <| hk l List.mem_cons_self).imp fun s' h' => ih h' hx fun l' hm => ?_
    simp only [mem_add, List.mem_singleton, not_or, not_and]
    refine ⟨hk l' <| List.mem_cons_of_mem _ hm, fun _ => ?_⟩
    rintro rfl
    exact hl hm

theorem Exact.unlockOne (h : Exact s g) (hk : k ∈ g l) :
    (unlockOne k s l).Ensures (Exact · (removeFrom g k [l])) (fun _ => False) := by
  obtain ⟨a, v⟩ := l
  have hl := h.lockers a
  unfold BatchScheduler.unlockOne
  dsimp only
  split
  case h_1 hs =>
    simp only [hs, Option.getD_none, AccountLockers.default, AccountLockers.mk.injEq] at hl
    cases v <;> simp [← hl.left, ← hl.right] at hk
  case h_2 lockers hs =>
    simp only [hs, Option.getD_some] at hl
    have hg : ∀ a' ≠ a, ∀ v', removeFrom g k [(a, v)] (a', v') = g (a', v') := by
      intro a' ha v'
      simp [removeFrom, ha]
    cases v
    all_goals
      simp only [hl, AccountLockers.remove, ensures_bind, ensures_require, ensures_pure]
      refine ⟨fun _ => ?_, fun hn => hn hk⟩
      split
      case isTrue he =>
        simp only [AccountLockers.isEmpty, Bool.and_eq_true, decide_eq_true_eq] at he
        refine h.erase ?_ hg
        simp [AccountLockers.default, removeFrom, he]
      case isFalse he =>
        refine h.insert ?_ (by simpa using he) hg
        simp [removeFrom]

theorem Exact.unlock (h : Exact s g) (hx : x.Nodup) (hk : ∀ l, k ∈ g l ↔ l ∈ x) :
    (unlock s k x).Ensures (Exact · (remove g k)) (fun _ => False) := by
  rw [BatchScheduler.unlock, ← removeFrom_eq_remove fun l => (hk l).mp]
  replace hk := fun l => (hk l).mpr
  induction x generalizing s g
  case nil => simpa [removeFrom_nil] using h
  case cons l x ih =>
    have ⟨hl, hx⟩ := List.nodup_cons.mp hx
    rw [List.foldlM_cons, ensures_bind, ← List.singleton_append, ← removeFrom_append]
    refine (h.unlockOne <| hk l List.mem_cons_self).imp fun s' h' => ih h' hx fun l' hm => ?_
    have hn : l' ∉ [l] := by
      rw [List.mem_singleton]
      rintro rfl
      exact hl hm
    rw [removeFrom, if_neg hn]
    exact hk l' <| List.mem_cons_of_mem _ hm

theorem Exact.lockAll {txs : List (TransactionKey × List Lock)} (h : Exact s g)
    (hx : ∀ tx ∈ txs, tx.2.Nodup ∧ ∀ l, tx.1 ∉ g l) (hn : (txs.map Prod.fst).Nodup) :
    (lockAll s txs).Ensures (Exact · (addAll g txs)) (fun _ => False) := by
  rw [BatchScheduler.lockAll]
  induction txs generalizing s g
  case nil => exact h
  case cons tx txs ih =>
    obtain ⟨hk, hn⟩ := List.nodup_cons.mp hn
    obtain ⟨hd, hf⟩ := hx tx List.mem_cons_self
    rw [List.foldlM_cons, ensures_bind, addAll]
    refine (h.lock hd fun l _ => hf l).imp fun s' h' => ih h' (fun tx' ht => ?_) hn
    obtain ⟨hd', hf'⟩ := hx tx' <| List.mem_cons_of_mem _ ht
    refine ⟨hd', fun l => ?_⟩
    rw [mem_add, not_or]
    refine ⟨hf' l, fun he => hk ?_⟩
    exact he.left ▸ List.mem_map_of_mem ht

-- The only requirement on a transaction's list of locks is that it does not repeat a lock.
theorem tracks {t : Terms InFlightLocks} (hb : ∀ tx, t.brings tx → tx.resolvedLocks.Nodup)
    (hr : ∀ s s', t.reprices s s' → s' = s) : lockPolicy.Tracks t Exact List.Nodup where
  brings tx h        := ⟨(hb tx h).sublist Tx.locks_sublist, hb tx h⟩
  canLock h          := h.canLock_iff
  queue h            := h
  dequeue h          := h
  reprices h hs      := hr _ _ hs ▸ h
  unlock h hx hk     := h.unlock hx hk
  lockTips h _ hx hx' hn hk hk' hl := by
    have ⟨hl, hl'⟩ := Bool.and_eq_true_iff.mp hl
    refine ⟨h.canLock_iff.mp hl, h.canLock_iff.mp hl', ?_⟩
    refine (h.lock hx fun l _ => hk l).imp fun s' h' => h'.lock hx' fun l _ => ?_
    rw [mem_add, not_or]
    exact ⟨hk' l, fun he => hn he.left.symm⟩
  startTx h hx hk _  := h.lock hx fun l _ => hk l
  startBundle h ht hn := by
    rw [lockPolicy, ensures_map]
    exact h.lockAll (fun tx hm => ⟨(ht tx hm).left, (ht tx hm).right.right⟩) hn

end BatchScheduler
