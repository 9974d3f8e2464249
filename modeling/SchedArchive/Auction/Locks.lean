import SchedArchive.Custody.Locks
import SchedArchive.Auction.Laws

-- The lock manager of `AuctionBatchScheduler` records exactly who holds what.

namespace AuctionBatchScheduler

open AuctionEngine Except Ledger LockTable

variable {m : LockManager ℚ} {e : Engine} {g : Holders TransactionKey Pubkey} {k : TransactionKey}
variable {x : List Lock} {l : Lock} {txs : List (TransactionKey × List Lock)}

-- Every account has exactly the recorded lockers with their modes, and no entry is empty.
structure Records (m : LockManager ℚ) (g : Holders TransactionKey Pubkey) : Prop where
  lockers  : ∀ a k v, ((m.accountLocks.lookup a).getD ∅).lookup k = some v ↔ k ∈ g (a, v)
  nonempty : ∀ a lockers, m.accountLocks.lookup a = some lockers → lockers ≠ ∅

theorem records_new {decayRate : ℚ} : Records (.withDecayRate decayRate) fun _ => ∅ where
  lockers  := by simp [LockManager.withDecayRate]
  nonempty := by simp [LockManager.withDecayRate]

-- Only the lockers of accounts matter.
theorem Records.congr {m' : LockManager ℚ} (h : Records m g)
    (hm : m'.accountLocks = m.accountLocks) : Records m' g :=
  ⟨hm ▸ h.lockers, hm ▸ h.nonempty⟩

theorem tryAcquire_congr {m' : LockManager ℚ} (hm : m'.accountLocks = m.accountLocks) :
    m'.tryAcquire x = m.tryAcquire x := by
  rw [LockManager.tryAcquire, hm]
  rfl

theorem accountLocks_queueTransaction : (m.queueTransaction x).accountLocks = m.accountLocks := by
  rw [LockManager.queueTransaction]
  induction x generalizing m
  case nil         => rfl
  case cons l x ih => exact ih

theorem accountLocks_dequeueTransaction :
    (m.dequeueTransaction x).accountLocks = m.accountLocks := by
  rw [LockManager.dequeueTransaction]
  induction x generalizing m
  case nil => rfl
  case cons l x ih =>
    obtain ⟨a, v⟩ := l
    refine ih.trans ?_
    unfold LockManager.dequeueOne
    dsimp only
    split
    case h_1 => rfl
    case h_2 => split_ifs <;> rfl

theorem canLock_iff_lookup {lockers : AccountLockers} {v : Bool} : lockers.canLock v = true ↔
    (∀ k, lockers.lookup k ≠ some true) ∧ (v = true → ∀ k, lockers.lookup k ≠ some false) := by
  cases v
  case false =>
    simp only [AccountLockers.canLock, decide_eq_true_eq, reduceCtorEq, false_implies, and_true]
    constructor
    case mp  => exact fun h k hk => nomatch h ⟨k, true⟩ <| Finmap.lookup_eq_some_iff.mp hk
    case mpr =>
      rintro h ⟨k, v⟩ he
      exact Bool.eq_false_iff.mpr fun hv => h k <| Finmap.lookup_eq_some_iff.mpr <| hv ▸ he
  case true =>
    simp only [AccountLockers.canLock, decide_eq_true_eq, Finmap.eq_empty_iff_lookup,
      Option.eq_none_iff_forall_ne_some, Bool.forall_bool, true_implies]
    exact ⟨fun h => ⟨fun k => (h k).right, fun k => (h k).left⟩, fun h k => ⟨h.right k, h.left k⟩⟩

-- An account without an entry can be locked, as one without holders.
theorem all_canLock {lockers : Option AccountLockers} {v : Bool} :
    lockers.all (·.canLock v) = (lockers.getD ∅).canLock v := by
  cases lockers
  case none   => cases v <;> rfl
  case some _ => rfl

theorem Records.canLock_account (h : Records m g) (a : Pubkey) (v : Bool) :
    (m.accountLocks.lookup a).all (·.canLock v) = true ↔
      g (a, true) = ∅ ∧ (v = true → g (a, false) = ∅) := by
  simp only [all_canLock, canLock_iff_lookup, ne_eq, h.lockers, Finset.eq_empty_iff_forall_notMem]

theorem Records.canLock_iff (h : Records m g) : m.tryAcquire x = true ↔ Grants g x := by
  simp only [LockManager.tryAcquire, List.all_eq_true, Prod.forall, h.canLock_account, Grants]

-- The entry of an account is replaced by one for its other holders, or dropped with the last.
theorem Records.update {m' : LockManager ℚ} {g' : Holders TransactionKey Pubkey} {a : Pubkey}
    (lockers : AccountLockers) (h : Records m g)
    (hl : ∀ k v, lockers.lookup k = some v ↔ k ∈ g' (a, v))
    (hm : ∀ a', m'.accountLocks.lookup a' = if a' = a then (if lockers = ∅ then none else lockers)
      else m.accountLocks.lookup a')
    (hg : ∀ a' ≠ a, ∀ v, g' (a', v) = g (a', v)) : Records m' g' where
  lockers a' k v := by
    rw [hm]
    split_ifs with ha he
    · rw [ha, ← hl k v, he]
      rfl
    · rw [ha, ← hl k v]
      rfl
    · rw [hg a' ha, ← h.lockers a' k v]
  nonempty a' lockers' hs := by
    rw [hm] at hs
    split_ifs at hs with ha he
    · exact Option.some_inj.mp hs ▸ he
    · exact h.nonempty a' lockers' hs

theorem Records.acquireOne (h : Records m g) (hk : ∀ v, k ∉ g (l.1, v)) :
    Records (m.acquireOne k l) (add g k [l]) := by
  obtain ⟨a, v⟩ := l
  let lockers : AccountLockers := ((m.accountLocks.lookup a).getD ∅).insert k v
  refine h.update (a := a) lockers (fun k' v' => ?_) (fun a' => ?_) fun a' ha v' => by simp [add, ha]
  case refine_1 =>
    rw [Finmap.lookup_insert_eq_ite, mem_add, List.mem_singleton, Prod.mk.injEq]
    split
    case isTrue hk' => simp [hk', hk v', eq_comm]
    case isFalse hk' => simp [hk', h.lockers a k' v']
  case refine_2 =>
    have hn : lockers ≠ ∅ := fun he => by
      have := congrArg (Finmap.lookup k) he
      simp [lockers] at this
    rw [if_neg hn]
    exact Finmap.lookup_insert_eq_ite

-- One by one: no mode is overwritten, as no account is listed twice.
theorem Records.acquire (h : Records m g) (hx : (x.map Prod.fst).Nodup) (hk : ∀ l, k ∉ g l) :
    Records (m.acquire k x) (add g k x) := by
  rw [LockManager.acquire]
  replace hk : ∀ l ∈ x, ∀ v, k ∉ g (l.1, v) := fun l _ v => hk (l.1, v)
  induction x generalizing m g
  case nil => simpa [add_nil] using h
  case cons l x ih =>
    obtain ⟨hl, hx⟩ := List.nodup_cons.mp hx
    rw [List.foldl_cons, ← add_cons]
    refine ih (h.acquireOne <| hk l List.mem_cons_self) hx fun l' hm v => ?_
    simp only [mem_add, List.mem_singleton, not_or, not_and]
    refine ⟨hk l' (List.mem_cons_of_mem _ hm) v, fun _ he => hl ?_⟩
    have he : l'.1 = l.1 := he ▸ rfl
    exact he ▸ List.mem_map_of_mem hm

-- The entry of an account without the key, if there is anyone else.
theorem lookup_releaseOne {a a' : Pubkey} {v : Bool} :
    (m.releaseOne k (a, v)).accountLocks.lookup a' =
      if a' = a then (if ((m.accountLocks.lookup a).getD ∅).erase k = ∅ then none
        else some (((m.accountLocks.lookup a).getD ∅).erase k))
      else m.accountLocks.lookup a' := by
  unfold LockManager.releaseOne
  dsimp only
  split
  case h_1 hs =>
    have he : (∅ : AccountLockers).erase k = ∅ :=
      Finmap.eq_empty_iff_lookup.mpr fun k' => by simp [Finmap.lookup_erase_eq_ite]
    rw [hs, Option.getD_none, if_pos he]
    split
    case isTrue ha => exact ha ▸ hs
    case isFalse   => rfl
  case h_2 lockers hs =>
    rw [hs, Option.getD_some]
    split
    case isTrue => exact Finmap.lookup_erase_eq_ite
    case isFalse => exact Finmap.lookup_insert_eq_ite

theorem Records.releaseOne (h : Records m g) :
    Records (m.releaseOne k l) (removeFrom g k [(l.1, true), (l.1, false)]) := by
  obtain ⟨a, v⟩ := l
  have hg : ∀ a' ≠ a, ∀ v', removeFrom g k [(a, true), (a, false)] (a', v') = g (a', v') := by
    intro a' ha v'
    simp [removeFrom, ha]
  have hr : ∀ k' v', (((m.accountLocks.lookup a).getD ∅).erase k).lookup k' = some v' ↔
      k' ∈ removeFrom g k [(a, true), (a, false)] (a, v') := by
    intro k' v'
    have hm : (a, v') ∈ [(a, true), (a, false)] := by cases v' <;> simp
    rw [Finmap.lookup_erase_eq_ite, removeFrom, if_pos hm, Finset.mem_erase, ← h.lockers a k' v']
    split <;> simp_all
  exact h.update _ hr (fun _ => lookup_releaseOne) hg

-- Releasing an account takes away both modes, so the modes of the list do not matter.
theorem Records.release (h : Records m g) (hk : ∀ l, k ∈ g l → l ∈ x) :
    Records (m.release k x) (remove g k) := by
  have hr : removeFrom g k (x.flatMap fun l => [(l.1, true), (l.1, false)]) = remove g k := by
    refine removeFrom_eq_remove fun l hl => List.mem_flatMap.mpr ⟨l, hk l hl, ?_⟩
    rcases l with ⟨a, _ | _⟩ <;> simp
  rw [← hr, LockManager.release]
  clear hk hr
  induction x generalizing m g
  case nil => simpa [removeFrom_nil] using h
  case cons l x ih =>
    rw [List.flatMap_cons, ← removeFrom_append]
    exact ih h.releaseOne

theorem Records.releaseAll (h : Records e.lockManager (addAll g txs))
    (hk : ∀ tx ∈ txs, ∀ l, tx.1 ∉ g l) (hn : (txs.map Prod.fst).Nodup) :
    Records (releaseAll e txs).lockManager g := by
  rw [AuctionBatchScheduler.releaseAll]
  induction txs generalizing e
  case nil => exact h
  case cons tx txs ih =>
    obtain ⟨k, x⟩ := tx
    have ⟨hf, hn⟩ := List.nodup_cons.mp hn
    have hk' := hk (k, x) List.mem_cons_self
    refine ih (e := e.releaseLocks k x) ?_ (fun tx ht => hk tx <| List.mem_cons_of_mem _ ht) hn
    rw [← remove_addAll_cons hk' hf (x := x)]
    exact h.release fun l => mem_of_mem_addAll_cons hk' hf

theorem acquireBundle_cons {rest : List (TransactionKey × List Lock)} :
    acquireBundle txs ((k, x) :: rest) e =
      if canLock e x then acquireBundle txs rest
        (queueTransaction { e with lockManager := e.lockManager.acquire k x } x)
      else (releaseAll e (txs.takeWhile (·.1 ≠ k)), false) := by
  rw [acquireBundle, acquireLocks, canLock]
  by_cases hl : e.lockManager.tryAcquire x = true
  · rw [if_pos hl, if_pos hl]
  · rw [if_neg hl, if_neg hl]

section Bundle

-- The transactions of a bundle that are locked already, and those that are not.
variable {acq rest : List (TransactionKey × List Lock)}

theorem takeWhile_front (hn : ((acq ++ (k, x) :: rest).map Prod.fst).Nodup) :
    (acq ++ (k, x) :: rest).takeWhile (·.1 ≠ k) = acq := by
  rw [List.map_append, List.map_cons, List.nodup_append] at hn
  rw [List.takeWhile_append_of_pos fun tx ht => ?_, List.takeWhile_cons_of_neg (by simp),
    List.append_nil]
  exact decide_eq_true <| hn.right.right tx.1 (List.mem_map_of_mem ht) k List.mem_cons_self

-- One more transaction is locked.
theorem Records.acquireNext (h : Records e.lockManager (addAll g acq)) (hk : ∀ l, k ∉ g l)
    (hx : (x.map Prod.fst).Nodup) (hn : ((acq ++ (k, x) :: rest).map Prod.fst).Nodup) :
    Records (queueTransaction { e with lockManager := e.lockManager.acquire k x } x).lockManager
      (addAll g (acq ++ [(k, x)])) := by
  rw [List.map_append, List.map_cons, List.nodup_append] at hn
  rw [addAll_append]
  refine Records.congr (h.acquire hx fun l hm => ?_) accountLocks_queueTransaction
  rcases mem_addAll.mp hm with hm | ⟨tx, ht, he, _⟩
  · exact hk l hm
  · exact hn.right.right tx.1 (List.mem_map_of_mem ht) k List.mem_cons_self he.symm

-- All or nothing: the transactions of a bundle are locked one after the other, and if one of them
-- cannot be, those before it are released again.
theorem Records.acquireBundle (acq : List (TransactionKey × List Lock))
    (h : Records e.lockManager (addAll g acq))
    (hk : ∀ tx ∈ acq ++ rest, ∀ l, tx.1 ∉ g l) (hx : ∀ tx ∈ rest, (tx.2.map Prod.fst).Nodup)
    (hn : ((acq ++ rest).map Prod.fst).Nodup) :
    Records (acquireBundle (acq ++ rest) rest e).1.lockManager
      (if (acquireBundle (acq ++ rest) rest e).2 then addAll g (acq ++ rest) else g) := by
  induction rest generalizing acq e
  case nil => simpa [AuctionBatchScheduler.acquireBundle] using h
  case cons tx rest ih =>
    obtain ⟨k, x⟩ := tx
    rw [acquireBundle_cons]
    split
    case isTrue hl =>
      have hr := h.acquireNext (hk (k, x) (by simp)) (hx (k, x) List.mem_cons_self) hn
      rw [List.append_cons] at hk hn ⊢
      exact ih _ hr hk (fun tx ht => hx tx <| List.mem_cons_of_mem _ ht) hn
    case isFalse hl =>
      rw [takeWhile_front hn]
      rw [List.map_append, List.nodup_append] at hn
      exact h.releaseAll (fun tx ht => hk tx <| List.mem_append_left _ ht) hn.left

-- It is all exactly if no transaction conflicts with the holders or with one in front of it.
theorem Records.acquireBundle_iff (acq : List (TransactionKey × List Lock))
    (h : Records e.lockManager (addAll g acq))
    (hk : ∀ tx ∈ acq ++ rest, ∀ l, tx.1 ∉ g l) (hx : ∀ tx ∈ rest, (tx.2.map Prod.fst).Nodup)
    (hn : ((acq ++ rest).map Prod.fst).Nodup) :
    (AuctionBatchScheduler.acquireBundle (acq ++ rest) rest e).2 = true ↔
      (∀ tx ∈ rest, Grants (addAll g acq) tx.2) ∧
        rest.Pairwise fun tx tx' => ¬Conflict tx'.2 tx.2 := by
  induction rest generalizing acq e
  case nil => simp [AuctionBatchScheduler.acquireBundle]
  case cons tx rest ih =>
    obtain ⟨k, x⟩ := tx
    rw [acquireBundle_cons]
    split
    case isTrue hl =>
      have hr := h.acquireNext (hk (k, x) (by simp)) (hx (k, x) List.mem_cons_self) hn
      have hg := h.canLock_iff.mp hl
      rw [List.append_cons] at hk hn ⊢
      have hc : ∀ tx, Grants (addAll g (acq ++ [(k, x)])) tx ↔
          Grants (addAll g acq) tx ∧ ¬Conflict tx x := by
        simp [addAll_append, grants_addAll (h := addAll g acq)]
      rw [ih _ hr hk (fun tx ht => hx tx <| List.mem_cons_of_mem _ ht) hn, List.forall_mem_cons,
        List.pairwise_cons]
      simp only [hc, forall_and, hg, true_and, and_assoc]
    case isFalse hl =>
      simp only [Bool.false_eq_true, false_iff, not_and]
      intro hg
      exact absurd (h.canLock_iff.mpr <| hg (k, x) List.mem_cons_self) hl

end Bundle

theorem accountLocks_foldl {α : Type} {f : Engine → α → Engine} {as : List α}
    (hf : ∀ e a, (f e a).lockManager.accountLocks = e.lockManager.accountLocks) :
    (as.foldl f e).lockManager.accountLocks = e.lockManager.accountLocks := by
  induction as generalizing e
  case nil          => rfl
  case cons a as ih => exact ih.trans <| hf e a

theorem accountLocks_startTx (hl : canLock e x = true) :
    (startTx e k x).lockManager.accountLocks = (e.lockManager.acquire k x).accountLocks := by
  rw [startTx, lock, acquireLocks, if_pos (by exact hl)]
  exact accountLocks_dequeueTransaction.trans accountLocks_queueTransaction

theorem Records.startTx (h : Records e.lockManager g) (hx : (x.map Prod.fst).Nodup)
    (hk : ∀ l, k ∉ g l) (hl : Grants g x) : Records (startTx e k x).lockManager (add g k x) :=
  (h.acquire hx hk).congr <| accountLocks_startTx <| h.canLock_iff.mpr hl

theorem Records.startBundle (txs : List (TransactionKey × List Lock)) (h : Records e.lockManager g)
    (ht : ∀ tx ∈ txs, (tx.2.map Prod.fst).Nodup ∧ ∀ l, tx.1 ∉ g l)
    (hn : (txs.map Prod.fst).Nodup) : Records (startBundle e txs).1.lockManager
      (if (startBundle e txs).2 then addAll g txs else g) := by
  have hr := Records.acquireBundle [] h (fun tx hm => (ht tx hm).right)
    (fun tx hm => (ht tx hm).left) hn
  rw [AuctionBatchScheduler.startBundle]
  split
  case h_1 he =>
    rw [List.nil_append, he] at hr
    exact hr.congr <| accountLocks_foldl fun _ _ => accountLocks_dequeueTransaction
  case h_2 he =>
    rw [List.nil_append, he] at hr
    exact hr

-- A transaction is only ever locked if its list of locks does not repeat an account. Nothing is said
-- about the two tip transactions: the second of them is locked without being checked.
theorem tracks {t : Terms Engine} (hb : ∀ tx, t.brings tx → (tx.resolvedLocks.map Prod.fst).Nodup)
    (hr : ∀ e e', t.reprices e e' → e'.lockManager.accountLocks = e.lockManager.accountLocks)
    (ht : ¬t.tips) :
    lockPolicy.Tracks t (fun e => Records e.lockManager) (fun x => (x.map Prod.fst).Nodup) where
  brings tx h   := ⟨(hb tx h).sublist <| Tx.locks_sublist.map _, hb tx h⟩
  canLock h     := h.canLock_iff
  queue h       := h.congr accountLocks_queueTransaction
  dequeue h     := h.congr accountLocks_dequeueTransaction
  reprices h hs := h.congr <| hr _ _ hs
  unlock h _ hk := h.release fun l => (hk l).mp
  lockTips _ h  := absurd h ht
  startTx h hx hk hl := h.startTx hx hk hl
  startBundle h ht hn :=
    Records.startBundle _ h (fun tx hm => ⟨(ht tx hm).left, (ht tx hm).right.right⟩) hn

end AuctionBatchScheduler
