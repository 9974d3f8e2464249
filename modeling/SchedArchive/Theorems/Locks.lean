import SchedArchive.Batch.Locks
import SchedArchive.Auction.Locks
import SchedArchive.Custody.Frame
import SchedArchive.Theorems.Runs

-- Executing transactions hold their locks, and what does not hold them together excludes each other.

open Except Ledger LockTable Scheduler

namespace BatchScheduler

variable {E : Env} {w : World InFlightLocks}

def terms : Terms InFlightLocks where
  brings tx       := tx.resolvedLocks.Nodup
  reprices s s'   := s' = s
  tips            := True
  starts          := True

theorem within_terms {e : Event} (he : LocksOnce w e) : scheduler.Within E terms w e where
  brings     := he
  tips _ _   := .inl trivial
  starts _   := .inl trivial
  ticks _    := rfl
  prices _ _ := rfl

theorem kept_terms : Kept lockPolicy E terms (fun f => ¬f.IsCustody ∧ ¬f.IsLock)
    (fun l h => l.Custody E h ∧ l.Locked Exact List.Nodup) :=
  kept_locked (tracks (fun _ => id) fun _ _ => id) fun _ _ =>
    TipProgram.nodup_locks_newSignedWithPayer.of_map _

theorem locked (hr : scheduler.Reach E ∅ LocksOnce w) : w.Custody E 0 ∧ w.Locked Exact List.Nodup :=
  kept_terms.reach lawful ⟨custody_empty, locked_empty exact_empty⟩ (fun _ _ _ => within_terms) hr

-- The lock table is exact: an account has the executing transactions that write to it as writers,
-- those that read it as readers, and no entry otherwise. No step runs into a panic of the table, and
-- transactions that execute at the same time and conflict were sent together.
theorem lock_table_exact (hr : scheduler.Reach E ∅ LocksOnce w) :
    (∀ a, (w.locks.lookup a).getD .default =
      ⟨w.executingTx.filter ((a, true) ∈ w.locksOf ·),
        w.executingTx.filter ((a, false) ∈ w.locksOf ·)⟩) ∧
    (∀ a lockers, w.locks.lookup a = some lockers → lockers.isEmpty = false) ∧
    (∀ e : Event, e.Enabled w → LocksOnce w e →
      (scheduler.step E w e).Ensures (fun _ => True) (¬·.IsLock)) ∧
    w.Exclusive := by
  have hi := locked hr
  refine ⟨hi.right.table.lockers, hi.right.table.nonempty, fun e he hl => ?_, hi.right.exclusive⟩
  exact (kept_terms.step lawful hi he <| within_terms hl).mono (fun _ _ => trivial) fun _ => And.right

theorem lock_table_exact_tips_and_bundle :
    ∃ w, scheduler.Reach Sample.env ∅ LocksOnce w ∧ w.executingTx = {1, 2, 3} ∧
      (w.locks.lookup Sample.env.keypair).getD .default = ⟨{2, 3}, ∅⟩ := by
  have ⟨w, hr, hx, ht, hf⟩ :
      ∃ w, scheduler.Reach Sample.env ∅ LocksOnce w ∧ w.executingTx = {1, 2, 3} ∧
        w.executingTx.filter ((Sample.env.keypair, true) ∈ w.locksOf ·) = {2, 3} ∧
        w.executingTx.filter ((Sample.env.keypair, false) ∈ w.locksOf ·) = ∅ :=
    Sample.exists_reach (Sample.bundled ⟨1000000, 999, 0⟩) (by decide +kernel)
  refine ⟨w, hr, hx, ?_⟩
  rw [(lock_table_exact hr).left, ht, hf]

end BatchScheduler

namespace AuctionBatchScheduler

variable {E : Env} {libm : AuctionEngine.Libm ℚ} {minScore : Nat} {w : World Engine} {e : Event}

-- Every executing transaction is recorded on each of its accounts, with the mode it asked for.
def HoldsLocks (w : World Engine) : Prop :=
  ∀ k ∈ w.executingTx, ∀ l ∈ w.locksOf k,
    ((w.locks.lockManager.accountLocks.lookup l.1).getD ∅).lookup k = some l.2

-- The list of locks is gone through, and not all there are.
instance : DecidablePred HoldsLocks :=
  fun w =>
    let _ (k : TransactionKey) : Decidable (∀ l ∈ w.locksOf k,
      ((w.locks.lockManager.accountLocks.lookup l.1).getD ∅).lookup k = some l.2) :=
        List.decidableBAll ..
    inferInstanceAs <| Decidable (∀ k ∈ w.executingTx, ∀ l ∈ w.locksOf k,
      ((w.locks.lockManager.accountLocks.lookup l.1).getD ∅).lookup k = some l.2)

-- The slot roll with which the leader takes over as tip receiver: it just became ready, and the
-- first of the two tip transactions can be locked.
def TakesTips (E : Env) (w : World Engine) : Event → Prop
  | .checkSlotRoll message =>
    (message.getD w.progress).leaderReady ∧ ¬w.slotStats.wasLeaderReady ∧
      canLock w.locks (initTx E { w with slot := (message.getD w.progress).currentSlot }).locks
  | _ => False

instance (E : Env) (w : World Engine) : DecidablePred (TakesTips E w)
  | .checkSlotRoll _ => inferInstanceAs <| Decidable (_ ∧ _ ∧ _)
  | .clock _ | .workerReads _ | .setRuntimeConfig _ | .updateBasePrices _ | .workerResponse _ _
  | .processTick | .drainTpu _ _ | .dropExpiredBundles | .drainJito _ _ | .scheduleChecks _
  | .scheduleExecute | .restartRecheck => isFalse id

-- The second tip transaction starts without its locks, for it always conflicts with the first.
theorem conflict_tips {config : TipConfig} :
    Conflict (initTx E w).locks (changeTx E w config).locks :=
  ⟨E.keypair, true, true, TipProgram.payer_mem_locks, TipProgram.payer_mem_locks, .inl rfl⟩

def terms : Terms Engine where
  brings tx     := (tx.resolvedLocks.map Prod.fst).Nodup
  reprices s s' := s'.lockManager.accountLocks = s.lockManager.accountLocks
  tips          := False
  starts        := True

theorem accountLocks_drainDeferred {ids : List PriorityId} :
    ((scheduler libm minScore).drainDeferred ids w).Ensures
      (·.locks.lockManager.accountLocks = w.locks.lockManager.accountLocks) (fun _ => True) := by
  refine ensures_drainDeferred (J := fun _ (w₁ : World Engine) =>
    w₁.locks.lockManager.accountLocks = w.locks.lockManager.accountLocks) ?_ rfl
  intro id ids w₁ hw
  simp only [World.insertCheckedNew, ensures_bind, ensures_require, ensures_pure]
  exact ⟨fun _ => accountLocks_queueTransaction.trans hw, fun _ => trivial⟩

-- The first half of the slot roll does not change who holds what.
theorem accountLocks_rolled {message : Option ProgressMessage} :
    ((scheduler libm minScore).rolled E w message).Ensures
      (·.locks.lockManager.accountLocks = w.locks.lockManager.accountLocks) (fun _ => True) := by
  have ho : (observeProgress w message).Ensures (·.locks = w.locks) (fun _ => True) := by
    cases message <;> simp [observeProgress]
  rw [rolled, ensures_bind]
  refine ho.imp fun w₁ hl => ?_
  have hl := congrArg (·.lockManager.accountLocks) hl
  split
  case isTrue =>
    simp only [rollSlot, ensures_bind]
    exact accountLocks_drainDeferred.imp fun w₂ hw => hw.trans hl
  case isFalse => exact hl

theorem takesTips_of_activatesTips {message : Option ProgressMessage}
    (ha : (scheduler libm minScore).ActivatesTips E w message) :
    TakesTips E w (.checkSlotRoll message) := by
  have ⟨w₁, config, hw, hl, hn, _, ht⟩ := ha
  have hr := settings_rolled.of_ok hw
  have hp : w₁.progress = message.getD w.progress := congrArg (·.progress) hr
  have hs : w₁.slot = (message.getD w.progress).currentSlot := congrArg (·.slot) hr
  refine ⟨hp ▸ hl, hn, ?_⟩
  rw [canLock, ← tryAcquire_congr (accountLocks_rolled.of_ok hw), initTx, tipDistributionKey, ← hs]
  exact ht

theorem within_terms (hl : AccountsOnce w e) (ht : ¬TakesTips E w e) :
    (scheduler libm minScore).Within E terms w e where
  brings     := hl
  tips _ he  := .inr fun ha => ht <| he ▸ takesTips_of_activatesTips ha
  starts _   := .inl trivial
  ticks _    := rfl
  prices _ _ := rfl

theorem kept_terms : Kept lockPolicy E terms (fun f => ¬f.IsCustody ∧ ¬f.IsLock)
    (fun l h => l.Custody E h ∧
      l.Locked (fun e => Records e.lockManager) fun x => (x.map Prod.fst).Nodup) :=
  kept_locked (tracks (fun _ => id) (fun _ _ => id) id) fun _ _ =>
    TipProgram.nodup_locks_newSignedWithPayer

-- As long as the leader does not take over as tip receiver, every executing transaction holds its
-- locks, and transactions that execute at the same time and conflict were sent together.
theorem executing_holds_locks (hr : (scheduler libm minScore).Reach E initialEngine
    (fun w e => AccountsOnce w e ∧ ¬TakesTips E w e) w) : HoldsLocks w ∧ w.Exclusive := by
  have ⟨_, hl⟩ := kept_terms.reach lawful ⟨custody_empty, locked_empty records_new⟩
    (fun w e _ hc => within_terms hc.left hc.right) hr
  refine ⟨fun k hk l hm => ?_, hl.exclusive⟩
  exact (hl.table.lockers l.1 k l.2).mpr <| mem_held.mpr ⟨hk, hm⟩

theorem executing_holds_locks_transaction :
    ∃ w, Sample.auction.Reach Sample.env initialEngine
        (fun w e => AccountsOnce w e ∧ ¬TakesTips Sample.env w e) w ∧
      w.executingTx = {0} ∧ HoldsLocks w ∧ w.Exclusive := by
  have ⟨w, hr, hx⟩ : ∃ w, Sample.auction.Reach Sample.env initialEngine
      (fun w e => AccountsOnce w e ∧ ¬TakesTips Sample.env w e) w ∧ w.executingTx = {0} :=
    Sample.exists_reach
      (Sample.poll false 1 [] [Sample.tx [(10, true), (11, true)] 999 1000] [] ++
        [.workerResponse ⟨⟨999399374, 999, 0⟩, .firstCheck⟩ Sample.passed, .scheduleExecute])
      (by decide +kernel)
  exact ⟨w, hr, hx, executing_holds_locks hr⟩

-- A transaction that writes to a tip account is checked before the leader takes over. It executes
-- next to the second tip transaction, which writes to the same account and holds no locks.
theorem tips_execute_without_locks :
    ∃ w, Sample.auction.Reach Sample.env initialEngine AccountsOnce w ∧
      ¬HoldsLocks w ∧ ¬w.Exclusive := by
  let tipAccount := TipProgram.tipAccounts.headD 0
  have ⟨w, hr, hl, hx, hx', hm, hm', hu⟩ :
      ∃ w, Sample.auction.Reach Sample.env initialEngine AccountsOnce w ∧ ¬HoldsLocks w ∧
        0 ∈ w.executingTx ∧ 2 ∈ w.executingTx ∧ (tipAccount, true) ∈ w.locksOf 0 ∧
        (tipAccount, true) ∈ w.locksOf 2 ∧ ∀ u ∈ w.units, ¬(0 ∈ u.keys ∧ 2 ∈ u.keys) :=
    Sample.exists_reach
      (Sample.poll false 1 [] [Sample.tx [(10, true), (tipAccount, true)] 999 1000]
          [.tipConfig ⟨20, 21⟩] ++
        Sample.poll true 1 [(⟨⟨999399374, 999, 0⟩, .firstCheck⟩, Sample.passed)] [] [])
      (by decide +kernel)
  refine ⟨w, hr, hl, fun he => ?_⟩
  have ⟨u, hmu, hk⟩ := he 0 hx 2 hx' (by decide) ⟨tipAccount, true, true, hm, hm', .inl rfl⟩
  exact hu u hmu hk

end AuctionBatchScheduler
