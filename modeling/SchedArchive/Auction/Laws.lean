import SchedArchive.Custody.Frame
import SchedArchive.Auction.Scheduler

-- What the shared handlers rely on holds of `AuctionBatchScheduler`.

namespace AuctionBatchScheduler

open AuctionEngine Except Scheduler World

variable {E : Env} {w : World Engine} {worker budget : Nat} {tx : PriorityId} {bundle : BundleId}
variable {libm : Libm ℚ} {minScore : Nat}

theorem ensures_effectiveRemainingCu {F : Fault → Prop} (hf : E.overflowChecks → F .overflow) :
    (effectiveRemainingCu E w).Ensures (fun _ => True) F := by
  simp only [effectiveRemainingCu, ensures_bind]
  refine (Machine.ensures_sub hf).imp fun _ _ => (Machine.ensures_sub hf).imp fun _ _ => ?_
  exact Machine.ensures_sub hf

theorem priorityOf_lt (e : Engine) (details : CostDetails) (locks : List Lock) (paid : Nat) :
    e.priorityOf details locks paid < bundleMarker :=
  lt_of_le_of_lt toPriority_le (by decide)

theorem ensures_scoreWithAuction {details : CostDetails} {locks : List Lock} {tip : Nat}
    {F : Fault → Prop} (hf : E.overflowChecks → F .overflow) :
    (scoreWithAuction E w details locks tip).Ensures
      (fun x => x.1 < bundleMarker ∧ x.2 = details.totalCost) F := by
  rw [scoreWithAuction, ensures_bind]
  exact (Machine.ensures_add hf).imp fun _ _ => ⟨priorityOf_lt .., rfl⟩

theorem ensures_calculatePriority {F : Fault → Prop} (hf : E.overflowChecks → F .overflow)
    (w : World Engine) (tx : Tx) :
    (calculatePriority E w tx).Ensures (fun x => ∀ p ∈ x, p.1 < bundleMarker) F := by
  rw [calculatePriority, ensures_bind]
  refine (ensures_effectiveRemainingCu hf).imp fun _ _ => ?_
  split
  case h_1 => simp
  case h_2 =>
    simp only [ensures_bind]
    refine (TipProgram.ensures_extractTip hf).imp fun _ _ => ?_
    refine (ensures_scoreWithAuction hf).imp fun _ hp => ?_
    rintro _ ⟨⟩
    exact hp.left

theorem ensures_bundledTx {F : Fault → Prop} (hf : E.overflowChecks → F .overflow)
    (w : World Engine) (tx : Tx) : (bundledTx minScore E w tx).Ensures
      (fun x => ∀ p ∈ x, p.1 = tx.totalCost ∧ p.2 < bundleMarker) F := by
  unfold bundledTx
  split
  case h_1 => simp
  case h_2 details hd =>
    simp only [ensures_bind]
    refine (TipProgram.ensures_extractTip hf).imp fun _ _ => ?_
    refine (ensures_scoreWithAuction hf).imp fun x hx => ?_
    rw [ensures_pure]
    split
    case isTrue  => simp
    case isFalse => simpa [Tx.totalCost, hd] using hx.symm

-- Only transactions in `checked_tx` are rechecked.
theorem mem_of_popRecheck {checked : Finset PriorityId} {executing : Finset TransactionKey} {n : Nat}
    {cursor next : Option PriorityId} {id : PriorityId}
    (h : popRecheck checked executing n cursor = some (some id, next)) : id ∈ checked := by
  induction n generalizing cursor
  case zero => simp [popRecheck] at h
  case succ n ih =>
    cases cursor
    case none => simp [popRecheck] at h
    case some curr =>
      rw [popRecheck] at h
      split at h
      case isTrue hc =>
        simp only [Option.some.injEq, Prod.mk.injEq] at h
        exact h.left ▸ hc.left
      case isFalse => exact ih h

theorem findTransaction_eq_some (h : findTransaction budget w = some tx) :
    tx ∈ w.checkedTx ∧ tx.cost ≤ budget ∧ canLock w.locks (w.locksOf tx.key) = true := by
  have ⟨⟨hc, hp⟩, _⟩ := Finset.findLast_eq_some_iff.mp h
  simpa [hc] using hp

-- The second check of `acquire_locks` never fails after `can_lock`.
theorem acquireLocks_of_canLock {e : Engine} {key : TransactionKey} {locks : List Lock}
    (h : canLock e locks = true) : e.acquireLocks key locks = (lock e key locks, true) := by
  rw [canLock] at h
  simp [lock, acquireLocks, h]

-- The ledger after a transaction was sent to a worker.
def started (w : World Engine) (worker : Nat) (tx : PriorityId) : Ledger Engine :=
  { w.toLedger.send (transactionBatch w worker tx) with
    checkedTx   := w.checkedTx.erase tx
    inFlightCus := w.inFlightCus + tx.cost
    locks       := startTx w.locks tx.key (w.locksOf tx.key)
    units       := .transaction tx.key :: w.units }

-- The transaction that was found is sent, if there is room for it in the worker's queue.
theorem ensures_started {F : Fault → Prop} (hs : findTransaction budget w = some tx)
    (hb : w.inFlightCus + budget ≤ u64Max) (hq : ¬w.queued worker < E.queueCapacity → F .queueFull) :
    (tryScheduleTransaction E worker budget w).Ensures
      (fun x => x.1.toLedger = started w worker tx ∧ x.2 = (budget - tx.cost, [tx])) F := by
  have ⟨hc, hf, hg⟩ := findTransaction_eq_some hs
  rw [tryScheduleTransaction, hs]
  dsimp only
  rw [acquireLocks_of_canLock hg]
  simp only [schedule, ensures_bind, ensures_require, ensures_pure]
  refine ⟨fun _ => ?_, hq⟩
  change (Machine.add E.overflowChecks w.inFlightCus tx.cost).Ensures _ F
  rw [Machine.add_eq_ok (by omega), ensures_ok]
  refine ⟨fun _ => ⟨?_, trivial⟩, fun hn => absurd hc hn⟩
  rw [removeChecked, if_pos (by exact hc)]
  rfl

theorem attempt_transaction (hb : w.inFlightCus + budget ≤ maxBlockUnits) :
    (tryScheduleTransaction E worker budget w).Ensures
      (fun x => x = (w, budget, []) ∨ Attempt lockPolicy E worker budget w x ∧ x.2.2 ≠ [])
      (AttemptFault lockPolicy w) := by
  cases ht : findTransaction budget w
  case none =>
    rw [tryScheduleTransaction, ht]
    exact .inl rfl
  case some tx =>
    have ⟨hc, hf, hg⟩ := findTransaction_eq_some ht
    refine (ensures_started ht (hb.trans (by decide)) fun _ => .queueFull).imp fun x hx => .inr ?_
    obtain ⟨w', x⟩ := x
    obtain ⟨hw, rfl⟩ := hx
    exact ⟨.transaction hc hf hg rfl hw, List.cons_ne_nil _ _⟩

theorem attempt_bundle (hb : w.inFlightCus + budget ≤ maxBlockUnits) (hm : bundle ∈ w.bundles) :
    (tryScheduleBundle E worker budget w bundle).Ensures
      (Attempt lockPolicy E worker budget w) (AttemptFault lockPolicy w) := by
  unfold tryScheduleBundle
  split_ifs with hf hl
  case pos => exact .nothing
  case pos => exact .nothing
  case neg =>
    have hg : ∀ key ∈ bundle.keys, canLock w.locks (w.locksOf key) = true := by simpa using hl
    split
    case h_1 engine ha =>
      refine .aborted hm hg <| congrArg Except.ok ?_
      rw [startBundle, ha]
    case h_2 engine ha =>
      rw [ensures_bind]
      refine ensures_schedule.mono (fun w' hw => ?_) fun f hf => hf ▸ .queueFull
      have hcus : w'.inFlightCus = w.inFlightCus := by rw [hw]; rfl
      rw [hcus, Machine.add_eq_ok (by unfold u64Max; unfold maxBlockUnits at hb; omega)]
      have hs : lockPolicy.startBundle w.locks (w.keyedLocks bundle.keys) =
          .ok (dequeueAll engine (w.keyedLocks bundle.keys), true) := by
        refine congrArg Except.ok ?_
        rw [startBundle, ha]
      refine .bundle hm (by omega) hg hs ?_
      rw [hw]
      rfl

theorem attempt_tryBest (hb : w.inFlightCus + budget ≤ maxBlockUnits) :
    (tryBest E worker budget w).Ensures
      (Attempt lockPolicy E worker budget w) (AttemptFault lockPolicy w) := by
  have ht : (tryScheduleTransaction E worker budget w).Ensures
      (Attempt lockPolicy E worker budget w) (AttemptFault lockPolicy w) :=
    (attempt_transaction hb).imp fun x hx => hx.elim (fun he => he ▸ .nothing) And.left
  unfold tryBest
  split
  case h_1 tx bundle _ hm =>
    split
    case isTrue =>
      rw [ensures_bind]
      refine (attempt_transaction hb).imp fun x hx => ?_
      rcases hx with rfl | ⟨ha, hn⟩
      · exact attempt_bundle hb <| Finset.last_mem hm
      · obtain ⟨w', budget', batch⟩ := x
        dsimp only at hn ⊢
        rw [if_neg hn]
        exact ha
    case isFalse => exact attempt_bundle hb <| Finset.last_mem hm
  case h_2 => exact ht
  case h_3 _ hm => exact attempt_bundle hb <| Finset.last_mem hm
  case h_4 => exact .nothing

theorem lawful : (scheduler libm minScore).Lawful where
  priority _ w tx     := ensures_calculatePriority (F := (· = .overflow)) (fun _ => rfl) w tx
  bundled _ w tx      :=
    .imp (ensures_bundledTx (F := (· = .overflow)) (fun _ => rfl) w tx) fun _ _ => trivial
  recheck _ _ _ _ _ _ := mem_of_popRecheck
  attempt _ _ _ _     := attempt_tryBest

-- The lock manager has no panics.
theorem lockFaults : LockFaults lockPolicy := by
  constructor <;> intros <;> trivial

-- An attempt to fill a worker concerns no other worker.

theorem visits_tryScheduleTransaction :
    (tryScheduleTransaction E worker budget w).Ensures (Visits worker w ·.1) (fun _ => True) := by
  unfold tryScheduleTransaction
  split
  case h_1 => exact .refl
  case h_2 =>
    split
    case h_1 => exact .refl
    case h_2 =>
      simp only [ensures_bind, ensures_require]
      refine visits_schedule.imp fun w₁ h₁ => ensures_of_forall fun cus => ?_
      refine ⟨fun _ => ⟨settings_removeChecked.trans h₁.settings, fun v hv => ?_⟩, fun _ => trivial⟩
      exact (congrFun queued_removeChecked v).trans <| h₁.queued v hv

theorem visits_tryScheduleBundle :
    (tryScheduleBundle E worker budget w bundle).Ensures (Visits worker w ·.1) (fun _ => True) := by
  unfold tryScheduleBundle
  split_ifs
  case pos => exact .refl
  case pos => exact .refl
  case neg =>
    split
    case h_1 => exact ⟨rfl, fun _ _ => rfl⟩
    case h_2 =>
      simp only [ensures_bind]
      refine visits_schedule.imp fun w₁ h₁ => ?_
      exact ensures_of_forall fun _ => ⟨h₁.settings, h₁.queued⟩

theorem visits_tryBest :
    (tryBest E worker budget w).Ensures (Visits worker w ·.1) (fun _ => True) := by
  unfold tryBest
  split
  case h_1 =>
    split
    case isTrue =>
      rw [ensures_bind]
      refine visits_tryScheduleTransaction.imp fun x hx => ?_
      obtain ⟨w₁, budget₁, batch⟩ := x
      dsimp only at hx ⊢
      split
      case isTrue  => exact visits_tryScheduleBundle.imp fun x hx' => hx.trans hx'
      case isFalse => exact hx
    case isFalse => exact visits_tryScheduleBundle
  case h_2 => exact visits_tryScheduleTransaction
  case h_3 => exact visits_tryScheduleBundle
  case h_4 => exact .refl

end AuctionBatchScheduler
