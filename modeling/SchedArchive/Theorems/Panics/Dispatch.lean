import SchedArchive.Theorems.Panics.Table
import SchedArchive.Theorems.Checks
import SchedArchive.Theorems.Recheck

-- What can make a scheduler panic over the requests it hands out.

open Except Ledger

namespace Scheduler

variable {L : Type} {S : Scheduler L} {E : Env} {locks : L} {w w' : World L} {f : Fault}
variable {t : Tariff L}

section Checks

variable {n : Nat} {reads : Nat → Nat}

-- The check for room in the queue is made before every batch, and every batch takes some of what
-- remains.
theorem Lawful.scheduleChecksLoop_returns (law : S.Lawful)
    (ht : ∀ w, (S.takeNext maxCheckBatch w).Ensures
    (fun x => remaining x.2 + x.1.length ≤ remaining w) (fun _ => False)) (hn : remaining w < n) :
    (S.scheduleChecksLoop E reads n w).Ensures (fun _ => True) (fun _ => False) := by
  induction n generalizing reads w
  case zero => exact absurd hn <| Nat.not_lt_zero _
  case succ n ih =>
    by_cases hf : HasRoom E reads w 0
    case neg =>
      rw [scheduleChecksLoop_full hf]
      trivial
    case pos =>
      obtain ⟨⟨rs, v⟩, hx, hm⟩ := (ht <| w.workerReads checkWorker (reads 0)).exists_ok
      by_cases hr : rs = []
      case pos =>
        subst hr
        rw [scheduleChecksLoop_done hf hx]
        trivial
      case neg =>
        rw [scheduleChecksLoop_next hf hx hr (law.popped_takeNext.of_ok hx).left.queued]
        refine ih ?_
        have := List.length_pos_iff.mpr hr
        change remaining v < n
        change remaining v + rs.length ≤ remaining w at hm
        omega

theorem exists_agree (w : World AuctionBatchScheduler.Engine) :
    ∃ w' : World BatchScheduler.InFlightLocks, Agree w w' :=
  ⟨{ w with toLedger := { w.toLedger with locks := ∅ } }, rfl, rfl, rfl, rfl, rfl, rfl⟩

theorem Known.scheduleChecks_eq_error_iff (hS : S.Known locks) (hr : S.Reachable E locks w) :
    S.scheduleChecks E reads w = .error f ↔ Panics S t E w (.scheduleChecks reads) f := by
  have o := (hS.custody hr).owned
  have hd : ∀ id ∈ w.checkedTx, id.key ∉ w.executingTx := by
    intro id hc hx
    cases o.place_unique (key_mem_checked hc) (key_mem_executing hx)
  cases hS
  case batch =>
    have hs : (BatchScheduler.scheduler.scheduleChecks E reads w).Ensures (fun _ => True)
        (fun _ => False) := by
      rw [scheduleChecks, ensures_bind]
      exact (BatchScheduler.lawful.scheduleChecksLoop_returns (fun _ =>
        BatchScheduler.advance_takeNext.imp fun _ h => h.right.right) remaining_lt).imp
          fun _ _ => trivial
    refine ⟨fun he => (hs.of_error he).elim, fun hp => ?_⟩
    cases hp
    case recheckForever hn _ _ =>
      cases (hn _).symm.trans <| BatchScheduler.popRecheck_returns le_rfl
  case auction libm minScore =>
    by_cases hc : CursorOk w ∨ ∀ k, HasRoom E reads w k → maxCheckBatch * (k + 1) ≤ w.uncheckedTx.card
    case pos =>
      obtain ⟨w', ha⟩ := exists_agree w
      obtain ⟨v, _, _, hv, _⟩ := scheduleChecksLoop_agree libm minScore ha hd remaining_lt hc.symm
      rw [scheduleChecks, hv]
      refine ⟨fun h => (by cases h), fun hp => ?_⟩
      cases hp
      case recheckForever k hn hl hk =>
        have hc := popRecheck_auction (n := 0) <| hc.resolve_right fun h =>
          Nat.not_le_of_lt hl <| h k hk
        cases (hn 1).symm.trans hc
    case neg =>
      obtain ⟨hc, k, hk, hu⟩ : ¬CursorOk w ∧ ∃ k, HasRoom E reads w k ∧
          w.uncheckedTx.card < maxCheckBatch * (k + 1) := by simpa using hc
      obtain ⟨curr, hm, hs⟩ : ∃ curr ∈ w.nextRecheck,
          ¬(curr ∈ w.checkedTx ∧ curr.key ∉ w.executingTx) := by simpa [CursorOk] using hc
      rw [scheduleChecks, scheduleChecksLoop_stale _ _ hc hk hu]
      constructor
      case mp =>
        intro h
        cases h
        refine .recheckForever (fun n => ?_) hk hu
        rw [Option.mem_def.mp hm]
        exact popRecheck_stale hs
      case mpr =>
        intro hp
        cases hp
        rfl

end Checks

end Scheduler

-- An idle worker has room in its queue.

namespace BatchScheduler

open Scheduler

variable {E : Env} {w : World InFlightLocks} {worker budget : Nat} {tx : PriorityId}
variable {bundle : BundleId}

theorem has_room_tryScheduleTransaction (hq : w.queued worker < E.queueCapacity) :
    (tryScheduleTransaction E worker budget w tx).Ensures (fun _ => True) (· ≠ .queueFull) := by
  unfold tryScheduleTransaction
  split_ifs
  case pos => trivial
  case pos => trivial
  case neg =>
    rw [ensures_bind]
    refine (ensures_lock ..).mono (fun locks _ => ?_) fun f hf he => by simp [he, Fault.IsLock] at hf
    rw [ensures_bind]
    refine faults_schedule.mono (fun w₁ _ => ?_) fun f hf _ => Nat.not_le_of_lt hq hf.left
    rw [ensures_bind]
    exact (Machine.ensures_add fun _ => by decide).imp fun _ _ => trivial

theorem has_room_tryScheduleBundle (hq : w.queued worker < E.queueCapacity) :
    (tryScheduleBundle E worker budget w bundle).Ensures (fun _ => True) (· ≠ .queueFull) := by
  unfold tryScheduleBundle
  split_ifs
  case pos => trivial
  case pos => trivial
  case neg =>
    have hl : (lockAll w.locks (w.keyedLocks bundle.keys)).Ensures (fun _ => True) Fault.IsLock :=
      ensures_foldlM (fun s tx _ _ => ensures_lock s tx.1 tx.2) trivial
    rw [ensures_bind]
    refine hl.mono (fun locks _ => ?_) fun f hf he => by simp [he, Fault.IsLock] at hf
    rw [ensures_bind]
    refine faults_schedule.mono (fun w₁ _ => ?_) fun f hf _ => Nat.not_le_of_lt hq hf.left
    rw [ensures_bind]
    exact (Machine.ensures_add fun _ => by decide).imp fun _ _ => trivial

theorem has_room_tryBest (hq : w.queued worker < E.queueCapacity) :
    (tryBest E worker budget w).Ensures (fun _ => True) (· ≠ .queueFull) := by
  unfold tryBest
  split
  case h_1 =>
    split
    case isTrue  => exact has_room_tryScheduleTransaction hq
    case isFalse => exact has_room_tryScheduleBundle hq
  case h_2 => exact has_room_tryScheduleTransaction hq
  case h_3 => exact has_room_tryScheduleBundle hq
  case h_4 => trivial

end BatchScheduler

namespace AuctionBatchScheduler

open Scheduler

variable {E : Env} {w : World Engine} {worker budget : Nat} {bundle : BundleId}

theorem has_room_tryScheduleBundle (hq : w.queued worker < E.queueCapacity) :
    (tryScheduleBundle E worker budget w bundle).Ensures (fun _ => True) (· ≠ .queueFull) := by
  unfold tryScheduleBundle
  split_ifs
  case pos => trivial
  case pos => trivial
  case neg =>
    split
    case h_1 => trivial
    case h_2 =>
      rw [ensures_bind]
      refine faults_schedule.mono (fun w₁ _ => ?_) fun f hf _ => Nat.not_le_of_lt hq hf.left
      rw [ensures_bind]
      exact (Machine.ensures_add fun _ => by decide).imp fun _ _ => trivial

-- The bundle is tried where no transaction was sent, in the same state.
theorem has_room_tryScheduleTransaction (hb : w.inFlightCus + budget ≤ u64Max)
    (hq : w.queued worker < E.queueCapacity) : (tryScheduleTransaction E worker budget w).Ensures
      (fun x => x = (w, budget, []) ∨ x.2.2 ≠ []) (· ≠ .queueFull) := by
  cases ht : findTransaction budget w
  case none =>
    rw [tryScheduleTransaction, ht]
    exact .inl rfl
  case some tx =>
    refine (ensures_started ht hb fun hn => absurd hq hn).imp fun x hx => .inr ?_
    rw [hx.right]
    exact List.cons_ne_nil _ _

theorem has_room_tryBest (hb : w.inFlightCus + budget ≤ u64Max)
    (hq : w.queued worker < E.queueCapacity) :
    (tryBest E worker budget w).Ensures (fun _ => True) (· ≠ .queueFull) := by
  have ht := has_room_tryScheduleTransaction hb hq
  unfold tryBest
  split
  case h_1 =>
    split
    case isTrue =>
      rw [ensures_bind]
      refine ht.imp fun x hx => ?_
      obtain ⟨w₁, budget₁, batch⟩ := x
      dsimp only
      split
      case isTrue hn =>
        obtain ⟨⟩ := hx.resolve_right <| not_not.mpr hn
        exact has_room_tryScheduleBundle hq
      case isFalse => trivial
    case isFalse => exact has_room_tryScheduleBundle hq
  case h_2 => exact ht.imp fun _ _ => trivial
  case h_3 => exact has_room_tryScheduleBundle hq
  case h_4 => trivial

end AuctionBatchScheduler

namespace Scheduler

variable {L : Type} {S : Scheduler L} {E : Env} {locks : L} {w w' : World L} {f : Fault}
variable {t : Tariff L}

section Execute

variable {worker budget : Nat} {workers : List Nat} {ids : List PriorityId}

theorem Known.faults_tryBest (hS : S.Known locks) (hb : w.inFlightCus + budget ≤ maxBlockUnits)
    (hq : w.queued worker < E.queueCapacity) :
    (S.tryBest E worker budget w).Ensures (fun _ => True) (·.IsInternal) := by
  have hn : (S.tryBest E worker budget w).Ensures (fun _ => True) (· ≠ .queueFull) := by
    cases hS
    case batch   => exact BatchScheduler.has_room_tryBest hq
    case auction => exact AuctionBatchScheduler.has_room_tryBest (hb.trans <| by decide) hq
  cases hx : S.tryBest E worker budget w
  case ok => trivial
  case error f =>
    cases (hS.lawful.attempt E worker budget w hb).of_error hx
    case queueFull            => exact absurd rfl <| hn.of_error hx
    case transaction _ _ hs => exact .inr <| (hS.lockFaults.startTx ..).of_error hs
    case bundle _ _ hs      => exact .inr <| (hS.lockFaults.startBundle ..).of_error hs

theorem faults_markExecuting :
    (ids.foldlM markExecuting w).Ensures (fun _ => True) (·.IsInternal) := by
  refine ensures_foldlM (fun w₁ id _ _ => ?_) trivial
  simp only [markExecuting, ensures_bind, ensures_require]
  exact ⟨fun _ => trivial, fun _ => .inl <| by decide⟩

theorem Known.faults_scheduleWorkers (hS : S.Known locks) (c : w.Custody E 0)
    (hb : w.inFlightCus + budget ≤ maxBlockUnits) :
    (S.scheduleWorkers E workers budget w).Ensures (fun _ => True) (·.IsInternal) := by
  have K : Kept S.toLockPolicy E (.all L) (¬·.IsCustody) (fun l h => l.Custody E h) :=
    hS.lockFaults.kept id (fun m c => c.move m) fun _ _ => trivial
  induction workers generalizing budget w
  case nil => trivial
  case cons worker workers ih =>
    unfold scheduleWorkers
    split_ifs
    case pos => trivial
    case pos => exact ih c hb
    case neg hq =>
      have hq : w.queued worker < E.queueCapacity := not_not.mp hq ▸ E.queueCapacity_pos
      rw [ensures_bind]
      cases hx : S.tryBest E worker budget w
      case error f => exact (hS.faults_tryBest hb hq).of_error hx
      case ok x =>
        obtain ⟨w₁, budget₁, batch⟩ := x
        have hk := K.attempt c trivial hb <| (hS.lawful.attempt E worker budget w hb).of_ok hx
        rw [ensures_ok]
        dsimp only at hk ⊢
        split
        case isTrue  => trivial
        case isFalse =>
          rw [ensures_bind]
          cases hw : batch.foldlM markExecuting w₁
          case error f => exact faults_markExecuting.of_error hw
          case ok w₂ =>
            obtain ⟨c₂, hb₂⟩ := hk.of_ok hw
            exact ih (w := w₂.count _) c₂ hb₂

theorem overflows_budgetPercentage : (budgetPercentage E w).Ensures
    (fun percentage => percentage ≤ 100 ∧ ¬(E.overflowChecks = true ∧
      256 ≤ w.progress.currentSlotProgress.toNat + w.runtime.blockFillCutoff.toNat))
    (fun f => (E.overflowChecks = true ∧
      256 ≤ w.progress.currentSlotProgress.toNat + w.runtime.blockFillCutoff.toNat) ∧
        f = .overflow) := by
  unfold budgetPercentage
  dsimp only
  split_ifs with hs hc
  · exact ⟨Nat.min_le_right .., fun h => Nat.not_le_of_lt hs h.right⟩
  · exact ⟨⟨hc, Nat.le_of_not_lt hs⟩, rfl⟩
  · exact ⟨Nat.min_le_right .., fun h => hc h.left⟩

theorem Known.scheduleExecute_eq_error (hS : S.Known locks) (c : w.Custody E 0) :
    (S.scheduleExecute E w).Ensures (fun _ => ∀ f, ¬Panics S t E w .scheduleExecute f)
      (fun f => f.IsInternal ∨ Panics S t E w .scheduleExecute f ∧ f = .overflow) := by
  have hc := c.metered.bound
  rw [scheduleExecute, ensures_bind, fillBudget, ensures_bind]
  refine overflows_budgetPercentage.mono (fun percentage hp => ?_) fun f hf => ?_
  case refine_2 =>
    obtain ⟨⟨hk, hs⟩, rfl⟩ := hf
    exact .inr ⟨.budgetOverflow hk hs, rfl⟩
  case refine_1 =>
    have hn : ∀ f, ¬Panics S t E w .scheduleExecute f := by
      intro f hf
      cases hf
      case budgetOverflow hk hs => exact hp.right ⟨hk, hs⟩
    have hl := budgetLimit_le hp.left
    rw [Machine.add_eq_ok (by unfold u64Max; unfold maxBlockUnits at hc ⊢; omega)]
    refine (hS.faults_scheduleWorkers c ?_).mono (fun _ _ => hn) fun _ => .inl
    omega

end Execute

end Scheduler
