import SchedArchive.Custody.Books
import SchedArchive.Theorems.Custody
import SchedArchive.Theorems.Threads

-- The statistics of all slots add up to what was sent and what was answered.

open Except Ledger

namespace BatchScheduler

open Scheduler

variable {E : Env} {w : World InFlightLocks} {worker budget : Nat} {tx : PriorityId}
variable {bundle : BundleId}

theorem ships_tryScheduleTransaction : (tryScheduleTransaction E worker budget w tx).Ensures
    (fun x => Ships w x.1 x.2.2) (fun _ => True) := by
  unfold tryScheduleTransaction
  split_ifs
  case pos => exact .refl
  case pos => exact .refl
  case neg =>
    simp only [ensures_bind]
    refine ensures_of_forall fun locks => books_schedule.imp fun w₁ h₁ => ?_
    have hb := congrArg (fun b : Books => { b with units := .transaction tx.key :: b.units }) h₁
    exact ensures_of_forall fun _ => ships_transaction rfl hb

theorem ships_tryScheduleBundle : (tryScheduleBundle E worker budget w bundle).Ensures
    (fun x => Ships w x.1 x.2.2) (fun _ => True) := by
  unfold tryScheduleBundle
  split_ifs
  case pos => exact .refl
  case pos => exact .refl
  case neg =>
    simp only [ensures_bind]
    refine ensures_of_forall fun locks => books_schedule.imp fun w₁ h₁ => ?_
    have hb := congrArg (fun b : Books => { b with units := .bundle bundle.keys :: b.units }) h₁
    exact ensures_of_forall fun _ => ships_bundle rfl hb

theorem ships_tryBest :
    (tryBest E worker budget w).Ensures (fun x => Ships w x.1 x.2.2) (fun _ => True) := by
  unfold tryBest
  split
  case h_1 =>
    split
    case isTrue  => exact ships_tryScheduleTransaction
    case isFalse => exact ships_tryScheduleBundle
  case h_2 => exact ships_tryScheduleTransaction
  case h_3 => exact ships_tryScheduleBundle
  case h_4 => exact .refl

end BatchScheduler

namespace AuctionBatchScheduler

open Scheduler

variable {E : Env} {w : World Engine} {worker budget : Nat} {bundle : BundleId}

theorem ships_tryScheduleTransaction : (tryScheduleTransaction E worker budget w).Ensures
    (fun x => Ships w x.1 x.2.2) (fun _ => True) := by
  unfold tryScheduleTransaction
  split
  case h_1 => exact .refl
  case h_2 tx _ =>
    split
    case h_1 => exact .refl
    case h_2 engine _ =>
      simp only [ensures_bind, ensures_require]
      refine books_schedule.imp fun w₁ h₁ => ensures_of_forall fun cus => ?_
      refine ⟨fun _ => ?_, fun _ => trivial⟩
      have hr : (World.removeChecked lockPolicy { w₁ with inFlightCus := cus } tx).books =
          w₁.books := books_removeChecked
      have hb := congrArg (fun b : Books => { b with units := .transaction tx.key :: b.units }) <|
        hr.trans h₁
      exact ships_transaction rfl hb

theorem ships_tryScheduleBundle : (tryScheduleBundle E worker budget w bundle).Ensures
    (fun x => Ships w x.1 x.2.2) (fun _ => True) := by
  unfold tryScheduleBundle
  split_ifs
  case pos => exact .refl
  case pos => exact .refl
  case neg =>
    split
    case h_1 => exact ⟨rfl, rfl, rfl, rfl⟩
    case h_2 engine _ =>
      simp only [ensures_bind]
      refine books_schedule.imp fun w₁ h₁ => ensures_of_forall fun _ => ?_
      have hb := congrArg (fun b : Books => { b with units := .bundle bundle.keys :: b.units }) h₁
      exact ships_bundle rfl hb

-- The second try starts from the state the first one has left.
theorem ships_tryBest :
    (tryBest E worker budget w).Ensures (fun x => Ships w x.1 x.2.2) (fun _ => True) := by
  unfold tryBest
  split
  case h_1 =>
    split
    case isTrue =>
      rw [ensures_bind]
      refine ships_tryScheduleTransaction.imp fun x hx => ?_
      obtain ⟨w₁, budget₁, batch⟩ := x
      dsimp only at hx ⊢
      split
      case isTrue hn =>
        rw [hn] at hx
        exact ships_tryScheduleBundle.imp fun _ h => hx.trans h
      case isFalse => exact hx
    case isFalse => exact ships_tryScheduleBundle
  case h_2 => exact ships_tryScheduleTransaction
  case h_3 => exact ships_tryScheduleBundle
  case h_4 => exact .refl

end AuctionBatchScheduler

namespace Scheduler

-- The runs with the statistics that were sent to the event emitter.
inductive Reported {L : Type} (S : Scheduler L) (E : Env) (locks : L) :
    List SlotStats → World L → Prop
  | init {w} : Initial locks w → Reported S E locks [] w
  | step {emitted w w' e} :
    Reported S E locks emitted w → e.Enabled w → S.step E w e = .ok w' →
    Reported S E locks (if reports E w e then emitted ++ [w.slotStats] else emitted) w'

variable {L : Type} {S : Scheduler L} {E : Env} {locks : L} {w w' : World L} {e : Event}
variable {emitted : List SlotStats}

theorem sum_keys_units {units : List SchedulingUnit} : (units.map (·.keys.length)).sum =
    (units.map (·.requested)).sum + 2 * units.countP (·.isTips) := by
  induction units
  case nil => rfl
  case cons u units ih =>
    have hu : u.keys.length = u.requested + 2 * if u.isTips then 1 else 0 := by cases u <;> rfl
    simp only [List.map_cons, List.sum_cons, List.countP_cons, ih, hu]
    omega

-- An answer that returns a transaction is of exactly one kind.
theorem countP_isReturn {answers : List Answer} : answers.countP (·.isReturn) =
    answers.countP (·.isOk) + answers.countP (·.isErr) +
      answers.countP (fun a => a.isUnprocessed && !a.isMarked) +
      answers.countP (fun a => a.isUnprocessed && a.isMarked) := by
  induction answers
  case nil => rfl
  case cons a answers ih =>
    have ha : (if a.isReturn then 1 else 0) = (if a.isOk then 1 else 0) +
        (if a.isErr then 1 else 0) + (if a.isUnprocessed && !a.isMarked then 1 else 0) +
        if a.isUnprocessed && a.isMarked then 1 else 0 := by
      obtain ⟨r, _ | _ | rep⟩ := a
      case unprocessed =>
        cases hm : Answer.isMarked ⟨r, .unprocessed⟩ <;>
          simp [Answer.isReturn, Answer.isOk, Answer.isErr, Answer.isUnprocessed]
      case check => rfl
      case execute =>
        by_cases hr : rep.notIncludedReason = .none <;>
          simp [hr, Answer.isReturn, Answer.isOk, Answer.isErr, Answer.isUnprocessed]
    simp only [List.countP_cons, ih, ha]
    omega

theorem Known.ships_tryBest (hS : S.Known locks) (worker budget : Nat) (w : World L) :
    (S.tryBest E worker budget w).Ensures (fun x => Ships w x.1 x.2.2) (fun _ => True) := by
  cases hS
  case batch   => exact BatchScheduler.ships_tryBest
  case auction => exact AuctionBatchScheduler.ships_tryBest

theorem squares_drainJito {channel : JitoChannel} {cancelled : Bool} :
    (S.drainJito E w channel cancelled).Ensures (Squares w) (fun _ => True) := by
  rw [drainJito_eq_bind, ensures_bind]
  refine (ensures_foldlM (fun w₁ m _ h₁ => squares_onJitoUpdate.imp fun w₂ h₂ => h₁.trans h₂)
    Squares.refl).imp fun w₁ h₁ => ?_
  cases channel.connected <;> cases cancelled <;> first | exact h₁ | trivial

-- Every step keeps the counters in line, from zero after a report.
theorem Known.squares_step (hS : S.Known locks) (c : w.Custody E 0) (he : e.Enabled w) :
    (S.step E w e).Ensures (Squares (afterReport E w e)) (fun _ => True) := by
  cases e
  case clock | workerReads | setRuntimeConfig | updateBasePrices | processTick | restartRecheck =>
    exact .of_books rfl
  case checkSlotRoll      => exact squares_checkSlotRoll
  case workerResponse r a =>
    exact squares_drainWorkerResponse he.right <| c.owned.executing_of_request he.left
  case drainTpu           => exact squares_drainTpu
  case dropExpiredBundles => exact .of_books books_dropExpiredBundles
  case drainJito          => exact squares_drainJito
  case scheduleChecks     => exact squares_scheduleChecks
  case scheduleExecute    => exact squares_scheduleExecute hS.ships_tryBest

theorem Reported.reachable (hr : Reported S E locks emitted w) : S.Reachable E locks w := by
  induction hr
  case init h₀       => exact .init h₀
  case step he hs hi => exact hi.step he trivial hs

theorem Reach.reported (hr : S.Reachable E locks w) : ∃ emitted, Reported S E locks emitted w := by
  induction hr
  case init h₀ => exact ⟨[], .init h₀⟩
  case step he _ hs hi =>
    obtain ⟨emitted, hi⟩ := hi
    exact ⟨_, hi.step he hs⟩

-- A counter, summed over the slots.
def total (f : SlotStats → Nat) (emitted : List SlotStats) (w : World L) : Nat :=
  (emitted.map f).sum + f w.slotStats

-- What the statistics of all slots say together.
structure Balanced (emitted : List SlotStats) (w : World L) : Prop where
  checkRequested     : total (·.checkRequested) emitted w = (w.sent.map (·.firstChecks)).sum
  executeRequested   : total (·.executeRequested) emitted w = (w.units.map (·.requested)).sum
  executeUnprocessed : total (·.executeUnprocessed) emitted w =
                         w.answered.countP fun a => a.isUnprocessed && !a.isMarked
  executeOk          : total (·.executeOk) emitted w = w.answered.countP (·.isOk)
  executeErr         : total (·.executeErr) emitted w = w.answered.countP (·.isErr)
  executing          : (w.units.map (·.keys.length)).sum =
                         w.answered.countP (·.isReturn) + w.executingTx.card
  unchecked          : w.uncheckedTx.card + total (·.checkRequested) emitted w +
                           total (·.ingestTpuEvict) emitted w ≤
                         total (·.ingestTpuOk) emitted w + total (·.ingestCustomOk) emitted w

theorem balanced_initial (h : Initial locks w) : Balanced [] w := by
  constructor <;> simp [total, h.ledger, h.slotStats, Ledger.empty]

theorem Balanced.report (h : Balanced emitted w) :
    Balanced (emitted ++ [w.slotStats]) { w with slotStats := {} } := by
  obtain ⟨h₁, h₂, h₃, h₄, h₅, h₆, h₇⟩ := h
  simp only [total] at *
  constructor <;> simpa [total]

theorem Balanced.squares (h : Balanced emitted w) (hs : Squares w w') : Balanced emitted w' := by
  have hl := hs.slack
  have hs := hs.surplus
  simp only [Books.surplus, World.books, Surplus.mk.injEq] at hs
  simp only [Books.slack, World.books] at hl
  obtain ⟨h₁, h₂, h₃, h₄, h₅, h₆, h₇⟩ := h
  simp only [total] at *
  constructor
  case executing => omega
  all_goals
    simp only [total]
    omega

theorem Known.balanced (hS : S.Known locks) (hr : Reported S E locks emitted w) :
    Balanced emitted w := by
  induction hr
  case init h₀ => exact balanced_initial h₀
  case step w w' e hr he hs ih =>
    have hq := (hS.squares_step (hS.custody hr.reachable) he).of_ok hs
    unfold afterReport at hq
    split at hq
    case isTrue h =>
      rw [if_pos h]
      exact ih.report.squares hq
    case isFalse h =>
      rw [if_neg h]
      exact ih.squares hq

-- The counters of all slots together. `check_requested` is the number of first checks that were
-- ever sent, `execute_requested` that of the transactions sent for execution other than as tips, and
-- `execute_ok`, `execute_err` and `execute_unprocessed` are those of the answers of each kind, but
-- for bundled transactions and tips that come back unprocessed. Hence each transaction that was
-- requested, and each tip, is executing or counted by its answer. No transaction is requested or
-- counted as evicted that was not counted as it came in.
theorem Known.statistics_add_up (hS : S.Known locks) (hr : Reported S E locks emitted w) :
    total (·.checkRequested) emitted w = (w.sent.map (·.firstChecks)).sum ∧
    total (·.executeRequested) emitted w = (w.units.map (·.requested)).sum ∧
    total (·.executeOk) emitted w = w.answered.countP (·.isOk) ∧
    total (·.executeErr) emitted w = w.answered.countP (·.isErr) ∧
    total (·.executeUnprocessed) emitted w =
      w.answered.countP (fun a => a.isUnprocessed && !a.isMarked) ∧
    total (·.executeRequested) emitted w + 2 * w.units.countP (·.isTips) =
      w.executingTx.card + total (·.executeOk) emitted w + total (·.executeErr) emitted w +
        total (·.executeUnprocessed) emitted w +
        w.answered.countP (fun a => a.isUnprocessed && a.isMarked) ∧
    w.uncheckedTx.card + total (·.checkRequested) emitted w + total (·.ingestTpuEvict) emitted w ≤
      total (·.ingestTpuOk) emitted w + total (·.ingestCustomOk) emitted w := by
  have hb := hS.balanced hr
  refine ⟨hb.checkRequested, hb.executeRequested, hb.executeOk, hb.executeErr,
    hb.executeUnprocessed, ?_, hb.unchecked⟩
  have hx := hb.executing
  rw [sum_keys_units, countP_isReturn, ← hb.executeRequested, ← hb.executeOk, ← hb.executeErr,
    ← hb.executeUnprocessed] at hx
  omega

-- The transaction and the tips were sent in the slot before, whose statistics are reported.
theorem Known.statistics_add_up_two_slots :
    ∃ emitted w, Reported BatchScheduler.scheduler Sample.env ∅ emitted w ∧
      w.slotStats.executeRequested = 0 ∧ (emitted.map (·.executeRequested)).sum = 1 ∧
      w.executingTx = {1, 2} ∧ total (·.executeOk) emitted w = 1 := by
  obtain ⟨w, hr, hs, hu, hx, hk⟩ : ∃ w, BatchScheduler.scheduler.Reachable Sample.env ∅ w ∧
      w.slotStats.executeRequested = 0 ∧ (w.units.map (·.requested)).sum = 1 ∧
      w.executingTx = {1, 2} ∧ w.answered.countP (·.isOk) = 1 :=
    Sample.exists_reach (Sample.executed ⟨1000000, 999, 0⟩ ++
      Sample.poll true 2 [(⟨⟨1000000, 999, 0⟩, .execute⟩, .execute ⟨1, .none⟩)] [] [])
      (by decide +kernel)
  obtain ⟨emitted, hr⟩ := hr.reported
  obtain ⟨-, hq, ho, -⟩ := statistics_add_up .batch hr
  rw [total, hs, hu] at hq
  exact ⟨emitted, w, hr, hs, hq, hx, ho.trans hk⟩

end Scheduler
