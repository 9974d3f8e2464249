import SchedArchive.Custody.Frame

-- The counters of `SlotStatsEvent` against what happened: how the handlers keep the two in line.

open Except Ledger

def ScheduleBatch.firstChecks (b : ScheduleBatch) : Nat :=
  b.transactions.countP (·.kind = .firstCheck)

-- The two transactions of a pair of tips are not counted as requested.
def SchedulingUnit.requested : SchedulingUnit → Nat
  | tipPair _ _ => 0
  | u           => u.keys.length

def SchedulingUnit.isTips : SchedulingUnit → Bool
  | tipPair _ _ => true
  | _           => false

namespace Answer

def isOk (a : Answer) : Bool :=
  match a.action with
  | .execute rep => rep.notIncludedReason = .none
  | _            => false

def isErr (a : Answer) : Bool :=
  match a.action with
  | .execute rep => rep.notIncludedReason ≠ .none
  | _            => false

def isUnprocessed (a : Answer) : Bool :=
  a.action = .unprocessed

-- An answer to a transaction of a bundle or to a tip transaction.
def isMarked (a : Answer) : Bool :=
  a.request.id.priority = bundleMarker

-- A transaction came back from its execution.
def isReturn (a : Answer) : Bool :=
  a.isOk || a.isErr || a.isUnprocessed

end Answer

-- The counters of the slot and what they count.
structure Books where
  ingestTpuOk        : Nat
  ingestTpuEvict     : Nat
  ingestCustomOk     : Nat
  checkRequested     : Nat
  executeRequested   : Nat
  executeUnprocessed : Nat
  executeOk          : Nat
  executeErr         : Nat
  uncheckedTx        : Multiset PriorityId
  executingTx        : Finset TransactionKey
  sent               : List ScheduleBatch
  answered           : List Answer
  units              : List SchedulingUnit

-- By how much the history exceeds the counters, and the transactions that were ever sent for
-- execution those that came back or are executing.
structure Surplus where
  checkRequested     : ℤ
  executeRequested   : ℤ
  executeUnprocessed : ℤ
  executeOk          : ℤ
  executeErr         : ℤ
  executing          : ℤ

def Books.surplus (b : Books) : Surplus where
  checkRequested     := (b.sent.map (·.firstChecks)).sum - b.checkRequested
  executeRequested   := (b.units.map (·.requested)).sum - b.executeRequested
  executeUnprocessed := b.answered.countP (fun a => a.isUnprocessed && !a.isMarked) -
                          b.executeUnprocessed
  executeOk          := b.answered.countP (·.isOk) - b.executeOk
  executeErr         := b.answered.countP (·.isErr) - b.executeErr
  executing          := (b.units.map (·.keys.length)).sum - b.answered.countP (·.isReturn) -
                          b.executingTx.card

-- The counters at zero.
def Books.closed (b : Books) : Books :=
  { b with
    ingestTpuOk        := 0
    ingestTpuEvict     := 0
    ingestCustomOk     := 0
    checkRequested     := 0
    executeRequested   := 0
    executeUnprocessed := 0
    executeOk          := 0
    executeErr         := 0 }

-- By how much the transactions that entered `unchecked_tx` exceed those that left it or are there.
def Books.slack (b : Books) : ℤ :=
  b.ingestTpuOk + b.ingestCustomOk - b.ingestTpuEvict - b.checkRequested - b.uncheckedTx.card

def World.books {L : Type} (w : World L) : Books where
  ingestTpuOk        := w.slotStats.ingestTpuOk
  ingestTpuEvict     := w.slotStats.ingestTpuEvict
  ingestCustomOk     := w.slotStats.ingestCustomOk
  checkRequested     := w.slotStats.checkRequested
  executeRequested   := w.slotStats.executeRequested
  executeUnprocessed := w.slotStats.executeUnprocessed
  executeOk          := w.slotStats.executeOk
  executeErr         := w.slotStats.executeErr
  uncheckedTx        := w.uncheckedTx
  executingTx        := w.executingTx
  sent               := w.sent
  answered           := w.answered
  units              := w.units

namespace Scheduler

variable {L : Type} {S : Scheduler L} {E : Env} {w w₁ w₂ : World L} {P : LockPolicy L}
variable {id : PriorityId} {r : Request} {a : WorkerAction} {keys : List TransactionKey}

-- What was counted is what happened, but for the room that `on_packet` makes in `unchecked_tx`.
structure Squares (w w' : World L) : Prop where
  surplus : w'.books.surplus = w.books.surplus
  slack   : w.books.slack ≤ w'.books.slack

namespace Squares

theorem refl : Squares w w :=
  ⟨rfl, le_rfl⟩

theorem trans (h₁ : Squares w w₁) (h₂ : Squares w₁ w₂) : Squares w w₂ :=
  ⟨h₂.surplus.trans h₁.surplus, h₁.slack.trans h₂.slack⟩

theorem of_books (h : w₁.books = w.books) : Squares w w₁ := by
  constructor <;> rw [h]

theorem after (h : Squares w₁ w₂) (hb : w₁.books = w.books) : Squares w w₂ :=
  (of_books hb).trans h

end Squares

-- What most handlers are made of leaves the books alone.

theorem books_foldl {α : Type} {f : World L → α → World L} {as : List α}
    (hf : ∀ w a, (f w a).books = w.books) : (as.foldl f w).books = w.books := by
  induction as generalizing w
  case nil          => rfl
  case cons a as ih => exact ih.trans <| hf w a

theorem books_dropAll : (w.dropAll keys).books = w.books :=
  books_foldl fun _ _ => rfl

theorem books_dropBundle {b : BundleId} : (w.dropBundle P b).books = w.books :=
  books_foldl (w := { w with bundles := w.bundles.erase b }) fun _ _ => rfl

theorem books_queueKeys : (S.queueKeys w keys).books = w.books :=
  books_foldl fun _ _ => rfl

theorem books_dropExpiredBundles : (S.dropExpiredBundles w).books = w.books :=
  books_foldl fun _ _ => books_dropBundle

theorem books_removeChecked : (w.removeChecked P id).books = w.books := by
  unfold World.removeChecked
  split <;> rfl

theorem books_schedule {b : ScheduleBatch} :
    (w.schedule E b).Ensures (·.books = { w.books with sent := b :: w.sent }) (fun _ => True) := by
  simp only [World.schedule, ensures_bind, ensures_require]
  exact ⟨fun _ => rfl, fun _ => trivial⟩

theorem books_insertCheckedNew :
    (w.insertCheckedNew S id).Ensures (·.books = w.books) (fun _ => True) := by
  simp only [World.insertCheckedNew, ensures_bind, ensures_require]
  exact ⟨fun _ => rfl, fun _ => trivial⟩

theorem books_drainDeferred {ids : List PriorityId} :
    (S.drainDeferred ids w).Ensures (·.books = w.books) (fun _ => True) :=
  ensures_drainDeferred (J := fun _ w₁ => w₁.books = w.books)
    (fun h₁ => books_insertCheckedNew.imp fun _ h₂ => h₂.trans h₁) rfl

theorem slack_evictUnchecked {n : Nat} : (evictUnchecked n w).Ensures
    (fun w' => w'.books.surplus = w.books.surplus ∧ w'.books.slack = w.books.slack + n)
    (fun _ => True) := by
  induction n generalizing w
  case zero => exact ⟨rfl, (add_zero _).symm⟩
  case succ n ih =>
    rw [evictUnchecked]
    split
    case h_1 => trivial
    case h_2 id rest hp =>
      refine ih.imp fun w' hw => ⟨hw.left, hw.right.trans ?_⟩
      simp only [Books.slack, World.books, World.dropTransaction, Ledger.dropTransaction,
        (Multiset.popMin_eq_some hp).left, Multiset.card_cons]
      omega

-- A transaction that enters `unchecked_tx` is counted.
theorem squares_onTpu {packet : Packet} :
    (S.onTpu E w packet).Ensures (Squares w) (fun _ => True) := by
  cases packet
  case none => exact .refl
  case some tx =>
    rw [onTpu, ensures_bind]
    refine ensures_of_forall fun x => ?_
    split
    case h_1 => exact .of_books rfl
    case h_2 =>
      split
      case isTrue  => exact .of_books rfl
      case isFalse =>
        refine ⟨rfl, ?_⟩
        simp only [Books.slack, World.books, World.count, World.insertTransaction,
          Ledger.insertTransaction, Multiset.card_cons]
        omega

theorem squares_drainTpu {backlog : List Packet} {maxCount : Nat} :
    (S.drainTpu E w backlog maxCount).Ensures (Squares w) (fun _ => True) := by
  rw [drainTpu, ensures_bind]
  refine slack_evictUnchecked.imp fun w₁ hw => ?_
  obtain ⟨hs, hl⟩ := hw
  refine ensures_foldlM (fun w₂ packet _ h₂ => squares_onTpu.imp fun w₃ h₃ => h₂.trans h₃) ⟨hs, ?_⟩
  simp only [Books.slack, World.books, World.count] at hl ⊢
  omega

theorem squares_makeRoom : (makeRoom w).Ensures (Squares w) (fun _ => True) := by
  unfold makeRoom
  split
  case isTrue =>
    refine slack_evictUnchecked.imp fun w₁ hw => ⟨hw.left, ?_⟩
    have hl := hw.right
    omega
  case isFalse => exact .refl

theorem squares_onPacket {packet : Packet} :
    (S.onPacket E w packet).Ensures (Squares w) (fun _ => True) := by
  cases packet
  case none => exact .refl
  case some tx =>
    rw [onPacket, ensures_bind]
    refine ensures_of_forall fun x => ?_
    split
    case h_1 => exact .of_books rfl
    case h_2 =>
      split
      case isTrue => exact .of_books rfl
      case isFalse =>
        rw [ensures_bind]
        refine squares_makeRoom.imp fun w₁ h₁ => ?_
        have h₁ : Squares w w₁ := h₁.after rfl
        refine h₁.trans ⟨rfl, ?_⟩
        simp only [Books.slack, World.books, World.count, Multiset.card_cons]
        omega

theorem books_gather {g : Gathered} {packets : List Packet} :
    (S.gather E w g packets).Ensures (·.1.books = w.books) (fun _ => True) := by
  induction packets generalizing w g
  case nil => rfl
  case cons packet packets ih =>
    cases packet
    case none => exact books_dropAll
    case some tx =>
      rw [gather, ensures_bind]
      refine ensures_of_forall fun x => ?_
      split
      case h_1 => exact books_dropAll.trans rfl
      case h_2 =>
        simp only [ensures_bind]
        exact ensures_of_forall fun cost => ensures_of_forall fun value => ih.imp fun _ h => h

theorem books_evictBundle : (S.evictBundle w).Ensures (·.books = w.books) (fun _ => True) := by
  unfold evictBundle
  split
  case isFalse => rfl
  case isTrue =>
    split
    case h_1 => trivial
    case h_2 => exact books_dropBundle

theorem books_onBundle {bundle : List Packet} :
    (S.onBundle E w bundle).Ensures (·.books = w.books) (fun _ => True) := by
  rw [onBundle, ensures_bind]
  refine books_gather.imp fun x hx => ?_
  obtain ⟨w₁, _ | g⟩ := x
  case none => exact hx
  case some =>
    dsimp only
    split
    case isTrue  => exact books_dropAll.trans hx
    case isFalse =>
      simp only [storeBundle, ensures_bind, ensures_require, ensures_pure]
      refine ⟨fun _ => books_evictBundle.imp fun w₂ h₂ => ?_, fun _ => trivial⟩
      exact (books_queueKeys (S := S)).trans <| h₂.trans hx

theorem squares_onJitoUpdate {m : JitoUpdate} :
    (S.onJitoUpdate E w m).Ensures (Squares w) (fun _ => True) := by
  cases m
  case builderConfig | tipConfig | recentBlockhash => exact .of_books rfl
  case packet => exact squares_onPacket
  case bundle => exact books_onBundle.imp fun _ h => .of_books h

-- The answers of workers.

theorem books_accept : (S.accept w id).Ensures (·.books = w.books) (fun _ => True) := by
  unfold accept
  split
  case isFalse => rfl
  case isTrue =>
    split
    case h_1 => trivial
    case h_2 => exact books_removeChecked

theorem books_onCheck {rep : CheckResponse} {keys : Option (List Pubkey)} :
    (S.onCheck E w id rep keys).Ensures (·.1.books = w.books) (fun _ => True) := by
  unfold onCheck
  split
  case isTrue => rfl
  case isFalse =>
    split
    case isTrue =>
      simp only [ensures_bind, ensures_require]
      exact ⟨fun _ => books_removeChecked, fun _ => trivial⟩
    case isFalse =>
      simp only [ensures_bind, ensures_require]
      refine ⟨fun _ => ?_, fun _ => trivial⟩
      split
      case isTrue => rfl
      case isFalse =>
        split
        case isTrue => rfl
        case isFalse =>
          rw [ensures_bind]
          exact books_accept.imp fun _ h => h

theorem books_retry {rep : ExecutionResponse} :
    (S.retry w id rep).Ensures (·.books = w.books) (fun _ => True) := by
  unfold Scheduler.retry
  split
  case isTrue =>
    simp only [ensures_bind, ensures_require]
    exact ⟨fun _ => rfl, fun _ => trivial⟩
  case isFalse => exact books_insertCheckedNew

theorem books_trim : (S.trim w).books = w.books := by
  unfold trim
  split
  case isFalse => rfl
  case isTrue =>
    split
    case h_1 => rfl
    case h_2 => exact books_removeChecked

-- The books after the end of an execution.
def returnedBooks (w : World L) (id : PriorityId) : Books :=
  { w.books with executingTx := w.executingTx.erase id.key }

theorem books_releaseCus : (releaseCus E w id).Ensures (·.books = w.books) (fun _ => True) := by
  rw [releaseCus, ensures_bind]
  exact ensures_of_forall fun _ => rfl

theorem books_releaseLocks : (S.releaseLocks w id).Ensures (·.books = w.books) (fun _ => True) := by
  rw [releaseLocks, ensures_bind]
  exact ensures_of_forall fun _ => rfl

theorem books_countExecution {reason : NotIncludedReason} : (countExecution w reason).books =
    if reason = .none then { w.books with executeOk := w.slotStats.executeOk + 1 }
    else { w.books with executeErr := w.slotStats.executeErr + 1 } := by
  unfold countExecution World.count World.books
  dsimp only
  split <;> rfl

theorem books_onExecute {rep : ExecutionResponse} :
    (S.onExecute E w id rep).Ensures (fun x => id.key ∈ w.executingTx ∧ x.1.books =
      if rep.notIncludedReason = .none then
        { returnedBooks w id with executeOk := w.slotStats.executeOk + 1 }
      else
        { returnedBooks w id with executeErr := w.slotStats.executeErr + 1 }) (fun _ => True) := by
  simp only [onExecute, ensures_bind, ensures_require]
  refine ⟨fun hx => books_releaseCus.imp fun w₁ h₁ => ?_, fun _ => trivial⟩
  refine books_releaseLocks.imp fun w₂ h₂ => ?_
  have h₂ : w₂.books = returnedBooks w id := h₂.trans h₁
  have hc : (countExecution w₂ rep.notIncludedReason).books = _ := books_countExecution
  have ho : w₂.slotStats.executeOk = w.slotStats.executeOk := congrArg (·.executeOk) h₂
  have he : w₂.slotStats.executeErr = w.slotStats.executeErr := congrArg (·.executeErr) h₂
  rw [h₂, ho, he] at hc
  split
  case isTrue  => exact ⟨hx, hc⟩
  case isFalse =>
    rw [ensures_bind]
    exact books_retry.imp fun w₃ h₃ => ⟨hx, books_trim.trans <| h₃.trans hc⟩

theorem books_onUnprocessed (hx : id.key ∈ w.executingTx) :
    (S.onUnprocessed E w id).Ensures (fun x => x.1.books =
      if id.priority = bundleMarker then
        returnedBooks w id
      else
        { returnedBooks w id with executeUnprocessed := w.slotStats.executeUnprocessed + 1 })
      (fun _ => True) := by
  rw [onUnprocessed, if_pos hx]
  simp only [ensures_bind]
  refine books_releaseLocks.imp fun w₁ h₁ => books_releaseCus.imp fun w₂ h₂ => ?_
  have h₂ : w₂.books = returnedBooks w id := h₂.trans h₁
  have hu : w₂.slotStats.executeUnprocessed = w.slotStats.executeUnprocessed :=
    congrArg (·.executeUnprocessed) h₂
  split
  case isTrue  => exact h₂
  case isFalse =>
    rw [← h₂, ← hu]
    rfl

-- A handler that ends an execution has its answer counted.
theorem squares_onResponse (hf : r.Fits a) (hx : r.kind = .execute → r.key ∈ w.executingTx) :
    (S.onResponse E { w with toLedger := w.toLedger.answer r a } r.id a).Ensures (Squares w ·.1)
      (fun _ => True) := by
  have hc (hx : r.id.key ∈ w.executingTx) :
      (w.executingTx.erase r.id.key).card + 1 = w.executingTx.card := Finset.card_erase_add_one hx
  cases a
  case check rep keys =>
    refine books_onCheck.imp fun x hb => ?_
    constructor <;> rw [hb]
    case slack => exact le_rfl
    case surplus =>
      simp [Books.surplus, World.books, Ledger.answer, Answer.isReturn, Answer.isOk, Answer.isErr,
        Answer.isUnprocessed]
  case execute rep =>
    refine books_onExecute.imp fun x hx => ?_
    obtain ⟨hk, hb⟩ := hx
    have hc := hc hk
    constructor <;> rw [hb]
    case slack => split <;> exact le_rfl
    case surplus =>
      by_cases hr : rep.notIncludedReason = .none
      all_goals
        simp [hr, Books.surplus, returnedBooks, World.books, Ledger.answer, Answer.isReturn,
          Answer.isOk, Answer.isErr, Answer.isUnprocessed]
        omega
  case unprocessed =>
    have hu := books_onUnprocessed (S := S) (E := E)
      (w := { w with toLedger := w.toLedger.answer r .unprocessed }) <| hx hf
    refine hu.imp fun x hb => ?_
    have hc := hc <| hx hf
    constructor <;> rw [hb]
    case slack => split <;> exact le_rfl
    case surplus =>
      by_cases hp : r.id.priority = bundleMarker
      all_goals
        simp [hp, Books.surplus, returnedBooks, World.books, Ledger.answer, Answer.isReturn,
          Answer.isOk, Answer.isErr, Answer.isUnprocessed, Answer.isMarked]
        omega

theorem squares_drainWorkerResponse (hf : r.Fits a)
    (hx : r.kind = .execute → r.key ∈ w.executingTx) :
    (S.drainWorkerResponse E w r a).Ensures (Squares w) (fun _ => True) := by
  unfold drainWorkerResponse
  split
  case isFalse => exact .of_books rfl
  case isTrue =>
    rw [ensures_bind]
    refine (squares_onResponse hf hx).imp fun x hs => ?_
    obtain ⟨w₁, d⟩ := x
    cases d
    case keep => exact hs
    case drop => exact hs.trans <| .of_books rfl

-- The roll of a slot. With an event emitter, the counters are sent to it and start again at zero.

def reports (E : Env) (w : World L) : Event → Bool
  | .checkSlotRoll message => (observed w message).currentSlot ≠ w.slot ∧ E.events ∧ w.slot ≠ 0
  | _                      => false

def afterReport (E : Env) (w : World L) (e : Event) : World L :=
  if reports E w e then { w with slotStats := {} } else w

theorem books_afterReport {e : Event} : (afterReport E w e).books =
    if reports E w e = true then w.books.closed else w.books := by
  unfold afterReport
  split <;> rfl

theorem books_rolled {message : Option ProgressMessage} : (S.rolled E w message).Ensures
    (·.books = (afterReport E w (.checkSlotRoll message)).books) (fun _ => True) := by
  have ho : (observeProgress w message).Ensures (fun w₁ => w₁.books = w.books ∧
      w₁.slot = w.slot ∧ w₁.slotStats = w.slotStats ∧ w₁.progress = observed w message)
      (fun _ => True) := by
    cases message
    case none =>
      simp only [observeProgress, ensures_bind, ensures_require]
      exact ⟨fun _ => ⟨rfl, rfl, rfl, rfl⟩, fun _ => trivial⟩
    case some => exact ⟨rfl, rfl, rfl, rfl⟩
  rw [rolled, ensures_bind]
  refine ho.imp fun w₁ h₁ => ?_
  obtain ⟨hb, hs, ht, hp⟩ := h₁
  rw [hp, hs, books_afterReport]
  split
  case isFalse hn =>
    have hr : reports E w (.checkSlotRoll message) = false := by simp [reports, hn]
    rw [hr]
    exact hb
  case isTrue hn =>
    have hr : reports E w (.checkSlotRoll message) = decide (E.events ∧ w.slot ≠ 0) := by
      simp [reports, hn]
    simp only [rollSlot, ensures_bind, ensures_pure, hr, hs, ht]
    refine books_drainDeferred.imp fun w₂ h₂ => h₂.trans ?_
    by_cases he : E.events ∧ w.slot ≠ 0
    case pos =>
      simp only [if_pos he, decide_eq_true he]
      exact congrArg Books.closed hb
    case neg =>
      simp only [if_neg he, decide_eq_false he, ← ht]
      exact hb

theorem squares_startTips {init change : TransactionKey} :
    (S.startTips E w init change).Ensures (Squares w) (fun _ => True) := by
  simp only [startTips, ensures_bind, ensures_require]
  refine ensures_of_forall fun locks₁ => ensures_of_forall fun locks₂ => ?_
  refine ⟨fun hi => ⟨fun hc => ?_, fun _ => trivial⟩, fun _ => trivial⟩
  simp only [World.schedule, ensures_bind, ensures_require, ensures_pure]
  refine ⟨fun _ => ⟨fun _ => ⟨?_, le_rfl⟩, fun _ => trivial⟩, fun _ => trivial⟩
  have hx : (insert change (insert init w.executingTx)).card = w.executingTx.card + 2 := by
    rw [Finset.card_insert_of_notMem hc, Finset.card_insert_of_notMem hi]
  simp [Books.surplus, World.books, Ledger.send, tipBatch, tipRequest, ScheduleBatch.firstChecks,
    SchedulingUnit.requested, SchedulingUnit.keys, hx]
  omega

theorem squares_becomeTipReceiver :
    (S.becomeTipReceiver E w).Ensures (Squares w) (fun _ => True) := by
  unfold becomeTipReceiver
  split
  case h_1 => trivial
  case h_2 =>
    dsimp only
    split
    case isFalse => exact .of_books rfl
    case isTrue  => exact squares_startTips.imp fun w₁ h₁ => h₁.after rfl

theorem squares_checkSlotRoll {message : Option ProgressMessage} :
    (S.checkSlotRoll E w message).Ensures (Squares (afterReport E w (.checkSlotRoll message)))
      (fun _ => True) := by
  rw [checkSlotRoll, ensures_bind]
  refine books_rolled.imp fun w₁ h₁ => ?_
  split
  case isFalse => exact .of_books h₁
  case isTrue  =>
    exact squares_becomeTipReceiver.imp fun w₂ h₂ => h₂.after h₁

-- A batch of checks: the first checks are taken from `unchecked_tx`.

theorem books_popNext : (S.popNext w).Ensures
    (fun (r, w') => w'.books = { w.books with uncheckedTx := w'.uncheckedTx } ∧
      r.toList.countP (·.kind = .firstCheck) + w'.uncheckedTx.card = w.uncheckedTx.card)
    (fun _ => True) := by
  unfold Scheduler.popNext
  split
  case h_1 id rest hp =>
    refine ⟨rfl, ?_⟩
    rw [(Multiset.popMax_eq_some hp).left, Multiset.card_cons]
    exact add_comm ..
  case h_2 =>
    split
    case h_1 => trivial
    case h_2 found cursor _ =>
      cases found
      case none => exact ⟨rfl, Nat.zero_add _⟩
      case some => exact ⟨rfl, Nat.zero_add _⟩

theorem books_takeNext {n : Nat} : (S.takeNext n w).Ensures
    (fun (rs, w') => w'.books = { w.books with uncheckedTx := w'.uncheckedTx } ∧
      rs.countP (·.kind = .firstCheck) + w'.uncheckedTx.card = w.uncheckedTx.card)
    (fun _ => True) := by
  induction n generalizing w
  case zero => exact ⟨rfl, Nat.zero_add _⟩
  case succ n ih =>
    rw [Scheduler.takeNext, ensures_bind]
    refine books_popNext.imp ?_
    rintro ⟨_ | r, w₁⟩ ⟨hb, hc⟩
    case none => exact ⟨hb, hc⟩
    case some =>
      simp only [ensures_bind]
      refine ih.imp ?_
      rintro ⟨rs, w'⟩ ⟨hb', hc'⟩
      refine ⟨hb'.trans ?_, ?_⟩
      case refine_1 => rw [hb]
      case refine_2 =>
        change (r :: rs).countP _ + w'.uncheckedTx.card = _
        simp only [Option.toList_some, List.countP_cons, List.countP_nil] at hc hc' ⊢
        omega

-- What a number of rounds of the loop of `schedule_checks` do to the books.
structure Requested (w w' : World L) : Prop where
  books : w'.books = { w.books with uncheckedTx := w'.uncheckedTx, sent := w'.sent }
  count : (w'.sent.map (·.firstChecks)).sum + w'.uncheckedTx.card =
            (w.sent.map (·.firstChecks)).sum + w.uncheckedTx.card
  fewer : w'.uncheckedTx.card ≤ w.uncheckedTx.card

theorem Requested.trans (h₁ : Requested w w₁) (h₂ : Requested w₁ w₂) : Requested w w₂ where
  books := by rw [h₂.books, h₁.books]
  count := h₂.count.trans h₁.count
  fewer := h₂.fewer.trans h₁.fewer

theorem Requested.refl : Requested w w :=
  ⟨rfl, rfl, le_rfl⟩

theorem requested_scheduleChecksLoop {reads : Nat → Nat} {n : Nat} :
    (S.scheduleChecksLoop E reads n w).Ensures (Requested w) (fun _ => True) := by
  refine ensures_scheduleChecksLoop trivial (fun w₁ k h₁ => h₁.trans ⟨rfl, rfl, le_rfl⟩) ?_ .refl
  intro w₁ h₁
  refine books_takeNext.imp fun x hx => ?_
  obtain ⟨rs, w₂⟩ := x
  obtain ⟨hb, hc⟩ := hx
  have hs : w₂.sent = w₁.sent := congrArg (·.sent) hb
  have hl : w₂.uncheckedTx.card ≤ w₁.uncheckedTx.card := hc ▸ Nat.le_add_left ..
  constructor
  case left =>
    intro hn
    dsimp only at hn ⊢
    refine h₁.trans ⟨?_, ?_, hl⟩
    case refine_1 =>
      rw [hs]
      exact hb
    case refine_2 =>
      rw [hn] at hc
      rw [hs, ← hc]
      exact congrArg (_ + ·) (Nat.zero_add _).symm
  case right =>
    intro _
    simp only [World.schedule, ensures_bind, ensures_require, ensures_pure]
    refine ⟨fun _ => h₁.trans ⟨?_, ?_, hl⟩, fun _ => trivial⟩
    case refine_1 =>
      exact congrArg (fun b : Books => { b with sent := checkBatch rs :: w₂.sent }) hb
    case refine_2 =>
      simp only [Ledger.send, List.map_cons, List.sum_cons, hs]
      simp only [ScheduleBatch.firstChecks, checkBatch]
      omega

-- The counter goes up by what `unchecked_tx` has lost, as much as was sent.
theorem squares_scheduleChecks {reads : Nat → Nat} :
    (S.scheduleChecks E reads w).Ensures (Squares w) (fun _ => True) := by
  rw [scheduleChecks, ensures_bind]
  refine requested_scheduleChecksLoop.imp fun w₁ h₁ => ?_
  have hc := h₁.count
  have hf := h₁.fewer
  have hb := h₁.books
  simp only [World.books, Books.mk.injEq] at hb
  obtain ⟨ho, he, hi, hr, hr', hu, hok, herr, -, hx, -, ha, hn⟩ := hb
  constructor
  case surplus =>
    simp only [Books.surplus, World.books, World.count, hr, hr', hu, hok, herr, hx, ha, hn,
      Surplus.mk.injEq, and_true]
    omega
  case slack =>
    simp only [Books.slack, World.books, World.count, ho, he, hi, hr]
    omega

-- An attempt to fill a worker: `batch` are the transactions that were sent, none of them as a tip.
structure Ships (w w' : World L) (batch : List PriorityId) : Prop where
  books       : w'.books = { w.books with sent := w'.sent, units := w'.units }
  firstChecks : (w'.sent.map (·.firstChecks)).sum = (w.sent.map (·.firstChecks)).sum
  requested   : (w'.units.map (·.requested)).sum =
                  (w.units.map (·.requested)).sum + batch.length
  started     : (w'.units.map (·.keys.length)).sum =
                  (w.units.map (·.keys.length)).sum + batch.length

theorem Ships.refl : Ships w w [] :=
  ⟨rfl, rfl, rfl, rfl⟩

theorem Ships.trans {batch : List PriorityId} (h₁ : Ships w w₁ []) (h₂ : Ships w₁ w₂ batch) :
    Ships w w₂ batch where
  books       := by rw [h₂.books, h₁.books]
  firstChecks := h₂.firstChecks.trans h₁.firstChecks
  requested   := by rw [h₂.requested, h₁.requested, List.length_nil, add_zero]
  started     := by rw [h₂.started, h₁.started, List.length_nil, add_zero]

theorem ships_transaction {batch : ScheduleBatch} (ht : batch.transactions = [⟨id, .execute⟩])
    (hb : w₁.books = { w.books with
      sent  := batch :: w.sent
      units := .transaction id.key :: w.units }) : Ships w w₁ [id] := by
  have hs : w₁.sent = _ := congrArg (·.sent) hb
  have hu : w₁.units = _ := congrArg (·.units) hb
  refine ⟨?_, ?_, ?_, ?_⟩
  case refine_1 => rw [hb, hs, hu]
  case refine_2 => simp [hs, ScheduleBatch.firstChecks, ht]
  case refine_3 => simp [hu, SchedulingUnit.requested, SchedulingUnit.keys, add_comm]
  case refine_4 => simp [hu, SchedulingUnit.keys, add_comm]

theorem ships_bundle {batch : ScheduleBatch} {b : BundleId}
    (ht : batch.transactions = (bundleIds b).map (⟨·, .execute⟩)) (hb : w₁.books = { w.books with
      sent  := batch :: w.sent
      units := .bundle b.keys :: w.units }) : Ships w w₁ (bundleIds b) := by
  have hs : w₁.sent = _ := congrArg (·.sent) hb
  have hu : w₁.units = _ := congrArg (·.units) hb
  have hl : (bundleIds b).length = b.keys.length := by simp [bundleIds]
  refine ⟨?_, ?_, ?_, ?_⟩
  case refine_1 => rw [hb, hs, hu]
  case refine_2 => simp [hs, ScheduleBatch.firstChecks, ht, List.countP_eq_zero]
  case refine_3 => simp [hu, hl, SchedulingUnit.requested, SchedulingUnit.keys, add_comm]
  case refine_4 => simp [hu, hl, SchedulingUnit.keys, add_comm]

theorem books_foldlM_markExecuting {ids : List PriorityId} : (ids.foldlM markExecuting w).Ensures
    (fun w' => w'.books = { w.books with executingTx := w'.executingTx } ∧
      w'.executingTx.card = w.executingTx.card + ids.length) (fun _ => True) := by
  induction ids generalizing w
  case nil => exact ⟨rfl, rfl⟩
  case cons id ids ih =>
    simp only [List.foldlM_cons, markExecuting, ensures_bind, ensures_require, ensures_pure]
    refine ⟨fun hn => ih.imp fun w' hw => ⟨hw.left, ?_⟩, fun _ => trivial⟩
    rw [hw.right, Finset.card_insert_of_notMem hn, List.length_cons]
    omega

-- The batch is marked as executing and counted.
theorem Ships.squares {batch : List PriorityId} (h₁ : Ships w w₁ batch)
    (h₂ : w₂.books = { w₁.books with
      executingTx      := w₂.executingTx
      executeRequested := w₁.slotStats.executeRequested + batch.length })
    (hc : w₂.executingTx.card = w₁.executingTx.card + batch.length) : Squares w w₂ := by
  have hx : w₁.executingTx = w.executingTx := congrArg (·.executingTx) h₁.books
  have hr : w₁.slotStats.executeRequested = w.slotStats.executeRequested :=
    congrArg (·.executeRequested) h₁.books
  have hf := h₁.firstChecks
  have hq := h₁.requested
  have hs := h₁.started
  rw [hr, h₁.books] at h₂
  rw [hx] at hc
  constructor <;> rw [h₂]
  case slack => exact le_rfl
  case surplus =>
    simp only [Books.surplus, World.books, hf, hq, hs, hc, Surplus.mk.injEq, true_and]
    omega

theorem squares_scheduleWorkers {workers : List Nat} {budget : Nat}
    (ht : ∀ worker budget w, (S.tryBest E worker budget w).Ensures (fun x => Ships w x.1 x.2.2)
      (fun _ => True)) :
    (S.scheduleWorkers E workers budget w).Ensures (Squares w) (fun _ => True) := by
  induction workers generalizing budget w
  case nil => exact .refl
  case cons worker workers ih =>
    rw [scheduleWorkers]
    split_ifs
    case pos => exact .refl
    case pos => exact ih
    case neg =>
      rw [ensures_bind]
      refine (ht worker budget w).imp fun x hx => ?_
      obtain ⟨w₁, budget₁, batch⟩ := x
      dsimp only at hx ⊢
      split
      case isTrue hn =>
        rw [hn] at hx
        exact hx.squares rfl rfl
      case isFalse =>
        rw [ensures_bind]
        refine books_foldlM_markExecuting.imp fun w₂ h₂ => ?_
        obtain ⟨hb, hc⟩ := h₂
        refine ih.imp fun w₃ h₃ => Squares.trans ?_ h₃
        refine hx.squares ?_ hc
        exact congrArg (fun b : Books => { b with
          executeRequested := b.executeRequested + batch.length }) hb

theorem squares_scheduleExecute
    (ht : ∀ worker budget w, (S.tryBest E worker budget w).Ensures (fun x => Ships w x.1 x.2.2)
      (fun _ => True)) :
    (S.scheduleExecute E w).Ensures (Squares w) (fun _ => True) := by
  rw [scheduleExecute, ensures_bind]
  exact ensures_of_forall fun _ => squares_scheduleWorkers ht

end Scheduler
