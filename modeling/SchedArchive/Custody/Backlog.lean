import SchedArchive.Custody.Frame

-- The ordinary transactions that were admitted and are not done yet, wherever they are by now. Only
-- the admission of another one adds to them.

open Except

namespace Ledger

variable {L : Type} {P : LockPolicy L} {E : Env} {l l' : Ledger L} {id : PriorityId} {r : Request}
variable {batch : ScheduleBatch}

-- The execute requests in flight that belong to neither a bundle nor a tip pair.
def ordinaryExecutions (l : Ledger L) : Multiset Request :=
  l.executions.filter (·.id.priority ≠ bundleMarker)

def backlog (l : Ledger L) : Nat :=
  l.checkedTx.card + l.deferredTx.length + l.ordinaryExecutions.card

theorem backlog_congr (h : l'.pending = l.pending) : l'.backlog = l.backlog := by
  have hc : l'.checkedTx = l.checkedTx := congrArg (·.checkedTx) h
  have hd : l'.deferredTx = l.deferredTx := congrArg (·.deferredTx) h
  have hx : l'.executions = l.executions := congrArg (·.executions) h
  rw [backlog, backlog, ordinaryExecutions, ordinaryExecutions, hc, hd, hx]

theorem backlog_enterChecked : (l.enterChecked P id).backlog ≤ l.backlog + 1 := by
  have hc : (l.enterChecked P id).checkedTx.card ≤ l.checkedTx.card + 1 := Finset.card_insert_le ..
  change _ + l.deferredTx.length + l.ordinaryExecutions.card ≤ _
  unfold backlog
  omega

theorem backlog_enterDeferred :
    { l with deferredTx := l.deferredTx ++ [id] }.backlog = l.backlog + 1 := by
  change l.checkedTx.card + (l.deferredTx ++ [id]).length + l.ordinaryExecutions.card = _
  rw [List.length_append, List.length_singleton, backlog]
  omega

theorem backlog_leaveChecked (hc : id ∈ l.checkedTx) :
    (l.leaveChecked P id).backlog + 1 = l.backlog := by
  have hc : (l.leaveChecked P id).checkedTx.card + 1 = l.checkedTx.card :=
    Finset.card_erase_add_one hc
  change _ + l.deferredTx.length + l.ordinaryExecutions.card + 1 = _
  unfold backlog
  omega

-- The answer to an execute request.

theorem ordinaryExecutions_answer (a : WorkerAction) (hr : r ∈ l.inFlight) (hk : r.kind = .execute)
    (hp : r.id.priority ≠ bundleMarker) :
    (l.answer r a).ordinaryExecutions.card + 1 = l.ordinaryExecutions.card := by
  have hx : l.executions = r ::ₘ (l.answer r a).executions := Owned.executions_erase_execute hr hk
  have ho : l.ordinaryExecutions = r ::ₘ (l.answer r a).ordinaryExecutions := by
    rw [ordinaryExecutions, hx]
    exact Multiset.filter_cons_of_pos _ hp
  rw [ho, Multiset.card_cons]

theorem backlog_answer (a : WorkerAction) (hr : r ∈ l.inFlight) (hk : r.kind = .execute)
    (hp : r.id.priority ≠ bundleMarker) : (l.answer r a).backlog + 1 = l.backlog := by
  have hx := ordinaryExecutions_answer a hr hk hp
  change l.checkedTx.card + l.deferredTx.length + _ + 1 = _
  unfold backlog
  omega

theorem backlog_answer_le (a : WorkerAction) : (l.answer r a).backlog ≤ l.backlog := by
  refine Nat.add_le_add_left (Multiset.card_le_card ?_) _
  exact Multiset.filter_le_filter _ <| Multiset.filter_le_filter _ <| Multiset.erase_le ..

-- A new execute request.

theorem ordinaryExecutions_send (l : Ledger L) (batch : ScheduleBatch) :
    (l.send batch).ordinaryExecutions.card ≤
      (batch.transactions.filter (·.id.priority ≠ bundleMarker)).length +
        l.ordinaryExecutions.card := by
  have hs : (l.send batch).inFlight = ↑batch.transactions + l.inFlight := rfl
  rw [ordinaryExecutions, executions, hs, Multiset.filter_add, Multiset.filter_add,
    Multiset.card_add]
  refine Nat.add_le_add_right ?_ _
  rw [Multiset.filter_filter, Multiset.filter_coe, Multiset.coe_card]
  refine List.Sublist.length_le <| List.monotone_filter_right _ fun r hr => ?_
  simp_all

theorem backlog_send_marked (hm : ∀ r ∈ batch.transactions, r.id.priority = bundleMarker) :
    (l.send batch).backlog ≤ l.backlog := by
  have hs := ordinaryExecutions_send l batch
  have hn : batch.transactions.filter (·.id.priority ≠ bundleMarker) = [] := by
    rw [List.filter_eq_nil_iff]
    intro r hr
    simp [hm r hr]
  rw [hn, List.length_nil, Nat.zero_add] at hs
  exact Nat.add_le_add_left hs _

theorem backlog_send_single (hb : batch.transactions = [r]) :
    (l.send batch).backlog ≤ l.backlog + 1 := by
  have hs := ordinaryExecutions_send l batch
  have hl := List.length_filter_le (fun r => decide (r.id.priority ≠ bundleMarker)) batch.transactions
  rw [hb, List.length_singleton] at hl
  rw [hb] at hs
  change l.checkedTx.card + l.deferredTx.length + _ ≤ _
  unfold backlog
  omega

end Ledger

open Ledger

namespace Scheduler

variable {L : Type} {S : Scheduler L} {E : Env} {w : World L} {id : PriorityId} {r : Request}
variable {h : Multiset TransactionKey}

-- Deferred transactions go back to where they came from, and tips do not count.

theorem backlog_drainDeferred {ids : List PriorityId} (hd : w.deferredTx = ids) :
    (S.drainDeferred ids w).Ensures (·.backlog ≤ w.backlog) (fun _ => True) := by
  refine Ensures.imp (ensures_drainDeferred
    (J := fun ids w₁ => w₁.deferredTx = ids ∧ w₁.backlog ≤ w.backlog) ?_ ⟨hd, le_rfl⟩)
    fun w' hw => hw.right
  rintro id ids w₁ ⟨hd, hb⟩
  have hl : { w₁.toLedger with deferredTx := ids }.backlog + 1 = w₁.backlog := by
    change w₁.checkedTx.card + ids.length + w₁.ordinaryExecutions.card + 1 = _
    rw [backlog, hd, List.length_cons]
    omega
  simp only [World.insertCheckedNew, ensures_bind, ensures_require, ensures_pure]
  exact ⟨fun _ => ⟨rfl, (hl ▸ backlog_enterChecked).trans hb⟩, fun _ => trivial⟩

theorem backlog_rolled {message : Option ProgressMessage} :
    (S.rolled E w message).Ensures (·.backlog ≤ w.backlog) (fun _ => True) := by
  have ho : (observeProgress w message).Ensures (·.toLedger = w.toLedger) (fun _ => True) := by
    cases message
    case some => rfl
    case none =>
      simp only [observeProgress, ensures_bind, ensures_require]
      exact ⟨fun _ => rfl, fun _ => trivial⟩
  rw [rolled, ensures_bind]
  refine ho.imp fun w₁ h₁ => ?_
  rw [← h₁]
  split
  case isFalse => exact le_refl w₁.backlog
  case isTrue =>
    simp only [rollSlot, ensures_bind]
    refine Ensures.imp (backlog_drainDeferred ?_) fun w₂ h₂ => h₂
    rfl

theorem backlog_schedule_tip {key : TransactionKey} :
    (w.schedule E (tipBatch w key)).Ensures (·.backlog ≤ w.backlog) (fun _ => True) := by
  refine World.ensures_schedule.mono (fun w₁ hw => ?_) fun _ _ => trivial
  rw [hw]
  refine backlog_send_marked fun r hr => ?_
  rw [List.mem_singleton.mp hr]
  rfl

theorem backlog_becomeTipReceiver :
    (S.becomeTipReceiver E w).Ensures (·.backlog ≤ w.backlog) (fun _ => True) := by
  unfold becomeTipReceiver
  split
  case h_1 => trivial
  case h_2 =>
    dsimp only
    split
    case isFalse => exact le_refl w.backlog
    case isTrue =>
      simp only [startTips, ensures_bind, ensures_require]
      refine ensures_of_forall fun _ => ensures_of_forall fun _ => ⟨fun _ => ⟨fun _ => ?_, ?_⟩, ?_⟩
      case refine_1 =>
        refine backlog_schedule_tip.imp fun w₁ h₁ => ?_
        exact backlog_schedule_tip.imp fun w₂ h₂ => h₂.trans h₁
      case refine_2 => exact fun _ => trivial
      case refine_3 => exact fun _ => trivial

theorem backlog_checkSlotRoll {message : Option ProgressMessage} :
    (S.checkSlotRoll E w message).Ensures (·.backlog ≤ w.backlog) (fun _ => True) := by
  rw [checkSlotRoll, ensures_bind]
  refine backlog_rolled.imp fun w₁ h₁ => ?_
  split
  case isTrue  => exact backlog_becomeTipReceiver.imp fun w₂ h₂ => h₂.trans h₁
  case isFalse => exact h₁

-- A transaction that is sent for execution leaves `checked_tx`, and bundles do not count.

theorem backlog_attempt {worker budget : Nat} {x : World L × Nat × List PriorityId}
    (ha : Attempt S.toLockPolicy E worker budget w x) : x.1.backlog ≤ w.backlog := by
  cases ha
  case nothing => exact le_refl w.backlog
  case aborted => exact le_refl w.backlog
  case transaction id locks w' hc _ _ _ hw =>
    have hl := backlog_leaveChecked (P := S.toLockPolicy) hc
    rw [← hl, hw]
    have hb : (transactionBatch w worker id).transactions = [⟨id, .execute⟩] := rfl
    exact backlog_send_single (l := w.leaveChecked S.toLockPolicy id) hb
  case bundle b locks w' _ _ _ _ hw =>
    rw [hw]
    have hm : ∀ r ∈ (bundleBatch w worker b).transactions, r.id.priority = bundleMarker := by
      intro r hr
      obtain ⟨id, hi, rfl⟩ := List.mem_map.mp hr
      exact priority_bundle hi
    exact backlog_send_marked (l := w.toLedger) hm

theorem backlog_foldlM_markExecuting {ids : List PriorityId} :
    (ids.foldlM markExecuting w).Ensures (·.backlog = w.backlog) (fun _ => True) := by
  refine ensures_foldlM_markExecuting.imp fun w' hw => ?_
  obtain ⟨executing, rfl⟩ := hw
  rfl

theorem backlog_scheduleExecute {t : Terms L} {F : Fault → Prop}
    {I : Ledger L → Multiset TransactionKey → Prop} (K : Kept S.toLockPolicy E t F I)
    (law : S.Lawful) (hi : I w.toLedger h) (hs : t.starts) :
    (S.scheduleExecute E w).Ensures (·.backlog ≤ w.backlog) (fun _ => True) := by
  suffices hw : ∀ workers budget w, I w.toLedger h → w.inFlightCus + budget ≤ maxBlockUnits →
      (S.scheduleWorkers E workers budget w).Ensures (·.backlog ≤ w.backlog) (fun _ => True) by
    rw [scheduleExecute, ensures_bind]
    refine (ensures_fillBudget (K.custody hi).metered).mono (fun budget hb => ?_) fun _ _ => trivial
    exact hw _ budget w hi hb
  intro workers
  induction workers
  case nil => exact fun _ w _ _ => le_refl w.backlog
  case cons worker workers ih =>
    intro budget w hi hb
    rw [scheduleWorkers]
    split_ifs
    case pos => exact le_refl w.backlog
    case pos => exact ih budget w hi hb
    case neg =>
      rw [ensures_bind]
      refine (law.attempt E worker budget w hb).mono (fun x ha => ?_) fun _ _ => trivial
      have hx := backlog_attempt ha
      have hk := K.attempt hi hs hb ha
      obtain ⟨w₁, budget₁, batch⟩ := x
      dsimp only at hx hk ⊢
      split
      case isTrue => exact hx
      case isFalse =>
        rw [ensures_bind]
        cases hm : batch.foldlM markExecuting w₁
        case error => trivial
        case ok w₂ =>
          obtain ⟨hi, hb⟩ := hk.of_ok hm
          refine (ih budget₁ (w₂.count _) hi hb).imp fun w₃ h₃ => ?_
          exact h₃.trans <| (backlog_foldlM_markExecuting.of_ok hm).le.trans hx

-- An admission looks at all pending transactions, of which the backlog is a part.
theorem backlog_le_pendingLen (o : w.Owned E h) : w.backlog ≤ w.pendingLen := by
  have hx : w.executions.card = w.executingTx.card := by
    rw [← Multiset.card_map Request.key, o.executing, Finset.card_def]
  have ho : w.ordinaryExecutions.card ≤ w.executions.card :=
    Multiset.card_le_card <| Multiset.filter_le ..
  unfold backlog World.pendingLen
  omega

theorem backlog_removeChecked {P : LockPolicy L} : (w.removeChecked P id).backlog ≤ w.backlog := by
  unfold World.removeChecked
  split
  case isFalse => exact le_refl w.backlog
  case isTrue hc =>
    have hl := backlog_leaveChecked (P := P) hc
    change (w.leaveChecked P id).backlog ≤ _
    omega

theorem backlog_accept (hp : w.backlog ≤ w.pendingLen) :
    (S.accept w id).Ensures (·.backlog ≤ max w.backlog w.checkedCapacity) (fun _ => True) := by
  unfold accept
  split
  case isFalse hc =>
    refine (backlog_enterChecked (l := w.toLedger)).trans ?_
    omega
  case isTrue =>
    split
    case h_1 => trivial
    case h_2 lowest hl =>
      have hc := Finset.first_mem hl
      have hl := backlog_leaveChecked (P := S.toLockPolicy) hc
      change ((w.evictChecked S.toLockPolicy lowest).enterChecked S.toLockPolicy id).backlog ≤ _
      rw [toLedger_evictChecked hc]
      refine backlog_enterChecked.trans ?_
      change (w.leaveChecked S.toLockPolicy lowest).backlog + 1 ≤ _
      omega

theorem backlog_onCheck {rep : CheckResponse} {keys : Option (List Pubkey)}
    (hp : w.backlog ≤ w.pendingLen) :
    (S.onCheck E w id rep keys).Ensures
      (fun x => (settled id.key x).backlog ≤ max w.backlog w.checkedCapacity) (fun _ => True) := by
  have hw : w.backlog ≤ max w.backlog w.checkedCapacity := le_max_left ..
  unfold onCheck
  split
  case isTrue => exact hw
  case isFalse =>
    split
    case isTrue =>
      simp only [ensures_bind, ensures_require, ensures_pure]
      exact ⟨fun _ => (backlog_removeChecked (w := w.count _)).trans hw, fun _ => trivial⟩
    case isFalse =>
      simp only [ensures_bind, ensures_require]
      refine ⟨fun _ => ?_, fun _ => trivial⟩
      split_ifs
      case pos => exact hw
      case pos => exact hw
      case neg =>
        rw [ensures_bind]
        exact (backlog_accept hp).imp fun _ h => h

theorem backlog_retry {rep : ExecutionResponse} :
    (S.retry w id rep).Ensures (·.backlog ≤ w.backlog + 1) (fun _ => True) := by
  unfold Scheduler.retry
  split
  case isTrue =>
    simp only [ensures_bind, ensures_require, ensures_pure]
    exact ⟨fun _ => backlog_enterDeferred.le, fun _ => trivial⟩
  case isFalse =>
    simp only [World.insertCheckedNew, ensures_bind, ensures_require, ensures_pure]
    exact ⟨fun _ => backlog_enterChecked, fun _ => trivial⟩

theorem backlog_trim : (S.trim w).backlog ≤ w.backlog := by
  unfold trim
  split
  case isFalse => exact le_refl w.backlog
  case isTrue =>
    split
    case h_1 => exact le_refl w.backlog
    case h_2 => exact backlog_removeChecked

theorem backlog_releaseCus :
    (releaseCus E w id).Ensures (·.backlog = w.backlog) (fun _ => True) := by
  rw [releaseCus, ensures_bind]
  exact ensures_of_forall fun _ => rfl

theorem backlog_releaseLocks :
    (S.releaseLocks w id).Ensures (·.backlog = w.backlog) (fun _ => True) := by
  rw [releaseLocks, ensures_bind]
  exact ensures_of_forall fun _ => rfl

-- A retried transaction only changes its place.

theorem backlog_onExecute {rep : ExecutionResponse} (hr : r ∈ w.inFlight) (hk : r.kind = .execute) :
    (S.onExecute E { w with toLedger := w.toLedger.answer r (.execute rep) } r.id rep).Ensures
      (fun x => (settled r.key x).backlog ≤ w.backlog) (fun _ => True) := by
  simp only [onExecute, ensures_bind, ensures_require]
  refine ⟨fun _ => backlog_releaseCus.imp fun w₁ h₁ => ?_, fun _ => trivial⟩
  refine backlog_releaseLocks.imp fun w₂ h₂ => ?_
  have h₂ : w₂.backlog = (w.toLedger.answer r (.execute rep)).backlog := h₂.trans h₁
  split
  case isTrue => exact h₂.le.trans <| backlog_answer_le (l := w.toLedger) _
  case isFalse hn =>
    have ha := backlog_answer (.execute rep) hr hk fun hp => hn <| .inl hp
    rw [ensures_bind]
    refine backlog_retry.imp fun w₃ h₃ => backlog_trim.trans <| h₃.trans ?_
    rw [← ha, ← h₂]
    rfl

theorem backlog_onUnprocessed (hr : r ∈ w.inFlight) (hk : r.kind = .execute) :
    (S.onUnprocessed E { w with toLedger := w.toLedger.answer r .unprocessed } r.id).Ensures
      (fun x => (settled r.key x).backlog ≤ w.backlog) (fun _ => True) := by
  unfold onUnprocessed
  split
  case isFalse => exact backlog_answer_le (l := w.toLedger) .unprocessed
  case isTrue =>
    simp only [ensures_bind]
    refine backlog_releaseLocks.imp fun w₁ h₁ => backlog_releaseCus.imp fun w₂ h₂ => ?_
    have h₂ : w₂.backlog = (w.toLedger.answer r .unprocessed).backlog := h₂.trans h₁
    split
    case isTrue => exact h₂.le.trans <| backlog_answer_le (l := w.toLedger) _
    case isFalse hn =>
      have ha := backlog_answer .unprocessed hr hk hn
      rw [← ha, ← h₂]
      exact backlog_enterChecked

theorem backlog_drainWorkerResponse {a : WorkerAction} (o : w.Owned E 0) (hr : r ∈ w.inFlight)
    (hf : r.Fits a) : (S.drainWorkerResponse E w r a).Ensures
      (·.backlog ≤ max w.backlog w.checkedCapacity) (fun _ => True) := by
  have hm : w.backlog ≤ max w.backlog w.checkedCapacity := le_max_left ..
  by_cases hl : r.key ∈ w.live
  case neg =>
    rw [drainWorkerResponse, if_neg hl]
    exact (backlog_answer_le (l := w.toLedger) a).trans hm
  case pos =>
    refine ensures_drainWorkerResponse (Q := (·.backlog ≤ max w.backlog w.checkedCapacity)) hl ?_
    cases a
    case unprocessed => exact (backlog_onUnprocessed hr hf).imp fun _ h => h.trans hm
    case execute     => exact (backlog_onExecute hr hf).imp fun _ h => h.trans hm
    case check rep keys =>
      have ha : (w.toLedger.answer r (.check rep keys)).backlog ≤ w.pendingLen :=
        (backlog_answer_le (l := w.toLedger) _).trans <| backlog_le_pendingLen o
      refine (backlog_onCheck (S := S) (by exact ha)).imp fun _ h => h.trans ?_
      exact max_le_max_right _ <| backlog_answer_le (l := w.toLedger) _

end Scheduler
