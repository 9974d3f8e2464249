import SchedArchive.Custody.Rules

-- The answers of workers keep every invariant that the moves keep.

open Except Ledger World

namespace Scheduler

variable {L : Type} {S : Scheduler L} {E : Env} {t : Terms L} {F : Fault → Prop}
variable {I : Ledger L → Multiset TransactionKey → Prop} {w : World L}
variable {h : Multiset TransactionKey} {id : PriorityId} {r : Request}

theorem toLedger_evictChecked {P : LockPolicy L} (hc : id ∈ w.checkedTx) :
    (w.evictChecked P id).toLedger = (w.toLedger.leaveChecked P id).dropTransaction id.key := by
  rw [evictChecked, removeChecked, if_pos hc]
  rfl

theorem releaseCus_eq_ok (hc : id.cost ≤ w.inFlightCus) :
    releaseCus E w id = .ok { w with inFlightCus := w.inFlightCus - id.cost } := by
  rw [releaseCus, Machine.sub_eq_ok hc]
  rfl

-- The ledger once the bridge has carried out the decision of a callback.
def settled (key : TransactionKey) : World L × TxDecision → Ledger L
  | (w, .keep) => w.toLedger
  | (w, .drop) => w.toLedger.dropTransaction key

theorem ensures_drainWorkerResponse {a : WorkerAction} {Q : Ledger L → Prop} (hl : r.key ∈ w.live)
    (hr : (S.onResponse E { w with toLedger := w.toLedger.answer r a } r.id a).Ensures
      (fun x => Q (settled r.key x)) F) :
    (S.drainWorkerResponse E w r a).Ensures (fun w' => Q w'.toLedger) F := by
  rw [drainWorkerResponse, if_pos hl, ensures_bind]
  refine hr.imp ?_
  rintro ⟨w', d⟩ hq
  cases d <;> exact hq

-- A retried transaction is in neither of the places it can go back to.
theorem ensures_retry {rep : ExecutionResponse} (hc : id ∉ w.checkedTx) (hd : id ∉ w.deferredTx)
    (h₁ : I (w.toLedger.enterChecked S.toLockPolicy id) h)
    (h₂ : I { w.toLedger with deferredTx := w.deferredTx ++ [id] } h) :
    (S.retry w id rep).Ensures (fun w' => I w'.toLedger h) F := by
  unfold Scheduler.retry
  split
  case isTrue =>
    simp only [ensures_bind, ensures_require, ensures_pure]
    exact ⟨fun _ => h₂, fun hn => absurd hd hn⟩
  case isFalse =>
    simp only [insertCheckedNew, ensures_bind, ensures_require, ensures_pure]
    exact ⟨fun _ => h₁, fun hn => absurd (fun _ => hc) hn⟩

namespace Kept

variable (K : Kept S.toLockPolicy E t F I)

include K

theorem evictChecked (hi : I w.toLedger h) (hc : id ∈ w.checkedTx) :
    I (w.evictChecked S.toLockPolicy id).toLedger h := by
  rw [toLedger_evictChecked hc]
  exact K.move (.evictChecked hc) hi

theorem accept (hi : I w.toLedger (id.key ::ₘ h)) (ho : w.Ordinary E id) (ha : w.Admitted E id) :
    (S.accept w id).Ensures (fun w' => id ∈ w'.checkedTx ∧ I w'.toLedger h) F := by
  have hs : ∀ w : World L, id ∈ (w.insertChecked S.toLockPolicy id).checkedTx := fun _ =>
    Finset.mem_insert_self ..
  unfold Scheduler.accept
  split
  case isFalse => exact ⟨hs w, K.move (.accept ho ha) hi⟩
  case isTrue  =>
    split
    case h_1 => exact K.benign _ (by decide) (by decide)
    case h_2 lowest hl =>
      have hc := Finset.first_mem hl
      have hm : Move S.toLockPolicy E t _ (id.key ::ₘ h) _ _ := .evictChecked hc
      have hk := K.owned hi |>.minted_of_live <| K.owned hi |>.mem_live_iff.mpr <|
        .inr <| Multiset.mem_cons_self ..
      have hi := K.move hm hi
      rw [← toLedger_evictChecked hc] at hi
      refine ⟨hs _, K.move (.accept ?_ ?_) hi⟩
      · rw [toLedger_count, toLedger_evictChecked hc]
        exact ho.move hm hk
      · rw [toLedger_count, toLedger_evictChecked hc]
        exact ha

theorem trim (hi : I w.toLedger h) : I (S.trim w).toLedger h := by
  unfold Scheduler.trim
  split
  case isFalse => exact hi
  case isTrue  =>
    split
    case h_1           => exact hi
    case h_2 lowest hl => exact K.evictChecked hi <| Finset.first_mem hl

-- The response to a first CHECK admits or drops the key, which is in no place by now.
theorem onFirstCheck {rep : CheckResponse} {keys : Option (List Pubkey)}
    (hi : I w.toLedger (id.key ::ₘ h)) (ho : w.Ordinary E id)
    (ha : ⟨⟨id, .firstCheck⟩, .check rep keys⟩ ∈ w.answered) :
    (S.onCheck E w id rep keys).Ensures (fun x => I (settled id.key x) h) F := by
  have hn := fun p => K.owned hi |>.not_mem_keysIn (p := p) (Multiset.mem_cons_self ..)
  have hx : ¬(id.key ∈ w.executingTx ∨ id ∈ w.deferredTx) := by
    rintro (hx | hd)
    · exact hn .executing hx
    · exact hn .deferred <| key_mem_deferred hd
  have hc : id ∉ w.checkedTx := fun hc => hn .checked <| key_mem_checked hc
  rw [onCheck, if_neg hx]
  split
  case isTrue hf =>
    simp only [ensures_bind, ensures_require, ensures_pure]
    refine ⟨fun _ => ?_, fun _ => K.benign _ (by decide) (by decide)⟩
    rw [removeChecked, if_neg (by exact hc)]
    exact K.move .drop hi
  case isFalse hf =>
    simp only [ensures_bind, ensures_require]
    refine ⟨fun _ => ?_, fun _ => K.benign _ (by decide) (by decide)⟩
    split
    case isTrue => exact K.move .drop hi
    case isFalse hr =>
      rw [ensures_bind]
      refine (K.accept hi ho ⟨rep, keys, ha, by simpa using hf, by simpa using hr⟩).imp fun w' hw => ?_
      exact K.move (.resolve hw.left) hw.right

-- The response to a recheck of a live transaction: it is in `checked_tx`, and a failure drops it
-- from there, or the response is ignored.
theorem onRecheck {rep : CheckResponse} {keys : Option (List Pubkey)} (hi : I w.toLedger h)
    (hc : id ∈ w.checkedTx ∨ id ∈ w.deferredTx ∨ id.key ∈ w.executingTx) :
    (S.onCheck E w id rep keys).Ensures (fun x => I (settled id.key x) h) F := by
  rw [onCheck]
  split
  case isTrue => exact hi
  case isFalse hn =>
    have hc : id ∈ w.checkedTx := by tauto
    split
    case isTrue hf =>
      simp only [ensures_bind, ensures_require, ensures_pure]
      refine ⟨fun _ => ?_, fun _ => K.benign _ (by decide) (by decide)⟩
      exact K.evictChecked (w := w.count _) hi hc
    case isFalse hf =>
      simp only [ensures_bind, ensures_require]
      exact ⟨fun _ => hi, fun _ => K.benign _ (by decide) (by decide)⟩

theorem priority_lt (hi : I w.toLedger h) (hr : r ∈ w.inFlight)
    (hn : r.id.priority ≠ bundleMarker) : r.id.priority < bundleMarker :=
  ((K.custody hi).labelled.requests r hr).elim (·.priority) fun hm => absurd hm.right hn

theorem onExecute {rep : ExecutionResponse} (hi : I w.toLedger h) (hr : r ∈ w.inFlight)
    (hk : r.kind = .execute) :
    (S.onExecute E { w with toLedger := w.toLedger.answer r (.execute rep) } r.id rep).Ensures
      (fun x => I (settled r.key x) h) F := by
  have hx := (K.owned hi).executing_of_request hr hk
  have hm := (K.custody hi).metered.cost_le hr hk
  obtain ⟨hc, hd⟩ := (K.owned hi).not_queued_of_request hr hk
  simp only [Scheduler.onExecute, releaseLocks, ensures_bind, ensures_require]
  refine ⟨fun _ => ?_, fun hn => absurd hx hn⟩
  rw [releaseCus_eq_ok (by exact hm), ensures_ok]
  refine (K.unlocks hi hr hk).with_eq.imp fun locks hw => ?_
  obtain ⟨hu, _⟩ := hw
  rw [ensures_pure]
  split
  case isTrue => exact K.move (.finishDrop hr hk hu) hi
  case isFalse hn =>
    have hp := K.priority_lt hi hr fun hp => hn <| .inl hp
    rw [ensures_bind]
    refine Ensures.imp (ensures_retry ?_ ?_ ?_ ?_) fun w' hi => K.trim hi
    · exact hc
    · exact hd
    · exact K.move (.finishChecked hr hk hu hp) hi
    · exact K.move (.finishDeferred hr hk hu hp) hi

theorem onUnprocessed (hi : I w.toLedger h) (hr : r ∈ w.inFlight) (hk : r.kind = .execute) :
    (S.onUnprocessed E { w with toLedger := w.toLedger.answer r .unprocessed } r.id).Ensures
      (fun x => I (settled r.key x) h) F := by
  have hx := (K.owned hi).executing_of_request hr hk
  have hm := (K.custody hi).metered.cost_le hr hk
  rw [Scheduler.onUnprocessed, if_pos (by exact hx)]
  simp only [releaseLocks, ensures_bind]
  refine (K.unlocks hi hr hk).with_eq.imp fun locks hw => ?_
  obtain ⟨hu, _⟩ := hw
  rw [ensures_pure, releaseCus_eq_ok (by exact hm), ensures_ok]
  split
  case isTrue => exact K.move (.finishDrop hr hk hu) hi
  case isFalse hn =>
    have hp := K.priority_lt hi hr hn
    exact K.move (.finishChecked hr hk hu hp) hi

theorem drainWorkerResponse {a : WorkerAction} (hi : I w.toLedger h) (hr : r ∈ w.inFlight)
    (hf : r.Fits a) : (S.drainWorkerResponse E w r a).Ensures (fun w' => I w'.toLedger h) F := by
  by_cases hl : r.key ∈ w.live
  case neg =>
    rw [Scheduler.drainWorkerResponse, if_neg hl]
    exact K.move (.swallow hr hl) hi
  case pos =>
    refine ensures_drainWorkerResponse (Q := (I · h)) hl ?_
    cases a
    case unprocessed => exact K.onUnprocessed hi hr hf
    case execute     => exact K.onExecute hi hr hf
    case check rep keys =>
      cases hk : r.kind
      case firstCheck =>
        have ho := (K.custody hi).labelled.requests r hr |>.resolve_right (by simp [Marked, hk])
        refine K.onFirstCheck (K.move (.answerFirst hr hk hl) hi) ⟨ho.priority, ho.key, ho.clean⟩ ?_
        rw [← hk]
        exact List.mem_cons_self
      case recheck =>
        refine K.onRecheck (K.move (.answerRecheck hr hk) hi) ?_
        refine (K.custody hi).rechecks r hr hk hl |>.imp_right <| Or.imp_right fun hx => ?_
        exact (K.owned hi).executing_of_request (r := ⟨r.id, .execute⟩) hx rfl
      case execute => exact absurd hk hf

end Kept

end Scheduler
