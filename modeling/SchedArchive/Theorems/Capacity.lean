import SchedArchive.Custody.Backlog
import SchedArchive.Theorems.Custody

-- The capacity for checked transactions: what it bounds, and when making room for another one fails.

open Except Ledger

namespace Scheduler

variable {L : Type} {S : Scheduler L} {E : Env} {locks : L} {w : World L} {e : Event}

-- The capacity for checked transactions stays as it is.
def KeepsCapacity (w : World L) : Event → Prop
  | .setRuntimeConfig update => update.checkedCapacity = w.checkedCapacity
  | _                        => True

instance : DecidablePred (KeepsCapacity w)
  | .setRuntimeConfig update =>
    inferInstanceAs <| Decidable (update.checkedCapacity = w.checkedCapacity)
  | .clock _ | .workerReads _ | .workerResponse _ _ | .updateBasePrices _ | .checkSlotRoll _
  | .processTick | .drainTpu _ _ | .dropExpiredBundles | .drainJito _ _ | .scheduleChecks _
  | .scheduleExecute | .restartRecheck => isTrue trivial

-- The executing keys that were sent with the priority of an ordinary transaction.
def ordinaryExecuting (w : World L) : Finset TransactionKey :=
  w.executingTx.filter (· ∈ w.ordinaryExecutions.map Request.key)

theorem card_ordinaryExecuting_le : (ordinaryExecuting w).card ≤ w.ordinaryExecutions.card := by
  have hs : ordinaryExecuting w ⊆ (w.ordinaryExecutions.map Request.key).toFinset := by
    intro k hk
    exact Multiset.mem_toFinset.mpr (Finset.mem_filter.mp hk).right
  calc (ordinaryExecuting w).card
    _ ≤ (w.ordinaryExecutions.map Request.key).toFinset.card := Finset.card_le_card hs
    _ ≤ (w.ordinaryExecutions.map Request.key).card          := Multiset.toFinset_card_le _
    _ = w.ordinaryExecutions.card                            := Multiset.card_map ..

namespace Known

section Step

variable (hS : S.Known locks)

include hS

theorem checkedCapacity_step (hc : KeepsCapacity w e) :
    (S.step E w e).Ensures (·.checkedCapacity = w.checkedCapacity) (fun _ => True) := by
  refine hS.settings_step.imp fun w' hw => (congrArg (·.checkedCapacity) hw).trans ?_
  cases e
  case setRuntimeConfig => exact hc
  all_goals rfl

-- Only the answer to a check adds to the backlog, and not beyond the capacity.
theorem backlog_step (hi : w.Custody E 0 ∧ w.Vetted E) (he : e.Enabled w) :
    (S.step E w e).Ensures (·.backlog ≤ max w.backlog w.checkedCapacity) (fun _ => True) := by
  have hm : w.backlog ≤ max w.backlog w.checkedCapacity := le_max_left ..
  cases e
  case clock | workerReads | setRuntimeConfig | updateBasePrices | processTick | restartRecheck =>
    exact hm
  case checkSlotRoll => exact backlog_checkSlotRoll.imp fun _ h => h.trans hm
  case workerResponse => exact backlog_drainWorkerResponse hi.left.owned he.left he.right
  case drainTpu =>
    exact spares_drainTpu.imp fun _ h => (backlog_congr h.pending).le.trans hm
  case dropExpiredBundles =>
    exact (backlog_congr (spares_dropExpiredBundles (S := S)).pending).le.trans hm
  case drainJito =>
    exact heeds_drainJito.imp fun _ h => (backlog_congr h.pending).le.trans hm
  case scheduleChecks =>
    exact (spares_scheduleChecks hS.lawful).imp fun _ h => (backlog_congr h.pending).le.trans hm
  case scheduleExecute =>
    refine Ensures.imp (backlog_scheduleExecute (kept_vetted hS.lockFaults) hS.lawful hi trivial) ?_
    exact fun _ h => h.trans hm

theorem backlog_le (hr : S.Reach E locks KeepsCapacity w) : w.backlog ≤ w.checkedCapacity := by
  suffices hi : (w.Custody E 0 ∧ w.Vetted E) ∧ w.backlog ≤ w.checkedCapacity from hi.right
  induction hr
  case init h =>
    rw [h.ledger]
    exact ⟨⟨custody_empty, vetted_empty⟩, Nat.zero_le _⟩
  case step w w' e _ he hc hs hi =>
    refine ⟨((kept_vetted hS.lockFaults).step hS.lawful hi.left he within_all).of_ok hs, ?_⟩
    rw [(hS.checkedCapacity_step hc).of_ok hs]
    exact ((hS.backlog_step hi.left he).of_ok hs).trans <| max_le hi.right le_rfl

end Step

-- The ordinary transactions in `checked_tx`, `deferred_tx` and `executing_tx` never exceed the
-- capacity, whatever bundles and tips are executing beside them.
theorem ordinary_backlog_bounded (hS : S.Known locks) (hr : S.Reach E locks KeepsCapacity w) :
    w.checkedTx.card + w.deferredTx.length + (ordinaryExecuting w).card ≤ w.checkedCapacity := by
  have hb := hS.backlog_le hr
  have hx := card_ordinaryExecuting_le (w := w)
  unfold backlog at hb
  omega

theorem ordinary_backlog_bounded_full :
    ∃ w, BatchScheduler.scheduler.Reach Sample.env ∅ KeepsCapacity w ∧
      (w.executingTx = {0, 1, 2} ∧ ordinaryExecuting w = {0} ∧ w.checkedCapacity = 1) ∧
      w.checkedTx.card + w.deferredTx.length + (ordinaryExecuting w).card ≤ w.checkedCapacity := by
  obtain ⟨w, hr, hw⟩ : ∃ w, BatchScheduler.scheduler.Reach Sample.env ∅ KeepsCapacity w ∧
      w.executingTx = {0, 1, 2} ∧ ordinaryExecuting w = {0} ∧ w.checkedCapacity = 1 :=
    Scheduler.exists_reach (w := Sample.narrow 1 ∅) (Sample.executed ⟨1000000, 999, 0⟩)
      initial_newWithJito (by decide +kernel)
  exact ⟨w, hr, hw, ordinary_backlog_bounded .batch hr⟩

end Known

-- Making room for a transaction that passed its first check.

-- The answer to a first check that admits its transaction.
def Passes (E : Env) : WorkerAction → Prop
  | .check rep resolvedKeys =>
    checkFailed rep = false ∧ saneFlags rep = true ∧ resolvesFiltered E resolvedKeys = false
  | _ => False

instance {E : Env} : DecidablePred (Passes E)
  | .check rep resolvedKeys => inferInstanceAs <| Decidable
    (checkFailed rep = false ∧ saneFlags rep = true ∧ resolvesFiltered E resolvedKeys = false)
  | .unprocessed | .execute _ => isFalse id

section Evict

variable {id : PriorityId} {r : Request} {a : WorkerAction}

-- `checked_tx` is the only container that `pending_len` counts and the eviction can take from.
theorem accept_eq_error_iff :
    S.accept w id = .error .evictChecked ↔
      w.checkedTx = ∅ ∧ w.checkedCapacity ≤ w.pendingLen := by
  unfold accept
  by_cases hp : w.checkedCapacity ≤ w.pendingLen
  case neg => simp [hp, bind, Except.bind, pure, Except.pure]
  case pos =>
    cases hf : w.checkedTx.first
    case none =>
      have hc := Finset.first_eq_none_iff.mp hf
      simp [hp, hc, bind, Except.bind, throw, throwThe, MonadExceptOf.throw]
    case some lowest =>
      have hc : w.checkedTx ≠ ∅ := Finset.ne_empty_of_mem <| Finset.first_mem hf
      simp [hp, hc, bind, Except.bind, pure, Except.pure]

theorem onCheck_eq_error_iff {rep : CheckResponse} {keys : Option (List Pubkey)} :
    S.onCheck E w id rep keys = .error .evictChecked ↔
      ¬(id.key ∈ w.executingTx ∨ id ∈ w.deferredTx) ∧ Passes E (.check rep keys) ∧
        w.checkedTx = ∅ ∧ w.checkedCapacity ≤ w.pendingLen := by
  by_cases hx : id.key ∈ w.executingTx ∨ id ∈ w.deferredTx
  case pos => simp [onCheck, hx]
  case neg =>
    rw [onCheck, if_neg hx]
    cases hf : checkFailed rep
    case true =>
      have hn : ¬Passes E (.check rep keys) := by simp [Passes, hf]
      by_cases hr : hasCheckReason rep = true <;>
        simp [hn, hr, require, bind, Except.bind, pure, Except.pure]
    case false =>
      by_cases hs : saneFlags rep = true
      case neg => simp [Passes, hs, require, bind, Except.bind]
      case pos =>
        by_cases hc : id ∈ w.checkedTx
        case pos =>
          have hn : w.checkedTx ≠ ∅ := Finset.ne_empty_of_mem hc
          simp [hc, hn, hs, require, bind, Except.bind, pure, Except.pure]
        case neg =>
          cases hr : resolvesFiltered E keys
          case true => simp [Passes, hc, hr, hs, require, bind, Except.bind, pure, Except.pure]
          case false =>
            have hp : Passes E (.check rep keys) := ⟨hf, hs, hr⟩
            have he : S.accept w id = .error .evictChecked ↔ _ := accept_eq_error_iff
            rw [← he]
            simp only [hs, hx, hp, hc, require, if_true, if_false, Bool.false_eq_true,
              not_false_eq_true, true_and]
            cases S.accept w id <;> simp [bind, Except.bind, pure, Except.pure]

-- The answers to execute requests never make room.
theorem ensures_execution (lf : LockFaults S.toLockPolicy) (hf : r.Fits a) (hk : r.kind = .execute) :
    (S.onResponse E w id a).Ensures (fun _ => True) (· ≠ .evictChecked) := by
  have hu : ∀ w : World L, (S.releaseLocks w id).Ensures (fun _ => True) (· ≠ .evictChecked) := by
    intro w
    rw [releaseLocks, ensures_bind]
    refine (lf.unlock ..).mono (fun _ _ => trivial) fun f hf he => ?_
    simp [he, Fault.IsLock] at hf
  have hc : ∀ w : World L, (releaseCus E w id).Ensures (fun _ => True) (· ≠ .evictChecked) := by
    intro w
    rw [releaseCus, ensures_bind]
    exact Machine.ensures_sub fun _ => by decide
  cases a
  case check => exact absurd hk hf
  case unprocessed =>
    rw [onResponse, onUnprocessed]
    split
    case isFalse => trivial
    case isTrue =>
      simp only [ensures_bind]
      refine (hu _).imp fun w₁ _ => (hc w₁).imp fun w₂ _ => ?_
      split <;> trivial
  case execute rep =>
    simp only [onResponse, onExecute, ensures_bind, ensures_require]
    refine ⟨fun _ => (hc _).imp fun w₁ _ => (hu w₁).imp fun w₂ _ => ?_, fun _ => by decide⟩
    split
    case isTrue => trivial
    case isFalse =>
      rw [ensures_bind, retry]
      split
      case isTrue =>
        simp only [ensures_bind, ensures_require]
        exact ⟨fun _ => trivial, fun _ => by decide⟩
      case isFalse =>
        simp only [World.insertCheckedNew, ensures_bind, ensures_require]
        exact ⟨fun _ => trivial, fun _ => by decide⟩

theorem drainWorkerResponse_eq_error_iff {f : Fault} (hl : r.key ∈ w.live) :
    S.drainWorkerResponse E w r a = .error f ↔
      S.onResponse E { w with toLedger := w.toLedger.answer r a } r.id a = .error f := by
  rw [drainWorkerResponse, if_pos hl, bind_eq_error]
  refine or_iff_left ?_
  rintro ⟨⟨w', d⟩, _, hd⟩
  cases d <;> cases hd

theorem has_room_iff : ¬(w.checkedTx = ∅ ∧ w.checkedCapacity ≤ w.pendingLen) ↔
    w.checkedTx.Nonempty ∨ w.executingTx.card + w.deferredTx.length < w.checkedCapacity := by
  by_cases he : w.checkedTx = ∅
  case neg => simp [he, Finset.nonempty_iff_ne_empty]
  case pos => simp [he, World.pendingLen]

section Custody

variable (c : w.Custody E 0) (hm : r ∈ w.inFlight)

include c hm

theorem not_underway_of_firstCheck (hk : r.kind = .firstCheck) :
    ¬(r.key ∈ w.executingTx ∨ r.id ∈ w.deferredTx) := by
  have hp := key_mem_firstCheck hm hk
  rintro (hx | hd)
  · cases c.owned.place_unique hp <| key_mem_executing hx
  · cases c.owned.place_unique hp <| key_mem_deferred hd

-- The transaction of a recheck is in `checked_tx` if the answer is not ignored.
theorem mem_checked_of_recheck (hk : r.kind = .recheck) (hl : r.key ∈ w.live)
    (hn : ¬(r.key ∈ w.executingTx ∨ r.id ∈ w.deferredTx)) : r.id ∈ w.checkedTx := by
  rcases c.rechecks r hm hk hl with hc | hd | hx
  · exact hc
  · exact absurd (.inr hd) hn
  · have hx := c.owned.executing_of_request (r := ⟨r.id, .execute⟩) hx rfl
    exact absurd (.inl hx) hn

end Custody

end Evict

-- Whatever is executing or deferred, making room for a transaction that passed its first check only
-- fails if these alone fill the capacity and `checked_tx` is empty.
theorem Known.check_evicts_iff {r : Request} {a : WorkerAction} (hS : S.Known locks)
    (hr : S.Reachable E locks w) (hm : r ∈ w.inFlight) (hf : r.Fits a) :
    S.drainWorkerResponse E w r a ≠ .error .evictChecked ↔
      (r.kind = .firstCheck → r.key ∈ w.live → Passes E a →
        w.checkedTx.Nonempty ∨ w.executingTx.card + w.deferredTx.length < w.checkedCapacity) := by
  have c := hS.custody hr
  by_cases hl : r.key ∈ w.live
  case neg => simp [drainWorkerResponse, hl]
  case pos =>
    rw [Ne, drainWorkerResponse_eq_error_iff hl]
    cases a
    case unprocessed | execute =>
      refine iff_of_true ?_ fun hk => by cases hk.symm.trans hf
      exact (ensures_execution hS.lockFaults hf hf).ne_error
    case check rep keys =>
      rw [onResponse, onCheck_eq_error_iff]
      cases hk : r.kind
      case execute => exact absurd hk hf
      case recheck =>
        refine iff_of_true ?_ fun hk => by cases hk
        rintro ⟨hn, _, he, _⟩
        exact Finset.ne_empty_of_mem (mem_checked_of_recheck c hm hk hl hn) he
      case firstCheck =>
        change ¬(¬(r.key ∈ w.executingTx ∨ r.id ∈ w.deferredTx) ∧ Passes E (.check rep keys) ∧
          w.checkedTx = ∅ ∧ w.checkedCapacity ≤ w.pendingLen) ↔ _
        rw [and_iff_right <| not_underway_of_firstCheck c hm hk, not_and, has_room_iff]
        exact ⟨fun hv _ _ => hv, fun hv => hv rfl hl⟩

-- What `pending_len` counts besides `checked_tx`.
def occupied (l : Ledger L) : Nat :=
  l.executingTx.card + l.deferredTx.length

-- The steps that start transactions do not let them alone fill the capacity, which stays as it is.
def LeavesRoom (S : Scheduler L) (E : Env) (w : World L) : Event → Prop
  | .checkSlotRoll message =>
    (S.checkSlotRoll E w message).Ensures
      (fun w' => occupied w'.toLedger < w'.checkedCapacity) (fun _ => True)
  | .scheduleExecute       =>
    (S.scheduleExecute E w).Ensures
      (fun w' => occupied w'.toLedger < w'.checkedCapacity) (fun _ => True)
  | e                      => KeepsCapacity w e

instance (w : World L) : DecidablePred (LeavesRoom S E w)
  | .checkSlotRoll message => inferInstanceAs <| Decidable <| (S.checkSlotRoll E w message).Ensures
    (fun w' => occupied w'.toLedger < w'.checkedCapacity) (fun _ => True)
  | .scheduleExecute       => inferInstanceAs <| Decidable <| (S.scheduleExecute E w).Ensures
    (fun w' => occupied w'.toLedger < w'.checkedCapacity) (fun _ => True)
  | .setRuntimeConfig update =>
    inferInstanceAs <| Decidable (KeepsCapacity w (.setRuntimeConfig update))
  | .clock _ | .workerReads _ | .workerResponse _ _ | .updateBasePrices _ | .processTick
  | .drainTpu _ _ | .dropExpiredBundles | .drainJito _ _ | .scheduleChecks _ | .restartRecheck =>
    isTrue trivial

section Occupied

variable {l l' : Ledger L} {P : LockPolicy L} {id : PriorityId} {r : Request} {a : WorkerAction}

theorem occupied_congr (h : l'.pending = l.pending) : occupied l' = occupied l := by
  have hx : l'.executingTx = l.executingTx := congrArg (·.executingTx) h
  have hd : l'.deferredTx = l.deferredTx := congrArg (·.deferredTx) h
  rw [occupied, occupied, hx, hd]

theorem occupied_removeChecked : occupied (w.removeChecked P id).toLedger = occupied w.toLedger := by
  unfold World.removeChecked
  split <;> rfl

theorem occupied_accept :
    (S.accept w id).Ensures (occupied ·.toLedger = occupied w.toLedger) (fun _ => True) := by
  unfold accept
  split
  case isFalse => rfl
  case isTrue =>
    split
    case h_1 => trivial
    case h_2 => exact occupied_removeChecked (w := w)

theorem occupied_onCheck {rep : CheckResponse} {keys : Option (List Pubkey)} :
    (S.onCheck E w id rep keys).Ensures
      (fun x => occupied x.1.toLedger = occupied w.toLedger) (fun _ => True) := by
  unfold onCheck
  split
  case isTrue => rfl
  case isFalse =>
    split
    case isTrue =>
      simp only [ensures_bind, ensures_require]
      exact ⟨fun _ => occupied_removeChecked (w := w.count _), fun _ => trivial⟩
    case isFalse =>
      simp only [ensures_bind, ensures_require]
      refine ⟨fun _ => ?_, fun _ => trivial⟩
      split
      case isTrue => rfl
      case isFalse =>
        split
        case isTrue => rfl
        case isFalse =>
          rw [ensures_bind]
          exact occupied_accept.imp fun _ h => h

theorem occupied_releaseCus :
    (releaseCus E w id).Ensures (occupied ·.toLedger = occupied w.toLedger) (fun _ => True) := by
  rw [releaseCus, ensures_bind]
  exact ensures_of_forall fun _ => rfl

theorem occupied_releaseLocks :
    (S.releaseLocks w id).Ensures (occupied ·.toLedger = occupied w.toLedger) (fun _ => True) := by
  rw [releaseLocks, ensures_bind]
  exact ensures_of_forall fun _ => rfl

theorem occupied_retry {rep : ExecutionResponse} :
    (S.retry w id rep).Ensures (occupied ·.toLedger ≤ occupied w.toLedger + 1) (fun _ => True) := by
  unfold Scheduler.retry
  split
  case isTrue =>
    simp only [ensures_bind, ensures_require, ensures_pure]
    refine ⟨fun _ => ?_, fun _ => trivial⟩
    change _ + (w.deferredTx ++ [id]).length ≤ _
    rw [List.length_append, List.length_singleton, occupied, Nat.add_assoc]
  case isFalse =>
    simp only [World.insertCheckedNew, ensures_bind, ensures_require]
    exact ⟨fun _ => Nat.le_succ (occupied w.toLedger), fun _ => trivial⟩

theorem occupied_trim : occupied (S.trim w).toLedger = occupied w.toLedger := by
  unfold trim
  split
  case isFalse => rfl
  case isTrue =>
    split
    case h_1 => rfl
    case h_2 => exact occupied_removeChecked (w := w)

-- An executing transaction whose execution is over makes room for at most one deferred one.
theorem occupied_onExecute {rep : ExecutionResponse} :
    (S.onExecute E w id rep).Ensures
      (fun x => occupied x.1.toLedger ≤ occupied w.toLedger) (fun _ => True) := by
  simp only [onExecute, ensures_bind, ensures_require]
  refine ⟨fun hx => ?_, fun _ => trivial⟩
  refine occupied_releaseCus.imp fun w₁ h₁ => occupied_releaseLocks.imp fun w₂ h₂ => ?_
  have ho : occupied w₂.toLedger + 1 = occupied w.toLedger := by
    have hc := Finset.card_erase_add_one hx
    rw [h₂, h₁, occupied, occupied]
    dsimp only
    omega
  split
  case isTrue => exact Nat.le_of_succ_le ho.le
  case isFalse =>
    rw [ensures_bind]
    refine occupied_retry.imp fun w₃ h₃ => ?_
    exact occupied_trim.le.trans <| h₃.trans ho.le

theorem occupied_onUnprocessed :
    (S.onUnprocessed E w id).Ensures
      (fun x => occupied x.1.toLedger ≤ occupied w.toLedger) (fun _ => True) := by
  unfold onUnprocessed
  split
  case isFalse => exact le_refl (occupied w.toLedger)
  case isTrue =>
    simp only [ensures_bind]
    refine occupied_releaseLocks.imp fun w₁ h₁ => occupied_releaseCus.imp fun w₂ h₂ => ?_
    have ho : occupied w₂.toLedger ≤ occupied w.toLedger := by
      rw [h₂, h₁]
      exact Nat.add_le_add_right (Finset.card_le_card <| Finset.erase_subset ..) _
    split <;> exact ho

theorem occupied_settled {key : TransactionKey} {x : World L × TxDecision} :
    occupied (settled key x) = occupied x.1.toLedger := by
  obtain ⟨w', d⟩ := x
  cases d <;> rfl

theorem occupied_drainWorkerResponse :
    (S.drainWorkerResponse E w r a).Ensures
      (occupied ·.toLedger ≤ occupied w.toLedger) (fun _ => True) := by
  by_cases hl : r.key ∈ w.live
  case neg =>
    rw [drainWorkerResponse, if_neg hl]
    exact le_refl (occupied w.toLedger)
  case pos =>
    refine ensures_drainWorkerResponse (Q := (occupied · ≤ occupied w.toLedger)) hl ?_
    simp only [occupied_settled]
    cases a
    case unprocessed => exact occupied_onUnprocessed
    case check       => exact occupied_onCheck.imp fun _ h => h.le
    case execute     => exact occupied_onExecute

end Occupied

theorem LeavesRoom.keepsCapacity (hc : LeavesRoom S E w e) : KeepsCapacity w e := by
  cases e
  case setRuntimeConfig => exact hc
  all_goals trivial

theorem occupied_lt_of_le {x : Except Fault (World L)}
    (hk : x.Ensures (·.checkedCapacity = w.checkedCapacity) (fun _ => True))
    (hx : x.Ensures (occupied ·.toLedger ≤ occupied w.toLedger) (fun _ => True))
    (ho : occupied w.toLedger < w.checkedCapacity) :
    x.Ensures (fun w' => occupied w'.toLedger < w'.checkedCapacity) (fun _ => True) := by
  cases x
  case ok    => exact Nat.lt_of_le_of_lt hx <| ho.trans_eq hk.symm
  case error => trivial

-- All other steps leave alone what is executing or deferred, or free some of it.
theorem Known.occupied_step (hS : S.Known locks) (hc : LeavesRoom S E w e)
    (ho : occupied w.toLedger < w.checkedCapacity) :
    (S.step E w e).Ensures (fun w' => occupied w'.toLedger < w'.checkedCapacity)
      (fun _ => True) := by
  have hk := hS.checkedCapacity_step (E := E) hc.keepsCapacity
  cases e
  case checkSlotRoll | scheduleExecute => exact hc
  all_goals refine occupied_lt_of_le hk ?_ ho
  case clock | workerReads | setRuntimeConfig | updateBasePrices | processTick | restartRecheck =>
    exact le_refl (occupied w.toLedger)
  case workerResponse => exact occupied_drainWorkerResponse
  case drainTpu => exact spares_drainTpu.imp fun _ h => (occupied_congr h.pending).le
  case dropExpiredBundles => exact (occupied_congr (spares_dropExpiredBundles (S := S)).pending).le
  case drainJito => exact heeds_drainJito.imp fun _ h => (occupied_congr h.pending).le
  case scheduleChecks =>
    exact (spares_scheduleChecks hS.lawful).imp fun _ h => (occupied_congr h.pending).le

theorem Known.occupied_lt (hS : S.Known locks) (hr : S.Reach E locks (LeavesRoom S E) w)
    (hp : 1 ≤ w.checkedCapacity) : occupied w.toLedger < w.checkedCapacity := by
  induction hr
  case init h =>
    rw [occupied, h.ledger]
    exact hp
  case step w w' e _ he hc hs hi =>
    have hk := (hS.checkedCapacity_step hc.keepsCapacity).of_ok hs
    exact (hS.occupied_step hc (hi (hk ▸ hp))).of_ok hs

-- In a run that starts transactions only as long as they leave room, `checked_tx` is never empty when
-- the capacity is reached, and making room for a transaction never fails.
theorem Known.check_eviction_safe (hS : S.Known locks) (hr : S.Reach E locks (LeavesRoom S E) w)
    (hp : 1 ≤ w.checkedCapacity) : (w.checkedCapacity ≤ w.pendingLen → w.checkedTx.Nonempty) ∧
      ∀ r ∈ w.inFlight, ∀ a, r.Fits a → S.drainWorkerResponse E w r a ≠ .error .evictChecked := by
  have ho := hS.occupied_lt hr hp
  constructor
  case left =>
    intro hl
    by_contra he
    rw [Finset.not_nonempty_iff_eq_empty] at he
    rw [World.pendingLen, he, Finset.card_empty, Nat.zero_add] at hl
    exact Nat.not_lt_of_le hl ho
  case right =>
    exact fun r hm a hf => (hS.check_evicts_iff hr.reachable hm hf).mpr fun _ _ _ => .inr ho

theorem Known.check_eviction_safe_admitted :
    ∃ w, BatchScheduler.scheduler.Reach Sample.env ∅
        (LeavesRoom BatchScheduler.scheduler Sample.env) w ∧
      ⟨⟨1000000, 999, 0⟩, .firstCheck⟩ ∈ w.inFlight ∧ w.executingTx = {1, 2} ∧
      w.checkedCapacity = 3 ∧
      BatchScheduler.scheduler.drainWorkerResponse Sample.env w ⟨⟨1000000, 999, 0⟩, .firstCheck⟩
        Sample.passed ≠ .error .evictChecked := by
  obtain ⟨w, hr, hm, hx, hc⟩ : ∃ w, BatchScheduler.scheduler.Reach Sample.env ∅
      (LeavesRoom BatchScheduler.scheduler Sample.env) w ∧
      ⟨⟨1000000, 999, 0⟩, .firstCheck⟩ ∈ w.inFlight ∧ w.executingTx = {1, 2} ∧
      w.checkedCapacity = 3 :=
    Scheduler.exists_reach (w := Sample.narrow 3 ∅) Sample.tipped initial_newWithJito
      (by decide +kernel)
  have hs := check_eviction_safe .batch hr (by rw [hc]; decide)
  exact ⟨w, hr, hm, hx, hc, hs.right _ hm _ (by decide)⟩

-- With a capacity of two, the two tip transactions leave no room for the first transaction to pass
-- its check.
theorem Known.check_eviction_panics :
    ∃ w, BatchScheduler.scheduler.Reach Sample.env ∅ KeepsCapacity w ∧ w.checkedCapacity = 2 ∧
      ⟨⟨1000000, 999, 0⟩, .firstCheck⟩ ∈ w.inFlight ∧ Passes Sample.env Sample.passed ∧
      w.checkedCapacity ≤ w.pendingLen ∧ w.checkedTx = ∅ ∧
      BatchScheduler.scheduler.drainWorkerResponse Sample.env w ⟨⟨1000000, 999, 0⟩, .firstCheck⟩
        Sample.passed = .error .evictChecked := by
  obtain ⟨w, hr, hc, hm, hp, he, hd⟩ : ∃ w,
      BatchScheduler.scheduler.Reach Sample.env ∅ KeepsCapacity w ∧ w.checkedCapacity = 2 ∧
      ⟨⟨1000000, 999, 0⟩, .firstCheck⟩ ∈ w.inFlight ∧ w.checkedCapacity ≤ w.pendingLen ∧
      w.checkedTx = ∅ ∧
      (BatchScheduler.scheduler.drainWorkerResponse Sample.env w ⟨⟨1000000, 999, 0⟩, .firstCheck⟩
        Sample.passed).Ensures (fun _ => False) (· = .evictChecked) :=
    Scheduler.exists_reach (w := Sample.narrow 2 ∅) Sample.tipped initial_newWithJito
      (by decide +kernel)
  exact ⟨w, hr, hc, hm, by decide, hp, he, hd.eq_error⟩

end Scheduler
