import SchedArchive.Custody.Dispatch

-- What the handlers leave alone: settings that only a few of them change, and the transactions that
-- count towards the capacity for checked ones.

open Except Ledger

structure Settings where
  uncheckedCapacity : Nat
  checkedCapacity   : Nat
  bundleCapacity    : Nat
  runtime           : RuntimeConfig
  tipConfig         : Option TipConfig
  slot              : Nat
  wasLeaderReady    : Bool
  progress          : ProgressMessage

structure Pending where
  checkedTx   : Finset PriorityId
  deferredTx  : List PriorityId
  executingTx : Finset TransactionKey
  executions  : Multiset Request

def World.settings {L : Type} (w : World L) : Settings where
  uncheckedCapacity := w.uncheckedCapacity
  checkedCapacity   := w.checkedCapacity
  bundleCapacity    := w.bundleCapacity
  runtime           := w.runtime
  tipConfig         := w.tipConfig
  slot              := w.slot
  wasLeaderReady    := w.slotStats.wasLeaderReady
  progress          := w.progress

def Ledger.pending {L : Type} (l : Ledger L) : Pending where
  checkedTx   := l.checkedTx
  deferredTx  := l.deferredTx
  executingTx := l.executingTx
  executions  := l.executions

namespace Scheduler

variable {L : Type} {S : Scheduler L} {E : Env} {w w₁ w₂ : World L} {P : LockPolicy L}
variable {keys : List TransactionKey}

structure Spares (w w' : World L) : Prop where
  settings : w'.settings = w.settings
  pending  : w'.pending = w.pending

namespace Spares

theorem refl : Spares w w :=
  ⟨rfl, rfl⟩

theorem trans (h₁ : Spares w w₁) (h₂ : Spares w₁ w₂) : Spares w w₂ :=
  ⟨h₂.settings.trans h₁.settings, h₂.pending.trans h₁.pending⟩

theorem after (h : Spares w₁ w₂) (hs : w₁.settings = w.settings) (hp : w₁.pending = w.pending) :
    Spares w w₂ :=
  ⟨h.settings.trans hs, h.pending.trans hp⟩

theorem foldl {α : Type} {f : World L → α → World L} {as : List α} (hf : ∀ w a, Spares w (f w a)) :
    Spares w (as.foldl f w) := by
  induction as generalizing w
  case nil          => exact refl
  case cons a as ih => exact (hf w a).trans ih

end Spares

theorem spares_dropAll : Spares w (w.dropAll keys) :=
  .foldl fun _ _ => ⟨rfl, rfl⟩

theorem spares_dropBundle {b : BundleId} : Spares w (w.dropBundle P b) := by
  have he : Spares { w with bundles := w.bundles.erase b } (w.dropBundle P b) :=
    .foldl fun _ _ => ⟨rfl, rfl⟩
  exact he.after rfl rfl

theorem spares_queueKeys : Spares w (S.queueKeys w keys) :=
  .foldl fun _ _ => ⟨rfl, rfl⟩

theorem spares_dropExpiredBundles : Spares w (S.dropExpiredBundles w) :=
  .foldl fun _ _ => spares_dropBundle

-- What comes in goes to `unchecked_tx` or `bundles`.

theorem spares_evictUnchecked {n : Nat} :
    (evictUnchecked n w).Ensures (Spares w) (fun _ => True) := by
  induction n generalizing w
  case zero => exact .refl
  case succ n ih =>
    rw [evictUnchecked]
    split
    case h_1 => trivial
    case h_2 => exact ih.imp fun w' hw => hw.after rfl rfl

theorem spares_onTpu {packet : Packet} : (S.onTpu E w packet).Ensures (Spares w) (fun _ => True) := by
  cases packet
  case none => exact .refl
  case some tx =>
    rw [onTpu, ensures_bind]
    refine ensures_of_forall fun x => ?_
    split
    case h_1 => exact ⟨rfl, rfl⟩
    case h_2 => split <;> exact ⟨rfl, rfl⟩

theorem spares_drainTpu {backlog : List Packet} {maxCount : Nat} :
    (S.drainTpu E w backlog maxCount).Ensures (Spares w) (fun _ => True) := by
  rw [drainTpu, ensures_bind]
  refine spares_evictUnchecked.imp fun w₁ h₁ => ?_
  refine ensures_foldlM (fun w₂ packet _ h₂ => ?_) <| h₁.trans ⟨rfl, rfl⟩
  exact spares_onTpu.imp fun w₃ h₃ => h₂.trans h₃

theorem spares_makeRoom : (makeRoom w).Ensures (Spares w) (fun _ => True) := by
  unfold makeRoom
  split
  case isTrue  => exact spares_evictUnchecked
  case isFalse => exact .refl

theorem spares_onPacket {packet : Packet} :
    (S.onPacket E w packet).Ensures (Spares w) (fun _ => True) := by
  cases packet
  case none => exact .refl
  case some tx =>
    rw [onPacket, ensures_bind]
    refine ensures_of_forall fun x => ?_
    split
    case h_1 => exact ⟨rfl, rfl⟩
    case h_2 =>
      split
      case isTrue => exact ⟨rfl, rfl⟩
      case isFalse =>
        rw [ensures_bind]
        refine spares_makeRoom.imp fun w₁ h₁ => ?_
        have hs : Spares w w₁ := h₁.after rfl rfl
        exact hs.trans ⟨rfl, rfl⟩

theorem spares_gather {g : Gathered} {packets : List Packet} :
    (S.gather E w g packets).Ensures (fun x => Spares w x.1) (fun _ => True) := by
  induction packets generalizing w g
  case nil => exact .refl
  case cons packet packets ih =>
    cases packet
    case none => exact spares_dropAll
    case some tx =>
      rw [gather, ensures_bind]
      refine ensures_of_forall fun x => ?_
      split
      case h_1 => exact spares_dropAll.after rfl rfl
      case h_2 =>
        simp only [ensures_bind]
        refine ensures_of_forall fun cost => ensures_of_forall fun value => ?_
        exact ih.imp fun x hx => hx.after rfl rfl

theorem spares_evictBundle : (S.evictBundle w).Ensures (Spares w) (fun _ => True) := by
  unfold evictBundle
  split
  case isFalse => exact .refl
  case isTrue =>
    split
    case h_1 => trivial
    case h_2 => exact spares_dropBundle

theorem spares_onBundle {bundle : List Packet} :
    (S.onBundle E w bundle).Ensures (Spares w) (fun _ => True) := by
  rw [onBundle, ensures_bind]
  refine spares_gather.imp fun x hx => ?_
  obtain ⟨w₁, g⟩ := x
  cases g
  case none => exact hx
  case some g =>
    dsimp only
    split
    case isTrue => exact hx.trans spares_dropAll
    case isFalse =>
      simp only [storeBundle, ensures_bind, ensures_require, ensures_pure]
      refine ⟨fun _ => spares_evictBundle.imp fun w₂ h₂ => ?_, fun _ => trivial⟩
      exact .trans (hx.trans h₂) <| spares_queueKeys.trans ⟨rfl, rfl⟩

-- The tip configuration after a number of messages.
def latestTip (config : Option TipConfig) (messages : List JitoUpdate) : Option TipConfig :=
  messages.foldl (fun config m => match m with | .tipConfig c => some c | _ => config) config

-- The messages of the block engine can also bring a new tip configuration.
structure Heeds (messages : List JitoUpdate) (w w' : World L) : Prop where
  settings : w'.settings = { w.settings with tipConfig := latestTip w.tipConfig messages }
  pending  : w'.pending = w.pending

theorem Spares.heeds {m : JitoUpdate} (h : Spares w w₁)
    (hm : latestTip w.tipConfig [m] = w.tipConfig) : Heeds [m] w w₁ :=
  ⟨by rw [h.settings, hm]; rfl, h.pending⟩

theorem Heeds.cons {m : JitoUpdate} {ms : List JitoUpdate} (h₁ : Heeds [m] w w₁)
    (h₂ : Heeds ms w₁ w₂) : Heeds (m :: ms) w w₂ := by
  have ht : w₁.tipConfig = latestTip w.tipConfig [m] := congrArg (·.tipConfig) h₁.settings
  refine ⟨?_, h₂.pending.trans h₁.pending⟩
  rw [h₂.settings, h₁.settings, ht]
  rfl

theorem heeds_onJitoUpdate {m : JitoUpdate} :
    (S.onJitoUpdate E w m).Ensures (Heeds [m] w) (fun _ => True) := by
  cases m
  case builderConfig | tipConfig | recentBlockhash => exact ⟨rfl, rfl⟩
  case packet => exact spares_onPacket.imp fun _ h => h.heeds rfl
  case bundle => exact spares_onBundle.imp fun _ h => h.heeds rfl

theorem heeds_drainJitoLoop (cancelled connected : Bool) (n : Nat) {ms : List JitoUpdate} :
    ∀ x ∈ S.drainJitoLoop E cancelled connected n ms w, x.Ensures (Heeds ms w) (fun _ => True) := by
  induction n generalizing ms w
  case zero => simp [drainJitoLoop]
  case succ n ih =>
    intro x hx
    cases ms
    case nil =>
      rw [drainJitoLoop] at hx
      split_ifs at hx
      · cases hx
        exact ⟨rfl, rfl⟩
      · exact ih x hx
      · cases hx
        trivial
    case cons m ms =>
      rw [drainJitoLoop] at hx
      split at hx
      case h_1 w₁ hw => exact (ih x hx).imp fun w₂ h₂ => (heeds_onJitoUpdate.of_ok hw).cons h₂
      case h_2 =>
        cases hx
        trivial

theorem heeds_drainJito {channel : JitoChannel} {cancelled : Bool} :
    (S.drainJito E w channel cancelled).Ensures (Heeds channel.messages w) (fun _ => True) := by
  rw [drainJito]
  cases hd : S.drainJitoLoop E cancelled channel.connected (channel.messages.length + 1)
    channel.messages w
  case none   => trivial
  case some x => exact heeds_drainJitoLoop cancelled channel.connected _ x hd

-- A batch of checks is taken from `unchecked_tx` and `checked_tx`, which keeps its transactions.

theorem settings_popNext : (S.popNext w).Ensures (·.2.settings = w.settings) (fun _ => True) := by
  unfold popNext
  split
  case h_1 => rfl
  case h_2 =>
    split
    case h_1 => trivial
    case h_2 => rfl

theorem settings_takeNext {n : Nat} :
    (S.takeNext n w).Ensures (·.2.settings = w.settings) (fun _ => True) := by
  induction n generalizing w
  case zero => rfl
  case succ n ih =>
    rw [takeNext, ensures_bind]
    refine settings_popNext.imp fun x hx => ?_
    obtain ⟨_ | r, w₁⟩ := x
    case none => exact hx
    case some =>
      simp only [ensures_bind]
      exact ih.imp fun x hx' => hx'.trans hx

theorem settings_schedule {batch : ScheduleBatch} :
    (w.schedule E batch).Ensures (·.settings = w.settings) (fun _ => True) := by
  simp only [World.schedule, ensures_bind, ensures_require]
  exact ⟨fun _ => rfl, fun _ => trivial⟩

-- What an attempt to fill a worker leaves alone: the settings and the queues of the others.
structure Visits (worker : Nat) (w w' : World L) : Prop where
  settings : w'.settings = w.settings
  queued   : ∀ v ≠ worker, w'.queued v = w.queued v

theorem Visits.refl {worker : Nat} : Visits worker w w :=
  ⟨rfl, fun _ _ => rfl⟩

theorem Visits.trans {worker : Nat} (h₁ : Visits worker w w₁) (h₂ : Visits worker w₁ w₂) :
    Visits worker w w₂ :=
  ⟨h₂.settings.trans h₁.settings, fun v hv => (h₂.queued v hv).trans <| h₁.queued v hv⟩

theorem visits_schedule {batch : ScheduleBatch} :
    (w.schedule E batch).Ensures (Visits batch.worker w) (fun _ => True) := by
  simp only [World.schedule, ensures_bind, ensures_require]
  exact ⟨fun _ => ⟨rfl, fun v hv => Function.update_of_ne hv ..⟩, fun _ => trivial⟩

theorem spares_scheduleChecks (law : S.Lawful) {reads : Nat → Nat} :
    (S.scheduleChecks E reads w).Ensures (Spares w) (fun _ => True) := by
  rw [scheduleChecks, ensures_bind]
  refine (ensures_scheduleChecksLoop (J := Spares w) trivial (fun w₁ k h₁ => h₁.trans ⟨rfl, rfl⟩) ?_
    .refl).imp fun w₁ h₁ => h₁.trans ⟨rfl, rfl⟩
  intro w₁ h₁
  cases ht : S.takeNext maxCheckBatch w₁
  case error => trivial
  case ok x =>
    obtain ⟨rs, w₂⟩ := x
    have hs : w₂.settings = w₁.settings := settings_takeNext.of_ok ht
    have hl : Taken w₁ rs w₂ := law.takeNext.of_ok ht
    have h₂ : Spares w w₂ := h₁.trans ⟨hs, by rw [hl.ledger]; rfl⟩
    refine ⟨fun _ => h₂, fun _ => ?_⟩
    cases hw : w₂.schedule E (checkBatch rs)
    case error => trivial
    case ok w₃ =>
      have hp : w₃.pending = w₂.pending := by
        rw [World.ensures_schedule.of_ok hw]
        unfold pending
        rw [Owned.executions_send_check hl.kinds]
        rfl
      exact h₂.trans ⟨settings_schedule.of_ok hw, hp⟩

-- The handlers below move pending transactions around, but leave the settings alone.

section Settings

variable {id : PriorityId} {a : WorkerAction} {r : Request}

theorem settings_removeChecked : (w.removeChecked P id).settings = w.settings := by
  unfold World.removeChecked
  split <;> rfl

theorem queued_removeChecked : (w.removeChecked P id).queued = w.queued := by
  unfold World.removeChecked
  split <;> rfl

theorem settings_evictChecked : (w.evictChecked P id).settings = w.settings :=
  settings_removeChecked

theorem settings_accept : (S.accept w id).Ensures (·.settings = w.settings) (fun _ => True) := by
  unfold accept
  split
  case isFalse => rfl
  case isTrue =>
    split
    case h_1 => trivial
    case h_2 => exact settings_evictChecked

theorem settings_onCheck {rep : CheckResponse} {keys : Option (List Pubkey)} :
    (S.onCheck E w id rep keys).Ensures (·.1.settings = w.settings) (fun _ => True) := by
  unfold onCheck
  split
  case isTrue => rfl
  case isFalse =>
    split
    case isTrue =>
      simp only [ensures_bind, ensures_require]
      exact ⟨fun _ => settings_removeChecked, fun _ => trivial⟩
    case isFalse =>
      simp only [ensures_bind, ensures_require]
      refine ⟨fun _ => ?_, fun _ => trivial⟩
      split
      case isTrue => rfl
      case isFalse =>
        split
        case isTrue => rfl
        case isFalse =>
          rw [ensures_bind]
          exact settings_accept.imp fun _ h => h

theorem settings_releaseCus :
    (releaseCus E w id).Ensures (·.settings = w.settings) (fun _ => True) := by
  rw [releaseCus, ensures_bind]
  exact ensures_of_forall fun _ => rfl

theorem settings_releaseLocks :
    (S.releaseLocks w id).Ensures (·.settings = w.settings) (fun _ => True) := by
  rw [releaseLocks, ensures_bind]
  exact ensures_of_forall fun _ => rfl

theorem settings_insertCheckedNew :
    (w.insertCheckedNew S id).Ensures (·.settings = w.settings) (fun _ => True) := by
  simp only [World.insertCheckedNew, ensures_bind, ensures_require]
  exact ⟨fun _ => rfl, fun _ => trivial⟩

theorem settings_retry {rep : ExecutionResponse} :
    (S.retry w id rep).Ensures (·.settings = w.settings) (fun _ => True) := by
  unfold Scheduler.retry
  split
  case isTrue =>
    simp only [ensures_bind, ensures_require]
    exact ⟨fun _ => rfl, fun _ => trivial⟩
  case isFalse => exact settings_insertCheckedNew

theorem settings_trim : (S.trim w).settings = w.settings := by
  unfold trim
  split
  case isFalse => rfl
  case isTrue =>
    split
    case h_1 => rfl
    case h_2 => exact settings_evictChecked

theorem settings_countExecution {reason : NotIncludedReason} :
    (countExecution w reason).settings = w.settings := by
  unfold countExecution World.count World.settings
  dsimp only
  split <;> rfl

theorem settings_onExecute {rep : ExecutionResponse} :
    (S.onExecute E w id rep).Ensures (·.1.settings = w.settings) (fun _ => True) := by
  simp only [onExecute, ensures_bind, ensures_require]
  refine ⟨fun _ => settings_releaseCus.imp fun w₁ h₁ => ?_, fun _ => trivial⟩
  refine settings_releaseLocks.imp fun w₂ h₂ => ?_
  have h₂ : w₂.settings = w.settings := h₂.trans h₁
  split
  case isTrue => exact settings_countExecution.trans h₂
  case isFalse =>
    rw [ensures_bind]
    refine settings_retry.imp fun w₃ h₃ => ?_
    exact settings_trim.trans <| h₃.trans <| settings_countExecution.trans h₂

theorem settings_onUnprocessed :
    (S.onUnprocessed E w id).Ensures (·.1.settings = w.settings) (fun _ => True) := by
  unfold onUnprocessed
  split
  case isFalse => rfl
  case isTrue =>
    simp only [ensures_bind]
    refine settings_releaseLocks.imp fun w₁ h₁ => settings_releaseCus.imp fun w₂ h₂ => ?_
    have h₂ : w₂.settings = w.settings := h₂.trans h₁
    split <;> exact h₂

theorem settings_drainWorkerResponse :
    (S.drainWorkerResponse E w r a).Ensures (·.settings = w.settings) (fun _ => True) := by
  have hr : (S.onResponse E { w with toLedger := w.toLedger.answer r a } r.id a).Ensures
      (·.1.settings = w.settings) (fun _ => True) := by
    cases a
    case unprocessed => exact settings_onUnprocessed
    case check       => exact settings_onCheck
    case execute     => exact settings_onExecute
  unfold drainWorkerResponse
  split
  case isFalse => rfl
  case isTrue =>
    rw [ensures_bind]
    refine hr.imp fun x hx => ?_
    obtain ⟨w₁, d⟩ := x
    cases d <;> exact hx

theorem settings_foldlM_markExecuting {ids : List PriorityId} :
    (ids.foldlM markExecuting w).Ensures (·.settings = w.settings) (fun _ => True) := by
  refine ensures_foldlM_markExecuting.imp fun w' hw => ?_
  obtain ⟨executing, rfl⟩ := hw
  rfl

theorem settings_scheduleWorkers {workers : List Nat} {budget : Nat}
    (ht : ∀ worker budget w, (S.tryBest E worker budget w).Ensures (·.1.settings = w.settings)
      (fun _ => True)) :
    (S.scheduleWorkers E workers budget w).Ensures (·.settings = w.settings) (fun _ => True) := by
  induction workers generalizing budget w
  case nil => rfl
  case cons worker workers ih =>
    rw [scheduleWorkers]
    split_ifs
    case pos => rfl
    case pos => exact ih
    case neg =>
      rw [ensures_bind]
      refine (ht worker budget w).imp fun x hx => ?_
      obtain ⟨w₁, budget₁, batch⟩ := x
      dsimp only at hx ⊢
      split
      case isTrue => exact hx
      case isFalse =>
        rw [ensures_bind]
        refine settings_foldlM_markExecuting.imp fun w₂ h₂ => ?_
        exact ih.imp fun w₃ h₃ => h₃.trans <| h₂.trans hx

theorem settings_scheduleExecute (ht : ∀ worker budget w,
    (S.tryBest E worker budget w).Ensures (·.1.settings = w.settings) (fun _ => True)) :
    (S.scheduleExecute E w).Ensures (·.settings = w.settings) (fun _ => True) := by
  rw [scheduleExecute, ensures_bind]
  exact ensures_of_forall fun _ => settings_scheduleWorkers ht

theorem settings_drainDeferred {ids : List PriorityId} :
    (S.drainDeferred ids w).Ensures (·.settings = w.settings) (fun _ => True) :=
  ensures_drainDeferred (J := fun _ w₁ => w₁.settings = w.settings)
    (fun h₁ => settings_insertCheckedNew.imp fun _ h₂ => h₂.trans h₁) rfl

theorem settings_becomeTipReceiver :
    (S.becomeTipReceiver E w).Ensures (·.settings = w.settings) (fun _ => True) := by
  unfold becomeTipReceiver
  split
  case h_1 => trivial
  case h_2 =>
    dsimp only
    split
    case isFalse => rfl
    case isTrue =>
      simp only [startTips, ensures_bind, ensures_require]
      refine ensures_of_forall fun _ => ensures_of_forall fun _ => ⟨fun _ => ⟨fun _ => ?_, ?_⟩, ?_⟩
      case refine_1 =>
        exact settings_schedule.imp fun w₁ h₁ => settings_schedule.imp fun w₂ h₂ => h₂.trans h₁
      case refine_2 => exact fun _ => trivial
      case refine_3 => exact fun _ => trivial

-- What a call of `check_slot_roll` reads as the progress.
def observed (w : World L) (message : Option ProgressMessage) : ProgressMessage :=
  message.getD w.progress

theorem settings_rolled {message : Option ProgressMessage} :
    (S.rolled E w message).Ensures (fun w' => w'.settings = { w.settings with
      progress       := observed w message
      slot           := (observed w message).currentSlot
      wasLeaderReady := decide ((observed w message).currentSlot = w.slot) &&
                          w.slotStats.wasLeaderReady }) (fun _ => True) := by
  have ho : (observeProgress w message).Ensures
      (fun w' => w'.settings = { w.settings with progress := observed w message })
      (fun _ => True) := by
    cases message
    case none =>
      simp only [observeProgress, ensures_bind, ensures_require]
      exact ⟨fun _ => rfl, fun _ => trivial⟩
    case some => rfl
  rw [rolled, ensures_bind]
  refine ho.imp fun w₁ h₁ => ?_
  have hp : w₁.progress = observed w message := congrArg (·.progress) h₁
  have hw : w₁.slot = w.slot := congrArg (·.slot) h₁
  split
  case isTrue hn =>
    simp only [rollSlot, ensures_bind]
    refine settings_drainDeferred.imp fun w₂ h₂ => ?_
    rw [hp, hw] at hn
    rw [decide_eq_false hn]
    refine h₂.trans ?_
    have h₁ := congrArg (fun s : Settings => { s with
      slot := (observed w message).currentSlot, wasLeaderReady := false }) h₁
    rw [← hp] at h₁ ⊢
    exact h₁
  case isFalse hn =>
    rw [hp, hw, not_not] at hn
    rw [decide_eq_true hn, Bool.true_and, hn]
    exact h₁

-- The leader takes over as tip receiver if it is ready and was not before, in this slot or, at the
-- first call in a slot, in the one before it.
def Activates (w : World L) (message : Option ProgressMessage) : Prop :=
  (observed w message).leaderReady ∧ ¬w.slotStats.wasLeaderReady

instance {message : Option ProgressMessage} : Decidable (Activates w message) :=
  inferInstanceAs <| Decidable (_ ∧ _)

theorem settings_checkSlotRoll {message : Option ProgressMessage} :
    (S.checkSlotRoll E w message).Ensures (fun w' => w'.settings = { w.settings with
      progress       := observed w message
      slot           := (observed w message).currentSlot
      wasLeaderReady := decide (Activates w message) ||
                          (decide ((observed w message).currentSlot = w.slot) &&
                            w.slotStats.wasLeaderReady) }) (fun _ => True) := by
  rw [checkSlotRoll, ensures_bind]
  refine settings_rolled.imp fun w₁ h₁ => ?_
  have hp : w₁.progress = observed w message := congrArg (·.progress) h₁
  rw [hp]
  split
  case isTrue ha =>
    have ha : Activates w message := ha
    rw [decide_eq_true ha, Bool.true_or]
    refine settings_becomeTipReceiver.imp fun w₂ h₂ => h₂.trans ?_
    exact congrArg (fun s : Settings => { s with wasLeaderReady := true }) h₁
  case isFalse ha =>
    have ha : ¬Activates w message := ha
    rw [decide_eq_false ha, Bool.false_or]
    exact h₁

end Settings

end Scheduler
