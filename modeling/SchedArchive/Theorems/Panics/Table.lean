import SchedArchive.Theorems.Capacity
import SchedArchive.Theorems.Custody
import SchedArchive.Theorems.Tariff
import SchedArchive.Theorems.Termination
import SchedArchive.Theorems.TipConfig

-- Everything that can make a scheduler panic or keep it from returning.

open Except Ledger

-- The panics that a reachable scheduler never runs into.
def Fault.IsInternal (f : Fault) : Prop :=
  f.IsCustody ∨ f.IsLock

namespace Scheduler

variable {L : Type} {S : Scheduler L} {E : Env} {locks : L} {w w' : World L} {e : Event} {f : Fault}
variable {t : Tariff L}

-- The Agave side has not been silent for too long.
def Heard (w : World L) (message : Option ProgressMessage) : Prop :=
  message = none → w.now - w.lastProgressTime < w.runtime.progressTimeout

-- What makes the scheduler panic over one message from the Jito thread. Sums and differences only
-- count in a build with overflow checks.
inductive MessagePanics (t : Tariff L) (E : Env) (w : World L) : JitoUpdate → Fault → Prop
  | packetOverflow {tx} :
    E.overflowChecks = true → t.packetOverflows E w tx →
    MessagePanics t E w (.packet (some tx)) .overflow
  | noRoom {tx} :
    ¬(E.overflowChecks = true ∧ t.packetOverflows E w tx) → ¬t.unpriced E tx →
    tx.shouldFilterStatic E.filterKeys = false → w.uncheckedTx = 0 → w.uncheckedCapacity = 0 →
    MessagePanics t E w (.packet (some tx)) .evictUnchecked
  | bundleOverflow {bundle} :
    E.overflowChecks = true → t.BundleOverflows E w 0 0 bundle →
    MessagePanics t E w (.bundle bundle) .overflow
  | emptyBundle :
    MessagePanics t E w (.bundle []) .emptyBundle
  | noBundles {bundle} :
    bundle ≠ [] → ¬(E.overflowChecks = true ∧ t.BundleOverflows E w 0 0 bundle) →
    (∀ p ∈ bundle, ¬t.Spoils E w p) → w.bundles = ∅ → w.bundleCapacity = 0 →
    MessagePanics t E w (.bundle bundle) .evictBundle

-- What makes the scheduler panic, or run in a loop for good, in one step.
inductive Panics (S : Scheduler L) (t : Tariff L) (E : Env) (w : World L) : Event → Fault → Prop
  | agaveDisconnected {message} :
    ¬Heard w message → Panics S t E w (.checkSlotRoll message) .agaveDisconnected
  | tipConfig {message} :
    Heard w message → Activates w message → w.tipConfig = none →
    Panics S t E w (.checkSlotRoll message) .tipConfig
  -- Both tip transactions go to the same worker.
  | tipQueue {message} :
    S.ActivatesTips E w message → E.queueCapacity ≤ w.queued executeWorkerStart + 1 →
    Panics S t E w (.checkSlotRoll message) .queueFull
  | checkReason {r rep keys} :
    r.key ∈ w.live → ¬(r.key ∈ w.executingTx ∨ r.id ∈ w.deferredTx) → checkFailed rep = true →
    hasCheckReason rep = false → Panics S t E w (.workerResponse r (.check rep keys)) .checkReason
  | checkFlags {r rep keys} :
    r.key ∈ w.live → ¬(r.key ∈ w.executingTx ∨ r.id ∈ w.deferredTx) → checkFailed rep = false →
    saneFlags rep = false → Panics S t E w (.workerResponse r (.check rep keys)) .checkFlags
  | evictChecked {r rep keys} :
    r.key ∈ w.live → ¬(r.key ∈ w.executingTx ∨ r.id ∈ w.deferredTx) → Passes E (.check rep keys) →
    w.checkedTx = ∅ → w.checkedCapacity ≤ w.pendingLen →
    Panics S t E w (.workerResponse r (.check rep keys)) .evictChecked
  | evictUnchecked {backlog maxCount} :
    w.uncheckedCapacity < min backlog.length maxCount →
    Panics S t E w (.drainTpu backlog maxCount) .evictUnchecked
  | tpuOverflow {backlog maxCount tx} :
    min backlog.length maxCount ≤ w.uncheckedCapacity → some tx ∈ backlog.take maxCount →
    E.overflowChecks = true → t.packetOverflows E w tx →
    Panics S t E w (.drainTpu backlog maxCount) .overflow
  | message {channel cancelled before m after w' f} :
    channel.messages = before ++ m :: after → before.foldlM (S.onJitoUpdate E) w = .ok w' →
    MessagePanics t E w' m f → Panics S t E w (.drainJito channel cancelled) f
  | jitoDisconnected {channel w'} :
    channel.connected = false → channel.messages.foldlM (S.onJitoUpdate E) w = .ok w' →
    Panics S t E w (.drainJito channel false) .jitoDisconnected
  | drainsForever {channel w'} :
    channel.connected = false → channel.messages.foldlM (S.onJitoUpdate E) w = .ok w' →
    Panics S t E w (.drainJito channel true) .hang
  -- No number of iterations gets the cursor to a transaction that can be rechecked.
  | recheckForever {reads k} :
    (∀ n, S.popRecheck w.checkedTx w.executingTx n w.nextRecheck = none) → HasRoom E reads w k →
    w.uncheckedTx.card < maxCheckBatch * (k + 1) → Panics S t E w (.scheduleChecks reads) .hang
  | budgetOverflow :
    E.overflowChecks → 256 ≤ w.progress.currentSlotProgress.toNat + w.runtime.blockFillCutoff.toNat →
    Panics S t E w .scheduleExecute .overflow

section Roll

variable {message : Option ProgressMessage}

theorem faults_drainDeferred {ids : List PriorityId} :
    (S.drainDeferred ids w).Ensures (·.queued = w.queued) (·.IsInternal) := by
  refine ensures_drainDeferred (J := fun _ w' => w'.queued = w.queued) (fun hw => ?_) rfl
  simp only [World.insertCheckedNew, ensures_bind, ensures_require, ensures_pure]
  exact ⟨fun _ => hw, fun _ => .inl <| by decide⟩

theorem faults_rolled : (S.rolled E w message).Ensures
    (fun w' => Heard w message ∧ w'.queued = w.queued)
    (fun f => f.IsInternal ∨ ¬Heard w message ∧ f = .agaveDisconnected) := by
  have ho : (observeProgress w message).Ensures (fun w' => Heard w message ∧ w'.queued = w.queued)
      (fun f => ¬Heard w message ∧ f = .agaveDisconnected) := by
    cases message
    case some => exact ⟨fun h => (by cases h), rfl⟩
    case none =>
      simp only [observeProgress, ensures_bind, ensures_require, ensures_pure]
      exact ⟨fun ht => ⟨fun _ => ht, trivial⟩, fun hn => ⟨fun hh => hn <| hh rfl, trivial⟩⟩
  rw [rolled, ensures_bind]
  refine ho.mono (fun w₁ hw => ?_) fun _ => .inr
  obtain ⟨hh, hq⟩ := hw
  split
  case isFalse => exact ⟨hh, hq⟩
  case isTrue =>
    simp only [rollSlot, ensures_bind]
    exact faults_drainDeferred.mono (fun w₂ h₂ => ⟨hh, h₂.trans hq⟩) fun _ => .inl

theorem faults_schedule {batch : ScheduleBatch} : (w.schedule E batch).Ensures
    (fun w' => w.queued batch.worker < E.queueCapacity ∧
      w'.queued batch.worker = w.queued batch.worker + 1)
    (fun f => E.queueCapacity ≤ w.queued batch.worker ∧ f = .queueFull) := by
  simp only [World.schedule, ensures_bind, ensures_require, ensures_pure]
  exact ⟨fun hq => ⟨hq, Function.update_self ..⟩, fun hn => ⟨Nat.le_of_not_lt hn, trivial⟩⟩

theorem faults_startTips (lf : LockFaults S.toLockPolicy) {init change : TransactionKey} :
    (S.startTips E w init change).Ensures
      (fun _ => w.queued executeWorkerStart + 1 < E.queueCapacity)
      (fun f => f.IsInternal ∨
        E.queueCapacity ≤ w.queued executeWorkerStart + 1 ∧ f = .queueFull) := by
  simp only [startTips, ensures_bind, ensures_require]
  refine (lf.lock ..).mono (fun locks₁ _ => ?_) fun _ hf => .inl <| .inr hf
  refine (lf.lock ..).mono (fun locks₂ _ => ?_) fun _ hf => .inl <| .inr hf
  have hi : Fault.executingInsert.IsInternal := .inl <| by decide
  refine ⟨fun _ => ⟨fun _ => ?_, fun _ => .inl hi⟩, fun _ => .inl hi⟩
  refine faults_schedule.mono (fun w₁ h₁ => ?_) fun f hf => ?_
  case refine_2 => exact .inr ⟨Nat.le_succ_of_le hf.left, hf.right⟩
  have h₁ : w₁.queued executeWorkerStart = w.queued executeWorkerStart + 1 := h₁.right
  rw [← h₁]
  exact faults_schedule.mono (fun w₂ h₂ => h₂.left) fun f hf => .inr hf

-- The locks that are looked at are those of the two transactions just made up.
theorem becomeTipReceiver_eq {config : TipConfig} (hc : w.tipConfig = some config) :
    ∃ w' init change, w'.queued = w.queued ∧ S.becomeTipReceiver E w =
      if S.tipsLockable w.locks (initTx E w).locks (changeTx E w config).locks then
        S.startTips E w' init change
      else
        .ok <| (w'.dropTransaction init).dropTransaction change := by
  obtain ⟨w₁, hw₁⟩ : ∃ w₁, w₁ = w.insertTransaction E (initTx E w) := ⟨_, rfl⟩
  obtain ⟨w₂, hw₂⟩ : ∃ w₂, w₂ = w₁.insertTransaction E (changeTx E w config) := ⟨_, rfl⟩
  have hk : w.nextKey E ≠ w₁.nextKey E := by
    rw [hw₁]
    exact fun he => Nat.succ_ne_self _ (E.keyAt_injective he).symm
  have hl₁ : w₂.locksOf (w.nextKey E) = (initTx E w).locks := by
    rw [hw₂, World.toLedger_insertTransaction, locksOf_insertTransaction hk, hw₁]
    exact locksOf_nextKey rfl
  have hl₂ : w₂.locksOf (w₁.nextKey E) = (changeTx E w config).locks := by
    rw [hw₂]
    exact locksOf_nextKey rfl
  refine ⟨w₂, w.nextKey E, w₁.nextKey E, by rw [hw₂, hw₁]; rfl, ?_⟩
  rw [← hl₁, ← hl₂, show w.locks = w₂.locks by rw [hw₂, hw₁]; rfl, becomeTipReceiver, hc]
  dsimp only
  rw [← hw₁, ← hw₂]

theorem faults_becomeTipReceiver (lf : LockFaults S.toLockPolicy) {config : TipConfig}
    (hc : w.tipConfig = some config) : (S.becomeTipReceiver E w).Ensures
      (fun _ => S.tipsLockable w.locks (initTx E w).locks (changeTx E w config).locks →
        w.queued executeWorkerStart + 1 < E.queueCapacity)
      (fun f => f.IsInternal ∨
        (S.tipsLockable w.locks (initTx E w).locks (changeTx E w config).locks ∧
          E.queueCapacity ≤ w.queued executeWorkerStart + 1) ∧ f = .queueFull) := by
  obtain ⟨w', init, change, hq, he⟩ := becomeTipReceiver_eq (S := S) (E := E) hc
  rw [he, ← hq]
  split
  case isTrue hl =>
    refine (faults_startTips lf).mono (fun _ h _ => h) fun _ hf => hf.imp_right fun hf => ?_
    exact ⟨⟨hl, hf.left⟩, hf.right⟩
  case isFalse hl => exact fun h => absurd h hl

theorem faults_checkSlotRoll (lf : LockFaults S.toLockPolicy) : (S.checkSlotRoll E w message).Ensures
    (fun _ => True) (fun f => f.IsInternal ∨ Panics S t E w (.checkSlotRoll message) f) := by
  rw [checkSlotRoll, ensures_bind]
  cases hw : S.rolled E w message
  case error f =>
    refine (faults_rolled.of_error hw).imp_right fun hf => ?_
    rw [hf.right]
    exact .agaveDisconnected hf.left
  case ok w₁ =>
    obtain ⟨hh, hq⟩ := faults_rolled.of_ok hw
    have hs := settings_rolled.of_ok hw
    have hp : w₁.progress = observed w message := congrArg (·.progress) hs
    have ht : w₁.tipConfig = w.tipConfig := congrArg (·.tipConfig) hs
    rw [ensures_ok]
    split
    case isFalse => trivial
    case isTrue ha =>
      have ha' : Activates w message := ⟨hp ▸ ha.left, ha.right⟩
      cases hc : w₁.tipConfig
      case none =>
        rw [(becomeTipReceiver_eq_error_iff lf).mpr (by exact hc)]
        exact .inr <| .tipConfig hh ha' <| ht.symm.trans hc
      case some config =>
        have hb := faults_becomeTipReceiver (S := S) (E := E)
          (w := w₁.count fun s => { s with wasLeaderReady := true }) lf hc
        refine hb.mono (fun _ _ => trivial) fun f hf => hf.imp_right fun hf => ?_
        obtain ⟨⟨hl, hc'⟩, rfl⟩ := hf
        have hc' : E.queueCapacity ≤ w₁.queued executeWorkerStart + 1 := hc'
        rw [hq] at hc'
        exact .tipQueue ⟨w₁, config, hw, ha.left, ha.right, hc, hl⟩ hc'

-- Conversely, each of the conditions makes it fail.
theorem fails_checkSlotRoll (lf : LockFaults S.toLockPolicy)
    (hp : Panics S t E w (.checkSlotRoll message) f) : (S.checkSlotRoll E w message).Ensures
      (fun _ => False) (fun f' => f'.IsInternal ∨ f' = f) := by
  rw [checkSlotRoll, ensures_bind]
  cases hp
  case agaveDisconnected hn =>
    exact faults_rolled.mono (fun w₁ hw => absurd hw.left hn) fun f hf => hf.imp_right And.right
  case tipConfig ht hh ha =>
    cases hw : S.rolled E w message
    case error f =>
      exact (faults_rolled.of_error hw).imp_right fun hf => absurd hh hf.left
    case ok w₁ =>
      have hs := settings_rolled.of_ok hw
      have hp : w₁.progress = observed w message := congrArg (·.progress) hs
      have ht : w₁.tipConfig = none := (congrArg (·.tipConfig) hs).trans ht
      rw [ensures_ok, if_pos ⟨hp ▸ ha.left, ha.right⟩,
        (becomeTipReceiver_eq_error_iff lf).mpr (by exact ht)]
      exact .inr rfl
  case tipQueue hc ha =>
    obtain ⟨w₁, config, hw, hl, hn, ht, hk⟩ := ha
    obtain ⟨_, hq⟩ := faults_rolled.of_ok hw
    rw [hw, ensures_ok, if_pos ⟨hl, hn⟩]
    rw [← hq] at hc
    have hb := faults_becomeTipReceiver (S := S) (E := E)
      (w := w₁.count fun s => { s with wasLeaderReady := true }) lf ht
    refine hb.mono (fun _ h => ?_) fun f hf => hf.imp_right And.right
    exact absurd (h hk) <| Nat.not_lt_of_le hc

end Roll

section Response

variable {r : Request} {a : WorkerAction} {id : PriorityId} {rep : CheckResponse}
variable {keys : Option (List Pubkey)}

theorem faults_accept : (S.accept w id).Ensures (fun _ => True)
    (fun f => (w.checkedTx = ∅ ∧ w.checkedCapacity ≤ w.pendingLen) ∧ f = .evictChecked) := by
  unfold accept
  split
  case isFalse => trivial
  case isTrue hp =>
    split
    case h_1 hn => exact ⟨⟨Finset.first_eq_none_iff.mp hn, hp⟩, rfl⟩
    case h_2 => trivial

theorem faults_onCheck (hl : r.key ∈ w.live) :
    (S.onCheck E { w with toLedger := w.toLedger.answer r a } r.id rep keys).Ensures (fun _ => True)
      (Panics S t E w (.workerResponse r (.check rep keys))) := by
  unfold onCheck
  split
  case isTrue => trivial
  case isFalse hn =>
    split
    case isTrue hf =>
      simp only [ensures_bind, ensures_require]
      exact ⟨fun _ => trivial, fun hr => .checkReason hl hn hf <| eq_false_of_ne_true hr⟩
    case isFalse hf =>
      have hf := eq_false_of_ne_true hf
      simp only [ensures_bind, ensures_require]
      refine ⟨fun hs => ?_, fun hs => .checkFlags hl hn hf <| eq_false_of_ne_true hs⟩
      split
      case isTrue => trivial
      case isFalse =>
        split
        case isTrue => trivial
        case isFalse hr =>
          rw [ensures_bind]
          refine faults_accept.mono (fun _ _ => trivial) fun f hf' => ?_
          obtain ⟨⟨he, hc⟩, rfl⟩ := hf'
          exact .evictChecked hl hn ⟨hf, hs, eq_false_of_ne_true hr⟩ he hc

theorem faults_release : (releaseCus E w id).Ensures (fun _ => True) (· = .overflow) := by
  rw [releaseCus, ensures_bind]
  exact Machine.ensures_sub fun _ => rfl

theorem faults_releaseLocks (lf : LockFaults S.toLockPolicy) :
    (S.releaseLocks w id).Ensures (fun _ => True) (·.IsInternal) := by
  rw [releaseLocks, ensures_bind]
  exact (lf.unlock ..).mono (fun _ _ => trivial) fun _ => .inr

theorem faults_onExecution (lf : LockFaults S.toLockPolicy) (hf : r.Fits a)
    (hk : r.kind = .execute) :
    (S.onResponse E w id a).Ensures (fun _ => True) (fun f => f.IsInternal ∨ f = .overflow) := by
  have hi : ∀ f : Fault, f.IsCustody → f.IsInternal ∨ f = .overflow := fun _ h => .inl <| .inl h
  have hl : ∀ w : World L, (S.releaseLocks w id).Ensures (fun _ => True)
      (fun f => f.IsInternal ∨ f = .overflow) :=
    fun _ => (faults_releaseLocks lf).mono (fun _ h => h) fun _ => .inl
  have hc : ∀ w : World L, (releaseCus E w id).Ensures (fun _ => True)
      (fun f => f.IsInternal ∨ f = .overflow) :=
    fun _ => faults_release.mono (fun _ h => h) fun _ => .inr
  cases a
  case check => exact absurd hk hf
  case unprocessed =>
    rw [onResponse, onUnprocessed]
    split
    case isFalse => trivial
    case isTrue =>
      simp only [ensures_bind]
      refine (hl _).imp fun w₁ _ => (hc _).imp fun w₂ _ => ?_
      split <;> trivial
  case execute rep =>
    simp only [onResponse, onExecute, ensures_bind, ensures_require]
    refine ⟨fun _ => (hc _).imp fun w₁ _ => (hl _).imp fun w₂ _ => ?_, fun _ => hi _ <| by decide⟩
    split
    case isTrue => trivial
    case isFalse =>
      rw [ensures_bind, retry]
      split
      case isTrue =>
        simp only [ensures_bind, ensures_require]
        exact ⟨fun _ => trivial, fun _ => hi _ <| by decide⟩
      case isFalse =>
        simp only [World.insertCheckedNew, ensures_bind, ensures_require]
        exact ⟨fun _ => trivial, fun _ => hi _ <| by decide⟩

theorem Known.faults_workerResponse (hS : S.Known locks) (hr : S.Reachable E locks w)
    (hm : r ∈ w.inFlight) (hf : r.Fits a) : (S.drainWorkerResponse E w r a).Ensures (fun _ => True)
      (fun f => f.IsInternal ∨ Panics S t E w (.workerResponse r a) f) := by
  by_cases hl : r.key ∈ w.live
  case neg =>
    rw [drainWorkerResponse, if_neg hl]
    trivial
  case pos =>
    cases a
    case check =>
      exact ensures_drainWorkerResponse (Q := fun _ => True) hl <|
        (faults_onCheck hl).mono (fun _ h => h) fun _ => .inr
    case unprocessed | execute =>
      cases hs : S.drainWorkerResponse E w r _
      case ok => trivial
      case error f =>
        have ho := ensures_drainWorkerResponse (Q := fun _ => True) hl <|
          faults_onExecution (E := E) hS.lockFaults hf hf
        refine .inl <| (ho.of_error hs).resolve_right ?_
        exact (hS.ensures_response hr hm hf hf).of_error hs

theorem fails_workerResponse (hp : Panics S t E w (.workerResponse r a) f) :
    S.drainWorkerResponse E w r a = .error f := by
  cases hp
  case checkReason rep keys hf hr hl hn =>
    refine (drainWorkerResponse_eq_error_iff hl).mpr ?_
    rw [onResponse, onCheck, if_neg (by exact hn), if_pos hf, hr]
    rfl
  case checkFlags rep keys hf hs hl hn =>
    refine (drainWorkerResponse_eq_error_iff hl).mpr ?_
    rw [onResponse, onCheck, if_neg (by exact hn), if_neg (by simp [hf]), hs]
    rfl
  case evictChecked rep keys hp he hc hl hn =>
    exact (drainWorkerResponse_eq_error_iff hl).mpr <| onCheck_eq_error_iff.mpr ⟨hn, hp, he, hc⟩

end Response

end Scheduler
