import SchedArchive.Custody.Run
import SchedArchive.Custody.Frame

-- What the handlers leave alone of the places of keys.

open Except Ledger

-- What there is besides `checked_tx`.
structure Outside where
  uncheckedTx : Multiset PriorityId
  bundles     : Finset BundleId
  inserted    : Nat
  inFlight    : Multiset Request
  executingTx : Finset TransactionKey
  deferredTx  : List PriorityId

def Ledger.outside {L : Type} (l : Ledger L) : Outside where
  uncheckedTx := l.uncheckedTx
  bundles     := l.bundles
  inserted    := l.inserted
  inFlight    := l.inFlight
  executingTx := l.executingTx
  deferredTx  := l.deferredTx

namespace Scheduler

variable {L : Type} {S : Scheduler L} {E : Env} {w w₁ w₂ : World L} {P : LockPolicy L}
variable {id : PriorityId} {r : Request} {a : WorkerAction}

-- The answers of workers leave `unchecked_tx` and the bundles alone. What they defer was executing.
structure Answers (l l' : Ledger L) : Prop where
  unchecked : l'.uncheckedTx = l.uncheckedTx
  bundles   : l'.bundles = l.bundles
  inserted  : l'.inserted = l.inserted
  inFlight  : l'.inFlight ≤ l.inFlight
  executing : ∀ k ∈ l'.executingTx, k ∈ l.executingTx
  deferred  : ∀ id ∈ l.deferredTx, id ∈ l'.deferredTx
  deferring : ∀ id ∈ l'.deferredTx, id ∈ l.deferredTx ∨ id.key ∈ l.executingTx

theorem outside_removeChecked : (w.removeChecked P id).outside = w.outside := by
  unfold World.removeChecked
  split <;> rfl

theorem outside_evictChecked : (w.evictChecked P id).outside = w.outside :=
  outside_removeChecked

theorem outside_trim : (S.trim w).outside = w.outside := by
  unfold trim
  split
  case isFalse => rfl
  case isTrue =>
    split
    case h_1 => rfl
    case h_2 => exact outside_evictChecked

theorem outside_accept : (S.accept w id).Ensures (·.outside = w.outside) (fun _ => True) := by
  unfold accept
  split
  case isFalse => rfl
  case isTrue =>
    split
    case h_1 => trivial
    case h_2 => exact outside_evictChecked

theorem outside_onCheck {rep : CheckResponse} {keys : Option (List Pubkey)} :
    (S.onCheck E w id rep keys).Ensures (·.1.outside = w.outside) (fun _ => True) := by
  unfold onCheck
  split
  case isTrue => rfl
  case isFalse =>
    split
    case isTrue =>
      simp only [ensures_bind, ensures_require, ensures_pure]
      exact ⟨fun _ => outside_removeChecked, fun _ => trivial⟩
    case isFalse =>
      simp only [ensures_bind, ensures_require]
      refine ⟨fun _ => ?_, fun _ => trivial⟩
      split
      case isTrue => rfl
      case isFalse =>
        split
        case isTrue => rfl
        case isFalse =>
          rw [ensures_bind]
          exact outside_accept.imp fun _ h => h

-- An execution that is over: its key is still the handler's when its locks are released.
def withoutKey (l : Ledger L) (key : TransactionKey) : Outside :=
  { l.outside with executingTx := l.executingTx.erase key }

theorem outside_releaseCus : (releaseCus E w id).Ensures (·.outside = w.outside) (fun _ => True) := by
  rw [releaseCus, ensures_bind]
  exact ensures_of_forall fun _ => rfl

theorem outside_releaseLocks :
    (S.releaseLocks w id).Ensures (·.outside = w.outside) (fun _ => True) := by
  rw [releaseLocks, ensures_bind]
  exact ensures_of_forall fun _ => rfl

theorem outside_countExecution {reason : NotIncludedReason} :
    (countExecution w reason).outside = w.outside := by
  unfold countExecution World.count
  rfl

theorem outside_retry {rep : ExecutionResponse} :
    (S.retry w id rep).Ensures (fun w' => w'.outside = w.outside ∨
      w'.outside = { w.outside with deferredTx := w.deferredTx ++ [id] }) (fun _ => True) := by
  unfold Scheduler.retry
  split
  case isTrue =>
    simp only [ensures_bind, ensures_require, ensures_pure]
    exact ⟨fun _ => .inr rfl, fun _ => trivial⟩
  case isFalse =>
    simp only [World.insertCheckedNew, ensures_bind, ensures_require, ensures_pure]
    exact ⟨fun _ => .inl rfl, fun _ => trivial⟩

theorem outside_onExecute {rep : ExecutionResponse} :
    (S.onExecute E w id rep).Ensures (fun x => id.key ∈ w.executingTx ∧
      (x.1.outside = withoutKey w.toLedger id.key ∨
        x.1.outside = { withoutKey w.toLedger id.key with deferredTx := w.deferredTx ++ [id] }))
      (fun _ => True) := by
  simp only [onExecute, ensures_bind, ensures_require]
  refine ⟨fun hx => outside_releaseCus.imp fun w₁ h₁ => ?_, fun _ => trivial⟩
  refine outside_releaseLocks.imp fun w₂ h₂ => ?_
  have h₂ : w₂.outside = withoutKey w.toLedger id.key := h₂.trans h₁
  split
  case isTrue => exact ⟨hx, .inl <| outside_countExecution.trans h₂⟩
  case isFalse =>
    rw [ensures_bind]
    refine outside_retry.imp fun w₃ h₃ => ⟨hx, ?_⟩
    rw [outside_countExecution, h₂] at h₃
    have hd : w₂.deferredTx = w.deferredTx := congrArg (·.deferredTx) h₂
    refine h₃.imp outside_trim.trans fun h₃ => (outside_trim.trans h₃).trans ?_
    rw [← hd]
    rfl

theorem outside_onUnprocessed : (S.onUnprocessed E w id).Ensures
    (fun x => x.1.outside = w.outside ∨ x.1.outside = withoutKey w.toLedger id.key)
    (fun _ => True) := by
  unfold onUnprocessed
  split
  case isFalse => exact .inl rfl
  case isTrue =>
    simp only [ensures_bind]
    refine outside_releaseLocks.imp fun w₁ h₁ => outside_releaseCus.imp fun w₂ h₂ => ?_
    have h₂ : w₂.outside = withoutKey w.toLedger id.key := h₂.trans h₁
    split <;> exact .inr h₂

theorem Answers.of_outside {l l₁ l' : Ledger L} (h : Answers l l₁) (ho : l'.outside = l₁.outside) :
    Answers l l' := by
  simp only [outside, Outside.mk.injEq] at ho
  obtain ⟨hu, hb, hi, hf, hx, hd⟩ := ho
  exact ⟨hu ▸ h.unchecked, hb ▸ h.bundles, hi ▸ h.inserted, hf ▸ h.inFlight, hx ▸ h.executing,
    hd ▸ h.deferred, hd ▸ h.deferring⟩

theorem answers_answer {l : Ledger L} : Answers l (l.answer r a) :=
  ⟨rfl, rfl, rfl, Multiset.erase_le .., fun _ h => h, fun _ h => h, fun _ h => .inl h⟩

theorem answers_onResponse : (S.onResponse E { w with toLedger := w.toLedger.answer r a } r.id a).Ensures
    (fun x => Answers w.toLedger x.1.toLedger) (fun _ => True) := by
  have h₀ : Answers w.toLedger (w.toLedger.answer r a) := answers_answer
  have h₁ : Answers w.toLedger { w.toLedger.answer r a with
      executingTx := w.executingTx.erase r.key } :=
    { h₀ with executing := fun _ hk => Finset.mem_of_mem_erase hk }
  cases a
  case check => exact outside_onCheck.imp fun x hx => h₀.of_outside hx
  case unprocessed =>
    refine outside_onUnprocessed.imp fun x hx => ?_
    rcases hx with hx | hx
    · exact h₀.of_outside hx
    · exact h₁.of_outside hx
  case execute rep =>
    refine outside_onExecute.imp fun x hx => ?_
    obtain ⟨hk, hx | hx⟩ := hx
    · exact h₁.of_outside hx
    · have h₂ : Answers w.toLedger { w.toLedger.answer r (.execute rep) with
          executingTx := w.executingTx.erase r.key
          deferredTx  := w.deferredTx ++ [r.id] } := by
        refine { h₁ with deferred := fun id hi => List.mem_append_left _ hi, deferring := ?_ }
        intro id hi
        refine (List.mem_append.mp hi).imp_right fun hi => ?_
        rw [List.mem_singleton.mp hi]
        exact hk
      exact h₂.of_outside hx

theorem answers_drainWorkerResponse :
    (S.drainWorkerResponse E w r a).Ensures (fun w' => Answers w.toLedger w'.toLedger)
      (fun _ => True) := by
  unfold drainWorkerResponse
  split
  case isFalse =>
    exact ⟨rfl, rfl, rfl, Multiset.erase_le .., fun _ h => h, fun _ h => h, fun _ h => .inl h⟩
  case isTrue =>
    rw [ensures_bind]
    refine answers_onResponse.imp fun x hx => ?_
    obtain ⟨w', d⟩ := x
    cases d <;> exact hx.of_outside rfl

-- A condition that what comes in over TPU cannot change.
structure Untouched (E : Env) (I : Ledger L → Prop) : Prop where
  insert    : ∀ {l} tx, I l → I (l.insertTransaction E tx)
  drop      : ∀ {l key}, I l → I (l.dropTransaction key)
  unchecked : ∀ {l : Ledger L} {ids}, I l → I { l with uncheckedTx := ids }

-- Nor can a bundle, which does not come in over TPU.
structure UntouchedByBundles (E : Env) (I : Ledger L → Prop) : Prop extends Untouched E I where
  locks     : ∀ {l : Ledger L} locks, I l → I { l with locks := locks }
  viaBundle : ∀ {l : Ledger L} keys, I l → I { l with viaBundle := keys }
  bundles   : ∀ {l : Ledger L} bs, I l → I { l with bundles := bs }

namespace Untouched

variable {I : Ledger L → Prop} (U : Untouched E I)

include U

theorem evictUnchecked {n : Nat} (hi : I w.toLedger) :
    (Scheduler.evictUnchecked n w).Ensures (fun w' => I w'.toLedger) (fun _ => True) := by
  induction n generalizing w
  case zero => exact hi
  case succ n ih =>
    rw [Scheduler.evictUnchecked]
    split
    case h_1 => trivial
    case h_2 => exact ih <| U.drop <| U.unchecked hi

theorem onTpu {packet : Packet} (hi : I w.toLedger) :
    (S.onTpu E w packet).Ensures (fun w' => I w'.toLedger) (fun _ => True) := by
  cases packet
  case none => exact hi
  case some tx =>
    rw [Scheduler.onTpu, ensures_bind]
    refine ensures_of_forall fun x => ?_
    split
    case h_1 => exact U.drop <| U.insert _ hi
    case h_2 =>
      split
      case isTrue  => exact U.drop <| U.insert _ hi
      case isFalse => exact U.unchecked <| U.insert _ hi

theorem drainTpu {backlog : List Packet} {maxCount : Nat} (hi : I w.toLedger) :
    (S.drainTpu E w backlog maxCount).Ensures (fun w' => I w'.toLedger) (fun _ => True) := by
  rw [Scheduler.drainTpu, ensures_bind]
  refine (U.evictUnchecked hi).imp fun w₁ h₁ => ?_
  exact ensures_foldlM (I := fun w : World L => I w.toLedger) (fun _ _ _ => U.onTpu) h₁

theorem makeRoom (hi : I w.toLedger) :
    (Scheduler.makeRoom w).Ensures (fun w' => I w'.toLedger) (fun _ => True) := by
  unfold Scheduler.makeRoom
  split
  case isTrue  => exact U.evictUnchecked hi
  case isFalse => exact hi

theorem onPacket {packet : Packet} (hi : I w.toLedger) :
    (S.onPacket E w packet).Ensures (fun w' => I w'.toLedger) (fun _ => True) := by
  cases packet
  case none => exact hi
  case some tx =>
    rw [Scheduler.onPacket, ensures_bind]
    refine ensures_of_forall fun x => ?_
    split
    case h_1 => exact U.drop <| U.insert _ hi
    case h_2 =>
      split
      case isTrue => exact U.drop <| U.insert _ hi
      case isFalse =>
        rw [ensures_bind]
        exact (U.makeRoom (w := w.insertTransaction E tx) <| U.insert _ hi).imp fun _ => U.unchecked

theorem dropAll (keys : List TransactionKey) {l : Ledger L} (hi : I l) :
    I (keys.foldl Ledger.dropTransaction l) := by
  induction keys generalizing l
  case nil          => exact hi
  case cons k ks ih => exact ih <| U.drop hi

end Untouched

namespace UntouchedByBundles

variable {I : Ledger L → Prop} (U : UntouchedByBundles E I)

include U

theorem gather {g : Gathered} {packets : List Packet} (hi : I w.toLedger) :
    (S.gather E w g packets).Ensures (fun x => I x.1.toLedger) (fun _ => True) := by
  induction packets generalizing w g
  case nil => exact hi
  case cons packet packets ih =>
    cases packet
    case none =>
      rw [Scheduler.gather, ensures_ok, World.toLedger_dropAll]
      exact U.dropAll _ hi
    case some tx =>
      have hi := U.viaBundle (w.nextKey E :: w.viaBundle) <| U.insert tx hi
      rw [Scheduler.gather, ensures_bind]
      refine ensures_of_forall fun x => ?_
      split
      case h_1 =>
        rw [ensures_pure, World.toLedger_dropAll]
        exact U.dropAll _ hi
      case h_2 =>
        simp only [ensures_bind]
        exact ensures_of_forall fun cost => ensures_of_forall fun value => ih hi

theorem dropBundle {b : BundleId} (hi : I w.toLedger) : I (w.dropBundle P b).toLedger := by
  have hi := U.locks (b.keys.foldl (fun locks k => P.dequeue locks (w.locksOf k)) w.locks) hi
  rw [toLedger_dropBundle]
  exact U.dropAll b.keys <| U.bundles (w.bundles.erase b) hi

theorem evictBundle (hi : I w.toLedger) :
    (S.evictBundle w).Ensures (fun w' => I w'.toLedger) (fun _ => True) := by
  unfold Scheduler.evictBundle
  split
  case isFalse => exact hi
  case isTrue =>
    split
    case h_1 => trivial
    case h_2 => exact U.dropBundle hi

theorem onBundle {bundle : List Packet} (hi : I w.toLedger) :
    (S.onBundle E w bundle).Ensures (fun w' => I w'.toLedger) (fun _ => True) := by
  rw [Scheduler.onBundle, ensures_bind]
  refine (U.gather hi).imp fun x hx => ?_
  obtain ⟨w₁, _ | g⟩ := x
  case none => exact hx
  case some =>
    dsimp only
    split
    case isTrue =>
      rw [ensures_pure, World.toLedger_dropAll]
      exact U.dropAll _ hx
    case isFalse =>
      simp only [storeBundle, ensures_bind, ensures_require, ensures_pure]
      refine ⟨fun _ => (U.evictBundle hx).imp fun w₂ h₂ => ?_, fun _ => trivial⟩
      refine U.bundles (l := (S.queueKeys w₂ g.keys).toLedger) _ ?_
      rw [toLedger_queueKeys]
      exact U.locks _ h₂

theorem onJitoUpdate {m : JitoUpdate} (hi : I w.toLedger) :
    (S.onJitoUpdate E w m).Ensures (fun w' => I w'.toLedger) (fun _ => True) := by
  cases m
  case builderConfig | tipConfig | recentBlockhash => exact hi
  case packet => exact U.onPacket hi
  case bundle => exact U.onBundle hi

theorem drainJitoLoop (cancelled connected : Bool) (n : Nat) {ms : List JitoUpdate}
    (hi : I w.toLedger) : ∀ x ∈ S.drainJitoLoop E cancelled connected n ms w,
      x.Ensures (fun w' => I w'.toLedger) (fun _ => True) := by
  induction n generalizing ms w
  case zero => simp [Scheduler.drainJitoLoop]
  case succ n ih =>
    intro x hx
    cases ms
    case nil =>
      rw [Scheduler.drainJitoLoop] at hx
      split_ifs at hx
      · cases hx
        exact hi
      · exact ih hi x hx
      · cases hx
        trivial
    case cons m ms =>
      rw [Scheduler.drainJitoLoop] at hx
      split at hx
      case h_1 w₁ hw => exact ih ((U.onJitoUpdate hi).of_ok hw) x hx
      case h_2 =>
        cases hx
        trivial

theorem drainJito {channel : JitoChannel} {cancelled : Bool} (hi : I w.toLedger) :
    (S.drainJito E w channel cancelled).Ensures (fun w' => I w'.toLedger) (fun _ => True) := by
  rw [Scheduler.drainJito]
  cases hd : S.drainJitoLoop E cancelled channel.connected (channel.messages.length + 1)
    channel.messages w
  case none   => trivial
  case some x => exact U.drainJitoLoop cancelled channel.connected _ hi x hd

end UntouchedByBundles

-- Starting executions takes keys only out of `checked_tx` and the bundles.
structure Starts (l l' : Ledger L) : Prop where
  unchecked   : l'.uncheckedTx = l.uncheckedTx
  firstChecks : l'.firstChecks = l.firstChecks
  deferred    : l'.deferredTx = l.deferredTx
  inserted    : l'.inserted = l.inserted
  dropped     : l'.dropped = l.dropped
  checked     : ∀ id ∈ l'.checkedTx, id ∈ l.checkedTx
  bundles     : ∀ b ∈ l'.bundles, b ∈ l.bundles
  executing   : ∀ k ∈ l.executingTx, k ∈ l'.executingTx

theorem Starts.refl {l : Ledger L} : Starts l l :=
  ⟨rfl, rfl, rfl, rfl, rfl, fun _ => id, fun _ => id, fun _ => id⟩

theorem Starts.trans {l l₁ l' : Ledger L} (h₁ : Starts l l₁) (h₂ : Starts l₁ l') : Starts l l' where
  unchecked      := h₂.unchecked.trans h₁.unchecked
  firstChecks    := h₂.firstChecks.trans h₁.firstChecks
  deferred       := h₂.deferred.trans h₁.deferred
  inserted       := h₂.inserted.trans h₁.inserted
  dropped        := h₂.dropped.trans h₁.dropped
  checked id hi  := h₁.checked id <| h₂.checked id hi
  bundles b hb   := h₁.bundles b <| h₂.bundles b hb
  executing k hk := h₂.executing k <| h₁.executing k hk

theorem firstChecks_send {l : Ledger L} (batch : ScheduleBatch)
    (hb : ∀ r ∈ batch.transactions, r.kind = .execute) :
    (l.send batch).firstChecks = l.firstChecks := by
  have hf : (batch.transactions : Multiset Request).filter (·.kind = .firstCheck) = 0 :=
    Multiset.filter_eq_nil.mpr fun r hr => by simp [hb r hr]
  simp [firstChecks, send, hf]

theorem Attempt.starts {worker budget : Nat} {x : World L × Nat × List PriorityId}
    (ha : Attempt P E worker budget w x) : Starts w.toLedger x.1.toLedger := by
  cases ha
  case nothing => exact .refl
  case aborted => exact { Starts.refl with }
  case transaction id locks w' _ _ _ _ hw =>
    change Starts _ w'.toLedger
    rw [hw]
    exact { Starts.refl (l := w.toLedger) with
      firstChecks := firstChecks_send (transactionBatch w worker id) <| by simp [transactionBatch]
      checked     := fun _ => Finset.mem_of_mem_erase }
  case bundle b locks w' _ _ _ _ hw =>
    change Starts _ w'.toLedger
    rw [hw]
    exact { Starts.refl (l := w.toLedger) with
      firstChecks := firstChecks_send (bundleBatch w worker b) <| by simp [bundleBatch]
      bundles     := fun _ => Finset.mem_of_mem_erase }

theorem starts_foldlM_markExecuting {ids : List PriorityId} :
    (ids.foldlM markExecuting w).Ensures (fun w' => Starts w.toLedger w'.toLedger)
      (fun _ => True) := by
  refine ensures_foldlM (I := fun w' : World L => Starts w.toLedger w'.toLedger)
    (fun w₁ id _ h₁ => ?_) .refl
  simp only [markExecuting, ensures_bind, ensures_require, ensures_pure]
  refine ⟨fun _ => ?_, fun _ => trivial⟩
  exact { h₁ with executing := fun k hk => Finset.mem_insert_of_mem <| h₁.executing k hk }

theorem starts_scheduleWorkers (lf : LockFaults S.toLockPolicy) (law : S.Lawful) {workers : List Nat}
    {budget : Nat} (c : w.Custody E 0) (hb : w.inFlightCus + budget ≤ maxBlockUnits) :
    (S.scheduleWorkers E workers budget w).Ensures (fun w' => Starts w.toLedger w'.toLedger)
      (fun _ => True) := by
  have K : Kept S.toLockPolicy E (.all L) (¬·.IsCustody) (fun l h => l.Custody E h) :=
    lf.kept id (fun m c => c.move m) fun _ _ => trivial
  induction workers generalizing budget w
  case nil => exact .refl
  case cons worker workers ih =>
    unfold scheduleWorkers
    split_ifs
    case pos => exact .refl
    case pos => exact ih c hb
    case neg =>
      rw [ensures_bind]
      refine (law.attempt E worker budget w hb).mono ?_ fun _ _ => trivial
      rintro ⟨w₁, budget₁, batch⟩ ha
      have hk := K.attempt c trivial hb ha
      dsimp only at hk ⊢
      split
      case isTrue  => exact ha.starts
      case isFalse =>
        rw [ensures_bind]
        cases hw : batch.foldlM markExecuting w₁
        case error => trivial
        case ok w₂ =>
          obtain ⟨c₂, hb₂⟩ := hk.of_ok hw
          have h₂ := ha.starts.trans <| starts_foldlM_markExecuting.of_ok hw
          exact (ih (w := w₂.count _) c₂ hb₂).imp fun w₃ h₃ => h₂.trans h₃

theorem starts_scheduleExecute (lf : LockFaults S.toLockPolicy) (law : S.Lawful)
    (c : w.Custody E 0) : (S.scheduleExecute E w).Ensures
      (fun w' => Starts w.toLedger w'.toLedger) (fun _ => True) := by
  rw [scheduleExecute, ensures_bind]
  refine (ensures_fillBudget c.metered).mono ?_ fun _ _ => trivial
  exact fun budget hb => starts_scheduleWorkers lf law c hb

-- Asking for checks takes keys only out of `unchecked_tx`.
structure Asks (l l' : Ledger L) : Prop where
  unchecked : l'.uncheckedTx ≤ l.uncheckedTx
  inFlight  : l.inFlight ≤ l'.inFlight
  bundles   : l'.bundles = l.bundles
  inserted  : l'.inserted = l.inserted
  dropped   : l'.dropped = l.dropped

theorem Asks.refl {l : Ledger L} : Asks l l :=
  ⟨le_rfl, le_rfl, rfl, rfl, rfl⟩

theorem Asks.trans {l l₁ l' : Ledger L} (h₁ : Asks l l₁) (h₂ : Asks l₁ l') : Asks l l' where
  unchecked := h₂.unchecked.trans h₁.unchecked
  inFlight  := h₁.inFlight.trans h₂.inFlight
  bundles   := h₂.bundles.trans h₁.bundles
  inserted  := h₂.inserted.trans h₁.inserted
  dropped   := h₂.dropped.trans h₁.dropped

theorem Taken.asks {rs : List Request} (ht : Taken w rs w₁) : Asks w.toLedger w₁.toLedger where
  unchecked := by
    rw [ht.unchecked]
    exact Multiset.le_add_left ..
  inFlight  := by rw [ht.ledger]
  bundles   := by rw [ht.ledger]
  inserted  := by rw [ht.ledger]
  dropped   := by rw [ht.ledger]

theorem asks_scheduleChecks (law : S.Lawful) {reads : Nat → Nat} :
    (S.scheduleChecks E reads w).Ensures (fun w' => Asks w.toLedger w'.toLedger)
      (fun _ => True) := by
  rw [scheduleChecks, ensures_bind]
  refine (ensures_scheduleChecksLoop (J := fun w' => Asks w.toLedger w'.toLedger) trivial
    (fun _ _ h => h) ?_ .refl).imp fun _ h => h
  intro w₁ h₁
  refine law.takeNext.mono (fun x ht => ⟨fun _ => h₁.trans ht.asks, fun _ => ?_⟩) fun _ _ => trivial
  refine World.ensures_schedule.mono (fun w₂ h₂ => (h₁.trans ht.asks).trans ?_) fun _ _ => trivial
  rw [h₂]
  exact ⟨le_rfl, Multiset.le_add_left .., rfl, rfl, rfl⟩

-- The roll of a slot moves keys from `deferred_tx` to `checked_tx`.
structure Rolls (l l' : Ledger L) : Prop where
  unchecked : l'.uncheckedTx = l.uncheckedTx
  bundles   : l'.bundles = l.bundles
  inserted  : l'.inserted = l.inserted
  dropped   : l'.dropped = l.dropped
  inFlight  : l'.inFlight = l.inFlight
  executing : l'.executingTx = l.executingTx
  checked   : ∀ id ∈ l.checkedTx, id ∈ l'.checkedTx
  deferred  : ∀ id ∈ l'.deferredTx, id ∈ l.deferredTx

theorem Rolls.refl {l : Ledger L} : Rolls l l :=
  ⟨rfl, rfl, rfl, rfl, rfl, rfl, fun _ => id, fun _ => id⟩

theorem rolls_drainDeferred {ids : List PriorityId} (hd : w.deferredTx = ids) :
    (S.drainDeferred ids w).Ensures (fun w' => Rolls w.toLedger w'.toLedger ∧ w'.deferredTx = [] ∧
      ∀ id ∈ w.deferredTx, id ∈ w'.checkedTx) (fun _ => True) := by
  refine (ensures_drainDeferred (J := fun ids w' => Rolls w.toLedger w'.toLedger ∧
    w'.deferredTx = ids ∧ ∀ id ∈ w.deferredTx, id ∈ ids ∨ id ∈ w'.checkedTx) ?_ ?_).imp ?_
  case refine_1 =>
    rintro id ids w₁ ⟨h₁, hd₁, hc₁⟩
    simp only [World.insertCheckedNew, ensures_bind, ensures_require, ensures_pure]
    refine ⟨fun _ => ⟨?_, rfl, fun id' hi => ?_⟩, fun _ => trivial⟩
    · exact { h₁ with
        checked  := fun id' hi => Finset.mem_insert_of_mem <| h₁.checked id' hi
        deferred := fun id' hi => h₁.deferred id' <| hd₁ ▸ List.mem_cons_of_mem _ hi }
    · rcases hc₁ id' hi with hm | hm
      · rcases List.mem_cons.mp hm with rfl | hm
        · exact .inr <| Finset.mem_insert_self ..
        · exact .inl hm
      · exact .inr <| Finset.mem_insert_of_mem hm
  case refine_2 => exact ⟨.refl, hd, fun id hi => .inl <| hd ▸ hi⟩
  case refine_3 =>
    rintro w' ⟨h', hd', hc'⟩
    exact ⟨h', hd', fun id hi => (hc' id hi).resolve_left List.not_mem_nil⟩

theorem rolls_rolled {message : Option ProgressMessage} :
    (S.rolled E w message).Ensures (fun w' => Rolls w.toLedger w'.toLedger ∧
      ((observed w message).currentSlot = w.slot → w'.deferredTx = w.deferredTx) ∧
      ((observed w message).currentSlot ≠ w.slot → w'.deferredTx = [] ∧
        ∀ id ∈ w.deferredTx, id ∈ w'.checkedTx)) (fun _ => True) := by
  have ho : (observeProgress w message).Ensures (fun w₁ => w₁.toLedger = w.toLedger ∧
      w₁.slot = w.slot ∧ w₁.progress = observed w message) (fun _ => True) := by
    cases message
    case none =>
      simp only [observeProgress, ensures_bind, ensures_require]
      exact ⟨fun _ => ⟨rfl, rfl, rfl⟩, fun _ => trivial⟩
    case some => exact ⟨rfl, rfl, rfl⟩
  rw [rolled, ensures_bind]
  refine ho.imp fun w₁ h₁ => ?_
  obtain ⟨hl, hw, hp⟩ := h₁
  rw [hp, hw]
  split
  case isFalse hn =>
    rw [ensures_pure, hl]
    exact ⟨.refl, fun _ => rfl, fun h => absurd h hn⟩
  case isTrue hn =>
    simp only [rollSlot, ensures_bind, ensures_pure]
    refine (rolls_drainDeferred (by exact rfl)).imp fun w₂ h₂ => ?_
    obtain ⟨h₂, hd, hc⟩ := h₂
    rw [hl] at h₂ hc
    exact ⟨h₂, fun h => absurd h hn, fun _ => ⟨hd, hc⟩⟩

-- Taking over as tip receiver brings in two keys, to execute or to drop.
structure Tips (l l' : Ledger L) : Prop where
  unchecked   : l'.uncheckedTx = l.uncheckedTx
  bundles     : l'.bundles = l.bundles
  firstChecks : l'.firstChecks = l.firstChecks
  checked     : l'.checkedTx = l.checkedTx
  deferred    : l'.deferredTx = l.deferredTx
  executing   : ∀ k ∈ l.executingTx, k ∈ l'.executingTx

theorem tips_schedule {batch : ScheduleBatch} {l : Ledger L} (h : Tips l w.toLedger)
    (hb : ∀ r ∈ batch.transactions, r.kind = .execute) :
    (w.schedule E batch).Ensures (fun w' => Tips l w'.toLedger) (fun _ => True) := by
  refine World.ensures_schedule.mono (fun w₁ h₁ => ?_) fun _ _ => trivial
  rw [h₁]
  exact { h with firstChecks := (firstChecks_send _ hb).trans h.firstChecks }

theorem tips_becomeTipReceiver : (S.becomeTipReceiver E w).Ensures
    (fun w' => Tips w.toLedger w'.toLedger) (fun _ => True) := by
  unfold becomeTipReceiver
  split
  case h_1 => trivial
  case h_2 config _ =>
    dsimp only
    split
    case isFalse => exact ⟨rfl, rfl, rfl, rfl, rfl, fun _ => id⟩
    case isTrue =>
      simp only [startTips, ensures_bind, ensures_require]
      refine ensures_of_forall fun locks₁ => ensures_of_forall fun locks₂ => ?_
      refine ⟨fun _ => ⟨fun _ => ?_, fun _ => trivial⟩, fun _ => trivial⟩
      refine Ensures.imp (Q := fun w' => Tips w.toLedger w'.toLedger) ?_ fun w₁ h₁ => ?_
      · refine tips_schedule ⟨rfl, rfl, rfl, rfl, rfl, fun k hk => ?_⟩ <| by simp [tipBatch, tipRequest]
        exact Finset.mem_insert_of_mem <| Finset.mem_insert_of_mem hk
      · exact tips_schedule h₁ <| by simp [tipBatch, tipRequest]

end Scheduler
