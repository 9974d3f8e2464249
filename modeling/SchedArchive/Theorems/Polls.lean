import SchedArchive.Scheduler.Session
import SchedArchive.Theorems.Runs

-- What a poll does to the settings, and when, over whole sessions of polls, the leader takes over as
-- tip receiver.

open Except

-- A poll that finds nothing but a progress message.
def Sample.quiet (leaderReady : Bool) (slot : Nat) : Act :=
  .poll
    { message    := some <| progress leaderReady slot 0
      answers    := []
      backlog    := []
      channel    := ⟨[], true⟩
      cancelled  := false
      checkReads := fun _ => 0 }

namespace Scheduler

variable {L : Type} {S : Scheduler L} {E : Env} {w w' : World L} {s s' : Session L} {locks : L}
variable {message : Option ProgressMessage} {input : PollInput} {acts acts' : List Act} {a : Act}

theorem settings_foldlM_drain {answers : List (Request × WorkerAction)} :
    (answers.foldlM (fun w (r, a) => S.drainWorkerResponse E w r a) w).Ensures
      (·.settings = w.settings) (fun _ => True) :=
  ensures_foldlM (I := fun w₁ : World L => w₁.settings = w.settings) (fun _ _ _ h₁ =>
    settings_drainWorkerResponse.imp fun _ h₂ => h₂.trans h₁) rfl

theorem settings_intake {backlog : List Packet} {n : Nat} :
    (S.drainTpu E w backlog n).Ensures
      (fun w' => (S.dropExpiredBundles w').settings = w.settings) (fun _ => True) :=
  spares_drainTpu.imp fun _ h => spares_dropExpiredBundles.settings.trans h.settings

-- A poll in two halves. Whether the leader is ready does not change while new transactions come in.
theorem poll_eq : S.poll E w input = (do
    let w ← S.beforeJito E w input
    let isLeader := w.progress.leaderReady
    let w ← S.drainJito E w input.channel input.cancelled
    let w ← S.scheduleChecks E input.checkReads w
    if isLeader then
      let w ← S.scheduleExecute E w
      return restartRecheck w
    else
      return w) := by
  rw [poll, beforeJito, bind_assoc]
  refine bind_congr fun w₁ => ?_
  rw [bind_assoc]
  refine bind_congr fun w₂ => ?_
  cases hd : S.drainTpu E (S.tick w₂) input.backlog
    (if (S.tick w₂).progress.leaderReady then 128 else 1024)
  case error => simp [hd, bind, Except.bind]
  case ok w₃ =>
    have hp : (S.dropExpiredBundles w₃).progress = (S.tick w₂).progress :=
      congrArg (·.progress) (settings_intake.of_ok hd)
    simp only [hd, bind, Except.bind, pure, Except.pure, hp]

theorem settings_beforeJito :
    (S.beforeJito E w input).Ensures (fun w' => w'.settings = { w.settings with
      progress       := observed w input.message
      slot           := (observed w input.message).currentSlot
      wasLeaderReady := decide (Activates w input.message) ||
                          (decide ((observed w input.message).currentSlot = w.slot) &&
                            w.slotStats.wasLeaderReady) }) (fun _ => True) := by
  simp only [beforeJito, ensures_bind]
  refine settings_checkSlotRoll.imp fun w₁ h₁ => settings_foldlM_drain.imp fun w₂ h₂ => ?_
  exact settings_intake.imp fun w₃ h₃ => h₃.trans <| h₂.trans h₁

-- The settings after a poll.
theorem Known.settings_poll (hS : S.Known locks) :
    (S.poll E w input).Ensures (fun w' => w'.settings = { w.settings with
      progress       := observed w input.message
      slot           := (observed w input.message).currentSlot
      wasLeaderReady := decide (Activates w input.message) ||
                          (decide ((observed w input.message).currentSlot = w.slot) &&
                            w.slotStats.wasLeaderReady)
      tipConfig      := latestTip w.tipConfig input.channel.messages }) (fun _ => True) := by
  rw [poll_eq, ensures_bind]
  refine settings_beforeJito.imp fun w₁ h₁ => ?_
  have ht : w₁.tipConfig = w.tipConfig := congrArg (·.tipConfig) h₁
  simp only [ensures_bind]
  refine heeds_drainJito.imp fun w₂ h₂ => (spares_scheduleChecks hS.lawful).imp fun w₃ h₃ => ?_
  have h₂ := h₂.settings
  rw [ht, h₁] at h₂
  have h₃ := h₃.settings.trans h₂
  split
  case isFalse => exact h₃
  case isTrue =>
    rw [ensures_bind]
    exact (settings_scheduleExecute hS.settings_tryBest).imp fun w₄ h₄ => h₄.trans h₃

-- The flag that says whether the leader was ready, as a latch.
def latch (w : World L) : Latch.State Nat where
  slot   := w.slot
  raised := w.slotStats.wasLeaderReady

variable {o : Latch.Observation Nat}

theorem observe_eq_some (ho : S.observe E w message = some o) :
    ∃ w₁, S.rolled E w message = .ok w₁ ∧ o.slot = (observed w message).currentSlot ∧
      o.ready = (observed w message).leaderReady ∧
      o.fired = (o.ready && !w.slotStats.wasLeaderReady) := by
  rw [observe] at ho
  split at ho
  case h_2 => cases ho
  case h_1 w₁ hw =>
    have hp : w₁.progress = observed w message := congrArg (·.progress) <| settings_rolled.of_ok hw
    cases ho
    exact ⟨w₁, hw, by rw [hp], by rw [hp], rfl⟩

-- The observation says whether `become_tip_receiver` is called.
theorem checkSlotRoll_eq (ho : S.observe E w message = some o) :
    ∃ w₁, S.rolled E w message = .ok w₁ ∧ S.checkSlotRoll E w message =
      if o.fired then
        S.becomeTipReceiver E <| w₁.count fun s => { s with wasLeaderReady := true }
      else
        .ok w₁ := by
  obtain ⟨w₁, hw, _, hr, hf⟩ := observe_eq_some ho
  have hp : w₁.progress = observed w message := congrArg (·.progress) <| settings_rolled.of_ok hw
  refine ⟨w₁, hw, ?_⟩
  rw [checkSlotRoll, hw]
  simp only [bind, Except.bind, hp, hf, hr, Bool.and_eq_true, Bool.not_eq_true']
  split_ifs <;> simp_all [pure, Except.pure]

-- A poll that returns got past the slot roll.
theorem exists_observe (hp : S.poll E w input = .ok w') :
    ∃ o, S.observe E w input.message = some o := by
  obtain ⟨w₁, h₁, _⟩ := bind_eq_ok.mp hp
  obtain ⟨w₂, h₂, _⟩ := bind_eq_ok.mp h₁
  exact ⟨_, by rw [observe, h₂]⟩

theorem Known.latch_poll (hS : S.Known locks) (hp : S.poll E w input = .ok w')
    (ho : S.observe E w input.message = some o) : latch w' = (latch w).next o := by
  have hs := hS.settings_poll.of_ok hp
  obtain ⟨_, _, hslot, hr, hf⟩ := observe_eq_some ho
  have h₁ : w'.slot = (observed w input.message).currentSlot := congrArg (·.slot) hs
  have h₂ := congrArg (·.wasLeaderReady) hs
  have ha : decide (Activates w input.message) = o.fired := by
    rw [hf, hr]
    simp [Activates]
  rw [latch, Latch.State.next, h₁, hslot, ← ha]
  congr 1

theorem Known.latch_act (hS : S.Known locks) (hs : S.act E s a = .ok s') :
    latch s'.world = (S.observedIn E s a).foldl Latch.State.next (latch s.world) := by
  cases a
  case poll input =>
    obtain ⟨w', hp, hs⟩ := bind_eq_ok.mp hs
    cases hs
    obtain ⟨o, ho⟩ := exists_observe hp
    have ho' : S.observe E s.world input.message = some o := ho
    rw [hS.latch_poll hp ho, observedIn, ho']
    rfl
  all_goals
    cases hs
    rfl

theorem Known.latch_session (hS : S.Known locks) (hs : S.session E s acts = .ok s') :
    latch s'.world = (S.observations E s acts).foldl Latch.State.next (latch s.world) := by
  induction acts generalizing s
  case nil =>
    obtain rfl := Except.ok.inj hs
    rfl
  case cons a acts ih =>
    obtain ⟨s₁, h₁, h₂⟩ := bind_eq_ok.mp hs
    rw [observations, h₁, List.foldl_append, ← hS.latch_act h₁]
    exact ih h₂

theorem admits_observedIn : (latch s.world).Admits (S.observedIn E s a) := by
  cases a
  case poll input =>
    rw [observedIn]
    cases ho : S.observe E s.world input.message
    case none => trivial
    case some o =>
      obtain ⟨_, _, _, _, hf⟩ := observe_eq_some ho
      exact ⟨hf, trivial⟩
  all_goals trivial

theorem Known.admits_observations (hS : S.Known locks) :
    (latch s.world).Admits (S.observations E s acts) := by
  induction acts generalizing s
  case nil => trivial
  case cons a acts ih =>
    rw [observations, Latch.admits_append]
    refine ⟨admits_observedIn, ?_⟩
    cases hs : S.act E s a
    case error => trivial
    case ok s' =>
      rw [← hS.latch_act hs]
      exact ih

-- The leader takes over as tip receiver at most once in each stretch of polls with the same slot, and
-- at once when it is seen to be ready, exactly if it is never seen to be ready in one stretch and
-- right at the beginning of the next.
theorem Known.leader_activation_iff (hS : S.Known locks) (h₀ : Initial locks w) (acts : List Act) :
    (∀ g ∈ Latch.stretches (S.observations E ⟨w, []⟩ acts), Latch.Prompt g) ↔
      (Latch.stretches (S.observations E ⟨w, []⟩ acts)).IsChain fun g g' => ¬Latch.Hidden g g' := by
  refine Latch.prompt_iff (hS.admits_observations (s := ⟨w, []⟩)) ?_
  rw [latch, h₀.slotStats]

-- The leader is ready in slot 1 and, after a poll in which it is not, again in slot 2.
theorem Known.leader_activation_iff_pause :
    ∃ os, BatchScheduler.scheduler.observations Sample.env ⟨Sample.world ∅, []⟩
      [.put <| .tipConfig ⟨20, 21⟩, Sample.quiet false 1, Sample.quiet true 1, Sample.quiet false 2,
        Sample.quiet true 2] = os ∧ os.map (·.fired) = [false, true, false, true] ∧
      ∀ g ∈ Latch.stretches os, Latch.Prompt g := by
  have ho : BatchScheduler.scheduler.observations Sample.env ⟨Sample.world ∅, []⟩
      [.put <| .tipConfig ⟨20, 21⟩, Sample.quiet false 1, Sample.quiet true 1, Sample.quiet false 2,
        Sample.quiet true 2] =
      [⟨1, false, false⟩, ⟨1, true, true⟩, ⟨2, false, false⟩, ⟨2, true, true⟩] := by decide +kernel
  refine ⟨_, rfl, by rw [ho]; rfl, ?_⟩
  refine (leader_activation_iff (w := Sample.world ∅) .batch initial_newWithJito _).mpr ?_
  rw [ho]
  decide

-- The leader is ready in slot 1 and still ready when slot 2 begins.
theorem Known.leader_activation_missed :
    ∃ g ∈ Latch.stretches (BatchScheduler.scheduler.observations Sample.env ⟨Sample.world ∅, []⟩
      [.put <| .tipConfig ⟨20, 21⟩, Sample.quiet false 1, Sample.quiet true 1, Sample.quiet true 2]),
      g = [⟨2, true, false⟩] ∧ ¬Latch.Prompt g := by
  have ho : BatchScheduler.scheduler.observations Sample.env ⟨Sample.world ∅, []⟩
      [.put <| .tipConfig ⟨20, 21⟩, Sample.quiet false 1, Sample.quiet true 1, Sample.quiet true 2] =
      [⟨1, false, false⟩, ⟨1, true, true⟩, ⟨2, true, false⟩] := by decide +kernel
  rw [ho]
  refine ⟨[⟨2, true, false⟩], by decide, rfl, fun hp => ?_⟩
  exact nomatch hp.atOnce _ rfl

end Scheduler
