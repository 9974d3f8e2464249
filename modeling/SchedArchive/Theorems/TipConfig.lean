import SchedArchive.Theorems.Polls

-- Whether the tip configuration is known by the time the leader takes over as tip receiver.

open Except

def JitoUpdate.isTip : JitoUpdate → Bool
  | tipConfig _ => true
  | _           => false

-- A tip configuration is put on the channel, before a poll or while one is running.
def Act.putsTip : Act → Bool
  | put message => message.isTip
  | poll input  => input.channel.messages.any JitoUpdate.isTip
  | _           => false

namespace Scheduler

variable {L : Type} {S : Scheduler L} {E : Env} {w w' : World L} {s s' : Session L} {locks : L}
variable {message : Option ProgressMessage} {input : PollInput} {acts acts' : List Act} {a : Act}
variable {o : Latch.Observation Nat}

def TipPut (acts : List Act) : Prop :=
  acts.any Act.putsTip = true

-- Some poll has received a tip configuration.
def TipReceived (acts : List Act) : Prop :=
  ∃ earlier input later, acts = earlier ++ .poll input :: later ∧ TipPut (earlier ++ [.poll input])

theorem isSome_latestTip {config : Option TipConfig} {messages : List JitoUpdate} :
    (latestTip config messages).isSome = (config.isSome || messages.any JitoUpdate.isTip) := by
  induction messages generalizing config
  case nil => simp [latestTip]
  case cons m ms ih =>
    refine Eq.trans (b := (latestTip _ ms).isSome) rfl ?_
    rw [ih]
    cases m <;> simp [JitoUpdate.isTip]

theorem TipReceived.tipPut (h : TipReceived acts) : TipPut acts := by
  obtain ⟨earlier, input, later, rfl, ht⟩ := h
  have ht : earlier.any Act.putsTip = true ∨ (Act.poll input).putsTip = true := by
    simpa [TipPut] using ht
  rw [TipPut, List.any_append, List.any_cons, Bool.or_eq_true, Bool.or_eq_true]
  exact ht.imp_right .inl

theorem TipReceived.append (h : TipReceived acts) : TipReceived (acts ++ acts') := by
  obtain ⟨earlier, input, later, rfl, ht⟩ := h
  exact ⟨earlier, input, later ++ acts', by simp, ht⟩

theorem tipPut_concat : TipPut (acts ++ [a]) ↔ TipPut acts ∨ a.putsTip = true := by
  simp [TipPut]

theorem tipReceived_poll : TipReceived (acts ++ [.poll input]) ↔ TipPut (acts ++ [.poll input]) :=
  ⟨TipReceived.tipPut, fun h => ⟨acts, input, [], rfl, h⟩⟩

theorem tipReceived_concat (ha : ∀ input, a ≠ .poll input) :
    TipReceived (acts ++ [a]) ↔ TipReceived acts := by
  refine ⟨?_, TipReceived.append⟩
  rintro ⟨earlier, input, later, he, ht⟩
  rcases List.eq_nil_or_concat' later with rfl | ⟨later, a', rfl⟩
  · have ha' := List.append_inj_right' he rfl
    exact absurd (List.singleton_inj.mp ha') <| ha input
  · rw [← List.cons_append, ← List.append_assoc] at he
    exact ⟨earlier, input, later, List.append_inj_left' he rfl, ht⟩

theorem session_concat : S.session E s (acts ++ [a]) = S.session E s acts >>= (S.act E · a) := by
  rw [session, session, List.foldlM_append]
  refine bind_congr fun s' => ?_
  rw [List.foldlM_cons]
  exact bind_pure _

theorem observations_append : S.observations E s (acts ++ acts') = S.observations E s acts ++
    match S.session E s acts with
    | .ok s'   => S.observations E s' acts'
    | .error _ => [] := by
  induction acts generalizing s
  case nil => rfl
  case cons a acts ih =>
    rw [List.cons_append, observations, observations, session, List.foldlM_cons]
    cases hs : S.act E s a
    case error => simp [bind, Except.bind]
    case ok s' => simp [bind, Except.bind, ih, session]

-- The channel holds what no poll has received.
theorem Known.tip_session (hS : S.Known locks) (h₀ : w.tipConfig = none)
    (hs : S.session E ⟨w, []⟩ acts = .ok s) :
    (s.world.tipConfig.isSome = true ↔ TipReceived acts) ∧
    (s.channel.any JitoUpdate.isTip = true ∨ TipReceived acts ↔ TipPut acts) := by
  induction acts using List.reverseRecOn generalizing s
  case nil =>
    cases hs
    simp [h₀, TipPut, TipReceived]
  case append_singleton acts a ih =>
    rw [session_concat] at hs
    obtain ⟨s₁, h₁, h₂⟩ := bind_eq_ok.mp hs
    obtain ⟨ih₁, ih₂⟩ := ih h₁
    cases a
    case poll input =>
      obtain ⟨w', hp, h₂⟩ := bind_eq_ok.mp h₂
      obtain rfl := Except.ok.inj h₂
      have ht : w'.tipConfig = latestTip s₁.world.tipConfig (s₁.channel ++ input.channel.messages) :=
        congrArg (·.tipConfig) <| hS.settings_poll.of_ok hp
      rw [tipReceived_poll, tipPut_concat, ← ih₂, ← ih₁, ht, isSome_latestTip, List.any_append]
      simp only [Bool.or_eq_true, List.any_nil, Bool.false_eq_true, false_or]
      exact ⟨or_left_comm.trans or_assoc.symm, trivial⟩
    case put m =>
      obtain rfl := Except.ok.inj h₂
      rw [tipReceived_concat, tipPut_concat, ← ih₂, List.any_append]
      · simp only [Bool.or_eq_true, List.any_cons, List.any_nil, Bool.or_false, Act.putsTip]
        exact ⟨ih₁, or_right_comm⟩
      · exact fun _ => nofun
    all_goals
      obtain rfl := Except.ok.inj h₂
      rw [tipReceived_concat, tipPut_concat, ← ih₂]
      · exact ⟨ih₁, by simp [Act.putsTip]⟩
      · exact fun _ => nofun

-- The slot roll itself never needs the tip configuration.

theorem drainDeferred_spares_tips {ids : List PriorityId} :
    (S.drainDeferred ids w).Ensures (fun _ => True) (· ≠ .tipConfig) := by
  refine ensures_drainDeferred (J := fun _ _ => True) ?_ trivial
  intro id ids w _
  simp only [World.insertCheckedNew, ensures_bind, ensures_require, ensures_pure]
  exact ⟨fun _ => trivial, fun _ => by decide⟩

theorem ensures_rolled : (S.rolled E w message).Ensures (fun _ => True) (· ≠ .tipConfig) := by
  have ho : (observeProgress w message).Ensures (fun _ => True) (· ≠ .tipConfig) := by
    cases message
    case some => trivial
    case none =>
      simp only [observeProgress, ensures_bind, ensures_require]
      exact ⟨fun _ => trivial, fun _ => by decide⟩
  rw [rolled, ensures_bind]
  refine ho.imp fun w₁ _ => ?_
  split
  case isFalse => trivial
  case isTrue =>
    simp only [rollSlot, ensures_bind]
    exact drainDeferred_spares_tips.imp fun _ _ => trivial

theorem becomeTipReceiver_eq_error_iff (lf : LockFaults S.toLockPolicy) :
    S.becomeTipReceiver E w = .error .tipConfig ↔ w.tipConfig = none := by
  have hl : ∀ f : Fault, f.IsLock → f ≠ .tipConfig := by
    rintro _ hf rfl
    exact absurd hf <| by decide
  unfold becomeTipReceiver
  split
  case h_1 hn => exact iff_of_true rfl hn
  case h_2 config hc =>
    refine iff_of_false ?_ (by simp [hc])
    dsimp only
    split
    case isFalse => nofun
    case isTrue =>
      refine Ensures.ne_error ?_
      simp only [startTips, ensures_bind, ensures_require]
      refine (lf.lock ..).mono (fun _ _ => (lf.lock ..).mono (fun _ _ => ?_) hl) hl
      refine ⟨fun _ => ⟨fun _ => ?_, fun _ => by decide⟩, fun _ => by decide⟩
      refine World.ensures_schedule.mono (fun _ _ => ?_) fun _ hf => hf ▸ by decide
      exact World.ensures_schedule.mono (fun _ _ => trivial) fun _ hf => hf ▸ by decide

theorem checkSlotRoll_eq_error_iff (lf : LockFaults S.toLockPolicy) :
    S.checkSlotRoll E w message = .error .tipConfig ↔
      w.tipConfig = none ∧ ∃ o, S.observe E w message = some o ∧ o.fired = true := by
  cases ho : S.observe E w message
  case none =>
    refine iff_of_false (fun hc => ?_) (by simp)
    rw [observe] at ho
    cases hw : S.rolled E w message
    case ok => simp [hw] at ho
    case error f =>
      rw [checkSlotRoll, hw] at hc
      obtain rfl : f = .tipConfig := Except.error.inj hc
      exact ensures_rolled.ne_error hw
  case some o =>
    obtain ⟨w₁, hw, hc⟩ := checkSlotRoll_eq ho
    have ht : w₁.tipConfig = w.tipConfig := congrArg (·.tipConfig) <| settings_rolled.of_ok hw
    rw [hc]
    split
    case isFalse hf => simp [hf]
    case isTrue hf =>
      rw [becomeTipReceiver_eq_error_iff lf]
      simp [hf, World.count, ht]

-- After the acts `before` comes the first poll of the session that sees the leader ready.
def FirstReady (S : Scheduler L) (E : Env) (w : World L) (acts before : List Act) : Prop :=
  ∃ input after s o, acts = before ++ .poll input :: after ∧ S.session E ⟨w, []⟩ before = .ok s ∧
    (∀ o' ∈ S.observations E ⟨w, []⟩ before, o'.ready = false) ∧
    S.observe E s.world input.message = some o ∧ o.ready = true

-- No poll of the session stops in `become_tip_receiver` for want of a tip configuration.
def TipsConfigured (S : Scheduler L) (E : Env) (w : World L) (acts : List Act) : Prop :=
  ∀ before input after s, acts = before ++ .poll input :: after →
    S.session E ⟨w, []⟩ before = .ok s →
    S.checkSlotRoll E s.world input.message ≠ .error .tipConfig

theorem FirstReady.append {before : List Act} (h : FirstReady S E w acts before) :
    FirstReady S E w (acts ++ acts') before := by
  obtain ⟨input, after, s, o, rfl, h⟩ := h
  exact ⟨input, after ++ acts', s, o, by simp, h⟩

theorem FirstReady.tipReceived {before : List Act} (h : FirstReady S E w acts before)
    (ht : TipReceived before) : TipReceived acts := by
  obtain ⟨input, after, _, _, rfl, _⟩ := h
  exact ht.append

-- If the leader was seen ready at all, then in some poll first.
theorem exists_firstReady (h : ¬∀ o ∈ S.observations E ⟨w, []⟩ acts, o.ready = false) :
    ∃ before, FirstReady S E w acts before := by
  induction acts using List.reverseRecOn
  case nil => simp [observations] at h
  case append_singleton acts a ih =>
    by_cases hn : ∀ o ∈ S.observations E ⟨w, []⟩ acts, o.ready = false
    case neg =>
      obtain ⟨before, hb⟩ := ih hn
      exact ⟨before, hb.append⟩
    case pos =>
      rw [observations_append] at h
      cases hs : S.session E ⟨w, []⟩ acts
      case error => exact absurd hn (by simpa [hs] using h)
      case ok s =>
        obtain ⟨o, ho, hr⟩ : ∃ o ∈ S.observedIn E s a, o.ready = true := by
          by_contra hc
          simp only [not_exists, not_and, Bool.not_eq_true] at hc
          refine h fun o hm => ?_
          rcases List.mem_append.mp hm with hm | hm
          · exact hn o hm
          · rw [hs] at hm
            rcases List.mem_append.mp hm with hm | hm
            · exact hc o hm
            · split at hm <;> simp [observations] at hm
        cases a
        case poll input => exact ⟨acts, input, [], s, o, rfl, hs, hn, Option.mem_toList.mp ho, hr⟩
        all_goals simp [observedIn] at ho

-- At the first poll that sees the leader ready the flag is still down.
theorem Known.fired_of_firstReady (hS : S.Known locks) (h₀ : Initial locks w)
    (hs : S.session E ⟨w, []⟩ acts = .ok s)
    (hn : ∀ o ∈ S.observations E ⟨w, []⟩ acts, o.ready = false)
    (ho : S.observe E s.world message = some o) (hr : o.ready = true) : o.fired = true := by
  have hl : (latch s.world).raised = false := by
    rw [hS.latch_session hs]
    refine Latch.lowered_of_unseen hS.admits_observations ?_ hn
    rw [latch, h₀.slotStats]
  obtain ⟨_, _, _, _, hf⟩ := observe_eq_some ho
  rw [hf, hr, Bool.true_and, Bool.not_eq_true']
  exact hl

theorem Known.tipsConfigured_iff (hS : S.Known locks) (h₀ : Initial locks w) :
    TipsConfigured S E w acts ↔ ∀ before, FirstReady S E w acts before → TipReceived before := by
  constructor
  case mp =>
    rintro hc before ⟨input, after, s, o, rfl, hs, hn, ho, hr⟩
    have hf := hS.fired_of_firstReady h₀ hs hn ho hr
    have ht := (hS.tip_session h₀.tipConfig hs).left
    by_contra hb
    refine hc before input after s rfl hs ?_
    rw [checkSlotRoll_eq_error_iff hS.lockFaults]
    refine ⟨?_, o, ho, hf⟩
    rw [← ht, Bool.not_eq_true, Option.isSome_eq_false_iff, Option.isNone_iff_eq_none] at hb
    exact hb
  case mpr =>
    rintro hr before input after s rfl hs he
    rw [checkSlotRoll_eq_error_iff hS.lockFaults] at he
    obtain ⟨hn, o, ho, hf⟩ := he
    obtain ⟨_, _, _, _, hf'⟩ := observe_eq_some ho
    have ht : TipReceived before := by
      by_cases hq : ∀ o ∈ S.observations E ⟨w, []⟩ before, o.ready = false
      case pos =>
        refine hr before ⟨input, after, s, o, rfl, hs, hq, ho, ?_⟩
        rw [hf', Bool.and_eq_true] at hf
        exact hf.left
      case neg =>
        obtain ⟨earlier, hb⟩ := exists_firstReady hq
        exact hb.tipReceived <| hr earlier hb.append
    rw [← (hS.tip_session h₀.tipConfig hs).left, hn] at ht
    exact nomatch ht

-- Whenever a tip configuration was put on the channel before the first poll that sees the leader
-- ready, no poll stops for want of one, exactly if some earlier poll has received it: a poll rolls
-- the slot before it looks at the channel.
theorem Known.tip_config_in_time_iff (hS : S.Known locks) (h₀ : Initial locks w) (acts : List Act) :
    ((∀ before, FirstReady S E w acts before → TipPut before) → TipsConfigured S E w acts) ↔
      ((∀ before, FirstReady S E w acts before → TipPut before) →
        ∀ before, FirstReady S E w acts before → TipReceived before) :=
  imp_congr_right fun _ => hS.tipsConfigured_iff h₀

-- A poll comes between the message and the leader being ready.
theorem Known.tip_config_in_time_iff_received :
    TipsConfigured BatchScheduler.scheduler Sample.env (Sample.world ∅)
      [.put <| .tipConfig ⟨20, 21⟩, Sample.quiet false 1, Sample.quiet true 1] := by
  have hr : ∀ before, FirstReady BatchScheduler.scheduler Sample.env (Sample.world ∅)
      [.put <| .tipConfig ⟨20, 21⟩, Sample.quiet false 1, Sample.quiet true 1] before →
      TipReceived before := by
    rintro (_ | ⟨a, _ | ⟨b, before⟩⟩) ⟨input, after, s, o, he, hs, hn, ho, hr⟩
    · cases he
    · cases he
      obtain rfl := Except.ok.inj hs
      obtain ⟨_, _, _, hr', _⟩ := observe_eq_some ho
      exact nomatch hr'.symm.trans hr
    · obtain ⟨rfl, hb⟩ := List.cons.inj he
      obtain ⟨rfl, _⟩ := List.cons.inj hb
      exact ⟨[_], _, before, rfl, rfl⟩
  refine (tip_config_in_time_iff (w := Sample.world ∅) .batch initial_newWithJito _).mpr ?_ ?_
  · exact fun _ => hr
  · exact fun before hb => (hr before hb).tipPut

-- The message is on the channel when the first poll starts that sees the leader ready.
theorem Known.tip_config_too_late :
    (∀ before, FirstReady BatchScheduler.scheduler Sample.env (Sample.world ∅)
      [.put <| .tipConfig ⟨20, 21⟩, Sample.quiet true 1] before → TipPut before) ∧
    ¬TipsConfigured BatchScheduler.scheduler Sample.env (Sample.world ∅)
      [.put <| .tipConfig ⟨20, 21⟩, Sample.quiet true 1] := by
  constructor
  · rintro (_ | ⟨a, before⟩) ⟨input, after, s, o, he, _⟩
    · cases he
    · obtain ⟨rfl, _⟩ := List.cons.inj he
      rfl
  · intro hc
    have hp : (BatchScheduler.scheduler.checkSlotRoll Sample.env (Sample.world ∅)
        (some <| Sample.progress true 1 0)).Ensures (fun _ => False) (· = .tipConfig) := by
      decide +kernel
    exact hc [_] _ [] ⟨Sample.world ∅, [.tipConfig ⟨20, 21⟩]⟩ rfl rfl hp.eq_error

end Scheduler
