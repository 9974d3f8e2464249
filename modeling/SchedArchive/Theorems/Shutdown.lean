import SchedArchive.Theorems.Threads

-- When the threads can still come to an end.

open Except

namespace JitoThread

-- The messages that the thread can still send, one after the other.
inductive Sends : JitoThread → List Message → Prop
  | nil {j} : Sends j []
  | waited {j phase todo r ms} :
    j.todo = [] → respond j.phase r = some (phase, todo) → Sends ⟨phase, todo⟩ ms → Sends j ms
  | sent {j m todo ms} :
    j.todo = .send m :: todo → Sends { j with todo := todo } ms → Sends j (m :: ms)

end JitoThread

namespace Scheduler

variable {L : Type} {S : Scheduler L} {E : Env} {w : World L} {m : JitoUpdate}

-- A message of the block engine is dealt with, or is the end of the scheduler.

theorem returns_makeRoom : (makeRoom w).Ensures (fun _ => True) (· ≠ .hang) := by
  unfold makeRoom
  split
  case isFalse => trivial
  case isTrue  =>
    unfold evictUnchecked
    split
    case h_1 => exact Fault.noConfusion
    case h_2 => trivial

theorem Lawful.returns_gather (law : S.Lawful) {g : Gathered} {bundle : List Packet} :
    (S.gather E w g bundle).Ensures (fun _ => True) (· ≠ .hang) := by
  have ho : ∀ f : Fault, f = .overflow → f ≠ .hang := by
    rintro _ rfl
    exact Fault.noConfusion
  induction bundle generalizing w g
  case nil => trivial
  case cons packet bundle ih =>
    cases packet
    case none => trivial
    case some tx =>
      simp only [gather, ensures_bind]
      refine (law.bundled ..).mono (fun x _ => ?_) ho
      cases x
      case none => trivial
      case some x =>
        simp only [ensures_bind]
        refine (Machine.ensures_add fun _ => ?_).imp fun cost _ => ?_
        case refine_1 => exact Fault.noConfusion
        case refine_2 =>
          refine (Machine.ensures_add fun _ => ?_).imp fun value _ => ih
          exact Fault.noConfusion

theorem Lawful.returns_onJitoUpdate (law : S.Lawful) :
    (S.onJitoUpdate E w m).Ensures (fun _ => True) (· ≠ .hang) := by
  cases m
  case builderConfig | tipConfig | recentBlockhash => trivial
  case packet packet =>
    cases packet
    case none => trivial
    case some tx =>
      simp only [onJitoUpdate, onPacket, ensures_bind]
      refine (law.priority ..).mono (fun x _ => ?_) fun f hf => hf ▸ Fault.noConfusion
      cases x
      case none => trivial
      case some x =>
        dsimp only
        split
        case isTrue  => trivial
        case isFalse =>
          rw [ensures_bind]
          exact returns_makeRoom.imp fun _ _ => trivial
  case bundle bundle =>
    simp only [onJitoUpdate, onBundle, ensures_bind]
    refine law.returns_gather.imp fun x _ => ?_
    obtain ⟨w₁, _ | g⟩ := x
    case none => trivial
    case some =>
      dsimp only
      split
      case isTrue  => trivial
      case isFalse =>
        simp only [storeBundle, ensures_bind, ensures_require]
        refine ⟨fun _ => ?_, fun _ => Fault.noConfusion⟩
        unfold evictBundle
        split
        case isFalse => trivial
        case isTrue  =>
          split
          case h_1 => exact Fault.noConfusion
          case h_2 => trivial

end Scheduler

namespace Threads

open Scheduler JitoThread

variable {L : Type} {S : Scheduler L} {E : Env} {c : Setup L} {t t' t₁ : Threads L}
variable {e : ThreadEvent} {came : List JitoThread.Effect} {w : World L} {isLeader : Bool}
variable {m : Message} {ms : List Message}

-- Both threads are gone.
def Over (t : Threads L) : Prop :=
  t.jito.ended = true ∧ t.receives = false

def CanEnd (S : Scheduler L) (E : Env) (c : Setup L) (t : Threads L) : Prop :=
  ∃ t', Reach S E c t t' ∧ t'.Over

-- What the scheduler makes of messages that it receives one after the other.
def handle (S : Scheduler L) (E : Env) (c : Setup L) (w : World L) (ms : List Message) :
    Except Fault (World L) :=
  (ms.map (·.update c.parse)).foldlM (S.onJitoUpdate E) w

-- The shutdown has begun and the Jito thread is gone, while the scheduler is in the loop of
-- `drain_jito` and nothing that is left on the channel makes it stop.
def Jammed (S : Scheduler L) (E : Env) (c : Setup L) (t : Threads L) : Prop :=
  t.cancelled = true ∧ t.jito.ended = true ∧
  ∃ w isLeader w', t.scheduler = .draining w isLeader ∧ handle S E c w t.channel.buffer = .ok w'

-- After messages that do not make it stop, the scheduler never comes back from the rest of its poll.
def NoWayOut (S : Scheduler L) (E : Env) (c : Setup L) (w : World L) (isLeader : Bool)
    (ms : List Message) : Prop :=
  ∃ w', handle S E c w ms = .ok w' ∧ ∀ reads, afterJito S E reads w' isLeader = .error .hang

-- The shutdown has begun while the scheduler is in the loop of `drain_jito`. Should the Jito thread go
-- now, the scheduler stays in there; and whatever that thread sends before, the rest of the poll hangs.
def Trapped (S : Scheduler L) (E : Env) (c : Setup L) (t : Threads L) : Prop :=
  t.cancelled = true ∧ t.jito.ended = false ∧
  ∃ w isLeader, t.scheduler = .draining w isLeader ∧
    ∀ ms, t.jito.Sends ms → NoWayOut S E c w isLeader (t.channel.buffer ++ ms)

theorem handle_cons : handle S E c w (m :: ms) =
    S.onJitoUpdate E w (m.update c.parse) >>= fun w => handle S E c w ms :=
  List.foldlM_cons ..

theorem CanEnd.head (h : Threads.step S E c t e = some t₁) (hc : CanEnd S E c t₁) :
    CanEnd S E c t := by
  obtain ⟨t', hr, ho⟩ := hc
  exact ⟨t', hr.head h, ho⟩

theorem CanEnd.of_reach (h : Reach S E c t t₁) (hc : CanEnd S E c t₁) : CanEnd S E c t := by
  induction h
  case refl       => exact hc
  case step h' ih => exact ih <| hc.head h'

-- Without the scheduler the Jito thread is cancelled where it waits and panics where it sends.
theorem canEnd_of_gone (hg : t.receives = false) : CanEnd S E c t := by
  cases he : t.jito.ended
  case true => exact ⟨t, .refl, he, hg⟩
  case false =>
    cases hj : t.jito.todo
    case nil =>
      have hs : Threads.step S E c { t with cancelled := true } .stopJito =
          some { t with cancelled := true, jito := ⟨.stopped, []⟩ } := by
        simp [Threads.step, hj, show JitoThread.ended _ = false from he]
      exact .head (e := .cancel) rfl <| .head hs ⟨_, .refl, rfl, hg⟩
    case cons effect todo =>
      have hs : Threads.step S E c t .effect = some { t with jito := .panicked } := by
        cases effect <;> simp [Threads.step, Threads.effect, send, hj, hg]
      exact .head hs ⟨_, .refl, rfl, hg⟩

theorem canEnd_idle (hs : t.scheduler = .idle w) : CanEnd S E c t := by
  have hs' : Threads.step S E c { t with cancelled := true } .stopScheduler =
      some { t with cancelled := true, scheduler := .stopped w } := by
    simp [Threads.step, hs]
  exact .head (e := .cancel) rfl <| .head hs' <| canEnd_of_gone rfl

-- A fault other than a loop for good is the end of the scheduler thread.
theorem canEnd_error {α : Type} {next : α → SchedulerThread L} {f : Fault} (hf : f ≠ .hang) :
    CanEnd S E c { t with scheduler := outcome next (.error f) } := by
  refine canEnd_of_gone ?_
  cases f
  case hang => exact absurd rfl hf
  all_goals rfl

section Draining

variable (hs : t.scheduler = .draining w isLeader)

include hs

theorem step_receive (reads : Nat → Nat) :
    Threads.step S E c t (.receive reads) = some (receive S E c reads t w isLeader) := by
  simp [Threads.step, hs]

-- The scheduler receives the next message.
theorem canEnd_message (law : S.Lawful) (hb : t.channel.buffer = m :: ms)
    (hn : ∀ w' channel, S.onJitoUpdate E w (m.update c.parse) = .ok w' → channel.buffer = ms →
      CanEnd S E c { t with channel := channel, scheduler := .draining w' isLeader }) :
    CanEnd S E c t := by
  refine .head (step_receive hs fun _ => 0) ?_
  rcases receive_cases S E c (fun _ => 0) t w isLeader with
    ⟨m', channel, hc, he⟩ | ⟨hn, _⟩ | ⟨hn, _⟩ | ⟨hn, _⟩
  case inl =>
    obtain ⟨_, hq⟩ := Channel.tryRecv_eq_some hc
    rw [hb] at hq
    obtain ⟨rfl, rfl⟩ := List.cons.inj hq
    rw [he]
    cases hu : S.onJitoUpdate E w (m.update c.parse)
    case error => exact canEnd_error (t := { t with channel := channel }) <|
      law.returns_onJitoUpdate.of_error hu
    case ok w' => exact hn w' channel hu rfl
  all_goals
    rw [hb] at hn
    exact nomatch hn

-- Without a Jito thread, and without a shutdown or with a message that makes the scheduler stop.
theorem canEnd_of_ended (law : S.Lawful) (hg : t.jito.ended = true) (hj : ¬Jammed S E c t) :
    CanEnd S E c t := by
  generalize hb : t.channel.buffer = ms
  induction ms generalizing t w
  case nil =>
    refine .head (step_receive hs fun _ => 0) ?_
    rcases receive_cases S E c (fun _ => 0) t w isLeader with
      ⟨m, channel, hc, _⟩ | ⟨_, he, _⟩ | ⟨_, _, hc, _⟩ | ⟨_, _, _, he⟩
    case inl =>
      obtain ⟨_, hq⟩ := Channel.tryRecv_eq_some hc
      rw [hb] at hq
      exact nomatch hq
    case inr.inl     => cases he.symm.trans hg
    case inr.inr.inl =>
      refine absurd ⟨hc, hg, w, isLeader, w, hs, ?_⟩ hj
      rw [hb]
      rfl
    case inr.inr.inr =>
      rw [he]
      exact canEnd_of_gone rfl
  case cons m ms ih =>
    refine canEnd_message hs law hb fun w' channel hu hq => ih rfl hg ?_ hq
    rintro ⟨hx, _, w₁, _, w₂, hs₁, hm⟩
    cases hs₁
    refine hj ⟨hx, hg, w, isLeader, w₂, hs, ?_⟩
    change handle S E c w' channel.buffer = .ok w₂ at hm
    rw [hb, handle_cons, hu, ← hq]
    exact hm

-- The Jito thread sends what leads out of the loop, and then the poll comes to its end.
theorem canEnd_of_sends (law : S.Lawful) (hg : t.jito.ended = false) (hb : t.channel.buffer = [])
    (hm : t.jito.Sends ms) (hn : ¬NoWayOut S E c w isLeader ms) : CanEnd S E c t := by
  generalize hj : t.jito = j at hm
  induction hm generalizing t w
  case nil =>
    obtain ⟨reads, hr⟩ : ∃ reads, afterJito S E reads w isLeader ≠ .error .hang := by
      by_contra h
      exact hn ⟨w, rfl, by simpa using h⟩
    refine .head (step_receive hs reads) ?_
    rcases receive_cases S E c reads t w isLeader with
      ⟨m, channel, hc, _⟩ | ⟨_, _, he⟩ | ⟨_, he, _⟩ | ⟨_, he, _⟩
    case inl =>
      obtain ⟨_, hq⟩ := Channel.tryRecv_eq_some hc
      rw [hb] at hq
      exact nomatch hq
    case inr.inl =>
      rw [he]
      cases ha : afterJito S E reads w isLeader
      case ok      => exact canEnd_idle rfl
      case error f => exact canEnd_error fun hf => hr <| hf ▸ ha
    all_goals cases he.symm.trans hg
  case waited j phase todo r ms ht hr _ ih =>
    subst hj
    have hs' : Threads.step S E c t (.response r) = some { t with jito := ⟨phase, todo⟩ } := by
      simp [Threads.step, ht, hr]
    exact .head hs' <| ih hs (respond_live hr).right hb hn rfl
  case sent j m todo ms ht _ ih =>
    subst hj
    obtain ⟨channel, hc⟩ : ∃ channel, t.channel.trySend m = some channel := by
      simp [Channel.trySend, hb, jitoCapacity]
    have hs' : Threads.step S E c t .effect =
        some { t with channel := channel, jito := { t.jito with todo := todo } } := by
      simp [Threads.step, Threads.effect, ht, send, receives, hs, hc]
    have hq : channel.buffer = [m] := by rw [(Channel.trySend_eq_some hc).right, hb]; rfl
    refine .head hs' ?_
    refine canEnd_message hs law hq fun w' channel' hu hq' => ?_
    refine ih rfl hg hq' (fun ho => hn ?_) rfl
    obtain ⟨w₁, ho, ha⟩ := ho
    refine ⟨w₁, ?_, ha⟩
    rw [handle_cons, hu]
    exact ho

theorem canEnd_of_alive (law : S.Lawful) (hg : t.jito.ended = false) (hm : t.jito.Sends ms)
    (hn : ¬NoWayOut S E c w isLeader (t.channel.buffer ++ ms)) : CanEnd S E c t := by
  generalize hb : t.channel.buffer = buffer at hn
  induction buffer generalizing t w
  case nil => exact canEnd_of_sends hs law hg hb hm hn
  case cons m buffer ih =>
    refine canEnd_message hs law hb fun w' channel hu hq => ih rfl hg hm hq fun ho => hn ?_
    obtain ⟨w₁, ho, ha⟩ := ho
    refine ⟨w₁, ?_, ha⟩
    rw [List.cons_append, handle_cons, hu]
    exact ho

-- The Jito thread loses its connection and gets nothing but a builder key that it cannot parse.
theorem exists_ended : ∃ t', Reach S E c t t' ∧ t'.jito.ended = true ∧
    t'.scheduler = t.scheduler ∧ t'.cancelled = t.cancelled := by
  generalize hj : t.jito.todo = todo
  induction todo generalizing t
  case nil =>
    have hc : ∀ t : Threads L, t.jito = ⟨.connecting, []⟩ → ∃ t', Reach S E c t t' ∧
        t'.jito.ended = true ∧ t'.scheduler = t.scheduler ∧ t'.cancelled = t.cancelled := by
      intro t hj
      have hr : run S E c t [.response (.builderInfo none 0), .effect] =
          some { t with jito := .panicked } := by
        simp [run, Threads.step, hj, JitoThread.respond, Threads.effect]
      exact ⟨_, reach_run hr, rfl, rfl, rfl⟩
    have hw : ∀ t : Threads L, t.jito = ⟨.sleeping, []⟩ → ∃ t', Reach S E c t t' ∧
        t'.jito.ended = true ∧ t'.scheduler = t.scheduler ∧ t'.cancelled = t.cancelled := by
      intro t hj
      obtain ⟨t', hr, h⟩ := hc { t with jito := ⟨.connecting, []⟩ } rfl
      refine ⟨t', hr.head (e := .response .slept) ?_, h⟩
      simp [Threads.step, hj, JitoThread.respond]
    obtain ⟨⟨phase, todo⟩, channel, scheduler, cancelled⟩ := t
    subst hj
    cases phase
    case connecting => exact hc _ rfl
    case sleeping   => exact hw _ rfl
    case stopped | panicked => exact ⟨_, .refl, rfl, rfl, rfl⟩
    case subscribing | streaming =>
      obtain ⟨t', hr, h⟩ := hw ⟨⟨.sleeping, []⟩, channel, scheduler, cancelled⟩ rfl
      refine ⟨t', hr.head (e := .response .failure) ?_, h⟩
      simp [Threads.step, JitoThread.respond]
  case cons effect todo ih =>
    have hs' : ∃ t₁, Threads.step S E c t .effect = some t₁ ∧ t₁.scheduler = t.scheduler ∧
        t₁.cancelled = t.cancelled ∧ (t₁.jito.ended = true ∨ t₁.jito.todo = todo) := by
      cases effect
      case panic =>
        refine ⟨{ t with jito := .panicked }, ?_, rfl, rfl, .inl rfl⟩
        simp [Threads.step, Threads.effect, hj]
      case send m =>
        refine ⟨t.send m todo, by simp [Threads.step, Threads.effect, hj], ?_⟩
        unfold send
        split
        case h_1 => exact ⟨rfl, rfl, .inr rfl⟩
        case h_2 => exact ⟨rfl, rfl, .inl rfl⟩
    obtain ⟨t₁, h₁, hs₁, hc₁, hj₁⟩ := hs'
    rcases hj₁ with hg | ht
    case inl => exact ⟨t₁, .step .refl h₁, hg, hs₁, hc₁⟩
    case inr =>
      obtain ⟨t', hr, hg, hs', hc'⟩ := ih (hs₁.trans hs) ht
      exact ⟨t', hr.head h₁, hg, hs'.trans hs₁, hc'.trans hc₁⟩

theorem canEnd_draining (law : S.Lawful) (hj : ¬Jammed S E c t) (ht : ¬Trapped S E c t) :
    CanEnd S E c t := by
  cases hg : t.jito.ended
  case true  => exact canEnd_of_ended hs law hg hj
  case false =>
    cases hc : t.cancelled
    case true =>
      obtain ⟨ms, hm, hn⟩ : ∃ ms, t.jito.Sends ms ∧
          ¬NoWayOut S E c w isLeader (t.channel.buffer ++ ms) := by
        by_contra h
        refine ht ⟨hc, hg, w, isLeader, hs, fun ms hm => ?_⟩
        by_contra hn
        exact h ⟨ms, hm, hn⟩
      exact canEnd_of_alive hs law hg hm hn
    case false =>
      obtain ⟨t', hr, hg', hs', hc'⟩ := exists_ended (S := S) (E := E) (c := c) hs
      refine .of_reach hr <| canEnd_of_ended (hs'.trans hs) law hg' fun hj' => ?_
      cases hj'.left.symm.trans <| hc'.trans hc

end Draining

theorem canEnd (law : S.Lawful) (hh : t.scheduler ≠ .spinning) (hj : ¬Jammed S E c t)
    (ht : ¬Trapped S E c t) : CanEnd S E c t := by
  cases hs : t.scheduler
  case starting =>
    have hs' : Threads.step S E c t .timeout = some { t with scheduler := .failed } := by
      simp [Threads.step, hs]
    exact .head hs' <| canEnd_of_gone rfl
  case idle     => exact canEnd_idle hs
  case draining => exact canEnd_draining hs law hj ht
  case spinning => exact absurd hs hh
  case stopped | failed | panicked => exact canEnd_of_gone <| by simp [receives, hs]

-- From here on, the scheduler thread never ends.
def Stuck (S : Scheduler L) (E : Env) (c : Setup L) (t : Threads L) : Prop :=
  t.scheduler = .spinning ∨ Jammed S E c t ∨ Trapped S E c t

theorem Stuck.receives (h : Stuck S E c t) : t.receives = true := by
  rcases h with hs | ⟨_, _, _, _, _, hs, _⟩ | ⟨_, _, _, _, hs, _⟩
  all_goals simp [Threads.receives, hs]

theorem spinning_turn (hs : t.scheduler = .spinning) (h : Turn S E c t came t') :
    t'.scheduler = .spinning := by
  cases h
  case waited | panic | stopJito | cancel | sent => exact hs
  case failed hs' | start hs' _ | quiet hs' _ | beginPoll hs' _ | receive hs' | stop hs' _ =>
    cases hs.symm.trans hs'

theorem Jammed.turn (ht : t.jito.todo = []) (hj : Jammed S E c t) (h : Turn S E c t came t') :
    Jammed S E c t' := by
  obtain ⟨hx, hg, w, isLeader, w', hs, hm⟩ := hj
  cases h
  case waited hr  => cases (respond_live hr).left.symm.trans hg
  case panic      => exact ⟨hx, rfl, w, isLeader, w', hs, hm⟩
  case stopJito   => exact ⟨hx, rfl, w, isLeader, w', hs, hm⟩
  case cancel     => exact ⟨rfl, hg, w, isLeader, w', hs, hm⟩
  case sent hj _ _ =>
    rw [ht] at hj
    exact nomatch hj
  case receive hs' =>
    cases hs.symm.trans hs'
    rcases receive_cases S E c _ t w isLeader with
      ⟨m, channel, hc, he⟩ | ⟨_, hg', _⟩ | ⟨_, _, _, he⟩ | ⟨_, _, hx', _⟩
    case inl =>
      obtain ⟨_, hq⟩ := Channel.tryRecv_eq_some hc
      rw [hq, handle_cons] at hm
      obtain ⟨w₁, hu, hm⟩ := bind_eq_ok.mp hm
      rw [he, hu]
      exact ⟨hx, hg, w₁, isLeader, w', rfl, hm⟩
    case inr.inl     => cases hg'.symm.trans hg
    case inr.inr.inl =>
      rw [he]
      exact ⟨hx, hg, w, isLeader, w', hs, hm⟩
    case inr.inr.inr => cases hx'.symm.trans hx
  case failed hs' | start hs' _ | quiet hs' _ | beginPoll hs' _ | stop hs' _ =>
    cases hs.symm.trans hs'

-- What is on the channel does not make the scheduler stop.
theorem Trapped.jammed {j : JitoThread} (ht : Trapped S E c t) (hj : j.ended = true) :
    Jammed S E c { t with jito := j } := by
  obtain ⟨hx, _, w, isLeader, hs, hm⟩ := ht
  obtain ⟨w', hw, _⟩ := hm [] .nil
  rw [List.append_nil] at hw
  exact ⟨hx, hj, w, isLeader, w', hs, hw⟩

theorem Trapped.turn (ht : Trapped S E c t) (h : Turn S E c t came t') : Stuck S E c t' := by
  have ⟨hx, hg, w, isLeader, hs, hm⟩ := ht
  cases h
  case waited hj hr =>
    refine .inr <| .inr ⟨hx, (respond_live hr).right, w, isLeader, hs, fun ms hs => ?_⟩
    exact hm ms <| .waited hj hr hs
  case panic    => exact .inr <| .inl <| ht.jammed rfl
  case stopJito => exact .inr <| .inl <| ht.jammed rfl
  case cancel   => exact .inr <| .inr ⟨rfl, hg, w, isLeader, hs, hm⟩
  case sent m todo channel hj _ hc =>
    refine .inr <| .inr ⟨hx, hg, w, isLeader, hs, fun ms hs => ?_⟩
    have hn := hm (m :: ms) <| .sent hj hs
    rw [List.append_cons] at hn
    rw [(Channel.trySend_eq_some hc).right]
    exact hn
  case receive hs' =>
    cases hs.symm.trans hs'
    rcases receive_cases S E c _ t w isLeader with
      ⟨m, channel, hc, he⟩ | ⟨hb, _, he⟩ | ⟨_, hg', _⟩ | ⟨_, hg', _⟩
    case inl =>
      obtain ⟨_, hq⟩ := Channel.tryRecv_eq_some hc
      obtain ⟨w₁, hu⟩ : ∃ w₁, S.onJitoUpdate E w (m.update c.parse) = .ok w₁ := by
        obtain ⟨_, hw, _⟩ := hm [] .nil
        rw [hq, List.append_nil, handle_cons] at hw
        obtain ⟨w₁, hu, _⟩ := bind_eq_ok.mp hw
        exact ⟨w₁, hu⟩
      rw [he, hu]
      refine .inr <| .inr ⟨hx, hg, w₁, isLeader, rfl, fun ms hs => ?_⟩
      obtain ⟨w', hw, ha⟩ := hm ms hs
      rw [hq, List.cons_append, handle_cons, hu] at hw
      exact ⟨w', hw, ha⟩
    case inr.inl =>
      obtain ⟨w', hw, ha⟩ := hm [] .nil
      rw [hb] at hw
      cases hw
      rw [he, ha]
      exact .inl rfl
    all_goals cases hg'.symm.trans hg
  case failed hs' | start hs' _ | quiet hs' _ | beginPoll hs' _ | stop hs' _ =>
    cases hs.symm.trans hs'

theorem Stuck.turn (hg : t.jito.ended = true → t.jito.todo = []) (hs : Stuck S E c t)
    (h : Turn S E c t came t') : Stuck S E c t' := by
  rcases hs with hs | hj | ht
  · exact .inl <| spinning_turn hs h
  · exact .inr <| .inl <| hj.turn (hg hj.right.left) h
  · exact ht.turn h

theorem Stuck.reach (h : Reach S E c (initial : Threads L) t) (hs : Stuck S E c t)
    (hr : Reach S E c t t') : Stuck S E c t' ∧ Reach S E c initial t' := by
  induction hr
  case refl       => exact ⟨hs, h⟩
  case step h' ih =>
    obtain ⟨ih, hr⟩ := ih
    exact ⟨ih.turn (todo_of_ended hr) <| turn_of_step h', .step hr h'⟩

-- The threads can come to an end from wherever they get, unless the scheduler is in a loop for good,
-- in `schedule_checks` or in `drain_jito`, or is bound to get into one of the two; then they never do.
theorem canEnd_iff {locks : L} (hS : S.Known locks) (h : Reach S E c (initial : Threads L) t) :
    CanEnd S E c t ↔ ¬(t.scheduler = .spinning ∨ Jammed S E c t ∨ Trapped S E c t) := by
  constructor
  case mp =>
    rintro ⟨t', hr, _, hg⟩ hs
    cases hg.symm.trans (Stuck.reach h hs hr).left.receives
  case mpr =>
    intro hn
    rw [not_or, not_or] at hn
    exact canEnd hS.lawful hn.left hn.right.left hn.right.right

-- The shutdown begins while the scheduler is in `drain_jito`.
def Sample.jam : List ThreadEvent :=
  [.response (.builderInfo (some 5) 0), .effect, .start (Sample.progress false 0 0) 0,
    .beginPoll ⟨none, [], [], ⟨[], true⟩, false, fun _ => 0⟩, .cancel, .stopJito]

theorem canEnd_iff_jam :
    ∃ t, run BatchScheduler.scheduler Sample.env Sample.setup initial Sample.jam = some t ∧
      t.jito.phase = .stopped ∧ ¬CanEnd BatchScheduler.scheduler Sample.env Sample.setup t := by
  have hr : ∃ w, run BatchScheduler.scheduler Sample.env Sample.setup initial Sample.jam =
      some ⟨⟨.stopped, []⟩, ⟨[.builderConfig 5 0], [], Nat.zero_le _⟩, .draining w false, true⟩ :=
    ⟨_, rfl⟩
  obtain ⟨w, hr⟩ := hr
  refine ⟨_, hr, rfl, fun hc => ?_⟩
  exact (canEnd_iff .batch <| reach_run hr).mp hc <| .inr <| .inl ⟨rfl, rfl, w, false, w, rfl, rfl⟩

end Threads
