import SchedArchive.Threads.System
import SchedArchive.Theorems.TipConfig
import SchedArchive.Theorems.Termination

-- What holds whatever order the threads take their steps in.

open Except

-- The messages of the block engine that come in with an act.
def Act.arrivals : Act → List JitoUpdate
  | put m      => [m]
  | poll input => input.channel.messages
  | _          => []

-- What the Jito thread makes of a response, whenever it waits for one.
def JitoThread.Response.effects : JitoThread.Response → List JitoThread.Effect
  | .builderInfo (some key) commission => [.send <| .builderConfig key commission]
  | .builderInfo none _                => [.panic]
  | .blockhash hash                    => [.send <| .recentBlockhash hash]
  | .tipConfig data                    => onTipConfig data
  | .bundles bs                        => onBundles bs
  | .packets batch                     => onPackets batch
  | .subscribed | .failure | .slept    => []

def ThreadEvent.effects : ThreadEvent → List JitoThread.Effect
  | response r => r.effects
  | _          => []

namespace Scheduler

variable {L : Type} {S : Scheduler L} {E : Env} {s s' : Session L} {w w' : World L} {a : Act}
variable {acts : List Act} {ms : List JitoUpdate}

theorem jitoCalls_snd (h : ms.foldlM (S.onJitoUpdate E) w = .ok w') :
    (S.jitoCalls E w ms).map (·.2) = ms := by
  induction ms generalizing w
  case nil => rfl
  case cons m ms ih =>
    rw [List.foldlM_cons] at h
    obtain ⟨w₁, hm, h⟩ := bind_eq_ok.mp h
    rw [jitoCalls, hm]
    exact congrArg (m :: ·) <| ih h

-- The messages are handled one after the other, then the channel is empty.
theorem drainJito_eq_bind {channel : JitoChannel} {cancelled : Bool} :
    S.drainJito E w channel cancelled = channel.messages.foldlM (S.onJitoUpdate E) w >>= fun w =>
      (S.drainJitoLoop E cancelled channel.connected 1 [] w).getD (.error .hang) := by
  refine (congrArg (Option.getD · _) <| drainJitoLoop_eq (n := 0)).trans ?_
  cases channel.messages.foldlM (S.onJitoUpdate E) w <;> rfl

-- A poll that returns has handled all messages it received.
theorem callsIn_snd (h : S.act E s a = .ok s') :
    (S.callsIn E s a).map (·.2) ++ s'.channel = s.channel ++ a.arrivals := by
  cases a
  case poll input =>
    obtain ⟨w', hp, h⟩ := bind_eq_ok.mp h
    cases h
    rw [poll_eq] at hp
    obtain ⟨w₁, hb, hp⟩ := bind_eq_ok.mp hp
    obtain ⟨w₂, hd, _⟩ := bind_eq_ok.mp hp
    rw [callsIn, hb, List.append_nil]
    rw [drainJito_eq_bind] at hd
    obtain ⟨w₃, hm, _⟩ := bind_eq_ok.mp hd
    exact jitoCalls_snd hm
  all_goals
    cases h
    simp [callsIn, Act.arrivals]

theorem calls_snd (h : S.session E s acts = .ok s') :
    (S.calls E s acts).map (·.2) ++ s'.channel = s.channel ++ acts.flatMap Act.arrivals := by
  induction acts generalizing s
  case nil =>
    cases h
    simp [calls]
  case cons a acts ih =>
    rw [session, List.foldlM_cons] at h
    obtain ⟨s₁, ha, h⟩ := bind_eq_ok.mp h
    rw [calls, ha, List.map_append, List.append_assoc, ih h, ← List.append_assoc, callsIn_snd ha,
      List.flatMap_cons, List.append_assoc]

theorem session_put {us : List JitoUpdate} :
    S.session E s (us.map .put) = .ok { s with channel := s.channel ++ us } := by
  induction us generalizing s
  case nil          => simp [session, pure, Except.pure]
  case cons u us ih => exact ih.trans <| by simp [List.append_assoc]

theorem flatMap_put {us : List JitoUpdate} : (us.map .put).flatMap Act.arrivals = us := by
  rw [List.flatMap_map]
  exact List.flatMap_singleton' us

end Scheduler

namespace Threads

open Scheduler JitoThread

variable {L : Type} {S : Scheduler L} {E : Env} {c : Setup L} {t t' t₁ : Threads L}
variable {e : ThreadEvent} {reads : Nat → Nat}

-- A step of the scheduler thread.
theorem receive_cases (S : Scheduler L) (E : Env) (c : Setup L) (reads : Nat → Nat) (t : Threads L)
    (w : World L) (isLeader : Bool) :
    (∃ m channel, t.channel.tryRecv = some (m, channel) ∧
      receive S E c reads t w isLeader = { t with
        channel   := channel
        scheduler := outcome (.draining · isLeader) <| S.onJitoUpdate E w (m.update c.parse) }) ∨
    (t.channel.buffer = [] ∧ t.jito.ended = false ∧
      receive S E c reads t w isLeader =
        { t with scheduler := outcome .idle <| afterJito S E reads w isLeader }) ∨
    (t.channel.buffer = [] ∧ t.jito.ended = true ∧ t.cancelled = true ∧
      receive S E c reads t w isLeader = t) ∨
    (t.channel.buffer = [] ∧ t.jito.ended = true ∧ t.cancelled = false ∧
      receive S E c reads t w isLeader = { t with scheduler := .panicked .jitoDisconnected }) := by
  unfold receive
  split
  case h_1 m channel hc => exact .inl ⟨m, channel, hc, rfl⟩
  case h_2 hc =>
    have hb := Channel.tryRecv_eq_none_iff.mp hc
    cases hj : t.jito.ended <;> cases hs : t.cancelled <;> simp [hb]

theorem respond_eq {phase phase' : JitoThread.Phase} {r : JitoThread.Response}
    {todo : List JitoThread.Effect} (hr : JitoThread.respond phase r = some (phase', todo)) :
    todo = r.effects := by
  fun_cases JitoThread.respond phase r
  all_goals simp [JitoThread.respond] at hr
  all_goals simp [JitoThread.Response.effects, hr]

theorem respond_live {j : JitoThread} {phase : JitoThread.Phase} {r : JitoThread.Response}
    {todo : List JitoThread.Effect} (hr : JitoThread.respond j.phase r = some (phase, todo)) :
    j.ended = false ∧ (⟨phase, todo⟩ : JitoThread).ended = false := by
  obtain ⟨phase₁, _⟩ := j
  fun_cases JitoThread.respond phase₁ r
  all_goals simp [JitoThread.respond] at hr
  all_goals simp [JitoThread.ended, ← hr.left]

-- What a step of one of the threads can be, and what it gives the Jito thread to do. `send` is told
-- apart by whether the message went out.
inductive Turn (S : Scheduler L) (E : Env) (c : Setup L) (t : Threads L) :
    List JitoThread.Effect → Threads L → Prop
  | waited {phase todo r} :
    t.jito.todo = [] → JitoThread.respond t.jito.phase r = some (phase, todo) →
    Turn S E c t todo { t with jito := ⟨phase, todo⟩ }
  | panic : Turn S E c t [] { t with jito := .panicked }
  | stopJito :
    t.cancelled = true → t.jito.todo = [] → t.jito.ended = false →
    Turn S E c t [] { t with jito := ⟨.stopped, []⟩ }
  | sent {m todo channel} :
    t.jito.todo = .send m :: todo → t.receives = true → t.channel.trySend m = some channel →
    Turn S E c t [] { t with channel := channel, jito := { t.jito with todo := todo } }
  | cancel : Turn S E c t [] { t with cancelled := true }
  | failed : t.scheduler = .starting → Turn S E c t [] { t with scheduler := .failed }
  | start {m channel progress now} :
    t.scheduler = .starting → t.channel.tryRecv = some (m, channel) →
    Turn S E c t [] { t with channel := channel, scheduler := created c progress now m }
  | quiet {w a} :
    t.scheduler = .idle w → a.IsQuiet →
    Turn S E c t [] { t with scheduler := outcome (.idle ·.world) <| S.act E ⟨w, []⟩ a }
  | beginPoll {w input} :
    t.scheduler = .idle w → t.cancelled = false → Turn S E c t [] (beginPoll S E t w input)
  | receive {reads w isLeader} :
    t.scheduler = .draining w isLeader → Turn S E c t [] (receive S E c reads t w isLeader)
  | stop {w} :
    t.scheduler = .idle w → t.cancelled = true →
    Turn S E c t [] { t with scheduler := .stopped w }

variable {came : List JitoThread.Effect}

theorem turn_of_step (h : Threads.step S E c t e = some t') : Turn S E c t e.effects t' := by
  cases e
  case response r =>
    simp only [Threads.step] at h
    split at h
    case isTrue ht =>
      obtain ⟨⟨phase, todo⟩, hr, rfl⟩ := Option.map_eq_some_iff.mp h
      rw [ThreadEvent.effects, ← respond_eq hr]
      exact .waited ht hr
    case isFalse => exact nomatch h
  case effect =>
    simp only [Threads.step, effect] at h
    split at h
    case h_1 => exact nomatch h
    case h_2 =>
      cases h
      exact .panic
    case h_3 m todo ht =>
      cases h
      unfold send
      split
      case h_1 channel hr hc => exact .sent ht hr hc
      case h_2 => exact .panic
  case stopJito =>
    simp only [Threads.step] at h
    split at h
    case isTrue hc =>
      cases h
      exact .stopJito hc.left hc.right.left hc.right.right
    case isFalse => exact nomatch h
  case start =>
    simp only [Threads.step] at h
    split at h
    case h_2 => exact nomatch h
    case h_1 hs =>
      obtain ⟨x, hc, rfl⟩ := Option.map_eq_some_iff.mp h
      exact .start hs hc
  case timeout =>
    simp only [Threads.step] at h
    split at h
    case h_2 => exact nomatch h
    case h_1 hs =>
      cases h
      exact .failed hs
  case quiet a =>
    simp only [Threads.step] at h
    split at h
    case h_2 => exact nomatch h
    case h_1 w hs =>
      split at h
      case isFalse => exact nomatch h
      case isTrue ha =>
        cases h
        exact .quiet hs ha
  case beginPoll =>
    simp only [Threads.step] at h
    split at h
    case h_2 => exact nomatch h
    case h_1 w hs =>
      split at h
      case isTrue => exact nomatch h
      case isFalse hc =>
        cases h
        exact .beginPoll hs <| by simpa using hc
  case receive =>
    simp only [Threads.step] at h
    split at h
    case h_2 => exact nomatch h
    case h_1 hs =>
      cases h
      exact .receive hs
  case stopScheduler =>
    simp only [Threads.step] at h
    split at h
    case h_2 => exact nomatch h
    case h_1 hs =>
      split at h
      case isFalse => exact nomatch h
      case isTrue hc =>
        cases h
        exact .stop hs hc
  case cancel =>
    cases h
    exact .cancel

-- Receiving leaves what was sent as it is, and the Jito thread too.
theorem sent_receive {w : World L} {isLeader : Bool} :
    (receive S E c reads t w isLeader).channel.sent = t.channel.sent ∧
      (receive S E c reads t w isLeader).jito = t.jito := by
  rcases receive_cases S E c reads t w isLeader with
    ⟨m, channel, hc, he⟩ | ⟨_, _, he⟩ | ⟨_, _, _, he⟩ | ⟨_, _, _, he⟩
  case inl => exact ⟨he ▸ Channel.sent_tryRecv hc, by rw [he]⟩
  all_goals exact ⟨by rw [he], by rw [he]⟩

-- The Jito thread has no connection, or got one just now and is about to pass on the builder.
def Away (phase : JitoThread.Phase) (todo : List JitoThread.Effect) : Prop :=
  (todo = [] ∧ phase ∈ [.connecting, .sleeping, .stopped, .panicked]) ∨
  ∃ effect, todo = [effect] ∧
    ∀ m, effect = .send m → ∃ key commission, m = .builderConfig key commission

theorem respond_away {phase phase' : JitoThread.Phase} {r : JitoThread.Response}
    {todo : List JitoThread.Effect} (hp : phase ∈ [.connecting, .sleeping, .stopped, .panicked])
    (hr : JitoThread.respond phase r = some (phase', todo)) : Away phase' todo := by
  fun_cases JitoThread.respond phase r
  case case1 key commission =>
    cases hr
    refine .inr ⟨_, rfl, fun m hm => ?_⟩
    cases hm
    exact ⟨key, commission, rfl⟩
  case case2 =>
    cases hr
    exact .inr ⟨_, rfl, by simp⟩
  all_goals simp [JitoThread.respond] at hp hr
  all_goals simp [Away, ← hr.left, ← hr.right]

-- The Jito thread has sent a block builder before anything else, or is about to.
structure BuilderFirst (t : Threads L) : Prop where
  sent   : ∀ m ∈ t.channel.sent.head?, ∃ key commission, m = .builderConfig key commission
  unsent : t.channel.sent = [] → Away t.jito.phase t.jito.todo

theorem BuilderFirst.congr (b : BuilderFirst t) (hs : t'.channel.sent = t.channel.sent)
    (hj : t'.jito = t.jito) : BuilderFirst t' where
  sent   := hs ▸ b.sent
  unsent := by
    rw [hs, hj]
    exact b.unsent

theorem BuilderFirst.turn (b : BuilderFirst t) (h : Turn S E c t came t') : BuilderFirst t' := by
  cases h
  case waited phase r ht hr =>
    refine ⟨b.sent, fun hs => ?_⟩
    rcases b.unsent hs with ⟨_, hp⟩ | ⟨effect, he, _⟩
    · exact respond_away hp hr
    · simp [he] at ht
  case panic => exact ⟨b.sent, fun _ => .inl ⟨rfl, by simp [JitoThread.panicked]⟩⟩
  case stopJito => exact ⟨b.sent, fun _ => .inl ⟨rfl, by simp⟩⟩
  case sent m todo channel ht _ hc =>
    have hs : channel.sent = t.channel.sent ++ [m] := Channel.sent_trySend hc
    refine ⟨?_, fun hn => by simp [hs] at hn⟩
    change ∀ m ∈ channel.sent.head?, _
    rw [hs]
    by_cases hn : t.channel.sent = []
    case neg =>
      rw [List.head?_append_of_ne_nil _ hn]
      exact b.sent
    case pos =>
      rcases b.unsent hn with ⟨hj, _⟩ | ⟨effect, hj, hb⟩
      · simp [hj] at ht
      · rw [hj] at ht
        cases ht
        simpa [hn] using hb m rfl
  case start hc   => exact b.congr (Channel.sent_tryRecv hc) rfl
  case receive    => exact b.congr sent_receive.left sent_receive.right
  case cancel | failed | quiet | beginPoll | stop => exact b.congr rfl rfl

theorem builderFirst (h : Reach S E c (initial : Threads L) t) : BuilderFirst t := by
  induction h
  case refl        => exact ⟨by simp [initial], fun _ => .inl ⟨rfl, by simp [initial]⟩⟩
  case step h₁ ih  => exact ih.turn <| turn_of_step h₁

-- The scheduler as `new_with_jito` creates it.
def created₀ (c : Setup L) (key : Pubkey) (progress : ProgressMessage) (now : Nat) : Session L :=
  ⟨newWithJito c.args key progress now c.locks, []⟩

-- The acts of a session, from `new_with_jito` on, and `new` are all that the messages sent so far have
-- led to. The first message names the block builder.
def Played (S : Scheduler L) (E : Env) (c : Setup L) (ms : List Message) (acts : List Act)
    (new : List JitoUpdate) (x : Except Fault (Session L)) : Prop :=
  ∃ key commission progress now,
    ms.head? = some (.builderConfig key commission) ∧
    S.session E (created₀ c key progress now) acts = x ∧
    ms.tail.map (·.update c.parse) = acts.flatMap Act.arrivals ++ new

variable {ms : List Message} {acts : List Act} {new : List JitoUpdate} {m : Message} {a : Act}
variable {x : Except Fault (Session L)} {s s' : Session L}

theorem Played.ne_nil (h : Played S E c ms acts new x) : ms ≠ [] := by
  obtain ⟨_, _, _, _, hs, _⟩ := h
  rintro rfl
  exact nomatch hs

theorem Played.sent (h : Played S E c ms acts new x) :
    Played S E c (ms ++ [m]) acts (new ++ [m.update c.parse]) x := by
  have hn := h.ne_nil
  obtain ⟨key, commission, progress, now, hs, hx, ha⟩ := h
  refine ⟨key, commission, progress, now, ?_, hx, ?_⟩
  · rw [List.head?_append_of_ne_nil _ hn, hs]
  · rw [List.tail_append_of_ne_nil hn, List.map_append, ha, List.append_assoc]
    rfl

-- What comes after a panic changes nothing.
theorem Played.act_error {f : Fault} (h : Played S E c ms acts new (.error f)) (ha : a.arrivals = new) :
    Played S E c ms (acts ++ [a]) [] (.error f) := by
  obtain ⟨key, commission, progress, now, hs, hx, hn⟩ := h
  refine ⟨key, commission, progress, now, hs, ?_, ?_⟩
  · rw [session_concat, hx]
    rfl
  · rw [hn, List.flatMap_append, List.flatMap_singleton, ha, List.append_nil]

theorem Played.act (h : Played S E c ms acts new (.ok s)) (ha : a.arrivals = new) :
    Played S E c ms (acts ++ [a]) [] (S.act E s a) := by
  obtain ⟨key, commission, progress, now, hs, hx, hn⟩ := h
  refine ⟨key, commission, progress, now, hs, ?_, ?_⟩
  · rw [session_concat, hx]
    rfl
  · rw [hn, List.flatMap_append, List.flatMap_singleton, ha, List.append_nil]

-- What the scheduler thread has done so far is what a session does, in which every poll is one act;
-- in the middle of a poll, such a session and the first half of its next poll.
def Atomic (S : Scheduler L) (E : Env) (c : Setup L) (channel : Channel Message jitoCapacity) :
    SchedulerThread L → Prop
  | .starting | .failed  => channel.received = []
  | .idle w | .stopped w => ∃ acts, Played S E c channel.sent acts []
    (.ok ⟨w, channel.buffer.map (·.update c.parse)⟩)
  | .draining w isLeader => ∃ acts new s input w₁ handled,
    Played S E c channel.sent acts new (.ok s) ∧
    S.beforeJito E s.world input = .ok w₁ ∧ isLeader = w₁.progress.leaderReady ∧
    handled.foldlM (S.onJitoUpdate E) w₁ = .ok w ∧
    s.channel ++ new = handled ++ channel.buffer.map (·.update c.parse)
  | .panicked f          => ∃ acts, Played S E c channel.sent acts [] (.error f)
  | .spinning            => ∃ acts, Played S E c channel.sent acts [] (.error .hang)

theorem atomic_error {α : Type} {next : α → SchedulerThread L} {f : Fault}
    {channel : Channel Message jitoCapacity} (h : Played S E c channel.sent acts [] (.error f)) :
    Atomic S E c channel (outcome next (.error f)) := by
  cases f
  all_goals exact ⟨acts, h⟩

theorem Atomic.sent {channel : Channel Message jitoCapacity} (h : Atomic S E c t.channel t.scheduler)
    (hr : t.receives = true) (hc : t.channel.trySend m = some channel) :
    Atomic S E c channel t.scheduler := by
  obtain ⟨hv, hb⟩ := Channel.trySend_eq_some hc
  have hs := Channel.sent_trySend hc
  rw [receives] at hr
  split at hr
  case h_1 he =>
    rw [he] at h ⊢
    exact hv.trans h
  case h_2 w he =>
    rw [he] at h ⊢
    obtain ⟨acts, h⟩ := h
    refine ⟨acts ++ [.put <| m.update c.parse], ?_⟩
    rw [hs, hb, List.map_append]
    exact h.sent.act rfl
  case h_3 w isLeader he =>
    rw [he] at h ⊢
    obtain ⟨acts, new, s, input, w₁, handled, h, hw, hl, hm, hq⟩ := h
    refine ⟨acts, new ++ [m.update c.parse], s, input, w₁, handled, ?_, hw, hl, hm, ?_⟩
    · rw [hs]
      exact h.sent
    · rw [hb, List.map_append, ← List.append_assoc, hq, List.append_assoc]
      rfl
  case h_4 he =>
    rw [he] at h ⊢
    obtain ⟨acts, h⟩ := h
    refine ⟨acts ++ [.put <| m.update c.parse], ?_⟩
    rw [hs]
    exact h.sent.act_error rfl
  case h_5 | h_6 | h_7 => exact nomatch hr

theorem atomic_quiet {channel : Channel Message jitoCapacity} {w : World L} (ha : a.IsQuiet)
    (h : Atomic S E c channel (.idle w)) :
    Atomic S E c channel (outcome (.idle ·.world) <| S.act E ⟨w, []⟩ a) := by
  obtain ⟨acts, h⟩ := h
  have hn : a.arrivals = [] := by
    cases a
    case poll | put => exact ha.elim
    all_goals rfl
  have h := h.act hn
  cases a
  case poll | put => exact ha.elim
  all_goals exact ⟨_, h⟩

variable {input : PollInput} {w w₁ : World L} {u : JitoUpdate} {us : List JitoUpdate} {f : Fault}
variable {connected cancelled isLeader : Bool}

theorem drainJito_eq_foldlM (hc : connected = true ∨ cancelled = false) :
    S.drainJito E w ⟨us, connected⟩ cancelled = (do
      let w ← us.foldlM (S.onJitoUpdate E) w
      require (connected = true) .jitoDisconnected
      return w) := by
  rw [drainJito_eq_bind]
  refine bind_congr fun w => ?_
  cases connected <;> cases cancelled <;> first | rfl | simp at hc

-- The poll that is under way, when it receives nothing but `new` any more.
def ending (input : PollInput) (new : List JitoUpdate) (connected : Bool) (reads : Nat → Nat) : Act :=
  .poll { input with channel := ⟨new, connected⟩, cancelled := false, checkReads := reads }

theorem act_ending : S.act E s (ending input new connected reads) = (do
    let w₁ ← S.beforeJito E s.world input
    let w ← (s.channel ++ new).foldlM (S.onJitoUpdate E) w₁
    require (connected = true) .jitoDisconnected
    let w ← afterJito S E reads w w₁.progress.leaderReady
    return ⟨w, []⟩) := by
  have hd (w : World L) : S.drainJito E w ⟨s.channel ++ new, connected⟩ false = _ :=
    drainJito_eq_foldlM <| .inr rfl
  rw [ending, Scheduler.act, poll_eq, bind_assoc]
  refine bind_congr fun w₁ => ?_
  rw [bind_assoc, received, hd, bind_assoc]
  refine bind_congr fun w => ?_
  rw [bind_assoc]
  rfl

theorem atomic_beginPoll (h : Atomic S E c t.channel (.idle w)) :
    Atomic S E c t.channel (beginPoll S E t w input).scheduler := by
  obtain ⟨acts, h⟩ := h
  rw [beginPoll]
  cases hb : S.beforeJito E w input
  case ok w₁ => exact ⟨acts, [], _, input, w₁, [], h, hb, rfl, rfl, List.append_nil _⟩
  case error f =>
    have hp := h.act (a := ending input [] true input.checkReads) rfl
    rw [act_ending, hb] at hp
    exact atomic_error hp

theorem atomic_receive (hs : t.scheduler = .draining w isLeader)
    (ha : Atomic S E c t.channel t.scheduler) :
    Atomic S E c (receive S E c reads t w isLeader).channel
      (receive S E c reads t w isLeader).scheduler := by
  have hr := receive_cases S E c reads t w isLeader
  have h := ha
  rw [hs] at h
  obtain ⟨acts, new, s, input, w₁, handled, hp, hb, hl, hm, hq⟩ := h
  rcases hr with ⟨m, channel, hc, he⟩ | ⟨hn, _, he⟩ | ⟨_, _, _, he⟩ | ⟨hn, _, _, he⟩
  all_goals rw [he]
  case inl =>
    obtain ⟨_, hq'⟩ := Channel.tryRecv_eq_some hc
    rw [hq', List.map_cons] at hq
    rw [← Channel.sent_tryRecv hc] at hp
    change Atomic S E c channel _
    cases hu : S.onJitoUpdate E w (m.update c.parse)
    case ok w' =>
      refine ⟨acts, new, s, input, w₁, handled ++ [m.update c.parse], hp, hb, hl, ?_, ?_⟩
      · rw [List.foldlM_append, hm]
        exact bind_eq_ok.mpr ⟨w, rfl, bind_eq_ok.mpr ⟨w', hu, rfl⟩⟩
      · rw [hq, List.append_assoc]
        rfl
    case error f =>
      have hp := hp.act (a := ending input new true reads) rfl
      simp only [act_ending, hb, hq, List.foldlM_append, hm, List.foldlM_cons, hu, bind,
        Except.bind] at hp
      exact atomic_error hp
  case inr.inl =>
    rw [hn, List.map_nil, List.append_nil] at hq
    have hp := hp.act (a := ending input new true reads) rfl
    simp only [act_ending, hb, hq, hm, require, if_pos, bind, Except.bind, ← hl] at hp
    change Atomic S E c t.channel _
    cases hf : afterJito S E reads w isLeader
    case ok w' =>
      rw [hf] at hp
      exact ⟨acts ++ [ending input new true reads], by rw [hn]; exact hp⟩
    case error f =>
      rw [hf] at hp
      exact atomic_error hp
  case inr.inr.inl => exact ha
  case inr.inr.inr =>
    rw [hn, List.map_nil, List.append_nil] at hq
    have hp := hp.act (a := ending input new false reads) rfl
    simp only [act_ending, hb, hq, hm, require, bind, Except.bind] at hp
    exact ⟨_, hp⟩

theorem atomic_start {key : Pubkey} {commission now : Nat} {progress : ProgressMessage}
    {channel : Channel Message jitoCapacity}
    (hc : t.channel.tryRecv = some (.builderConfig key commission, channel))
    (h : t.channel.received = []) :
    Played S E c channel.sent ((channel.buffer.map (·.update c.parse)).map .put) []
      (.ok ⟨newWithJito c.args key progress now c.locks,
        channel.buffer.map (·.update c.parse)⟩) := by
  obtain ⟨_, hq⟩ := Channel.tryRecv_eq_some hc
  have hs : channel.sent = .builderConfig key commission :: channel.buffer := by
    rw [Channel.sent_tryRecv hc, Channel.sent, h, hq]
    rfl
  refine ⟨key, commission, progress, now, ?_, session_put, ?_⟩
  · rw [hs, List.head?_cons]
  · rw [hs, List.tail_cons, flatMap_put, List.append_nil]

theorem Atomic.turn (b : BuilderFirst t) (h : Atomic S E c t.channel t.scheduler)
    (ht : Turn S E c t came t') : Atomic S E c t'.channel t'.scheduler := by
  cases ht
  case waited | panic | stopJito | cancel => exact h
  case sent hr hc => exact h.sent hr hc
  case failed hs =>
    rw [hs] at h
    exact h
  case start m channel progress now hs hc =>
    rw [hs] at h
    obtain ⟨_, hq⟩ := Channel.tryRecv_eq_some hc
    have hm : m ∈ t.channel.sent.head? := by
      rw [Channel.sent, show t.channel.received = [] from h, hq]
      rfl
    obtain ⟨key, commission, rfl⟩ := b.sent m hm
    exact ⟨_, atomic_start hc h⟩
  case quiet hs ha =>
    rw [hs] at h
    exact atomic_quiet ha h
  case beginPoll hs _ =>
    rw [hs] at h
    exact atomic_beginPoll h
  case receive hs => exact atomic_receive hs h
  case stop hs _ =>
    rw [hs] at h
    exact h

-- However the steps of the threads are interleaved, and messages sent in the middle of a poll, the
-- scheduler does what it does in a session of whole polls.
theorem refines_sessions (h : Reach S E c (initial : Threads L) t) :
    Atomic S E c t.channel t.scheduler := by
  induction h
  case refl         => rfl
  case step h h₁ ih => exact ih.turn (builderFirst h) <| turn_of_step h₁

theorem Played.handled {channel : Channel Message jitoCapacity}
    (h : Played S E c channel.sent acts [] (.ok ⟨w, channel.buffer.map (·.update c.parse)⟩)) :
    ∃ key commission progress now,
      channel.received.head? = some (.builderConfig key commission) ∧
      S.session E (created₀ c key progress now) acts =
        .ok ⟨w, channel.buffer.map (·.update c.parse)⟩ ∧
      (S.calls E (created₀ c key progress now) acts).map (·.2) =
        channel.received.tail.map (·.update c.parse) := by
  obtain ⟨key, commission, progress, now, hs, hx, ha⟩ := h
  have hc := calls_snd hx
  rw [List.append_nil] at ha
  rw [← ha, show (created₀ c key progress now).channel = [] from rfl, List.nil_append] at hc
  rw [Channel.sent] at hs hc
  refine ⟨key, commission, progress, now, ?_⟩
  rcases hr : channel.received with _ | ⟨m, ms⟩
  case nil =>
    -- Nothing can be on the channel that has not been sent after the first message.
    rw [hr, List.nil_append] at hs hc
    have hl := congrArg List.length hc
    have hn : channel.buffer ≠ [] := by
      intro hn
      simp [hn] at hs
    have := List.length_pos_iff.mpr hn
    simp at hl
    omega
  case cons =>
    rw [hr] at hs hc
    rw [List.cons_append, List.tail_cons, List.map_append] at hc
    exact ⟨hs, hx, List.append_cancel_right hc⟩

theorem Reach.head (h : Threads.step S E c t e = some t₁) (hr : Reach S E c t₁ t') :
    Reach S E c t t' := by
  induction hr
  case refl       => exact .step .refl h
  case step h' ih => exact ih.step h'

theorem reach_run {events : List ThreadEvent} (h : run S E c t events = some t') :
    Reach S E c t t' := by
  induction events generalizing t
  case nil =>
    cases h
    exact .refl
  case cons e events ih =>
    rw [run, List.foldlM_cons] at h
    obtain ⟨t₁, h₁, h⟩ := Option.bind_eq_some_iff.mp h
    exact .head h₁ <| ih h

-- A thread that is gone has nothing left to do.

theorem todo_turn (hg : t.jito.ended = true → t.jito.todo = []) (ht : Turn S E c t came t')
    (he : t'.jito.ended = true) : t'.jito.todo = [] := by
  cases ht
  case waited hr => cases (respond_live hr).right.symm.trans he
  case panic | stopJito => rfl
  case sent hj _ _ =>
    rw [hg he] at hj
    exact nomatch hj
  case receive =>
    rw [sent_receive.right] at he ⊢
    exact hg he
  case cancel | failed | start | quiet | beginPoll | stop => exact hg he

theorem todo_of_ended (h : Reach S E c (initial : Threads L) t) :
    t.jito.ended = true → t.jito.todo = [] := by
  induction h
  case refl       => exact fun _ => rfl
  case step h' ih => exact todo_turn ih <| turn_of_step h'

-- All that came in was sent, but for what is left of it.
def Left (t : Threads L) (all : List JitoThread.Effect) : Prop :=
  ∃ left, all = t.channel.sent.map .send ++ left ∧ (t.jito.phase ≠ .panicked → left = t.jito.todo)

variable {all : List JitoThread.Effect}

theorem Left.congr (h : Left t all) (hs : t'.channel.sent = t.channel.sent)
    (hj : t'.jito = t.jito) : Left t' all := by
  rw [Left, hs, hj]
  exact h

theorem ended_of_panicked (h : t.jito.phase = .panicked) : t.jito.ended = true := by
  simp [JitoThread.ended, h]

theorem Left.turn (hg : t.jito.ended = true → t.jito.todo = []) (h : Left t all)
    (ht : Turn S E c t came t') : Left t' (all ++ came) := by
  have ⟨left, hc, hl⟩ := h
  cases ht
  case waited hj hr =>
    have hp : t.jito.phase ≠ .panicked := fun hp => by
      cases (ended_of_panicked hp).symm.trans (respond_live hr).left
    rw [hl hp, hj, List.append_nil] at hc
    exact ⟨came, by rw [hc], fun _ => rfl⟩
  all_goals rw [List.append_nil]
  case panic => exact ⟨left, hc, fun hp => absurd rfl hp⟩
  case stopJito hj he =>
    have hp : t.jito.phase ≠ .panicked := fun hp => by
      cases (ended_of_panicked hp).symm.trans he
    exact ⟨left, hc, fun _ => (hl hp).trans hj⟩
  case sent m todo channel hj _ hs =>
    have hp : t.jito.phase ≠ .panicked := fun hp => by
      cases (hg <| ended_of_panicked hp).symm.trans hj
    refine ⟨todo, ?_, fun _ => rfl⟩
    rw [hc, hl hp, hj, Channel.sent_trySend hs, List.map_append, List.append_assoc]
    rfl
  case start hs => exact h.congr (Channel.sent_tryRecv hs) rfl
  case receive  => exact h.congr sent_receive.left sent_receive.right
  case cancel | failed | quiet | beginPoll | stop => exact h.congr rfl rfl

theorem left_run {events : List ThreadEvent} (h : run S E c (initial : Threads L) events = some t) :
    Left t (events.flatMap ThreadEvent.effects) := by
  induction events using List.reverseRecOn generalizing t
  case nil =>
    cases h
    exact ⟨[], rfl, fun _ => rfl⟩
  case append_singleton events e ih =>
    rw [run, List.foldlM_append] at h
    obtain ⟨t₁, h₁, h⟩ := Option.bind_eq_some_iff.mp h
    obtain ⟨t₂, h₂, h⟩ := Option.bind_eq_some_iff.mp h
    cases h
    rw [List.flatMap_append, List.flatMap_singleton]
    exact (ih h₁).turn (todo_of_ended <| reach_run h₁) <| turn_of_step h₂

def Sample.setup : Setup BatchScheduler.InFlightLocks where
  args  := Sample.args
  locks := ∅
  parse := fun _ => none

def Sample.tipData : Bytes :=
  List.replicate 8 0 ++ List.replicate 32 1 ++ List.replicate 32 2

-- A tip configuration and a packet come in while the scheduler is in `drain_jito`.
def Sample.connect : List ThreadEvent :=
  [.response (.builderInfo (some 5) 0), .effect, .start (Sample.progress false 0 0) 0,
    .response .subscribed, .response (.tipConfig (some Sample.tipData)),
    .beginPoll ⟨none, [], [], ⟨[], true⟩, false, fun _ => 0⟩, .effect, .receive fun _ => 0,
    .response (.packets (some [[1, 2, 3]])), .effect, .receive fun _ => 0, .receive fun _ => 0]

theorem refines_sessions_connect :
    ∃ j channel w, run BatchScheduler.scheduler Sample.env Sample.setup initial Sample.connect =
      some ⟨j, channel, .idle w, false⟩ ∧
      Atomic BatchScheduler.scheduler Sample.env Sample.setup channel (.idle w) := by
  have hr : ∃ j channel w, run BatchScheduler.scheduler Sample.env Sample.setup initial
      Sample.connect = some ⟨j, channel, .idle w, false⟩ :=
    ⟨_, _, _, rfl⟩
  obtain ⟨j, channel, w, hr⟩ := hr
  exact ⟨j, channel, w, hr, refines_sessions <| reach_run hr⟩

-- All that has come in over the connections, in order: what the scheduler has handled in the polls of
-- a session, what is on the channel, and what the Jito thread has yet to send. Only when that has
-- panicked may something else be left.
def Delivered (S : Scheduler L) (E : Env) (c : Setup L) (t : Threads L) (w : World L)
    (came : List JitoThread.Effect) : Prop :=
  ∃ key commission progress now acts, ∃ ms : List Message, ∃ left,
    S.session E (created₀ c key progress now) acts =
      .ok ⟨w, t.channel.buffer.map (·.update c.parse)⟩ ∧
    (S.calls E (created₀ c key progress now) acts).map (·.2) = ms.map (·.update c.parse) ∧
    came = (.builderConfig key commission :: ms ++ t.channel.buffer).map .send ++ left ∧
    (t.jito.phase ≠ .panicked → left = t.jito.todo)

theorem delivers_in_order {events : List ThreadEvent}
    (h : run S E c (initial : Threads L) events = some t)
    (hs : t.scheduler = .idle w ∨ t.scheduler = .stopped w) :
    Delivered S E c t w <| events.flatMap ThreadEvent.effects := by
  have ha := refines_sessions <| reach_run h
  have hp : ∃ acts, Played S E c t.channel.sent acts []
      (.ok ⟨w, t.channel.buffer.map (·.update c.parse)⟩) := by
    rcases hs with hs | hs
    all_goals
      rw [hs] at ha
      exact ha
  obtain ⟨acts, hp⟩ := hp
  obtain ⟨key, commission, progress, now, hm, hx, hc⟩ := hp.handled
  obtain ⟨left, he, hl⟩ := left_run h
  refine ⟨key, commission, progress, now, acts, t.channel.received.tail, left, hx, hc, ?_, hl⟩
  rw [he, Channel.sent, List.cons_head?_tail hm]

theorem delivers_in_order_connect :
    ∃ t w, run BatchScheduler.scheduler Sample.env Sample.setup initial Sample.connect = some t ∧
      Delivered BatchScheduler.scheduler Sample.env Sample.setup t w
        (Sample.connect.flatMap ThreadEvent.effects) := by
  have hr : ∃ j channel w, run BatchScheduler.scheduler Sample.env Sample.setup initial
      Sample.connect = some ⟨j, channel, .idle w, false⟩ :=
    ⟨_, _, _, rfl⟩
  obtain ⟨j, channel, w, hr⟩ := hr
  exact ⟨_, w, hr, delivers_in_order hr <| .inl rfl⟩

end Threads
