import SchedArchive.Lib.Channel
import SchedArchive.Threads.Jito

-- The threads of a scheduler: the one that polls, the one of the block engine, and between them a
-- channel and the token that is cancelled for a shutdown. They take their steps in any order.

-- `crossbeam_channel::bounded(1024)`.
def jitoCapacity : Nat := 1024

inductive SchedulerThread (L : Type)
  -- `new_with_jito` waits for the first message.
  | starting
  | idle (w : World L)
  -- In the loop of `drain_jito`; whether the leader was ready is known from before.
  | draining (w : World L) (isLeader : Bool)
  | stopped (w : World L)
  -- `new_with_jito` found no message in time, or another one first.
  | failed
  | panicked (f : Fault)
  -- In a loop that never ends. The thread is still there, and the receiving end with it.
  | spinning

structure Threads (L : Type) where
  jito      : JitoThread
  channel   : Channel Message jitoCapacity
  scheduler : SchedulerThread L
  cancelled : Bool

-- The acts of a session that the scheduler thread has no part in or takes between two polls.
def Act.IsQuiet : Act → Prop
  | poll _ | put _ => False
  | _              => True

instance : DecidablePred Act.IsQuiet
  | .poll _ | .put _ => isFalse id
  | .clock _ | .workerReads _ | .setRuntimeConfig _ | .updateBasePrices _ => isTrue trivial

inductive ThreadEvent
  -- The Jito thread: it has waited, does the next of what is left to do, or is cancelled.
  | response (response : JitoThread.Response)
  | effect
  | stopJito
  -- The scheduler thread: it receives its first message or none in time, takes a round of its loop
  -- up to `drain_jito`, a round of the loop there, or leaves its own. The last round in `drain_jito`
  -- goes on to the end of the poll; meanwhile the check worker reads its requests.
  | start (progress : ProgressMessage) (now : Nat)
  | timeout
  | quiet (act : Act)
  | beginPoll (input : Scheduler.PollInput)
  | receive (checkReads : Nat → Nat)
  | stopScheduler
  | cancel

-- What a scheduler is created with besides the first message.
structure Setup (L : Type) where
  args  : RuntimeUpdate
  locks : L
  parse : Bytes → Packet

namespace Threads

variable {L : Type} (S : Scheduler L) (E : Env) (c : Setup L)

def initial : Threads L where
  jito      := ⟨.connecting, []⟩
  channel   := .empty Message jitoCapacity
  scheduler := .starting
  cancelled := false

-- The receiving end is dropped with the scheduler.
def receives (t : Threads L) : Bool :=
  match t.scheduler with
  | .starting | .idle _ | .draining _ _ | .spinning => true
  | .stopped _ | .failed | .panicked _              => false

-- `try_send(..).unwrap()`.
def send (t : Threads L) (m : Message) (todo : List JitoThread.Effect) : Threads L :=
  match t.receives, t.channel.trySend m with
  | true, some channel => { t with channel := channel, jito := { t.jito with todo := todo } }
  | _, _               => { t with jito := .panicked }

def effect (t : Threads L) : Option (Threads L) :=
  match t.jito.todo with
  | []              => none
  | .panic :: _     => some { t with jito := .panicked }
  | .send m :: todo => some <| t.send m todo

-- `new_with_jito`, given the first message.
def created (progress : ProgressMessage) (now : Nat) : Message → SchedulerThread L
  | .builderConfig key _ => .idle <| Scheduler.newWithJito c.args key progress now c.locks
  | _                    => .failed

def start (t : Threads L) (progress : ProgressMessage) (now : Nat) : Option (Threads L) :=
  t.channel.tryRecv.map fun x => { t with channel := x.2, scheduler := created c progress now x.1 }

-- The rest of `poll` after `drain_jito`.
def afterJito (checkReads : Nat → Nat) (w : World L) (isLeader : Bool) :
    Except Fault (World L) := do
  let w ← S.scheduleChecks E checkReads w
  if isLeader then
    let w ← S.scheduleExecute E w
    return Scheduler.restartRecheck w
  else
    return w

def outcome {α : Type} (next : α → SchedulerThread L) : Except Fault α → SchedulerThread L
  | .ok a        => next a
  | .error .hang => .spinning
  | .error f     => .panicked f

-- A round of the loop of `drain_jito`. A channel that is empty ends the loop if its sender is still
-- there; if the sender is gone, the loop goes on for good once the shutdown has begun.
def receive (checkReads : Nat → Nat) (t : Threads L) (w : World L) (isLeader : Bool) :
    Threads L :=
  match t.channel.tryRecv with
  | some (m, channel) => { t with
    channel   := channel
    scheduler := outcome (.draining · isLeader) <| S.onJitoUpdate E w (m.update c.parse) }
  | none =>
    if !t.jito.ended then { t with scheduler := outcome .idle <| afterJito S E checkReads w isLeader }
    else if t.cancelled then t
    else { t with scheduler := .panicked .jitoDisconnected }

def beginPoll (t : Threads L) (w : World L) (input : Scheduler.PollInput) : Threads L :=
  { t with scheduler := outcome (fun w' => .draining w' w'.progress.leaderReady) <|
      S.beforeJito E w input }

-- One step of one of the threads, or `none` where it is not its turn.
def step (t : Threads L) : ThreadEvent → Option (Threads L)
  | .response r =>
    if t.jito.todo = [] then
      (JitoThread.respond t.jito.phase r).map fun x => { t with jito := ⟨x.1, x.2⟩ }
    else
      none
  | .effect => t.effect
  | .stopJito =>
    if t.cancelled ∧ t.jito.todo = [] ∧ t.jito.ended = false then
      some { t with jito := ⟨.stopped, []⟩ }
    else
      none
  | .start progress now =>
    match t.scheduler with
    | .starting => t.start c progress now
    | _         => none
  | .timeout =>
    match t.scheduler with
    | .starting => some { t with scheduler := .failed }
    | _         => none
  | .quiet a =>
    match t.scheduler with
    | .idle w =>
      if a.IsQuiet then
        some { t with scheduler := outcome (.idle ·.world) <| S.act E ⟨w, []⟩ a }
      else
        none
    | _ => none
  | .beginPoll input =>
    match t.scheduler with
    | .idle w => if t.cancelled then none else some <| beginPoll S E t w input
    | _       => none
  | .receive checkReads =>
    match t.scheduler with
    | .draining w isLeader => some <| receive S E c checkReads t w isLeader
    | _                    => none
  | .stopScheduler =>
    match t.scheduler with
    | .idle w => if t.cancelled then some { t with scheduler := .stopped w } else none
    | _       => none
  | .cancel => some { t with cancelled := true }

-- The threads after any number of steps in any order.
inductive Reach (t : Threads L) : Threads L → Prop
  | refl : Reach t t
  | step {t₁ t' e} : Reach t t₁ → Threads.step S E c t₁ e = some t' → Reach t t'

-- The steps of given events, one after the other.
def run (t : Threads L) (events : List ThreadEvent) : Option (Threads L) :=
  events.foldlM (Threads.step S E c) t

end Threads
