import SchedArchive.Lib.Latch
import SchedArchive.Scheduler.Run

-- Sessions: calls of `poll` one after the other, between them the clock, the workers, the block
-- engine and changes of the configuration.

inductive Act
  | clock (now : Nat)
  | workerReads (worker : Nat)
  | setRuntimeConfig (update : RuntimeUpdate)
  | updateBasePrices (prices : BasePrices)
  | put (message : JitoUpdate)
  | poll (input : Scheduler.PollInput)

-- `channel` are the messages of the block engine that no poll has received yet.
structure Session (L : Type) where
  world   : World L
  channel : List JitoUpdate

namespace Scheduler

variable {L : Type} (S : Scheduler L) (E : Env)

-- A poll receives what is on the channel when it starts and what is put there until it finds the
-- channel empty.
def received (s : Session L) (input : PollInput) : PollInput :=
  { input with channel := { input.channel with messages := s.channel ++ input.channel.messages } }

def act (s : Session L) : Act → Except Fault (Session L)
  | .clock now               => .ok { s with world := { s.world with now := max s.world.now now } }
  | .workerReads worker      => .ok { s with world := s.world.workerReads worker 1 }
  | .setRuntimeConfig update => .ok { s with world := setRuntimeConfig s.world update }
  | .updateBasePrices prices => .ok { s with world := S.updatePrices s.world prices }
  | .put message             => .ok { s with channel := s.channel ++ [message] }
  | .poll input              => do
    let w ← S.poll E s.world (received s input)
    return ⟨w, []⟩

def session (s : Session L) (acts : List Act) : Except Fault (Session L) :=
  acts.foldlM (S.act E) s

-- What `check_slot_roll` reads as slot and leader state, and whether it goes on to call
-- `become_tip_receiver`. Nothing if it stops before that.
def observe (w : World L) (message : Option ProgressMessage) : Option (Latch.Observation Nat) :=
  match S.rolled E w message with
  | .ok w'   => some
    { slot  := w'.progress.currentSlot
      ready := w'.progress.leaderReady
      fired := w'.progress.leaderReady && !w.slotStats.wasLeaderReady }
  | .error _ => none

def observedIn (s : Session L) : Act → List (Latch.Observation Nat)
  | .poll input => (S.observe E s.world input.message).toList
  | _           => []

-- The observations of the polls of a session, up to the first that panics.
def observations (s : Session L) : List Act → List (Latch.Observation Nat)
  | []        => []
  | a :: acts => S.observedIn E s a ++
    match S.act E s a with
    | .ok s'   => observations s' acts
    | .error _ => []

-- What a poll does before it receives the messages of the block engine.
def beforeJito (w : World L) (input : PollInput) : Except Fault (World L) := do
  let w ← S.checkSlotRoll E w input.message
  let w ← input.answers.foldlM (fun w (r, a) => S.drainWorkerResponse E w r a) w
  let w := S.tick w
  let w ← S.drainTpu E w input.backlog (if w.progress.leaderReady then 128 else 1024)
  return S.dropExpiredBundles w

-- The messages that `drain_jito` handles, each with the state it is handled in.
def jitoCalls (w : World L) : List JitoUpdate → List (World L × JitoUpdate)
  | []      => []
  | m :: ms => (w, m) ::
    match S.onJitoUpdate E w m with
    | .ok w'   => jitoCalls w' ms
    | .error _ => []

def callsIn (s : Session L) : Act → List (World L × JitoUpdate)
  | .poll input =>
    match S.beforeJito E s.world (received s input) with
    | .ok w    => S.jitoCalls E w (received s input).channel.messages
    | .error _ => []
  | _ => []

-- All messages that are handled in a session.
def calls (s : Session L) : List Act → List (World L × JitoUpdate)
  | []        => []
  | a :: acts => S.callsIn E s a ++
    match S.act E s a with
    | .ok s'   => calls s' acts
    | .error _ => []

end Scheduler
