import Mathlib.Data.List.ReduceOption
import SchedArchive.Scheduler.Responses
import SchedArchive.Scheduler.Dispatch

-- Runs of a scheduler: its handlers, in any order, between them the clock and the workers.

structure RuntimeUpdate where
  uncheckedCapacity : Nat
  checkedCapacity   : Nat
  bundleCapacity    : Nat
  runtime           : RuntimeConfig
  deriving DecidableEq

inductive Event
  | clock (now : Nat)
  | workerReads (worker : Nat)
  | setRuntimeConfig (update : RuntimeUpdate)
  | updateBasePrices (prices : BasePrices)
  | checkSlotRoll (message : Option ProgressMessage)
  | workerResponse (request : Request) (action : WorkerAction)
  | processTick
  | drainTpu (backlog : List Packet) (maxCount : Nat)
  | dropExpiredBundles
  | drainJito (channel : Scheduler.JitoChannel) (cancelled : Bool)
  | scheduleChecks (reads : Nat → Nat)
  | scheduleExecute
  | restartRecheck

-- What the bridge promises: only requests in flight are answered, a CHECK by a check response, an
-- EXECUTE by an execution response or not at all.
def Request.Fits (r : Request) : WorkerAction → Prop
  | .check _ _   => r.kind ≠ .execute
  | .execute _   => r.kind = .execute
  | .unprocessed => r.kind = .execute

instance (r : Request) : DecidablePred r.Fits
  | .check _ _   => inferInstanceAs <| Decidable (r.kind ≠ .execute)
  | .execute _   => inferInstanceAs <| Decidable (r.kind = .execute)
  | .unprocessed => inferInstanceAs <| Decidable (r.kind = .execute)

def Event.Enabled {L : Type} (w : World L) : Event → Prop
  | workerResponse r a => r ∈ w.inFlight ∧ r.Fits a
  | _                  => True

instance {L : Type} (w : World L) : DecidablePred (Event.Enabled w)
  | .workerResponse r a => inferInstanceAs <| Decidable (r ∈ w.inFlight ∧ r.Fits a)
  | .clock _ | .workerReads _ | .setRuntimeConfig _ | .updateBasePrices _ | .checkSlotRoll _
  | .processTick | .drainTpu _ _ | .dropExpiredBundles | .drainJito _ _ | .scheduleChecks _
  | .scheduleExecute | .restartRecheck => isTrue trivial

-- The transactions that come in with a message or an event.

def JitoUpdate.brought : JitoUpdate → List Tx
  | packet p => p.toList
  | bundle b => b.reduceOption
  | _        => []

def Event.brought : Event → List Tx
  | drainTpu backlog _  => backlog.reduceOption
  | drainJito channel _ => channel.messages.flatMap JitoUpdate.brought
  | _                   => []

namespace Scheduler

variable {L : Type} (S : Scheduler L) (E : Env)

def setRuntimeConfig (w : World L) (u : RuntimeUpdate) : World L :=
  { w with
    uncheckedCapacity := u.uncheckedCapacity
    checkedCapacity   := u.checkedCapacity
    bundleCapacity    := u.bundleCapacity
    runtime           := u.runtime }

def updatePrices (w : World L) (prices : BasePrices) : World L :=
  { w with locks := S.updateBasePrices w.locks prices }

-- `process_auction_tick`.
def tick (w : World L) : World L :=
  { w with locks := S.processTick w.locks w.progress w.now }

def step (w : World L) : Event → Except Fault (World L)
  | .clock now                   => .ok { w with now := max w.now now }
  | .workerReads worker          => .ok <| w.workerReads worker 1
  | .setRuntimeConfig update     => .ok <| setRuntimeConfig w update
  | .updateBasePrices prices     => .ok <| S.updatePrices w prices
  | .checkSlotRoll message       => S.checkSlotRoll E w message
  | .workerResponse r a          => S.drainWorkerResponse E w r a
  | .processTick                 => .ok <| S.tick w
  | .drainTpu backlog maxCount   => S.drainTpu E w backlog maxCount
  | .dropExpiredBundles          => .ok <| S.dropExpiredBundles w
  | .drainJito channel cancelled => S.drainJito E w channel cancelled
  | .scheduleChecks reads        => S.scheduleChecks E reads w
  | .scheduleExecute             => S.scheduleExecute E w
  | .restartRecheck              => .ok <| restartRecheck w

-- `new_with_jito`.
def newWithJito (args : RuntimeUpdate) (builderKey : Pubkey) (progress : ProgressMessage) (now : Nat)
    (locks : L) : World L where
  toLedger          := .empty locks
  uncheckedCapacity := args.uncheckedCapacity
  checkedCapacity   := args.checkedCapacity
  bundleCapacity    := args.bundleCapacity
  runtime           := args.runtime
  builderKey        := builderKey
  tipConfig         := none
  nextRecheck       := none
  slot              := 0
  slotStats         := {}
  lastProgressTime  := now
  progress          := progress
  queued            := fun _ => 0
  now               := now

-- The states before the first event: nothing ingested, nothing in flight.
structure Initial (locks : L) (w : World L) : Prop where
  ledger      : w.toLedger = .empty locks
  nextRecheck : w.nextRecheck = none
  tipConfig   : w.tipConfig = none
  slot        : w.slot = 0
  slotStats   : w.slotStats = {}

-- The states of the runs from an initial state in which every step meets the condition `C`.
inductive Reach (locks : L) (C : World L → Event → Prop) : World L → Prop
  | init {w} : Initial locks w → Reach locks C w
  | step {w w' e} :
    Reach locks C w → e.Enabled w → C w e → S.step E w e = .ok w' → Reach locks C w'

-- The runs from one state to another in which every step meets the condition `C`.
inductive Runs (C : World L → Event → Prop) (w : World L) : World L → Prop
  | refl : Runs C w w
  | step {w₁ w' e} :
    Runs C w w₁ → e.Enabled w₁ → C w₁ e → S.step E w₁ e = .ok w' → Runs C w w'

-- Takes the steps for a list of events, unless one of them is not possible, faults or violates `C`.
def follow (C : World L → Event → Prop) [∀ w e, Decidable (C w e)] (w : World L) :
    List Event → Option (World L)
  | []      => some w
  | e :: es =>
    if e.Enabled w ∧ C w e then
      match S.step E w e with
      | .ok w    => follow C w es
      | .error _ => none
    else
      none

-- What one call of `poll` finds.
structure PollInput where
  message    : Option ProgressMessage
  answers    : List (Request × WorkerAction)
  backlog    : List Packet
  channel    : JitoChannel
  cancelled  : Bool
  checkReads : Nat → Nat

def poll (w : World L) (input : PollInput) : Except Fault (World L) := do
  let w ← S.checkSlotRoll E w input.message
  let w ← input.answers.foldlM (fun w (r, a) => S.drainWorkerResponse E w r a) w
  let w := S.tick w
  let isLeader := w.progress.leaderReady
  let w ← S.drainTpu E w input.backlog (if isLeader then 128 else 1024)
  let w := S.dropExpiredBundles w
  let w ← S.drainJito E w input.channel input.cancelled
  let w ← S.scheduleChecks E input.checkReads w
  if isLeader then
    let w ← S.scheduleExecute E w
    return restartRecheck w
  else
    return w

-- The steps of one call.
def PollInput.events (input : PollInput) (isLeader : Bool) : List Event :=
  .checkSlotRoll input.message :: input.answers.map (fun (r, a) => .workerResponse r a) ++
    [.processTick, .drainTpu input.backlog (if isLeader then 128 else 1024), .dropExpiredBundles,
      .drainJito input.channel input.cancelled, .scheduleChecks input.checkReads] ++
    if isLeader then [.scheduleExecute, .restartRecheck] else []

-- What the bridge promises of the answers in one call, where each is given after the one before it.
def Promised (w : World L) : List (Request × WorkerAction) → Prop
  | []             => True
  | (r, a) :: rest => (r ∈ w.inFlight ∧ r.Fits a) ∧
      ∀ w', S.drainWorkerResponse E w r a = .ok w' → Promised w' rest

end Scheduler
