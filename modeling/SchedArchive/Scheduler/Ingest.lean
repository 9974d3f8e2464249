import SchedArchive.Scheduler.World

-- How transactions and bundles come in, and how slots roll.

def executeWorkerStart : Nat := 1

def slotsPerEpoch : Nat := 432000

namespace Scheduler

open Except World

variable {L : Type} (S : Scheduler L) (E : Env)

-- The eviction loop of `drain_tpu`.
def evictUnchecked : Nat → World L → Except Fault (World L)
  | 0, w     => .ok w
  | n + 1, w =>
    match w.uncheckedTx.popMin with
    | none            => .error Fault.evictUnchecked
    | some (id, rest) =>
      evictUnchecked n <| World.dropTransaction { w with uncheckedTx := rest } id.key

-- The callback of `bridge.drain_tpu`; the bridge skips a message it cannot parse.
def onTpu (w : World L) : Packet → Except Fault (World L)
  | none    => .ok w
  | some tx => do
    let key := w.nextKey E
    let w := w.insertTransaction E tx
    match ← S.calculatePriority E w tx with
    | none =>
      return (w.count fun s => { s with ingestTpuErr := s.ingestTpuErr + 1 }).dropTransaction key
    | some (priority, cost) =>
      if tx.shouldFilterStatic E.filterKeys then
        let w := w.count fun s => { s with ingestTpuFiltered := s.ingestTpuFiltered + 1 }
        return w.dropTransaction key
      else
        let w := w.count fun s => { s with ingestTpuOk := s.ingestTpuOk + 1 }
        return { w with uncheckedTx := ⟨priority, cost, key⟩ ::ₘ w.uncheckedTx }

-- `backlog` are the messages waiting in the TPU queue.
def drainTpu (w : World L) (backlog : List Packet) (maxCount : Nat) : Except Fault (World L) := do
  let additional := min backlog.length maxCount
  let shortfall := w.uncheckedTx.card + additional - w.uncheckedCapacity
  let w ← evictUnchecked shortfall w
  let w := w.count fun s => { s with ingestTpuEvict := s.ingestTpuEvict + shortfall }
  (backlog.take maxCount).foldlM (S.onTpu E) w

-- Makes room in `unchecked_tx` if it is exactly at capacity.
def makeRoom (w : World L) : Except Fault (World L) :=
  if w.uncheckedTx.card = w.uncheckedCapacity then evictUnchecked 1 w else .ok w

def onPacket (w : World L) : Packet → Except Fault (World L)
  | none    => .ok w
  | some tx => do
    let key := w.nextKey E
    let w := w.insertTransaction E tx
    match ← S.calculatePriority E w tx with
    | none =>
      let w := w.count fun s => { s with ingestCustomErr := s.ingestCustomErr + 1 }
      return w.dropTransaction key
    | some (priority, cost) =>
      if tx.shouldFilterStatic E.filterKeys then
        let w := w.count fun s => { s with ingestCustomFiltered := s.ingestCustomFiltered + 1 }
        return w.dropTransaction key
      else
        let w ← makeRoom w
        let w := w.count fun s => { s with ingestCustomOk := s.ingestCustomOk + 1 }
        return { w with uncheckedTx := ⟨priority, cost, key⟩ ::ₘ w.uncheckedTx }

-- What the packet loop of `on_bundle` has gathered so far.
structure Gathered where
  keys  : List TransactionKey
  cost  : Nat
  value : Nat

-- The packet loop of `on_bundle`. If any packet fails, the keys inserted so far are dropped and
-- there is nothing to store.
def gather (w : World L) (g : Gathered) : List Packet → Except Fault (World L × Option Gathered)
  | []              => .ok (w, some g)
  | none :: _       => .ok (w.dropAll g.keys, none)
  | some tx :: rest => do
    let key := w.nextKey E
    let w := w.insertTransaction E tx
    let w := { w with viaBundle := key :: w.viaBundle }
    let keys := g.keys ++ [key]
    match ← S.bundledTx E w tx with
    | none => return (w.dropAll keys, none)
    | some (cost, value) =>
      let cost ← Machine.add E.overflowChecks g.cost cost
      let value ← Machine.add E.overflowChecks g.value value
      gather w ⟨keys, cost, value⟩ rest

-- Evicts the lowest bundle if exactly at capacity.
def evictBundle (w : World L) : Except Fault (World L) :=
  if w.bundles.card = w.bundleCapacity then
    match w.bundles.first with
    | none   => .error Fault.evictBundle
    | some b => .ok <| w.dropBundle S.toLockPolicy b
  else
    .ok w

def queueKeys (w : World L) (keys : List TransactionKey) : World L :=
  keys.foldl (fun w key => { w with locks := S.queue w.locks (w.locksOf key) }) w

def storeBundle (w : World L) (g : Gathered) : Except Fault (World L) := do
  -- `keys[0]`.
  require (g.keys ≠ []) Fault.emptyBundle
  let w ← S.evictBundle w
  let w := S.queueKeys w g.keys
  let b : BundleId :=
    { priority   := S.bundlePriority g.value g.cost
      cost       := g.cost
      receivedAt := w.now
      keys       := g.keys }
  return { w with bundles := insert b w.bundles }

def onBundle (w : World L) (bundle : List Packet) : Except Fault (World L) := do
  match ← S.gather E w ⟨[], 0, 0⟩ bundle with
  | (w, none)   => return w
  | (w, some g) =>
    if g.keys.any fun key => (w.data key).shouldFilterStatic E.filterKeys then
      return w.dropAll g.keys
    else
      S.storeBundle w g

def dropExpiredBundles (w : World L) : World L :=
  let expired := w.bundles.filter fun b => w.runtime.bundleExpiry < w.now - b.receivedAt
  expired.ascending.foldl (dropBundle S.toLockPolicy) w

def onJitoUpdate (w : World L) : JitoUpdate → Except Fault (World L)
  | .builderConfig    => .ok w
  | .tipConfig config => .ok { w with tipConfig := some config }
  | .recentBlockhash  => .ok w
  | .packet packet    => S.onPacket E w packet
  | .bundle bundle    => S.onBundle E w bundle

structure JitoChannel where
  messages  : List JitoUpdate
  connected : Bool

-- At most `n` rounds of the loop of `drain_jito`: `none` when they do not suffice. A disconnected
-- channel first gives out the messages it still holds.
def drainJitoLoop (cancelled connected : Bool) :
    Nat → List JitoUpdate → World L → Option (Except Fault (World L))
  | 0, _, _          => none
  | n + 1, m :: ms, w =>
    match S.onJitoUpdate E w m with
    | .ok w    => drainJitoLoop cancelled connected n ms w
    | .error f => some (.error f)
  | n + 1, [], w =>
    if connected then some (.ok w)
    else if cancelled then drainJitoLoop cancelled connected n [] w
    else some (.error .jitoDisconnected)

-- One round for each message and one for the empty channel are all that a returning call needs.
def drainJito (w : World L) (channel : JitoChannel) (cancelled : Bool) : Except Fault (World L) :=
  (S.drainJitoLoop E cancelled channel.connected (channel.messages.length + 1) channel.messages w)
    |>.getD (.error .hang)

-- `deferred_tx.drain(..)`, back into `checked_tx`.
def drainDeferred : List PriorityId → World L → Except Fault (World L)
  | [], w         => .ok w
  | id :: rest, w => do
    let w ← { w with deferredTx := rest }.insertCheckedNew S id
    drainDeferred rest w

def restartRecheck (w : World L) : World L :=
  { w with nextRecheck := w.nextRecheck <|> w.checkedTx.last }

def rollSlot (w : World L) : Except Fault (World L) := do
  -- With an event emitter the stats of the slot that just ended are taken and sent.
  let stats := if E.events ∧ w.slot ≠ 0 then {} else w.slotStats
  let w := { w with
    slot      := w.progress.currentSlot
    slotStats := { stats with wasLeaderReady := false } }
  let w ← S.drainDeferred w.deferredTx w
  return restartRecheck w

def tipRequest (key : TransactionKey) : Request :=
  ⟨⟨bundleMarker, 0, key⟩, .execute⟩

def tipBatch (w : World L) (key : TransactionKey) : ScheduleBatch where
  worker         := executeWorkerStart
  transactions   := [tipRequest key]
  maxWorkingSlot := w.slot + 4
  flags          := .execute true false

def tipDistributionKey (w : World L) : Pubkey :=
  E.findProgramAddress E.tip.voteAccount (w.slot / slotsPerEpoch)

def initTx (w : World L) : Tx :=
  TipProgram.initTipDistribution E.keypair E.tip (tipDistributionKey E w)

def changeTx (w : World L) (config : TipConfig) : Tx :=
  TipProgram.changeTipReceiver E.keypair
    { oldTipReceiver  := config.tipReceiver
      newTipReceiver  := tipDistributionKey E w
      oldBlockBuilder := config.blockBuilder
      newBlockBuilder := w.builderKey }

-- Locks the two tip transactions, marks them as executing and sends them one after the other.
def startTips (w : World L) (init change : TransactionKey) : Except Fault (World L) := do
  let locks ← S.lock w.locks init (w.locksOf init)
  let locks ← S.lock locks change (w.locksOf change)
  require (init ∉ w.executingTx) Fault.executingInsert
  let executing := insert init w.executingTx
  require (change ∉ executing) Fault.executingInsert
  let w := { w with
    locks       := locks
    executingTx := insert change executing
    units       := .tipPair init change :: w.units }
  let w ← w.schedule E (tipBatch w init)
  w.schedule E (tipBatch w change)

def becomeTipReceiver (w : World L) : Except Fault (World L) :=
  let init := w.nextKey E
  let w₁ := w.insertTransaction E (initTx E w)
  match w.tipConfig with
  | none        => .error .tipConfig
  | some config =>
    let change := w₁.nextKey E
    let w₂ := w₁.insertTransaction E (changeTx E w config)
    if S.tipsLockable w₂.locks (w₂.locksOf init) (w₂.locksOf change) then
      S.startTips E w₂ init change
    else
      .ok <| (w₂.dropTransaction init).dropTransaction change

-- `message` is the latest progress message, if any came in.
def observeProgress (w : World L) : Option ProgressMessage → Except Fault (World L)
  | some message => .ok { w with progress := message, lastProgressTime := w.now }
  | none         => do
    require (w.now - w.lastProgressTime < w.runtime.progressTimeout) Fault.agaveDisconnected
    return w

-- The first half of `check_slot_roll`.
def rolled (w : World L) (message : Option ProgressMessage) : Except Fault (World L) := do
  let w ← observeProgress w message
  if w.progress.currentSlot ≠ w.slot then S.rollSlot E w else return w

def checkSlotRoll (w : World L) (message : Option ProgressMessage) : Except Fault (World L) := do
  let wasLeaderReady := w.slotStats.wasLeaderReady
  let w ← S.rolled E w message
  if w.progress.leaderReady ∧ ¬wasLeaderReady then
    S.becomeTipReceiver E <| w.count fun s => { s with wasLeaderReady := true }
  else
    return w

end Scheduler
