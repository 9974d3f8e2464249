import Mathlib.Data.Rat.Init
import SchedArchive.Scheduler.Ledger

-- The state of a scheduler and its bridge, and the two schedulers' points of difference.

structure RuntimeConfig where
  maxCheckBatches : Nat
  blockFillCutoff : UInt8
  progressTimeout : Nat
  bundleExpiry    : Nat
  deriving DecidableEq

-- The arguments of `update_base_prices`.
structure BasePrices where
  baseCu        : ℚ
  baseWriteLock : ℚ
  baseReadLock  : ℚ
  baseTime      : ℚ
  baseSpace     : ℚ
  deriving DecidableEq

structure TipConfig where
  tipReceiver  : Pubkey
  blockBuilder : Pubkey
  deriving DecidableEq

structure ProgressMessage where
  leaderReady         : Bool
  currentSlot         : Nat
  remainingCostUnits  : Nat
  currentSlotProgress : UInt8
  deriving DecidableEq

-- `SlotStatsEvent`.
structure SlotStats where
  wasLeaderReady       : Bool := false
  ingestTpuOk          : Nat := 0
  ingestTpuErr         : Nat := 0
  ingestTpuEvict       : Nat := 0
  ingestTpuFiltered    : Nat := 0
  ingestCustomOk       : Nat := 0
  ingestCustomErr      : Nat := 0
  ingestCustomFiltered : Nat := 0
  checkRequested       : Nat := 0
  checkOk              : Nat := 0
  checkErr             : Nat := 0
  checkEvict           : Nat := 0
  checkFiltered        : Nat := 0
  executeRequested     : Nat := 0
  executeUnprocessed   : Nat := 0
  executeOk            : Nat := 0
  executeErr           : Nat := 0
  deriving DecidableEq

-- What `insert_transaction` makes of the bytes of a packet: `none` is its `Err`.
abbrev Packet := Option Tx

inductive JitoUpdate
  | builderConfig
  | tipConfig (config : TipConfig)
  | recentBlockhash
  | packet (packet : Packet)
  | bundle (bundle : List Packet)
  deriving DecidableEq

structure World (L : Type) extends Ledger L where
  uncheckedCapacity : Nat
  checkedCapacity   : Nat
  bundleCapacity    : Nat
  runtime           : RuntimeConfig
  builderKey        : Pubkey
  tipConfig         : Option TipConfig
  nextRecheck       : Option PriorityId
  slot              : Nat
  slotStats         : SlotStats
  lastProgressTime  : Nat
  progress          : ProgressMessage
  queued            : Nat → Nat
  now               : Nat

namespace World

variable {L : Type}

def insertTransaction (E : Env) (w : World L) (tx : Tx) : World L :=
  { w with toLedger := w.toLedger.insertTransaction E tx }

def dropTransaction (w : World L) (key : TransactionKey) : World L :=
  { w with toLedger := w.toLedger.dropTransaction key }

def resolve (w : World L) (key : TransactionKey) (resolvedKeys : Option (List Pubkey)) : World L :=
  { w with toLedger := w.toLedger.resolve key resolvedKeys }

def dropAll (w : World L) (keys : List TransactionKey) : World L :=
  keys.foldl dropTransaction w

def count (w : World L) (f : SlotStats → SlotStats) : World L :=
  { w with slotStats := f w.slotStats }

-- A worker takes messages from its queue.
def workerReads (w : World L) (worker n : Nat) : World L :=
  { w with queued := Function.update w.queued worker (w.queued worker - n) }

def pendingLen (w : World L) : Nat :=
  w.checkedTx.card + w.executingTx.card + w.deferredTx.length

-- `bridge.schedule(..).unwrap()`.
def schedule (E : Env) (w : World L) (b : ScheduleBatch) : Except Fault (World L) := do
  Except.require (w.queued b.worker < E.queueCapacity) Fault.queueFull
  return { w with
    toLedger := w.toLedger.send b
    queued   := Function.update w.queued b.worker (w.queued b.worker + 1) }

theorem schedule_eq_ok {E : Env} {w : World L} {b : ScheduleBatch}
    (hq : w.queued b.worker < E.queueCapacity) : w.schedule E b = .ok { w with
      toLedger := w.toLedger.send b
      queued   := Function.update w.queued b.worker (w.queued b.worker + 1) } := by
  rw [schedule, Except.require, if_pos hq]
  rfl

theorem ensures_schedule {E : Env} {w : World L} {b : ScheduleBatch} :
    (w.schedule E b).Ensures (fun w' => w'.toLedger = w.toLedger.send b) (· = .queueFull) := by
  simp [schedule]

@[simp]
theorem toLedger_insertTransaction (E : Env) (w : World L) (tx : Tx) :
    (w.insertTransaction E tx).toLedger = w.toLedger.insertTransaction E tx :=
  rfl

@[simp]
theorem toLedger_dropTransaction (w : World L) (key : TransactionKey) :
    (w.dropTransaction key).toLedger = w.toLedger.dropTransaction key :=
  rfl

@[simp]
theorem toLedger_resolve (w : World L) (key : TransactionKey) (resolvedKeys : Option (List Pubkey)) :
    (w.resolve key resolvedKeys).toLedger = w.toLedger.resolve key resolvedKeys :=
  rfl

@[simp]
theorem toLedger_dropAll (w : World L) (keys : List TransactionKey) :
    (w.dropAll keys).toLedger = keys.foldl Ledger.dropTransaction w.toLedger := by
  induction keys generalizing w
  case nil          => rfl
  case cons k ks hi => exact hi (w.dropTransaction k)

@[simp]
theorem toLedger_workerReads (w : World L) (worker n : Nat) :
    (w.workerReads worker n).toLedger = w.toLedger :=
  rfl

@[simp]
theorem toLedger_count (w : World L) (f : SlotStats → SlotStats) :
    (w.count f).toLedger = w.toLedger :=
  rfl

end World

-- How a scheduler keeps account locks. `queue` and `dequeue` are the queue depths of the auction
-- engine. `startTx` and `startBundle` say what sending a transaction or a bundle does to the lock
-- state as a whole, `startBundle` also whether it went through.
structure LockPolicy (L : Type) where
  canLock      : L → List Lock → Bool
  lock         : L → TransactionKey → List Lock → Except Fault L
  unlock       : L → TransactionKey → List Lock → Except Fault L
  queue        : L → List Lock → L
  dequeue      : L → List Lock → L
  tipsLockable : L → List Lock → List Lock → Bool
  startTx      : L → TransactionKey → List Lock → Except Fault L
  startBundle  : L → List (TransactionKey × List Lock) → Except Fault (L × Bool)

-- The rest of what the two schedulers do differently. A handler that both share takes one of these.
structure Scheduler (L : Type) extends LockPolicy L where
  assertsChecked    : Bool
  calculatePriority : Env → World L → Tx → Except Fault (Option (Nat × Nat))
  -- The cost of a bundled transaction and what it adds to the bundle's value.
  bundledTx         : Env → World L → Tx → Except Fault (Option (Nat × Nat))
  bundlePriority    : Nat → Nat → Nat
  -- The recheck part of `pop_next` with a bound on its iterations: the transaction to recheck and
  -- the next cursor, or `none` when the bound is reached.
  popRecheck        : Finset PriorityId → Finset TransactionKey → Nat → Option PriorityId →
                        Option (Option PriorityId × Option PriorityId)
  -- Fills one idle worker: the new state and budget, and the batch that was sent.
  tryBest           : Env → Nat → Nat → World L → Except Fault (World L × Nat × List PriorityId)
  processTick       : L → ProgressMessage → Nat → L
  updateBasePrices  : L → BasePrices → L

namespace World

variable {L : Type}

-- `insert_checked`.
def insertChecked (P : LockPolicy L) (w : World L) (id : PriorityId) : World L :=
  { w with
    locks     := P.queue w.locks (w.locksOf id.key)
    checkedTx := insert id w.checkedTx }

-- The same where `BatchScheduler` asserts that the transaction was not yet in `checked_tx`.
def insertCheckedNew (S : Scheduler L) (w : World L) (id : PriorityId) :
    Except Fault (World L) := do
  Except.require (S.assertsChecked → id ∉ w.checkedTx) Fault.checkedInsert
  return w.insertChecked S.toLockPolicy id

-- `remove_checked`.
def removeChecked (P : LockPolicy L) (w : World L) (id : PriorityId) : World L :=
  if id ∈ w.checkedTx then
    { w with
      locks     := P.dequeue w.locks (w.locksOf id.key)
      checkedTx := w.checkedTx.erase id }
  else
    w

-- Pops the lowest checked transaction and drops it.
def evictChecked (P : LockPolicy L) (w : World L) (id : PriorityId) : World L :=
  (w.removeChecked P id).dropTransaction id.key

-- Removes the locks of a bundle from the queue depths and drops its transactions.
def dropBundle (P : LockPolicy L) (w : World L) (b : BundleId) : World L :=
  b.keys.foldl dropKey { w with bundles := w.bundles.erase b }
where
  dropKey (w : World L) (key : TransactionKey) : World L :=
    World.dropTransaction { w with locks := P.dequeue w.locks (w.locksOf key) } key

end World
