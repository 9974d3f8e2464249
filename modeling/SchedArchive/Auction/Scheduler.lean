import Mathlib.Algebra.Order.Floor.Semifield
import Mathlib.Data.Rat.Floor
import SchedArchive.Auction.Engine
import SchedArchive.Scheduler.Run

namespace AuctionBatchScheduler

open AuctionEngine Scheduler

abbrev Engine := AuctionEngine ℚ

def initialEngine : Engine :=
  .new .default

def canLock (e : Engine) (txLocks : List Lock) : Bool :=
  e.lockManager.tryAcquire txLocks

-- Says "without checking for conflicts", but `acquire_locks` does check and its result is ignored.
def lock (e : Engine) (key : TransactionKey) (txLocks : List Lock) : Engine :=
  (e.acquireLocks key txLocks).1

def unlock (e : Engine) (key : TransactionKey) (txLocks : List Lock) : Engine :=
  e.releaseLocks key txLocks

def releaseAll (e : Engine) (txs : List (TransactionKey × List Lock)) : Engine :=
  txs.foldl (fun e (key, txLocks) => e.releaseLocks key txLocks) e

-- The acquire loop of `try_schedule_bundle`. When a transaction cannot be locked, the locks of the
-- keys in front of its position are released again, but not their queue depths.
def acquireBundle (bundle : List (TransactionKey × List Lock)) :
    List (TransactionKey × List Lock) → Engine → Engine × Bool
  | [], e                     => (e, true)
  | (key, txLocks) :: rest, e =>
    match e.acquireLocks key txLocks with
    | (e, true)  => acquireBundle bundle rest (e.queueTransaction txLocks)
    | (e, false) => (releaseAll e (bundle.takeWhile (·.1 ≠ key)), false)

def dequeueAll (e : Engine) (txs : List (TransactionKey × List Lock)) : Engine :=
  txs.foldl (fun e tx => e.dequeueTransaction tx.2) e

def startTx (e : Engine) (key : TransactionKey) (txLocks : List Lock) : Engine :=
  ((lock e key txLocks).queueTransaction txLocks).dequeueTransaction txLocks

def startBundle (e : Engine) (bundle : List (TransactionKey × List Lock)) : Engine × Bool :=
  match acquireBundle bundle bundle e with
  | (e, true)  => (dequeueAll e bundle, true)
  | (e, false) => (e, false)

def lockPolicy : LockPolicy Engine where
  canLock      := canLock
  lock         := fun e key txLocks => .ok (lock e key txLocks)
  unlock       := fun e key txLocks => .ok (unlock e key txLocks)
  queue        := queueTransaction
  dequeue      := dequeueTransaction
  -- Only the first of the two tip transactions is checked.
  tipsLockable := fun e init _ => canLock e init
  startTx      := fun e key txLocks => .ok (startTx e key txLocks)
  startBundle  := fun e bundle => .ok (startBundle e bundle)

def effectiveRemainingCu (E : Env) (w : World Engine) : Except Fault Nat := do
  let usedCu ← Machine.sub E.overflowChecks maxBlockUnits w.progress.remainingCostUnits
  let left ← Machine.sub E.overflowChecks maxBlockUnits usedCu
  Machine.sub E.overflowChecks left w.inFlightCus

-- `score_with_auction`: the priority and the cost.
def scoreWithAuction (E : Env) (w : World Engine) (details : CostDetails) (txLocks : List Lock)
    (tip : Nat) : Except Fault (Nat × Nat) := do
  let paid ← Machine.add E.overflowChecks details.prioritizationFee tip
  return (w.locks.priorityOf details txLocks paid, details.totalCost)

def calculatePriority (E : Env) (w : World Engine) (tx : Tx) :
    Except Fault (Option (Nat × Nat)) := do
  let _remainingCu ← effectiveRemainingCu E w
  match tx.costs with
  | none         => return none
  | some details =>
    let tip ← TipProgram.extractTip E.overflowChecks tx
    let score ← scoreWithAuction E w details tx.locks tip
    return some score

def bundledTx (minScore : Nat) (E : Env) (w : World Engine) (tx : Tx) :
    Except Fault (Option (Nat × Nat)) := do
  match tx.costs with
  | none         => return none
  | some details =>
    let tip ← TipProgram.extractTip E.overflowChecks tx
    let (score, cost) ← scoreWithAuction E w details tx.locks tip
    return if score < minScore then none else some (cost, score)

def bundlePriority (totalScore _totalCost : Nat) : Nat :=
  min (Machine.saturatingMul totalScore priorityMultiplier) (bundleMarker - 1)

-- A cursor that left `checked_tx` or is executing becomes the cursor again.
def popRecheck (checked : Finset PriorityId) (executing : Finset TransactionKey) :
    Nat → Option PriorityId → Option (Option PriorityId × Option PriorityId)
  | 0, _             => none
  | _ + 1, none      => some (none, none)
  | n + 1, some curr =>
    let next := checked.below curr
    if curr ∈ checked ∧ curr.key ∉ executing then some (some curr, next)
    else popRecheck checked executing n (some curr)

-- The highest transaction that fits the budget and can be locked.
def findTransaction (budget : Nat) (w : World Engine) : Option PriorityId :=
  w.checkedTx.findLast fun tx => tx.cost ≤ budget && canLock w.locks (w.locksOf tx.key)

def tryScheduleTransaction (E : Env) (worker budget : Nat) (w : World Engine) :
    Except Fault (World Engine × Nat × List PriorityId) :=
  match findTransaction budget w with
  | none    => .ok (w, budget, [])
  | some tx =>
    match w.locks.acquireLocks tx.key (w.locksOf tx.key) with
    | (_, false)     => .ok (w, budget, [])
    | (engine, true) => do
      let w := { w with locks := engine.queueTransaction (w.locksOf tx.key) }
      let w ← w.schedule E (transactionBatch w worker tx)
      let cus ← Machine.add E.overflowChecks w.inFlightCus tx.cost
      let w := { w with inFlightCus := cus }
      Except.require (tx ∈ w.checkedTx) Fault.checkedRemove
      let w := w.removeChecked lockPolicy tx
      return ({ w with units := .transaction tx.key :: w.units }, budget - tx.cost, [tx])

def tryScheduleBundle (E : Env) (worker budget : Nat) (w : World Engine) (bundle : BundleId) :
    Except Fault (World Engine × Nat × List PriorityId) :=
  if budget < bundle.cost then
    .ok (w, budget, [])
  else if !bundle.keys.all fun key => canLock w.locks (w.locksOf key) then
    .ok (w, budget, [])
  else
    match acquireBundle (w.keyedLocks bundle.keys) (w.keyedLocks bundle.keys) w.locks with
    | (engine, false) => .ok ({ w with locks := engine }, budget, [])
    | (engine, true)  => do
      let w ← { w with locks := engine }.schedule E (bundleBatch w worker bundle)
      let cus ← Machine.add E.overflowChecks w.inFlightCus bundle.cost
      let w := { w with
        inFlightCus := cus
        locks       := dequeueAll w.locks (w.keyedLocks bundle.keys)
        bundles     := w.bundles.erase bundle
        units       := .bundle bundle.keys :: w.units }
      return (w, budget - bundle.cost, bundleIds bundle)

-- A transaction at least as good as the best bundle gives way to it if nothing can be scheduled.
-- The other way around there is no second try.
def tryBest (E : Env) (worker budget : Nat) (w : World Engine) :
    Except Fault (World Engine × Nat × List PriorityId) :=
  match w.checkedTx.last, w.bundles.last with
  | some tx, some bundle =>
    if bundle.priority ≤ tx.priority then do
      let (w, budget, batch) ← tryScheduleTransaction E worker budget w
      if batch = [] then tryScheduleBundle E worker budget w bundle
      else return (w, budget, batch)
    else
      tryScheduleBundle E worker budget w bundle
  | some _, none      => tryScheduleTransaction E worker budget w
  | none, some bundle => tryScheduleBundle E worker budget w bundle
  | none, none        => .ok (w, budget, [])

-- `process_auction_tick`, with a slot of 400 ms.
def processTick (libm : Libm ℚ) (e : Engine) (progress : ProgressMessage) (now : Nat) : Engine :=
  let remaining : ℚ := progress.remainingCostUnits
  let msElapsed := min (max (progress.currentSlotProgress.toNat / 100 * 400 : ℚ) 1) 399
  e.processTick libm now
    { cuDemand      := maxBlockUnits - remaining
      lockDemand    := e.lockManager.totalQueueDepth
      fragmentation := 1 - remaining / maxBlockUnits
      p90Price      := e.prices.cu.value }
    progress.remainingCostUnits (400 - msElapsed)

def scheduler (libm : Libm ℚ) (minScore : Nat) : Scheduler Engine where
  toLockPolicy      := lockPolicy
  assertsChecked    := false
  calculatePriority := calculatePriority
  bundledTx         := bundledTx minScore
  bundlePriority    := bundlePriority
  popRecheck        := popRecheck
  tryBest           := tryBest
  processTick       := processTick libm
  updateBasePrices  := fun e p =>
    e.updateBasePrices p.baseCu p.baseWriteLock p.baseReadLock p.baseTime p.baseSpace

end AuctionBatchScheduler
