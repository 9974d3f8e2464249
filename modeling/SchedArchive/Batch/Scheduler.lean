import Mathlib.Data.Finmap
import SchedArchive.Scheduler.Run

namespace BatchScheduler

structure AccountLockers where
  writers : Finset TransactionKey
  readers : Finset TransactionKey
  deriving DecidableEq

abbrev InFlightLocks := Finmap fun _ : Pubkey => AccountLockers

namespace AccountLockers

def default : AccountLockers :=
  ⟨∅, ∅⟩

def isEmpty (l : AccountLockers) : Bool :=
  l.writers = ∅ && l.readers = ∅

def canLock (l : AccountLockers) : Bool → Bool
  | true  => l.isEmpty
  | false => l.writers = ∅

def insert (l : AccountLockers) (key : TransactionKey) : Bool → Except Fault AccountLockers
  | true => do
    Except.require (key ∉ l.writers) Fault.lockersInsert
    return { l with writers := Insert.insert key l.writers }
  | false => do
    Except.require (key ∉ l.readers) Fault.lockersInsert
    return { l with readers := Insert.insert key l.readers }

def remove (l : AccountLockers) (key : TransactionKey) : Bool → Except Fault AccountLockers
  | true => do
    Except.require (key ∈ l.writers) Fault.lockersRemove
    return { l with writers := l.writers.erase key }
  | false => do
    Except.require (key ∈ l.readers) Fault.lockersRemove
    return { l with readers := l.readers.erase key }

end AccountLockers

def canLock (locks : InFlightLocks) (txLocks : List Lock) : Bool :=
  txLocks.all fun (addr, writable) => (locks.lookup addr).all (·.canLock writable)

def lockOne (key : TransactionKey) (locks : InFlightLocks) :
    Lock → Except Fault InFlightLocks
  | (addr, writable) => do
    let lockers ← (locks.lookup addr |>.getD .default).insert key writable
    return locks.insert addr lockers

-- Locks a transaction without checking for conflicts.
def lock (locks : InFlightLocks) (key : TransactionKey) (txLocks : List Lock) :
    Except Fault InFlightLocks :=
  txLocks.foldlM (lockOne key) locks

def unlockOne (key : TransactionKey) (locks : InFlightLocks) :
    Lock → Except Fault InFlightLocks
  | (addr, writable) =>
    match locks.lookup addr with
    | none         => .error .unlockVacant
    | some lockers => do
      let lockers ← lockers.remove key writable
      return if lockers.isEmpty then locks.erase addr else locks.insert addr lockers

def unlock (locks : InFlightLocks) (key : TransactionKey) (txLocks : List Lock) :
    Except Fault InFlightLocks :=
  txLocks.foldlM (unlockOne key) locks

def lockAll (locks : InFlightLocks) (txs : List (TransactionKey × List Lock)) :
    Except Fault InFlightLocks :=
  txs.foldlM (fun locks (key, txLocks) => lock locks key txLocks) locks

def lockPolicy : LockPolicy InFlightLocks where
  canLock      := canLock
  lock         := lock
  unlock       := unlock
  queue        := fun locks _ => locks
  dequeue      := fun locks _ => locks
  tipsLockable := fun locks init change => canLock locks init && canLock locks change
  startTx      := lock
  startBundle  := fun locks txs => (·, true) <$> lockAll locks txs

def calculatePriority (E : Env) (_ : World InFlightLocks) (tx : Tx) :
    Except Fault (Option (Nat × Nat)) := do
  match ← tx.calculateCostAndReward E.overflowChecks E.burnPercent with
  | none                => return none
  | some (cost, reward) =>
    let priority :=
      Machine.saturatingMul reward priorityMultiplier / Machine.saturatingAdd cost 1
    -- `u64::MAX` is the sentinel value for bundles.
    return some (min priority (bundleMarker - 1), cost)

def bundledTx (E : Env) (_ : World InFlightLocks) (tx : Tx) :
    Except Fault (Option (Nat × Nat)) := do
  match ← tx.calculateCostAndReward E.overflowChecks E.burnPercent with
  | none                => return none
  | some (cost, reward) =>
    let tip ← TipProgram.extractTip E.overflowChecks tx
    let value ← Machine.add E.overflowChecks reward tip
    return some (cost, value)

def bundlePriority (totalReward totalCost : Nat) : Nat :=
  Machine.saturatingMul totalReward priorityMultiplier / max totalCost 1

-- A cursor that left `checked_tx` or is executing is skipped.
def popRecheck (checked : Finset PriorityId) (executing : Finset TransactionKey) :
    Nat → Option PriorityId → Option (Option PriorityId × Option PriorityId)
  | 0, _             => none
  | _ + 1, none      => some (none, none)
  | n + 1, some curr =>
    let next := checked.below curr
    if curr ∉ checked ∨ curr.key ∈ executing then popRecheck checked executing n next
    else some (some curr, next)

open Scheduler

-- Only the highest transaction is ever tried.
def tryScheduleTransaction (E : Env) (worker budget : Nat) (w : World InFlightLocks)
    (tx : PriorityId) : Except Fault (World InFlightLocks × Nat × List PriorityId) :=
  if budget < tx.cost then
    .ok (w, budget, [])
  else if !canLock w.locks (w.locksOf tx.key) then
    .ok (w, budget, [])
  else do
    let locks ← lock w.locks tx.key (w.locksOf tx.key)
    let w ← { w with locks := locks }.schedule E (transactionBatch w worker tx)
    let cus ← Machine.add E.overflowChecks w.inFlightCus tx.cost
    let w := { w with
      inFlightCus := cus
      checkedTx   := w.checkedTx.erase tx
      units       := .transaction tx.key :: w.units }
    return (w, budget - tx.cost, [tx])

def tryScheduleBundle (E : Env) (worker budget : Nat) (w : World InFlightLocks)
    (bundle : BundleId) : Except Fault (World InFlightLocks × Nat × List PriorityId) :=
  if budget < bundle.cost then
    .ok (w, budget, [])
  else if !bundle.keys.all fun key => canLock w.locks (w.locksOf key) then
    .ok (w, budget, [])
  else do
    let locks ← lockAll w.locks (w.keyedLocks bundle.keys)
    let w ← { w with locks := locks }.schedule E (bundleBatch w worker bundle)
    let cus ← Machine.add E.overflowChecks w.inFlightCus bundle.cost
    let w := { w with
      inFlightCus := cus
      bundles     := w.bundles.erase bundle
      units       := .bundle bundle.keys :: w.units }
    return (w, budget - bundle.cost, bundleIds bundle)

def tryBest (E : Env) (worker budget : Nat) (w : World InFlightLocks) :
    Except Fault (World InFlightLocks × Nat × List PriorityId) :=
  match w.checkedTx.last, w.bundles.last with
  | some tx, some bundle =>
    if bundle.priority ≤ tx.priority then tryScheduleTransaction E worker budget w tx
    else tryScheduleBundle E worker budget w bundle
  | some tx, none     => tryScheduleTransaction E worker budget w tx
  | none, some bundle => tryScheduleBundle E worker budget w bundle
  | none, none        => .ok (w, budget, [])

def scheduler : Scheduler InFlightLocks where
  toLockPolicy      := lockPolicy
  assertsChecked    := true
  calculatePriority := calculatePriority
  bundledTx         := bundledTx
  bundlePriority    := bundlePriority
  popRecheck        := popRecheck
  tryBest           := tryBest
  processTick       := fun locks _ _ => locks
  updateBasePrices  := fun locks _ => locks

end BatchScheduler
