import SchedArchive.Scheduler.World

-- How the schedulers handle the answers of workers. What follows in this directory is shared by
-- `BatchScheduler` and `AuctionBatchScheduler`, over the points in which they differ. Metrics and
-- emitted events are left out.

namespace Scheduler

open Except World

variable {L : Type} (S : Scheduler L) (E : Env)

def isRetryable : NotIncludedReason → Bool
  | .accountInUse
  | .bankNotAvailable
  | .wouldExceedMaxBlockCostLimit
  | .wouldExceedMaxAccountCostLimit
  | .wouldExceedAccountDataBlockLimit
  | .wouldExceedMaxVoteCostLimit
  | .wouldExceedAccountDataTotalLimit => true
  | .none | .other _ => false

def parsingFailed (rep : CheckResponse) : Bool :=
  rep.parsingAndSanitizationFlags.failed

def resolveFailed (rep : CheckResponse) : Bool :=
  rep.resolveFlags.failed

-- Any bit besides `REQUESTED` and `PERFORMED`.
def statusFailed (rep : CheckResponse) : Bool :=
  rep.statusCheckFlags.failed || rep.statusCheckFlags.other

def checkFailed (rep : CheckResponse) : Bool :=
  parsingFailed rep || resolveFailed rep || statusFailed rep

-- The cases in which `on_check` names a `CheckFailure`; the others are `unreachable!`.
def hasCheckReason (rep : CheckResponse) : Bool :=
  match parsingFailed rep, resolveFailed rep, statusFailed rep with
  | true, false, false | false, true, false | false, false, true => true
  | _, _, _ => false

-- The flags `on_check` asserts of a response without failures.
def saneFlags (rep : CheckResponse) : Bool :=
  rep.feePayerBalanceFlags = .done && rep.resolveFlags = .done &&
    rep.statusCheckFlags.requested && rep.statusCheckFlags.performed

def resolvesFiltered (resolvedKeys : Option (List Pubkey)) : Bool :=
  resolvedKeys.any (·.any (· ∈ E.filterKeys))

-- First check, passed: evicts the lowest checked transaction if at capacity, then admits.
def accept (w : World L) (id : PriorityId) : Except Fault (World L) := do
  let w ←
    if w.checkedCapacity ≤ w.pendingLen then
      match w.checkedTx.first with
      | none        => throw Fault.evictChecked
      | some lowest =>
        pure <| (w.evictChecked S.toLockPolicy lowest).count fun s =>
          { s with checkEvict := s.checkEvict + 1 }
    else
      pure w
  return (w.insertChecked S.toLockPolicy id).count fun s => { s with checkOk := s.checkOk + 1 }

def onCheck (w : World L) (id : PriorityId) (rep : CheckResponse)
    (resolvedKeys : Option (List Pubkey)) : Except Fault (World L × TxDecision) :=
  -- A recheck of a transaction that is executing or deferred by now is ignored.
  if id.key ∈ w.executingTx ∨ id ∈ w.deferredTx then
    .ok (w, .keep)
  else if checkFailed rep then do
    require (hasCheckReason rep) Fault.checkReason
    let w := w.count fun s => { s with checkErr := s.checkErr + 1 }
    return (w.removeChecked S.toLockPolicy id, .drop)
  else do
    require (saneFlags rep) Fault.checkFlags
    if id ∈ w.checkedTx then
      -- A recheck that passed.
      return (w.count fun s => { s with checkOk := s.checkOk + 1 }, .keep)
    else if resolvesFiltered E resolvedKeys then
      return (w.count fun s => { s with checkFiltered := s.checkFiltered + 1 }, .drop)
    else
      let w ← S.accept w id
      return (w.resolve id.key resolvedKeys, .keep)

def releaseCus (w : World L) (id : PriorityId) : Except Fault (World L) := do
  let cus ← Machine.sub E.overflowChecks w.inFlightCus id.cost
  return { w with inFlightCus := cus }

def releaseLocks (w : World L) (id : PriorityId) : Except Fault (World L) := do
  let locks ← S.unlock w.locks id.key (w.locksOf id.key)
  return { w with locks := locks }

def countExecution (w : World L) (reason : NotIncludedReason) : World L :=
  w.count fun s =>
    if reason = .none then { s with executeOk := s.executeOk + 1 }
    else { s with executeErr := s.executeErr + 1 }

-- A retryable transaction goes back to `checked_tx`, or waits for the next slot if this one was
-- already attempted for another reason than a lock conflict.
def retry (w : World L) (id : PriorityId) (rep : ExecutionResponse) : Except Fault (World L) :=
  if rep.executionSlot = w.slot ∧ rep.notIncludedReason ≠ .accountInUse then do
    require (id ∉ w.deferredTx) Fault.deferredInsert
    return { w with deferredTx := w.deferredTx ++ [id] }
  else
    w.insertCheckedNew S id

-- Evicts the lowest checked transaction if a retry left us over capacity.
def trim (w : World L) : World L :=
  if w.checkedCapacity < w.pendingLen then
    match w.checkedTx.first with
    | none        => w
    | some lowest => w.evictChecked S.toLockPolicy lowest
  else
    w

def onExecute (w : World L) (id : PriorityId) (rep : ExecutionResponse) :
    Except Fault (World L × TxDecision) := do
  require (id.key ∈ w.executingTx) Fault.executingRemove
  let w ← releaseCus E { w with executingTx := w.executingTx.erase id.key } id
  let w ← S.releaseLocks w id
  let w := countExecution w rep.notIncludedReason
  if id.priority = bundleMarker ∨ ¬isRetryable rep.notIncludedReason then
    return (w, .drop)
  else
    let w ← S.retry w id rep
    return (S.trim w, .keep)

def onUnprocessed (w : World L) (id : PriorityId) : Except Fault (World L × TxDecision) :=
  if id.key ∈ w.executingTx then do
    let w ← S.releaseLocks { w with executingTx := w.executingTx.erase id.key } id
    let w ← releaseCus E w id
    if id.priority = bundleMarker then
      return (w, .drop)
    else
      let w := w.count fun s => { s with executeUnprocessed := s.executeUnprocessed + 1 }
      return (w.insertChecked S.toLockPolicy id, .keep)
  else
    .ok (w, .keep)

def onResponse (w : World L) (id : PriorityId) :
    WorkerAction → Except Fault (World L × TxDecision)
  | .unprocessed            => S.onUnprocessed E w id
  | .check rep resolvedKeys => S.onCheck E w id rep resolvedKeys
  | .execute rep            => S.onExecute E w id rep

-- One round of `bridge.drain_worker`: the answer to a request whose key was dropped is swallowed,
-- any other is handed to the callback, and the callback's decision is carried out.
def drainWorkerResponse (w : World L) (r : Request) (a : WorkerAction) :
    Except Fault (World L) :=
  if r.key ∈ w.live then do
    let (w, decision) ← S.onResponse E { w with toLedger := w.toLedger.answer r a } r.id a
    match decision with
    | .keep => return w
    | .drop => return w.dropTransaction r.key
  else
    .ok { w with toLedger := w.toLedger.swallow r }

end Scheduler
