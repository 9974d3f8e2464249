import SchedArchive.Scheduler.Ingest

-- How the schedulers hand out CHECK and EXECUTE requests.

def checkWorker : Nat := 0

-- `MAX_TRANSACTIONS_PER_MESSAGE`.
def maxCheckBatch : Nat := 64

namespace Scheduler

open Except World

variable {L : Type} (S : Scheduler L) (E : Env)

-- `pop_next`: unchecked transactions first, then the recheck cursor. The bound is one iteration for
-- each checked transaction, one for a stale cursor and one to find that there is nothing left.
def popNext (w : World L) : Except Fault (Option Request × World L) :=
  match w.uncheckedTx.popMax with
  | some (id, rest) => .ok (some ⟨id, .firstCheck⟩, { w with uncheckedTx := rest })
  | none =>
    match S.popRecheck w.checkedTx w.executingTx (w.checkedTx.card + 2) w.nextRecheck with
    | none                 => .error .hang
    | some (found, cursor) => .ok (found.map (⟨·, .recheck⟩), { w with nextRecheck := cursor })

-- `from_fn(pop_next).take(n)`.
def takeNext : Nat → World L → Except Fault (List Request × World L)
  | 0, w     => .ok ([], w)
  | n + 1, w => do
    match ← S.popNext w with
    | (none, w)   => return ([], w)
    | (some r, w) =>
      let (rs, w) ← takeNext n w
      return (r :: rs, w)

def checkBatch (rs : List Request) : ScheduleBatch where
  worker         := checkWorker
  transactions   := rs
  maxWorkingSlot := u64Max
  flags          := .check

-- The check worker goes on reading from its queue: `reads k` messages before the length of the queue
-- is looked at for the batch `k`. A batch takes transactions that are unchecked or due for a recheck,
-- so that their number bounds the number of rounds.
def scheduleChecksLoop : (Nat → Nat) → Nat → World L → Except Fault (World L)
  | _, 0, _         => .error .hang
  | reads, n + 1, w =>
    let w := w.workerReads checkWorker (reads 0)
    if w.queued checkWorker < w.runtime.maxCheckBatches ∧ w.queued checkWorker < E.queueCapacity then do
      let (rs, w) ← S.takeNext maxCheckBatch w
      if rs = [] then
        return w
      else
        let w ← w.schedule E (checkBatch rs)
        scheduleChecksLoop (fun k => reads (k + 1)) n w
    else
      .ok w

def scheduleChecks (reads : Nat → Nat) (w : World L) : Except Fault (World L) := do
  let start := w.uncheckedTx.card
  let w ← S.scheduleChecksLoop E reads (start + w.checkedTx.card + 1) w
  return w.count fun s =>
    { s with checkRequested := s.checkRequested + (start - w.uncheckedTx.card) }

-- `current_slot_progress + block_fill_cutoff` on `u8`.
def budgetPercentage (w : World L) : Except Fault Nat :=
  let progress := w.progress.currentSlotProgress
  let cutoff := w.runtime.blockFillCutoff
  if progress.toNat + cutoff.toNat < 256 then .ok (min (progress.toNat + cutoff.toNat) 100)
  else if E.overflowChecks then .error .overflow
  else .ok (min (progress + cutoff).toNat 100)

def budgetLimit (percentage : Nat) : Nat :=
  maxBlockUnits * percentage / 100

-- The budget with which `schedule_execute` starts.
def fillBudget (w : World L) : Except Fault Nat := do
  let percentage ← budgetPercentage E w
  let costUsed ← Machine.add E.overflowChecks
    (maxBlockUnits - w.progress.remainingCostUnits) w.inFlightCus
  return budgetLimit percentage - costUsed

def transactionBatch (w : World L) (worker : Nat) (tx : PriorityId) : ScheduleBatch where
  worker         := worker
  transactions   := [⟨tx, .execute⟩]
  maxWorkingSlot := w.progress.currentSlot + 1
  flags          := .execute false false

-- The requests of a bundle: the whole cost is carried by the first key.
def bundleIds (b : BundleId) : List PriorityId :=
  b.keys.mapIdx fun i key =>
    { priority := bundleMarker
      cost     := if i = 0 then b.cost else 0
      key      := key }

def bundleBatch (w : World L) (worker : Nat) (b : BundleId) : ScheduleBatch where
  worker         := worker
  transactions   := (bundleIds b).map (⟨·, .execute⟩)
  maxWorkingSlot := w.progress.currentSlot + 1
  flags          := .execute true true

def markExecuting (w : World L) (id : PriorityId) : Except Fault (World L) := do
  require (id.key ∉ w.executingTx) Fault.executingInsert
  return { w with executingTx := insert id.key w.executingTx }

def scheduleWorkers : List Nat → Nat → World L → Except Fault (World L)
  | [], _, w => .ok w
  | worker :: rest, budget, w =>
    -- If we are packing too fast, slow down.
    if budget = 0 then
      .ok w
    else if w.queued worker ≠ 0 then
      scheduleWorkers rest budget w
    else do
      let (w, budget, batch) ← S.tryBest E worker budget w
      if batch = [] then
        return w
      else
        let w ← batch.foldlM markExecuting w
        let w := w.count fun s =>
          { s with executeRequested := s.executeRequested + batch.length }
        scheduleWorkers rest budget w

-- `EXECUTE_WORKER_START..bridge.worker_count()`.
def executeWorkers : List Nat :=
  List.range' executeWorkerStart (E.workerCount - executeWorkerStart)

def scheduleExecute (w : World L) : Except Fault (World L) := do
  let budget ← fillBudget E w
  S.scheduleWorkers E (executeWorkers E) budget w

end Scheduler
