import Mathlib.Order.WithBot
import SchedArchive.Auction.Engine

-- How the auction engine packs candidates into batches. A batch sums up the locks of its members in
-- one map, and a candidate joins a batch or opens a new one.

namespace AuctionEngine

structure TransactionCandidate where
  cuLimit     : Nat
  allLocks    : List Lock
  priorityFee : Nat
  cuLimit_le  : cuLimit ≤ u64Max := by decide
  deriving DecidableEq

structure TransactionBatch where
  cuUsed       : Nat
  locks        : Finmap fun _ : Pubkey => Bool
  transactions : List TransactionCandidate

namespace TransactionBatch

def new : TransactionBatch where
  cuUsed       := 0
  locks        := ∅
  transactions := []

-- The two tests are the two conflicts that the source names. Neither looks at a lock for reading.
def lockFits (b : TransactionBatch) : Lock → Bool
  | (addr, writable) =>
    match b.locks.lookup addr with
    | none          => true
    | some existing => !(writable && existing) && !(writable && !existing)

def canAdd (checks : Bool) (b : TransactionBatch) (txLocks : List Lock) (cu maxCu : Nat) :
    Except Fault Bool := do
  let used ← Machine.add checks b.cuUsed cu
  if maxCu < used then
    return false
  else
    return txLocks.all b.lockFits

def insertLock (locks : Finmap fun _ : Pubkey => Bool) : Lock → Finmap fun _ : Pubkey => Bool
  | (addr, writable) => locks.insert addr writable

def add (checks : Bool) (b : TransactionBatch) (tx : TransactionCandidate) :
    Except Fault TransactionBatch := do
  let used ← Machine.add checks b.cuUsed tx.cuLimit
  return {
    cuUsed       := used
    locks        := tx.allLocks.foldl insertLock b.locks
    transactions := b.transactions ++ [tx] }

end TransactionBatch

structure BatchScorer (R : Type) where
  acceptanceThreshold : R

def BatchScorer.default {R : Type} [Field R] : BatchScorer R :=
  ⟨0⟩

def auctionSurplus {R : Type} [Field R] [LinearOrder R] (prices : ResourcePrices R)
    (tx : TransactionCandidate) : R :=
  let writeLocks := tx.allLocks.countP (·.2)
  tx.priorityFee - prices.totalCost tx.cuLimit writeLocks (tx.allLocks.length - writeLocks)

section

variable {R : Type} [LinearOrder R] (checks : Bool) (scorer : BatchScorer R)
variable (surplus : TransactionCandidate → R) (maxCu : Nat)

-- The loop of `find_best_batch` from position `idx` on, with the best position so far and its
-- surplus, which is `f64::NEG_INFINITY` at first.
def findBestFrom (tx : TransactionCandidate) : Nat → Option Nat → WithBot R →
    List TransactionBatch → Except Fault (Option Nat)
  | _, best, _, []                       => .ok best
  | idx, best, bestSurplus, batch :: rest => do
    if ← batch.canAdd checks tx.allLocks tx.cuLimit maxCu then
      if bestSurplus < surplus tx then findBestFrom tx (idx + 1) (some idx) (surplus tx) rest
      else findBestFrom tx (idx + 1) best bestSurplus rest
    else
      findBestFrom tx (idx + 1) best bestSurplus rest

def findBestBatch (tx : TransactionCandidate) (batches : List TransactionBatch) :
    Except Fault (Option Nat) :=
  findBestFrom checks surplus maxCu tx 0 none ⊥ batches

-- `batches[idx].add(tx)`. There always is a batch at a position that `find_best_batch` returns.
def addAt (batches : List TransactionBatch) (idx : Nat) (tx : TransactionCandidate) :
    Except Fault (List TransactionBatch) :=
  match batches[idx]? with
  | none       => .ok batches
  | some batch => do
    let batch ← batch.add checks tx
    return batches.set idx batch

-- One round of the loop of `build_batches`.
def pack (batches : List TransactionBatch) (tx : TransactionCandidate) :
    Except Fault (List TransactionBatch) := do
  match ← findBestBatch checks surplus maxCu tx batches with
  | some idx => addAt checks batches idx tx
  | none     =>
    if ← TransactionBatch.new.canAdd checks tx.allLocks tx.cuLimit maxCu then
      if scorer.acceptanceThreshold < surplus tx then
        let batch ← TransactionBatch.new.add checks tx
        return batches ++ [batch]
      else
        return batches
    else
      return batches

-- With the surplus of each candidate left open.
def packAll (candidates : List TransactionCandidate) : Except Fault (List TransactionBatch) :=
  candidates.foldlM (pack checks scorer surplus maxCu) []

-- The pre-scan of `build_bundle_batch`, from the batch that holds what was scanned so far.
def preScan : TransactionBatch → List TransactionCandidate → Except Fault (Option TransactionBatch)
  | candidateBatch, []        => .ok (some candidateBatch)
  | candidateBatch, tx :: txs => do
    if ← candidateBatch.canAdd checks tx.allLocks tx.cuLimit maxCu then
      preScan (← candidateBatch.add checks tx) txs
    else
      return none

-- What `build_bundle_batch` returns, and the existing batches as it leaves them. The existing batches
-- are searched for one that takes the first transaction.
def packBundle (bundleTxs : List TransactionCandidate) (existing : List TransactionBatch) :
    Except Fault (Option TransactionBatch × List TransactionBatch) := do
  match ← preScan checks maxCu .new bundleTxs, bundleTxs with
  | none,                _          => return (none, existing)
  | some _,              []         => throw .emptyBundle
  | some candidateBatch, first :: _ =>
    match ← findBestBatch checks surplus maxCu first existing with
    | some idx =>
      let existing ← bundleTxs.foldlM (addAt checks · idx ·) existing
      return (existing[idx]?, existing)
    | none =>
      if scorer.acceptanceThreshold < surplus first then
        return (some candidateBatch, existing ++ [candidateBatch])
      else
        return (none, existing)

-- The rounds of the loop of `build_batches`: the batches so far and the candidate whose turn it is.
def rounds (batches : List TransactionBatch) :
    List TransactionCandidate → List (List TransactionBatch × TransactionCandidate)
  | []        => []
  | tx :: txs => (batches, tx) ::
    match pack checks scorer surplus maxCu batches tx with
    | .ok batches => rounds batches txs
    | .error _    => []

end

def buildBatches {R : Type} [Field R] [LinearOrder R] (checks : Bool) (scorer : BatchScorer R)
    (e : AuctionEngine R) (candidates : List TransactionCandidate) (maxCu : Nat) :
    Except Fault (List TransactionBatch) :=
  packAll checks scorer (auctionSurplus e.prices) maxCu candidates

def buildBundleBatch {R : Type} [Field R] [LinearOrder R] (checks : Bool) (scorer : BatchScorer R)
    (e : AuctionEngine R) (bundleTxs : List TransactionCandidate) (existing : List TransactionBatch)
    (maxCu : Nat) : Except Fault (Option TransactionBatch × List TransactionBatch) :=
  packBundle checks scorer (auctionSurplus e.prices) maxCu bundleTxs existing

end AuctionEngine
