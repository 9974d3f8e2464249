import Mathlib.Data.Multiset.Bind
import Mathlib.Data.Finset.Dedup
import SchedArchive.Lib.Ordered
import SchedArchive.Common.TipProgram

-- What both schedulers and the bridge record about the transactions in their care.

-- What stays fixed during a run: the bridge's supply of keys, the build profile and the arguments
-- with which the scheduler was created.
structure Env where
  keyAt              : Nat → TransactionKey
  keyAt_injective    : Function.Injective keyAt
  overflowChecks     : Bool
  burnPercent        : Nat
  workerCount        : Nat
  queueCapacity      : Nat
  queueCapacity_pos  : 0 < queueCapacity
  events             : Bool
  keypair            : Pubkey
  tip                : TipProgram.TipDistributionArgs
  findProgramAddress : Pubkey → Nat → Pubkey
  configuredFilter   : Finset Pubkey

-- `new_with_jito`: the tip program is filtered whatever the configuration says.
def Env.filterKeys (E : Env) : Finset Pubkey :=
  insert TipProgram.tipPaymentProgram E.configuredFilter

-- A CHECK request is the first of its transaction when it was taken from `unchecked_tx`.
inductive RequestKind
  | firstCheck
  | recheck
  | execute
  deriving DecidableEq

structure Request where
  id   : PriorityId
  kind : RequestKind
  deriving DecidableEq

abbrev Request.key (r : Request) : TransactionKey :=
  r.id.key

inductive PackFlags
  | check
  | execute (dropOnFailure allOrNothing : Bool)
  deriving DecidableEq

structure ScheduleBatch where
  worker         : Nat
  transactions   : List Request
  maxWorkingSlot : Nat
  flags          : PackFlags
  deriving DecidableEq

-- The bits of one flag byte of a check response: `other` is any bit without a name.
structure StepFlags where
  requested : Bool
  performed : Bool
  failed    : Bool
  other     : Bool
  deriving DecidableEq

def StepFlags.done : StepFlags :=
  ⟨true, true, false, false⟩

structure CheckResponse where
  parsingAndSanitizationFlags : StepFlags
  statusCheckFlags            : StepFlags
  feePayerBalanceFlags        : StepFlags
  resolveFlags                : StepFlags
  deriving DecidableEq

inductive NotIncludedReason
  | none
  | accountInUse
  | bankNotAvailable
  | wouldExceedMaxBlockCostLimit
  | wouldExceedMaxAccountCostLimit
  | wouldExceedAccountDataBlockLimit
  | wouldExceedMaxVoteCostLimit
  | wouldExceedAccountDataTotalLimit
  | other (code : UInt8)
  deriving DecidableEq

structure ExecutionResponse where
  executionSlot     : Nat
  notIncludedReason : NotIncludedReason
  deriving DecidableEq

inductive WorkerAction
  | unprocessed
  | check (rep : CheckResponse) (resolvedKeys : Option (List Pubkey))
  | execute (rep : ExecutionResponse)
  deriving DecidableEq

inductive TxDecision
  | keep
  | drop
  deriving DecidableEq

structure Answer where
  request : Request
  action  : WorkerAction
  deriving DecidableEq

-- What is sent for execution as a whole.
inductive SchedulingUnit
  | transaction (key : TransactionKey)
  | bundle (keys : List TransactionKey)
  | tipPair (init change : TransactionKey)
  deriving DecidableEq

def SchedulingUnit.keys : SchedulingUnit → List TransactionKey
  | transaction key     => [key]
  | bundle keys         => keys
  | tipPair init change => [init, change]

-- The containers of a scheduler, its lock state `L`, and the transactions and requests of the
-- bridge. The last five fields are history: handlers write them and never read them.
structure Ledger (L : Type) where
  uncheckedTx : Multiset PriorityId
  checkedTx   : Finset PriorityId
  executingTx : Finset TransactionKey
  deferredTx  : List PriorityId
  bundles     : Finset BundleId
  inFlightCus : Nat
  locks       : L
  data        : TransactionKey → Tx
  resolved    : Finset TransactionKey
  live        : Finset TransactionKey
  inserted    : Nat
  inFlight    : Multiset Request
  dropped     : List TransactionKey
  sent        : List ScheduleBatch
  answered    : List Answer
  units       : List SchedulingUnit
  viaBundle   : List TransactionKey

namespace Ledger

variable {L : Type}

def empty (locks : L) : Ledger L where
  uncheckedTx := 0
  checkedTx   := ∅
  executingTx := ∅
  deferredTx  := []
  bundles     := ∅
  inFlightCus := 0
  locks       := locks
  data        := fun _ => Tx.empty
  resolved    := ∅
  live        := ∅
  inserted    := 0
  inFlight    := 0
  dropped     := []
  sent        := []
  answered    := []
  units       := []
  viaBundle   := []

-- The key `insert_transaction` hands out next.
def nextKey (E : Env) (l : Ledger L) : TransactionKey :=
  E.keyAt l.inserted

-- `bridge.transaction(key).locks()`.
def locksOf (l : Ledger L) (key : TransactionKey) : List Lock :=
  if key ∈ l.resolved then (l.data key).resolvedLocks else (l.data key).locks

def keyedLocks (l : Ledger L) (keys : List TransactionKey) : List (TransactionKey × List Lock) :=
  keys.map fun key => (key, l.locksOf key)

def insertTransaction (E : Env) (l : Ledger L) (tx : Tx) : Ledger L :=
  { l with
    data     := Function.update l.data (l.nextKey E) tx
    live     := insert (l.nextKey E) l.live
    inserted := l.inserted + 1 }

def dropTransaction (l : Ledger L) (key : TransactionKey) : Ledger L :=
  { l with
    live    := l.live.erase key
    dropped := key :: l.dropped }

-- The bridge keeps the accounts that the check of an admitted transaction has resolved.
def resolve (l : Ledger L) (key : TransactionKey) (resolvedKeys : Option (List Pubkey)) : Ledger L :=
  { l with resolved := if resolvedKeys.isSome then insert key l.resolved else l.resolved }

-- The bridge hands an answer to the scheduler.
def answer (l : Ledger L) (r : Request) (a : WorkerAction) : Ledger L :=
  { l with
    inFlight := l.inFlight.erase r
    answered := ⟨r, a⟩ :: l.answered }

-- The bridge swallows the answer to a request for a dropped key.
def swallow (l : Ledger L) (r : Request) : Ledger L :=
  { l with inFlight := l.inFlight.erase r }

-- The bridge takes a batch of requests.
def send (l : Ledger L) (b : ScheduleBatch) : Ledger L :=
  { l with
    inFlight := ↑b.transactions + l.inFlight
    sent     := b :: l.sent }

variable {E : Env} {l : Ledger L} {tx : Tx} {key : TransactionKey}

theorem locksOf_nextKey (hl : tx.lookups = []) :
    (l.insertTransaction E tx).locksOf (l.nextKey E) = tx.locks := by
  simp [locksOf, insertTransaction, Tx.resolvedLocks, hl]

theorem locksOf_insertTransaction (hk : key ≠ l.nextKey E) :
    (l.insertTransaction E tx).locksOf key = l.locksOf key := by
  simp [locksOf, insertTransaction, hk]

end Ledger
