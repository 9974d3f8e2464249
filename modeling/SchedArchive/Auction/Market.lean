import Mathlib.Algebra.BigOperators.Group.Finset.Defs
import SchedArchive.Lib.RingBuffer
import SchedArchive.Auction.Engine

-- The whole auction engine: with what it records besides the state from which it scores and locks,
-- and with the reset for a new slot.

namespace AuctionEngine

variable {R : Type} [Field R] [LinearOrder R]

abbrev SlidingDemand (R : Type) := RingBuffer R 64

namespace SlidingDemand

def default : SlidingDemand R :=
  .empty 0

def add (d : SlidingDemand R) (value : R) : SlidingDemand R :=
  d.push value

def average (d : SlidingDemand R) : R :=
  if d.count = 0 then 0 else Finset.univ.sum d.slots / d.count

end SlidingDemand

structure CUAllocation where
  maxCu     : Nat
  committed : Nat
  tentative : Nat

namespace CUAllocation

def new (maxCu : Nat) : CUAllocation :=
  ⟨maxCu, 0, 0⟩

def availableCu (a : CUAllocation) : Nat :=
  if a.maxCu < a.committed + a.tentative then 0 else a.maxCu - a.committed - a.tentative

def adjust (a : CUAllocation) (_price : R) : CUAllocation :=
  a

def reset (a : CUAllocation) : CUAllocation :=
  { a with committed := 0, tentative := 0 }

end CUAllocation

-- The locks go, the queue depths stay for the transactions that wait for the next slot.
def LockManager.reset (m : LockManager R) : LockManager R :=
  { m with accountLocks := ∅ }

def ResourcePrices.reset (p : ResourcePrices R) : ResourcePrices R :=
  { p with
    time  := { p.time with value := minPrice }
    space := { p.space with value := minPrice } }

end AuctionEngine

open AuctionEngine

structure Market (R : Type) extends AuctionEngine R where
  cuDemand     : SlidingDemand R
  lockDemand   : SlidingDemand R
  cuAllocation : CUAllocation
  tickStats    : TickStats R

namespace Market

variable {R : Type} [Field R] [LinearOrder R]

def new (config : AuctionEngineConfig R) (maxBlockCu : Nat) : Market R where
  toAuctionEngine := .new config
  cuDemand        := .default
  lockDemand      := .default
  cuAllocation    := .new maxBlockCu
  tickStats       := ⟨0, 0, 0, 0⟩

def availableCu (m : Market R) : Nat :=
  m.cuAllocation.availableCu

def processTick [FloorSemiring R] (libm : Libm R) (m : Market R) (now : Nat)
    (stats : TickStats R) (remainingCu : Nat) (msRemaining : R) : Market R :=
  let e := m.toAuctionEngine.processTick libm now stats remainingCu msRemaining
  { toAuctionEngine := e
    cuDemand        := m.cuDemand.add stats.cuDemand
    lockDemand      := m.lockDemand.add stats.lockDemand
    cuAllocation    := m.cuAllocation.adjust e.prices.cu.value
    tickStats       := stats }

def reset (m : Market R) : Market R :=
  { m with
    lockManager  := m.lockManager.reset
    prices       := m.prices.reset
    entropy      := 0
    cuAllocation := m.cuAllocation.reset
    lastTickTime := none
    cuDemand     := .default
    lockDemand   := .default }

-- What is left to the engine.

def updateBasePrices (m : Market R) (baseCu baseWriteLock baseReadLock baseTime baseSpace : R) :
    Market R :=
  { m with toAuctionEngine :=
      m.toAuctionEngine.updateBasePrices baseCu baseWriteLock baseReadLock baseTime baseSpace }

def acquireLocks (m : Market R) (key : TransactionKey) (txLocks : List Lock) : Market R × Bool :=
  let (e, acquired) := m.toAuctionEngine.acquireLocks key txLocks
  ({ m with toAuctionEngine := e }, acquired)

def releaseLocks (m : Market R) (key : TransactionKey) (txLocks : List Lock) : Market R :=
  { m with toAuctionEngine := m.toAuctionEngine.releaseLocks key txLocks }

def queueTransaction (m : Market R) (txLocks : List Lock) : Market R :=
  { m with toAuctionEngine := m.toAuctionEngine.queueTransaction txLocks }

def dequeueTransaction (m : Market R) (txLocks : List Lock) : Market R :=
  { m with toAuctionEngine := m.toAuctionEngine.dequeueTransaction txLocks }

end Market
