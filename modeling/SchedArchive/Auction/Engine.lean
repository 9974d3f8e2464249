import Mathlib.Algebra.Order.Floor.Semiring
import Mathlib.Algebra.Order.Field.Basic
import SchedArchive.Lib.FiniteMap
import SchedArchive.Common.TipProgram

-- The auction engine: the lock manager with its queue depths, and the prices by which transactions
-- are scored. `f64` is read as an exact ordered field `R`; `ln` and `powf` are left open.

namespace AuctionEngine

structure Libm (R : Type) where
  ln   : R → R
  powf : R → R → R

-- The holders of one account, with `true` for a write lock.
abbrev AccountLockers := Finmap fun _ : TransactionKey => Bool

def AccountLockers.canLock (lockers : AccountLockers) : Bool → Bool
  | true  => lockers = ∅
  | false => decide (∀ e ∈ lockers.entries, e.2 = false)

structure LockManager (R : Type) where
  accountLocks : Finmap fun _ : Pubkey => AccountLockers
  queueDepths  : Finmap fun _ : Pubkey => R
  decayRate    : R

section

variable {R : Type} [Field R] [LinearOrder R]

namespace LockManager

def withDecayRate (decayRate : R) : LockManager R where
  accountLocks := ∅
  queueDepths  := ∅
  decayRate    := decayRate

def tryAcquire (m : LockManager R) (txLocks : List Lock) : Bool :=
  txLocks.all fun (addr, writable) => (m.accountLocks.lookup addr).all (·.canLock writable)

def acquireOne (key : TransactionKey) (m : LockManager R) : Lock → LockManager R
  | (addr, writable) =>
    let lockers := m.accountLocks.lookup addr |>.getD ∅
    { m with accountLocks := m.accountLocks.insert addr (lockers.insert key writable) }

def acquire (m : LockManager R) (key : TransactionKey) (txLocks : List Lock) : LockManager R :=
  txLocks.foldl (acquireOne key) m

def releaseOne (key : TransactionKey) (m : LockManager R) : Lock → LockManager R
  | (addr, _) =>
    match m.accountLocks.lookup addr with
    | none         => m
    | some lockers =>
      if lockers.erase key = ∅ then { m with accountLocks := m.accountLocks.erase addr }
      else { m with accountLocks := m.accountLocks.insert addr (lockers.erase key) }

def release (m : LockManager R) (key : TransactionKey) (txLocks : List Lock) : LockManager R :=
  txLocks.foldl (releaseOne key) m

def queueOne (m : LockManager R) : Lock → LockManager R
  | (addr, _) =>
    { m with queueDepths := m.queueDepths.insert addr ((m.queueDepths.lookup addr).getD 0 + 1) }

def queueTransaction (m : LockManager R) (txLocks : List Lock) : LockManager R :=
  txLocks.foldl queueOne m

def dequeueOne (m : LockManager R) : Lock → LockManager R
  | (addr, _) =>
    match m.queueDepths.lookup addr with
    | none       => m
    | some depth =>
      let depth := max depth 0 - 1
      if depth < 1 / 100 then { m with queueDepths := m.queueDepths.erase addr }
      else { m with queueDepths := m.queueDepths.insert addr depth }

def dequeueTransaction (m : LockManager R) (txLocks : List Lock) : LockManager R :=
  txLocks.foldl dequeueOne m

-- `decay_rate` is the fraction that is lost in a second.
def decay (libm : Libm R) (m : LockManager R) (elapsedMs : R) : LockManager R :=
  let factor := libm.powf (1 - m.decayRate) (elapsedMs / 1000)
  { m with
    queueDepths := m.queueDepths.filterMapValues fun depth =>
      if 1 / 100 < depth * factor then some (depth * factor) else none }

def clamp (lo hi x : R) : R :=
  max lo (min hi x)

def serializationPenalty (m : LockManager R) (txLocks : List Lock) : R :=
  let depths := txLocks.map fun (addr, _) => (m.queueDepths.lookup addr).getD 0
  clamp 0 (99 / 100) (depths.sum * 25 / 400)

def queueDepth (m : LockManager R) (account : Pubkey) : R :=
  (m.queueDepths.lookup account).getD 0

def totalQueueDepth (m : LockManager R) : R :=
  m.queueDepths.sumValues

end LockManager

structure EWMA (R : Type) where
  value : R
  alpha : R

def EWMA.update (e : EWMA R) (observation : R) : EWMA R :=
  { e with value := e.alpha * observation + (1 - e.alpha) * e.value }

structure AuctionEngineConfig (R : Type) where
  cuAlpha            : R
  lockAlpha          : R
  timeAlpha          : R
  spaceAlpha         : R
  lockDecayRate      : R
  entropyTheta       : R
  entropyK           : R
  baseCuPrice        : R
  baseWriteLockPrice : R
  baseReadLockPrice  : R
  baseTimePrice      : R
  baseSpacePrice     : R

def AuctionEngineConfig.default : AuctionEngineConfig R where
  cuAlpha            := 1 / 10
  lockAlpha          := 15 / 100
  timeAlpha          := 2 / 10
  spaceAlpha         := 5 / 100
  lockDecayRate      := 1 / 10
  entropyTheta       := 1 / 2
  entropyK           := 2
  baseCuPrice        := 1 / 100
  baseWriteLockPrice := 1000
  baseReadLockPrice  := 200
  baseTimePrice      := 500
  baseSpacePrice     := 1000

structure ResourcePrices (R : Type) where
  cu                 : EWMA R
  lock               : EWMA R
  time               : EWMA R
  space              : EWMA R
  baseCuPrice        : R
  baseWriteLockPrice : R
  baseReadLockPrice  : R
  baseTimePrice      : R
  baseSpacePrice     : R

def minPrice : R := 1 / 1000

def maxPrice : R := 10

namespace ResourcePrices

def new (config : AuctionEngineConfig R) : ResourcePrices R where
  cu                 := ⟨0, config.cuAlpha⟩
  lock               := ⟨0, config.lockAlpha⟩
  time               := ⟨0, config.timeAlpha⟩
  space              := ⟨0, config.spaceAlpha⟩
  baseCuPrice        := config.baseCuPrice
  baseWriteLockPrice := config.baseWriteLockPrice
  baseReadLockPrice  := config.baseReadLockPrice
  baseTimePrice      := config.baseTimePrice
  baseSpacePrice     := config.baseSpacePrice

def utilization (demand capacity : R) : R :=
  if 0 < capacity then LockManager.clamp minPrice maxPrice (demand / capacity) else maxPrice

def update (p : ResourcePrices R)
    (cuDemand cuCapacity lockDemand lockCapacity timeElapsed msRemaining fragmentation : R) :
    ResourcePrices R :=
  { p with
    cu    := p.cu.update (utilization cuDemand cuCapacity)
    lock  := p.lock.update (utilization lockDemand lockCapacity)
    time  := p.time.update (utilization timeElapsed msRemaining)
    space := p.space.update (LockManager.clamp minPrice maxPrice fragmentation) }

def totalCost (p : ResourcePrices R) (cu writeLocks readLocks : Nat) : R :=
  max (cu : R) 1 * p.cu.value * p.baseCuPrice +
    writeLocks * p.lock.value * p.baseWriteLockPrice +
    readLocks * p.lock.value * p.baseReadLockPrice +
    p.time.value * p.baseTimePrice +
    p.space.value * p.baseSpacePrice

end ResourcePrices

-- `OpportunityEntropy::update`.
def updateEntropy (libm : Libm R) (entropy p90Price : R) (lockCount : Nat) (cuDemand : R) : R :=
  let activityRatio := if 0 < lockCount then cuDemand / (lockCount * 1000) else cuDemand / 1000
  let current := min (libm.ln (max activityRatio 1) * (1 + p90Price)) 10
  9 / 10 * entropy + 1 / 10 * current

end

section QueueDepths

variable {R : Type} {m : LockManager R} {key : TransactionKey} {txLocks : List Lock}

-- Taking and releasing locks does not change the queue depths.

theorem queueDepths_acquire : (m.acquire key txLocks).queueDepths = m.queueDepths := by
  rw [LockManager.acquire]
  induction txLocks generalizing m
  case nil             => rfl
  case cons l locks ih => exact ih

theorem queueDepths_release : (m.release key txLocks).queueDepths = m.queueDepths := by
  rw [LockManager.release]
  induction txLocks generalizing m
  case nil => rfl
  case cons l locks ih =>
    obtain ⟨addr, _⟩ := l
    refine ih.trans ?_
    unfold LockManager.releaseOne
    dsimp only
    split
    case h_1 => rfl
    case h_2 => split_ifs <;> rfl

end QueueDepths

end AuctionEngine

open AuctionEngine

structure AuctionEngine (R : Type) where
  config       : AuctionEngineConfig R
  prices       : ResourcePrices R
  entropy      : R
  lockManager  : LockManager R
  lastTickTime : Option Nat

namespace AuctionEngine

structure TickStats (R : Type) where
  cuDemand      : R
  lockDemand    : R
  fragmentation : R
  p90Price      : R

variable {R : Type} [Field R] [LinearOrder R]

def new (config : AuctionEngineConfig R) : AuctionEngine R where
  config       := config
  prices       := .new config
  entropy      := 0
  lockManager  := .withDecayRate config.lockDecayRate
  lastTickTime := none

def updateBasePrices (e : AuctionEngine R)
    (baseCu baseWriteLock baseReadLock baseTime baseSpace : R) : AuctionEngine R :=
  { e with prices := { e.prices with
      baseCuPrice        := baseCu
      baseWriteLockPrice := baseWriteLock
      baseReadLockPrice  := baseReadLock
      baseTimePrice      := baseTime
      baseSpacePrice     := baseSpace } }

-- Time is in nanoseconds and the elapsed time in whole milliseconds.
def elapsedMs (e : AuctionEngine R) (now : Nat) : R :=
  match e.lastTickTime with
  | none      => 1
  | some last => ((now - last) / 1000000 : Nat)

def flexibilityCoeff (e : AuctionEngine R) : R :=
  e.config.entropyK * (1 - 1 / (1 + e.config.entropyTheta * |e.entropy|))

def acquireLocks (e : AuctionEngine R) (key : TransactionKey) (txLocks : List Lock) :
    AuctionEngine R × Bool :=
  if e.lockManager.tryAcquire txLocks then
    ({ e with lockManager := e.lockManager.acquire key txLocks }, true)
  else
    (e, false)

def releaseLocks (e : AuctionEngine R) (key : TransactionKey) (txLocks : List Lock) :
    AuctionEngine R :=
  { e with lockManager := e.lockManager.release key txLocks }

def queueTransaction (e : AuctionEngine R) (txLocks : List Lock) : AuctionEngine R :=
  { e with lockManager := e.lockManager.queueTransaction txLocks }

def dequeueTransaction (e : AuctionEngine R) (txLocks : List Lock) : AuctionEngine R :=
  { e with lockManager := e.lockManager.dequeueTransaction txLocks }

variable [IsStrictOrderedRing R] [FloorSemiring R]

-- `x as u64`: truncates towards zero and saturates.
def asU64 (x : R) : Nat :=
  min ⌊x⌋₊ u64Max

def processTick (libm : Libm R) (e : AuctionEngine R) (now : Nat) (stats : TickStats R)
    (remainingCu : Nat) (msRemaining : R) : AuctionEngine R :=
  let elapsed := e.elapsedMs now
  { e with
    lastTickTime := some now
    prices       := e.prices.update stats.cuDemand remainingCu stats.lockDemand 100 elapsed
                      msRemaining stats.fragmentation
    entropy      := updateEntropy libm e.entropy stats.p90Price (asU64 stats.lockDemand)
                      stats.cuDemand
    lockManager  := e.lockManager.decay libm elapsed }

-- The steps of `score`: the cost under the serialization penalty, the price of the resources, what the
-- transaction pays beyond it, and the scaling to a priority.

def effCu (m : LockManager R) (cost : Nat) (txLocks : List Lock) : Nat :=
  asU64 (max (cost * (1 + m.serializationPenalty txLocks)) 1)

def resourceCost (p : ResourcePrices R) (m : LockManager R) (cost : Nat) (txLocks : List Lock) : R :=
  p.totalCost (effCu m cost txLocks) (txLocks.countP (·.2)) (txLocks.length - txLocks.countP (·.2))

def surplus (e : AuctionEngine R) (details : CostDetails) (txLocks : List Lock) (paid : Nat) : R :=
  paid - resourceCost e.prices e.lockManager details.totalCost txLocks *
    (1 - e.flexibilityCoeff * (3 / 10))

def scaled (surplus : R) : R :=
  surplus * priorityMultiplier + 1000

def toPriority (x : R) : Nat :=
  if ((bundleMarker - 1 : Nat) : R) ≤ max x 0 then bundleMarker - 1 else asU64 (max x 0)

def priorityOf (e : AuctionEngine R) (details : CostDetails) (txLocks : List Lock) (paid : Nat) :
    Nat :=
  toPriority (scaled (e.surplus details txLocks paid))

theorem toPriority_le {x : R} : toPriority x ≤ bundleMarker - 1 := by
  unfold toPriority
  split_ifs with hx
  case pos => exact le_rfl
  case neg => exact (min_le_left ..).trans <| Nat.floor_le_of_le (not_le.mp hx).le

-- The priority that `score_with_auction` gives, as long as fee and tip fit in a `u64`.
def score (e : AuctionEngine R) (details : CostDetails) (txLocks : List Lock) (tip : Nat) : Nat :=
  e.priorityOf details txLocks (details.prioritizationFee + tip)

end AuctionEngine
