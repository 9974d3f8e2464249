import Mathlib.Data.Rat.Floor
import SchedArchive.Auction.Market

-- What the auction engine records of the ticks of a slot.

namespace Market

open AuctionEngine

variable {R : Type} [Field R]

def mean (xs : List R) : R :=
  if xs = [] then 0 else xs.sum / xs.length

-- The average is over the last 64 values: the empty places of the window add nothing.
theorem average_pushAll {xs : List R} :
    SlidingDemand.average (RingBuffer.pushAll 0 xs) = mean (xs.rtake 64) := by
  have hh : (RingBuffer.pushAll 0 xs : SlidingDemand R).Holds 0 xs := RingBuffer.holds_pushAll
  have hc := hh.count
  have hs : Finset.univ.sum (RingBuffer.pushAll 0 xs : SlidingDemand R).slots = (xs.rtake 64).sum := by
    change (RingBuffer.pushAll 0 xs : SlidingDemand R).contents.sum = _
    rw [RingBuffer.contents_pushAll, Multiset.sum_add, Multiset.sum_replicate, nsmul_zero, add_zero,
      Multiset.sum_coe]
  have hl : (xs.rtake 64).length = min xs.length 64 := by
    rw [List.rtake, List.length_drop]
    omega
  simp only [SlidingDemand.average, mean, hs, hc, ← hl, List.length_eq_zero_iff]

variable [LinearOrder R]

-- The engine after any calls, with the statistics of the ticks since the last reset.
inductive Runs [FloorSemiring R] (libm : Libm R) (config : AuctionEngineConfig R) (maxBlockCu : Nat) :
    List (TickStats R) → Market R → Prop
  | new : Runs libm config maxBlockCu [] (.new config maxBlockCu)
  | processTick {ticks m now stats remainingCu msRemaining} :
    Runs libm config maxBlockCu ticks m →
    Runs libm config maxBlockCu (ticks ++ [stats])
      (m.processTick libm now stats remainingCu msRemaining)
  | reset {ticks m} : Runs libm config maxBlockCu ticks m → Runs libm config maxBlockCu [] m.reset
  | updateBasePrices {ticks m baseCu baseWriteLock baseReadLock baseTime baseSpace} :
    Runs libm config maxBlockCu ticks m → Runs libm config maxBlockCu ticks
      (m.updateBasePrices baseCu baseWriteLock baseReadLock baseTime baseSpace)
  | acquireLocks {ticks m key txLocks} :
    Runs libm config maxBlockCu ticks m →
    Runs libm config maxBlockCu ticks (m.acquireLocks key txLocks).1
  | releaseLocks {ticks m key txLocks} :
    Runs libm config maxBlockCu ticks m →
    Runs libm config maxBlockCu ticks (m.releaseLocks key txLocks)
  | queueTransaction {ticks m txLocks} :
    Runs libm config maxBlockCu ticks m →
    Runs libm config maxBlockCu ticks (m.queueTransaction txLocks)
  | dequeueTransaction {ticks m txLocks} :
    Runs libm config maxBlockCu ticks m →
    Runs libm config maxBlockCu ticks (m.dequeueTransaction txLocks)

-- The demand windows, given the ticks since the last reset.
structure Recorded (maxBlockCu : Nat) (ticks : List (TickStats R)) (m : Market R) : Prop where
  cuDemand     : m.cuDemand = RingBuffer.pushAll 0 (ticks.map (·.cuDemand))
  lockDemand   : m.lockDemand = RingBuffer.pushAll 0 (ticks.map (·.lockDemand))
  cuAllocation : m.cuAllocation = .new maxBlockCu

variable [FloorSemiring R] {libm : Libm R} {config : AuctionEngineConfig R} {maxBlockCu : Nat}
variable {ticks : List (TickStats R)} {m : Market R}

theorem recorded (h : Runs libm config maxBlockCu ticks m) : Recorded maxBlockCu ticks m := by
  induction h
  case new      => exact ⟨rfl, rfl, rfl⟩
  case reset ih =>
    refine ⟨rfl, rfl, ?_⟩
    rw [reset, ih.cuAllocation]
    rfl
  case processTick ih =>
    constructor
    case cuDemand =>
      rw [List.map_append, List.map_singleton, RingBuffer.pushAll_concat, ← ih.cuDemand]
      rfl
    case lockDemand =>
      rw [List.map_append, List.map_singleton, RingBuffer.pushAll_concat, ← ih.lockDemand]
      rfl
    case cuAllocation => exact ih.cuAllocation
  case updateBasePrices ih | acquireLocks ih | releaseLocks ih | queueTransaction ih |
      dequeueTransaction ih =>
    exact ⟨ih.cuDemand, ih.lockDemand, ih.cuAllocation⟩

-- Whatever is called in between, the engine averages the demands of the last 64 ticks since the last
-- reset, and it never takes anything from the compute units that are available.
theorem demand_windows (h : Runs libm config maxBlockCu ticks m) :
    m.cuDemand.average = mean ((ticks.map (·.cuDemand)).rtake 64) ∧
    m.lockDemand.average = mean ((ticks.map (·.lockDemand)).rtake 64) ∧
    m.availableCu = maxBlockCu := by
  have hr := recorded h
  refine ⟨?_, ?_, ?_⟩
  · rw [hr.cuDemand, average_pushAll]
  · rw [hr.lockDemand, average_pushAll]
  · simp [availableCu, hr.cuAllocation, CUAllocation.availableCu, CUAllocation.new]

theorem Runs.foldl {now remainingCu msRemaining : Nat} {more : List (TickStats R)}
    (h : Runs libm config maxBlockCu ticks m) :
    Runs libm config maxBlockCu (ticks ++ more)
      (more.foldl (fun m stats => m.processTick libm now stats remainingCu msRemaining) m) := by
  induction more generalizing ticks m
  case nil                => simpa using h
  case cons stats more ih =>
    rw [List.append_cons]
    exact ih h.processTick

-- One busy tick, and 64 quiet ones that fill the window after it.
def Sample.stats : List (TickStats ℚ) :=
  ⟨30000000, 40, 1 / 2, 1⟩ :: List.replicate 64 ⟨10000000, 20, 0, 1⟩

def Sample.market : Market ℚ :=
  Sample.stats.foldl (fun m stats => m.processTick ⟨fun _ => 0, fun _ _ => 1⟩ 0 stats 60000000 200)
    (Market.new .default 60000000).reset

theorem demand_windows_ticks :
    Sample.market.cuDemand.average = 10000000 ∧ Sample.market.lockDemand.average = 20 ∧
    Sample.market.availableCu = 60000000 := by
  have h : Runs ⟨fun _ => 0, fun _ _ => 1⟩ .default 60000000 Sample.stats Sample.market :=
    .foldl <| .reset .new
  have ⟨hc, hl, ha⟩ := demand_windows h
  exact ⟨hc.trans <| by decide +kernel, hl.trans <| by decide +kernel, ha⟩

end Market
