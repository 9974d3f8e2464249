import Mathlib.Data.Rat.Floor
import SchedArchive.Auction.Engine

-- How much of the time that goes by the queue depths decay for.

namespace AuctionEngine

section Gaps

variable {start : Nat} {times : List Nat}

-- The time from each instant to the next, from `start` on.
def gaps : Nat → List Nat → List Nat
  | _, []            => []
  | start, t :: rest => (t - start) :: gaps t rest

theorem sum_gaps (h : (start :: times).Pairwise (· ≤ ·)) :
    (gaps start times).sum + start = times.getLastD start := by
  induction times generalizing start
  case nil => simp [gaps]
  case cons t rest ih =>
    obtain ⟨hs, hp⟩ := List.pairwise_cons.mp h
    have ht := hs t List.mem_cons_self
    rw [gaps, List.sum_cons, List.getLastD_cons, ← ih hp]
    omega

-- What is lost if each number is rounded down is what the remainders add up to.
theorem sum_div_add_sum_mod (n : Nat) (l : List Nat) :
    (l.map (· / n)).sum * n + (l.map (· % n)).sum = l.sum := by
  induction l
  case nil => simp
  case cons a l ih =>
    have ha := Nat.div_add_mod' a n
    simp only [List.map_cons, List.sum_cons, Nat.add_mul]
    omega

end Gaps

variable {R : Type} [Field R] [LinearOrder R] [FloorSemiring R]

structure Tick (R : Type) where
  now         : Nat
  stats       : TickStats R
  remainingCu : Nat
  msRemaining : R

def tick (libm : Libm R) (e : AuctionEngine R) (t : Tick R) : AuctionEngine R :=
  e.processTick libm t.now t.stats t.remainingCu t.msRemaining

-- The milliseconds for which each tick lets the queue depths decay.
def decayedMs (libm : Libm R) : AuctionEngine R → List (Tick R) → List R
  | _, []         => []
  | e, t :: ticks => e.elapsedMs t.now :: decayedMs libm (tick libm e t) ticks

abbrev nanosPerMs : Nat := 1000000

-- After the first tick, the depths decay for all of the time that goes by, up to a millisecond.
def DecaysInTime (libm : Libm R) (e : AuctionEngine R) (first : Tick R) (ticks : List (Tick R)) :
    Prop :=
  let span := (ticks.map Tick.now).getLastD first.now - first.now
  |(span : R) / nanosPerMs - (decayedMs libm (tick libm e first) ticks).sum| ≤ 1

variable {libm : Libm R} {e : AuctionEngine R} {first : Tick R} {ticks : List (Tick R)}

-- That is all the time that the queue depths see.
theorem lockManager_ticks : (ticks.foldl (tick libm) e).lockManager =
    (decayedMs libm e ticks).foldl (LockManager.decay libm) e.lockManager := by
  induction ticks generalizing e
  case nil             => rfl
  case cons t ticks ih => exact ih

theorem sum_decayedMs {start : Nat} (hl : e.lastTickTime = some start) :
    (decayedMs libm e ticks).sum =
      (((gaps start (ticks.map Tick.now)).map (· / nanosPerMs)).sum : Nat) := by
  induction ticks generalizing e start
  case nil => simp [decayedMs, gaps]
  case cons t ticks ih =>
    rw [decayedMs, List.sum_cons, ih rfl, elapsedMs, hl, List.map_cons, gaps, List.map_cons,
      List.sum_cons, Nat.cast_add]

-- Each tick rounds down, so the depths decay in time exactly if what is cut off adds up to at most a
-- millisecond.
theorem decays_in_time_iff [IsStrictOrderedRing R]
    (h : (first :: ticks).Pairwise fun t t' => t.now ≤ t'.now) :
    DecaysInTime libm e first ticks ↔
      ((gaps first.now (ticks.map Tick.now)).map (· % nanosPerMs)).sum ≤ nanosPerMs := by
  have hs : (gaps first.now (ticks.map Tick.now)).sum + first.now = _ := sum_gaps <| by
    rw [← List.map_cons, List.pairwise_map]
    exact h
  have hm : (0 : R) < nanosPerMs := Nat.cast_pos.mpr (by decide)
  rw [DecaysInTime, sum_decayedMs rfl, ← hs, Nat.add_sub_cancel,
    ← sum_div_add_sum_mod nanosPerMs (gaps first.now _), Nat.cast_add, Nat.cast_mul, add_div,
    mul_div_cancel_right₀ _ hm.ne', add_sub_cancel_left,
    abs_of_nonneg (div_nonneg (Nat.cast_nonneg _) hm.le), div_le_one hm, Nat.cast_le]

-- A tick at `now`, of a block of which half is left.
def Sample.tickAt (now : Nat) : Tick ℚ :=
  ⟨now, ⟨30000000, 40, 1 / 2, 1⟩, 30000000, 200⟩

def Sample.flat : Libm ℚ :=
  ⟨fun _ => 0, fun _ _ => 1⟩

-- Two ticks, each a millisecond and a half after the one before.
theorem decays_in_time_iff_slow : DecaysInTime Sample.flat (.new .default)
    (Sample.tickAt 0) [Sample.tickAt 1500000, Sample.tickAt 3000000] :=
  (decays_in_time_iff (by simp [Sample.tickAt])).mpr (by decide)

-- With a tick every 900 microseconds no time goes by for the queue depths.
theorem no_time_between_fast_ticks :
    decayedMs Sample.flat (tick Sample.flat (.new .default) (Sample.tickAt 0))
      [Sample.tickAt 900000, Sample.tickAt 1800000] = [0, 0] ∧
    ¬DecaysInTime Sample.flat (.new .default)
      (Sample.tickAt 0) [Sample.tickAt 900000, Sample.tickAt 1800000] := by
  have hd : decayedMs Sample.flat (tick Sample.flat (.new .default) (Sample.tickAt 0))
      [Sample.tickAt 900000, Sample.tickAt 1800000] = [0, 0] := by decide +kernel
  refine ⟨hd, fun h => ?_⟩
  rw [DecaysInTime, hd] at h
  exact absurd h (by decide +kernel)

end AuctionEngine
