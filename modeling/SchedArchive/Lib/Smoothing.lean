import Mathlib.Algebra.Order.Field.Basic
import Mathlib.Tactic.Linarith
import Mathlib.Tactic.Ring

-- Exponential smoothing: each observation moves the value by a fixed share of the way towards it.

namespace Smoothing

variable {R : Type} [Field R] {α v x lo hi : R} {xs : List R}

def smooth (α v x : R) : R :=
  α * x + (1 - α) * v

-- Above and below are alike.

theorem smooth_neg : smooth α (-v) (-x) = -smooth α v x := by
  rw [smooth, smooth]
  ring

theorem foldl_neg : (xs.map (-·)).foldl (smooth α) (-v) = -xs.foldl (smooth α) v := by
  induction xs generalizing v
  case nil          => rfl
  case cons x xs ih => rw [List.map_cons, List.foldl_cons, smooth_neg, ih, List.foldl_cons]

variable [LinearOrder R] [IsStrictOrderedRing R]

theorem smooth_le (h₀ : 0 ≤ α) (hx : x ≤ hi) : smooth α v x - hi ≤ (1 - α) * (v - hi) := by
  have := mul_le_mul_of_nonneg_left hx h₀
  rw [smooth]
  linarith

-- With all observations at most `hi`, what the value lies above `hi` shrinks at least that fast.
theorem foldl_le (h₀ : 0 ≤ α) (h₁ : α ≤ 1) (hx : ∀ x ∈ xs, x ≤ hi) :
    xs.foldl (smooth α) v - hi ≤ (1 - α) ^ xs.length * (v - hi) := by
  induction xs generalizing v
  case nil => simp
  case cons x xs ih =>
    have hp : 0 ≤ (1 - α) ^ xs.length := pow_nonneg (sub_nonneg.mpr h₁) _
    calc (x :: xs).foldl (smooth α) v - hi
      _ ≤ (1 - α) ^ xs.length * (smooth α v x - hi) := ih fun y hy => hx y <| .tail x hy
      _ ≤ (1 - α) ^ xs.length * ((1 - α) * (v - hi)) :=
        mul_le_mul_of_nonneg_left (smooth_le h₀ <| hx x <| .head xs) hp
      _ = (1 - α) ^ (x :: xs).length * (v - hi) := by rw [List.length_cons, pow_succ, mul_assoc]

theorem le_foldl (h₀ : 0 ≤ α) (h₁ : α ≤ 1) (hx : ∀ x ∈ xs, lo ≤ x) :
    (1 - α) ^ xs.length * (v - lo) ≤ xs.foldl (smooth α) v - lo := by
  have hn : ∀ y ∈ xs.map (-·), y ≤ -lo := by
    intro y hy
    obtain ⟨x, hm, rfl⟩ := List.mem_map.mp hy
    exact neg_le_neg <| hx x hm
  have h := foldl_le (v := -v) h₀ h₁ hn
  rw [foldl_neg, List.length_map] at h
  linarith

end Smoothing
