import Mathlib.Algebra.Ring.Nat
import SchedArchive.Lib.Outcome

-- How a handler of the schedulers can fail to return, and the `u64` arithmetic they use.

inductive Fault
  -- `assert!`s on the containers
  | executingInsert
  | executingRemove
  | checkedInsert
  | checkedRemove
  | deferredInsert
  -- panics of `lock`, `unlock`, `AccountLockers::insert` and `AccountLockers::remove`
  | unlockVacant
  | lockersInsert
  | lockersRemove
  -- arithmetic under `overflow-checks = true`
  | overflow
  -- `unwrap`s and indexing
  | evictUnchecked
  | evictChecked
  | evictBundle
  | tipConfig
  | queueFull
  | emptyBundle
  -- checks on what the outside sends
  | checkReason
  | checkFlags
  | agaveDisconnected
  | jitoDisconnected
  -- a loop that never ends
  | hang
  deriving DecidableEq

namespace Fault

-- The asserts on `executing_tx`, `checked_tx` and `deferred_tx`.
def IsCustody (f : Fault) : Prop :=
  f ∈ [executingInsert, executingRemove, checkedInsert, checkedRemove, deferredInsert]

-- The panics of the lock table.
def IsLock (f : Fault) : Prop :=
  f ∈ [unlockVacant, lockersInsert, lockersRemove]

instance (f : Fault) : Decidable f.IsCustody :=
  inferInstanceAs <| Decidable (_ ∈ _)

instance (f : Fault) : Decidable f.IsLock :=
  inferInstanceAs <| Decidable (_ ∈ _)

end Fault

abbrev u64Max : Nat := 2 ^ 64 - 1

namespace Machine

def saturatingAdd (a b : Nat) : Nat :=
  min (a + b) u64Max

def saturatingMul (a b : Nat) : Nat :=
  min (a * b) u64Max

def checkedMul (a b : Nat) : Option Nat :=
  if a * b ≤ u64Max then some (a * b) else none

-- `a + b` on `u64`: a build with overflow checks panics where a release build wraps around.
def add (checks : Bool) (a b : Nat) : Except Fault Nat :=
  if a + b ≤ u64Max then .ok (a + b)
  else if checks then .error .overflow
  else .ok ((a + b) % 2 ^ 64)

def sub (checks : Bool) (a b : Nat) : Except Fault Nat :=
  if b ≤ a then .ok (a - b)
  else if checks then .error .overflow
  else .ok (a + 2 ^ 64 - b)

theorem add_eq_ok {checks : Bool} {a b : Nat} (h : a + b ≤ u64Max) :
    add checks a b = .ok (a + b) := by
  simp [add, h]

theorem sub_eq_ok {checks : Bool} {a b : Nat} (h : b ≤ a) : sub checks a b = .ok (a - b) := by
  simp [sub, h]

theorem eq_mod_of_add_eq_ok {checks : Bool} {a b c : Nat} (h : add checks a b = .ok c) :
    c = (a + b) % 2 ^ 64 := by
  unfold add at h
  split_ifs at h with ha
  · rw [← Except.ok.inj h, Nat.mod_eq_of_lt (Nat.lt_of_le_pred (by decide) ha)]
  · exact (Except.ok.inj h).symm

-- Only a build with overflow checks can fault.

theorem ensures_add {checks : Bool} {a b : Nat} {F : Fault → Prop} (hf : checks → F .overflow) :
    (add checks a b).Ensures (fun _ => True) F := by
  unfold add
  split_ifs with ha hc
  case pos => trivial
  case pos => exact hf hc
  case neg => trivial

theorem ensures_sub {checks : Bool} {a b : Nat} {F : Fault → Prop} (hf : checks → F .overflow) :
    (sub checks a b).Ensures (fun _ => True) F := by
  unfold sub
  split_ifs with hb hc
  case pos => trivial
  case pos => exact hf hc
  case neg => trivial

theorem cases_sub {checks : Bool} {a b : Nat} : (sub checks a b).Ensures
    (fun x => checks → b ≤ a ∧ x = a - b) (fun f => f = .overflow ∧ checks = true ∧ a < b) := by
  unfold sub
  split_ifs with hb hc
  case pos => exact fun _ => ⟨hb, rfl⟩
  case pos => exact ⟨rfl, hc, Nat.lt_of_not_le hb⟩
  case neg => exact fun h => absurd h hc

-- What becomes of a sum that is exactly `n`, in whatever order it is added up.
def total (checks : Bool) (n : Nat) : Except Fault Nat :=
  if n ≤ u64Max then .ok n
  else if checks then .error .overflow
  else .ok (n % 2 ^ 64)

section Total

variable {checks : Bool} {m n : Nat} {β : Type} {f : Nat → Except Fault β}

theorem add_eq_total : add checks m n = total checks (m + n) :=
  rfl

theorem total_eq_ok (h : n ≤ u64Max) : total checks n = .ok n :=
  if_pos h

theorem total_release : total false n = .ok (n % 2 ^ 64) := by
  by_cases hn : n ≤ u64Max
  case pos => rw [total_eq_ok hn, Nat.mod_eq_of_lt <| Nat.lt_of_le_pred (by decide) hn]
  case neg => simp [total, hn]

theorem total_overflow (h : ¬n ≤ u64Max) : total true n = .error .overflow := by
  simp [total, h]

theorem cases_total : (total checks n).Ensures
    (fun x => x = n % 2 ^ 64 ∧ (checks → n ≤ u64Max))
    (fun f => f = .overflow ∧ checks = true ∧ u64Max < n) := by
  unfold total
  split_ifs with hn hc
  case pos => exact ⟨(Nat.mod_eq_of_lt <| Nat.lt_of_le_pred (by decide) hn).symm, fun _ => hn⟩
  case pos => exact ⟨rfl, hc, Nat.lt_of_not_le hn⟩
  case neg => exact ⟨rfl, fun h => absurd h hc⟩

theorem total_bind : (total checks m >>= fun a => total checks (a + n) >>= f) =
    total checks (m + n) >>= f := by
  cases checks
  case false =>
    simp only [total_release]
    change Except.bind (.ok _) f = Except.bind (.ok _) f
    rw [Nat.mod_add_mod]
  case true =>
    by_cases hm : m ≤ u64Max
    case pos => rw [total_eq_ok hm]; rfl
    case neg =>
      rw [total_overflow hm, total_overflow fun h => hm <| Nat.le_trans (Nat.le_add_right ..) h]
      rfl

-- It does not matter which of two sums is added up first.
theorem total_comm {f : Nat → Nat → Except Fault β} :
    (total checks m >>= fun a => total checks n >>= fun b => f a b) =
      total checks n >>= fun b => total checks m >>= fun a => f a b := by
  cases checks
  case false => simp only [total_release]; rfl
  case true =>
    by_cases hm : m ≤ u64Max
    case pos => simp only [total_eq_ok hm]; rfl
    case neg =>
      by_cases hn : n ≤ u64Max
      case pos => simp only [total_eq_ok hn]; rfl
      case neg => rw [total_overflow hm, total_overflow hn]; rfl

theorem total_bind_bind : (total checks m >>= fun a => total checks n >>= fun b =>
    total checks (a + b) >>= f) = total checks (m + n) >>= f := by
  have hb (a : Nat) : (total checks n >>= fun b => total checks (a + b) >>= f) =
      total checks (a + n) >>= f := by
    simpa only [Nat.add_comm] using total_bind (m := n) (n := a)
  simp only [hb, total_bind]

theorem foldlM_add {l : List Nat} :
    (total checks m >>= fun a => l.foldlM (add checks) a) = total checks (m + l.sum) := by
  induction l generalizing m
  case nil => exact bind_pure _
  case cons n l ih =>
    simp only [List.foldlM_cons, add_eq_total, List.sum_cons]
    rw [total_bind, ih, Nat.add_assoc]

theorem exists_total_eq_ok_iff : (∃ a, total checks n = .ok a) ↔ (checks → n ≤ u64Max) := by
  by_cases hn : n ≤ u64Max
  case pos => exact iff_of_true ⟨n, total_eq_ok hn⟩ fun _ => hn
  case neg =>
    cases checks
    case false => exact iff_of_true ⟨_, total_release⟩ nofun
    case true  => simp [total_overflow hn, hn]

-- Exact or saturated: the sum fits, or it happens to wrap around to the top.
theorem total_eq_saturated_iff : total checks n = .ok (min n u64Max) ↔
    n ≤ u64Max ∨ (checks = false ∧ n % 2 ^ 64 = u64Max) := by
  by_cases hn : n ≤ u64Max
  case pos => simp [total_eq_ok hn, hn]
  case neg =>
    rw [Nat.min_eq_right <| Nat.le_of_not_le hn, or_iff_right hn]
    cases checks
    case false => rw [total_release, Except.ok.injEq, and_iff_right rfl]
    case true  => simp [total_overflow hn]

end Total

end Machine
