import Mathlib.Data.Finset.Max
import Mathlib.Data.Finset.Card
import Mathlib.Data.Multiset.UnionInter
import Mathlib.Data.Finset.Dedup

-- The ends of a finite set over a linear order, as a balanced tree (`BTreeSet`) and a double-ended
-- heap (`MinMaxHeap`) expose them.

namespace Finset

variable {α : Type*} [LinearOrder α] {s : Finset α} {a b c : α}

def last (s : Finset α) : Option α :=
  if h : s.Nonempty then some (s.max' h) else none

def first (s : Finset α) : Option α :=
  if h : s.Nonempty then some (s.min' h) else none

-- The greatest element strictly below `c`: `range(..c).next_back()`.
def below (s : Finset α) (c : α) : Option α :=
  last <| s.filter (· < c)

-- The first hit of a scan from the greatest element down: `iter().rev().find(p)`.
def findLast (s : Finset α) (p : α → Bool) : Option α :=
  last <| s.filter (p ·)

-- The elements in ascending order.
def ascending (s : Finset α) : List α :=
  go s.card s
where
  go : Nat → Finset α → List α
    | 0, _     => []
    | n + 1, s =>
      match first s with
      | none   => []
      | some a => a :: go n (s.erase a)

theorem last_eq_some_iff : last s = some a ↔ a ∈ s ∧ ∀ b ∈ s, b ≤ a := by
  unfold last
  split
  case isTrue h  => simp [max'_eq_iff]
  case isFalse h => simp_all [not_nonempty_iff_eq_empty]

theorem first_eq_some_iff : first s = some a ↔ a ∈ s ∧ ∀ b ∈ s, a ≤ b := by
  unfold first
  split
  case isTrue h  => simp [min'_eq_iff]
  case isFalse h => simp_all [not_nonempty_iff_eq_empty]

@[simp]
theorem last_eq_none_iff : last s = none ↔ s = ∅ := by
  simp [last, not_nonempty_iff_eq_empty]

@[simp]
theorem first_eq_none_iff : first s = none ↔ s = ∅ := by
  simp [first, not_nonempty_iff_eq_empty]

theorem last_mem (h : last s = some a) : a ∈ s :=
  last_eq_some_iff.mp h |>.left

theorem first_mem (h : first s = some a) : a ∈ s :=
  first_eq_some_iff.mp h |>.left

theorem below_eq_some_iff : below s c = some a ↔ (a ∈ s ∧ a < c) ∧ ∀ b ∈ s, b < c → b ≤ a := by
  simp [below, last_eq_some_iff]

theorem exists_below (ha : a ∈ s) (hc : a < c) : ∃ b ∈ below s c, a ≤ b := by
  cases hb : below s c
  case none =>
    have he : s.filter (· < c) = ∅ := last_eq_none_iff.mp hb
    exact absurd (mem_filter.mpr ⟨ha, hc⟩) <| he ▸ notMem_empty a
  case some b => exact ⟨b, rfl, (below_eq_some_iff.mp hb).right a ha hc⟩

theorem findLast_eq_some_iff {p : α → Bool} :
    findLast s p = some a ↔ (a ∈ s ∧ p a) ∧ ∀ b ∈ s, p b → b ≤ a := by
  simp [findLast, last_eq_some_iff]

theorem findLast_eq_none_iff {p : α → Bool} : findLast s p = none ↔ ∀ a ∈ s, ¬p a := by
  simp [findLast, filter_eq_empty_iff]

theorem coe_ascending_go {n : Nat} (h : s.card = n) : (ascending.go n s : Multiset α) = s.val := by
  induction n generalizing s
  case zero => simp_all [ascending.go]
  case succ n hi =>
    rw [ascending.go]
    split
    case h_1 h' => simp_all
    case h_2 a h' =>
      have hm := first_mem h'
      rw [← Multiset.cons_coe, hi (by simp [card_erase_of_mem hm, h]), erase_val]
      exact Multiset.cons_erase hm

theorem coe_ascending : (s.ascending : Multiset α) = s.val :=
  coe_ascending_go rfl

@[simp]
theorem mem_ascending : a ∈ s.ascending ↔ a ∈ s := by
  rw [← Multiset.mem_coe, coe_ascending, mem_val]

theorem nodup_ascending : s.ascending.Nodup := by
  rw [← Multiset.coe_nodup, coe_ascending]
  exact s.nodup

end Finset

namespace Multiset

variable {α : Type*} [LinearOrder α] {s t : Multiset α} {a : α}

def popMin (s : Multiset α) : Option (α × Multiset α) :=
  s.toFinset.first.map fun a => (a, s.erase a)

def popMax (s : Multiset α) : Option (α × Multiset α) :=
  s.toFinset.last.map fun a => (a, s.erase a)

theorem popMin_eq_some (h : popMin s = some (a, t)) :
    s = a ::ₘ t ∧ ∀ b ∈ t, a ≤ b := by
  obtain ⟨a', ha, h⟩ := Option.map_eq_some_iff.mp h
  cases h
  have ⟨hm, hl⟩ := Finset.first_eq_some_iff.mp ha
  simp only [mem_toFinset] at hm hl
  exact ⟨(cons_erase hm).symm, fun b hb => hl b <| mem_of_mem_erase hb⟩

theorem popMax_eq_some (h : popMax s = some (a, t)) :
    s = a ::ₘ t ∧ ∀ b ∈ t, b ≤ a := by
  obtain ⟨a', ha, h⟩ := Option.map_eq_some_iff.mp h
  cases h
  have ⟨hm, hl⟩ := Finset.last_eq_some_iff.mp ha
  simp only [mem_toFinset] at hm hl
  exact ⟨(cons_erase hm).symm, fun b hb => hl b <| mem_of_mem_erase hb⟩

@[simp]
theorem popMin_eq_none : popMin s = none ↔ s = 0 := by
  simp [popMin]

@[simp]
theorem popMax_eq_none : popMax s = none ↔ s = 0 := by
  simp [popMax]

-- `l` is taken from `s` from the greatest element down, and `t` is what is left.
structure Drawn (s : Multiset α) (l : List α) (t : Multiset α) : Prop where
  total : ↑l + t = s
  order : l.Pairwise (· ≥ ·)
  rest  : ∀ a ∈ l, ∀ b ∈ t, b ≤ a

namespace Drawn

variable {u : Multiset α} {l l' : List α}

theorem nil : Drawn s [] s :=
  ⟨by simp, .nil, by simp⟩

theorem append (h₁ : Drawn s l t) (h₂ : Drawn t l' u) : Drawn s (l ++ l') u where
  total := by rw [← h₁.total, ← h₂.total, ← coe_add, add_assoc]
  order := by
    refine List.pairwise_append.mpr ⟨h₁.order, h₂.order, fun a ha b hb => h₁.rest a ha b ?_⟩
    exact h₂.total ▸ mem_add.mpr (.inl hb)
  rest a ha b hb := by
    rcases List.mem_append.mp ha with ha | ha
    · exact h₁.rest a ha b <| h₂.total ▸ mem_add.mpr (.inr hb)
    · exact h₂.rest a ha b hb

theorem of_popMax (h : popMax s = some (a, t)) : Drawn s [a] t where
  total := by
    rw [(popMax_eq_some h).left]
    rfl
  order := List.pairwise_singleton ..
  rest  := by simpa using (popMax_eq_some h).right

theorem eq_nil (h : Drawn 0 l t) : l = [] ∧ t = 0 := by
  have hl : ↑l + t = (0 : Multiset α) := h.total
  rw [add_eq_zero_iff_of_nonneg (zero_le _) (zero_le _)] at hl
  exact ⟨coe_eq_zero l |>.mp hl.left, hl.right⟩

end Drawn

end Multiset
