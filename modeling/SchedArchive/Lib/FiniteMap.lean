import Mathlib.Data.Finmap
import Mathlib.Algebra.BigOperators.Group.Multiset.Basic

-- Finite maps with values of one type.

namespace Finmap

variable {α β γ : Type*} [DecidableEq α] {m : Finmap fun _ : α => β} {a a' : α} {b : β}

-- Maps every value, dropping the entries for which there is no image.
def filterMapValues (f : β → Option γ) (m : Finmap fun _ : α => β) : Finmap fun _ : α => γ :=
  keysLookupEquiv.symm ⟨(m.keys.filter fun a => ((m.lookup a).bind f).isSome,
    fun a => (m.lookup a).bind f), by
      intro a
      simp only [Finset.mem_filter, mem_keys, iff_and_self]
      intro h
      cases hm : m.lookup a
      case none   => simp [hm] at h
      case some b => exact mem_of_lookup_eq_some hm⟩

def sumValues [AddCommMonoid β] (m : Finmap fun _ : α => β) : β :=
  (m.entries.map (·.2)).sum

@[simp]
theorem lookup_filterMapValues (f : β → Option γ) :
    (m.filterMapValues f).lookup a = (m.lookup a).bind f := by
  simp [filterMapValues]

theorem lookup_insert_eq_ite :
    (m.insert a b).lookup a' = if a' = a then some b else m.lookup a' := by
  by_cases h : a' = a
  case pos => subst h; simp
  case neg => simp [h, lookup_insert_of_ne]

theorem lookup_erase_eq_ite : (m.erase a).lookup a' = if a' = a then none else m.lookup a' := by
  by_cases h : a' = a
  case pos => subst h; simp
  case neg => simp [h, lookup_erase_ne]

theorem eq_empty_iff_lookup : m = ∅ ↔ ∀ a, m.lookup a = none := by
  constructor
  case mp  => intro h; simp [h]
  case mpr => exact fun h => ext_lookup fun a => by simp [h a]

end Finmap
