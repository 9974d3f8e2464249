import Mathlib.Data.Finset.Basic
import Mathlib.Data.Finset.Filter
import Mathlib.Data.Finset.Lattice.Lemmas

-- Read and write locks on accounts `A` held by keys `K`. A lock is an account and whether it is
-- locked for writing.

namespace LockTable

variable {K A : Type*}

abbrev Holders (K A : Type*) :=
  A × Bool → Finset K

-- Two lists of locks conflict if they share an account that one of them locks for writing.
def Conflict (x y : List (A × Bool)) : Prop :=
  ∃ a v v', (a, v) ∈ x ∧ (a, v') ∈ y ∧ (v = true ∨ v' = true)

-- A write lock is granted on accounts no one holds, a read lock where no one holds a write lock.
def Grants (h : Holders K A) (x : List (A × Bool)) : Prop :=
  ∀ a v, (a, v) ∈ x → h (a, true) = ∅ ∧ (v = true → h (a, false) = ∅)

instance [DecidableEq A] (x y : List (A × Bool)) : Decidable (Conflict x y) :=
  decidable_of_iff (∃ l ∈ x, ∃ l' ∈ y, l.1 = l'.1 ∧ (l.2 = true ∨ l'.2 = true)) <| by
    constructor
    case mp =>
      rintro ⟨⟨a, v⟩, hx, ⟨_, v'⟩, hy, rfl, hv⟩
      exact ⟨a, v, v', hx, hy, hv⟩
    case mpr =>
      intro ⟨a, v, v', hx, hy, hv⟩
      exact ⟨(a, v), hx, (a, v'), hy, rfl, hv⟩

theorem Conflict.symm {x y : List (A × Bool)} (c : Conflict x y) : Conflict y x := by
  have ⟨a, v, v', hx, hy, hv⟩ := c
  exact ⟨a, v', v, hy, hx, hv.symm⟩

section Held

variable [DecidableEq A] {s : Finset K} {locks locks' : K → List (A × Bool)} {k : K}
variable {x : List (A × Bool)} {l : A × Bool}

-- The holders when the keys in `s` hold their `locks`.
def held (s : Finset K) (locks : K → List (A × Bool)) : Holders K A :=
  fun l => s.filter (l ∈ locks ·)

@[simp]
theorem mem_held : k ∈ held s locks l ↔ k ∈ s ∧ l ∈ locks k := by
  simp [held]

theorem held_empty (locks : K → List (A × Bool)) : held ∅ locks = fun _ => (∅ : Finset K) := by
  funext l
  simp [held]

theorem held_congr (hl : ∀ k ∈ s, locks k = locks' k) : held s locks = held s locks' := by
  funext l
  ext k
  simp only [mem_held, and_congr_right_iff]
  intro hk
  rw [hl k hk]

-- The requested locks are granted exactly if they conflict with no one's.
theorem grants_held : Grants (held s locks) x ↔ ∀ k ∈ s, ¬Conflict x (locks k) := by
  constructor
  case mp =>
    intro hg k hk ⟨a, v, v', hx, hl, hv⟩
    have ⟨hw, hr⟩ := hg a v hx
    cases v'
    case true  => exact Finset.eq_empty_iff_forall_notMem.mp hw k <| mem_held.mpr ⟨hk, hl⟩
    case false =>
      have hr := hr <| by simpa using hv
      exact Finset.eq_empty_iff_forall_notMem.mp hr k <| mem_held.mpr ⟨hk, hl⟩
  case mpr =>
    intro hc a v hx
    simp only [Finset.eq_empty_iff_forall_notMem, mem_held, not_and]
    exact ⟨fun k hk hl => hc k hk ⟨a, v, true, hx, hl, .inr rfl⟩,
      fun hv k hk hl => hc k hk ⟨a, v, false, hx, hl, .inl hv⟩⟩

end Held

variable [DecidableEq A] [DecidableEq K] {s : Finset K} {locks : K → List (A × Bool)} {k k' : K}
variable {x y : List (A × Bool)} {h : Holders K A} {l : A × Bool}
variable {txs : List (K × List (A × Bool))}

def add (h : Holders K A) (k : K) (x : List (A × Bool)) : Holders K A :=
  fun l => if l ∈ x then insert k (h l) else h l

def addAll (h : Holders K A) : List (K × List (A × Bool)) → Holders K A
  | []           => h
  | (k, x) :: xs => addAll (add h k x) xs

def remove (h : Holders K A) (k : K) : Holders K A :=
  fun l => (h l).erase k

-- Removes `k` from the holders of the given locks only.
def removeFrom (h : Holders K A) (k : K) (x : List (A × Bool)) : Holders K A :=
  fun l => if l ∈ x then (h l).erase k else h l

theorem mem_add : k ∈ add h k' x l ↔ k ∈ h l ∨ (k = k' ∧ l ∈ x) := by
  unfold add
  split <;> simp_all [or_comm]

theorem add_held : add (held s locks) k (locks k) = held (insert k s) locks := by
  funext l
  ext k'
  rw [mem_add, mem_held, mem_held, Finset.mem_insert]
  constructor
  case mp =>
    rintro (⟨hs, hl⟩ | ⟨rfl, hl⟩)
    · exact ⟨.inr hs, hl⟩
    · exact ⟨.inl rfl, hl⟩
  case mpr =>
    rintro ⟨rfl | hs, hl⟩
    · exact .inr ⟨rfl, hl⟩
    · exact .inl ⟨hs, hl⟩

theorem addAll_held {ks : List K} :
    addAll (held s locks) (ks.map fun k => (k, locks k)) = held (s ∪ ks.toFinset) locks := by
  induction ks generalizing s
  case nil => simp [addAll]
  case cons k ks hi =>
    rw [List.map_cons, addAll, add_held, hi, List.toFinset_cons, Finset.insert_union,
      Finset.union_insert]

theorem mem_addAll : k ∈ addAll h txs l ↔ k ∈ h l ∨ ∃ tx ∈ txs, k = tx.1 ∧ l ∈ tx.2 := by
  induction txs generalizing h
  case nil => simp [addAll]
  case cons tx txs ih => simp [addAll, ih, mem_add, or_assoc]

theorem addAll_append {txs' : List (K × List (A × Bool))} :
    addAll h (txs ++ txs') = addAll (addAll h txs) txs' := by
  induction txs generalizing h
  case nil => rfl
  case cons tx txs ih => exact ih

-- Locks are still granted next to further holders exactly if there is no conflict with theirs.
theorem grants_addAll :
    Grants (addAll h txs) x ↔ Grants h x ∧ ∀ tx ∈ txs, ¬Conflict x tx.2 := by
  simp only [Grants, Finset.eq_empty_iff_forall_notMem, mem_addAll, not_or, not_exists, not_and]
  constructor
  case mp =>
    intro hg
    refine ⟨fun a v hx => ⟨fun k => ((hg a v hx).left k).left,
      fun hv k => ((hg a v hx).right hv k).left⟩, ?_⟩
    rintro tx ht ⟨a, v, v', hx, hl, hv⟩
    cases v'
    case true  => exact ((hg a v hx).left tx.1).right tx ht rfl hl
    case false => exact ((hg a v hx).right (by simpa using hv) tx.1).right tx ht rfl hl
  case mpr =>
    intro ⟨hg, hc⟩ a v hx
    refine ⟨fun k => ⟨(hg a v hx).left k, fun tx ht _ hl => ?_⟩,
      fun hv k => ⟨(hg a v hx).right hv k, fun tx ht _ hl => ?_⟩⟩
    · exact hc tx ht ⟨a, v, true, hx, hl, .inr rfl⟩
    · exact hc tx ht ⟨a, v, false, hx, hl, .inl hv⟩

section Front

variable (hk : ∀ l, k ∉ h l) (hn : k ∉ txs.map Prod.fst)

include hk hn

theorem mem_of_mem_addAll_cons (hm : k ∈ addAll h ((k, x) :: txs) l) : l ∈ x := by
  rcases mem_addAll.mp hm with hl | ⟨tx, ht, he, hl⟩
  · exact absurd hl <| hk l
  · rcases List.mem_cons.mp ht with rfl | ht
    · exact hl
    · exact absurd (he ▸ List.mem_map_of_mem ht) hn

theorem remove_addAll_cons : remove (addAll h ((k, x) :: txs)) k = addAll h txs := by
  funext l
  ext k'
  simp only [remove, Finset.mem_erase, mem_addAll, List.exists_mem_cons_iff]
  constructor
  case mp =>
    rintro ⟨hne, hh | ⟨he, _⟩ | ht⟩
    · exact .inl hh
    · exact absurd he hne
    · exact .inr ht
  case mpr =>
    rintro (hh | ⟨tx, ht, rfl, hl⟩)
    · exact ⟨fun he => hk l <| he ▸ hh, .inl hh⟩
    · exact ⟨fun he => hn <| he ▸ List.mem_map_of_mem ht, .inr <| .inr ⟨tx, ht, rfl, hl⟩⟩

end Front

theorem add_nil : add h k [] = h := by
  funext l
  simp [add]

theorem add_cons : add (add h k [l]) k x = add h k (l :: x) := by
  funext l'
  ext k'
  simp only [mem_add, List.mem_cons, List.not_mem_nil, or_false]
  tauto

theorem removeFrom_nil : removeFrom h k [] = h := by
  funext l
  simp [removeFrom]

theorem removeFrom_append :
    removeFrom (removeFrom h k x) k y = removeFrom h k (x ++ y) := by
  funext l
  by_cases hx : l ∈ x <;> by_cases hy : l ∈ y <;> simp [removeFrom, hx, hy]

theorem removeFrom_eq_remove (hk : ∀ l, k ∈ h l → l ∈ x) : removeFrom h k x = remove h k := by
  funext l
  unfold removeFrom remove
  split
  case isTrue => rfl
  case isFalse hl => exact (Finset.erase_eq_of_notMem fun hm => hl <| hk l hm).symm

theorem remove_held : remove (held s locks) k = held (s.erase k) locks := by
  funext l
  simp only [remove, held, Finset.filter_erase]

end LockTable
