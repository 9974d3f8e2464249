import SchedArchive.Custody.Run
import SchedArchive.Custody.Frame

-- The life of a key: the stages it goes through from before it is handed out until it is dropped.

open Except Ledger

inductive Stage
  | unborn
  | held (p : Place)
  | dropped
  deriving DecidableEq

-- The order of the stages in the life of a key.
def Stage.rank : Stage → Nat
  | unborn                                          => 0
  | held .unchecked                                 => 1
  | held .firstCheck | held .bundled                => 2
  | held .checked | held .executing | held .deferred => 3
  | dropped                                         => 4

namespace Ledger

variable {L : Type} {E : Env} {l l' l₁ : Ledger L} {h : Multiset TransactionKey} {k : TransactionKey}
variable {s s' : Stage} {leaves enters : List Stage}

def At (E : Env) (l : Ledger L) (k : TransactionKey) : Stage → Prop
  | .unborn  => ¬l.Minted E k
  | .held p  => k ∈ l.keysIn p
  | .dropped => k ∈ l.dropped

namespace Owned

theorem minted_iff (o : l.Owned E h) : l.Minted E k ↔ k ∈ l.dropped ∨ k ∈ l.live := by
  have hm : l.Minted E k ↔ k ∈ (Multiset.range l.inserted).map E.keyAt := by
    simp [Minted]
  rw [hm, ← o.minted, Multiset.mem_add, Multiset.mem_coe, Finset.mem_val]

-- Between two steps every key is at exactly one stage.

theorem stage_unique (o : l.Owned E h) (hs : l.At E k s) (hs' : l.At E k s') : s = s' := by
  have hl : ∀ {p}, k ∈ l.keysIn p → k ∈ l.live := o.live_of_keysIn
  cases s <;> cases s'
  case unborn.unborn | dropped.dropped => rfl
  case held.held p q         => exact congrArg Stage.held <| o.place_unique hs hs'
  case unborn.held           => exact absurd (o.minted_iff.mpr <| .inr <| hl hs') hs
  case held.unborn           => exact absurd (o.minted_iff.mpr <| .inr <| hl hs) hs'
  case unborn.dropped        => exact absurd (o.minted_iff.mpr <| .inl hs') hs
  case dropped.unborn        => exact absurd (o.minted_iff.mpr <| .inl hs) hs'
  case held.dropped          => exact absurd hs' <| o.not_dropped <| hl hs
  case dropped.held          => exact absurd hs <| o.not_dropped <| hl hs'

theorem exists_stage (o : l.Owned E 0) (k : TransactionKey) : ∃ s, l.At E k s := by
  by_cases hm : l.Minted E k
  case neg => exact ⟨.unborn, hm⟩
  case pos =>
    rcases o.minted_iff.mp hm with hd | hl
    · exact ⟨.dropped, hd⟩
    · have ⟨p, hp⟩ := (o.mem_live_iff.mp hl).resolve_right <| Multiset.notMem_zero k
      exact ⟨.held p, hp⟩

end Owned

-- What later ledgers add to the history: a key becomes a bundled one only when it is handed out.
structure Grown (E : Env) (l l' : Ledger L) : Prop where
  minted    : ∀ k, l.Minted E k → l'.Minted E k
  dropped   : ∀ k ∈ l.dropped, k ∈ l'.dropped
  viaBundle : ∀ k ∈ l.viaBundle, k ∈ l'.viaBundle
  bundled   : ∀ k ∈ l'.viaBundle, l.Minted E k → k ∈ l.viaBundle

theorem Grown.refl : Grown E l l :=
  ⟨fun _ => id, fun _ => id, fun _ => id, fun _ h _ => h⟩

theorem Grown.trans (h₁ : Grown E l l₁) (h₂ : Grown E l₁ l') : Grown E l l' where
  minted k hk     := h₂.minted k <| h₁.minted k hk
  dropped k hk    := h₂.dropped k <| h₁.dropped k hk
  viaBundle k hk  := h₂.viaBundle k <| h₁.viaBundle k hk
  bundled k hk hm := h₁.bundled k (h₂.bundled k hk <| h₁.minted k hm) hm

theorem mem_dropped_move {P : LockPolicy L} {t : Terms L} {h' : Multiset TransactionKey}
    (m : Move P E t l h l' h') (hk : k ∈ l.dropped) : k ∈ l'.dropped := by
  cases m
  case drop | evictUnchecked | evictChecked | finishDrop => exact List.mem_cons_of_mem _ hk
  case dropBundle =>
    rw [dropBundle, dropAll_eq]
    exact List.mem_append.mpr <| .inr hk
  all_goals exact hk

theorem Grown.of_move {P : LockPolicy L} {t : Terms L} {h' : Multiset TransactionKey}
    (m : Move P E t l h l' h') : Grown E l l' where
  minted k    := Owned.minted_mono m
  dropped k   := mem_dropped_move m
  viaBundle k := mem_viaBundle_move m
  bundled k hk hm := by
    rcases viaBundle_move m with hv | hv
    · exact hv ▸ hk
    · refine (List.mem_cons.mp (hv ▸ hk)).resolve_left ?_
      rintro rfl
      exact not_minted_nextKey hm

-- Keys leave only some of the stages and come only to some.
structure Shift (E : Env) (leaves enters : List Stage) (l l' : Ledger L) : Prop where
  left    : ∀ k, ∀ s ∉ leaves, l.At E k s → l'.At E k s
  entered : ∀ k, ∀ s ∉ enters, l'.At E k s → l.At E k s

-- It suffices to look at the places, and at the history where it must not grow.
theorem Grown.shift (g : Grown E l l')
    (hu : .unborn ∉ leaves → l'.inserted = l.inserted)
    (hd : .dropped ∉ enters → l'.dropped = l.dropped)
    (hl : ∀ p, .held p ∉ leaves → l.keysIn p ⊆ l'.keysIn p)
    (he : ∀ p, .held p ∉ enters → l'.keysIn p ⊆ l.keysIn p) : Shift E leaves enters l l' where
  left k s hs := by
    cases s
    case unborn =>
      intro hn hm
      rw [Minted, hu hs] at hm
      exact hn hm
    case held p  => exact fun hk => hl p hs hk
    case dropped => exact g.dropped k
  entered k s hs := by
    cases s
    case unborn  => exact fun hn hm => hn <| g.minted k hm
    case held p  => exact fun hk => he p hs hk
    case dropped =>
      intro hk
      rw [At, hd hs] at hk
      exact hk

-- Every key stays at its stage, or changes it as the table `T` says.
def Changes (E : Env) (T : List (Stage × Stage)) (l l' : Ledger L) : Prop :=
  ∀ k s s', l.At E k s → l'.At E k s' → s = s' ∨ (s, s') ∈ T

theorem Changes.mono {T T' : List (Stage × Stage)} (hc : Changes E T l l')
    (ht : ∀ x ∈ T, x ∈ T') : Changes E T' l l' :=
  fun k s s' hs hs' => (hc k s s' hs hs').imp_right (ht _)

theorem Changes.trans {T T₁ T₂ : List (Stage × Stage)} (h₁ : Changes E T₁ l l₁)
    (h₂ : Changes E T₂ l₁ l') (o : l₁.Owned E 0) (ht₁ : ∀ x ∈ T₁, x ∈ T) (ht₂ : ∀ x ∈ T₂, x ∈ T)
    (ht : ∀ x ∈ T₁, ∀ y ∈ T₂, x.2 = y.1 → (x.1, y.2) ∈ T) : Changes E T l l' := by
  intro k s s' hs hs'
  obtain ⟨s₁, hs₁⟩ := o.exists_stage k
  rcases h₁ k s s₁ hs hs₁ with rfl | h₁
  · exact (h₂ k s s' hs₁ hs').imp_right (ht₂ _)
  · rcases h₂ k s₁ s' hs₁ hs' with rfl | h₂
    · exact .inr <| ht₁ _ h₁
    · exact .inr <| ht _ h₁ _ h₂ rfl

-- What is left of a shift when the changes in `X` are excluded for reasons of their own.
theorem Shift.changes (sh : Shift E leaves enters l l') (o : l.Owned E h) (o' : l'.Owned E h)
    {T X : List (Stage × Stage)} (hx : ∀ x ∈ X, ∀ k, l.At E k x.1 → ¬l'.At E k x.2)
    (ht : ∀ s ∈ leaves, ∀ s' ∈ enters, s = s' ∨ (s, s') ∈ T ∨ (s, s') ∈ X) : Changes E T l l' := by
  intro k s s' hs hs'
  by_cases hl : s ∈ leaves
  case neg => exact .inl <| o'.stage_unique (sh.left k s hl hs) hs'
  case pos =>
    by_cases he : s' ∈ enters
    case neg => exact .inl <| o.stage_unique hs <| sh.entered k s' he hs'
    case pos => exact (ht s hl s' he).imp_right fun h => h.resolve_right fun h => hx _ h k hs hs'

end Ledger

namespace Scheduler

variable {L : Type} {E : Env} {P : LockPolicy L}

-- Every handler only adds to the history.
theorem kept_grown (lf : LockFaults P) (l₀ : Ledger L) :
    Kept P E (.all L) (¬·.IsCustody) (fun l h => l.Custody E h ∧ Grown E l₀ l) :=
  lf.kept And.left (fun m c => ⟨c.left.move m, c.right.trans <| .of_move m⟩) fun _ _ => trivial

end Scheduler
