import Mathlib.Data.List.Basic
import Mathlib.Logic.Relation

-- Pre- and postconditions for computations that return a value or stop with a fault.

namespace Except

universe u

variable {ε : Type*} {α β : Type u} {x : Except ε α} {f : α → Except ε β}

variable {Q Q' : α → Prop} {R : β → Prop} {F F' : ε → Prop}

-- `x.Ensures Q F`: when `x` returns, its value satisfies `Q`; when it faults, its fault satisfies `F`.
def Ensures (x : Except ε α) (Q : α → Prop) (F : ε → Prop) : Prop :=
  match x with
  | ok a    => Q a
  | error e => F e

instance [DecidablePred Q] [DecidablePred F] : Decidable (x.Ensures Q F) :=
  match x with
  | ok a    => inferInstanceAs <| Decidable (Q a)
  | error e => inferInstanceAs <| Decidable (F e)

-- An assertion: returns when `p` holds and stops with the fault `e` otherwise.
def require (p : Prop) [Decidable p] (e : ε) : Except ε Unit :=
  if p then ok () else error e

@[simp]
theorem ensures_ok {a : α} : (ok a : Except ε α).Ensures Q F ↔ Q a :=
  Iff.rfl

@[simp]
theorem ensures_error {e : ε} : (error e : Except ε α).Ensures Q F ↔ F e :=
  Iff.rfl

@[simp]
theorem ensures_pure {a : α} : (pure a : Except ε α).Ensures Q F ↔ Q a :=
  Iff.rfl

@[simp]
theorem ensures_bind : (x >>= f).Ensures R F ↔ x.Ensures (fun a => (f a).Ensures R F) F := by
  cases x <;> rfl

@[simp]
theorem ensures_map {g : α → β} : (g <$> x).Ensures R F ↔ x.Ensures (fun a => R (g a)) F := by
  cases x <;> rfl

@[simp]
theorem ensures_require {p : Prop} [Decidable p] {e : ε} {Q : Unit → Prop} :
    (require p e).Ensures Q F ↔ (p → Q ()) ∧ (¬p → F e) := by
  by_cases h : p <;> simp [require, h]

theorem Ensures.mono (h : x.Ensures Q F) (hq : ∀ a, Q a → Q' a) (hf : ∀ e, F e → F' e) :
    x.Ensures Q' F' := by
  cases x
  case ok a    => exact hq a h
  case error e => exact hf e h

theorem Ensures.imp (h : x.Ensures Q F) (hq : ∀ a, Q a → Q' a) : x.Ensures Q' F :=
  h.mono hq (fun _ => id)

-- The outcome itself may be used where its property is.
theorem Ensures.with_eq (h : x.Ensures Q F) : x.Ensures (fun a => x = ok a ∧ Q a) F := by
  cases x
  case ok a    => exact ⟨rfl, h⟩
  case error e => exact h

theorem Ensures.of_ok {a : α} (h : x.Ensures Q F) (hx : x = ok a) : Q a := by
  subst hx
  exact h

theorem Ensures.of_error {e : ε} (h : x.Ensures Q F) (hx : x = error e) : F e := by
  subst hx
  exact h

theorem Ensures.eq_error {e : ε} (h : x.Ensures (fun _ => False) (· = e)) : x = error e := by
  cases x
  case ok a    => exact h.elim
  case error e => exact congrArg error h

theorem Ensures.ne_error {e : ε} (h : x.Ensures (fun _ => True) (· ≠ e)) : x ≠ error e :=
  fun hx => h.of_error hx rfl

theorem ensures_of_forall (hq : ∀ a, Q a) : x.Ensures Q (fun _ => True) := by
  cases x
  case ok a    => exact hq a
  case error e => trivial

theorem Ensures.exists_ok (h : x.Ensures Q (fun _ => False)) : ∃ a, x = ok a ∧ Q a := by
  cases x
  case ok a    => exact ⟨a, rfl, h⟩
  case error e => exact h.elim

theorem bind_eq_ok {b : β} : (x >>= f) = ok b ↔ ∃ a, x = ok a ∧ f a = ok b := by
  cases x <;> simp [bind, Except.bind]

theorem bind_eq_error {e : ε} :
    (x >>= f) = error e ↔ x = error e ∨ ∃ a, x = ok a ∧ f a = error e := by
  cases x <;> simp [bind, Except.bind]

theorem require_eq_ok {p : Prop} [Decidable p] {e : ε} {u : Unit} :
    (require p e : Except ε Unit) = ok u ↔ p := by
  by_cases h : p <;> simp [require, h]

-- The loop rule: what every iteration keeps, the whole loop keeps.
theorem ensures_foldlM {g : β → α → Except ε β} {I : β → Prop} {l : List α} {b : β}
    (hg : ∀ b, ∀ a ∈ l, I b → (g b a).Ensures I F) (hb : I b) : (l.foldlM g b).Ensures I F := by
  induction l generalizing b
  case nil => exact hb
  case cons a l hi =>
    rw [List.foldlM_cons, ensures_bind]
    refine (hg b a List.mem_cons_self hb).imp fun b' hb' => ?_
    exact hi (fun b a ha => hg b a <| List.mem_cons_of_mem _ ha) hb'

-- A loop faults in the first iteration that does.
theorem foldlM_eq_error_iff {g : β → α → Except ε β} {l : List α} {b : β} {e : ε} :
    l.foldlM g b = error e ↔ ∃ before a after b', l = before ++ a :: after ∧
      before.foldlM g b = ok b' ∧ g b' a = error e := by
  constructor
  case mp =>
    induction l generalizing b
    case nil => exact nofun
    case cons a l ih =>
      rw [List.foldlM_cons]
      intro h
      rcases bind_eq_error.mp h with ha | ⟨b₁, ha, hl⟩
      · exact ⟨[], a, l, b, rfl, rfl, ha⟩
      · obtain ⟨before, a', after, b', rfl, hb, he⟩ := ih hl
        exact ⟨a :: before, a', after, b', rfl, bind_eq_ok.mpr ⟨b₁, ha, hb⟩, he⟩
  case mpr =>
    rintro ⟨before, a, after, b', rfl, hb, he⟩
    rw [List.foldlM_append]
    exact bind_eq_error.mpr <| .inr ⟨b', hb, bind_eq_error.mpr <| .inl he⟩

end Except
