import Mathlib.Data.List.SplitBy

-- A flag that is raised when a condition is seen, and lowered when a new slot begins. It fires where
-- the condition is seen and the flag is down, but looks at the flag from before it was lowered.

namespace Latch

variable {σ : Type*}

structure Observation (σ : Type*) where
  slot  : σ
  ready : Bool
  fired : Bool
  deriving DecidableEq

structure State (σ : Type*) where
  slot   : σ
  raised : Bool

-- The observations of one slot that come without one of another slot in between.
def stretches [DecidableEq σ] (os : List (Observation σ)) : List (List (Observation σ)) :=
  os.splitBy fun o o' => o.slot = o'.slot

-- It fires at most once, and if the condition is seen, then where it is first seen.
structure Prompt (g : List (Observation σ)) : Prop where
  once   : g.countP (·.fired) ≤ 1
  atOnce : ∀ o, g.find? (·.ready) = some o → o.fired = true

-- The condition was seen in one stretch and is seen right at the beginning of the next.
def Hidden (g g' : List (Observation σ)) : Prop :=
  g.any (·.ready) = true ∧ g'.head?.any (·.ready) = true

instance (g g' : List (Observation σ)) : Decidable (Hidden g g') :=
  inferInstanceAs <| Decidable (_ ∧ _)

variable {s : State σ} {o : Observation σ} {os os' : List (Observation σ)}

theorem slot_eq_of_isChain (h : (o :: os).IsChain fun o o' => o.slot = o'.slot) :
    ∀ o' ∈ os, o'.slot = o.slot := by
  induction os generalizing o
  case nil => simp
  case cons o₁ os ih =>
    obtain ⟨h₁, h⟩ := List.isChain_cons_cons.mp h
    intro o' hm
    rcases List.mem_cons.mp hm with rfl | hm
    · exact h₁.symm
    · exact (ih h o' hm).trans h₁.symm

theorem hidden_head_iff {gs : List (List (Observation σ))} (hn : [] ∉ gs) :
    ¬(os.any (·.ready) = true ∧ gs.flatten.head?.any (·.ready) = true) ↔
      ∀ g ∈ gs.head?, ¬Hidden os g := by
  cases gs
  case nil => simp
  case cons g gs =>
    have hg : g ≠ [] := by
      rintro rfl
      exact hn List.mem_cons_self
    simp [Hidden, List.head?_append_of_ne_nil _ hg]

variable [DecidableEq σ]

def State.next (s : State σ) (o : Observation σ) : State σ where
  slot   := o.slot
  raised := o.fired || (decide (o.slot = s.slot) && s.raised)

-- The observations a latch can make from a state on.
def State.Admits (s : State σ) : List (Observation σ) → Prop
  | []      => True
  | o :: os => o.fired = (o.ready && !s.raised) ∧ (s.next o).Admits os

theorem admits_append : s.Admits (os ++ os') ↔ s.Admits os ∧ (os.foldl State.next s).Admits os' := by
  induction os generalizing s
  case nil => simp [State.Admits]
  case cons o os ih => simp [State.Admits, ih, and_assoc]

-- Once raised, the flag stays raised for the rest of the slot.
theorem steady (h : s.Admits os) (hs : ∀ o ∈ os, o.slot = s.slot) (hr : s.raised = true) :
    (∀ o ∈ os, o.fired = false) ∧ (os.foldl State.next s).raised = true := by
  induction os generalizing s
  case nil => exact ⟨by simp, hr⟩
  case cons o os ih =>
    obtain ⟨hf, h⟩ := h
    have ho := hs o List.mem_cons_self
    have hf : o.fired = false := by simpa [hr] using hf
    have hn : (s.next o).raised = true := by simp [State.next, ho, hr]
    obtain ⟨hall, hlast⟩ := ih h (fun o' hm => (hs o' <| List.mem_cons_of_mem _ hm).trans ho.symm) hn
    refine ⟨fun o' hm => ?_, hlast⟩
    rcases List.mem_cons.mp hm with rfl | hm
    · exact hf
    · exact hall o' hm

-- With the flag down, the rest of a slot goes as it should.
theorem prompt_of_lowered (h : s.Admits os) (hs : ∀ o ∈ os, o.slot = s.slot)
    (hr : s.raised = false) :
    Prompt os ∧ (os.foldl State.next s).raised = os.any (·.ready) := by
  induction os generalizing s
  case nil => exact ⟨⟨by simp, by simp⟩, hr⟩
  case cons o os ih =>
    obtain ⟨hf, h⟩ := h
    have ho := hs o List.mem_cons_self
    have hs' : ∀ o' ∈ os, o'.slot = (s.next o).slot := fun o' hm =>
      (hs o' <| List.mem_cons_of_mem _ hm).trans ho.symm
    have hf : o.fired = o.ready := by simpa [hr] using hf
    have hn : (s.next o).raised = o.ready := by simp [State.next, hr, hf]
    cases hd : o.ready
    case true =>
      obtain ⟨hall, hlast⟩ := steady h hs' (hn.trans hd)
      refine ⟨⟨?_, ?_⟩, ?_⟩
      · have hz : os.countP (·.fired) = 0 := List.countP_eq_zero.mpr fun o hm => by simp [hall o hm]
        rw [List.countP_cons, hz]
        split <;> omega
      · simp [hd, hf]
      · simpa [hd] using hlast
    case false =>
      obtain ⟨hp, hlast⟩ := ih h hs' (hn.trans hd)
      refine ⟨⟨?_, ?_⟩, ?_⟩
      · simpa [List.countP_cons, hf, hd] using hp.once
      · simpa [List.find?_cons, hd] using hp.atOnce
      · simpa [hd] using hlast

theorem lowered_of_unseen (h : s.Admits os) (hs : s.raised = false)
    (hr : ∀ o ∈ os, o.ready = false) : (os.foldl State.next s).raised = false := by
  induction os generalizing s
  case nil => exact hs
  case cons o os ih =>
    obtain ⟨hf, h⟩ := h
    have ho := hr o List.mem_cons_self
    refine ih h ?_ fun o' hm => hr o' <| List.mem_cons_of_mem _ hm
    simp [State.next, hf, ho, hs]

-- A whole stretch goes as it should unless the condition hides behind a flag that is still up.
theorem prompt_cons_iff (h : s.Admits (o :: os)) (hs : ∀ o' ∈ os, o'.slot = o.slot)
    (hi : o.slot ≠ s.slot ∨ s.raised = false) :
    (Prompt (o :: os) ↔ ¬(s.raised = true ∧ o.ready = true)) ∧
    (Prompt (o :: os) → ((o :: os).foldl State.next s).raised = (o :: os).any (·.ready)) := by
  by_cases hh : s.raised = true ∧ o.ready = true
  case pos =>
    have hn : ¬Prompt (o :: os) := fun hp => by
      have hf := hp.atOnce o <| by simp [hh.right]
      simp [hh.left, h.left] at hf
    exact ⟨iff_of_false hn fun hn => hn hh, fun hp => absurd hp hn⟩
  case neg =>
    have hf : o.fired = o.ready := by
      rw [h.left]
      cases hr : s.raised <;> simp_all
    have hn : s.next o = State.next ⟨o.slot, false⟩ o := by
      rcases hi with hi | hi <;> simp [State.next, hi]
    have ha : State.Admits ⟨o.slot, false⟩ (o :: os) := ⟨by simp [hf], hn ▸ h.right⟩
    obtain ⟨hp, hlast⟩ := prompt_of_lowered ha (by simpa using hs) rfl
    rw [List.foldl_cons, ← hn, ← List.foldl_cons] at hlast
    exact ⟨iff_of_true hp hh, fun _ => hlast⟩

theorem slot_foldl (hn : os ≠ []) : (os.foldl State.next s).slot = (os.getLast hn).slot := by
  induction os generalizing s
  case nil => exact absurd rfl hn
  case cons o os ih =>
    cases os
    case nil => rfl
    case cons o' os => exact ih (List.cons_ne_nil o' os)

-- By induction on the stretches: as long as each was as it should be, the flag that the next one
-- finds is up exactly if the condition was seen in the one before.
theorem prompt_stretches {gs : List (List (Observation σ))} (h : s.Admits gs.flatten)
    (hn : [] ∉ gs) (hs : ∀ g ∈ gs, g.IsChain fun o o' => o.slot = o'.slot)
    (hd : gs.IsChain fun g g' => ∃ hg hg', (g.getLast hg).slot ≠ (g'.head hg').slot)
    (hi : ∀ o ∈ gs.flatten.head?, o.slot ≠ s.slot ∨ s.raised = false) :
    (∀ g ∈ gs, Prompt g) ↔
      ¬(s.raised = true ∧ gs.flatten.head?.any (·.ready) = true) ∧
        gs.IsChain fun g g' => ¬Hidden g g' := by
  induction gs generalizing s
  case nil => simp
  case cons g gs ih =>
    cases g
    case nil => exact absurd List.mem_cons_self hn
    case cons o os =>
      rw [List.flatten_cons, admits_append] at h
      have hc := slot_eq_of_isChain <| hs _ List.mem_cons_self
      rw [List.isChain_cons] at hd
      obtain ⟨hd', hd⟩ := hd
      obtain ⟨hp, hr⟩ := prompt_cons_iff h.left hc <| hi o <| by simp
      have hn' : [] ∉ gs := fun hm => hn <| List.mem_cons_of_mem _ hm
      have hi' : ∀ o' ∈ gs.flatten.head?, o'.slot ≠ ((o :: os).foldl State.next s).slot ∨
          ((o :: os).foldl State.next s).raised = false := by
        intro o' ho
        cases gs
        case nil => simp at ho
        case cons g' gs =>
          obtain ⟨hg, hg', hne⟩ := hd' g' <| by simp
          rw [List.flatten_cons, List.head?_append_of_ne_nil _ hg', List.head?_eq_some_head hg'] at ho
          obtain rfl := Option.mem_some.mp ho
          exact .inl <| by rw [slot_foldl hg]; exact hne.symm
      replace ih := ih h.right hn' (fun g hm => hs g <| List.mem_cons_of_mem _ hm) hd hi'
      rw [List.forall_mem_cons, ih, hp, List.isChain_cons]
      simp only [List.flatten_cons, List.cons_append, List.head?_cons, Option.any_some]
      refine and_congr_right fun hh => and_congr_left fun _ => ?_
      rw [hr <| hp.mpr hh]
      exact hidden_head_iff hn'

-- The latch is prompt in every stretch exactly if no sight of the condition is hidden by the one in
-- the stretch before.
theorem prompt_iff (h : s.Admits os) (hs : s.raised = false) :
    (∀ g ∈ stretches os, Prompt g) ↔ (stretches os).IsChain fun g g' => ¬Hidden g g' := by
  have hf : (stretches os).flatten = os := List.flatten_splitBy ..
  rw [prompt_stretches (s := s)]
  · simp [hs]
  · exact hf.symm ▸ h
  · exact List.nil_notMem_splitBy _ os
  · intro g hg
    exact (List.isChain_of_mem_splitBy hg).imp fun _ _ h => of_decide_eq_true h
  · refine (List.isChain_getLast_head_splitBy ..).imp fun _ _ h => ?_
    obtain ⟨hg, hg', h⟩ := h
    exact ⟨hg, hg', of_decide_eq_false h⟩
  · exact fun _ _ => .inr hs

end Latch
