import Mathlib.Tactic.TypeStar

-- Sources that are polled, and the wakers they take.

inductive Poll (α : Type*)
  | ready (a : α)
  | pending
  deriving DecidableEq

-- Something that answers polls, in states `σ`. It takes the waker of a poll exactly if it answers that
-- it is pending. `registered s w` says that in the state `s` it is going to wake `w`.
class Source (σ : Type*) (α ω : outParam Type*) where
  poll       : σ → ω → Poll α × σ
  registered : σ → ω → Prop
  registers  : ∀ s w, registered (poll s w).2 w ↔ (poll s w).1 = .pending

namespace Source

variable {σ α ω : Type*} [Source σ α ω] {s s' : σ} {w : ω} {a : α}

theorem registered_of_pending (h : poll s w = (.pending, s')) : registered s' w := by
  have hr := (registers s w).mpr (congrArg Prod.fst h)
  rwa [h] at hr

theorem not_registered_of_ready (h : poll s w = (.ready a, s')) : ¬registered s' w := by
  intro hr
  have hp := registers s w
  rw [h] at hp
  cases hp.mp hr

end Source
