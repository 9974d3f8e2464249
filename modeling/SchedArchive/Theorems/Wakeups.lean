import Mathlib.Tactic.SplitIfs
import SchedArchive.Common.IntervalStream

-- When the task that polls an interval stream is woken up again.

open Source

namespace IntervalStream

-- A call of `poll_next`: what has become of the interval and of the future in progress since the last
-- one, the future that the closure would make, and the waker. Only a poll registers a waker.
structure Call (I F : Type) {Output W : Type} [Source F Output W] where
  elapseInterval : I → I
  elapseFuture   : F → F
  fut            : F
  fresh          : ∀ w : W, ¬registered fut w
  cx             : W

variable {I F Output W : Type} [Source I Unit W] [Source F Output W]
variable {s : IntervalStream I F} {fut : F} {cx : W} {calls : List (Call I F)}

def elapse (s : IntervalStream I F) (c : Call I F) : IntervalStream I F where
  interval   := c.elapseInterval s.interval
  inProgress := s.inProgress.map c.elapseFuture

-- The calls of a run, each with the state in which it finds the stream.
def found (s : IntervalStream I F) : List (Call I F) → List (IntervalStream I F × Call I F)
  | []         => []
  | c :: calls => (s.elapse c, c) :: found ((s.elapse c).pollNext c.fut c.cx).2 calls

def Wakes (s : IntervalStream I F) (cx : W) : Prop :=
  registered s.interval cx ∨ ∃ fut ∈ s.inProgress, registered fut cx

-- A call that has to wait does not lose its waker.
def KeepsWaker (s : IntervalStream I F) (fut : F) (cx : W) : Prop :=
  (s.pollNext fut cx).1 = .pending → (s.pollNext fut cx).2.Wakes cx

-- The call goes over from the interval to a new future.
def Switches (s : IntervalStream I F) (cx : W) : Prop :=
  s.inProgress = none ∧ (poll s.interval cx).1 ≠ .pending

-- The new future is not polled before the call returns, and so nobody has the waker.
theorem keepsWaker_iff (hf : ∀ w : W, ¬registered fut w) :
    s.KeepsWaker fut cx ↔ ¬s.Switches cx := by
  obtain ⟨interval, inProgress⟩ := s
  unfold KeepsWaker Switches pollNext
  cases inProgress
  case some f =>
    refine iff_of_true (fun hp => ?_) (by simp)
    dsimp only at hp ⊢
    split at hp
    case h_1 => cases hp
    case h_2 f' hf' =>
      exact .inr ⟨f', rfl, registered_of_pending hf'⟩
  case none =>
    dsimp only
    rcases hi : poll interval cx with ⟨⟨_⟩ | _, interval'⟩
    case ready =>
      refine iff_of_false (fun hk => ?_) (by simp)
      rcases hk rfl with hr | ⟨f, hm, hr⟩
      · exact not_registered_of_ready hi hr
      · exact hf cx <| Option.some_inj.mp hm ▸ hr
    case pending => exact iff_of_true (fun _ => .inl <| registered_of_pending hi) (by simp)

-- No waker is lost exactly if no call finds the interval ready while nothing is in progress.
theorem keeps_wakers_iff (interval : I) (calls : List (Call I F)) :
    (∀ c ∈ (new interval).found calls, c.1.KeepsWaker c.2.fut c.2.cx) ↔
      ∀ c ∈ (new interval).found calls, ¬c.1.Switches c.2.cx :=
  forall₂_congr fun c _ => keepsWaker_iff c.2.fresh

-- A timer that is due once, and the tasks that wait for it.
structure Sample.Timer where
  due     : Bool
  waiting : List Nat

def Sample.Timer.poll (t : Sample.Timer) (task : Nat) : Poll Unit × Sample.Timer :=
  if t.due then (.ready (), ⟨false, []⟩) else (.pending, ⟨false, task :: t.waiting⟩)

instance : Source Sample.Timer Unit Nat where
  poll          := Sample.Timer.poll
  registered    := fun t task => task ∈ t.waiting
  registers t task := by
    unfold Sample.Timer.poll
    split_ifs <;> simp

def Sample.call (task : Nat) : Call Sample.Timer Sample.Timer where
  elapseInterval := id
  elapseFuture   := id
  fut            := ⟨false, []⟩
  fresh          := by simp [registered]
  cx             := task

-- The first tick of the interval is due at once. The first call has to wait, but nobody is going to
-- wake its task.
theorem first_tick_loses_waker :
    ∃ c ∈ (new ⟨true, []⟩).found [Sample.call 7],
      (c.1.pollNext c.2.fut c.2.cx).1 = .pending ∧ ¬c.1.KeepsWaker c.2.fut c.2.cx := by
  refine ⟨_, List.mem_cons_self, rfl, fun hk => ?_⟩
  rcases hk rfl with hr | ⟨f, hm, hr⟩
  · cases hr
  · cases Option.some_inj.mp hm
    cases hr

end IntervalStream
