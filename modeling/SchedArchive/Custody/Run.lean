import SchedArchive.Custody.Dispatch

-- From moves to runs: what every move keeps holds in every reachable state.

open Except Ledger

-- The terms of an unrestricted run.
def Terms.all (L : Type) : Terms L where
  brings   := fun _ => True
  reprices := fun _ _ => True
  tips     := True
  starts   := True

-- A sequence of moves that begins and ends with nothing in hand.
def Moves {L : Type} (P : LockPolicy L) (E : Env) (l l' : Ledger L) : Prop :=
  Relation.ReflTransGen (fun x y => Move P E (.all L) x.1 x.2 y.1 y.2) (l, 0) (l', 0)

namespace Scheduler

variable {L : Type}

-- A step that stays within the terms `t`.
structure Within (S : Scheduler L) (E : Env) (t : Terms L) (w : World L) (e : Event) : Prop where
  brings : ∀ tx ∈ e.brought, t.brings tx
  tips   : ∀ m, e = .checkSlotRoll m → t.tips ∨ ¬S.ActivatesTips E w m
  starts : e = .scheduleExecute → t.starts ∨
             (S.scheduleExecute E w).Ensures (·.toLedger = w.toLedger) (· = .overflow)
  ticks  : e = .processTick → t.reprices w.locks (S.tick w).locks
  prices : ∀ p, e = .updateBasePrices p → t.reprices w.locks (S.updatePrices w p).locks

variable {S : Scheduler L} {E : Env} {t : Terms L} {F : Fault → Prop}
variable {I : Ledger L → Multiset TransactionKey → Prop} {w : World L} {e : Event}
variable {C : World L → Event → Prop} {locks : L}

theorem within_all : S.Within E (.all L) w e where
  brings _ _ := trivial
  tips _ _   := .inl trivial
  starts _   := .inl trivial
  ticks _    := trivial
  prices _ _ := trivial

-- A step of a scheduler keeps the invariant and faults only as `F` says.
theorem Kept.step (K : Kept S.toLockPolicy E t F I) (law : S.Lawful) (hi : I w.toLedger 0)
    (he : e.Enabled w) (ht : S.Within E t w e) :
    (S.step E w e).Ensures (fun w' => I w'.toLedger 0) F := by
  cases e
  case clock | workerReads | setRuntimeConfig | restartRecheck => exact hi
  case updateBasePrices p => exact K.move (.reprice <| ht.prices p rfl) hi
  case checkSlotRoll m    => exact K.checkSlotRoll hi <| ht.tips m rfl
  case workerResponse r a => exact K.drainWorkerResponse hi he.left he.right
  case processTick        => exact K.move (.reprice <| ht.ticks rfl) hi
  case drainTpu backlog n =>
    exact K.drainTpu law hi fun tx hm => ht.brings tx <| List.reduceOption_mem_iff.mpr hm
  case dropExpiredBundles => exact K.dropExpiredBundles hi
  case drainJito channel cancelled =>
    refine K.drainJito law hi (fun tx hm => ?_) fun b tx hm hb => ?_
    · exact ht.brings tx <| List.mem_flatMap_of_mem hm <| Option.mem_toList.mpr rfl
    · exact ht.brings tx <| List.mem_flatMap_of_mem hm <| List.reduceOption_mem_iff.mpr hb
  case scheduleChecks  => exact K.scheduleChecks law hi
  case scheduleExecute =>
    rcases ht.starts rfl with hs | hs
    · exact K.scheduleExecute law hi hs
    · exact hs.mono (fun w' hw => hw ▸ hi) fun f => K.of_overflow

theorem Kept.reach (K : Kept S.toLockPolicy E t F I) (law : S.Lawful) (h₀ : I (.empty locks) 0)
    (hC : ∀ w e, I w.toLedger 0 → C w e → S.Within E t w e) (hr : S.Reach E locks C w) :
    I w.toLedger 0 := by
  induction hr
  case init h => exact h.ledger ▸ h₀
  case step he hc hs hi => exact (K.step law hi he <| hC _ _ hi hc).of_ok hs

end Scheduler
