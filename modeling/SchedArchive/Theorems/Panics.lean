import SchedArchive.Theorems.Locks
import SchedArchive.Theorems.Panics.Ingest
import SchedArchive.Theorems.Panics.Dispatch

-- When a step panics.

open Except Ledger

namespace Scheduler

variable {L : Type} {S : Scheduler L} {E : Env} {locks : L} {w : World L} {e : Event} {f : Fault}
variable {t : Tariff L}

-- The asserts on the containers and the panics of the lock table are never what stops a step.
theorem Known.not_internal_step (hS : S.Known locks) (hr : S.Reach E locks LocksOnce w)
    (he : e.Enabled w) (hl : LocksOnce w e) :
    (S.step E w e).Ensures (fun _ => True) (¬·.IsInternal) := by
  cases hS
  case batch =>
    have hs := BatchScheduler.kept_terms.step BatchScheduler.lawful (BatchScheduler.locked hr) he <|
      BatchScheduler.within_terms hl
    exact hs.mono (fun _ _ => trivial) fun f hf => not_or.mpr hf
  case auction =>
    have K : Kept AuctionBatchScheduler.lockPolicy E (.all _) (¬·.IsInternal)
        (fun l h => l.Custody E h) :=
      { custody     := id
        move        := fun m c => c.move m
        benign      := fun f hc hl => not_or.mpr ⟨hc, hl⟩
        compiled    := fun _ _ => trivial
        unlocks     := fun _ _ _ => trivial
        locksTips   := fun _ _ _ => trivial
        locksTx     := fun _ _ _ _ => trivial
        locksBundle := fun _ _ _ _ => trivial }
    exact (K.step AuctionBatchScheduler.lawful (Known.custody (.auction ..) hr.reachable) he
      within_all).imp fun _ _ => trivial

end Scheduler
