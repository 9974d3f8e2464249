import SchedArchive.Lib.Poll

-- A stream that starts a future whenever its interval ticks, and gives out what the future returns.

-- The interval and the futures are left open.
structure IntervalStream (I F : Type) where
  interval   : I
  inProgress : Option F

namespace IntervalStream

open Source

variable {I F Output W : Type} [Source I Unit W] [Source F Output W]

def new (interval : I) : IntervalStream I F where
  interval   := interval
  inProgress := none

-- `fut` is the future that the closure of the stream makes, if it is called.
def pollNext (s : IntervalStream I F) (fut : F) (cx : W) :
    Poll (Option Output) × IntervalStream I F :=
  match s.inProgress with
  | some inProgress =>
    match poll inProgress cx with
    | (.ready output, _)    => (.ready (some output), { s with inProgress := none })
    | (.pending, inProgress) => (.pending, { s with inProgress := some inProgress })
  | none =>
    match poll s.interval cx with
    | (.ready _, interval) => (.pending, { interval, inProgress := some fut })
    | (.pending, interval) => (.pending, { s with interval })

end IntervalStream
