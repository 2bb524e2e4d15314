import MapAlgebra.Event

/-! Entries: events that were written down, in order and with their times. -/

namespace MapAlgebra

structure Entry where
  /-- The place in the order of writing, from one. -/
  seq : Nat
  job : JobId
  kind : EventKind
  fraction : Sample
  cause : String
  /-- Nanoseconds since the epoch. -/
  time : Int
deriving DecidableEq

def Notice.entry (n : Notice) (seq : Nat) (time : Int) : Entry :=
  { seq, job := n.job, kind := n.kind, fraction := n.fraction, cause := n.cause, time }

end MapAlgebra
