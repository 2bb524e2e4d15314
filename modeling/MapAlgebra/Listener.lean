import MapAlgebra.Event

/-! Listeners, and the register that jobs take them from. -/

namespace MapAlgebra

/-- A register of listeners, which are told in the order of their registration. -/
structure Dispatcher (α : Type) where
  nextId : Nat
  listeners : List (Nat × α)
  order : List Nat

namespace Dispatcher

variable {α : Type}

def empty : Dispatcher α := { nextId := 0, listeners := [], order := [] }

def register (d : Dispatcher α) (listener : α) : Nat × Dispatcher α :=
  (d.nextId, { nextId := d.nextId + 1, listeners := (d.nextId, listener) :: d.listeners
               order := d.order ++ [d.nextId] })

/-- Takes a registration back; once that is done, doing it again changes nothing. -/
def unregister (d : Dispatcher α) (id : Nat) : Dispatcher α :=
  { d with listeners := d.listeners.filter (·.1 != id), order := d.order.erase id }

def size (d : Dispatcher α) : Nat := d.order.length

def snapshot (d : Dispatcher α) : List α := d.order.filterMap (d.listeners.lookup ·)

end Dispatcher

/-- What a listener does when it is told something: its new state, and whether it broke down on the
way.
-/
structure Reaction (σ : Type) where
  state : σ
  broke : Bool

structure Listener (σ : Type) where
  react : σ → JobId → Event → Reaction σ

namespace Listener

/-- Tells a listener an event. A breakdown is its own affair. -/
def tell {σ : Type} (l : Listener σ) (state : σ) (job : JobId) (event : Event) : σ :=
  (l.react state job event).state

abbrev Record := List (JobId × Event)

def recorder (cares : EventKind → Bool) (breaks : Bool) : Listener Record where
  react record job event :=
    if cares event.kind then { state := record ++ [(job, event)], broke := breaks }
    else { state := record, broke := false }

end Listener

end MapAlgebra
