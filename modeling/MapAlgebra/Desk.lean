import MapAlgebra.Codec.Cbor
import MapAlgebra.Job
import MapAlgebra.Listener

/-! Desks: they take jobs in, run them one at a time and tell the listeners what happens. Jobs
over one scene find it as the last of them left it.
-/

namespace MapAlgebra

/-- A job at a desk. Jobs with the same group are over one scene. -/
structure DeskEntry where
  job : Job
  group : Nat

structure Desk where
  /-- The tile size that every run is forced to, if it has both sides. -/
  tile : TileSize
  /-- The registrations, by the place of the listener. -/
  dispatcher : Dispatcher Nat
  /-- All listeners that ever registered, with their states. -/
  listeners : Array (Listener Listener.Record × Listener.Record)
  entries : List DeskEntry

namespace Desk

def create (tile : TileSize) : Desk :=
  { tile, dispatcher := .empty, listeners := #[], entries := [] }

def listen (desk : Desk) (listener : Listener Listener.Record) : (Nat × Nat) × Desk :=
  let place := desk.listeners.size
  let (registration, dispatcher) := desk.dispatcher.register place
  ((registration, place), { desk with dispatcher, listeners := desk.listeners.push (listener, []) })

def unlisten (desk : Desk) (registration : Nat) : Desk :=
  { desk with dispatcher := desk.dispatcher.unregister registration }

def heard (desk : Desk) (place : Nat) : Listener.Record :=
  (desk.listeners[place]?.map (·.2)).getD []

def nextId (desk : Desk) : JobId :=
  { bytes := List.replicate 12 0 ++ Cbor.bigEndian 4 (desk.entries.length + 1) }

def add (desk : Desk) (job : Job) : Desk :=
  { desk with entries := desk.entries ++ [{ job, group := desk.entries.length }] }

def entry? (desk : Desk) (id : JobId) : Option DeskEntry :=
  desk.entries.find? (·.job.id == id)

def addAgain (desk : Desk) (other : DeskEntry) : Job × Desk :=
  let job := Job.ofScene desk.nextId other.job.scene
  (job, { desk with entries := desk.entries ++ [{ job, group := other.group }] })

/-- Keeps what a run left: the job, and the scene also for the other jobs over it. -/
def keep (group : Nat) (left : Job) (e : DeskEntry) : DeskEntry :=
  if e.job.id = left.id then { e with job := left }
  else if e.group = group ∧ e.job.scene.isSome then
    { e with job := { e.job with scene := left.scene } }
  else e

def tell (desk : Desk) (job : JobId) (events : List Event) : Desk :=
  let told := desk.dispatcher.snapshot.foldl (fun listeners place =>
    listeners.modify place fun (l, record) =>
      (l, events.foldl (fun record event => l.tell record job event) record)) desk.listeners
  { desk with listeners := told }

def run (desk : Desk) (entry : DeskEntry) (signal : Job.StopSignal) (fuel : Nat)
    : Except String (Job.Ending × Desk) := do
  let e ← entry.job.run desk.tile signal fuel
  let desk := { desk with entries := desk.entries.map (keep entry.group e.job) }
  return (e.ending, desk.tell e.job.id e.events)

end Desk

end MapAlgebra
