import MapAlgebra.Proofs.Desk.Registration
import MapAlgebra.Proofs.Job.Protocol

/-! What the listeners of a desk hear of a job. All that are registered hear the same, whether or not
they break down, and a job is run once.
-/

namespace MapAlgebra

open List

namespace Desk

/-- The desks that there can be: listeners come and go, jobs come in and are run. -/
inductive Reachable : Desk → Prop where
  | create (tile : TileSize) : Reachable (.create tile)
  | listen {desk} (reached : Reachable desk) (listener : Listener Listener.Record)
    : Reachable (desk.listen listener).2
  | unlisten {desk} (reached : Reachable desk) (registration : Nat)
    : Reachable (desk.unlisten registration)
  | ofScript {desk} (reached : Reachable desk) (request : ScriptRequest)
    : Reachable (desk.add (.ofScript desk.nextId request))
  | ofScene {desk} (reached : Reachable desk) (scene : Option Scene)
    : Reachable (desk.add (.ofScene desk.nextId scene))
  | again {desk} (reached : Reachable desk) {other} (here : other ∈ desk.entries)
    : Reachable (desk.addAgain other).2
  | run {desk desk'} (reached : Reachable desk) {entry} (here : entry ∈ desk.entries)
    {signal fuel ending}
    (ran : desk.run entry signal fuel = .ok (ending, desk'))
    : Reachable desk'

/-- No listener is registered twice, and each that is has its place. -/
structure Orderly (desk : Desk) : Prop where
  held : ∃ standing, desk.dispatcher.Holds standing
  nodup : desk.dispatcher.snapshot.Nodup
  placed : ∀ place ∈ desk.dispatcher.snapshot, place < desk.listeners.size

variable {desk desk' : Desk}

theorem Orderly.listen (orderly : desk.Orderly) (listener : Listener Listener.Record)
    : (desk.listen listener).2.Orderly := by
  obtain ⟨standing, holds⟩ := orderly.held
  have holds' := holds.register desk.listeners.size
  have snapshot : (desk.listen listener).2.dispatcher.snapshot
      = desk.dispatcher.snapshot ++ [desk.listeners.size] := by
    rw [holds.snapshot]
    exact holds'.snapshot.trans map_append
  have size : (desk.listen listener).2.listeners.size = desk.listeners.size + 1 := Array.size_push _
  refine ⟨⟨_, holds'⟩, ?_, fun place member => ?_⟩
  · rw [snapshot, nodup_append]
    refine ⟨orderly.nodup, nodup_singleton _, fun place member place' new => ?_⟩
    rw [mem_singleton.mp new]
    exact (orderly.placed place member).ne
  · rw [snapshot, mem_append, mem_singleton] at member
    rw [size]
    rcases member with old | rfl
    · exact (orderly.placed place old).trans (Nat.lt_succ_self _)
    · exact Nat.lt_succ_self _

theorem Orderly.unlisten (orderly : desk.Orderly) (registration)
    : (desk.unlisten registration).Orderly := by
  obtain ⟨standing, holds⟩ := orderly.held
  have holds' := holds.unregister registration
  have less : (desk.unlisten registration).dispatcher.snapshot.Sublist desk.dispatcher.snapshot := by
    rw [holds.snapshot]
    exact holds'.snapshot ▸ filter_sublist.map _
  exact ⟨⟨_, holds'⟩, orderly.nodup.sublist less, fun place member => orderly.placed place (less.subset member)⟩

/-- Changing the values at places that differ changes each of them once, by induction on the places. -/
theorem getElem?_foldl_modify {α : Type} (f : α → α) {places : List Nat} (nodup : places.Nodup)
    (values : Array α) (i : Nat)
    : (places.foldl (fun values place => values.modify place f) values)[i]?
      = if i ∈ places then values[i]?.map f else values[i]? := by
  induction places generalizing values with
  | nil => simp
  | cons place rest ih =>
    obtain ⟨new, nodup⟩ := nodup_cons.mp nodup
    rw [foldl_cons, ih nodup, Array.getElem?_modify]
    by_cases here : place = i
    · subst here
      simp [new]
    · simp [here, Ne.symm here]

theorem size_tell (desk : Desk) (job events)
    : (desk.tell job events).listeners.size = desk.listeners.size := by
  unfold tell
  generalize desk.dispatcher.snapshot = places, desk.listeners = listeners
  induction places generalizing listeners with
  | nil => rfl
  | cons place rest ih => rw [foldl_cons, ih, Array.size_modify]

/-- The state of a listener that was told events in order. -/
def told (listener : Listener Listener.Record) (job : JobId) (events : List Event)
    (record : Listener.Record) : Listener.Record :=
  events.foldl (fun record event => listener.tell record job event) record

/-- Every listener that is registered is told all events, and no other is told any. -/
theorem getElem?_tell (orderly : desk.Orderly) (job : JobId) (events : List Event) (place : Nat)
    : (desk.tell job events).listeners[place]?
      = desk.listeners[place]?.map fun (listener, record) =>
          (listener,
            if place ∈ desk.dispatcher.snapshot then told listener job events record else record) := by
  refine (getElem?_foldl_modify _ orderly.nodup desk.listeners place).trans ?_
  split
  · rfl
  · exact Option.map_id'.symm ▸ rfl

/-- A recorder of everything records all that it is told, even if it breaks down each time. -/
theorem told_recorder (breaks : Bool) (job : JobId) (events : List Event) (record : Listener.Record)
    : told (.recorder (fun _ => true) breaks) job events record = record ++ events.map (job, ·) := by
  induction events generalizing record with
  | nil => exact (append_nil record).symm
  | cons event rest ih =>
    have first : (Listener.recorder (fun _ => true) breaks).tell record job event
        = record ++ [(job, event)] := rfl
    rw [told, foldl_cons, first, ← told, ih, append_assoc]
    rfl

variable {entry : DeskEntry} {signal : Job.StopSignal} {fuel : Nat}

theorem run_of_claimed (claimed : entry.job.claimed = true)
    : desk.run entry signal fuel = .error entry.job.startedMessage := by
  rw [run, Job.run, if_pos claimed]
  rfl

/-- The desk that a run leaves. -/
def after (desk : Desk) (entry : DeskEntry) (e : Job.Execution) : Desk :=
  { desk with entries := desk.entries.map (keep entry.group e.job) }.tell e.job.id e.events

theorem run_of_not_claimed (new : entry.job.claimed = false)
    : desk.run entry signal fuel
      = .ok ((entry.job.execute desk.tile signal fuel).ending,
          desk.after entry (entry.job.execute desk.tile signal fuel)) := by
  rw [run, Job.run, if_neg (by rw [new]; exact Bool.false_ne_true)]
  rfl

theorem Orderly.after (orderly : desk.Orderly) (entry : DeskEntry) (e)
    : (desk.after entry e).Orderly :=
  ⟨orderly.held, orderly.nodup, fun place member => (size_tell _ _ _).symm ▸ orderly.placed place member⟩

/-- Every desk that there can be is orderly, by induction on how it is come to. -/
theorem Reachable.orderly (reached : desk.Reachable) : desk.Orderly := by
  induction reached with
  | create tile => exact ⟨⟨[], Dispatcher.holds_empty⟩, nodup_nil, fun place member => nomatch member⟩
  | listen _ listener orderly => exact orderly.listen listener
  | unlisten _ registration orderly => exact orderly.unlisten registration
  | ofScript _ _ orderly | ofScene _ _ orderly | again _ _ orderly =>
    exact ⟨orderly.held, orderly.nodup, orderly.placed⟩
  | @run desk desk' _ entry _ signal fuel ending ran orderly =>
    cases claimed : entry.job.claimed with
    | true =>
      rw [run_of_claimed claimed] at ran
      exact nomatch ran
    | false =>
      rw [run_of_not_claimed claimed] at ran
      cases ran
      exact orderly.after entry _

theorem mem_after (here : entry ∈ desk.entries) {e} (same : e.job.id = entry.job.id)
    : { entry with job := e.job } ∈ (desk.after entry e).entries := by
  refine mem_map.mpr ⟨entry, here, ?_⟩
  rw [keep, if_pos same.symm]

open Sweep in
/-- A job is run once. Each listener that is registered then, and no other, hears the progress and at
last how the run ended, which is also what the job says from then on. A run that ends before the sweep
reports no progress. A sweep reports it from zero on and after each of its stretches. As long as the
numbers of the sweep are words, it goes up within zero and one, to one if the job is complete; and where
no destination has a pixel, it goes from zero to one and the job is complete.
-/
theorem run_protocol (reached : desk.Reachable) (here : entry ∈ desk.entries)
    (signal : Job.StopSignal) (fuel : Nat)
    : (entry.job.claimed = true → desk.run entry signal fuel = .error entry.job.startedMessage)
      ∧ (entry.job.claimed = false
        → ∃ (ending : Job.Ending) (fractions : List Sample) (left : Job) (desk' : Desk),
        desk.run entry signal fuel = .ok (ending, desk')
        ∧ (∀ place, desk'.listeners[place]?
          = desk.listeners[place]?.map fun (listener, record) =>
              (listener,
                if place ∈ desk.dispatcher.snapshot then
                  told listener entry.job.id (fractions.map Event.progress ++ ending.events) record
                else record))
        ∧ { entry with job := left } ∈ desk'.entries
        ∧ left.id = entry.job.id
        ∧ (ending = .completed ↔ left.state = .completed ∧ left.progress = .one)
        ∧ (∀ cause, ending = .failed cause ↔ left.state = .failed ∧ left.failure = some cause)
        ∧ (∀ signal fuel,
          desk'.run { entry with job := left } signal fuel = .error left.startedMessage)
        ∧ (entry.job.Opens fuel (.error ending) ∧ fractions = [] ∧ ending ≠ .completed
          ∨ ∃ scene n, entry.job.Opens fuel (.ok scene)
            ∧ Job.Finishes scene.program fuel signal scene.env (stretches (plan scene desk.tile)) n ending
            ∧ fractions = reported (plan scene desk.tile) n
            ∧ ((∀ t ∈ targets scene, t.2.WellFormed) → Countable (plan scene desk.tile)
              → fractions.Pairwise (fun f f' => f.le f' = true)
                ∧ (∀ f ∈ fractions, Sample.zero.le f = true ∧ f.le .one = true)
                ∧ (ending = .completed → fractions.getLast? = some .one)
                ∧ if ∀ t ∈ targets scene, t.2.bounds.isEmpty = true then
                    fractions = [.zero, .one] ∧ ending = .completed
                  else fractions.length = n + 1))) := by
  refine ⟨run_of_claimed, fun new => ?_⟩
  obtain ⟨fractions, reports, events, left⟩ :=
    Job.execute_reports entry.job desk.tile signal fuel
  refine ⟨_, fractions, _, _, run_of_not_claimed new, fun place => ?_, mem_after here left.id, left.id,
    left.completed_iff, left.failed_iff, fun _ _ => run_of_claimed left.claimed, ?_⟩
  · rw [← events, ← left.id]
    exact getElem?_tell ⟨reached.orderly.held, reached.orderly.nodup, reached.orderly.placed⟩ _ _ place
  · cases reports with
    | early opens => exact Or.inl ⟨opens, rfl, opens.ne_completed⟩
    | @swept scene n _ opens finishes =>
      refine Or.inr ⟨scene, n, opens, finishes, rfl, fun wellFormed countable => ?_⟩
      obtain ⟨ascend, bounds, last⟩ := reported_ascend wellFormed countable finishes.most
      exact ⟨ascend, bounds, fun completed => last (finishes.completed_iff.mp completed),
        finishes.reported wellFormed countable⟩

/-- A desk with a listener that breaks down whenever it is told something. -/
def forBreaking (tile : TileSize) : Desk :=
  ((create tile).listen (.recorder (fun _ => true) true)).2

theorem run_protocol_painting
    : ∃ left right scene desk' entry, painting.Staged left right scene
      ∧ entry = { job := .ofScene (forBreaking ⟨2, 2⟩).nextId (some scene), group := 0 }
      ∧ ((forBreaking ⟨2, 2⟩).add entry.job).run entry (fun _ => none) 9 = .ok (.completed, desk')
      ∧ ∃ fractions : List Sample,
        desk'.heard 0 = (fractions.map Event.progress ++ [Event.completion]).map (entry.job.id, ·)
        ∧ fractions.Pairwise (fun f f' => f.le f' = true)
        ∧ fractions.getLast? = some .one := by
  obtain ⟨left, right, scene, here, targets, coordinates, tiles, pixels, kinds⟩ :
      ∃ left right scene, painting.Staged left right scene
      ∧ Sweep.targets (scene.start 9).2 = [("left", left), ("right", right)]
      ∧ (∀ p ∈ Sweep.plan (scene.start 9).2 ⟨2, 2⟩, p.grid.InWords)
      ∧ (∀ p ∈ Sweep.plan (scene.start 9).2 ⟨2, 2⟩, p.grid.columns * p.grid.rows < 2 ^ 63)
      ∧ ((Sweep.stretches (Sweep.plan (scene.start 9).2 ⟨2, 2⟩)).map (·.pixels)).sum < 2 ^ 63
      ∧ ((Job.ofScene (forBreaking ⟨2, 2⟩).nextId (some scene)).execute ⟨2, 2⟩ (fun _ => none)
          9).ending.events.map Event.kind = [.completion] :=
    ⟨_, _, _, ⟨_, _, rfl, rfl, rfl, rfl, rfl⟩, rfl, by decide +kernel, by decide +kernel,
      by decide +kernel, by decide +kernel⟩
  have reached : ((forBreaking ⟨2, 2⟩).add (.ofScene (forBreaking ⟨2, 2⟩).nextId (some scene))).Reachable :=
    .ofScene (.listen (.create _) _) _
  obtain ⟨ending, fractions, left', desk', ran, hears, -, -, -, -, -, swept⟩ :=
    (run_protocol reached (mem_singleton_self _) (fun _ => none) 9).2 rfl
  have ends : ((Job.ofScene (forBreaking ⟨2, 2⟩).nextId (some scene)).execute ⟨2, 2⟩ (fun _ => none)
      9).ending = ending :=
    congrArg Prod.fst (Except.ok.inj ((run_of_not_claimed rfl).symm.trans ran))
  obtain rfl : ending = .completed := by
    rw [ends] at kinds
    cases ending with
    | completed => rfl
    | _ => exact nomatch kinds
  refine ⟨left, right, scene, desk', _, here, rfl, ran, fractions, ?_, ?_⟩
  · exact (congrArg (fun place => (place.map (·.2)).getD []) (hears 0)).trans
      (told_recorder true _ _ [])
  · rcases swept with ⟨-, -, other⟩ | ⟨scene', n, opens, -, -, ascend⟩
    · exact absurd rfl other
    · obtain rfl : scene' = (scene.start 9).2 := by
        cases opens with
        | started prepared held =>
          cases prepared
          cases held
          rfl
      obtain ⟨compiled, bound, -, one, two, -, -⟩ := here
      have wellFormed : ∀ t ∈ Sweep.targets (scene.start 9).2, t.2.WellFormed := by
        rw [targets]
        simp [Raster.create_wellFormed one, Raster.create_wellFormed two]
      obtain ⟨ordered, -, last, -⟩ := ascend wellFormed ⟨coordinates, tiles, pixels⟩
      exact ⟨ordered, last rfl⟩

/-- A script that writes to an image only where zero holds. -/
def resting (image : String) : Program where
  span := .none
  init := none
  body := [.ifThen .none (.literal .none .zero)
    (.expr (.assign .none image none (.literal .none .one) none))]

/-- The numbers of tiles and of pixels may be past the words. Then the progress is counted against what is
left of them: here four tiles of two pixels each against three pixels, which goes past one.
-/
theorem resting_overshoots
    : ∃ compiled raster scene e,
        (resting "out").OnRaster .bytecode (.ofSize 7378697629483820647 5) 1 compiled raster scene
        ∧ (∀ p ∈ Sweep.plan scene ⟨2, 1⟩, p.grid.InWords)
        ∧ (Job.ofScene ⟨[1]⟩ (some scene)).run ⟨2, 1⟩ (fun _ => none) 9 = .ok e
        ∧ e.job.state = .completed
        ∧ e.events.map (Event.notice ⟨[1]⟩)
          = [.progress .zero, .progress (Sweep.fraction 2 3), .progress (Sweep.fraction 4 3),
              .progress (Sweep.fraction 6 3), .progress (Sweep.fraction 8 3), .completion].map
            (Event.notice ⟨[1]⟩)
        ∧ (Sweep.fraction 8 3).le .one = false :=
  ⟨_, _, _, _, ⟨rfl, rfl, rfl⟩, by decide +kernel, rfl, by decide +kernel, by decide +kernel,
    by decide +kernel⟩

end Desk

end MapAlgebra
