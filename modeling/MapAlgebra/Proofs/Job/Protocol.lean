import MapAlgebra.Desk
import MapAlgebra.Proofs.Sweep.Progress

/-! What a job tells, and to whom. Whatever becomes of it, its listeners get the same events: the
progress of its sweep, if it gets so far, and at last how it ended.
-/

namespace MapAlgebra

open List
open Sweep

namespace Job

/-- A sweep gets through the first of its stretches, so many of them, and then ends: it is told to stop
before the next one, that one stops, or there is none.
-/
structure Finishes (program : Executable) (fuel : Nat) (signal : StopSignal) (env : Env)
    (stretches : List Stretch) (n : Nat) (ending : Ending) : Prop where
  most : n ≤ stretches.length
  asked : ∀ i < n, signal i = none
  ends : ∃ env',
    (evaluateAll program fuel ((stretches.take n).flatMap (·.places))).run env = .ok () env'
    ∧ match stretches[n]? with
      | none => ending = .completed
      | some stretch =>
        (∃ reason, signal n = some reason ∧ ending = .failed (.cancelled reason))
        ∨ signal n = none ∧ ∃ stop env'',
            (evaluateAll program fuel stretch.places).run env' = .error stop env''
            ∧ ending = .ofStop stop

variable {program : Executable} {fuel : Nat} {signal : StopSignal} {env : Env}
variable {stretches : List Stretch}

theorem Ending.ofStop_ne_completed (stop) : Ending.ofStop stop ≠ .completed := by
  cases stop <;> exact Ending.noConfusion

/-- A sweep is complete when it has got through all of its stretches, and only then. -/
theorem Finishes.completed_iff {n ending}
    (finishes : Finishes program fuel signal env stretches n ending)
    : ending = .completed ↔ n = stretches.length := by
  obtain ⟨most, -, env', -, ends⟩ := finishes
  cases next : stretches[n]? with
  | none =>
    rw [next] at ends
    have past := List.getElem?_eq_none_iff.mp next
    exact ⟨fun _ => by omega, fun _ => ends⟩
  | some stretch =>
    rw [next] at ends
    obtain ⟨before, -⟩ := List.getElem?_eq_some_iff.mp next
    refine ⟨fun completed => ?_, fun all => absurd all (by omega)⟩
    rcases ends with ⟨reason, -, ended⟩ | ⟨-, stop, env'', -, ended⟩
    · exact nomatch ended.symm.trans completed
    · exact absurd (ended.symm.trans completed) (Ending.ofStop_ne_completed stop)

/-- A sweep tells its progress after each stretch that it gets through, by induction on the stretches. -/
theorem sweep_finishes (program : Executable) (fuel : Nat) (signal : StopSignal) (total : Int)
    (asked : Nat) (done : Int) (progress : Sample) (env : Env) (stretches : List Stretch)
    : let swept := sweep program fuel signal total asked done progress env stretches
      ∃ n, Finishes program fuel (fun i => signal (asked + i)) env stretches n swept.ending
        ∧ swept.events = (fractionsFrom total done (stretches.take n)).map .progress := by
  induction stretches generalizing asked done progress env with
  | nil => exact ⟨0, ⟨Nat.le_refl 0, fun _ below => absurd below (Nat.not_lt_zero _), env, rfl, rfl⟩, rfl⟩
  | cons stretch rest ih =>
    rw [sweep]
    cases told : signal asked with
    | some reason =>
      exact ⟨0, ⟨Nat.zero_le _, fun _ below => absurd below (Nat.not_lt_zero _), env, rfl,
        Or.inl ⟨reason, told, rfl⟩⟩, rfl⟩
    | none =>
      cases ran : (evaluateAll program fuel stretch.places).run env with
      | error stop env' =>
        exact ⟨0, ⟨Nat.zero_le _, fun _ below => absurd below (Nat.not_lt_zero _), env, rfl,
          Or.inr ⟨told, stop, env', ran, rfl⟩⟩, rfl⟩
      | ok _ env' =>
        obtain ⟨n, ⟨most, live, env'', evaluated, ends⟩, events⟩ := ih (asked + 1)
          (wrap (done + stretch.pixels))
          (fraction (wrap (done + stretch.pixels)) total) env'
        refine ⟨n + 1, ⟨Nat.succ_le_succ most, fun i below => ?_, env'', ?_, ?_⟩, ?_⟩
        · cases i with
          | zero => exact told
          | succ i =>
            have later := live i (by omega)
            rwa [Nat.add_assoc, Nat.add_comm 1] at later
        · rw [take_succ_cons, flatMap_cons, evaluateAll_append,
            EStateM.run_bind, ran]
          exact evaluated
        · rw [Nat.add_assoc, Nat.add_comm 1] at ends
          exact ends
        · exact congrArg (List.cons _) events

/-- The event that a run ends with; one that breaks or never ends has none. -/
def Ending.events : Ending → List Event
  | .completed => [.completion]
  | .failed cause => [.failure cause]
  | .crashed | .unfinished => []

/-- What becomes of a job before its sweep: the scene to sweep, or how the run ends without one. The job
is compiled and bound, nothing may be left to bind, and its init block runs.
-/
inductive Opens (job : Job) (fuel : Nat) : Except Ending Scene → Prop where
  | refused {cause after}
    (prepared : prepare { job with claimed := true } = (.error cause, after))
    : Opens job fuel (.error (.failed cause))
  | absent {after} (prepared : prepare { job with claimed := true } = (.ok (), after))
    (held : after.scene = none)
    : Opens job fuel (.error .crashed)
  | unbound {after scene fault more}
    (prepared : prepare { job with claimed := true } = (.ok (), after))
    (held : after.scene = some scene) (missing : scene.unbound = fault :: more)
    : Opens job fuel (.error (.failed (.images (fault :: more))))
  | stopped {after scene stop}
    (prepared : prepare { job with claimed := true } = (.ok (), after))
    (held : after.scene = some scene) (bound : scene.unbound = [])
    (started : (scene.start fuel).1 = .error stop)
    : Opens job fuel (.error (.ofStop stop))
  | started {after scene}
    (prepared : prepare { job with claimed := true } = (.ok (), after))
    (held : after.scene = some scene) (bound : scene.unbound = [])
    (started : (scene.start fuel).1 = .ok ())
    : Opens job fuel (.ok (scene.start fuel).2)

/-- The fractions that a run reports: none if it ends before the sweep, and else those of the sweep. -/
inductive Reports (job : Job) (tile : TileSize) (signal : StopSignal) (fuel : Nat)
    : Ending → List Sample → Prop where
  | early {ending} (opens : Opens job fuel (.error ending)) : Reports job tile signal fuel ending []
  | swept {scene n ending} (opens : Opens job fuel (.ok scene))
    (finishes : Finishes scene.program fuel signal scene.env (Sweep.stretches (Sweep.plan scene tile))
      n ending)
    : Reports job tile signal fuel ending (Sweep.reported (Sweep.plan scene tile) n)

/-- A job as a run with this ending leaves it. -/
structure Left (job : Job) (ending : Ending) (left : Job) : Prop where
  id : left.id = job.id
  claimed : left.claimed = true
  state : left.state
    = match ending with
      | .completed => .completed
      | .failed _ => .failed
      | .crashed | .unfinished => .running
  progress : ending = .completed → left.progress = .one
  failure : ∀ cause, ending = .failed cause → left.failure = some cause

theorem prepare_keeps (job)
    : (prepare job).2.id = job.id ∧ (prepare job).2.claimed = job.claimed := by
  unfold prepare
  split
  · split
    · exact ⟨rfl, rfl⟩
    · dsimp only
      split <;> exact ⟨rfl, rfl⟩
  · exact ⟨rfl, rfl⟩

theorem finish_spec {e : Execution} (claimed : e.job.claimed = true)
    (running : e.job.state = .running ∨ ∃ cause, e.ending = .failed cause)
    : e.finish.ending = e.ending ∧ e.finish.events = e.events ++ e.ending.events
      ∧ Left e.job e.ending e.finish.job := by
  obtain ⟨job, events, ending⟩ := e
  cases ending with
  | completed => exact ⟨rfl, rfl, rfl, claimed, rfl, fun _ => rfl, fun _ failed => nomatch failed⟩
  | failed cause =>
    refine ⟨rfl, rfl, rfl, claimed, rfl, (nomatch ·), fun cause' failed => ?_⟩
    cases failed
    rfl
  | crashed | unfinished =>
    have state := running.resolve_right fun ⟨cause, failed⟩ => nomatch failed
    exact ⟨rfl, (append_nil _).symm, rfl, claimed, state, (nomatch ·),
      fun _ failed => nomatch failed⟩

/-- The events of a run of a job that is prepared are the reports of its progress. -/
theorem process_reports (job : Job) (tile : TileSize) (signal : StopSignal) (fuel : Nat) {prepared}
    (ready : prepare { job with claimed := true } = (.ok (), prepared))
    : let e := process { prepared with state := .running } tile signal fuel
      (∃ fractions, Reports job tile signal fuel e.ending fractions ∧ e.events = fractions.map .progress)
        ∧ e.job.id = prepared.id ∧ e.job.claimed = prepared.claimed ∧ e.job.state = .running := by
  unfold process
  cases here : prepared.scene with
  | none => exact ⟨⟨[], .early (.absent ready here), rfl⟩, rfl, rfl, rfl⟩
  | some scene =>
    dsimp only
    cases bound : scene.unbound with
    | cons fault more => exact ⟨⟨[], .early (.unbound ready here bound), rfl⟩, rfl, rfl, rfl⟩
    | nil =>
      cases started : (scene.start fuel).1 with
      | error stop => exact ⟨⟨[], .early (.stopped ready here bound started), rfl⟩, rfl, rfl, rfl⟩
      | ok _ =>
        obtain ⟨n, finishes, events⟩ := sweep_finishes (scene.start fuel).2.program fuel signal
          (Sweep.total (Sweep.plan (scene.start fuel).2 tile)) 0 0 prepared.progress
          (scene.start fuel).2.env (Sweep.stretches (Sweep.plan (scene.start fuel).2 tile))
        simp only [Nat.zero_add] at finishes
        refine ⟨⟨_, .swept (.started ready here bound started) finishes, ?_⟩, rfl, rfl, rfl⟩
        rw [events, Sweep.reported, map_append]
        refine congrArg (List.append _) ?_
        have all := finishes.completed_iff
        split
        · next completed =>
          rw [all.mp completed]
          simp only [true_and]
          split <;> rfl
        · next other =>
          rw [if_neg fun both => other (all.mpr both.1)]
          rfl

/-- What a run of a job tells, and how it leaves the job. -/
theorem execute_reports (job : Job) (tile : TileSize) (signal : StopSignal) (fuel : Nat)
    : let e := job.execute tile signal fuel
      ∃ fractions, Reports job tile signal fuel e.ending fractions
        ∧ e.events = fractions.map .progress ++ e.ending.events ∧ Left job e.ending e.job := by
  obtain ⟨id, claimed⟩ := prepare_keeps { job with claimed := true }
  unfold execute
  cases ready : prepare { job with claimed := true } with
  | mk prepared after =>
    rw [ready] at id claimed
    cases prepared with
    | error cause =>
      obtain ⟨ending, events, left⟩ := finish_spec (e := .early after (.failed cause)) claimed
        (Or.inr ⟨cause, rfl⟩)
      refine ⟨[], .early (.refused ready), events, ?_⟩
      exact ⟨left.id.trans id, left.claimed, left.state, left.progress, left.failure⟩
    | ok _ =>
      obtain ⟨⟨fractions, reports, told⟩, id', claimed', running⟩ :=
        process_reports job tile signal fuel ready
      obtain ⟨ending, events, left⟩ := finish_spec (claimed'.trans claimed) (Or.inl running)
      dsimp only
      rw [ending, events, told]
      refine ⟨fractions, reports, rfl, ?_⟩
      exact ⟨left.id.trans (id'.trans id), left.claimed, left.state, left.progress, left.failure⟩

variable {job left : Job} {tile : TileSize} {ending : Ending}

theorem run_eq_ok {e} (ran : job.run tile signal fuel = .ok e)
    : job.claimed = false ∧ job.execute tile signal fuel = e := by
  unfold run at ran
  split at ran
  · exact nomatch ran
  · next unclaimed => exact ⟨Bool.eq_false_iff.mpr unclaimed, Except.ok.inj ran⟩

theorem Opens.ne_completed (opens : Opens job fuel (.error ending)) : ending ≠ .completed := by
  cases opens with
  | refused | absent | unbound => exact Ending.noConfusion
  | stopped => exact Ending.ofStop_ne_completed _

/-- Where no destination has a pixel, a sweep is complete at once; else it reports once for each stretch
that it gets through.
-/
theorem Finishes.reported {scene n}
    (finishes : Finishes program fuel signal env (Sweep.stretches (Sweep.plan scene tile)) n ending)
    (wellFormed : ∀ t ∈ Sweep.targets scene, t.2.WellFormed)
    (countable : Sweep.Countable (Sweep.plan scene tile))
    : if ∀ t ∈ Sweep.targets scene, t.2.bounds.isEmpty = true then
        Sweep.reported (Sweep.plan scene tile) n = [.zero, .one] ∧ ending = .completed
      else (Sweep.reported (Sweep.plan scene tile) n).length = n + 1 := by
  obtain ⟨zero_iff, blank⟩ := Sweep.total_eq_zero_iff wellFormed countable
  split
  · next empty =>
    have none := zero_iff.mpr empty
    refine ⟨Sweep.reported_of_total_eq_zero wellFormed countable none finishes.most, ?_⟩
    have most := finishes.most
    rw [blank none, length_nil, Nat.le_zero] at most
    exact finishes.completed_iff.mpr (by rw [most, blank none, length_nil])
  · next pixels =>
    have some : Sweep.total (Sweep.plan scene tile) ≠ 0 := fun none => pixels (zero_iff.mp none)
    rw [Sweep.reported_of_total_ne_zero some, length_cons, Sweep.length_fractionsFrom,
      length_take_of_le finishes.most]

theorem Left.completed_iff (after : Left job ending left)
    : ending = .completed ↔ left.state = .completed ∧ left.progress = .one := by
  obtain ⟨-, -, state, progress, -⟩ := after
  refine ⟨fun completed => ⟨by rw [state, completed], progress completed⟩, fun ⟨completed, _⟩ => ?_⟩
  rw [state] at completed
  cases ending <;> first | rfl | exact nomatch completed

theorem Left.failed_iff (after : Left job ending left) (cause)
    : ending = .failed cause ↔ left.state = .failed ∧ left.failure = some cause := by
  obtain ⟨-, -, state, -, failure⟩ := after
  refine ⟨fun failed => ⟨by rw [state, failed], failure cause failed⟩, fun ⟨failed, same⟩ => ?_⟩
  rw [state] at failed
  cases ending with
  | failed cause' => exact congrArg _ (Option.some.inj ((failure cause' rfl).symm.trans same))
  | completed | crashed | unfinished => exact nomatch failed

end Job

end MapAlgebra
