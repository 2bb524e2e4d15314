import MapAlgebra.Proofs.Job.Protocol
import MapAlgebra.Proofs.Sample.Numerals

/-! What the events of a run say of its job. The fractions among them are numbers and no negative zeros,
whatever the counts wrap to, and the job stands where its events leave it.
-/

namespace MapAlgebra

open List

namespace Sample

/-- The sample is a number, and no negative zero. -/
structure Proper (s : Sample) : Prop where
  number : s.isNaN = false
  zero : s.isZero = true → s = .zero

theorem proper_withSign {negative n} (sign : n = 0 → negative = false)
    : (withSign negative (ofNumber n)).Proper := by
  have magnitude := number_withSign negative n
  refine ⟨?_, fun isZero => ?_⟩
  · rw [isNaN_eq, magnitude, decide_eq_false_iff_not]
    omega
  · rw [isZero_eq, magnitude, decide_eq_true_eq] at isZero
    obtain rfl : n = 0 := by omega
    rw [sign rfl]
    rfl

theorem proper_ofNumber (n) : (ofNumber n).Proper := by
  have sign : n = 0 → false = false := fun _ => rfl
  exact proper_withSign sign

theorem proper_zero : zero.Proper := zero_eq ▸ proper_ofNumber 0

theorem proper_one : one.Proper := one_eq ▸ proper_ofNumber numberOfOne

end Sample

namespace Sweep

open Sample

theorem ne_zero_of_nearest_div {d t n} (some : numberOfOne ≤ d) (word : t ≤ 1086 * 2 ^ 52)
    (positive : 0 < magnitude t) (near : Nearest (magnitude d / magnitude t) n)
    : n ≠ 0 := by
  have part : 1 ≤ magnitude d := magnitude_numberOfOne ▸ magnitude_strictMono.monotone some
  have total : magnitude t ≤ 2 ^ 63 := magnitude_words ▸ magnitude_strictMono.monotone word
  have large : magnitude 1 ≤ magnitude d / magnitude t := by
    rw [magnitude_one]
    calc (2 : ℚ) ^ (-1074 : Int)
      _ ≤ 2 ^ (-63 : Int) := zpow_le_zpow_right₀ one_le_two (by decide)
      _ = 1 / 2 ^ 63 := by norm_num
      _ ≤ magnitude d / magnitude t := div_le_div₀ (by linarith) part positive total
  exact Nat.one_le_iff_ne_zero.mp ((Nearest.self 1).mono near large)

theorem fraction_proper {done whole} (low : -2 ^ 63 ≤ done) (high : done < 2 ^ 63)
    (word : whole < 2 ^ 63)
    : (fraction done whole).Proper := by
  unfold fraction
  split
  · next positive =>
    obtain ⟨d, -, part, finite, some⟩ := ofInt_eq (n := done) (by omega)
    obtain ⟨t, -, total, finite', some'⟩ := ofInt_eq (n := whole) (by omega)
    have nonzero : t ≠ 0 := by
      have large := some' (by omega)
      rw [numberOfOne] at large
      omega
    obtain ⟨n, near, quotient⟩ :=
      div_withSign (done < 0) (a := d) (b := t) (by omega) (by omega) nonzero
    rw [part, total, decide_eq_false (show ¬ whole < 0 by omega)]
    show ((withSign (done < 0) (ofNumber d)).div (ofNumber t)).Proper
    rw [quotient]
    refine proper_withSign fun none => decide_eq_false fun negative => ?_
    refine ne_zero_of_nearest_div (some (by omega)) finite' ?_ near none
    exact magnitude_zero ▸ magnitude_strictMono (Nat.pos_of_ne_zero nonzero)
  · exact proper_one

theorem fractionsFrom_proper {whole done} (word : whole < 2 ^ 63) (stretches)
    : ∀ f ∈ fractionsFrom whole done stretches, f.Proper := by
  induction stretches generalizing done with
  | nil => exact fun _ member => nomatch member
  | cons stretch rest ih =>
    obtain ⟨low, high⟩ := wrap_bounds (done + stretch.pixels)
    exact forall_mem_cons.mpr ⟨fraction_proper low high word, ih⟩

theorem reported_proper (passes n) : ∀ f ∈ reported passes n, f.Proper := by
  intro f member
  rcases mem_append.mp member with swept | last
  · rcases mem_cons.mp swept with rfl | later
    · exact proper_zero
    · exact fractionsFrom_proper (wrap_bounds _).2 _ f later
  · split at last
    · rw [mem_singleton.mp last]
      exact proper_one
    · exact nomatch last

end Sweep

/-- Where a job stands, and why it failed if it did. -/
structure Standing where
  state : JobState
  progress : Sample
  failure : Option Failure

namespace Standing

/-- A job that runs and has told nothing yet. -/
def start : Standing := { state := .running, progress := .zero, failure := none }

/-- Where a job stands once it has told one more event. -/
def after (s : Standing) : Event → Standing
  | .progress fraction => { s with progress := fraction }
  | .completion => { s with state := .completed, progress := .one }
  | .failure cause => { s with state := .failed, failure := some cause }

theorem foldl_after_progress (fractions : List Sample) (s)
    : (fractions.map .progress).foldl after s
      = { s with progress := ((fractions.map .progress).foldl after s).progress } := by
  induction fractions generalizing s with
  | nil => rfl
  | cons fraction rest ih => exact ih { s with progress := fraction }

end Standing

/-- The fraction of an event, if it has one, is a number and no negative zero. -/
def Event.Proper (event : Event) : Prop :=
  ∀ fraction, event = .progress fraction → fraction.Proper

namespace Job

/-- Where a job stands by what it says itself. -/
def standing (job : Job) : Standing :=
  { state := job.state, progress := job.progress, failure := job.failure }

variable {job : Job} {tile : TileSize} {signal : StopSignal} {fuel : Nat}

theorem Reports.proper {ending fractions} (reports : Reports job tile signal fuel ending fractions)
    : ∀ event ∈ fractions.map .progress ++ ending.events, event.Proper := by
  rintro event member f rfl
  rcases mem_append.mp member with told | last
  · obtain ⟨_, member, same⟩ := mem_map.mp told
    cases same
    cases reports with
    | early => exact nomatch member
    | swept => exact Sweep.reported_proper _ _ _ member
  · cases ending <;> exact nomatch last

theorem Left.events_ne_nil {ending left} (after : Left job ending left)
    (ended : left.state.isTerminal = true)
    : ending.events ≠ [] := by
  rw [after.state] at ended
  cases ending with
  | completed | failed => exact cons_ne_nil _ _
  | crashed | unfinished => exact nomatch ended

/-- A sweep shows the progress that it told last, by induction on the stretches. -/
theorem sweep_progress (program : Executable) (fuel : Nat) (signal : StopSignal) (total : Int)
    (asked : Nat) (done : Int) (s : Standing) (env : Env) (stretches : List Sweep.Stretch)
    : let swept := sweep program fuel signal total asked done s.progress env stretches
      swept.progress = (swept.events.foldl Standing.after s).progress := by
  induction stretches generalizing asked done s env with
  | nil => rfl
  | cons stretch rest ih =>
    rw [sweep]
    cases signal asked with
    | some reason => rfl
    | none =>
      cases (Sweep.evaluateAll program fuel stretch.places).run env with
      | error stop env' => rfl
      | ok _ env' => exact ih (asked + 1) _ { s with progress := Sweep.fraction _ total } env'

theorem prepare_progress (job) : (prepare job).2.progress = job.progress := by
  unfold prepare
  split
  · split
    · rfl
    · dsimp only
      split <;> rfl
  · rfl

/-- A run that is not complete shows the progress that it told last. -/
theorem process_progress (unstarted : job.progress = .zero)
    : let e := process job tile signal fuel
      e.ending = .completed ∨ e.job.progress = (e.events.foldl Standing.after .start).progress := by
  unfold process
  cases job.scene with
  | none => exact Or.inr unstarted
  | some scene =>
    dsimp only
    cases scene.unbound with
    | cons fault more => exact Or.inr unstarted
    | nil =>
      cases (scene.start fuel).1 with
      | error stop => exact Or.inr unstarted
      | ok _ =>
        dsimp only
        rw [unstarted]
        split
        · next completed => exact Or.inl completed
        · rw [append_nil]
          exact Or.inr (sweep_progress _ _ _ _ 0 0 .start _ _)

theorem finish_standing {e : Execution} {fractions : List Sample}
    (events : e.events = fractions.map .progress)
    (shown : e.ending = .completed ∨ e.job.progress = (e.events.foldl Standing.after .start).progress)
    (ends : e.ending.events ≠ [])
    : e.finish.job.standing = e.finish.events.foldl Standing.after .start := by
  obtain ⟨job, told, ending⟩ := e
  cases ending with
  | completed =>
    rw [Execution.finish, foldl_concat, events, Standing.foldl_after_progress]
    rfl
  | failed cause =>
    have progress := shown.resolve_left (nomatch ·)
    rw [Execution.finish, foldl_concat]
    rw [events, Standing.foldl_after_progress] at progress ⊢
    exact congrArg (Standing.mk .failed · (some cause)) progress
  | crashed | unfinished => exact absurd rfl ends

theorem execute_standing (unstarted : job.progress = .zero)
    : let e := job.execute tile signal fuel
      e.ending.events ≠ [] → e.job.standing = e.events.foldl Standing.after .start := by
  obtain ⟨-, claimed⟩ := prepare_keeps { job with claimed := true }
  have kept := prepare_progress { job with claimed := true }
  unfold execute
  cases ready : prepare { job with claimed := true } with
  | mk prepared after =>
    rw [ready] at claimed kept
    cases prepared with
    | error cause =>
      have silent : (Execution.early after (.failed cause)).events = ([] : List Sample).map .progress :=
        rfl
      exact finish_standing (e := .early after (.failed cause)) silent (Or.inr (kept.trans unstarted))
    | ok _ =>
      obtain ⟨⟨fractions, -, told⟩, -, claimed', running⟩ :=
        process_reports job tile signal fuel ready
      obtain ⟨ending, -, -⟩ := finish_spec (claimed'.trans claimed) (Or.inl running)
      dsimp only
      rw [ending]
      exact finish_standing told (process_progress (kept.trans unstarted))

/-- A job that is complete has no failure. -/
theorem execute_failure (unstarted : job.progress = .zero)
    : let e := job.execute tile signal fuel
      e.ending = .completed → e.job.failure = none := by
  intro e completed
  obtain ⟨fractions, -, events, -⟩ := execute_reports job tile signal fuel
  have standing : e.job.standing = e.events.foldl Standing.after .start :=
    execute_standing unstarted (completed ▸ cons_ne_nil _ _)
  rw [events, completed, Ending.events, foldl_concat, Standing.foldl_after_progress] at standing
  exact congrArg Standing.failure standing

end Job

end MapAlgebra
