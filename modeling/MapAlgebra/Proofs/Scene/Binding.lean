import MapAlgebra.Scene

/-! Rasters that are offered to a new scene. The scene keeps the last raster that it took for each image
and role, whatever was turned down in between, and has the size of the raster of the image that was the
first to get one to write to, or else one to read from.
-/

namespace MapAlgebra.Scene

open List
open Option

/-- A raster that is offered for an image, to be written to or to be read from. -/
structure Offer where
  name : String
  written : Bool
  raster : Option Raster

/-- A role allows an image to be written to, or to be read from. -/
def allows (role : ImageRole) (written : Bool) : Bool :=
  if written then role.isDestination else role.isSource

namespace Offer

/-- The image that an offer is for. -/
def image? (program : Executable) (o : Offer) : Option Nat := program.imageIndex? o.name

/-- Why a program turns an offer down. -/
def fault? (program : Executable) (o : Offer) : Option ImageFault :=
  match (o.image? program).bind (program.images[·]?) with
  | none => some (.unknown o.name)
  | some b =>
    if !allows b.role o.written then
      some (if o.written then .notDestination o.name else .notSource o.name)
    else if o.raster.isNone then
      some (if o.written then .noDestinationRaster o.name else .noSourceRaster o.name)
    else none

/-- Binds the raster of an offer. -/
def bind (o : Offer) (scene : Scene) : Except ImageFault Scene :=
  if o.written then scene.bindDestination o.name o.raster else scene.bindSource o.name o.raster

end Offer

/-- The scene behind some offers. One that is turned down leaves the scene as it is. -/
def offered (scene : Scene) (offers : List Offer) : Scene :=
  offers.foldl (fun scene o => (o.bind scene).toOption.getD scene) scene

/-- The offers that a program takes. -/
def taken (program : Executable) (offers : List Offer) : List Offer :=
  offers.filter fun o => (o.fault? program).isNone

/-- The last raster among some offers for an image in a role. -/
def latest (program : Executable) (written : Bool) (i : Nat) (offers : List Offer) : Option Raster :=
  (offers.filterMap fun o =>
    if o.written = written ∧ o.image? program = some i then o.raster else none).getLast?

/-- The first image that some offers are for in a role. -/
def first (program : Executable) (written : Bool) (offers : List Offer) : Option Nat :=
  (offers.filterMap fun o => if o.written = written then o.image? program else none).head?

/-- The last raster for the first image to be written to, else for the first one to be read from. -/
def leading (program : Executable) (offers : List Offer) : Option Raster :=
  match first program true offers, first program false offers with
  | some i, _ => latest program true i offers
  | none, some i => latest program false i offers
  | none, none => none

variable {program : Executable} {written : Bool} {i : Nat} {o : Offer} {offers done : List Offer}
variable {scene : Scene} {b : Binding}

theorem latest_concat (o)
    : latest program written i (done ++ [o])
      = (if o.written = written ∧ o.image? program = some i then o.raster else none).or
          (latest program written i done) := by
  simp only [latest, filterMap_append, List.getLast?_append, filterMap_cons,
    filterMap_nil]
  cases (if o.written = written ∧ o.image? program = some i then o.raster else none) <;> rfl

theorem first_concat (o)
    : first program written (done ++ [o])
      = (first program written done).or
          (if o.written = written then o.image? program else none) := by
  simp only [first, filterMap_append, List.head?_append, filterMap_cons, filterMap_nil]
  cases (if o.written = written then o.image? program else none) <;> rfl

/-- An offer that is taken is for an image with the role, and has a raster. -/
theorem Offer.exists_of_fault? (accepted : o.fault? program = none)
    : ∃ i b r, o.image? program = some i ∧ program.images[i]? = some b
      ∧ allows b.role o.written = true ∧ o.raster = some r := by
  unfold Offer.fault? at accepted
  split at accepted
  · cases accepted
  · next b found =>
    obtain ⟨i, image, here⟩ := bind_eq_some_iff.mp found
    split at accepted
    · cases accepted
    · next role =>
      split at accepted
      · cases accepted
      · next given =>
        obtain ⟨r, raster⟩ := ne_none_iff_exists'.mp (by simpa using given)
        exact ⟨i, b, r, image, here, by simpa using role, raster⟩

theorem isSome_latest_iff (accepted : ∀ o ∈ done, o.fault? program = none)
    : (latest program written i done).isSome
      ↔ ∃ o ∈ done, o.written = written ∧ o.image? program = some i := by
  rw [latest, List.getLast?_isSome]
  constructor
  · intro some
    obtain ⟨r, found⟩ := exists_mem_of_ne_nil _ some
    obtain ⟨o, member, given⟩ := mem_filterMap.mp found
    split at given
    · next role => exact ⟨o, member, role⟩
    · cases given
  · rintro ⟨o, member, role⟩
    obtain ⟨-, -, r, -, -, -, raster⟩ := Offer.exists_of_fault? (accepted o member)
    apply ne_nil_of_mem
    exact mem_filterMap.mpr ⟨o, member, (if_pos role).trans raster⟩

theorem exists_of_first (found : first program written done = some i)
    : ∃ o ∈ done, o.written = written ∧ o.image? program = some i := by
  obtain ⟨o, member, image⟩ := mem_filterMap.mp (mem_of_mem_head? found)
  split at image
  · next role => exact ⟨o, member, role, image⟩
  · cases image

/-- As soon as an offer is taken, there is a raster that leads. -/
theorem isSome_leading (accepted : ∀ o ∈ done, o.fault? program = none) (member : o ∈ done)
    : (leading program done).isSome := by
  have led (written : Bool) {i : Nat} (found : first program written done = some i)
      : (latest program written i done).isSome :=
    (isSome_latest_iff accepted).mpr (exists_of_first found)
  unfold leading
  split
  · next found => exact led true found
  · next found => exact led false found
  · next unwritten unread =>
    obtain ⟨i, -, -, image, -⟩ := Offer.exists_of_fault? (accepted o member)
    have unled (none : first program o.written done = none) : False := by
      have nothing := filterMap_eq_nil_iff.mp (List.head?_eq_none_iff.mp none) o member
      rw [if_pos rfl, image] at nothing
      cases nothing
    cases role : o.written with
    | true => exact (unled (by rw [role, unwritten])).elim
    | false => exact (unled (by rw [role, unread])).elim

/-- An image with the last rasters that were taken for it. -/
def slotOf (program : Executable) (done : List Offer) (i : Nat) (b : Binding) : ImageSlot where
  name := b.name
  role := b.role
  source := latest program false i done
  destination := latest program true i done

/-- A scene has the rasters of the offers that it took, and knows which images were the first. -/
structure Tracks (program : Executable) (done : List Offer) (scene : Scene) : Prop where
  accepted : ∀ o ∈ done, o.fault? program = none
  runs : scene.program = program
  images : ∀ i, scene.env.images[i]? = (program.images[i]?).map (slotOf program done i)
  firstSource : scene.firstSource = first program false done
  firstDestination : scene.firstDestination = first program true done

/-- Such a scene has the size of the raster that leads. -/
structure Sized (program : Executable) (done : List Offer) (scene : Scene) : Prop
    extends Tracks program done scene where
  width : scene.env.width = (leading program done).elim 0 (·.bounds.width)
  height : scene.env.height = (leading program done).elim 0 (·.bounds.height)

theorem sized_create (calls)
    : Sized program [] (.create program calls) where
  accepted := forall_mem_nil _
  runs := rfl
  images i := by
    simp only [create, List.getElem?_toArray, List.getElem?_map]
    rfl
  firstSource := rfl
  firstDestination := rfl
  width := rfl
  height := rfl

section

variable (tracks : Tracks program done scene)
include tracks

theorem Tracks.slot? (name)
    : scene.slot? name
      = (program.imageIndex? name).bind fun i =>
          (program.images[i]?).map fun b => (i, slotOf program done i b) := by
  rw [Scene.slot?, tracks.runs]
  cases program.imageIndex? name with
  | none => rfl
  | some i =>
    simp only [bind_eq_bind, bind_some, tracks.images i]
    cases program.images[i]? <;> rfl

theorem Tracks.slot?_of_image (image : o.image? program = some i)
    (here : program.images[i]? = some b)
    : scene.slot? o.name = some (i, slotOf program done i b) := by
  rw [tracks.slot?, ← Offer.image?, image, bind_some, here]
  rfl

theorem Tracks.leading? : scene.leading? = leading program done := by
  have found {written : Bool} {i : Nat} (led : first program written done = some i)
      : ∃ b, program.images[i]? = some b := by
    obtain ⟨o, member, -, image⟩ := exists_of_first led
    obtain ⟨j, b, -, image', here, -⟩ := Offer.exists_of_fault? (tracks.accepted o member)
    cases image.symm.trans image'
    exact ⟨b, here⟩
  rw [Scene.leading?, tracks.firstDestination, tracks.firstSource, leading]
  cases led : first program true done with
  | some i =>
    obtain ⟨b, here⟩ := found led
    simp [tracks.images i, here, slotOf]
  | none =>
    cases led : first program false done with
    | some i =>
      obtain ⟨b, here⟩ := found led
      simp [tracks.images i, here, slotOf]
    | none => rfl

/-- Measuring a scene that took an offer gives it the size of the raster that leads. -/
theorem Tracks.measured (member : o ∈ done)
    : Sized program done scene.measured := by
  obtain ⟨r, led⟩ := isSome_iff_exists.mp (isSome_leading tracks.accepted member)
  have measured : scene.measured = { scene with
      env := { scene.env with width := r.bounds.width, height := r.bounds.height } } := by
    rw [Scene.measured, tracks.leading?, led]
  rw [measured]
  exact ⟨⟨tracks.accepted, tracks.runs, tracks.images, tracks.firstSource, tracks.firstDestination⟩,
    by rw [led]; rfl, by rw [led]; rfl⟩

end

/-- A slot with the raster of an offer in the role that the offer is for. -/
def Offer.put (o : Offer) (slot : ImageSlot) : ImageSlot :=
  if o.written then { slot with destination := o.raster } else { slot with source := o.raster }

section

variable (tracks : Tracks program done scene)
include tracks

/-- An offer that is taken changes its own image only. -/
theorem Tracks.images_withSlot (image : o.image? program = some i)
    (here : program.images[i]? = some b) {r} (raster : o.raster = some r) (j : Nat)
    : (scene.withSlot i (o.put (slotOf program done i b))).env.images[j]?
      = (program.images[j]?).map (slotOf program (done ++ [o]) j) := by
  rw [Scene.withSlot, Array.getElem?_setIfInBounds]
  split
  · next same =>
    subst same
    have old := tracks.images i
    rw [here] at old
    obtain ⟨inside, -⟩ := Array.getElem?_eq_some_iff.mp old
    rw [if_pos inside, here]
    cases role : o.written <;>
      simp [Offer.put, slotOf, latest_concat, role, image, raster]
  · next other =>
    rw [tracks.images j]
    cases program.images[j]? with
    | none => rfl
    | some b => simp [slotOf, latest_concat, image, other]

/-- An offer that is not at fault is taken. -/
theorem Tracks.bind (accepted : o.fault? program = none)
    : ∃ scene', o.bind scene = .ok scene' ∧ Sized program (done ++ [o]) scene' := by
  obtain ⟨i, b, r, image, here, role, raster⟩ := Offer.exists_of_fault? accepted
  have slot := tracks.slot?_of_image image here
  have images := tracks.images_withSlot image here raster
  have all := forall_mem_append.mpr ⟨tracks.accepted, forall_mem_singleton.mpr accepted⟩
  have member : o ∈ done ++ [o] := mem_append_right done (mem_singleton_self o)
  unfold Offer.bind
  cases written : o.written with
  | true =>
    rw [written] at role
    have role : (slotOf program done i b).role.isDestination = true := role
    simp only [if_true, bindDestination, slot, role, raster, Bool.not_true, Bool.false_eq_true,
      if_false]
    refine ⟨_, rfl, Tracks.measured ⟨all, tracks.runs, ?_, ?_, ?_⟩ member⟩
    · simpa [Offer.put, written, raster] using images
    · simp [tracks.firstSource, first_concat, written, withSlot]
    · simp [tracks.firstDestination, first_concat, written, image, withSlot]
  | false =>
    rw [written] at role
    have role : (slotOf program done i b).role.isSource = true := role
    simp only [bindSource, slot, role, raster, Bool.not_true, Bool.false_eq_true, if_false]
    refine ⟨_, rfl, Tracks.measured ⟨all, tracks.runs, ?_, ?_, ?_⟩ member⟩
    · simpa [Offer.put, written, raster] using images
    · simp [tracks.firstSource, first_concat, written, image, withSlot]
    · simp [tracks.firstDestination, first_concat, written, withSlot]

theorem Tracks.bind_error {fault} (refused : o.fault? program = some fault)
    : o.bind scene = .error fault := by
  unfold Offer.fault? at refused
  split at refused
  · next absent =>
    cases refused
    have unknown : scene.slot? o.name = none := by
      rw [bind_eq_none_iff] at absent
      rw [tracks.slot?, bind_eq_none_iff]
      intro i image
      rw [absent i image]
      rfl
    cases written : o.written <;> simp [Offer.bind, bindSource, bindDestination, written, unknown]
  · next b found =>
    obtain ⟨i, image, here⟩ := bind_eq_some_iff.mp found
    have slot := tracks.slot?_of_image image here
    split at refused
    · next role =>
      cases refused
      cases written : o.written <;>
        simp_all [Offer.bind, bindSource, bindDestination, allows, slotOf]
    · next role =>
      split at refused
      · cases refused
        cases written : o.written <;>
          simp_all [Offer.bind, bindSource, bindDestination, allows, slotOf]
      · cases refused

end

/-- Whatever is offered, a scene keeps track of what it takes, and comes to nothing else than by the offers
that it takes, by induction on the offers.
-/
theorem Sized.offered (sized : Sized program done scene) (offers : List Offer)
    : Sized program (done ++ taken program offers) (scene.offered offers)
      ∧ scene.offered (taken program offers) = scene.offered offers := by
  induction offers generalizing done scene with
  | nil =>
    rw [taken, filter_nil, append_nil]
    exact ⟨sized, rfl⟩
  | cons o offers ih =>
    cases fault : o.fault? program with
    | none =>
      obtain ⟨scene', bound, sized⟩ := sized.bind fault
      obtain ⟨later, same⟩ := ih sized
      rw [append_assoc] at later
      have accepted : taken program (o :: offers) = o :: taken program offers :=
        filter_cons_of_pos (by rw [fault]; rfl)
      rw [accepted]
      simp only [Scene.offered, foldl_cons, bound]
      exact ⟨later, same⟩
    | some fault' =>
      have refused : taken program (o :: offers) = taken program offers :=
        filter_cons_of_neg (by rw [fault]; exact Bool.false_ne_true)
      rw [refused, Scene.offered, foldl_cons, sized.bind_error fault]
      exact ih sized

theorem missing_slotOf (b)
    : missing (slotOf program done i b) = []
      ↔ ∀ written, allows b.role written = true → (latest program written i done).isSome := by
  cases source : b.role.isSource <;> cases destination : b.role.isDestination <;>
    simp [missing, slotOf, allows, source, destination, isSome_iff_ne_none]

theorem Tracks.unbound_eq_nil_iff (tracks : Tracks program done scene)
    : scene.unbound = []
      ↔ ∀ (i : Nat) b, program.images[i]? = some b → ∀ written, allows b.role written = true
        → ∃ o ∈ done, o.written = written ∧ o.image? program = some i := by
  have each (i : Nat) (b : Binding)
      : missing (slotOf program done i b) = []
        ↔ ∀ written, allows b.role written = true
          → ∃ o ∈ done, o.written = written ∧ o.image? program = some i := by
    simp only [missing_slotOf, isSome_latest_iff tracks.accepted]
  rw [unbound, flatMap_eq_nil_iff]
  constructor
  · intro complete i b here
    have slot := tracks.images i
    rw [here] at slot
    exact (each i b).mp (complete _ (Array.mem_toList_iff.mpr (Array.mem_of_getElem? slot)))
  · intro complete slot member
    obtain ⟨i, here⟩ := Array.mem_iff_getElem?.mp (Array.mem_toList_iff.mp member)
    rw [tracks.images i] at here
    obtain ⟨b, given, rfl⟩ := map_eq_some_iff.mp here
    exact (each i b).mpr (complete i b given)

/-- After any offers a new scene has for every name the last raster that it took in each role, and the
size of the raster that leads among those, or none. An offer is turned down for its own fault, whatever
came before, and leaves no trace. Nothing is missing just if every role of every image got a raster.
-/
theorem offered_create (program : Executable) (calls : CallCounts) (offers : List Offer)
    : let scene := (Scene.create program calls).offered offers
      scene.env.width = (leading program (taken program offers)).elim 0 (·.bounds.width)
      ∧ scene.env.height = (leading program (taken program offers)).elim 0 (·.bounds.height)
      ∧ (∀ name,
        scene.source? name
          = (program.imageIndex? name).bind (latest program false · (taken program offers))
        ∧ scene.destination? name
          = (program.imageIndex? name).bind (latest program true · (taken program offers)))
      ∧ (∀ (o : Offer) fault, o.bind scene = .error fault ↔ o.fault? program = some fault)
      ∧ scene = (Scene.create program calls).offered (taken program offers)
      ∧ (scene.unbound = []
        ↔ ∀ (i : Nat) b, program.images[i]? = some b → ∀ written, allows b.role written = true
          → ∃ o ∈ taken program offers, o.written = written ∧ o.image? program = some i) := by
  intro scene
  obtain ⟨sized, same⟩ : Sized program (taken program offers) scene ∧ _ :=
    (sized_create calls).offered offers
  refine ⟨sized.width, sized.height, fun name => ?_, fun o fault => ?_, same.symm,
    sized.unbound_eq_nil_iff⟩
  · rw [source?, destination?, sized.slot?]
    cases image : program.imageIndex? name with
    | none => exact ⟨rfl, rfl⟩
    | some i =>
      obtain ⟨inside, -⟩ := List.findIdx?_eq_some_iff_getElem.mp image
      simp [List.getElem?_eq_getElem inside, slotOf]
  · constructor
    · intro failed
      cases found : o.fault? program with
      | none =>
        obtain ⟨scene', bound, -⟩ := sized.bind found
        cases failed.symm.trans bound
      | some fault' =>
        cases failed.symm.trans (sized.bind_error found)
        rfl
    · exact sized.bind_error

end MapAlgebra.Scene
