import Mathlib.Data.List.Forall2
import MapAlgebra.Project
import MapAlgebra.Proofs.Files.Places

/-! Where the images of a manifest are read and written, and when writing one takes the place of what it
was read from.
-/

namespace MapAlgebra.Manifest

open Path
open ImageRole

/-- An image has its files where its entry says. What is read has to be there, and what is read and written
has to have an output, which may lead anywhere.
-/
inductive Places (manifest : Manifest) (tree : FileTree) (e : ImageEntry) : ResolvedImage → Prop where
  | source {node} (named : ofName? e.role = some .source)
    (found : tree.find (manifest.located e.path) = .ok node)
    : Places manifest tree e
        { name := e.name, role := .source, input := manifest.located e.path, output := "", entry := e }
  | destination (named : ofName? e.role = some .destination)
    : Places manifest tree e
        { name := e.name, role := .destination, input := "", output := manifest.located e.path, entry := e }
  | both {node} (named : ofName? e.role = some .both)
    (found : tree.find (manifest.located e.path) = .ok node) (set : e.output ≠ "")
    : Places manifest tree e
        { name := e.name, role := .both, input := manifest.located e.path
          output := manifest.located e.output, entry := e }

variable {manifest : Manifest} {tree tree' : FileTree}

theorem role_cases {word role} (named : ofName? word = some role)
    : role = .source ∨ role = .destination ∨ role = .both := by
  unfold ofName? at named
  dsimp only at named
  split at named
  · exact Or.inl (Option.some.inj named).symm
  · split at named
    · exact Or.inr (Or.inl (Option.some.inj named).symm)
    · split at named
      · exact Or.inr (Or.inr (Option.some.inj named).symm)
      · cases named

/-- Placing an image only looks at its source. -/
theorem place_of_role {e role} (named : ofName? e.role = some role)
    : (manifest.place e : StateM FileTree _) tree
      = (manifest.placed e role
          (if role.isSource then
            (tree.find (manifest.located e.path)).map (fun _ => ()) |>.mapError fun fault =>
              { action := .inspecting, path := manifest.located e.path, fault }
          else .ok ()),
        tree) := by
  unfold place
  rw [named]
  cases source : role.isSource <;> simp only [source] <;> rfl

theorem place_eq_ok {e image}
    : (manifest.place e : StateM FileTree _) tree = (.ok image, tree')
      ↔ tree' = tree ∧ manifest.Places tree e image := by
  constructor
  · intro placed
    cases named : ofName? e.role with
    | none =>
      unfold place at placed
      rw [named] at placed
      cases placed
    | some role =>
      rw [place_of_role named] at placed
      rcases role_cases named with rfl | rfl | rfl
      · cases found : tree.find (manifest.located e.path) with
        | error fault =>
          rw [found] at placed
          cases placed
        | ok node =>
          rw [found] at placed
          cases placed
          exact ⟨rfl, .source named found⟩
      · cases placed
        exact ⟨rfl, .destination named⟩
      · cases found : tree.find (manifest.located e.path) with
        | error fault =>
          rw [found] at placed
          cases placed
        | ok node =>
          rw [found] at placed
          have placed : ((if e.output = "" then .error (.noOutput e.name)
              else .ok { name := e.name, role := .both, input := manifest.located e.path
                         output := manifest.located e.output, entry := e }
              : Except ResolveError ResolvedImage), tree) = (.ok image, tree') := placed
          split at placed
          · cases placed
          · next set =>
            cases placed
            exact ⟨rfl, .both named found set⟩
  · rintro ⟨rfl, places⟩
    cases places with
    | source named found =>
      rw [place_of_role named, found]
      rfl
    | destination named =>
      rw [place_of_role named]
      rfl
    | both named found set =>
      rw [place_of_role named, found]
      exact congrArg (·, tree') (if_neg set)

/-- The images of entries are placed one by one, in the same files. -/
theorem placeAll_cons (manifest : Manifest) (tree : FileTree) (e : ImageEntry) (rest : List ImageEntry)
    : (manifest.placeAll (e :: rest) : StateM FileTree _) tree
      = match (manifest.place e : StateM FileTree _) tree with
        | (.error error, tree) => (.error error, tree)
        | (.ok image, tree) =>
          let (images, tree) := (manifest.placeAll rest : StateM FileTree _) tree
          (images.map (image :: ·), tree) := by
  rw [placeAll]
  simp only [bind, StateT.bind]
  rcases (manifest.place e : StateM FileTree _) tree with ⟨error | image, tree⟩ <;> rfl

theorem placeAll_eq_ok {entries images}
    : (manifest.placeAll entries : StateM FileTree _) tree = (.ok images, tree')
      ↔ tree' = tree ∧ List.Forall₂ (manifest.Places tree) entries images := by
  induction entries generalizing tree images with
  | nil =>
    rw [List.forall₂_nil_left_iff]
    constructor
    · intro placed
      cases placed
      exact ⟨rfl, rfl⟩
    · rintro ⟨rfl, rfl⟩
      rfl
  | cons e rest ih =>
    rw [List.forall₂_cons_left_iff, placeAll_cons]
    constructor
    · intro placed
      split at placed
      · cases placed
      · next image tree1 first =>
        obtain ⟨rfl, here⟩ := place_eq_ok.mp first
        rcases others : (manifest.placeAll rest : StateM FileTree _) tree1 with ⟨error | images, tree2⟩
        · rw [others] at placed
          cases placed
        · rw [others] at placed
          cases placed
          obtain ⟨rfl, there⟩ := ih.mp others
          exact ⟨rfl, image, images, here, there, rfl⟩
    · rintro ⟨rfl, image, images, here, there, rfl⟩
      rw [place_eq_ok.mpr ⟨rfl, here⟩]
      dsimp only
      rw [ih.mpr ⟨rfl, there⟩]
      rfl

theorem places_of_mem {entries images} (placed : List.Forall₂ (manifest.Places tree) entries images)
    : ∀ image ∈ images, ∃ e, manifest.Places tree e image := by
  induction placed with
  | nil => exact fun _ => nofun
  | cons here _ ih => exact List.forall_mem_cons.mpr ⟨⟨_, here⟩, ih⟩

theorem isAbsolute_located (rooted : isAbsolute manifest.folder = true) (path)
    : isAbsolute (manifest.located path) = true := by
  unfold located
  split
  · assumption
  · have some : manifest.folder ≠ "" := by
      intro none
      rw [none] at rooted
      cases rooted
    rw [join, if_neg some]
    split
    · exact isAbsolute_clean rooted
    · refine isAbsolute_clean ?_
      rw [isAbsolute, beq_iff_eq] at rooted ⊢
      simp [rooted]

/-- What a file of some name holds of a raster. -/
def held? (path : String) (r : Raster) : Option Bytes :=
  match ImageFormat.ofPath? path with
  | none => none
  | some .raster => some (Container.encode r)
  | some format => some ((format.kept r.picture).store format)

theorem write_of_writeImageFile {path raster}
    (ran : (writeImageFile path raster : StateM FileTree _) tree = (.ok (), tree'))
    : ∃ contents, held? path raster = some contents ∧ tree.write path contents = .ok tree' := by
  have settled {contents : Bytes}
      (ran : (do return (← writeFile path contents).mapError ImageFileError.file : StateM FileTree _) tree
        = (.ok (), tree'))
      : tree.write path contents = .ok tree' := by
    simp only [bind, StateT.bind, writeFile, FileTree.settle] at ran
    cases written : tree.write path contents with
    | error e =>
      rw [written] at ran
      cases ran
    | ok tree1 =>
      rw [written] at ran
      exact congrArg (Except.ok ·.2) ran
  unfold writeImageFile at ran
  rw [held?]
  cases given : ImageFormat.ofPath? path with
  | none =>
    rw [given] at ran
    cases ran
  | some format =>
    rw [given] at ran
    cases format with
    | raster => exact ⟨_, rfl, settled ran⟩
    | _ =>
      refine ⟨_, rfl, settled ?_⟩
      dsimp only at ran
      split at ran
      · simp only [bind, StateT.bind, writeFile, FileTree.settle] at ran
        cases written : tree.write path [] <;> rw [written] at ran <;> cases ran
      · exact ran

/-- A path reads as before if no output leads to it, and else as what one that does holds of its raster. -/
def ReadsBehind (rasters : NamedRasters) (outputs : List (String × String)) (path : String)
    (tree tree' : FileTree) : Prop :=
  (∀ w ∈ outputs, clean w.2 ≠ clean path) ∧ tree'.read path = tree.read path
  ∨ ∃ w ∈ outputs, clean w.2 = clean path ∧ ∃ raster contents,
      (rasters.lookup w.1).join = some raster ∧ held? w.2 raster = some contents
      ∧ tree'.read path = .ok contents

/-- What a run leaves at a path that was found before, by induction on the images that it writes. -/
theorem readsBehind_writeOutputs {rasters images outputs path node}
    (rooted : isAbsolute path = true)
    (absolute : ∀ image ∈ images, image.output = "" ∨ isAbsolute image.output = true)
    (ran : (Project.writeOutputs rasters images : StateM FileTree _) tree = ((outputs, none), tree'))
    (found : tree.find path = .ok node)
    : ReadsBehind rasters outputs path tree tree' := by
  induction images generalizing tree outputs node with
  | nil =>
    cases ran
    exact Or.inl ⟨fun _ => nofun, rfl⟩
  | cons image rest ih =>
    obtain ⟨first, others⟩ := List.forall_mem_cons.mp absolute
    unfold Project.writeOutputs at ran
    cases given : if image.output = "" then none else (rasters.lookup image.name).join with
    | none =>
      rw [given] at ran
      exact ih others ran found
    | some raster =>
      rw [given] at ran
      obtain ⟨set, given⟩ := Option.ite_none_left_eq_some.mp given
      simp only [bind, StateT.bind] at ran
      rcases wrote : (writeImageFile image.output raster : StateM FileTree _) tree
        with ⟨error | _, tree1⟩
      · rw [wrote] at ran
        cases ran
      · rw [wrote] at ran
        rcases later : (Project.writeOutputs rasters rest : StateM FileTree _) tree1
          with ⟨⟨written, error⟩, tree2⟩
        simp only [StateT.bind, later] at ran
        cases ran
        obtain ⟨contents, holds, stored⟩ := write_of_writeImageFile wrote
        have root := first.resolve_left set
        have there := FileTree.find_write root rooted stored found
        have reads := FileTree.read_write root rooted stored found
        rcases ih others later there with ⟨apart, same⟩ | ⟨w, member, leads, holds⟩
        · by_cases leads : clean image.output = clean path
          · rw [if_pos leads] at reads
            exact Or.inr ⟨_, List.mem_cons_self, leads, raster, contents, given, holds,
              same.trans reads⟩
          · rw [if_neg leads] at reads
            exact Or.inl ⟨List.forall_mem_cons.mpr ⟨leads, apart⟩, same.trans reads⟩
        · exact Or.inr ⟨w, List.mem_cons_of_mem _ member, leads, holds⟩

/-- The images of a manifest are placed if and only if their roles are known, what is read is there and what
is read and written has an output. Nothing asks where the output leads: writing to it replaces what the
image was read from if and only if the two paths are the same once they are clean, and leaves it as it is
otherwise. So a run that writes all its outputs leaves an image that it has read as it was unless one of
these outputs, which may be the image's own, leads there.
-/
theorem resolve_overwrites (rooted : isAbsolute manifest.folder = true) (tree : FileTree)
    : (∀ images tree', (manifest.resolve : StateM FileTree _) tree = (.ok images, tree')
        ↔ tree' = tree ∧ List.Forall₂ (manifest.Places tree) manifest.images images)
      ∧ (∀ e image, manifest.Places tree e image → image.role = .both
        → ∀ contents tree', tree.write image.output contents = .ok tree'
        → tree'.read image.input
          = if clean image.output = clean image.input then .ok contents
            else tree.read image.input)
      ∧ ∀ images, List.Forall₂ (manifest.Places tree) manifest.images images
        → ∀ rasters outputs tree',
          (Project.writeOutputs rasters images : StateM FileTree _) tree = ((outputs, none), tree')
          → ∀ image ∈ images, image.role = .both → ReadsBehind rasters outputs image.input tree tree' := by
  refine ⟨fun _ _ => placeAll_eq_ok, fun e image places both contents tree' written => ?_,
    fun images placed rasters outputs tree' ran image member both => ?_⟩
  · cases places with
    | source | destination => cases both
    | both _ found _ =>
      exact FileTree.read_write (isAbsolute_located rooted _) (isAbsolute_located rooted _) written found
  · have absolute (image) (member : image ∈ images)
        : image.output = "" ∨ isAbsolute image.output = true := by
      obtain ⟨e, places⟩ := places_of_mem placed image member
      cases places with
      | source => exact Or.inl rfl
      | destination | both => exact Or.inr (isAbsolute_located rooted _)
    obtain ⟨e, places⟩ := places_of_mem placed image member
    cases places with
    | source | destination => cases both
    | both _ found _ =>
      exact readsBehind_writeOutputs (isAbsolute_located rooted _) absolute ran found

/-- An image that is read and written, with an output. -/
def retouched (output : String) : ImageEntry :=
  { name := "photo", role := "both", path := "photo.cbor", output }

def retouching (output : String) : Manifest :=
  { folder := "/project", images := [retouched output] }

/-- The files of a project with one image. -/
def photo : FileTree :=
  { nodes := [(["project"], .folder), (["project", "photo.cbor"], .file [1])], working := [] }

theorem retouching_places {output} (set : output ≠ "")
    : (retouching output).Places photo (retouched output)
        { name := "photo", role := .both, input := (retouching output).located "photo.cbor"
          output := (retouching output).located output, entry := retouched output } := by
  have named : ofName? (retouched output).role = some .both :=
    show ofName? "both" = some .both by decide +kernel
  have below : (retouching output).located "photo.cbor" = join "/project" "photo.cbor" :=
    if_neg (by decide +kernel)
  have found : photo.find ((retouching output).located "photo.cbor") = .ok (.file [1]) := by
    rw [below]
    decide +kernel
  exact .both named found set

theorem resolve_overwrites_apart
    : ∃ image tree', (resolve (retouching "new/../new.cbor") : StateM FileTree _) photo = (.ok [image], photo)
      ∧ image.role = .both
      ∧ photo.write image.output [2] = .ok tree'
      ∧ tree'.read image.input = .ok [1] := by
  have rooted : isAbsolute (retouching "new/../new.cbor").folder = true := by decide +kernel
  have set : "new/../new.cbor" ≠ "" := by decide +kernel
  have places := retouching_places set
  have written : photo.write ((retouching "new/../new.cbor").located "new/../new.cbor") [2]
      = .ok (photo.put ["project", "new.cbor"] (.file [2])) := by decide +kernel
  obtain ⟨exact, keeps, -⟩ := resolve_overwrites rooted photo
  refine ⟨_, _, (exact _ _).mpr ⟨rfl, .cons places .nil⟩, rfl, written, ?_⟩
  rw [keeps _ _ places rfl _ _ written, if_neg (by decide +kernel)]
  decide +kernel

/-- An output may lead to the file that the image is read from. -/
theorem retouching_replaces
    : ∃ image tree', (resolve (retouching "./photo.cbor") : StateM FileTree _) photo = (.ok [image], photo)
      ∧ image.role = .both
      ∧ clean image.output = clean image.input
      ∧ photo.read image.input = .ok [1]
      ∧ photo.write image.output [2] = .ok tree'
      ∧ tree'.read image.input = .ok [2] :=
  ⟨_, photo.put ["project", "photo.cbor"] (.file [2]),
    placeAll_eq_ok.mpr ⟨rfl, .cons (retouching_places (by decide +kernel)) .nil⟩, rfl, by decide +kernel,
    by decide +kernel, by decide +kernel, by decide +kernel⟩

end MapAlgebra.Manifest
