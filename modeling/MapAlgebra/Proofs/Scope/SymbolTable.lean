import MapAlgebra.Proofs.Eval.Operations
import MapAlgebra.Proofs.Scope.Chain

/-! The symbols of a script, whether or not it has problems. Variables get their slots in the order of their
declarations and keep them, so no two of them share one, and the names in the tree stand for nothing else
than what the table holds.
-/

namespace MapAlgebra

open List
open Resolve

/-- What was found for a name has that name and is in the table. -/
def Listed (images : List Symbol) (locals : Array Symbol) (name : String) (found : Option Symbol)
    : Prop :=
  ∀ symbol, found = some symbol → symbol.name = name ∧ (symbol ∈ images ∨ symbol ∈ locals)

/-- The symbol of a node has the name that the node has and is in the table. -/
def Expr.Annotated (images : List Symbol) (locals : Array Symbol) : Expr → Prop
  | .read _ name symbol | .assign _ name _ _ symbol | .update _ name _ _ symbol =>
    Listed images locals name symbol
  | .literal .. | .binary .. | .unary .. | .builtin .. | .call .. => True

variable {locals : Array Symbol} {n : Expr} {a b l : Symbol}

theorem Expr.Annotated.mono {images more} (annotated : n.Annotated images locals)
    (kept : ∀ l ∈ locals, l ∈ more)
    : n.Annotated images more := by
  have listed {name : String} {found : Option Symbol} (listed : Listed images locals name found)
      : Listed images more name found :=
    fun symbol same => (listed symbol same).imp_right (Or.imp_right (kept symbol))
  cases n with
  | read | assign | update => exact listed annotated
  | _ => trivial

namespace Resolve

/-- What a walk records: its nodes are annotated from the table, and it adds the variables that its nodes
declare.
-/
structure Records (ctx : Context) (images : List Symbol) (nodes : List Expr) (s t : State) : Prop where
  kept : ∀ l ∈ s.locals, l ∈ t.locals
  annotated : ∀ n ∈ nodes, n.Annotated images t.locals
  added : ∀ l ∈ t.locals, l ∈ s.locals ∨ l.persistent = ctx.inInit ∧ DeclaredIn nodes l

variable {ctx : Context} {images : List Symbol} {nodes more : List Expr} {s t u : State}

namespace Records

theorem refl (s) : Records ctx images [] s s :=
  ⟨fun _ => id, by simp, fun _ => Or.inl⟩

theorem append (first : Records ctx images nodes s t) (second : Records ctx images more t u)
    : Records ctx images (nodes ++ more) s u where
  kept l member := second.kept l (first.kept l member)
  annotated := forall_mem_append.mpr
    ⟨fun n member => (first.annotated n member).mono second.kept, second.annotated⟩
  added l member := by
    rcases second.added l member with before | ⟨persistent, declared⟩
    · rcases first.added l before with before | ⟨persistent, declared⟩
      · exact Or.inl before
      · exact Or.inr ⟨persistent, declared.subset (subset_append_left _ _)⟩
    · exact Or.inr ⟨persistent, declared.subset (subset_append_right _ _)⟩

theorem congr (records : Records ctx images nodes s t) (same : ∀ n, n ∈ more ↔ n ∈ nodes)
    : Records ctx images more s t where
  kept := records.kept
  annotated n member := records.annotated n ((same n).mp member)
  added l member := (records.added l member).imp_right fun known =>
    ⟨known.1, known.2.subset fun n inside => (same n).mpr inside⟩

/-- A node that declares nothing needs no more than its own symbol. -/
theorem of_annotated (locals : t.locals = s.locals) (annotated : n.Annotated images s.locals)
    : Records ctx images [n] s t :=
  ⟨fun _ => locals ▸ id, by simpa [locals] using annotated, fun _ => locals ▸ Or.inl⟩

end Records

variable {name : String} {span : Span}

theorem Sound.listed (sound : Sound images s) {found} (looked : Looked name s found t)
    : Listed images s.locals name found :=
  fun symbol same => sound.lookup (looked.known symbol same)

/-- A plain assignment records its target, which it may declare. -/
theorem records_assigning (sound : Sound images s) (value : Expr)
    : Records ctx images [.assign span name none value ((assigning ctx name span).run s).1] s
        ((assigning ctx name span).run s).2 := by
  obtain looked | ⟨-, found, -, locals⟩ := assigning_cases ctx name span s
  · exact .of_annotated looked.locals (sound.listed looked)
  · rw [found]
    refine ⟨fun l member => ?_, ?_, fun l member => ?_⟩
    · rw [locals]
      exact Array.mem_push.mpr (Or.inl member)
    · rw [forall_mem_singleton, locals]
      rintro symbol ⟨⟩
      exact ⟨rfl, Or.inr (Array.mem_push.mpr (Or.inr rfl))⟩
    · rw [locals] at member
      rcases Array.mem_push.mp member with before | rfl
      · exact Or.inl before
      · exact Or.inr ⟨rfl, _, mem_singleton_self _, rfl, rfl⟩

/-- Annotating a node records it, by cases on the node. -/
theorem records_annotate (sound : Sound images s) (n : Expr)
    : Records ctx images [((annotate ctx n).run s).1] s ((annotate ctx n).run s).2 := by
  cases n with
  | literal | binary | unary => exact .of_annotated rfl trivial
  | read span name symbol =>
    have looked := looked_reading ctx name span s
    exact .of_annotated looked.locals (sound.listed looked)
  | assign span target step value symbol =>
    cases step with
    | none => exact records_assigning sound value
    | some op =>
      have looked := looked_updating ctx target span s
      exact .of_annotated looked.locals (sound.listed looked)
  | update span target decrement before symbol =>
    have looked := looked_updating ctx target span s
    exact .of_annotated looked.locals (sound.listed looked)
  | builtin span name which args =>
    exact .of_annotated (still_checkBuiltin ctx name which _ span _).2 trivial
  | call span name args function => exact .of_annotated (still_calling ctx name _ span _).2 trivial

theorem traverses_records (valid : ∀ i ∈ images, i.role.isImage = true) (ctx)
    : Traverses ctx fun nodes s t =>
        Sound images s → Sound images t ∧ Records ctx images nodes s t where
  nothing s sound := ⟨sound, .refl s⟩
  own n s sound := ⟨((traverses_resolves valid ctx).own n s sound).1, records_annotate sound n⟩
  append first second sound := by
    obtain ⟨sound', records⟩ := first sound
    obtain ⟨sound'', records'⟩ := second sound'
    exact ⟨sound'', records.append records'⟩
  congr same walk sound := (walk sound).imp_right fun records => records.congr same
  enclosed walk sound := by
    obtain ⟨sound', records⟩ := walk (sound.enter _)
    exact ⟨sound'.leave, records.kept, records.annotated, records.added⟩

/-- A visit takes no variable away and moves none. -/
theorem locals_prefix_perform (registry : Registry) (p : Program) (s : State) (v : Visit)
    : s.locals.toList <+: (perform registry p s v).locals.toList := by
  have moves : Moves s (perform registry p s v) v := moves_perform s v
  cases moves with
  | declares fresh scopes locals =>
    rw [locals, Array.toList_push]
    exact prefix_append _ _
  | still scopes locals | enters scopes locals | leaves scopes locals =>
    exact ⟨[], by rw [append_nil, locals]⟩

/-- Variables keep their slots while more are declared, by induction on the visits. -/
theorem locals_prefix_after (registry : Registry) (p : Program) (s : State) (vs : List Visit)
    : s.locals.toList <+: (after registry p s vs).locals.toList := by
  induction vs generalizing s with
  | nil => exact prefix_refl _
  | cons v vs ih => exact (locals_prefix_perform registry p s v).trans (ih (perform registry p s v))

end Resolve

theorem Dense.slot_ne (dense : Dense locals) (ha : a ∈ locals) (hb : b ∈ locals) (different : a ≠ b)
    : a.slot ≠ b.slot := by
  intro same
  obtain ⟨i, here⟩ := Array.mem_iff_getElem?.mp ha
  obtain ⟨j, there⟩ := Array.mem_iff_getElem?.mp hb
  rw [← (dense i a here).1, same, (dense j b there).1] at here
  exact different (Option.some.inj (here.symm.trans there))

/-- A variable of the table is no image. -/
theorem Dense.isImage_eq_false (dense : Dense locals) (member : l ∈ locals)
    : l.role.isImage = false := by
  obtain ⟨i, here⟩ := Array.mem_iff_getElem?.mp member
  rw [(dense i l here).2]
  rfl

namespace Eval

theorem load_store_of_ne (varA : a.role.isImage = false) (varB : b.role.isImage = false)
    (slots : a.slot ≠ b.slot) {v env env'} (stored : (store (some a) v).run env = .ok () env') (w)
    : (load (some b)).run env' = .ok w env' ↔ (load (some b)).run env = .ok w env := by
  have stores : store (some a) v = EvalM.writeVar a.slot v := by
    simp [store, EvalM.orCrash, varA]
  have loads : load (some b) = EvalM.readVar b.slot := by
    simp [load, EvalM.orCrash, varB]
  rw [stores, EvalM.run_writeVar] at stored
  split at stored
  · cases stored
    rw [loads, EvalM.run_readVar, EvalM.run_readVar, Array.getElem?_setIfInBounds_ne slots]
    cases env.vars[b.slot]? with
    | none => simp
    | some x => simp
  · cases stored

end Eval

/-- What the table of a resolved script holds, at the end and at every point on the way there. -/
structure Tabled (bindings : Bindings) (registry : Registry) (p : Program) (r : Resolution)
    : Prop where
  /-- Variables have their places as slots. -/
  localSlot (slot : Nat) (l : Symbol) : r.table.locals[slot]? = some l → l.slot = slot
  /-- Images have the places of their bindings as slots, with their names and roles. -/
  imageSlot (slot : Nat)
    : r.table.images[slot]?.map (fun i => (i.slot, i.name, i.role.isSource, i.role.isDestination))
      = bindings[slot]?.map fun b => (slot, b.name, b.role.isSource, b.role.isDestination)
  /-- The visits are all of the walk. -/
  walk : ((program registry p).run (start bindings)).2
    = after registry p (start bindings) (visits p)
  /-- No name stands twice in the open scopes, which have all images. -/
  distinct (done : List Visit)
    : done <+: visits p
      → (Scope.chainNames (after registry p (start bindings) done).scopes).Nodup
        ∧ r.table.images ⊆ Scope.chain (after registry p (start bindings) done).scopes
  /-- A slot is given out once. -/
  kept (done : List Visit)
    : done <+: visits p
      → (after registry p (start bindings) done).locals.toList
        <+: r.table.locals.toList
  /-- Names stand for symbols of the table that have them. -/
  annotated : ∀ n ∈ stmtsNodes r.program.statements, n.Annotated r.table.images r.table.locals
  /-- Variables persist if the init block declares them; the body declares the others. -/
  persistent : ∀ l ∈ r.table.locals,
    (l.persistent = true ↔ DeclaredIn (stmtsNodes r.program.initBody) l)
    ∧ (l.persistent = false → DeclaredIn (stmtsNodes r.program.body) l)
  /-- A store through one variable does not change what another one reads. -/
  independent : ∀ a ∈ r.table.locals, ∀ b ∈ r.table.locals, a ≠ b → ∀ v env env',
    (Eval.store (some a) v).run env = .ok () env'
    → ∀ w, (Eval.load (some b)).run env' = .ok w env' ↔ (Eval.load (some b)).run env = .ok w env

namespace Resolve

variable {bindings : Bindings} (valid : bindings.error? = none) (registry : Registry) (p : Program)
include valid

theorem sound_resolve
    : Sound (Scope.imageSymbols bindings) ((program registry p).run (start bindings)).2 := by
  obtain ⟨depth, standing⟩ := standing_resolve valid registry p (prefix_refl (visits p))
  rw [run_program]
  exact standing.sound

/-- Resolving records the nodes of the script, those of the init block before those of the body. -/
theorem records_resolve
    : ∃ t : State,
        Records (contextOf registry p true) (Scope.imageSymbols bindings)
          (stmtsNodes (resolve bindings registry p).program.initBody) (start bindings) t
        ∧ Records (contextOf registry p false) (Scope.imageSymbols bindings)
          (stmtsNodes (resolve bindings registry p).program.body) t
          ((program registry p).run (start bindings)).2 := by
  have isImage := Scope.isImage_imageSymbols valid
  obtain ⟨t, init, body⟩ := (traverses_records isImage _).program
    (traverses_records isImage (contextOf registry p false)) (start bindings)
  obtain ⟨sound, records⟩ := init (standing_start valid).sound
  exact ⟨t, records, (body sound).2⟩

/-- Variables persist if the init block declares them; the body declares the others. -/
theorem persistent_resolve (member : l ∈ (resolve bindings registry p).table.locals)
    : (l.persistent = true
        ↔ DeclaredIn (stmtsNodes (resolve bindings registry p).program.initBody) l)
      ∧ (l.persistent = false
        → DeclaredIn (stmtsNodes (resolve bindings registry p).program.body) l) := by
  obtain ⟨t, init, body⟩ := records_resolve valid registry p
  -- All variables known behind the init block are its own.
  have early (known : l ∈ t.locals)
      : l.persistent = true
        ∧ DeclaredIn (stmtsNodes (resolve bindings registry p).program.initBody) l := by
    rcases init.added l known with before | declared
    · exact absurd before (Array.not_mem_empty l)
    · exact declared
  refine ⟨⟨fun persistent => ?_, ?_⟩, fun fleeting => ?_⟩
  · rcases body.added l member with known | ⟨fleeting, -⟩
    · exact (early known).2
    · cases persistent.symm.trans fleeting
  · rintro ⟨n, there, declares⟩
    have annotated := init.annotated n there
    unfold Expr.Declares at declares
    split at declares
    · obtain ⟨-, image | known⟩ := annotated l declares.1
      · have isImage := Scope.isImage_imageSymbols valid l image
        cases ((sound_resolve valid registry p).dense.isImage_eq_false member).symm.trans isImage
      · exact (early known).1
    · exact declares.elim
  · rcases body.added l member with known | ⟨-, declared⟩
    · cases (early known).1.symm.trans fleeting
    · exact declared

end Resolve

/-- Resolving makes a table with all of this from bindings that pass the check, whatever the problems. -/
theorem resolve_tabled {bindings : Bindings} (valid : bindings.error? = none) (registry : Registry)
    (p : Program)
    : Tabled bindings registry p (resolve bindings registry p) where
  localSlot slot l here := ((sound_resolve valid registry p).dense slot l here).1
  imageSlot slot := by
    change (Scope.imageSymbols bindings)[slot]?.map _ = _
    rw [Scope.imageSymbols, List.getElem?_mapIdx, Option.map_map]
    simp only [Function.comp_def, SymbolRole.isSource_ofImage, SymbolRole.isDestination_ofImage]
  walk := run_program registry p (start bindings)
  distinct done begun := by
    obtain ⟨depth, standing⟩ := standing_resolve valid registry p begun
    exact ⟨standing.distinct, fun i image => standing.mem_chain image⟩
  kept done begun := by
    obtain ⟨rest, whole⟩ := begun
    have grows := locals_prefix_after registry p
      (after registry p (start bindings) done) rest
    rw [← after_append, whole, ← run_program] at grows
    exact grows
  annotated := by
    obtain ⟨t, init, body⟩ := records_resolve valid registry p
    rw [Program.statements, stmtsNodes_append, forall_mem_append]
    exact ⟨fun n member => (init.annotated n member).mono body.kept, body.annotated⟩
  persistent l member := persistent_resolve valid registry p member
  independent a ha b hb different v env env' stored := by
    have dense := (sound_resolve valid registry p).dense
    exact Eval.load_store_of_ne (dense.isImage_eq_false ha) (dense.isImage_eq_false hb)
      (dense.slot_ne ha hb different) stored

/-- One image to read and one to write. -/
def sheets : Bindings := [{ name := "a", role := .source }, { name := "out", role := .destination }]

/-- The init block declares `k`, and each branch a `t` of its own, which is unknown behind them. -/
def siblings : Program where
  span := .none
  init := some
    { span := .none
      body := [.expr (.assign .none "k" none (.literal .none .one) none)] }
  body :=
    [.ifElse .none (.read .none "a" none)
      (.expr (.assign .none "t" none (.read .none "k" none) none))
      (.expr (.assign .none "t" none (.literal .none .zero) none)),
     .expr (.assign .none "out" none (.read .none "t" none) none)]

theorem resolve_tabled_siblings
    : sheets.error? = none
      ∧ Tabled sheets ⟨[]⟩ siblings (resolve sheets ⟨[]⟩ siblings)
      ∧ (resolve sheets ⟨[]⟩ siblings).table.locals.toList.map
          (fun l => (l.name, l.slot, l.persistent))
        = [("k", 0, true), ("t", 1, false), ("t", 2, false)]
      ∧ (resolve sheets ⟨[]⟩ siblings).problems.map (·.cause) = [.usedBeforeAssigned "t"] :=
  ⟨by decide, resolve_tabled (by decide) ⟨[]⟩ siblings, by decide, by decide⟩

end MapAlgebra
