import MapAlgebra.Proofs.Scope.Traversal

/-! What resolving guarantees about a script without errors: every name has a symbol of the table
that may be used in its place, and every call has a function that takes its arguments.
-/

namespace MapAlgebra

open List

/-- What the names of a part of a script may stand for. -/
structure Names where
  images : List Symbol
  locals : Array Symbol
  registry : Registry
  /-- The part is the init block, which has no images. -/
  inInit : Bool

/-- A symbol that may be read: a variable, or an image outside of the init block. -/
def Names.Reads (names : Names) (symbol : Symbol) : Prop :=
  symbol ∈ names.locals ∨ names.inInit = false ∧ symbol ∈ names.images

/-- A symbol that may be written: a variable, or a destination outside of the init block. -/
def Names.Writes (names : Names) (symbol : Symbol) : Prop :=
  symbol ∈ names.locals
  ∨ names.inInit = false ∧ symbol ∈ names.images ∧ symbol.role.isDestination

variable {symbol : Symbol}

theorem Names.Writes.reads {names : Names} (writes : names.Writes symbol) : names.Reads symbol := by
  rcases writes with isLocal | ⟨outside, image, -⟩
  · exact Or.inl isLocal
  · exact Or.inr ⟨outside, image⟩

/-- A node carries what it needs to run: a name its symbol, a call its function. A built-in has no
arguments, and one about the current pixel does not stand in the init block.
-/
def Expr.Resolved (names : Names) : Expr → Prop
  | .literal .. | .binary .. | .unary .. => True
  | .read _ name symbol => ∃ s, symbol = some s ∧ s.name = name ∧ names.Reads s
  | .assign _ target _ _ symbol | .update _ target _ _ symbol =>
    ∃ s, symbol = some s ∧ s.name = target ∧ names.Writes s
  | .builtin _ _ which args => args = [] ∧ (which.isPositional → names.inInit = false)
  | .call _ name args function =>
    ∃ f, function = some f ∧ names.registry.lookup name = some f ∧ f.arity = args.length

/-- Variables have their places as slots, and no other role. -/
def Dense (locals : Array Symbol) : Prop :=
  ∀ (slot : Nat) (symbol : Symbol), locals[slot]? = some symbol
    → symbol.slot = slot ∧ symbol.role = .ofVariable

theorem Dense.push {locals} (dense : Dense locals) (slot : symbol.slot = locals.size)
    (role : symbol.role = .ofVariable)
    : Dense (locals.push symbol) := by
  intro i found here
  rw [Array.getElem?_push] at here
  split at here
  · cases here
    exact ⟨by omega, role⟩
  · exact dense i found here

namespace Resolve

/-- The open scopes hold nothing but images and variables of the table. -/
structure Sound (images : List Symbol) (s : State) : Prop where
  known : ∀ scope ∈ s.scopes, ∀ symbol ∈ scope.symbols, symbol ∈ images ∨ symbol ∈ s.locals
  dense : Dense s.locals

namespace Sound

variable {images : List Symbol} {s t : State}

section

variable (sound : Sound images s)
include sound

theorem congr (scopes : t.scopes = s.scopes) (locals : t.locals = s.locals) : Sound images t :=
  ⟨by rw [scopes, locals]; exact sound.known, by rw [locals]; exact sound.dense⟩

/-- What a name stands for has that name, and is an image or a variable of the table. -/
theorem lookup {name} (found : Scope.lookupChain s.scopes name = some symbol)
    : symbol.name = name ∧ (symbol ∈ images ∨ symbol ∈ s.locals) := by
  obtain ⟨scope, isOpen, here⟩ := exists_of_findSome?_eq_some found
  exact ⟨beq_iff_eq.mp (List.find?_some here :),
    sound.known scope isOpen symbol (mem_of_find?_eq_some here)⟩

theorem enter (name) : Sound images { s with scopes := { name, symbols := [] } :: s.scopes } :=
  ⟨forall_mem_cons.mpr ⟨by simp, sound.known⟩, sound.dense⟩

/-- Leaving a scope only forgets symbols. -/
theorem leave : Sound images { s with scopes := s.scopes.tail } :=
  ⟨fun scope isOpen => sound.known scope (mem_of_mem_tail isOpen), sound.dense⟩

end

end Sound

/-- Variables and problems are only ever added. -/
structure Grows (s t : State) : Prop where
  locals : s.locals.toList <+: t.locals.toList
  problems : s.problems.toList <+: t.problems.toList

variable {name : String} {s t : State} {cause : Cause} {span : Span}

theorem Grows.refl (s) : Grows s s :=
  ⟨prefix_refl _, prefix_refl _⟩

theorem Grows.trans {u} (first : Grows s t) (second : Grows t u) : Grows s u :=
  ⟨first.locals.trans second.locals, first.problems.trans second.problems⟩

/-- No problem so far is an error. -/
def Clean (s : State) : Prop :=
  ∀ problem ∈ s.problems, problem.isError = false

theorem Clean.of_grows (clean : Clean t) (grows : Grows s t) : Clean s :=
  fun problem member =>
    clean problem (Array.mem_toList_iff.mp
      (grows.problems.subset (Array.mem_toList_iff.mpr member)))

variable {α β : Type} {images : List Symbol}

/-- A walk keeps the scopes sound, only adds to what was found, and makes sure of a fact unless it
comes upon an error.
-/
def Walks (images : List Symbol) (m : ResolveM α) (fact : State → α → Prop) : Prop :=
  ∀ s, Sound images s →
    Sound images (m.run s).2 ∧ Grows s (m.run s).2
    ∧ (Clean (m.run s).2 → fact (m.run s).2 (m.run s).1)

/-- A fact that stays true while more is found. -/
def Lasts (fact : State → Prop) : Prop :=
  ∀ s t, Grows s t → fact s → fact t

variable {fact : State → α → Prop}

variable {a : α} {m : ResolveM α}

theorem Walks.pure (holds : ∀ s, fact s a) : Walks images (Pure.pure a) fact :=
  fun s sound => ⟨sound, .refl s, fun _ => holds s⟩

/-- One walk after another is a walk; the second may use what the first has made sure of. -/
theorem Walks.bind {next} {later : State → β → Prop} (first : Walks images m fact)
    (lasts : ∀ a, Lasts (fact · a))
    (rest : ∀ a, Walks images (next a) fun s b => fact s a → later s b)
    : Walks images (m >>= next) later := by
  intro s sound
  obtain ⟨sound1, grows1, holds1⟩ := first s sound
  obtain ⟨sound2, grows2, holds2⟩ := rest (m.run s).1 _ sound1
  refine ⟨sound2, grows1.trans grows2, fun clean => holds2 clean ?_⟩
  exact lasts _ _ _ grows2 (holds1 (clean.of_grows grows2))

theorem Walks.imp {weaker} (walks : Walks images m fact) (implies : ∀ s a, fact s a → weaker s a)
    : Walks images m weaker := by
  intro s sound
  obtain ⟨sound', grows, holds⟩ := walks s sound
  exact ⟨sound', grows, fun clean => implies _ _ (holds clean)⟩

theorem Walks.get {next} (rest : ∀ found, Walks images (next found) fact)
    : Walks images (get >>= next) fact :=
  fun s sound => rest s s sound

/-- A walk that leaves the scopes and variables alone and drops no problem. -/
theorem Walks.modify {change fact} (scopes : ∀ s, (change s).scopes = s.scopes)
    (locals : ∀ s, (change s).locals = s.locals)
    (problems : ∀ s, s.problems.toList <+: (change s).problems.toList)
    (holds : ∀ s, fact (change s) ⟨⟩)
    : Walks images (modify change) fact := by
  intro s sound
  refine ⟨sound.congr (scopes s) (locals s), ⟨?_, problems s⟩, fun _ => holds s⟩
  exact (locals s).symm ▸ prefix_refl _

theorem walks_report {fact} (cause span) (holds : fact)
    : Walks images (report cause span) fun _ _ => fact :=
  .modify (fun _ => rfl) (fun _ => rfl) (fun s => by simp) fun _ => holds

/-- Whatever is claimed of a walk without errors holds behind the report of one. -/
theorem walks_report_error (span : Span) (error : cause.code.severity = .error)
    : Walks images (report cause span) fun _ _ => False := by
  intro s sound
  obtain ⟨sound', grows, -⟩ := walks_report cause span trivial s sound
  refine ⟨sound', grows, fun clean => ?_⟩
  have reported := clean { cause, span } (Array.mem_push.mpr (Or.inr rfl))
  simp [Problem.isError, Problem.severity, Problem.code, error] at reported

theorem Walks.error (error : cause.code.severity = .error)
    : Walks images (do report cause span; Pure.pure a) fact :=
  (walks_report_error span error).bind (fun _ _ _ _ absurd => absurd)
    fun _ => .pure fun _ absurd => absurd.elim

theorem mem_locals_of_grows (grows : Grows s t) (member : symbol ∈ s.locals) : symbol ∈ t.locals :=
  Array.mem_toList_iff.mp (grows.locals.subset (Array.mem_toList_iff.mpr member))

theorem run_lookup_bind (name) (next : Option Symbol → ResolveM α) (s)
    : (lookup name >>= next).run s = (next (Scope.lookupChain s.scopes name)).run s :=
  rfl

theorem Walks.lookup {next} (unknown : Walks images (next none) fact)
    (known : ∀ symbol, symbol.name = name
      → Walks images (next (some symbol)) fun s a => symbol ∈ images ∨ symbol ∈ s.locals → fact s a)
    : Walks images (lookup name >>= next) fact := by
  intro s sound
  rw [run_lookup_bind]
  cases found : Scope.lookupChain s.scopes name with
  | none => exact unknown s sound
  | some symbol =>
    obtain ⟨named, member⟩ := sound.lookup found
    obtain ⟨sound', grows, holds⟩ := known symbol named s sound
    exact ⟨sound', grows, fun clean => holds clean (member.imp_right (mem_locals_of_grows grows))⟩

theorem Walks.unresolved {ctx}
    : Walks images (do reportUnresolved ctx name span; Pure.pure a) fact := by
  unfold reportUnresolved
  split
  · exact .error rfl
  · exact .error rfl

/-- A declared variable is in the table, in the place of its slot. -/
theorem walks_declare (ctx : Context) (name : String) (span : Span)
    : Walks images (declare ctx name span) fun s symbol =>
        symbol.name = name ∧ symbol ∈ s.locals := by
  intro s sound
  have kept {symbol symbol' : Symbol} (member : symbol ∈ images ∨ symbol ∈ s.locals)
      : symbol ∈ images ∨ symbol ∈ s.locals.push symbol' :=
    member.imp_right fun isLocal => Array.mem_push.mpr (Or.inl isLocal)
  refine ⟨⟨?_, ?_⟩, ⟨?_, prefix_refl _⟩, fun _ => ⟨rfl, ?_⟩⟩
  · intro scope open' symbol member
    rcases mem_cons.mp open' with rfl | outer
    · rcases mem_cons.mp member with rfl | older
      · exact Or.inr (Array.mem_push.mpr (Or.inr rfl))
      · cases scopes : s.scopes with
        | nil =>
          rw [scopes] at older
          exact (not_mem_nil older).elim
        | cons head tail =>
          exact kept (sound.known head (by simp [scopes]) symbol (by simpa [scopes] using older))
    · exact kept (sound.known scope (mem_of_mem_tail outer) symbol member)
  · exact sound.dense.push rfl rfl
  · show s.locals.toList <+: (s.locals.push _).toList
    simp
  · exact Array.mem_push.mpr (Or.inr rfl)

/-- What names may stand for at a point of the walk. -/
def Context.names (ctx : Context) (images : List Symbol) (s : State) : Names :=
  { images, locals := s.locals, registry := ctx.registry, inInit := ctx.inInit }

/-- Reading an image outside of the init block is the only way to read one without an error. -/
theorem walks_readImage (ctx : Context) (symbol : Symbol) (span : Span)
    : Walks images (readImage ctx symbol span) fun _ _ => ctx.inInit = false := by
  unfold readImage
  split
  · exact (walks_report_error span rfl).imp fun _ _ absurd => absurd.elim
  · rename_i outside
    have outside : ctx.inInit = false := by simpa using outside
    split
    · exact .modify (fun _ => rfl) (fun _ => rfl) (fun _ => prefix_refl _) fun _ => outside
    · refine .get fun found => ?_
      split
      · exact walks_report _ span outside
      · exact .pure fun _ => outside

variable {ctx : Context}

theorem writes_of_grows (grows : Grows s t) (writes : (ctx.names images s).Writes symbol)
    : (ctx.names images t).Writes symbol :=
  writes.imp_left (mem_locals_of_grows grows)

theorem lasts_resolved (n : Expr) : Lasts fun s => n.Resolved (ctx.names images s) := by
  intro s t grows resolved
  cases n with
  | read span name symbol =>
    obtain ⟨symbol, found, named, reads⟩ := resolved
    exact ⟨symbol, found, named, reads.imp_left (mem_locals_of_grows grows)⟩
  | assign span target step value symbol =>
    obtain ⟨symbol, found, named, writes⟩ := resolved
    exact ⟨symbol, found, named, writes_of_grows grows writes⟩
  | update span target decrement before symbol =>
    obtain ⟨symbol, found, named, writes⟩ := resolved
    exact ⟨symbol, found, named, writes_of_grows grows writes⟩
  | _ => exact resolved

theorem lasts_allResolved (nodes : List Expr)
    : Lasts fun s => ∀ n ∈ nodes, n.Resolved (ctx.names images s) :=
  fun s t grows resolved n member => lasts_resolved n s t grows (resolved n member)

section Names

variable (valid : ∀ i ∈ images, i.role.isImage = true)
include valid

/-- A symbol of the table that is no image is a variable. -/
theorem mem_locals_of_not_image (known : symbol ∈ images ∨ symbol ∈ s.locals)
    (notImage : symbol.role.isImage = false)
    : symbol ∈ s.locals := by
  rcases known with image | isLocal
  · exact nomatch notImage.symm.trans (valid symbol image)
  · exact isLocal

theorem walks_reading (ctx name span)
    : Walks images (reading ctx name span) fun s found =>
        (Expr.read span name found).Resolved (ctx.names images s) := by
  unfold reading
  split
  · exact .error rfl
  refine .lookup .unresolved fun symbol named => ?_
  dsimp only
  split
  · refine (walks_readImage ctx symbol span).bind (fun _ _ _ _ outside => outside) fun _ => ?_
    refine .pure fun s outside known => ⟨symbol, rfl, named, ?_⟩
    exact known.symm.imp_right fun image => ⟨outside, image⟩
  · rename_i notImage
    refine .pure fun s known => ⟨symbol, rfl, named, Or.inl ?_⟩
    exact mem_locals_of_not_image valid known (by simpa using notImage)

/-- A symbol that is written is a variable, or a destination outside of the init block. -/
theorem walks_written (named : symbol.name = name) {cause'} (span : Span)
    (error : cause.code.severity = .error) (error' : cause'.code.severity = .error) {note}
    (walks : Walks images note fun _ _ => True)
    : Walks images
        (if !symbol.role.isImage then return some symbol
          else if ctx.inInit then do report cause span; return none
          else if !symbol.role.isDestination then do report cause' span; return none
          else do note; return some symbol)
        fun s found => symbol ∈ images ∨ symbol ∈ s.locals
          → (Expr.update span name false false found).Resolved (ctx.names images s) := by
  split
  · rename_i notImage
    refine .pure fun s known => ⟨symbol, rfl, named, Or.inl ?_⟩
    exact mem_locals_of_not_image valid known (by simpa using notImage)
  · split
    · exact .error error
    · rename_i outside
      split
      · exact .error error'
      · rename_i destination
        refine walks.bind (fun _ _ _ _ holds => holds) fun _ => .pure fun s _ known => ?_
        refine ⟨symbol, rfl, named, known.symm.imp_right fun image => ?_⟩
        exact ⟨Bool.eq_false_iff.mpr outside, image, by simpa using destination⟩

omit valid in
theorem walks_noteWritten (name) : Walks images (noteWritten name) fun _ _ => True :=
  .modify (fun _ => rfl) (fun _ => rfl) (fun _ => prefix_refl _) fun _ => trivial

theorem walks_assigning (ctx name span)
    : Walks images (assigning ctx name span) fun s found =>
        (Expr.update span name false false found).Resolved (ctx.names images s) := by
  unfold assigning
  split
  · exact .error rfl
  refine .lookup ?_ fun symbol named =>
    walks_written valid named span rfl rfl (walks_noteWritten symbol.name)
  refine (walks_declare ctx name span).bind
    (fun _ _ _ grows declared => ⟨declared.1, mem_locals_of_grows grows declared.2⟩)
    fun symbol => ?_
  split
  · refine (walks_report _ span trivial).bind (fun _ _ _ _ holds => holds) fun _ => ?_
    exact .pure fun s _ declared => ⟨symbol, rfl, declared.1, Or.inl declared.2⟩
  · exact .pure fun s declared => ⟨symbol, rfl, declared.1, Or.inl declared.2⟩

theorem walks_updating (ctx name span)
    : Walks images (updating ctx name span) fun s found =>
        (Expr.update span name false false found).Resolved (ctx.names images s) := by
  unfold updating
  split
  · exact .error rfl
  refine .lookup .unresolved fun symbol named => ?_
  have note : Walks images (do readImage ctx symbol span; noteWritten name) fun _ _ => True :=
    (walks_readImage ctx symbol span).bind (fun _ _ _ _ holds => holds)
      fun _ => (walks_noteWritten name).imp fun _ _ holds _ => holds
  exact walks_written valid named span rfl rfl note

end Names

/-- A built-in without an error has no arguments and a meaning where it stands. -/
theorem walks_checkBuiltin (ctx : Context) (name : String) (which : Builtin) (argc : Nat)
    (span : Span)
    : Walks images (checkBuiltin ctx name which argc span) fun _ _ =>
        argc = 0 ∧ (which.isPositional → ctx.inInit = false) := by
  have placed : Walks images
      (if which.isPositional && ctx.inInit then report (.positionInInit name) span
        else Pure.pure ())
      fun _ _ => which.isPositional → ctx.inInit = false := by
    split
    · exact (walks_report_error span rfl).imp fun _ _ absurd => absurd.elim
    · rename_i outside
      exact .pure fun _ => by simpa using outside
  unfold checkBuiltin
  dsimp only
  split
  · exact (walks_report_error span rfl).bind (fun _ _ _ _ absurd => absurd)
      fun _ => placed.imp fun _ _ _ absurd => absurd.elim
  · rename_i noArguments
    exact placed.imp fun _ _ holds => ⟨by simpa using noArguments, holds⟩

/-- A call without an error has a function of the registry that takes its arguments. -/
theorem walks_calling (ctx : Context) (name : String) (argc : Nat) (span : Span)
    : Walks images (calling ctx name argc span) fun _ found =>
        ∃ f, found = some f ∧ ctx.registry.lookup name = some f ∧ f.arity = argc := by
  unfold calling
  split
  · exact .error rfl
  · rename_i f known
    split
    · rename_i arity
      exact .pure fun _ => ⟨f, rfl, known, arity⟩
    · exact .error rfl

/-- A node that is annotated without an error is resolved, by cases on it. -/
theorem walks_annotate (valid : ∀ i ∈ images, i.role.isImage = true) (ctx : Context) (n : Expr)
    : Walks images (annotate ctx n) fun s n => n.Resolved (ctx.names images s) := by
  cases n with
  | literal | binary | unary => exact .pure fun _ => trivial
  | read span name symbol =>
    exact (walks_reading valid ctx name span).bind (fun _ => lasts_resolved _)
      fun _ => .pure fun _ reads => reads
  | assign span target step value symbol =>
    cases step with
    | none =>
      exact (walks_assigning valid ctx target span).bind (fun _ => lasts_resolved _)
        fun _ => .pure fun _ writes => writes
    | some op =>
      exact (walks_updating valid ctx target span).bind (fun _ => lasts_resolved _)
        fun _ => .pure fun _ writes => writes
  | update span target decrement before symbol =>
    exact (walks_updating valid ctx target span).bind (fun _ => lasts_resolved _)
      fun _ => .pure fun _ writes => writes
  | builtin span name which args =>
    refine (walks_checkBuiltin ctx name which args.length span).bind (fun _ _ _ _ holds => holds)
      fun _ => .pure fun _ checked => ?_
    exact ⟨eq_nil_of_length_eq_zero checked.1, checked.2⟩
  | call span name args function =>
    exact (walks_calling ctx name args.length span).bind (fun _ _ _ _ holds => holds)
      fun _ => .pure fun _ known => known

/-- From sound scopes a part of a walk leads to sound ones, and it resolves its nodes unless it comes upon
an error.
-/
def Resolves (ctx : Context) (images : List Symbol) (nodes : List Expr) (s t : State) : Prop :=
  Sound images s → Sound images t ∧ Grows s t
    ∧ (Clean t → ∀ n ∈ nodes, n.Resolved (ctx.names images t))

theorem traverses_resolves (valid : ∀ i ∈ images, i.role.isImage = true) (ctx : Context)
    : Traverses ctx (Resolves ctx images) where
  nothing s sound := ⟨sound, .refl s, fun _ _ absent => nomatch absent⟩
  own n s sound := by
    obtain ⟨sound', grows, resolved⟩ := walks_annotate valid ctx n s sound
    exact ⟨sound', grows, fun clean => forall_mem_singleton.mpr (resolved clean)⟩
  append first second sound := by
    obtain ⟨sound1, grows1, holds1⟩ := first sound
    obtain ⟨sound2, grows2, holds2⟩ := second sound1
    refine ⟨sound2, grows1.trans grows2, fun clean => forall_mem_append.mpr ⟨?_, holds2 clean⟩⟩
    exact lasts_allResolved _ _ _ grows2 (holds1 (clean.of_grows grows2))
  congr same walk sound := by
    obtain ⟨sound', grows, resolved⟩ := walk sound
    exact ⟨sound', grows, fun clean n member => resolved clean n ((same n).mp member)⟩
  enclosed walk sound := by
    obtain ⟨sound', grows, resolved⟩ := walk (sound.enter _)
    exact ⟨sound'.leave, ⟨grows.locals, grows.problems⟩, resolved⟩

/-- Every node of a script carries what it needs, in the init block and in the body. -/
structure AllResolved (images : List Symbol) (registry : Registry) (locals : Array Symbol)
    (p : Program) : Prop where
  init : ∀ block, p.init = some block → ∀ n ∈ stmtsNodes block.body,
    n.Resolved { images, locals, registry, inInit := true }
  body : ∀ n ∈ stmtsNodes p.body, n.Resolved { images, locals, registry, inInit := false }

end Resolve

namespace SymbolRole

theorem isSource_ofImage (role) : (ofImage role).isSource = role.isSource := by
  simp only [isSource, ofImage, ImageRole.isSource, UInt8.and_assoc]
  rfl

theorem isDestination_ofImage (role) : (ofImage role).isDestination = role.isDestination := by
  simp only [isDestination, ofImage, ImageRole.isDestination, UInt8.and_assoc]
  rfl

end SymbolRole

variable {bindings : Bindings}

theorem Bindings.hasRole_of_errorAfter? {seen} (valid : errorAfter? seen bindings = none)
    : ∀ b ∈ bindings, b.role.isSource = true ∨ b.role.isDestination = true := by
  fun_induction errorAfter? seen bindings with
  | case1 => simp
  | case2 => simp at valid
  | case3 seen b rest accepted ih =>
    refine forall_mem_cons.mpr ⟨?_, ih valid⟩
    unfold Binding.error? at accepted
    grind

theorem Scope.isImage_imageSymbols (valid : bindings.error? = none)
    : ∀ i ∈ Scope.imageSymbols bindings, i.role.isImage = true := by
  intro i member
  obtain ⟨slot, inside, rfl⟩ := mem_mapIdx.mp member
  have role := Bindings.hasRole_of_errorAfter? valid _ (getElem_mem inside)
  generalize bindings[slot].role = r at role
  -- Either bit of a role is one of the two bits of an image.
  have lost {bit : UInt8} (among : 3 &&& bit = bit) (none : r.bits &&& 3 = 0)
      : r.bits &&& bit = 0 := by
    rw [← among, ← UInt8.and_assoc, none, UInt8.zero_and]
  simp only [SymbolRole.isImage, SymbolRole.ofImage, ImageRole.isSource, ImageRole.isDestination,
    bne_iff_ne, UInt8.and_assoc, UInt8.and_self] at role ⊢
  rcases role with readable | writable
  · exact fun none => readable (lost rfl none)
  · exact fun none => writable (lost rfl none)

/-- A script that resolves without errors has nothing unresolved, and its variables have their
places in the table as slots.
-/
theorem resolve_allResolved (registry : Registry) {program} (valid : bindings.error? = none)
    (accepted : (resolve bindings registry program).problems.hasErrors = false)
    : Resolve.AllResolved (Scope.imageSymbols bindings) registry
        (resolve bindings registry program).table.locals
        (resolve bindings registry program).program
      ∧ Dense (resolve bindings registry program).table.locals := by
  have isImage := Scope.isImage_imageSymbols valid
  obtain ⟨t, init, body⟩ := (Resolve.traverses_resolves isImage _).program
    (Resolve.traverses_resolves isImage (Resolve.contextOf registry program false))
    { scopes := [.root bindings], locals := #[], problems := #[], written := [], read := [] }
  obtain ⟨sound, -, resolvedInit⟩ := init
    { known := by simp [Scope.root]
      dense := by simp [Dense] }
  obtain ⟨sound', grows, resolvedBody⟩ := body sound
  have noErrors : ∀ problem ∈ (resolve bindings registry program).problems,
      problem.isError = false := by
    simpa [Problems.hasErrors] using accepted
  have clean : Resolve.Clean _ := fun problem member =>
    noErrors problem (mem_append_left _ (Array.mem_toList_iff.mpr member))
  refine ⟨⟨fun block given n member => ?_, resolvedBody clean⟩, sound'.dense⟩
  have resolved := Resolve.lasts_allResolved _ _ _ grows (resolvedInit (clean.of_grows grows))
  exact resolved n (by rw [Program.initBody]; exact given ▸ member)

end MapAlgebra
