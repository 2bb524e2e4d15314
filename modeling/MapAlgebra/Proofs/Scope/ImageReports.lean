import Mathlib.Data.List.Induction
import MapAlgebra.Proofs.Scope.Chain

/-! The problems about images are those that the uses of their names call for. Whether a use is a problem
depends on the image and on where the use stands, not on what was found before it, so the problems of a
script are those of its nodes in the order of the visits.
-/

namespace MapAlgebra

open List
open Scope

/-- The node is a plain read of a name. -/
def Expr.Reads (name : String) : Expr → Prop
  | .read _ n _ => n = name
  | _ => False

/-- The node reads a name and then writes it: a compound assignment, an increment or a decrement. -/
def Expr.Updates (name : String) : Expr → Prop
  | .assign _ target (some _) _ _ | .update _ target _ _ _ => target = name
  | _ => False

/-- The node writes a name: an assignment of either kind, an increment or a decrement. -/
def Expr.Writes (name : String) : Expr → Prop
  | .assign _ target _ _ _ | .update _ target _ _ _ => target = name
  | _ => False

instance (name : String) : DecidablePred (Expr.Reads name)
  | .read _ n _ => inferInstanceAs (Decidable (n = name))
  | .literal .. | .binary .. | .unary .. | .assign .. | .update .. | .builtin .. | .call .. =>
    isFalse not_false

instance (name : String) : DecidablePred (Expr.Updates name)
  | .assign _ target (some _) _ _ | .update _ target _ _ _ => inferInstanceAs (Decidable (target = name))
  | .assign _ _ none .. | .literal .. | .read .. | .binary .. | .unary .. | .builtin .. | .call .. =>
    isFalse not_false

instance (name : String) : DecidablePred (Expr.Writes name)
  | .assign _ target _ _ _ | .update _ target _ _ _ => inferInstanceAs (Decidable (target = name))
  | .literal .. | .read .. | .binary .. | .unary .. | .builtin .. | .call .. => isFalse not_false

/-- The target of a node, with a mark for plain assignments. -/
def Expr.target? : Expr → Option (String × Bool)
  | .assign _ target step _ _ => some (target, step.isNone)
  | .update _ target _ _ _ => some (target, false)
  | _ => none

variable {n : Expr} {name : String}

theorem Expr.writes_iff : n.Writes name ↔ ∃ plain, n.target? = some (name, plain) := by
  cases n <;> simp [Expr.Writes, Expr.target?]

mutual

/-- The targets of an expression are those of its nodes, by induction on the expression. -/
theorem Expr.targets_eq (e : Expr) : e.targets = e.nodes.filterMap Expr.target? := by
  cases e with
  | literal | read | update => rfl
  | binary span op left right =>
    rw [Expr.targets, Expr.targets_eq left, Expr.targets_eq right, ← filterMap_append]
    rfl
  | unary span op operand => exact Expr.targets_eq operand
  | assign span target step value symbol => exact congrArg _ (Expr.targets_eq value)
  | builtin span name which args => exact exprsTargets_eq args
  | call span name args function => exact exprsTargets_eq args

theorem exprsTargets_eq (es) : exprsTargets es = (exprsNodes es).filterMap Expr.target? := by
  cases es with
  | nil => rfl
  | cons e rest =>
    rw [exprsTargets, exprsNodes, Expr.targets_eq e, exprsTargets_eq rest, filterMap_append]

end

mutual

theorem Stmt.targets_eq (s : Stmt) : s.targets = s.nodes.filterMap Expr.target? := by
  cases s with
  | expr e => exact Expr.targets_eq e
  | block span body => exact stmtsTargets_eq body
  | ifThen span test yes =>
    rw [Stmt.targets, Stmt.nodes, test.targets_eq, Stmt.targets_eq yes, filterMap_append]
  | ifElse span test yes no =>
    rw [Stmt.targets, Stmt.nodes, test.targets_eq, Stmt.targets_eq yes, Stmt.targets_eq no,
      filterMap_append, filterMap_append]
  | loop span test body =>
    rw [Stmt.targets, Stmt.nodes, test.targets_eq, Stmt.targets_eq body, filterMap_append]

theorem stmtsTargets_eq (body) : stmtsTargets body = (stmtsNodes body).filterMap Expr.target? := by
  cases body with
  | nil => rfl
  | cons first rest =>
    rw [stmtsTargets, stmtsNodes, Stmt.targets_eq first, stmtsTargets_eq rest, filterMap_append]

end

theorem mem_stmtsTargets (body : List Stmt)
    : name ∈ (stmtsTargets body).map (·.1) ↔ ∃ n ∈ stmtsNodes body, n.Writes name := by
  simp only [stmtsTargets_eq, Expr.writes_iff, mem_map, mem_filterMap]
  constructor
  · rintro ⟨⟨name, plain⟩, ⟨n, member, writes⟩, rfl⟩
    exact ⟨n, member, plain, writes⟩
  · rintro ⟨n, member, plain, writes⟩
    exact ⟨(name, plain), ⟨n, member, writes⟩, rfl⟩

/-- The codes of the problems that are about the use of images only. -/
def ProblemCode.isAboutImages : ProblemCode → Bool
  | assignToSource | unassignedDestination | reservedName | imageInInit | unusedSource => true
  | _ => false

/-- The problem is one of those about the use of images. -/
def Problem.isAboutImages (q : Problem) : Bool := q.code.isAboutImages

/-- Some problem has the code and is about the name. -/
def Problems.Mentions (problems : Problems) (code : ProblemCode) (name : String) : Prop :=
  ∃ q ∈ problems, q.code = code ∧ q.cause.name = name

namespace Problems

variable {code : ProblemCode}

@[simp]
theorem mentions_nil : ¬ Mentions [] code name := by
  simp [Mentions]

@[simp]
theorem mentions_singleton {cause span}
    : Mentions [{ cause, span }] code name ↔ cause.code = code ∧ cause.name = name := by
  simp [Mentions, Problem.code]

variable {problems : Problems}

theorem mentions_append {more}
    : Mentions (problems ++ more) code name ↔ problems.Mentions code name ∨ more.Mentions code name := by
  simp only [Mentions, mem_append, or_and_right, exists_or]

theorem mentions_filter (about : code.isAboutImages = true)
    : Mentions (problems.filter (·.isAboutImages)) code name ↔ problems.Mentions code name := by
  constructor
  · rintro ⟨q, member, rfl, named⟩
    exact ⟨q, (mem_filter.mp member).1, rfl, named⟩
  · rintro ⟨q, member, rfl, named⟩
    exact ⟨q, mem_filter.mpr ⟨member, about⟩, rfl, named⟩

end Problems

namespace Resolve

/-- The image with a name. -/
def imageNamed (images : List Symbol) (name : String) : Option Symbol :=
  images.find? (·.name == name)

/-- The problem that writing a name is, if it is one. -/
def writeProblems (images : List Symbol) (inInit : Bool) (name : String) (span : Span)
    : Problems :=
  match imageNamed images name with
  | none => []
  | some image =>
    if inInit then [{ cause := .imageAssignedInInit name, span }]
    else if image.role.isDestination then []
    else [{ cause := .sourceAssigned name, span }]

/-- The problems about images that a node is by itself. -/
def useProblems (images : List Symbol) (inInit : Bool) : Expr → Problems
  | .read span name _ =>
    if (imageNamed images name).isSome && inInit then [{ cause := .imageReadInInit name, span }] else []
  | .assign span target _ _ _ | .update span target _ _ _ => writeProblems images inInit target span
  | _ => []

/-- The sources that a node reads. -/
def sourcesRead (images : List Symbol) (inInit : Bool) : Expr → List String
  | .read _ name _ =>
    if (imageNamed images name).any (·.role.isSource) && !inInit then [name] else []
  | .assign _ target (some _) _ _ | .update _ target _ _ _ =>
    if (imageNamed images target).any (fun i => i.role.isSource && i.role.isDestination) && !inInit then
      [target]
    else []
  | _ => []

/-- Between two points of a walk these problems about images and these sources are added. -/
structure Notes (s t : State) (problems : List Problem) (sources : List String) : Prop where
  problems : t.problems.toList.filter (·.isAboutImages)
    = s.problems.toList.filter (·.isAboutImages) ++ problems
  read : ∀ name, name ∈ t.read ↔ name ∈ s.read ∨ name ∈ sources

variable {s t u : State}

namespace Notes

theorem nothing (problems : t.problems = s.problems) (read : t.read = s.read) : Notes s t [] [] :=
  ⟨by simp [problems], by simp [read]⟩

theorem trans {ps qs ns ms} (first : Notes s t ps ns) (second : Notes t u qs ms)
    : Notes s u (ps ++ qs) (ns ++ ms) := by
  refine ⟨?_, fun name => ?_⟩
  · rw [second.problems, first.problems, append_assoc]
  · rw [second.read, first.read, mem_append, or_assoc]

variable {cause : Cause} {span : Span}

theorem other (other : cause.code.isAboutImages = false)
    : Notes s ((report cause span).run s).2 [] [] := by
  refine ⟨?_, fun name => by simp; rfl⟩
  change (s.problems.push { cause, span }).toList.filter _ = _
  simp [Problem.isAboutImages, Problem.code, other]

theorem reported (about : cause.code.isAboutImages = true)
    : Notes s ((report cause span).run s).2 [{ cause, span }] [] := by
  refine ⟨?_, fun name => by simp; rfl⟩
  change (s.problems.push { cause, span }).toList.filter _ = _
  simp [Problem.isAboutImages, Problem.code, about]

end Notes

/-- What is known of the images themselves. -/
structure Proper (images : List Symbol) : Prop where
  isImage : ∀ i ∈ images, i.role.isImage = true
  notBuiltin : ∀ i ∈ images, (builtin? i.name).isSome = false

variable {images : List Symbol} {depth : Nat} {ctx : Context} {span : Span}

/-- A name of an image stands for it, and another name stands for no image. -/
theorem Standing.lookup_cases (standing : Standing images depth s) (name : String)
    : (∃ i ∈ images, i.name = name ∧ imageNamed images name = some i
        ∧ lookupChain s.scopes name = some i)
      ∨ imageNamed images name = none
        ∧ ∀ symbol, lookupChain s.scopes name = some symbol → symbol.role.isImage = false := by
  cases given : imageNamed images name with
  | some i =>
    have image := mem_of_find?_eq_some given
    have named : i.name = name := beq_iff_eq.mp (List.find?_some given :)
    exact Or.inl ⟨i, image, named, rfl, named ▸ standing.lookup_image image⟩
  | none =>
    refine Or.inr ⟨rfl, fun symbol found => ?_⟩
    by_contra isImage
    have image := standing.mem_images found (by simpa using isImage)
    exact List.find?_eq_none.mp given symbol image (beq_iff_eq.mpr (standing.sound.lookup found).1)

theorem notes_reportUnresolved : Notes s ((reportUnresolved ctx name span).run s).2 [] [] := by
  unfold reportUnresolved
  split
  · exact .other rfl
  · exact .other rfl

/-- Reading an image is a problem in the init block, and reading a source is noted elsewhere. -/
theorem notes_readImage (image : Symbol)
    : Notes s ((readImage ctx image span).run s).2
        (if ctx.inInit then [{ cause := .imageReadInInit image.name, span }] else [])
        (if image.role.isSource && !ctx.inInit then [image.name] else []) := by
  unfold readImage
  cases ctx.inInit with
  | true =>
    rw [Bool.not_true, Bool.and_false]
    exact .reported rfl
  | false =>
    rw [Bool.not_false, Bool.and_true]
    cases image.role.isSource with
    | true =>
      refine ⟨(append_nil _).symm, fun name => ?_⟩
      change name ∈ s.read.insert image.name ↔ _
      rw [mem_insert_iff, or_comm]
      exact or_congr_right mem_singleton.symm
    | false =>
      change Notes s ((if !s.written.contains image.name then
        report (.readBeforeWritten image.name) span else pure ()).run s).2 [] []
      split
      · exact .other rfl
      · exact .nothing rfl rfl

theorem notes_noteWritten (name) : Notes s ((noteWritten name).run s).2 [] [] :=
  .nothing rfl rfl

theorem notes_checkBuiltin (which argc)
    : Notes s ((checkBuiltin ctx name which argc span).run s).2 [] [] := by
  have placed (s : State) : Notes s
      ((if which.isPositional && ctx.inInit then report (.positionInInit name) span
        else Pure.pure () : ResolveM Unit).run s).2 [] [] := by
    split
    · exact .other rfl
    · exact .nothing rfl rfl
  unfold checkBuiltin
  dsimp only
  split
  · have counted : Notes s ((report (.builtinArguments name argc) span).run s).2 [] [] := .other rfl
    exact counted.trans (placed _)
  · exact placed s

theorem notes_calling (argc) : Notes s ((calling ctx name argc span).run s).2 [] [] := by
  unfold calling
  split
  · exact .other rfl
  · split
    · exact .nothing rfl rfl
    · exact .other rfl

section

variable (standing : Standing images depth s) (proper : Proper images)
include standing proper

theorem notes_reading (old)
    : Notes s ((reading ctx name span).run s).2
        (useProblems images ctx.inInit (.read span name old))
        (sourcesRead images ctx.inInit (.read span name old)) := by
  unfold reading
  rcases standing.lookup_cases name with ⟨i, image, rfl, given, found⟩ | ⟨given, others⟩
  · rw [if_neg (Bool.eq_false_iff.mp (proper.notBuiltin i image)), run_lookup_bind, found]
    dsimp only
    rw [if_pos (proper.isImage i image)]
    simp only [useProblems, sourcesRead, given, Option.isSome_some, Bool.true_and, Option.any_some]
    exact notes_readImage i
  · simp only [useProblems, sourcesRead, given, Option.isSome_none, Bool.false_and, Option.any_none,
      Bool.false_eq_true, if_false]
    split
    · exact .other rfl
    · rw [run_lookup_bind]
      cases found : lookupChain s.scopes name with
      | none => exact notes_reportUnresolved
      | some symbol =>
        dsimp only
        rw [others symbol found]
        exact .nothing rfl rfl

theorem notes_assigning
    : Notes s ((assigning ctx name span).run s).2 (writeProblems images ctx.inInit name span) [] := by
  unfold assigning
  rcases standing.lookup_cases name with ⟨i, image, rfl, given, found⟩ | ⟨given, others⟩
  · rw [if_neg (Bool.eq_false_iff.mp (proper.notBuiltin i image)), run_lookup_bind, found]
    simp only [writeProblems, given, proper.isImage i image]
    cases ctx.inInit with
    | true => exact .reported rfl
    | false =>
      cases i.role.isDestination with
      | true => exact .nothing rfl rfl
      | false => exact .reported rfl
  · simp only [writeProblems, given]
    split
    · exact .other rfl
    · rw [run_lookup_bind]
      cases found : lookupChain s.scopes name with
      | none =>
        have declared : Notes s ((declare ctx name span).run s).2 [] [] := .nothing rfl rfl
        cases shadows : (ctx.registry.lookup name).isSome with
        | true => exact declared.trans (.other rfl)
        | false => exact declared
      | some symbol =>
        dsimp only
        rw [others symbol found]
        exact .nothing rfl rfl

theorem notes_updating (decrement before old)
    : Notes s ((updating ctx name span).run s).2 (writeProblems images ctx.inInit name span)
        (sourcesRead images ctx.inInit (.update span name decrement before old)) := by
  unfold updating
  rcases standing.lookup_cases name with ⟨i, image, rfl, given, found⟩ | ⟨given, others⟩
  · rw [if_neg (Bool.eq_false_iff.mp (proper.notBuiltin i image)), run_lookup_bind, found]
    simp only [writeProblems, sourcesRead, given, proper.isImage i image, Option.any_some]
    have read : Notes s ((readImage ctx i span).run s).2 _ _ := notes_readImage i
    have updated := read.trans (notes_noteWritten i.name)
    rw [append_nil, append_nil] at updated
    cases inInit : ctx.inInit with
    | true =>
      rw [Bool.not_true, Bool.and_false]
      exact .reported rfl
    | false =>
      rw [inInit] at updated
      cases i.role.isDestination with
      | true =>
        rw [Bool.and_true]
        exact updated
      | false =>
        rw [Bool.and_false]
        exact .reported rfl
  · simp only [writeProblems, sourcesRead, given, Option.any_none, Bool.false_and, Bool.false_eq_true,
      if_false]
    split
    · exact .other rfl
    · rw [run_lookup_bind]
      cases found : lookupChain s.scopes name with
      | none => exact notes_reportUnresolved
      | some symbol =>
        dsimp only
        rw [others symbol found]
        exact .nothing rfl rfl

end

/-- What a visit contributes if nodes contribute the given lists. -/
def Visit.collect {α : Type} (f : Bool → Expr → List α) : Visit → List α
  | .node inInit n => f inInit n
  | _ => []

/-- What the visits of a script contribute comes from its init block or its body. -/
theorem mem_collect {α : Type} {f p} {a : α}
    : a ∈ (visits p).flatMap (Visit.collect f)
      ↔ (∃ n ∈ stmtsNodes p.initBody, a ∈ f true n) ∨ ∃ n ∈ stmtsNodes p.body, a ∈ f false n := by
  rw [mem_flatMap]
  constructor
  · rintro ⟨v, visited, here⟩
    cases v with
    | node inInit n =>
      rcases node_mem_visits.mp visited with ⟨rfl, member⟩ | ⟨rfl, member⟩
      · exact Or.inl ⟨n, member, here⟩
      · exact Or.inr ⟨n, member, here⟩
    | enter | leave => cases here
  · rintro (⟨n, member, here⟩ | ⟨n, member, here⟩)
    · exact ⟨.node true n, node_mem_visits.mpr (Or.inl ⟨rfl, member⟩), here⟩
    · exact ⟨.node false n, node_mem_visits.mpr (Or.inr ⟨rfl, member⟩), here⟩

variable {registry : Registry} {p : Program} {bindings : Bindings}

theorem notes_perform (standing : Standing images depth s) (proper : Proper images) (v)
    : Notes s (perform registry p s v) (v.collect (useProblems images))
        (v.collect (sourcesRead images)) := by
  cases v with
  | enter | leave => exact .nothing rfl rfl
  | node inInit n =>
    cases n with
    | literal | binary | unary => exact .nothing rfl rfl
    | read span name symbol => exact notes_reading standing proper symbol
    | assign span target step value symbol =>
      cases step with
      | none => exact notes_assigning standing proper
      | some op => exact notes_updating standing proper false false symbol
    | update span target decrement before symbol =>
      exact notes_updating standing proper decrement before symbol
    | builtin span name which args => exact notes_checkBuiltin which args.length
    | call span name args function => exact notes_calling args.length

/-- The images of bindings that pass the check are images, and no built-ins. -/
theorem proper_imageSymbols (valid : bindings.error? = none)
    : Proper (imageSymbols bindings) where
  isImage := isImage_imageSymbols valid
  notBuiltin i image := by
    obtain ⟨slot, inside, rfl⟩ := mem_mapIdx.mp image
    exact ((Bindings.names_of_errorAfter? valid).2 _ (getElem_mem inside)).2

/-- What the visits so far call for is noted, by induction on them. -/
theorem notes_after (valid : bindings.error? = none) (registry : Registry) (p : Program) {done}
    (begun : done <+: visits p)
    : Notes (start bindings) (after registry p (start bindings) done)
        (done.flatMap (Visit.collect (useProblems (imageSymbols bindings))))
        (done.flatMap (Visit.collect (sourcesRead (imageSymbols bindings)))) := by
  induction done using List.reverseRecOn with
  | nil => exact .nothing rfl rfl
  | append_singleton done v ih =>
    have earlier := (prefix_append done [v]).trans begun
    obtain ⟨depth, standing⟩ := standing_resolve valid registry p earlier
    rw [after_concat, flatMap_append, flatMap_append, flatMap_singleton,
      flatMap_singleton]
    exact (ih earlier).trans (notes_perform standing (proper_imageSymbols valid) v)

variable {inInit : Bool} {code : ProblemCode}

variable {target : String} {i : Symbol}

/-- Writing an image is one problem in the init block and, if it is no destination, another one in the
body.
-/
theorem mentions_writeProblems
    : (writeProblems images inInit target span).Mentions code name
      ↔ (∃ i, imageNamed images target = some i
          ∧ (inInit = true ∧ .reservedName = code
            ∨ inInit = false ∧ i.role.isDestination = false ∧ .assignToSource = code))
        ∧ target = name := by
  unfold writeProblems
  cases given : imageNamed images target with
  | none => simp
  | some i =>
    cases inInit with
    | true => simp [Cause.code, Cause.name]
    | false =>
      cases role : i.role.isDestination with
      | true => simp [role]
      | false => simp [role, Cause.code, Cause.name]

/-- A node calls for the problem of a read image if it reads one in the init block. -/
theorem mentions_read
    : (useProblems images inInit n).Mentions .imageInInit name
      ↔ inInit = true ∧ (imageNamed images name).isSome = true ∧ n.Reads name := by
  cases n with
  | read span other symbol =>
    simp only [useProblems, Expr.Reads]
    split
    · simp [Cause.code, Cause.name]
      grind
    · simp
      grind
  | assign | update => simp [useProblems, mentions_writeProblems, Expr.Reads]
  | _ => simp [useProblems, Expr.Reads]

theorem mentions_written (notRead : code ≠ .imageInInit)
    : (useProblems images inInit n).Mentions code name
      ↔ (∃ i, imageNamed images name = some i
          ∧ (inInit = true ∧ .reservedName = code
            ∨ inInit = false ∧ i.role.isDestination = false ∧ .assignToSource = code))
        ∧ n.Writes name := by
  cases n with
  | read span other symbol =>
    simp only [useProblems, Expr.Writes, and_false, iff_false]
    split
    · simp [Cause.code, notRead.symm]
    · simp
  | assign | update =>
    rw [useProblems, mentions_writeProblems, Expr.Writes]
    refine and_congr_left ?_
    rintro rfl
    rfl
  | _ => simp [useProblems, Expr.Writes]

/-- A name is noted outside of the init block if it is that of an image of the right kind. -/
theorem mem_noted {kind}
    : name ∈ (if (imageNamed images target).any kind && !inInit then [target] else [])
      ↔ inInit = false ∧ (∃ i, imageNamed images name = some i ∧ kind i = true) ∧ target = name := by
  simp only [mem_ite_nil_right, Bool.and_eq_true, Option.any_eq_true, Bool.not_eq_true',
    mem_singleton]
  constructor
  · rintro ⟨⟨image, outside⟩, rfl⟩
    exact ⟨outside, image, rfl⟩
  · rintro ⟨outside, image, rfl⟩
    exact ⟨⟨image, outside⟩, rfl⟩

/-- A source is read where its name is, and where it is updated if it is a destination too. -/
theorem mem_sourcesRead
    : name ∈ sourcesRead images inInit n
      ↔ inInit = false ∧ ∃ i, imageNamed images name = some i ∧ i.role.isSource = true
          ∧ (n.Reads name ∨ i.role.isDestination = true ∧ n.Updates name) := by
  cases n with
  | read span other symbol =>
    rw [sourcesRead, mem_noted]
    simp only [Expr.Reads, Expr.Updates, and_false, or_false]
    grind
  | assign span target step value symbol =>
    cases step with
    | none => simp [sourcesRead, Expr.Reads, Expr.Updates]
    | some op =>
      rw [sourcesRead, mem_noted]
      simp only [Expr.Reads, Expr.Updates, false_or, Bool.and_eq_true]
      grind
  | update span target decrement before symbol =>
    rw [sourcesRead, mem_noted]
    simp only [Expr.Reads, Expr.Updates, false_or, Bool.and_eq_true]
    grind
  | _ => simp [sourcesRead, Expr.Reads, Expr.Updates]

theorem exists_image_iff (bindings name) (kind : SymbolRole → Prop)
    : (∃ i ∈ imageSymbols bindings, i.name = name ∧ kind i.role)
      ↔ ∃ b ∈ bindings, b.name = name ∧ kind (.ofImage b.role) := by
  constructor
  · rintro ⟨i, image, rfl, holds⟩
    obtain ⟨slot, inside, rfl⟩ := mem_mapIdx.mp image
    exact ⟨bindings[slot], getElem_mem inside, rfl, holds⟩
  · rintro ⟨b, bound, rfl, holds⟩
    obtain ⟨slot, inside, rfl⟩ := getElem_of_mem bound
    exact ⟨_, mem_mapIdx.mpr ⟨slot, inside, rfl⟩, rfl, holds⟩

section

variable (valid : bindings.error? = none)
include valid

theorem exists_imageNamed_iff (name) (kind : SymbolRole → Prop)
    : (∃ i, imageNamed (imageSymbols bindings) name = some i ∧ kind i.role)
      ↔ ∃ b ∈ bindings, b.name = name ∧ kind (.ofImage b.role) := by
  simp only [imageNamed, find?_name_eq_some_iff (nodup_imageSymbols valid), and_assoc]
  exact exists_image_iff bindings name kind

theorem isSome_imageNamed_iff
    : (imageNamed (imageSymbols bindings) name).isSome = true
      ↔ ∃ b ∈ bindings, b.name = name := by
  simpa only [Option.isSome_iff_exists, and_true] using exists_imageNamed_iff valid name fun _ => True

/-- An image that is a destination counts as assigned unless no node of the script writes it. -/
theorem isAssigned_eq_false_iff (image : i ∈ imageSymbols bindings)
    (destination : i.role.isDestination = true)
    : isAssigned bindings p i.name = false ↔ ∀ n ∈ stmtsNodes p.statements, ¬ n.Writes i.name := by
  have distinct : ((root bindings).symbols.map (·.name)).Nodup := by
    simpa [root] using nodup_imageSymbols valid
  have found : (root bindings).lookup i.name = some i :=
    (find?_name_eq_some_iff distinct).mpr ⟨mem_reverse.mpr image, rfl⟩
  have written : i.name ∈ p.targets.map (·.1) ↔ _ := mem_stmtsTargets p.statements
  rw [isAssigned, found, Option.any_some, destination, Bool.and_true, ← Bool.not_eq_true, any_eq_true]
  simpa using not_congr written

end

/-- The problems of some of the images are about the names of these. -/
theorem mentions_map_filter {keep} {cause : Symbol → Cause}
    : Problems.Mentions ((images.filter keep).map fun i => { cause := cause i, span }) code name
      ↔ ∃ i ∈ images, keep i = true ∧ (cause i).code = code ∧ (cause i).name = name := by
  simp [Problems.Mentions, Problem.code, and_assoc]

/-- The problems of a whole script are about destinations that are never assigned and about sources that
were not noted.
-/
theorem mentions_imageProblems {read}
    : (imageProblems bindings p read).Mentions code name
      ↔ (∃ i ∈ imageSymbols bindings, i.name = name ∧ i.role.isDestination = true
          ∧ isAssigned bindings p i.name = false ∧ .unassignedDestination = code)
        ∨ ∃ i ∈ imageSymbols bindings, i.name = name ∧ i.role.isSource = true
          ∧ i.name ∉ read ∧ .unusedSource = code := by
  rw [imageProblems, Problems.mentions_append, mentions_map_filter, mentions_map_filter]
  simp only [Cause.code, Cause.name, Bool.and_eq_true, Bool.not_eq_true', contains_eq_mem,
    decide_eq_false_iff_not]
  grind

/-- The problems about images that resolving reports are those that nodes call for and those of the whole
script.
-/
theorem mentions_resolve (valid : bindings.error? = none) (registry : Registry) (p : Program)
    (about : code.isAboutImages = true)
    : (resolve bindings registry p).problems.Mentions code name
      ↔ (∃ n ∈ stmtsNodes p.initBody,
          (useProblems (imageSymbols bindings) true n).Mentions code name)
        ∨ (∃ n ∈ stmtsNodes p.body,
          (useProblems (imageSymbols bindings) false n).Mentions code name)
        ∨ (imageProblems bindings p ((program registry p).run (start bindings)).2.read).Mentions
            code name := by
  have notes := notes_after valid registry p (prefix_refl _)
  rw [← run_program] at notes
  have split : (resolve bindings registry p).problems
      = ((program registry p).run (start bindings)).2.problems.toList
        ++ imageProblems bindings p ((program registry p).run (start bindings)).2.read :=
    rfl
  rw [split, Problems.mentions_append, ← Problems.mentions_filter about, notes.problems, ← or_assoc]
  refine or_congr_left ?_
  simp only [start, filter_nil, nil_append, Problems.Mentions, mem_collect]
  grind

theorem mem_read_iff (valid : bindings.error? = none) (registry p)
    (image : i ∈ imageSymbols bindings) (source : i.role.isSource = true)
    : i.name ∈ ((program registry p).run (start bindings)).2.read
      ↔ ∃ n ∈ stmtsNodes p.body,
          n.Reads i.name ∨ i.role.isDestination = true ∧ n.Updates i.name := by
  have notes := notes_after valid registry p (prefix_refl _)
  rw [← run_program] at notes
  have named : imageNamed (imageSymbols bindings) i.name = some i :=
    (find?_name_eq_some_iff (nodup_imageSymbols valid)).mpr ⟨image, rfl⟩
  rw [notes.read, mem_collect]
  simp [start, mem_sourcesRead, named, source]

end Resolve

open Resolve

/-- The problems about images are those that the bindings and the uses of names in the script call for. -/
structure ReportsUses (bindings : Bindings) (p : Program) (problems : Problems) : Prop where
  /-- A destination that nothing in the script writes. -/
  unassigned (name : String)
    : problems.Mentions .unassignedDestination name
      ↔ (∃ b ∈ bindings, b.name = name ∧ b.role.isDestination = true)
        ∧ ∀ n ∈ stmtsNodes p.statements, ¬ n.Writes name
  /-- A mere source that something in the body writes. -/
  sourceWritten (name : String)
    : problems.Mentions .assignToSource name
      ↔ (∃ b ∈ bindings, b.name = name ∧ b.role.isSource = true ∧ b.role.isDestination = false)
        ∧ ∃ n ∈ stmtsNodes p.body, n.Writes name
  /-- A source that nothing in the body reads, not even by an update if it is a destination too. -/
  unused (name : String)
    : problems.Mentions .unusedSource name
      ↔ ∃ b ∈ bindings, b.name = name ∧ b.role.isSource = true
          ∧ ∀ n ∈ stmtsNodes p.body,
              ¬ n.Reads name ∧ ¬ (b.role.isDestination = true ∧ n.Updates name)
  /-- An image that something in the init block reads. -/
  readInInit (name : String)
    : problems.Mentions .imageInInit name
      ↔ (∃ b ∈ bindings, b.name = name) ∧ ∃ n ∈ stmtsNodes p.initBody, n.Reads name
  /-- An image that something in the init block writes. -/
  writtenInInit (name : String)
    : problems.Mentions .reservedName name
      ↔ (∃ b ∈ bindings, b.name = name) ∧ ∃ n ∈ stmtsNodes p.initBody, n.Writes name

/-- Resolving reports exactly the problems about images that the bindings and the uses call for. -/
theorem resolve_reportsUses {bindings : Bindings} (valid : bindings.error? = none)
    (registry : Registry) (p : Program)
    : ReportsUses bindings p (resolve bindings registry p).problems where
  unassigned name := by
    have other : ProblemCode.unassignedDestination ≠ .imageInInit := by decide
    have bound := exists_image_iff bindings name (·.isDestination = true)
    simp only [SymbolRole.isDestination_ofImage] at bound
    rw [mentions_resolve valid registry p rfl, ← bound]
    simp only [mentions_written other, mentions_imageProblems, reduceCtorEq, and_false, or_false,
      exists_false, false_and, false_or, and_true]
    constructor
    · rintro ⟨i, image, rfl, destination, unassigned⟩
      exact ⟨⟨i, image, rfl, destination⟩,
        (isAssigned_eq_false_iff valid image destination).mp unassigned⟩
    · rintro ⟨⟨i, image, rfl, destination⟩, unwritten⟩
      exact ⟨i, image, rfl, destination,
        (isAssigned_eq_false_iff valid image destination).mpr unwritten⟩
  sourceWritten name := by
    have other : ProblemCode.assignToSource ≠ .imageInInit := by decide
    -- What has a role and is no destination is a source.
    have bound : (∃ b ∈ bindings, b.name = name ∧ b.role.isDestination = false)
        ↔ ∃ b ∈ bindings, b.name = name ∧ b.role.isSource = true ∧ b.role.isDestination = false := by
      refine exists_congr fun b => and_congr_right fun member => and_congr_right fun _ => ?_
      have role := Bindings.hasRole_of_errorAfter? valid b member
      grind
    have named := exists_imageNamed_iff valid name (·.isDestination = false)
    simp only [SymbolRole.isDestination_ofImage] at named
    rw [mentions_resolve valid registry p rfl, ← bound, ← named]
    simp only [mentions_written other, mentions_imageProblems, reduceCtorEq, and_false, or_false,
      exists_false, false_and, false_or, and_true, true_and]
    exact (exists_congr fun _ => and_left_comm).trans exists_and_left
  unused name := by
    have other : ProblemCode.unusedSource ≠ .imageInInit := by decide
    have bound := exists_image_iff bindings name fun role =>
      role.isSource = true ∧ ∀ n ∈ stmtsNodes p.body,
        ¬ n.Reads name ∧ ¬ (role.isDestination = true ∧ n.Updates name)
    simp only [SymbolRole.isSource_ofImage, SymbolRole.isDestination_ofImage] at bound
    rw [mentions_resolve valid registry p rfl, ← bound]
    simp only [mentions_written other, mentions_imageProblems, reduceCtorEq, and_false, or_false,
      exists_false, false_and, false_or, and_true]
    refine exists_congr fun i => and_congr_right fun image => and_congr_right ?_
    rintro rfl
    refine and_congr_right fun source => ?_
    rw [mem_read_iff valid registry p image source]
    simp only [not_exists, not_and, not_or]
  readInInit name := by
    rw [mentions_resolve valid registry p rfl]
    simp only [mentions_read, mentions_imageProblems, isSome_imageNamed_iff valid, reduceCtorEq, and_false,
      or_false, exists_false, false_and, true_and]
    exact (exists_congr fun _ => and_left_comm).trans exists_and_left
  writtenInInit name := by
    have other : ProblemCode.reservedName ≠ .imageInInit := by decide
    rw [mentions_resolve valid registry p rfl]
    simp only [mentions_written other, mentions_imageProblems, ← Option.isSome_iff_exists,
      isSome_imageNamed_iff valid, reduceCtorEq, and_false, or_false, exists_false, false_and, and_true]
    exact (exists_congr fun _ => and_left_comm).trans exists_and_left

/-- Images of which most are not used as they should be. -/
def misused : Bindings :=
  [{ name := "a", role := .source }, { name := "b", role := .source }, { name := "c", role := .both },
   { name := "d", role := .destination }, { name := "e", role := .destination }]

/-- The init block reads `a` and writes `d`, the body writes `b` and updates `c`, and nothing is done with
`e`.
-/
def careless : Program where
  span := .none
  init := some
    { span := .none
      body := [.expr (.assign .none "k" none (.read .none "a" none) none),
        .expr (.assign .none "d" none (.literal .none .one) none)] }
  body := [.expr (.assign .none "b" none (.read .none "k" none) none),
    .expr (.update .none "c" false true none)]

theorem resolve_reportsUses_careless
    : misused.error? = none
      ∧ ReportsUses misused careless (resolve misused ⟨[]⟩ careless).problems
      ∧ (resolve misused ⟨[]⟩ careless).problems.map (fun q => (q.code, q.cause.name))
        = [(.imageInInit, "a"), (.reservedName, "d"), (.assignToSource, "b"),
           (.unassignedDestination, "e"), (.unusedSource, "a"), (.unusedSource, "b")]
      ∧ (∃ n ∈ stmtsNodes careless.initBody, n.Reads "a")
      ∧ (∃ n ∈ stmtsNodes careless.body, n.Updates "c")
      ∧ ∀ n ∈ stmtsNodes careless.statements, ¬ n.Writes "e" :=
  ⟨by decide, resolve_reportsUses (by decide) ⟨[]⟩ careless, by decide, by decide, by decide,
    by decide⟩

end MapAlgebra
