import Mathlib.Data.List.Nodup
import MapAlgebra.Proofs.Scope.Visits

/-! What names stand for at the points of a walk. The open scopes never have a name twice and never lose
the images, so a name of an image stands for that image from the first visit to the last.
-/

namespace MapAlgebra

open List
open Scope

namespace Scope

/-- The symbols of scopes, from the innermost outwards. -/
def chain (scopes : List Scope) : List Symbol := scopes.flatMap (·.symbols)

/-- The names along scopes. -/
def chainNames (scopes : List Scope) : List String := (chain scopes).map (·.name)

variable {scopes : List Scope} {name : String} {symbol : Symbol}

/-- Where no name stands twice, a symbol is found by its name and no other is. -/
theorem find?_name_eq_some_iff {symbols : List Symbol} (distinct : (symbols.map (·.name)).Nodup)
    : symbols.find? (·.name == name) = some symbol ↔ symbol ∈ symbols ∧ symbol.name = name := by
  constructor
  · intro found
    have named := List.find?_some found
    exact ⟨mem_of_find?_eq_some found, beq_iff_eq.mp named⟩
  · rintro ⟨member, rfl⟩
    cases found : symbols.find? (·.name == symbol.name) with
    | none => exact absurd (beq_self_eq_true _) (List.find?_eq_none.mp found symbol member)
    | some other =>
      have named := List.find?_some found
      have there := mem_of_find?_eq_some found
      rw [inj_on_of_nodup_map distinct there member (beq_iff_eq.mp named)]

theorem lookupChain_eq (scopes name)
    : lookupChain scopes name = (chain scopes).find? (·.name == name) :=
  List.find?_flatMap.symm

theorem lookupChain_eq_none_iff : lookupChain scopes name = none ↔ name ∉ chainNames scopes := by
  rw [lookupChain_eq, List.find?_eq_none, chainNames, mem_map]
  simp only [beq_iff_eq, not_exists, not_and]

/-- Where no name stands twice, each symbol is found by its name. -/
theorem lookupChain_of_mem (distinct : (chainNames scopes).Nodup) (member : symbol ∈ chain scopes)
    : lookupChain scopes symbol.name = some symbol := by
  rw [lookupChain_eq]
  exact (find?_name_eq_some_iff distinct).mpr ⟨member, rfl⟩

theorem chain_define (scopes symbol)
    : chain ((scopes.headD default).define symbol :: scopes.tail) = symbol :: chain scopes := by
  cases scopes with
  | nil => rfl
  | cons head tail => rfl

end Scope

variable {bindings : Bindings}

/-- Bindings that pass the check have names of their own, which mean nothing else. -/
theorem Bindings.names_of_errorAfter? {seen} (valid : errorAfter? seen bindings = none)
    : (bindings.map (·.name)).Nodup
      ∧ ∀ b ∈ bindings, b.name ∉ seen ∧ (builtin? b.name).isSome = false := by
  induction bindings generalizing seen with
  | nil => simp
  | cons b rest ih =>
    rw [errorAfter?] at valid
    split at valid
    · cases valid
    · rename_i accepted
      obtain ⟨distinct, others⟩ := ih valid
      have fresh : b.name ∉ seen ∧ (builtin? b.name).isSome = false := by
        unfold Binding.error? at accepted
        grind
      refine ⟨nodup_cons.mpr ⟨?_, distinct⟩, forall_mem_cons.mpr ⟨fresh, ?_⟩⟩
      · intro again
        obtain ⟨other, member, named⟩ := mem_map.mp again
        exact (others other member).1 (named ▸ mem_cons_self)
      · intro other member
        obtain ⟨unseen, plain⟩ := others other member
        exact ⟨fun earlier => unseen (mem_cons_of_mem _ earlier), plain⟩

/-- Images have the names of their bindings, in the same order. -/
theorem Scope.map_name_imageSymbols (bindings : Bindings)
    : (imageSymbols bindings).map (·.name) = bindings.map (·.name) := by
  refine ext_getElem (by simp [imageSymbols]) fun i _ _ => ?_
  simp [imageSymbols]

theorem Scope.nodup_imageSymbols (valid : bindings.error? = none)
    : ((imageSymbols bindings).map (·.name)).Nodup := by
  rw [map_name_imageSymbols]
  exact (Bindings.names_of_errorAfter? valid).1

namespace Resolve

/-- What holds at every point of a walk: the images are in the outermost scope, behind as many others as
are open, no name stands twice, and there is nothing but images and variables of the table.
-/
structure Standing (images : List Symbol) (depth : Nat) (s : State) : Prop where
  rooted : ∃ inner bottom, s.scopes = inner ++ [bottom] ∧ inner.length = depth
    ∧ ∀ i ∈ images, i ∈ bottom.symbols
  distinct : (chainNames s.scopes).Nodup
  sound : Sound images s

variable {images : List Symbol} {depth : Nat} {s t : State} {inInit : Bool} {n : Expr}

namespace Standing

section

variable (standing : Standing images depth s)
include standing

variable {i : Symbol} {name : String}

theorem mem_chain (image : i ∈ images) : i ∈ chain s.scopes := by
  obtain ⟨inner, bottom, scopes, -, holds⟩ := standing.rooted
  rw [scopes]
  exact mem_flatMap.mpr ⟨bottom, mem_append_right _ mem_cons_self, holds i image⟩

theorem lookup_image (image : i ∈ images) : lookupChain s.scopes i.name = some i :=
  lookupChain_of_mem standing.distinct (standing.mem_chain image)

theorem mem_images {symbol} (found : lookupChain s.scopes name = some symbol)
    (isImage : symbol.role.isImage = true)
    : symbol ∈ images := by
  rcases (standing.sound.lookup found).2 with image | isLocal
  · exact image
  · obtain ⟨slot, here⟩ := Array.mem_iff_getElem?.mp isLocal
    rw [(standing.sound.dense slot symbol here).2] at isImage
    cases isImage

/-- An expression opens and closes no scope; a variable that it declares has a new name. -/
theorem node (moves : Moves s t (.node inInit n))
    : Standing images depth t := by
  cases moves with
  | still scopes locals =>
    exact ⟨scopes ▸ standing.rooted, scopes ▸ standing.distinct,
      standing.sound.congr scopes locals⟩
  | @declares _ span name value old fresh scopes locals =>
    refine ⟨?_, ?_, ?_⟩
    · obtain ⟨inner, bottom, before, length, holds⟩ := standing.rooted
      rw [scopes, before]
      cases inner with
      | nil => exact ⟨[], _, rfl, length, fun i image => mem_cons_of_mem _ (holds i image)⟩
      | cons head inner => exact ⟨_ :: inner, bottom, rfl, length, holds⟩
    · rw [scopes, chainNames, chain_define]
      exact nodup_cons.mpr ⟨lookupChain_eq_none_iff.mp fresh, standing.distinct⟩
    · -- The context matters only by its mark for the init block.
      let ctx : Context := { registry := ⟨[]⟩, assigned := [], inInit }
      exact (walks_declare ctx name span s standing.sound).1.congr scopes locals

theorem enter (moves : Moves s t (.enter name)) : Standing images (depth + 1) t := by
  cases moves with | enters scopes locals => ?_
  refine ⟨?_, ?_, (standing.sound.enter name).congr scopes locals⟩
  · obtain ⟨inner, bottom, before, length, holds⟩ := standing.rooted
    exact ⟨_ :: inner, bottom, by rw [scopes, before]; rfl, congrArg (· + 1) length, holds⟩
  · rw [scopes]
    exact standing.distinct

end

theorem leave (standing : Standing images (depth + 1) s) (moves : Moves s t .leave)
    : Standing images depth t := by
  cases moves with | leaves scopes locals => ?_
  obtain ⟨inner, bottom, before, length, holds⟩ := standing.rooted
  obtain ⟨head, inner, rfl⟩ := exists_cons_of_length_eq_add_one length
  have after : t.scopes = inner ++ [bottom] := by rw [scopes, before]; rfl
  refine ⟨⟨inner, bottom, after, Nat.succ.inj length, holds⟩, ?_, ?_, locals ▸ standing.sound.dense⟩
  · have distinct := standing.distinct
    rw [before] at distinct
    rw [after]
    exact distinct.sublist ((sublist_append_right _ _).map _)
  · rw [scopes, locals]
    exact fun scope isOpen => standing.sound.known scope (mem_of_mem_tail isOpen)

end Standing

variable {done : List Visit}

theorem standing_after {registry p vs} (standing : Standing images depth s)
    (nested : Nested depth vs) (begun : done <+: vs)
    : ∃ depth, Standing images depth (after registry p s done) := by
  induction vs generalizing depth s done with
  | nil =>
    rw [prefix_nil.mp begun]
    exact ⟨depth, standing⟩
  | cons v vs ih =>
    cases done with
    | nil => exact ⟨depth, standing⟩
    | cons first done =>
      obtain ⟨rfl, more⟩ := cons_prefix_cons.mp begun
      have moves : Moves s (perform registry p s first) first := moves_perform s first
      change ∃ depth, Standing images depth (after registry p (perform registry p s first) done)
      cases first with
      | node inInit n => exact ih (standing.node moves) nested more
      | enter name => exact ih (standing.enter moves) nested more
      | leave =>
        cases depth with
        | zero => exact nested.elim
        | succ depth => exact ih (standing.leave moves) nested more

/-- What is known before the first visit. -/
def start (bindings : Bindings) : State :=
  { scopes := [.root bindings], locals := #[], problems := #[], written := [], read := [] }

/-- It holds before the first visit if the bindings pass the check. -/
theorem standing_start (valid : bindings.error? = none)
    : Standing (imageSymbols bindings) 0 (start bindings) where
  rooted := ⟨[], .root bindings, rfl, rfl, fun _ image => mem_reverse.mpr image⟩
  distinct := by
    have distinct := nodup_imageSymbols valid
    simpa [chainNames, chain, start, root] using distinct
  sound := ⟨by simp [start, root], by simp [start, Dense]⟩

theorem standing_resolve (valid : bindings.error? = none) (registry p) (begun : done <+: visits p)
    : ∃ depth, Standing (imageSymbols bindings) depth
        (after registry p (start bindings) done) :=
  standing_after (standing_start valid) (nested_visits p) begun

end Resolve

end MapAlgebra
