import MapAlgebra.Proofs.Code.Landing
import Mathlib.Data.List.Forall2

/-! What code refers to. A tree refers to constants, variables, images and functions in the order of its
code, and the instructions of its code that have such an operand come in the same order, one for each
reference.
-/

namespace MapAlgebra

open List

namespace Lower

/-- The instruction of an item. -/
def Item.instr? : Item → Option Instr
  | .instr i _ => some i
  | .mark _ => none

/-- The instructions of the items that refer to something come one for each reference, in order. -/
def Cites (pools : Pools) (references : List Reference) (items : List Item) : Prop :=
  List.Forall₂ (Emits pools) references ((items.filterMap Item.instr?).filter Instr.refers)

variable {pools : Pools} {references later : List Reference} {items first second : List Item}
  {depth : Nat} {i : Instr} {symbol : Option Symbol}

theorem Cites.nil : Cites pools [] [] :=
  List.Forall₂.nil

theorem Cites.append (cites : Cites pools references first) (cites' : Cites pools later second)
    : Cites pools (references ++ later) (first ++ second) := by
  unfold Cites
  rw [filterMap_append, filter_append]
  exact rel_append cites cites'

theorem Cites.followed (cites : Cites pools references items) (silent : i.refers = false)
    : Cites pools references (items ++ [.instr i depth]) := by
  have nothing : Cites pools [] [.instr i depth] := by
    simp only [Cites, filterMap_cons, Item.instr?, filterMap_nil, filter_cons, silent,
      filter_nil, Bool.false_eq_true, if_false]
    exact .nil
  simpa only [append_nil] using cites.append nothing

theorem Cites.preceded (cites : Cites pools references items) (silent : i.refers = false)
    : Cites pools references (.instr i depth :: items) :=
  (Cites.nil.followed silent).append cites

theorem Cites.one {r} (emits : Emits pools r i) (refers : i.refers = true)
    : Cites pools [r] [.instr i depth] := by
  simp only [Cites, filterMap_cons, Item.instr?, filterMap_nil, filter_cons, refers,
    filter_nil, if_true]
  exact .cons emits .nil

/-- A logical operator refers to what its operands do and to what the first decides. -/
theorem cites_logical (truth : Bool) {second distance} (left : Cites pools references first)
    (right : Cites pools later second)
    : Cites pools (references ++ later ++ [.constant (if truth then .one else .zero)])
        (first ++ [.instr (decidingJump truth distance) (depth + 1)] ++ second
          ++ [.instr .truthy (depth + 1), .instr (.jump 1) (depth + 1),
            .instr (decided truth) depth]) := by
  have jump : (decidingJump truth distance).refers = false := by
    cases truth with
    | true => rfl
    | false => rfl
  have pushed : Cites pools [.constant (if truth then .one else .zero)]
      [.instr (decided truth) depth] := by
    cases truth with
    | true => exact .one (Or.inr (Or.inl ⟨rfl, rfl⟩)) rfl
    | false => exact .one (Or.inl ⟨rfl, rfl⟩) rfl
  exact ((left.followed jump).append right).append ((pushed.preceded rfl).preceded rfl)

/-- Every piece of code cites its references, by induction on how it is put together. -/
theorem Coded.cites {before after} (coded : Coded pools references before items after)
    : Cites pools references items := by
  induction coded with
  | nil => exact .nil
  | append _ _ ih ih' => exact ih.append ih'
  | mark _ ih => exact ih
  | plain silent => exact Cites.nil.followed silent
  | one depth emits => exact .one emits emits.refers
  | logical truth _ _ _ ih ih' => exact cites_logical truth ih ih'
  | ifThen _ _ _ ih ih' => exact (ih.followed rfl).append ih'
  | ifElse _ _ _ _ _ ih ih' ih'' => exact (((ih.followed rfl).append ih').followed rfl).append ih''
  | loop _ _ _ _ ih ih' => exact ((ih.followed rfl).append ih').followed rfl

end Lower

end MapAlgebra
