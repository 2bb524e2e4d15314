import Mathlib.Data.List.Induction
import Mathlib.Data.List.Nodup
import MapAlgebra.Listener
import MapAlgebra.Proofs.Files.Places

/-! The register of listeners is an ordered list: those whose registrations stand, as they came. The
table, the numbers and the order agree after any calls.
-/

namespace MapAlgebra.Dispatcher

open List

variable {α : Type}

/-- A register holds numbered registrations in ascending order. -/
structure Holds (d : Dispatcher α) (standing : List (Nat × α)) : Prop where
  order : d.order = standing.map (·.1)
  found : ∀ r ∈ standing, d.listeners.lookup r.1 = some r.2
  ascending : standing.Pairwise (·.1 < ·.1)
  below : ∀ r ∈ standing, r.1 < d.nextId

variable {d : Dispatcher α} {standing : List (Nat × α)}

theorem holds_empty : (empty : Dispatcher α).Holds [] :=
  ⟨rfl, by simp, .nil, by simp⟩

section

variable (holds : d.Holds standing)
include holds

theorem Holds.snapshot : d.snapshot = standing.map (·.2) := by
  rw [Dispatcher.snapshot, holds.order, filterMap_map, ← filterMap_eq_map]
  exact filterMap_congr holds.found

theorem Holds.size : d.size = standing.length :=
  (congrArg List.length holds.order).trans (length_map _)

theorem Holds.register (listener : α)
    : (d.register listener).2.Holds (standing ++ [(d.nextId, listener)]) where
  order := by simp [Dispatcher.register, holds.order]
  found r member := by
    rcases mem_append.mp member with old | new
    · have other : (r.1 == d.nextId) = false := beq_eq_false_iff_ne.mpr (Nat.ne_of_lt (holds.below r old))
      simp [Dispatcher.register, lookup_cons, other, holds.found r old]
    · rw [mem_singleton.mp new]
      simp [Dispatcher.register]
  ascending := pairwise_append.mpr ⟨holds.ascending, pairwise_singleton _ _,
    fun r old new member => mem_singleton.mp member ▸ holds.below r old⟩
  below r member := by
    rcases mem_append.mp member with old | new
    · exact Nat.lt_succ_of_lt (holds.below r old)
    · rw [mem_singleton.mp new]
      exact Nat.lt_succ_self _

/-- Taking a registration back leaves every other where it is. -/
theorem Holds.unregister (number : Nat)
    : (d.unregister number).Holds (standing.filter (·.1 != number)) where
  order := by
    have nodup : (standing.map (·.1)).Nodup :=
      pairwise_map.mpr (holds.ascending.imp Nat.ne_of_lt)
    rw [Dispatcher.unregister, holds.order, nodup.erase_eq_filter, filter_map]
    rfl
  found r member := by
    obtain ⟨old, other⟩ := mem_filter.mp member
    exact (lookup_filter_ne (bne_iff_ne.mp other)).trans (holds.found r old)
  ascending := holds.ascending.filter _
  below r member := holds.below r (mem_of_mem_filter member)

end

/-- A call to a register: a registration, the taking back of the registration with a number, or a look at
the listeners.
-/
inductive Call (α : Type) where
  | register (listener : α)
  | unregister (number : Nat)
  | look

def Call.isRegister : Call α → Bool
  | register _ => true
  | _ => false

def Call.isLook : Call α → Bool
  | look => true
  | _ => false

def call (d : Dispatcher α) : Call α → Dispatcher α
  | .register listener => (d.register listener).2
  | .unregister number => d.unregister number
  | .look => d

def callAll (d : Dispatcher α) (calls : List (Call α)) : Dispatcher α :=
  calls.foldl call d

/-- What is seen at the looks among some calls, in order. -/
def seen (d : Dispatcher α) : List (Call α) → List (List α)
  | [] => []
  | .look :: rest => d.snapshot :: d.seen rest
  | c :: rest => (d.call c).seen rest

/-- A listener was registered by the registration with a number, counted from zero, which was not taken
back since.
-/
def Call.Stands (calls : List (Call α)) (number : Nat) (listener : α) : Prop :=
  ∃ before later, calls = before ++ .register listener :: later
    ∧ before.countP Call.isRegister = number ∧ .unregister number ∉ later

/-- The registrations that stand after some calls, in order. -/
structure Call.Standing (calls : List (Call α)) (standing : List (Nat × α)) : Prop where
  ascending : standing.Pairwise (·.1 < ·.1)
  exact : ∀ number listener, (number, listener) ∈ standing ↔ Stands calls number listener

variable {calls : List (Call α)}

theorem Call.stands_concat {c number listener}
    : Stands (calls ++ [c]) number listener
      ↔ Stands calls number listener ∧ c ≠ .unregister number
        ∨ number = calls.countP Call.isRegister ∧ c = .register listener := by
  constructor
  · rintro ⟨before, later, split, count, kept⟩
    rcases eq_nil_or_concat later with rfl | ⟨later, last, rfl⟩
    · obtain ⟨rfl, same⟩ := append_inj' split rfl
      exact Or.inr ⟨count.symm, (List.cons.inj same).1⟩
    · rw [concat_eq_append, ← cons_append, ← append_assoc] at split
      obtain ⟨rfl, same⟩ := append_inj' split rfl
      obtain rfl := (List.cons.inj same).1
      rw [concat_eq_append, mem_append, not_or, mem_singleton] at kept
      exact Or.inl ⟨⟨before, later, rfl, count, kept.1⟩, Ne.symm kept.2⟩
  · rintro (⟨⟨before, later, rfl, count, kept⟩, other⟩ | ⟨rfl, rfl⟩)
    · refine ⟨before, later ++ [c], by simp, count, fun member => ?_⟩
      rcases mem_append.mp member with old | new
      · exact kept old
      · exact other (mem_singleton.mp new).symm
    · exact ⟨calls, [], rfl, rfl, not_mem_nil⟩

/-- After any calls a register holds the registrations that stand, and its next number is how many there
were. The induction is on the calls from the last, since what stands depends on what comes later.
-/
theorem holds_callAll (calls : List (Call α))
    : ((empty.callAll calls).nextId = calls.countP Call.isRegister)
      ∧ ∃ standing, (empty.callAll calls).Holds standing ∧ Call.Standing calls standing := by
  induction calls using List.reverseRecOn with
  | nil =>
    refine ⟨rfl, [], holds_empty, .nil, fun number listener => ?_⟩
    simp [Call.Stands]
  | append_singleton calls c ih =>
    obtain ⟨next, standing, holds, stands⟩ := ih
    have last : empty.callAll (calls ++ [c]) = (empty.callAll calls).call c := foldl_concat ..
    rw [last, countP_append]
    cases c with
    | register listener =>
      refine ⟨congrArg (· + 1) next, _, holds.register listener, (holds.register listener).ascending,
        fun number listener' => ?_⟩
      rw [mem_append, stands.exact, Call.stands_concat, mem_singleton, next]
      simp [eq_comm]
    | unregister back =>
      refine ⟨next, _, holds.unregister back, (holds.unregister back).ascending,
        fun number listener => ?_⟩
      rw [mem_filter, stands.exact, Call.stands_concat]
      simp [eq_comm (a := back)]
    | look =>
      refine ⟨next, standing, holds, stands.ascending, fun number listener => ?_⟩
      rw [stands.exact, Call.stands_concat]
      simp

theorem seen_append (d : Dispatcher α) (before later : List (Call α))
    : d.seen (before ++ later) = d.seen before ++ (d.callAll before).seen later := by
  induction before generalizing d with
  | nil => rfl
  | cons c rest ih => cases c <;> simp [seen, callAll, call, ih]

theorem length_seen (d : Dispatcher α) (calls : List (Call α))
    : (d.seen calls).length = calls.countP Call.isLook := by
  induction calls generalizing d with
  | nil => rfl
  | cons c rest ih => cases c <;> simp [seen, countP_cons, Call.isLook, ih]

/-- A register is the ordered list of the registrations that stand: it lists their listeners and counts
them, the next registration gets the number of those before it, taking one back takes away no other, and
what was seen at a look is what stood then, whatever was called later.
-/
theorem callAll_lists (calls : List (Call α))
    : ∃ standing, Call.Standing calls standing
      ∧ (empty.callAll calls).snapshot = standing.map (·.2)
      ∧ (empty.callAll calls).size = standing.length
      ∧ (∀ listener,
        ((empty.callAll calls).register listener).1 = calls.countP Call.isRegister)
      ∧ (∀ number, ((empty.callAll calls).unregister number).snapshot
        = (standing.filter (·.1 != number)).map (·.2))
      ∧ ∀ before later, calls = before ++ .look :: later
        → ∃ stood, Call.Standing before stood
          ∧ (empty.seen calls)[before.countP Call.isLook]? = some (stood.map (·.2)) := by
  obtain ⟨next, standing, holds, stands⟩ := holds_callAll calls
  refine ⟨standing, stands, holds.snapshot, holds.size, fun _ => next,
    fun number => (holds.unregister number).snapshot, ?_⟩
  rintro before later rfl
  obtain ⟨-, stood, held, stands⟩ := holds_callAll before
  refine ⟨stood, stands, ?_⟩
  rw [seen_append, ← length_seen empty before, List.getElem?_append_right (Nat.le_refl _), Nat.sub_self]
  exact congrArg some held.snapshot

end MapAlgebra.Dispatcher
