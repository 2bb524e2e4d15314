import Mathlib.Data.List.Basic
import MapAlgebra.Files.Tree

/-! Where paths lead. Two absolute paths lead to one place if and only if they are the same once they are
clean, so writing a file changes what is read along exactly those paths.
-/

namespace MapAlgebra

open List
open Path

variable {α : Type}

theorem not_mem_of_splitOn [BEq α] [LawfulBEq α] {x} {xs part : List α}
    (member : part ∈ xs.splitOn x)
    : x ∉ part := by
  induction xs generalizing part with
  | nil =>
    rw [splitOn_nil, mem_singleton] at member
    exact member ▸ not_mem_nil
  | cons a rest ih =>
    rw [splitOn_cons_eq_if_modifyHead] at member
    obtain ⟨first, others, split⟩ := exists_cons_of_ne_nil (splitOn_ne_nil x rest)
    rw [split] at member ih
    split at member
    · rcases mem_cons.mp member with rfl | later
      · exact not_mem_nil
      · exact ih later
    · next other =>
      rcases mem_cons.mp member with rfl | later
      · rintro (_ | ⟨_, inside⟩)
        · exact other (beq_self_eq_true x)
        · exact ih (mem_cons_self ..) inside
      · exact ih (mem_cons_of_mem _ later)

theorem lookup_filter_ne {κ : Type} [BEq κ] [LawfulBEq κ] {table : List (κ × α)} {key other}
    (apart : key ≠ other)
    : (table.filter (·.1 != other)).lookup key = table.lookup key := by
  induction table with
  | nil => rfl
  | cons entry rest ih =>
    obtain ⟨key', value⟩ := entry
    have skipped : (key == other) = false := beq_eq_false_iff_ne.mpr apart
    by_cases here : key' = other
    · simp [here, ih, lookup_cons, skipped]
    · simp [here, ih, lookup_cons]

namespace Path

/-- The name of a file or folder, as it stands in a path. -/
structure IsName (part : String) : Prop where
  nonempty : part ≠ ""
  notUp : part ≠ ".."
  whole : '/' ∉ part.toList

variable {part path : String} {above : List String}

theorem whole_of_parts (member : part ∈ parts path) : '/' ∉ part.toList := by
  obtain ⟨chars, split, rfl⟩ := mem_map.mp member
  rw [String.toList_ofList]
  exact not_mem_of_splitOn split

/-- A walk from the root goes through names: a step up takes one back. -/
theorem isName_step (names : ∀ name ∈ above, IsName name) (whole : '/' ∉ part.toList)
    : ∀ name ∈ step true above part, IsName name := by
  unfold step
  split
  · exact names
  · next proper =>
    simp only [Bool.or_eq_true, decide_eq_true_eq, not_or] at proper
    split
    · cases above with
      | nil => exact names
      | cons last more =>
        obtain ⟨top, under⟩ := forall_mem_cons.mp names
        simpa only [if_neg top.notUp] using under
    · next down => exact forall_mem_cons.mpr ⟨⟨proper.1, down, whole⟩, names⟩

theorem isName_foldl {parts : List String} (whole : ∀ part ∈ parts, '/' ∉ part.toList)
    (names : ∀ name ∈ above, IsName name)
    : ∀ name ∈ parts.foldl (step true) above, IsName name := by
  induction parts generalizing above with
  | nil => exact names
  | cons part rest ih =>
    obtain ⟨first, others⟩ := forall_mem_cons.mp whole
    exact ih others (isName_step names first)

/-- The names on the way from the root to where an absolute path leads. -/
def names (path : String) : List String :=
  ((parts path).foldl (step true) []).reverse

theorem isName_of_names (path) : ∀ name ∈ names path, IsName name := fun name member =>
  isName_foldl (fun _ => whole_of_parts) (fun _ none => absurd none not_mem_nil) name
    (mem_reverse.mp member)

/-- Names that are joined can be told apart again. -/
theorem filter_parts_intercalate {names} (proper : ∀ part ∈ names, IsName part)
    : (parts ("/".intercalate names)).filter (· ≠ "") = names := by
  rcases eq_or_ne names [] with rfl | some
  · rfl
  · have whole : ∀ chars ∈ names.map String.toList, '/' ∉ chars := by
      intro chars member
      obtain ⟨part, inside, rfl⟩ := mem_map.mp member
      exact (proper part inside).whole
    have split : parts ("/".intercalate names) = names := by
      rw [parts, String.toList_intercalate]
      refine (congrArg _ (splitOn_intercalate '/' whole (by simpa using some))).trans ?_
      simp
    rw [split]
    exact filter_eq_self.mpr fun part member => decide_eq_true (proper part member).nonempty

theorem clean_eq_iff {path'} (rooted : isAbsolute path = true) (rooted' : isAbsolute path' = true)
    : clean path = clean path' ↔ names path = names path' := by
  have shown {path : String} (rooted : isAbsolute path = true)
      : clean path = "/" ++ "/".intercalate (names path) := by
    rw [clean, rooted]
    rfl
  rw [shown rooted, shown rooted']
  refine ⟨fun same => ?_, fun same => by rw [same]⟩
  rw [← filter_parts_intercalate (isName_of_names path), ← filter_parts_intercalate (isName_of_names path'),
    (String.append_right_inj _).mp same]

theorem isAbsolute_clean (rooted : isAbsolute path = true) : isAbsolute (clean path) = true := by
  rw [clean, rooted]
  simp [isAbsolute]

end Path

namespace FileTree

variable {tree tree' : FileTree} {here place : FilePlace}

variable {part path : String} {rest parts : List String} {contents : Bytes} {node : FileNode}

/-- Following a part from a folder is a step of a walk from the root. -/
theorem follow_cons (folder : tree.node? here = some .folder)
    (names : ∀ name ∈ here, IsName name)
    : tree.follow here (part :: rest) = tree.follow (step true here.reverse part).reverse rest := by
  rw [follow, folder]
  unfold step
  dsimp only
  split
  · rw [reverse_reverse]
  · split
    · rcases eq_nil_or_concat here with rfl | ⟨above, last, rfl⟩
      · rfl
      · have notUp : last ≠ ".." := (names last (by simp)).notUp
        simp [notUp]
    · rw [reverse_cons, reverse_reverse]

theorem folder_of_follow (found : tree.follow here (part :: rest) = .ok place)
    : tree.node? here = some .folder := by
  rw [follow] at found
  split at found
  · cases found
  · cases found
  · assumption

theorem follow_eq (whole : ∀ part ∈ parts, '/' ∉ part.toList)
    (names : ∀ name ∈ here, IsName name) (found : tree.follow here parts = .ok place)
    : place = (parts.foldl (step true) here.reverse).reverse := by
  induction parts generalizing here with
  | nil => exact (Except.ok.inj found).symm.trans (reverse_reverse here).symm
  | cons part rest ih =>
    obtain ⟨first, others⟩ := forall_mem_cons.mp whole
    rw [follow_cons (folder_of_follow found) names] at found
    have names' := isName_step (fun name member => names name (mem_reverse.mp member)) first
    rw [ih others (fun name member => names' name (mem_reverse.mp member)) found,
      reverse_reverse]
    rfl

theorem place_eq_names (rooted : isAbsolute path = true) (found : tree.place path = .ok place)
    : place = names path := by
  rw [FileTree.place, if_pos rooted] at found
  split at found
  · cases found
  · exact follow_eq (fun _ => whole_of_parts) (fun _ none => absurd none not_mem_nil) found

theorem node?_put (tree : FileTree) (place here contents) (new : tree.node? place ≠ some .folder)
    : (tree.put place (.file contents)).node? here
      = if here = place then some (.file contents) else tree.node? here := by
  unfold node? put
  split
  · next root =>
    rw [if_neg]
    rintro rfl
    exact new (if_pos root)
  · split
    · next same => rw [same, lookup_cons_self]
    · next other => rw [lookup_cons, beq_eq_false_iff_ne.mpr other, lookup_filter_ne other]

/-- A new file blocks no way that there was. -/
theorem follow_put {there} (new : tree.node? place ≠ some .folder)
    (found : tree.follow here parts = .ok there)
    : (tree.put place (.file contents)).follow here parts = .ok there := by
  induction parts generalizing here with
  | nil => exact found
  | cons part rest ih =>
    have folder := folder_of_follow found
    have apart : here ≠ place := by
      rintro rfl
      exact new folder
    rw [follow, folder] at found
    rw [follow, node?_put tree place here contents new, if_neg apart, folder]
    dsimp only at found ⊢
    split at found
    · next stays => exact (if_pos stays).trans (ih found)
    · next goes =>
      rw [if_neg goes]
      split at found
      · next up => exact (if_pos up).trans (ih found)
      · next down => exact (if_neg down).trans (ih found)

theorem find_eq_ok
    : tree.find path = .ok node
      ↔ ∃ place, tree.place path = .ok place ∧ tree.node? place = some node := by
  unfold find
  cases tree.place path with
  | error fault => simp [bind, Except.bind]
  | ok place =>
    simp only [bind, Except.bind, Except.ok.injEq, exists_eq_left']
    cases tree.node? place <;> simp

/-- A file that is written is found along every path that leads to it, and nothing else changes that could
be found before.
-/
theorem find_write {path'} (rooted : isAbsolute path = true)
    (rooted' : isAbsolute path' = true) (written : tree.write path contents = .ok tree')
    (found : tree.find path' = .ok node)
    : tree'.find path'
      = .ok (if clean path = clean path' then .file contents else node) := by
  unfold write at written
  split at written
  · cases written
  · next place way =>
    split at written
    · cases written
    · next new =>
      obtain rfl := Except.ok.inj written
      obtain ⟨place', way', here⟩ := find_eq_ok.mp found
      have way'' : (tree.put place (.file contents)).place path' = .ok place' := by
        unfold FileTree.place at way' ⊢
        rw [if_pos rooted'] at way' ⊢
        split at way'
        · cases way'
        · next some => exact (if_neg some).trans (follow_put new way')
      have same : place' = place ↔ clean path = clean path' := by
        rw [place_eq_names rooted way, place_eq_names rooted' way', clean_eq_iff rooted rooted',
          eq_comm]
      refine find_eq_ok.mpr ⟨place', way'', ?_⟩
      rw [node?_put tree place place' contents new, here]
      simp only [same]
      split <;> rfl

theorem read_write {path'} (rooted : isAbsolute path = true)
    (rooted' : isAbsolute path' = true) (written : tree.write path contents = .ok tree')
    (found : tree.find path' = .ok node)
    : tree'.read path'
      = if clean path = clean path' then .ok contents else tree.read path' := by
  have there := find_write rooted rooted' written found
  by_cases same : clean path = clean path'
  · rw [if_pos same] at there ⊢
    rw [read, there]
  · rw [if_neg same] at there ⊢
    rw [read, read, there, found]

end FileTree

end MapAlgebra
