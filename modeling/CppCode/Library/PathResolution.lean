import Mathlib.Data.List.Basic
import Mathlib.Data.List.TakeWhile

/-!
# Resolving paths

A path is a list of names. One name stays where it is and another goes back to the parent.
`resolve` follows the names from a path; `normalForm` writes the path they lead to, where an empty
name stands at the end for a name that was resolved. Neither leaves one of the two names
(`mem_resolve`), and a normal path stays as it is (`normalForm_normalForm`).
-/

namespace CppCode.Library

/-- A part between two separators has elements of the text other than the separator. -/
theorem mem_splitOn {α : Type*} [DecidableEq α] {separator a : α} {text part : List α}
    (here : part ∈ text.splitOn separator) (mem : a ∈ part) : a ∈ text ∧ a ≠ separator := by
  induction text generalizing part with
  | nil =>
    obtain rfl : part = [] := by simpa using here
    exact absurd mem List.not_mem_nil
  | cons first text ih =>
    have longer : a ∈ text ∧ a ≠ separator → a ∈ first :: text ∧ a ≠ separator :=
      fun found => ⟨List.mem_cons_of_mem first found.1, found.2⟩
    rw [List.splitOn_cons_eq_if_modifyHead] at here
    split_ifs at here with sign
    · rcases List.mem_cons.mp here with rfl | later
      · exact absurd mem List.not_mem_nil
      · exact longer (ih later mem)
    · obtain ⟨head, parts, split⟩ := List.exists_cons_of_ne_nil (List.splitOn_ne_nil separator text)
      rw [split, List.modifyHead_cons] at here
      rcases List.mem_cons.mp here with rfl | later
      · rcases List.mem_cons.mp mem with rfl | inside
        · exact ⟨List.mem_cons_self, by simpa using sign⟩
        · exact longer (ih (by rw [split]; exact List.mem_cons_self) inside)
      · exact longer (ih (by rw [split]; exact List.mem_cons_of_mem head later) mem)

/-- The first part of a text, and what is left at the separator. -/
theorem exists_part {α : Type*} [DecidableEq α] (separator : α) (text : List α) :
    ∃ part rest, text = part ++ rest ∧ separator ∉ part ∧ ∀ a ∈ rest.head?, a = separator := by
  refine ⟨text.takeWhile (· ≠ separator), text.dropWhile (· ≠ separator),
    List.takeWhile_append_dropWhile.symm, fun mem => ?_, fun a first => ?_⟩
  · have other := List.mem_takeWhile_imp mem
    simp at other
  · have other := List.head?_dropWhile_not (· ≠ separator) text
    rw [Option.mem_def.mp first] at other
    simpa using other

variable {Name : Type*} [DecidableEq Name] (self parent empty : Name)

/-- Follow a name from a path. The root is its own parent. -/
def resolveName (path : List Name) (name : Name) : List Name :=
  if name = self then path else if name = parent then path.dropLast else path ++ [name]

/-- Follow names from a path. -/
def resolve (path names : List Name) : List Name := names.foldl (resolveName self parent) path

/-- The path that names lead to, with an empty name at the end when the last one was resolved. -/
def normalForm (path names : List Name) : List Name :=
  resolve self parent path names ++
    if names.getLast? = some self ∨ names.getLast? = some parent then [empty] else []

variable {self parent empty} {path names : List Name}

theorem resolve_cons (name : Name) :
    resolve self parent path (name :: names) =
      resolve self parent (resolveName self parent path name) names := rfl

theorem resolve_concat (name : Name) :
    resolve self parent path (names ++ [name]) =
      resolveName self parent (resolve self parent path names) name := by
  simp [resolve]

/-- A name behind a step was there, or is the name of the step and leads to a child. -/
theorem mem_resolveName {name other : Name} (mem : other ∈ resolveName self parent path name) :
    other ∈ path ∨ other = name ∧ name ≠ self ∧ name ≠ parent := by
  unfold resolveName at mem
  by_cases here : name = self
  · rw [if_pos here] at mem
    exact .inl mem
  · rw [if_neg here] at mem
    by_cases back : name = parent
    · rw [if_pos back] at mem
      exact .inl (List.dropLast_subset path mem)
    · rw [if_neg back] at mem
      rcases List.mem_append.mp mem with before | last
      · exact .inl before
      · exact .inr ⟨List.mem_singleton.mp last, here, back⟩

/-- A name of a resolved path was there, or is one of those followed and leads to a child. -/
theorem mem_resolve {name : Name} (mem : name ∈ resolve self parent path names) :
    name ∈ path ∨ name ∈ names ∧ name ≠ self ∧ name ≠ parent := by
  induction names generalizing path with
  | nil => exact .inl mem
  | cons first names ih =>
    rw [resolve_cons] at mem
    rcases ih mem with before | ⟨later, plain⟩
    · rcases mem_resolveName before with there | ⟨rfl, plain⟩
      · exact .inl there
      · exact .inr ⟨List.mem_cons_self, plain⟩
    · exact .inr ⟨List.mem_cons_of_mem first later, plain⟩

/-- Names that lead to children are kept. -/
theorem resolve_plain (plain : ∀ name ∈ names, name ≠ self ∧ name ≠ parent) :
    resolve self parent path names = path ++ names := by
  induction names generalizing path with
  | nil => exact (List.append_nil path).symm
  | cons first names ih =>
    obtain ⟨here, back⟩ := plain first List.mem_cons_self
    rw [resolve_cons, ih fun name mem => plain name (List.mem_cons_of_mem first mem)]
    rw [resolveName, if_neg here, if_neg back, List.append_assoc, List.singleton_append]

/-- A step from a normal path. -/
theorem normalForm_cons {name : Name} (more : names ≠ []) :
    normalForm self parent empty path (name :: names) =
      normalForm self parent empty (resolveName self parent path name) names := by
  rw [normalForm, normalForm, resolve_cons, List.getLast?_cons_of_ne_nil more]

/-- A normal path has only names that lead to children. -/
theorem mem_normalForm {name : Name} (child : empty ≠ self ∧ empty ≠ parent)
    (mem : name ∈ normalForm self parent empty [] names) : name ≠ self ∧ name ≠ parent := by
  unfold normalForm at mem
  rcases List.mem_append.mp mem with inside | last
  · rcases mem_resolve inside with nothing | ⟨-, plain⟩
    · exact absurd nothing List.not_mem_nil
    · exact plain
  · by_cases dots : names.getLast? = some self ∨ names.getLast? = some parent
    · rw [if_pos dots, List.mem_singleton] at last
      rw [last]
      exact child
    · rw [if_neg dots] at last
      exact absurd last List.not_mem_nil

/-- A normal path has a name. -/
theorem normalForm_ne_nil (some_name : names ≠ []) :
    normalForm self parent empty path names ≠ [] := by
  rcases List.eq_nil_or_concat names with rfl | ⟨init, last, rfl⟩
  · exact absurd rfl some_name
  · rw [List.concat_eq_append, normalForm, resolve_concat, List.getLast?_concat, resolveName]
    by_cases here : last = self
    · simp [here]
    · by_cases back : last = parent
      · simp [back]
      · simp [here, back]

/-- A path is normal when its names lead to children. -/
theorem normalForm_plain (plain : ∀ name ∈ names, name ≠ self ∧ name ≠ parent) :
    normalForm self parent empty [] names = names := by
  have other : ¬(names.getLast? = some self ∨ names.getLast? = some parent) := by
    rintro (last | last)
    · exact (plain self (List.mem_of_getLast? last)).1 rfl
    · exact (plain parent (List.mem_of_getLast? last)).2 rfl
  rw [normalForm, resolve_plain plain, if_neg other, List.nil_append, List.append_nil]

/-- A normal path stays as it is. -/
theorem normalForm_normalForm (child : empty ≠ self ∧ empty ≠ parent) :
    normalForm self parent empty [] (normalForm self parent empty [] names) =
      normalForm self parent empty [] names :=
  normalForm_plain fun _ mem => mem_normalForm child mem

end CppCode.Library
