import Mathlib.Data.List.Induction

/-!
# The life of a resource variable

A variable that holds a resource is empty at first. A call of a program may put a fresh resource
in it, release the resource without clearing the variable, or leave it alone. `lifeAfter` is the
state of the variable after any sequence of such uses, and `lifeAfter_released_iff` reads off the
sequence when the variable holds a resource that was released: there was a release after a
resource had been acquired, and none has been acquired since.
-/

namespace CppCode.Library

/-- What a variable holds. -/
inductive Life
  /-- No resource yet. -/
  | none
  /-- A resource that was not released. -/
  | live
  /-- A resource that was released. -/
  | released
  deriving DecidableEq, Repr

/-- What a call does with a variable. -/
inductive Use
  /-- It puts a fresh resource in it. -/
  | acquire
  /-- It releases the resource in it, if there is one. -/
  | release
  /-- It leaves it alone. -/
  | keep
  deriving DecidableEq, Repr

/-- What a variable holds after a use. -/
def Life.apply : Life → Use → Life
  | _, .acquire => .live
  | .live, .release => .released
  | life, _ => life

/-- What a variable holds after a sequence of uses. -/
def lifeAfter (uses : List Use) : Life := uses.foldl Life.apply .none

@[simp] theorem Life.apply_keep (life : Life) : life.apply .keep = life := by
  cases life <;> rfl

/-- One more use acts on what the variable holds. -/
theorem lifeAfter_concat (uses : List Use) (use : Use) :
    lifeAfter (uses ++ [use]) = (lifeAfter uses).apply use := by
  simp [lifeAfter]

/-- A variable is empty as long as no resource is acquired. -/
theorem lifeAfter_none_iff (uses : List Use) : lifeAfter uses = .none ↔ .acquire ∉ uses := by
  induction uses using List.reverseRecOn with
  | nil => simp [lifeAfter]
  | append_singleton uses use ih =>
    rw [lifeAfter_concat, List.mem_append, not_or, ← ih]
    cases use <;> cases lifeAfter uses <;> simp [Life.apply]

/-- A release after an acquisition that no acquisition follows. -/
def Stale (uses : List Use) : Prop :=
  ∃ before after, uses = before ++ .release :: after ∧ .acquire ∈ before ∧ .acquire ∉ after

/-- A further use keeps a sequence stale unless it acquires, and a release makes it stale when
there is something to release. -/
theorem stale_concat_iff (uses : List Use) (use : Use) :
    Stale (uses ++ [use]) ↔
      (Stale uses ∧ use ≠ .acquire) ∨ (use = .release ∧ .acquire ∈ uses) := by
  constructor
  · rintro ⟨before, after, split, acquired, since⟩
    rcases List.eq_nil_or_concat after with rfl | ⟨after, last, rfl⟩
    · obtain ⟨rfl, same⟩ := List.append_inj' split rfl
      exact .inr ⟨(List.cons.inj same).1, acquired⟩
    · rw [List.concat_eq_append] at split since
      have shape : uses ++ [use] = (before ++ .release :: after) ++ [last] := by simp [split]
      obtain ⟨rfl, same⟩ := List.append_inj' shape rfl
      obtain rfl := (List.cons.inj same).1
      rw [List.mem_append, not_or, List.mem_singleton] at since
      exact .inl ⟨⟨before, after, rfl, acquired, since.1⟩, fun other => since.2 other.symm⟩
  · rintro (⟨⟨before, after, rfl, acquired, since⟩, other⟩ | ⟨rfl, acquired⟩)
    · refine ⟨before, after ++ [use], by simp, acquired, ?_⟩
      rw [List.mem_append, not_or, List.mem_singleton]
      exact ⟨since, fun same => other same.symm⟩
    · exact ⟨uses, [], rfl, acquired, List.not_mem_nil⟩

/-- A variable holds a released resource exactly after a stale sequence of uses. -/
theorem lifeAfter_released_iff (uses : List Use) : lifeAfter uses = .released ↔ Stale uses := by
  induction uses using List.reverseRecOn with
  | nil => simp [lifeAfter, Stale]
  | append_singleton uses use ih =>
    have empty := lifeAfter_none_iff uses
    rw [lifeAfter_concat, stale_concat_iff, ← ih]
    cases held : lifeAfter uses <;> cases use <;> simp_all [Life.apply]

end CppCode.Library
