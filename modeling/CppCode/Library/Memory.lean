import Mathlib.Logic.Function.Basic

/-!
# Blocks of memory

A memory of blocks that are allocated in turn and may be freed. What a step of a program does to
it is data, an `Effect`: it frees a block, writes one, or frees one and allocates another. A
pointer into a block shows a view of what the block holds; after an effect it still shows the same
exactly when the effect keeps the view (`shows_after_iff`).
-/

namespace CppCode.Library

/-- Blocks by their number, `none` where there is none any more, and the number of the next one. -/
structure Memory (β : Type) where
  /-- What a block holds. -/
  blocks : Nat → Option β
  /-- The next block to be allocated. -/
  next : Nat

/-- What is done to a memory. -/
inductive Effect (β : Type)
  /-- Nothing. -/
  | keep
  /-- A block is freed, or the null pointer. -/
  | free (block : Option Nat)
  /-- A block is written. -/
  | write (block : Nat) (content : β)
  /-- A block is freed, or the null pointer, and another one is allocated. -/
  | replace (block : Option Nat) (content : β)

section Memory

variable {β γ : Type}

/-- The memory without any block. -/
def Memory.empty : Memory β := ⟨fun _ => none, 0⟩

/-- Free a block, or the null pointer. -/
def Memory.without (memory : Memory β) : Option Nat → Memory β
  | none => memory
  | some block => { memory with blocks := Function.update memory.blocks block none }

/-- The memory after an effect. -/
def Memory.after (memory : Memory β) : Effect β → Memory β
  | .keep => memory
  | .free block => memory.without block
  | .write block content =>
    { memory with blocks := Function.update memory.blocks block (some content) }
  | .replace block content =>
    { blocks := Function.update (memory.without block).blocks memory.next (some content)
      next := memory.next + 1 }

/-- A pointer into a block shows a value: the block is there and looks so. -/
def Memory.Shows (memory : Memory β) (block : Nat) (view : β → γ) (value : γ) : Prop :=
  (memory.blocks block).map view = some value

instance [DecidableEq γ] (memory : Memory β) (block : Nat) (view : β → γ) (value : γ) :
    Decidable (memory.Shows block view value) :=
  inferInstanceAs (Decidable (_ = _))

/-- The effect leaves what a pointer shows as it is. -/
def Effect.Keeps (block : Nat) (view : β → γ) (value : γ) : Effect β → Prop
  | .keep => True
  | .free freed => freed ≠ some block
  | .write written content => written = block → view content = value
  | .replace freed _ => freed ≠ some block

instance [DecidableEq γ] (block : Nat) (view : β → γ) (value : γ) (effect : Effect β) :
    Decidable (effect.Keeps block view value) := by
  cases effect <;> unfold Effect.Keeps <;> infer_instance

/-- The other blocks are not freed. -/
theorem without_blocks (memory : Memory β) {freed : Option Nat} {block : Nat}
    (other : freed ≠ some block) : (memory.without freed).blocks block = memory.blocks block := by
  cases freed with
  | none => rfl
  | some number => exact Function.update_of_ne (fun same => other (congrArg some same.symm)) _ _

/-- A freed block is not there. -/
theorem without_self (memory : Memory β) (block : Nat) :
    (memory.without (some block)).blocks block = none :=
  Function.update_self ..

/-- Blocks are not taken back. -/
theorem next_le_after (memory : Memory β) (effect : Effect β) :
    memory.next ≤ (memory.after effect).next := by
  cases effect with
  | keep => exact Nat.le_refl _
  | free block => cases block <;> exact Nat.le_refl _
  | write => exact Nat.le_refl _
  | replace => exact Nat.le_succ _

/-- What a pointer shows, it shows after an effect exactly when the effect keeps it. -/
theorem shows_after_iff {memory : Memory β} {block : Nat} {view : β → γ} {value : γ}
    (allocated : block < memory.next) (shows : memory.Shows block view value)
    (effect : Effect β) :
    (memory.after effect).Shows block view value ↔ effect.Keeps block view value := by
  have freed (number : Option Nat) :
      (memory.without number).Shows block view value ↔ number ≠ some block := by
    by_cases same : number = some block
    · refine iff_of_false ?_ (not_not_intro same)
      rw [same, Memory.Shows, without_self]
      exact fun none => by cases none
    · refine iff_of_true ?_ same
      rw [Memory.Shows, without_blocks memory same]
      exact shows
  cases effect with
  | keep => exact iff_of_true shows trivial
  | free number => exact freed number
  | write number content =>
    by_cases same : number = block
    · obtain rfl := same
      simp [Memory.after, Memory.Shows, Effect.Keeps]
    · refine iff_of_true ?_ fun equal => absurd equal same
      rw [Memory.Shows, Memory.after]
      simp only
      rw [Function.update_of_ne (Ne.symm same)]
      exact shows
  | replace number content =>
    have old : ((memory.after (.replace number content)).blocks block) =
        (memory.without number).blocks block :=
      Function.update_of_ne (Nat.ne_of_lt allocated) _ _
    rw [Memory.Shows, old]
    exact freed number

end Memory

end CppCode.Library
