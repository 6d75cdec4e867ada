import Mathlib.Data.List.Basic

/-!
# Blocks on a byte stream

Records of any type are put on a stream as blocks of one fixed size. A reader that starts at a
block boundary finds the blocks in order: dropping whole blocks from the stream drops as many
records, and the stream from a boundary on begins with the next block.
-/

namespace CppCode.Library

variable {α β : Type*} {block : α → List β} {size : Nat}

/-- The length of a stream of blocks. -/
theorem length_blocks (fixed : ∀ record, (block record).length = size) (records : List α) :
    (records.flatMap block).length = size * records.length := by
  induction records with
  | nil => rfl
  | cons record rest ih =>
    rw [List.flatMap_cons, List.length_append, fixed, ih, List.length_cons, Nat.mul_succ,
      Nat.add_comm]

/-- Dropping whole blocks drops their records. -/
theorem drop_blocks (fixed : ∀ record, (block record).length = size) (records : List α)
    (count : Nat) :
    (records.flatMap block).drop (size * count) = (records.drop count).flatMap block := by
  induction count generalizing records with
  | zero => rfl
  | succ count ih =>
    cases records with
    | nil => simp
    | cons record rest =>
      have whole : size * (count + 1) = (block record).length + size * count := by
        rw [fixed, Nat.mul_succ, Nat.add_comm]
      rw [List.flatMap_cons, whole, List.drop_length_add_append, List.drop_succ_cons, ih]

/-- A stream of blocks that is not empty begins with the block of a record. -/
theorem blocks_cons (records : List α) (nonempty : records.flatMap block ≠ []) :
    ∃ record rest, records = record :: rest := by
  cases records with
  | nil => simp at nonempty
  | cons record rest => exact ⟨record, rest, rfl⟩

end CppCode.Library
