import CppCode.Library.Words

/-!
# Hashing in blocks

A hash function of the Merkle–Damgård kind compresses a message block by block. A message is padded
with a marker, zeros and its length in bits, so that it becomes whole blocks. Who hashes a message
that arrives in parts keeps the state after the whole blocks and the bytes of the unfinished one:
`absorb_append` says that this is enough.
-/

namespace CppCode.Library

/-- A compression function on blocks of `size` bytes, and the state before the first block. -/
structure BlockHash (σ : Type*) where
  /-- Length of a block. -/
  size : Nat
  /-- Mix one block into the state. -/
  compress : σ → List UInt8 → σ
  /-- The state before the first block. -/
  start : σ
  /-- The bits of a message length, as the last eight bytes. -/
  length : Nat → List UInt8
  /-- A block has room for the marker and the length. -/
  room : 9 ≤ size
  /-- The length has eight bytes. -/
  eight : ∀ bits, (length bits).length = 8

namespace BlockHash

variable {σ : Type*} (hash : BlockHash σ)

/-- Compress some blocks at the front of the bytes. -/
def absorbBlocks : Nat → σ → List UInt8 → σ × List UInt8
  | 0, state, bytes => (state, bytes)
  | count + 1, state, bytes =>
    absorbBlocks count (hash.compress state (bytes.take hash.size)) (bytes.drop hash.size)

/-- Compress the whole blocks: the state after them, and the bytes that are left. -/
def absorb (state : σ) (bytes : List UInt8) : σ × List UInt8 :=
  hash.absorbBlocks (bytes.length / hash.size) state bytes

/-- The zeros between the marker and the length of a message. -/
def zeros (length : Nat) : Nat := (2 * hash.size - 9 - length % hash.size) % hash.size

/-- What is appended to a message of some length. -/
def padding (length : Nat) : List UInt8 :=
  0x80 :: (List.replicate (hash.zeros length) 0 ++ hash.length (8 * length))

/-- The state after a padded message. -/
def digest (message : List UInt8) : σ :=
  (hash.absorb hash.start (message ++ hash.padding message.length)).1

variable {hash}

/-- Less than a block is left. -/
theorem absorb_short {state : σ} {bytes : List UInt8} (short : bytes.length < hash.size) :
    hash.absorb state bytes = (state, bytes) := by
  rw [absorb, Nat.div_eq_of_lt short]
  rfl

/-- A whole block is compressed. -/
theorem absorb_step {state : σ} {bytes : List UInt8} (whole : hash.size ≤ bytes.length) :
    hash.absorb state bytes =
      hash.absorb (hash.compress state (bytes.take hash.size)) (bytes.drop hash.size) := by
  have room := hash.room
  have count : bytes.length / hash.size = (bytes.drop hash.size).length / hash.size + 1 := by
    rw [List.length_drop, ← Nat.div_eq_sub_div (by omega) whole]
  rw [absorb, count]
  rfl

/-- What is left is shorter than a block, and what was compressed is whole blocks. -/
theorem length_absorb (state : σ) (bytes : List UInt8) :
    (hash.absorb state bytes).2.length = bytes.length % hash.size := by
  have room := hash.room
  by_cases short : bytes.length < hash.size
  · rw [absorb_short short, Nat.mod_eq_of_lt short]
  · have step := @absorb_step _ hash state bytes (by omega)
    have shorter : (bytes.drop hash.size).length < bytes.length := by
      rw [List.length_drop]
      omega
    rw [step, length_absorb _ (bytes.drop hash.size), List.length_drop,
      ← Nat.mod_eq_sub_mod (by omega)]
termination_by bytes.length

/-- Bytes that follow are absorbed behind what is left. -/
theorem absorb_append (state : σ) (bytes more : List UInt8) :
    hash.absorb state (bytes ++ more) =
      hash.absorb (hash.absorb state bytes).1 ((hash.absorb state bytes).2 ++ more) := by
  have room := hash.room
  by_cases short : bytes.length < hash.size
  · rw [absorb_short short]
  · have whole : hash.size ≤ bytes.length := by omega
    have shorter : (bytes.drop hash.size).length < bytes.length := by
      rw [List.length_drop]
      omega
    have longer : hash.size ≤ (bytes ++ more).length := by
      rw [List.length_append]
      omega
    rw [absorb_step longer, absorb_step whole, List.take_append_of_le_length whole,
      List.drop_append_of_le_length whole, absorb_append _ (bytes.drop hash.size) more]
termination_by bytes.length

/-- The marker and the length take nine bytes of the padding. -/
theorem length_padding (length : Nat) : (hash.padding length).length = hash.zeros length + 9 := by
  rw [padding, List.length_cons, List.length_append, List.length_replicate, hash.eight]

/-- A padded message is whole blocks. -/
theorem padded_whole (length : Nat) :
    (length + (hash.padding length).length) % hash.size = 0 := by
  have room := hash.room
  have rest : length % hash.size < hash.size := Nat.mod_lt _ (by omega)
  have parts := Nat.mod_add_div length hash.size
  rw [length_padding, zeros]
  generalize length % hash.size = left at *
  generalize length / hash.size = blocks at *
  have total : length + ((2 * hash.size - 9 - left) % hash.size + 9) =
      hash.size * blocks + (left + ((2 * hash.size - 9 - left) % hash.size + 9)) := by omega
  rw [total, Nat.mul_add_mod]
  by_cases fits : 2 * hash.size - 9 - left < hash.size
  · rw [Nat.mod_eq_of_lt fits]
    have two : left + (2 * hash.size - 9 - left + 9) = hash.size * 2 := by omega
    rw [two, Nat.mul_mod_right]
  · have fewer : (2 * hash.size - 9 - left) % hash.size = 2 * hash.size - 9 - left - hash.size := by
      rw [Nat.mod_eq_sub_mod (by omega), Nat.mod_eq_of_lt (by omega)]
    have one : left + (2 * hash.size - 9 - left - hash.size + 9) = hash.size := by omega
    rw [fewer, one, Nat.mod_self]

end BlockHash

end CppCode.Library
