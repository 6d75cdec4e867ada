import CppCode.Mongoose.Text

/-!
# Copies of C strings

The exported functions copy every string they are given with the same three statements:
`int len = strlen(s)`, `new char[len + 1]` and `strncpy(.., s, len + 1)`. For a string shorter
than `INT_MAX` the copy is the string with its `NUL`; the allocation throws when `len + 1` is not
a length, and a string of `2 ^ 32` bytes or more is cut without a `NUL`.
-/

namespace CppCode.Interfaces

open Library Mongoose

/-- `strlen` on the memory from a pointer on. -/
def strlen (memory : Bytes) : Nat := (memory.takeWhile (· != 0)).length

/-- `strncpy` of a number of bytes, which pads with zeros after the end of the string. -/
def strncpy (memory : Bytes) (count : Nat) : Bytes :=
  let text := (memory.takeWhile (· != 0)).take count
  text ++ List.replicate (count - text.length) 0

/-- The copy of a string; there is none when the length of the allocation is negative or
overflows, and `new` throws. -/
def newCopy (memory : Bytes) : Option Bytes :=
  let len := toInt (strlen memory)
  if -1 ≤ len ∧ len < intMax then some (strncpy memory (len + 1).toNat) else none

/-- The memory of a C string. -/
def cString (text : Bytes) : Bytes := text ++ [0]

/-- A text that a caller passes as a C string. -/
structure CText where
  /-- Its bytes before the terminating `NUL`. -/
  bytes : Bytes
  /-- It ends at its terminating `NUL`. -/
  plain : 0 ∉ bytes

/-- The C string at the start of a buffer, `none` when the buffer ends before a `NUL`. -/
def readCString (buffer : Bytes) : Option Bytes :=
  if 0 ∈ buffer then some (buffer.takeWhile (· != 0)) else none

variable {text : Bytes}

/-- The bytes of a text are not `NUL`. -/
theorem ne_zero_of_plain (plain : 0 ∉ text) : ∀ byte ∈ text, (byte != 0) = true := by
  intro byte member
  simp only [bne_iff_ne]
  rintro rfl
  exact plain member

/-- A C string ends at its `NUL`. -/
theorem takeWhile_cString (plain : 0 ∉ text) : (text ++ [0]).takeWhile (· != 0) = text := by
  rw [List.takeWhile_append_of_pos (ne_zero_of_plain plain)]
  simp

/-- The length of a C string. -/
theorem strlen_cString (plain : 0 ∉ text) : strlen (cString text) = text.length := by
  rw [strlen, cString, takeWhile_cString plain]

/-- A C string is read back from its memory. -/
theorem readCString_cString (plain : 0 ∉ text) : readCString (cString text) = some text := by
  rw [readCString, cString, if_pos (by simp), takeWhile_cString plain]

/-- A string shorter than `INT_MAX` is copied with its `NUL`. -/
theorem newCopy_short (plain : 0 ∉ text) (short : text.length < intMax) :
    newCopy (cString text) = some (cString text) := by
  have len : toInt (strlen (cString text)) = text.length := by
    rw [strlen_cString plain, toInt_of_le (le_of_lt short)]
  have rest : text.length + 1 - text.length = 1 := by omega
  have copied : strncpy (cString text) (text.length + 1) = cString text := by
    simp only [strncpy, cString, takeWhile_cString plain]
    rw [List.take_of_length_le (Nat.le_succ _), rest]
    rfl
  simp only [newCopy, len]
  rw [if_pos ⟨by omega, by omega⟩]
  exact congrArg some copied

/-- A copy is read as the string that was copied exactly when the string is shorter than
`INT_MAX`. -/
theorem newCopy_whole_iff (plain : 0 ∉ text) {buffer : Bytes}
    (copied : newCopy (cString text) = some buffer) :
    readCString buffer = some text ↔ text.length < intMax := by
  constructor
  · intro read
    by_contra long
    simp only [newCopy, strlen_cString plain, Option.ite_none_right_eq_some,
      Option.some.injEq] at copied
    obtain ⟨⟨_, below⟩, rfl⟩ := copied
    have cut : (toInt text.length + 1).toNat ≤ text.length := by
      have : (intMax : Int) ≤ text.length := by omega
      omega
    have unterminated : 0 ∉ strncpy (cString text) (toInt text.length + 1).toNat := by
      simp only [strncpy, cString, takeWhile_cString plain]
      rw [List.length_take, Nat.min_eq_left cut, Nat.sub_self, List.replicate_zero,
        List.append_nil]
      exact fun member => plain (List.mem_of_mem_take member)
    rw [readCString, if_neg unterminated] at read
    cases read
  · intro short
    rw [newCopy_short plain short] at copied
    obtain rfl := Option.some.inj copied
    exact readCString_cString plain

-- unfolding it on an unknown length would count up to `INT_MAX`
attribute [irreducible] newCopy

end CppCode.Interfaces
