import Mathlib.Data.Nat.Digits.Lemmas

/-!
# Words as bytes

A number in a fixed count of bytes, least or most significant byte first. A number that fits is
read back, and the bytes of a number that was read are the bytes that it was read from.
-/

namespace CppCode.Library

/-- The low bytes of a number, least significant first. -/
def leBytes : Nat → Nat → List UInt8
  | 0, _ => []
  | count + 1, value => UInt8.ofNat value :: leBytes count (value / 256)

/-- The number that bytes denote, least significant first. -/
def leValue : List UInt8 → Nat
  | [] => 0
  | byte :: rest => byte.toNat + 256 * leValue rest

/-- The low bytes of a number, most significant first. -/
def beBytes (count value : Nat) : List UInt8 := (leBytes count value).reverse

/-- The number that bytes denote, most significant first. -/
def beValue (bytes : List UInt8) : Nat := leValue bytes.reverse

@[simp] theorem length_leBytes (count value : Nat) : (leBytes count value).length = count := by
  induction count generalizing value with
  | zero => rfl
  | succ count ih => simp [leBytes, ih]

@[simp] theorem length_beBytes (count value : Nat) : (beBytes count value).length = count := by
  simp [beBytes]

/-- Bytes denote a number below the power of their count. -/
theorem leValue_lt (bytes : List UInt8) : leValue bytes < 256 ^ bytes.length := by
  induction bytes with
  | nil => simp [leValue]
  | cons byte rest ih =>
    have small : byte.toNat < 256 := byte.toNat_lt
    rw [leValue, List.length_cons, Nat.pow_succ]
    omega

/-- Zero bytes denote 0. -/
theorem leValue_zeros (count : Nat) : leValue (List.replicate count 0) = 0 := by
  induction count with
  | zero => rfl
  | succ count ih => simp [List.replicate_succ, leValue, ih]

/-- The same, most significant byte first. -/
theorem beValue_lt (bytes : List UInt8) : beValue bytes < 256 ^ bytes.length := by
  simpa [beValue] using leValue_lt bytes.reverse

/-- The low bytes of a number denote its remainder. -/
theorem leValue_leBytes (count value : Nat) :
    leValue (leBytes count value) = value % 256 ^ count := by
  induction count generalizing value with
  | zero => simp [leBytes, leValue, Nat.mod_one]
  | succ count ih =>
    have low : (UInt8.ofNat value).toNat = value % 256 := UInt8.toNat_ofNat'
    rw [leBytes, leValue, ih, low, Nat.pow_succ', Nat.mod_mul]

/-- A number that fits is read back. -/
theorem leValue_leBytes_of_lt {count value : Nat} (fits : value < 256 ^ count) :
    leValue (leBytes count value) = value := by
  rw [leValue_leBytes, Nat.mod_eq_of_lt fits]

/-- The same, most significant byte first. -/
theorem beValue_beBytes_of_lt {count value : Nat} (fits : value < 256 ^ count) :
    beValue (beBytes count value) = value := by
  rw [beValue, beBytes, List.reverse_reverse, leValue_leBytes_of_lt fits]

end CppCode.Library
