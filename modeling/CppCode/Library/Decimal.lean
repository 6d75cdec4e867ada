import Mathlib.Data.Nat.Digits.Lemmas

/-!
# Decimal numerals as bytes

Numerals are written most significant digit first, without leading zeros. `digitsValue` reads
a run of digit bytes with one accumulator; `digitsValue_decimal` is the round trip, for every
natural number, and `decimal_digit` says that a numeral is made of digit bytes alone.
-/

namespace CppCode.Library

/-- Whether a byte is an ASCII decimal digit. -/
def isDigit (byte : UInt8) : Bool := 48 ≤ byte && byte ≤ 57

/-- The value of a digit byte. -/
def digitValue (byte : UInt8) : Nat := byte.toNat - 48

/-- The value of a hexadecimal digit, in either case. -/
def nibble (byte : UInt8) : Option Nat :=
  if isDigit byte then some (byte.toNat - 48)
  else if 97 ≤ byte ∧ byte ≤ 102 then some (byte.toNat - 87)
  else if 65 ≤ byte ∧ byte ≤ 70 then some (byte.toNat - 55)
  else none

/-- The byte of a digit. -/
def digitByte (digit : Nat) : UInt8 := UInt8.ofNat (48 + digit)

/-- The numeral of a natural number in base ten. -/
def decimal (value : Nat) : List UInt8 :=
  if value = 0 then [48] else (Nat.digits 10 value).reverse.map digitByte

/-- The number that a list of digit bytes denotes. -/
def digitsValue (bytes : List UInt8) : Nat :=
  bytes.foldl (fun value byte => 10 * value + digitValue byte) 0

/-- Digit bytes of digits below ten are digits of the same value. -/
theorem digitByte_spec {digit : Nat} (small : digit < 10) :
    isDigit (digitByte digit) = true ∧ digitValue (digitByte digit) = digit := by
  have bound : (UInt8.ofNat (48 + digit)).toNat = 48 + digit := by
    simp only [UInt8.toNat_ofNat']
    omega
  constructor
  · simp only [isDigit, digitByte, Bool.and_eq_true, decide_eq_true_eq, UInt8.le_iff_toNat_le,
      bound]
    exact ⟨Nat.le_add_right 48 digit, by change 48 + digit ≤ 57; omega⟩
  · simp only [digitValue, digitByte, bound]
    omega

/-- Every byte of a numeral is a digit. -/
theorem decimal_digit (value : Nat) : ∀ byte ∈ decimal value, isDigit byte = true := by
  intro byte member
  unfold decimal at member
  split at member
  · obtain rfl := List.mem_singleton.mp member
    decide
  · obtain ⟨digit, inside, rfl⟩ := List.mem_map.mp member
    exact (digitByte_spec (Nat.digits_lt_base (by decide) (List.mem_reverse.mp inside))).1

/-- A numeral has at least one digit. -/
theorem decimal_ne_nil (value : Nat) : decimal value ≠ [] := by
  unfold decimal
  split
  · simp
  · rename_i nonzero
    simp [Nat.digits_ne_nil_iff_ne_zero.mpr nonzero]

/-- The numeral of a number below ten is its digit. -/
theorem decimal_of_lt {value : Nat} (small : value < 10) : decimal value = [digitByte value] := by
  unfold decimal
  split
  · rename_i zero
    subst zero
    rfl
  · rename_i nonzero
    simp [Nat.digits_of_lt 10 value nonzero small]

/-- The numeral of a greater number ends with its last digit. -/
theorem decimal_of_ge {value : Nat} (large : 10 ≤ value) :
    decimal value = decimal (value / 10) ++ [digitByte (value % 10)] := by
  have nonzero : value ≠ 0 := by omega
  have front : value / 10 ≠ 0 := by omega
  rw [decimal, if_neg nonzero, decimal, if_neg front,
    Nat.digits_def' (by decide) (Nat.pos_of_ne_zero nonzero)]
  simp

/-- Reading digits back from the most significant one is evaluation in base ten. -/
theorem digitsValue_reverse (digits : List Nat) (small : ∀ digit ∈ digits, digit < 10) :
    digitsValue (digits.reverse.map digitByte) = Nat.ofDigits 10 digits := by
  induction digits with
  | nil => rfl
  | cons digit rest ih =>
    have tail := ih fun other member => small other (List.mem_cons_of_mem digit member)
    have head := (digitByte_spec (small digit List.mem_cons_self)).2
    simp only [digitsValue] at tail
    simp only [digitsValue, List.reverse_cons, List.map_append, List.map_cons, List.map_nil,
      List.foldl_append, List.foldl_cons, List.foldl_nil, tail, head, Nat.ofDigits_cons]
    omega

/-- Reading a numeral returns its number. -/
theorem digitsValue_decimal (value : Nat) : digitsValue (decimal value) = value := by
  unfold decimal
  split
  · rename_i zero
    subst zero
    decide
  · rw [digitsValue_reverse _ fun digit => Nat.digits_lt_base (by decide),
      Nat.ofDigits_digits]

/-- A numeral has at most as many digits as the power of ten above its number. -/
theorem length_decimal_le_iff {value count : Nat} (positive : 0 < count) :
    (decimal value).length ≤ count ↔ value < 10 ^ count := by
  unfold decimal
  split
  · rename_i zero
    subst zero
    simp only [List.length_singleton]
    exact iff_of_true positive (Nat.pow_pos (by decide))
  · rw [List.length_map, List.length_reverse]
    exact Nat.digits_length_le_iff (by decide) value

end CppCode.Library
