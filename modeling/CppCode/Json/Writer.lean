import CppCode.Json.Value
import CppCode.Library.JsonText

/-!
# `FastWriter`

The writer appends to one string, so that each function here returns what it appends. Numbers are
written digit by digit from the last one, and a negative `Int` through its negation as `UInt`.
Strings are copied between quotes when no byte needs an escape, and else escaped byte by byte;
control characters without a short escape are copied as they are.

`writeValue` follows the structure of the value: it writes all entries of a map first, and the
loops over indices and names then take the text of the entry that they look up
(`writeValue_array`, `writeValue_object`).
-/

namespace CppCode.Json

open Library Mongoose

/-- `isControlCharacter`. -/
def isControlCharacter (ch : UInt8) : Bool := 0 < ch && ch ≤ 0x1F

/-- `containsControlCharacter`. -/
def containsControlCharacter (str : Bytes) : Bool := str.any isControlCharacter

/-- The loop of `uintToString`, which writes digits before `current`; a `UInt` has at most ten. -/
def putDigits : Nat → UInt32 → Bytes → Bytes
  | 0, _, current => current
  | count + 1, value, current =>
    let digits := (value % 10 + 48).toUInt8 :: current
    let value := value / 10
    if value ≠ 0 then putDigits count value digits else digits

/-- `uintToString`. -/
def uintToString (value : UInt32) : Bytes := putDigits 10 value []

/-- `valueToString` of an `Int`. -/
def intToString (value : Int32) : Bytes :=
  let isNegative := value < 0
  let value := if isNegative then -value else value
  let digits := uintToString value.toUInt32
  if isNegative then 45 :: digits else digits

/-- `valueToString` of a `double`, from what `sprintf` wrote: zeros at the end of a fraction are
cut except for one. -/
def trimZeros (buffer : Bytes) : Bytes :=
  if buffer.getLast? ≠ some 48 then buffer
  else
    let lastNonzero := (buffer.reverse.dropWhile (· == 48)).length - 1
    let before := (buffer.take (lastNonzero + 1)).reverse.dropWhile isDigit
    if before.head? = some 46 then buffer.take (lastNonzero + 2) else buffer

/-- `valueToString` of a `bool`. -/
def boolToString (value : Bool) : Bytes := if value then ascii "true" else ascii "false"

/-- The characters that the shortcut of `valueToQuotedString` looks for. -/
def specials : Bytes := [34, 92, 8, 12, 10, 13, 9]

/-- What the loop of `valueToQuotedString` appends for a character. -/
def quoteCharacter (c : UInt8) : Bytes :=
  if c = 34 then [92, 34]
  else if c = 92 then [92, 92]
  else if c = 8 then [92, 98]
  else if c = 12 then [92, 102]
  else if c = 10 then [92, 110]
  else if c = 13 then [92, 114]
  else if c = 9 then [92, 116]
  else [c]

/-- `valueToQuotedString`. -/
def valueToQuotedString (value : Bytes) : Bytes :=
  if value.any specials.contains = false ∧ containsControlCharacter value = false then
    34 :: (value ++ [34])
  else 34 :: (value.flatMap quoteCharacter ++ [34])

/-- Texts with commas between them. -/
def separated : List Bytes → Bytes
  | [] => []
  | [text] => text
  | text :: rest => text ++ 44 :: separated rest

/-- What the loop over an array takes for the indices from 0 up to the size, as an `int`. -/
def elementsOf {α : Type} (map : List (Int32 × α)) (null : α) : List α :=
  (List.range (arraySize map).toInt32.toInt.toNat).map fun index =>
    (map.lookup (Int32.ofNat index)).getD null

/-- What the loop over the member names of an object takes for each. -/
def membersOf {α : Type} (map : List (Bytes × α)) (null : α) : List (Bytes × α) :=
  map.map fun entry => (entry.1, (map.lookup entry.1).getD null)

/-- What the loop over an object appends for a name and the text of its value. -/
def memberText (member : Bytes × Bytes) : Bytes := valueToQuotedString member.1 ++ 58 :: member.2

section Loops

variable {α β : Type}

/-- Applying a function to the elements of an array commutes with the loop over it. -/
theorem elementsOf_map (map : List (Int32 × α)) (change : α → β) (null : α) :
    elementsOf (map.map fun entry => (entry.1, change entry.2)) (change null) =
      (elementsOf map null).map change := by
  have size : arraySize (map.map fun entry => (entry.1, change entry.2)) = arraySize map := by
    simp only [arraySize, List.getLast?_map]
    cases map.getLast? with
    | none => rfl
    | some last => rfl
  simp only [elementsOf, lookup_map, size, List.map_map, Function.comp_def, Option.getD_map]

/-- What the loop over an array takes is an element of the map or the default. -/
theorem mem_elementsOf {map : List (Int32 × α)} {null element : α}
    (member : element ∈ elementsOf map null) :
    element = null ∨ ∃ index, (index, element) ∈ map := by
  obtain ⟨index, _, rfl⟩ := List.mem_map.mp member
  cases found : map.lookup (Int32.ofNat index) with
  | none => exact .inl rfl
  | some value => exact .inr ⟨_, mem_of_lookup found⟩

/-- The loop over an object takes the entries of an ascending map. -/
theorem membersOf_ascending {map : List (Bytes × α)} (ascending : Ascending map) (null : α) :
    membersOf map null = map := by
  have each : ∀ entry ∈ map, (entry.1, (map.lookup entry.1).getD null) = entry := by
    intro entry inside
    rw [ascending.lookup_eq_some_iff.mpr inside]
    rfl
  rw [membersOf, List.map_congr_left each, List.map_id']

end Loops

section Write

variable {D : Type} [CDouble D]

mutual

/-- `FastWriter::writeValue`. -/
def writeValue : Value D → Bytes
  | .null => ascii "null"
  | .int value => intToString value
  | .uint value => uintToString value
  | .real value => trimZeros (CDouble.sprintf value)
  | .string text => valueToQuotedString text
  | .boolean value => boolToString value
  | .array map => 91 :: (separated (elementsOf (writeElements map) (ascii "null")) ++ [93])
  | .object map =>
    123 :: (separated ((membersOf (writeMembers map) (ascii "null")).map memberText) ++ [125])

/-- The texts of the elements of an array. -/
def writeElements : List (Int32 × Value D) → List (Int32 × Bytes)
  | [] => []
  | (index, element) :: rest => (index, writeValue element) :: writeElements rest

/-- The texts of the members of an object. -/
def writeMembers : List (Bytes × Value D) → List (Bytes × Bytes)
  | [] => []
  | (name, member) :: rest => (name, writeValue member) :: writeMembers rest

end

/-- `FastWriter::write`. -/
def write (root : Value D) : Bytes := writeValue root ++ [10]

/-- `JsonObjectToString`. -/
def jsonObjectToString (jsonValue : Value D) : Bytes := write jsonValue

/-- The elements are written one by one. -/
theorem writeElements_eq (map : List (Int32 × Value D)) :
    writeElements map = map.map fun entry => (entry.1, writeValue entry.2) := by
  induction map with
  | nil => rfl
  | cons entry map ih => rw [writeElements, ih, List.map_cons]

/-- The members are written one by one. -/
theorem writeMembers_eq (map : List (Bytes × Value D)) :
    writeMembers map = map.map fun entry => (entry.1, writeValue entry.2) := by
  induction map with
  | nil => rfl
  | cons entry map ih => rw [writeMembers, ih, List.map_cons]

/-- The loop over an array writes `value[index]` for each index. -/
theorem writeValue_array (map : List (Int32 × Value D)) :
    writeValue (.array map) =
      91 :: (separated ((elementsOf map .null).map writeValue) ++ [93]) := by
  have texts := elementsOf_map map writeValue .null
  rw [writeValue] at texts
  rw [writeValue, writeElements_eq, texts]

/-- The loop over an object writes each member of an ascending map. -/
theorem writeValue_object {map : List (Bytes × Value D)} (ascending : Ascending map) :
    writeValue (.object map) =
      123 :: (separated (map.map fun entry => memberText (entry.1, writeValue entry.2)) ++
        [125]) := by
  rw [writeValue, writeMembers_eq, membersOf_ascending (ascending_map.mpr ascending),
    List.map_map]
  rfl

end Write

/-! ## Numerals -/

/-- The byte of the last digit. -/
theorem toUInt8_digit (value : UInt32) :
    (value % 10 + 48).toUInt8 = digitByte (value.toNat % 10) := by
  apply UInt8.toNat_inj.mp
  have below : value.toNat % 10 < 10 := Nat.mod_lt _ (by decide)
  simp only [digitByte, UInt32.toNat_toUInt8, UInt32.toNat_add, UInt32.toNat_mod,
    UInt8.toNat_ofNat', UInt32.reduceToNat]
  omega

/-- The loop writes the numeral when there are enough digits for it. -/
theorem putDigits_eq {count : Nat} {value : UInt32} (fits : value.toNat < 10 ^ count)
    (positive : 0 < count) (current : Bytes) :
    putDigits count value current = decimal value.toNat ++ current := by
  induction count generalizing value current with
  | zero => exact absurd positive (by decide)
  | succ count ih =>
    have front : (value / 10).toNat = value.toNat / 10 := by simp
    have zero : value / 10 ≠ 0 ↔ 10 ≤ value.toNat := by
      rw [ne_eq, ← UInt32.toNat_inj, front, UInt32.toNat_zero]
      omega
    simp only [putDigits, toUInt8_digit, zero]
    split
    · rename_i large
      have fewer : value.toNat / 10 < 10 ^ count := by
        rw [Nat.pow_succ] at fits
        omega
      have some : 0 < count := by
        by_contra none
        obtain rfl : count = 0 := by omega
        simp only [Nat.pow_zero] at fewer
        omega
      rw [ih (front ▸ fewer) some, front, decimal_of_ge large]
      simp
    · rename_i small
      have digit : value.toNat < 10 := by omega
      rw [decimal_of_lt digit, Nat.mod_eq_of_lt digit]
      rfl

/-- A `UInt` is written as its numeral. -/
theorem uintToString_eq (value : UInt32) : uintToString value = decimal value.toNat := by
  have fits : value.toNat < 10 ^ 10 := by
    have bound := value.toNat_lt
    omega
  rw [uintToString, putDigits_eq fits (by decide), List.append_nil]

/-- Conversion of an `Int` to `UInt`. -/
theorem toNat_toUInt32 (value : Int32) : (value.toUInt32.toNat : Int) = value.toInt % 2 ^ 32 := by
  have signed : value.toInt = Int.bmod value.toUInt32.toNat (2 ^ 32) :=
    BitVec.toInt_eq_toNat_bmod value.toBitVec
  have below := value.toUInt32.toNat_lt
  rw [signed, Int.bmod_def]
  split <;> omega

/-- A negative `Int` is written with its sign, `minInt` included. -/
theorem intToString_eq (value : Int32) :
    intToString value =
      if value < 0 then 45 :: decimal value.toInt.natAbs else decimal value.toInt.natAbs := by
  have low := value.le_toInt
  have high := value.toInt_lt
  have negative : value < 0 ↔ value.toInt < 0 := by simp [Int32.lt_iff_toInt_lt]
  have magnitude : (if value < 0 then -value else value).toUInt32.toNat = value.toInt.natAbs := by
    split
    · rename_i below
      have converted := toNat_toUInt32 (-value)
      rw [Int32.toInt_neg, Int.bmod_def] at converted
      have := negative.mp below
      split at converted <;> omega
    · rename_i above
      have converted := toNat_toUInt32 value
      have := mt negative.mpr above
      omega
  simp only [intToString, uintToString_eq, magnitude]

/-! ## Strings -/

/-- A character without an escape is copied. -/
theorem quoteCharacter_of_not_special {c : UInt8} (plain : specials.contains c = false) :
    quoteCharacter c = [c] := by
  have different : c ∉ specials := by simpa using plain
  simp only [specials, List.mem_cons, List.not_mem_nil, or_false, not_or] at different
  simp [quoteCharacter, different]

/-- A character is written as an escape of the grammar that stands for it, or as it is, and then it
is no quote and no backslash. -/
theorem quoteCharacter_shape (c : UInt8) :
    (∃ letter, quoteCharacter c = [92, letter] ∧ JsonText.escaped letter = some c) ∨
      quoteCharacter c = [c] ∧ specials.contains c = false ∧ c ≠ 34 ∧ c ≠ 92 := by
  cases special : specials.contains c with
  | true =>
    have one : c ∈ specials := by simpa using special
    simp only [specials, List.mem_cons, List.not_mem_nil, or_false] at one
    left
    rcases one with rfl | rfl | rfl | rfl | rfl | rfl | rfl
    all_goals exact ⟨_, rfl, rfl⟩
  | false =>
    have different : c ∉ specials := by simpa using special
    simp only [specials, List.mem_cons, List.not_mem_nil, or_false, not_or] at different
    exact .inr ⟨quoteCharacter_of_not_special special, rfl, different.1, different.2.1⟩

/-- The shortcut writes what the loop writes. -/
theorem valueToQuotedString_eq (value : Bytes) :
    valueToQuotedString value = 34 :: (value.flatMap quoteCharacter ++ [34]) := by
  unfold valueToQuotedString
  split
  · rename_i plain
    have copied : value.flatMap quoteCharacter = value := by
      have each : ∀ c ∈ value, quoteCharacter c = [c] := fun c member =>
        quoteCharacter_of_not_special (by simpa using List.any_eq_false.mp plain.1 c member)
      rw [List.flatMap_congr each]
      simp
    rw [copied]
  · rfl

end CppCode.Json
