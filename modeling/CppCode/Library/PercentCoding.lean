import CppCode.Library.HttpFraming

/-!
# Percent coding

A byte stands for itself or is written as a percent sign and two hexadecimal digits, and a plus sign
may stand for a space. What an encoder writes is read back (`percentDecode_encode`), whichever bytes
it leaves plain, as long as it does not leave the signs that a decoder treats specially.
-/

namespace CppCode.Library

/-- The percent sign. -/
def percent : UInt8 := 37

/-- The digit of a value below 16. -/
def nibbleByte (value : Nat) : UInt8 :=
  if value < 10 then UInt8.ofNat (48 + value) else UInt8.ofNat (87 + value)

/-- A byte written with digits. -/
def percentByte (byte : UInt8) : List UInt8 :=
  [percent, nibbleByte (byte.toNat / 16), nibbleByte (byte.toNat % 16)]

/-- The encoding that leaves some bytes plain. -/
def percentEncode (plain : UInt8 → Bool) (bytes : List UInt8) : List UInt8 :=
  bytes.flatMap fun byte => if plain byte then [byte] else percentByte byte

/-- What a byte stands for that begins no digits. -/
def plainValue (form : Bool) (byte : UInt8) : UInt8 := if form && byte == 43 then 32 else byte

/-- The bytes that are encoded, if all percent signs have their digits. -/
def percentDecode (form : Bool) : List UInt8 → Option (List UInt8)
  | [] => some []
  | byte :: rest =>
    if byte = percent then
      match rest with
      | first :: second :: rest =>
        match nibble first, nibble second with
        | some high, some low =>
          (percentDecode form rest).map (UInt8.ofNat (high * 16 + low) :: ·)
        | _, _ => none
      | _ => none
    else (percentDecode form rest).map (plainValue form byte :: ·)

/-- Behind a percent sign, these bytes do not begin with two digits. -/
def LacksDigits (bytes : List UInt8) : Prop :=
  ∀ first second rest, bytes = first :: second :: rest → nibble first = none ∨ nibble second = none

/-- Digits have values below 16. -/
theorem nibble_lt {byte : UInt8} {value : Nat} (digit : nibble byte = some value) : value < 16 := by
  unfold nibble isDigit at digit
  simp only [Bool.and_eq_true, decide_eq_true_eq, UInt8.le_iff_toNat_le, UInt8.reduceToNat] at digit
  split_ifs at digit <;> cases digit <;> omega

/-- The digits are read back. -/
theorem nibble_nibbleByte {value : Nat} (small : value < 16) :
    nibble (nibbleByte value) = some value := by
  have all : ∀ value < 16, nibble (nibbleByte value) = some value := by decide
  exact all value small

/-- A byte that is no percent sign is read alone. -/
theorem percentDecode_cons {form : Bool} {byte : UInt8} (plain : byte ≠ percent)
    (rest : List UInt8) :
    percentDecode form (byte :: rest) =
      (percentDecode form rest).map (plainValue form byte :: ·) := by
  rw [percentDecode.eq_def]
  exact if_neg plain

/-- Two digits are read as their byte. -/
theorem percentDecode_digit {form : Bool} {first second : UInt8} {high low : Nat}
    (one : nibble first = some high) (two : nibble second = some low) (rest : List UInt8) :
    percentDecode form (percent :: first :: second :: rest) =
      (percentDecode form rest).map (UInt8.ofNat (high * 16 + low) :: ·) := by
  rw [percentDecode, if_pos rfl]
  simp only [one, two]

/-- What is not decoded has a first percent sign without its digits. -/
theorem percentDecode_none {form : Bool} {src : List UInt8} (bad : percentDecode form src = none) :
    ∃ front behind text, src = front ++ percent :: behind ∧ LacksDigits behind ∧
      percentDecode form front = some text := by
  fun_induction percentDecode form src with
  | case1 => exact absurd bad (by simp)
  | case2 first second rest high low two one ih =>
    obtain ⟨front, behind, text, rfl, lacks, read⟩ := ih (Option.map_eq_none_iff.mp bad)
    refine ⟨percent :: first :: second :: front, behind, UInt8.ofNat (high * 16 + low) :: text, rfl,
      lacks, ?_⟩
    rw [percentDecode_digit one two, read]
    rfl
  | case3 first second rest noDigits =>
    refine ⟨[], first :: second :: rest, [], rfl, ?_, rfl⟩
    intro one two more same
    obtain ⟨sameFirst, same⟩ := List.cons.inj same
    obtain ⟨sameSecond, -⟩ := List.cons.inj same
    rw [← sameFirst, ← sameSecond]
    by_contra both
    rw [not_or] at both
    obtain ⟨high, hasHigh⟩ := Option.ne_none_iff_exists'.mp both.1
    obtain ⟨low, hasLow⟩ := Option.ne_none_iff_exists'.mp both.2
    exact noDigits high low hasHigh hasLow
  | case4 rest short =>
    refine ⟨[], rest, [], rfl, ?_, rfl⟩
    exact fun first second more same => (short first second more same).elim
  | case5 byte rest plain ih =>
    obtain ⟨front, behind, text, rfl, lacks, read⟩ := ih (Option.map_eq_none_iff.mp bad)
    refine ⟨byte :: front, behind, plainValue form byte :: text, rfl, lacks, ?_⟩
    rw [percentDecode_cons plain, read]
    rfl

/-- A text is no longer than its coding. -/
theorem percentDecode_length_le {form : Bool} {src text : List UInt8}
    (decoded : percentDecode form src = some text) : text.length ≤ src.length := by
  fun_induction percentDecode form src generalizing text with
  | case1 =>
    obtain rfl := Option.some.inj decoded
    exact Nat.le_refl _
  | case2 first second rest high low _ _ ih =>
    obtain ⟨more, read, rfl⟩ := Option.map_eq_some_iff.mp decoded
    have shorter := ih read
    simp only [List.length_cons]
    omega
  | case3 => exact absurd decoded (by simp)
  | case4 => exact absurd decoded (by simp)
  | case5 byte rest _ ih =>
    obtain ⟨more, read, rfl⟩ := Option.map_eq_some_iff.mp decoded
    exact Nat.succ_le_succ (ih read)

/-- Digits are read as their byte. -/
theorem percentDecode_percentByte (form : Bool) (byte : UInt8) (rest : List UInt8) :
    percentDecode form (percentByte byte ++ rest) = (percentDecode form rest).map (byte :: ·) := by
  have small := byte.toNat_lt
  have whole : UInt8.ofNat (byte.toNat / 16 * 16 + byte.toNat % 16) = byte := by
    have sum : byte.toNat / 16 * 16 + byte.toNat % 16 = byte.toNat := by omega
    rw [sum, UInt8.ofNat_toNat]
  show percentDecode form (percent :: nibbleByte (byte.toNat / 16) ::
    nibbleByte (byte.toNat % 16) :: rest) = _
  rw [percentDecode_digit (nibble_nibbleByte (show byte.toNat / 16 < 16 by omega))
    (nibble_nibbleByte (show byte.toNat % 16 < 16 by omega)), whole]

/-- Something is decoded to something. -/
theorem percentDecode_ne_nil {form : Bool} {byte : UInt8} {rest text : List UInt8}
    (decoded : percentDecode form (byte :: rest) = some text) : text ≠ [] := by
  intro none
  rw [none, percentDecode.eq_def] at decoded
  dsimp only at decoded
  split_ifs at decoded
  · split at decoded
    · split at decoded
      · simp at decoded
      · simp at decoded
    · simp at decoded
  · simp at decoded

/-- Bytes are encoded one by one. -/
theorem percentEncode_cons (plain : UInt8 → Bool) (byte : UInt8) (bytes : List UInt8) :
    percentEncode plain (byte :: bytes) =
      (if plain byte then [byte] else percentByte byte) ++ percentEncode plain bytes := by
  rw [percentEncode, List.flatMap_cons]
  rfl

/-- An encoding is read back, in front of anything. -/
theorem percentDecode_encode {form : Bool} {plain : UInt8 → Bool}
    (safe : ∀ byte, plain byte = true → byte ≠ percent ∧ plainValue form byte = byte)
    (bytes rest : List UInt8) :
    percentDecode form (percentEncode plain bytes ++ rest) =
      (percentDecode form rest).map (bytes ++ ·) := by
  induction bytes with
  | nil => simp [percentEncode]
  | cons byte bytes ih =>
    rw [percentEncode_cons, List.append_assoc]
    by_cases left : plain byte = true
    · obtain ⟨other, same⟩ := safe byte left
      rw [if_pos left, List.singleton_append, percentDecode_cons other, ih, same, Option.map_map]
      rfl
    · rw [if_neg left, percentDecode_percentByte, ih, Option.map_map]
      rfl

/-- Bytes that are neither left plain nor used for digits do not occur in an encoding. -/
theorem not_mem_percentEncode {plain : UInt8 → Bool} {byte : UInt8} (left : plain byte = false)
    (sign : byte ≠ percent) (digit : nibble byte = none) (bytes : List UInt8) :
    byte ∉ percentEncode plain bytes := by
  intro member
  obtain ⟨source, -, written⟩ := List.mem_flatMap.mp member
  have notDigit : ∀ value < 16, byte ≠ nibbleByte value := by
    intro value small same
    rw [same, nibble_nibbleByte small] at digit
    exact absurd digit (by simp)
  have small := source.toNat_lt
  by_cases kept : plain source = true
  · rw [if_pos kept, List.mem_singleton] at written
    rw [written, kept] at left
    exact absurd left (by decide)
  · rw [if_neg kept] at written
    simp only [percentByte, List.mem_cons, List.not_mem_nil, or_false] at written
    obtain same | same | same := written
    · exact sign same
    · exact notDigit _ (by omega) same
    · exact notDigit _ (by omega) same

end CppCode.Library
