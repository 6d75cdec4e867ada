import CppCode.Json.Reader

/-!
# Tokens of written texts

The reader takes what `FastWriter` wrote for a string or a number as one token, whatever follows
it, as long as a number is not continued (`Stops`). The token of a string is decoded to the
string, for every string (`decodeString_quoted`), and the token of an `Int` to the `Int`, except
that the loop over digits gives up one digit early and leaves numbers from `-2147483640` down to
`decodeDouble` (`decodeNumber_intToString`).
-/

namespace CppCode.Json

open Library Mongoose

/-! ## Tokens of written texts -/

/-- What follows does not continue a number. -/
def Stops (rest : Bytes) : Prop := ∀ c ∈ rest.head?, isNumberChar c = false

/-- A token that begins here and spans the bytes up to what is left. -/
theorem readToken_eq {c : UInt8} {input consumed rest : Bytes} {type : TokenType}
    (noSpace : isSpace c = false) (token : tokenAt c input = (type, true, rest))
    (spans : c :: input = consumed ++ rest) :
    readToken (c :: input) = (⟨type, consumed⟩, rest) := by
  have start : skipSpaces (c :: input) = c :: input :=
    List.dropWhile_cons_of_neg (by simp [noSpace])
  have text : (c :: input).take ((c :: input).length - rest.length) = consumed := by
    rw [spans, List.length_append, Nat.add_sub_cancel]
    exact List.take_left
  simp only [readToken, start, current, List.headD_cons, List.drop_one, List.tail_cons, token,
    if_true, text]

/-- A token that is no comment is read where comments are passed over. -/
theorem readPastComments_eq {input : Bytes} {token : Token} {rest : Bytes} (count : Nat)
    (read : readToken input = (token, rest)) (noComment : token.type ≠ .tokenComment) :
    readPastComments count input = (token, rest) := by
  cases count with
  | zero => exact read
  | succ count => simp only [readPastComments, read, if_neg noComment]

/-- A token that is no comment is the next one for `readValue`. -/
theorem skipCommentTokens_eq {input : Bytes} {token : Token} {rest : Bytes}
    (read : readToken input = (token, rest)) (noComment : token.type ≠ .tokenComment) :
    skipCommentTokens .all input = (token, rest) :=
  readPastComments_eq input.length read noComment

/-- `readString` goes through the text of a character of a string. -/
theorem readString_quoteCharacter (c : UInt8) {rest : Bytes} (more : rest ≠ []) :
    readString (quoteCharacter c ++ rest) = readString rest := by
  rcases quoteCharacter_shape c with ⟨letter, shape, -⟩ | ⟨shape, -, noQuote, noBackslash⟩
  · rw [shape]
    exact if_pos rfl
  · obtain ⟨next, rest, rfl⟩ := List.exists_cons_of_ne_nil more
    rw [shape, List.singleton_append, readString, if_neg noBackslash, if_neg noQuote]

/-- `readString` goes through a written string up to its closing quote. -/
theorem readString_quoted (text rest : Bytes) :
    readString (text.flatMap quoteCharacter ++ 34 :: rest) = (true, rest) := by
  induction text with
  | nil =>
    cases rest with
    | nil => rfl
    | cons next rest => exact (if_neg (by decide)).trans (if_pos rfl)
  | cons c text ih =>
    rw [List.flatMap_cons, List.append_assoc, readString_quoteCharacter c (by simp), ih]

/-- A written string is one token. -/
theorem readToken_quoted (text rest : Bytes) :
    readToken (valueToQuotedString text ++ rest) =
      (⟨.tokenString, valueToQuotedString text⟩, rest) := by
  rw [valueToQuotedString_eq, List.cons_append]
  refine readToken_eq rfl ?_ (by simp)
  rw [List.append_assoc, List.singleton_append]
  simp only [tokenAt]
  rw [readString_quoted]
  rfl

/-- The escapes of `decodeString` are those of the grammar. -/
theorem decodeEscape_eq (escape : UInt8) : decodeEscape escape = JsonText.escaped escape := by
  by_cases own : escape = 34 ∨ escape = 92 ∨ escape = 47
  · rcases own with rfl | rfl | rfl
    · rfl
    · rfl
    · rfl
  · rw [JsonText.escaped, if_neg own]
    rw [not_or, not_or] at own
    rw [decodeEscape, if_neg own.1, if_neg own.2.2, if_neg own.2.1]

/-- `decodeString` undoes the writing of a character. -/
theorem decodeCharacters_quoteCharacter (token : Token) (c : UInt8) (count : Nat) (rest : Bytes) :
    decodeCharacters token (count + 1) (quoteCharacter c ++ rest) =
      (decodeCharacters token count rest).map (c :: ·) := by
  rcases quoteCharacter_shape c with ⟨letter, shape, meaning⟩ | ⟨shape, -, noQuote, noBackslash⟩
  · rw [← decodeEscape_eq] at meaning
    rw [shape, List.cons_append, decodeCharacters, if_neg (by decide), if_pos rfl,
      List.singleton_append, decodeEscapeSequence, meaning]
    rfl
  · rw [shape, List.singleton_append, decodeCharacters, if_neg noQuote, if_neg noBackslash]

/-- `decodeString` undoes the writing of a string. -/
theorem decodeCharacters_quoted (token : Token) {text : Bytes} {count : Nat}
    (enough : text.length ≤ count) :
    decodeCharacters token count (text.flatMap quoteCharacter) = .ok text := by
  induction text generalizing count with
  | nil => cases count <;> rfl
  | cons c text ih =>
    obtain ⟨count, rfl⟩ : ∃ fewer, count = fewer + 1 :=
      Nat.exists_eq_add_one_of_ne_zero (Nat.ne_of_gt (Nat.lt_of_lt_of_le (Nat.succ_pos _) enough))
    rw [List.flatMap_cons, decodeCharacters_quoteCharacter,
      ih (Nat.le_of_succ_le_succ enough)]
    rfl

/-- A character is written with at least one byte. -/
theorem length_le_quoted (text : Bytes) : text.length ≤ (text.flatMap quoteCharacter).length := by
  induction text with
  | nil => exact le_rfl
  | cons c text ih =>
    have one : 1 ≤ (quoteCharacter c).length := by
      unfold quoteCharacter
      split_ifs <;> simp
    rw [List.flatMap_cons, List.length_append, List.length_cons]
    omega

/-- The token of a written string is decoded to the string. -/
theorem decodeString_quoted (text : Bytes) :
    decodeString ⟨.tokenString, valueToQuotedString text⟩ = .ok text := by
  have content : ((valueToQuotedString text).drop 1).dropLast = text.flatMap quoteCharacter := by
    rw [valueToQuotedString_eq, List.drop_one, List.tail_cons, List.dropLast_concat]
  simp only [decodeString, content]
  exact decodeCharacters_quoted _ (length_le_quoted text)

/-! ## Numbers -/

/-- Digits are characters of numbers. -/
theorem isNumberChar_of_isDigit {c : UInt8} (digit : isDigit c = true) : isNumberChar c = true := by
  simp [isNumberChar, digit]

/-- A digit or a minus begins a number. -/
theorem tokenAt_number {c : UInt8} (first : isDigit c = true ∨ c = 45) (input : Bytes) :
    tokenAt c input = (.tokenNumber, true, readNumber input) := by
  have different (other : UInt8) (no : isDigit other = false ∧ other ≠ 45) : c ≠ other := by
    rintro rfl
    rcases first with digit | minus
    · rw [no.1] at digit
      cases digit
    · exact no.2 minus
  simp only [tokenAt, if_neg (different 123 (by decide)), if_neg (different 125 (by decide)),
    if_neg (different 91 (by decide)), if_neg (different 93 (by decide)),
    if_neg (different 34 (by decide)), if_neg (different 47 (by decide)), if_pos first]

/-- A digit or a minus is no blank. -/
theorem isSpace_number {c : UInt8} (first : isDigit c = true ∨ c = 45) : isSpace c = false := by
  have different (other : UInt8) (no : isDigit other = false ∧ other ≠ 45) :
      (c == other) = false := by
    apply beq_eq_false_iff_ne.mpr
    rintro rfl
    rcases first with digit | minus
    · rw [no.1] at digit
      cases digit
    · exact no.2 minus
  simp only [isSpace, different 32 (by decide), different 9 (by decide),
    different 13 (by decide), different 10 (by decide), Bool.or_self]

/-- A written number is one token when it is not continued. -/
theorem readToken_number {c : UInt8} {text rest : Bytes} (first : isDigit c = true ∨ c = 45)
    (digits : ∀ byte ∈ text, isDigit byte = true) (stops : Stops rest) :
    readToken (c :: text ++ rest) = (⟨.tokenNumber, c :: text⟩, rest) := by
  have left : readNumber (text ++ rest) = rest := by
    have all : ∀ byte ∈ text, isNumberChar byte = true := fun byte member =>
      isNumberChar_of_isDigit (digits byte member)
    rw [readNumber, List.dropWhile_append_of_pos all]
    cases rest with
    | nil => rfl
    | cons next rest =>
      exact List.dropWhile_cons_of_neg (by simp [stops next rfl])
  rw [List.cons_append]
  refine readToken_eq (isSpace_number first) ?_ rfl
  rw [tokenAt_number first, left]

/-- The digit that the loop of `decodeNumber` adds. -/
theorem digit_step (value : Nat) {digit : Nat} (small : digit < 10) :
    UInt32.ofNat value * 10 + (digitByte digit - 48).toUInt32 =
      UInt32.ofNat (10 * value + digit) := by
  apply UInt32.toNat_inj.mp
  have byte : (digitByte digit - 48).toNat = digit := by
    rw [UInt8.toNat_sub_of_le]
    · simp only [digitByte, UInt8.toNat_ofNat', UInt8.reduceToNat]
      omega
    · simp only [digitByte, UInt8.le_iff_toNat_le, UInt8.toNat_ofNat', UInt8.reduceToNat]
      omega
  simp only [UInt32.toNat_add, UInt32.toNat_mul, UInt32.toNat_ofNat', UInt8.toNat_toUInt32, byte,
    UInt32.reduceToNat]
  omega

/-- The loop of `decodeNumber` at a digit. -/
theorem decodeDigits_digit (threshold : UInt32) {digit value : Nat} (small : digit < 10)
    (bound : 10 * value + digit < 2 ^ 32) (rest : Bytes) :
    decodeDigits threshold (digitByte digit :: rest) (UInt32.ofNat value) =
      if threshold.toNat ≤ value then .large
      else decodeDigits threshold rest (UInt32.ofNat (10 * value + digit)) := by
  have inside : ¬ (digitByte digit < 48 ∨ digitByte digit > 57) := by
    simp only [digitByte, UInt8.lt_iff_toNat_lt, gt_iff_lt, UInt8.toNat_ofNat',
      UInt8.reduceToNat]
    omega
  have reached : threshold ≤ UInt32.ofNat value ↔ threshold.toNat ≤ value := by
    rw [UInt32.le_iff_toNat_le, UInt32.toNat_ofNat', Nat.mod_eq_of_lt (by omega)]
  rw [decodeDigits, if_neg inside, digit_step value small]
  simp only [reached]

/-- The loop of `decodeNumber` over a numeral stops when all but its last digit reach the
threshold. -/
theorem decodeDigits_decimal (threshold : UInt32) (positive : 0 < threshold.toNat) {number : Nat}
    (bound : number < 2 ^ 32) (rest : Bytes) :
    decodeDigits threshold (decimal number ++ rest) 0 =
      if threshold.toNat ≤ number / 10 then .large
      else decodeDigits threshold rest (UInt32.ofNat number) := by
  induction number using Nat.strong_induction_on generalizing rest with
  | _ number ih =>
    by_cases small : number < 10
    · have step := decodeDigits_digit threshold small (by omega : 10 * 0 + number < 2 ^ 32) rest
      rw [decimal_of_lt small, List.singleton_append, Nat.div_eq_of_lt small]
      simpa using step
    · have digit : number % 10 < 10 := Nat.mod_lt _ (by decide)
      have joined : 10 * (number / 10) + number % 10 = number := Nat.div_add_mod number 10
      rw [decimal_of_ge (by omega), List.append_assoc, List.singleton_append,
        ih (number / 10) (by omega) (by omega), decodeDigits_digit threshold digit (by omega),
        joined]
      split
      · rename_i early
        rw [if_pos (by omega)]
      · rfl

/-- No digit makes a number a `double`. -/
theorem isDouble_digits {c : UInt8} {digits : Bytes} (first : isDigit c = true ∨ c = 45)
    (all : ∀ byte ∈ digits, isDigit byte = true) : isDouble (c :: digits) = false := by
  have mark {byte : UInt8} (inside : isDigit byte = true ∨ byte = 45) :
      byte ∉ ([46, 101, 69, 43] : Bytes) := by
    simp only [List.mem_cons, List.not_mem_nil, or_false]
    rintro (rfl | rfl | rfl | rfl) <;> simp [isDigit] at inside
  have noMark : (c :: digits).any [46, 101, 69, 43].contains = false := by
    refine List.any_eq_false.mpr fun byte member found => ?_
    rcases List.mem_cons.mp member with rfl | later
    · exact mark first (List.contains_iff_mem.mp found)
    · exact mark (.inl (all byte later)) (List.contains_iff_mem.mp found)
  have noMinus : digits.contains 45 = false := by
    refine Bool.eq_false_iff.mpr fun found => ?_
    exact absurd (all 45 (List.contains_iff_mem.mp found)) (by decide)
  rw [isDouble, noMark, List.drop_one, List.tail_cons, noMinus, Bool.or_self]

section Numbers

variable {D : Type} [CDouble D]

/-- A numeral with a minus is decoded to an `Int` below the threshold, and else as a `double`. -/
theorem decodeNumber_minus {number : Nat} (bound : number < 2 ^ 32) :
    (decodeNumber ⟨.tokenNumber, 45 :: decimal number⟩ : Except Failure (Value D)) =
      if 2147483640 ≤ number then decodeDouble ⟨.tokenNumber, 45 :: decimal number⟩
      else .ok (.int (-(UInt32.ofNat number).toInt32)) := by
  have read := decodeDigits_decimal 214748364 (by decide) bound []
  rw [List.append_nil] at read
  have threshold : (-minInt).toUInt32 / 10 = 214748364 := by decide
  have reached : (214748364 : UInt32).toNat ≤ number / 10 ↔ 2147483640 ≤ number := by
    simp only [UInt32.reduceToNat]
    omega
  simp only [decodeNumber, isDouble_digits (.inr rfl) (decimal_digit number), current,
    List.headD_cons, beq_self_eq_true, if_true, List.drop_one, List.tail_cons, threshold, read,
    reached, Bool.false_eq_true, if_false]
  by_cases large : 2147483640 ≤ number
  · rw [if_pos large, if_pos large]
  · rw [if_neg large, if_neg large]
    rfl

/-- A numeral up to `maxInt` is decoded to an `Int`. -/
theorem decodeNumber_decimal {number : Nat} (bound : number < 2 ^ 31) :
    (decodeNumber ⟨.tokenNumber, decimal number⟩ : Except Failure (Value D)) =
      .ok (.int (UInt32.ofNat number).toInt32) := by
  have read := decodeDigits_decimal 429496729 (by decide) (by omega : number < 2 ^ 32) []
  rw [List.append_nil, if_neg (by simp only [UInt32.reduceToNat]; omega)] at read
  have threshold : maxUInt / 10 = 429496729 := by decide
  obtain ⟨c, digits, shape⟩ := List.exists_cons_of_ne_nil (decimal_ne_nil number)
  obtain ⟨first, all⟩ := List.forall_mem_cons.mp (shape ▸ decimal_digit number)
  have noMinus : (c == 45) = false := by
    apply beq_eq_false_iff_ne.mpr
    rintro rfl
    cases first
  have small : UInt32.ofNat number ≤ maxInt.toUInt32 := by
    rw [UInt32.le_iff_toNat_le, UInt32.toNat_ofNat', Nat.mod_eq_of_lt (by omega)]
    have top : maxInt.toUInt32.toNat = 2147483647 := by decide
    omega
  rw [shape] at read ⊢
  simp only [decodeNumber, isDouble_digits (.inl first) all, current, List.headD_cons, noMinus,
    Bool.false_eq_true, if_false, threshold, read, decodeDigits, if_pos small]

/-- An `Int` is decoded to itself, or as a `double` from eight above `minInt` down. -/
theorem decodeNumber_intToString (value : Int32) :
    (decodeNumber ⟨.tokenNumber, intToString value⟩ : Except Failure (Value D)) =
      if value.toInt ≤ -2147483640 then decodeDouble ⟨.tokenNumber, intToString value⟩
      else .ok (.int value) := by
  have low := value.le_toInt
  have high := value.toInt_lt
  rw [intToString_eq]
  by_cases negative : value < 0
  · have below : value.toInt < 0 := by simpa [Int32.lt_iff_toInt_lt] using negative
    rw [if_pos negative, decodeNumber_minus (by omega)]
    by_cases large : value.toInt ≤ -2147483640
    · rw [if_pos (by omega), if_pos large]
    · have same : -(UInt32.ofNat value.toInt.natAbs).toInt32 = value := by
        apply Int32.toInt_inj.mp
        rw [UInt32.toInt32_ofNat', Int32.toInt_neg, Int32.toInt_ofNat_of_lt (by omega)]
        rw [Int.bmod_eq_of_le] <;> omega
      rw [if_neg (by omega), if_neg large, same]
  · have above : 0 ≤ value.toInt := by simpa [Int32.lt_iff_toInt_lt] using negative
    have same : (UInt32.ofNat value.toInt.natAbs).toInt32 = value := by
      apply Int32.toInt_inj.mp
      rw [UInt32.toInt32_ofNat', Int32.toInt_ofNat_of_lt (by omega)]
      omega
    rw [if_neg negative, decodeNumber_decimal (by omega), if_neg (by omega), same]

end Numbers

end CppCode.Json
