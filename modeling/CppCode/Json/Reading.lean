import CppCode.Json.Reader

/-!
# Every reading ends

What the reader takes from its input. A token that is not the end of the stream takes a byte at
least, and so does a value (`readValue_ends`), so the fuel of `parse` is enough for every
document: a reading ends with a value, an error, or the write behind the buffer of `decodeDouble`
(`parse_ne_fuel`).
-/

namespace CppCode.Json

open Library Mongoose

/-! ## Tokens -/

/-- Comments of the C style end inside of the input. -/
theorem readCStyleComment_length (input : Bytes) :
    (readCStyleComment input).2.length ≤ input.length := by
  induction input with
  | nil => exact le_rfl
  | cons c rest ih =>
    rw [readCStyleComment]
    split
    · show (rest.drop 1).length ≤ rest.length + 1
      rw [List.length_drop]
      omega
    · exact le_trans ih (Nat.le_succ _)

/-- Comments of the C++ style end inside of the input. -/
theorem readCppStyleComment_length (input : Bytes) :
    (readCppStyleComment input).length ≤ input.length := by
  induction input with
  | nil => exact le_rfl
  | cons c rest ih =>
    rw [readCppStyleComment]
    split
    · exact Nat.le_succ _
    · exact le_trans ih (Nat.le_succ _)

/-- Comments end inside of the input. -/
theorem readComment_length (input : Bytes) : (readComment input).2.length ≤ input.length := by
  cases input with
  | nil => exact le_rfl
  | cons c rest =>
    rw [readComment]
    split
    · exact le_trans (readCStyleComment_length rest) (Nat.le_succ _)
    · split
      · exact le_trans (readCppStyleComment_length rest) (Nat.le_succ _)
      · exact Nat.le_succ _

/-- Strings end inside of the input. -/
theorem readString_length (input : Bytes) : (readString input).2.length ≤ input.length := by
  induction input using readString.induct with
  | case1 => exact le_rfl
  | case2 c => exact Nat.zero_le _
  | case3 next rest ih =>
    rw [readString, if_pos rfl]
    exact le_trans ih (by simp only [List.length_cons]; omega)
  | case4 next rest noBackslash =>
    rw [readString, if_neg noBackslash, if_pos rfl]
    exact Nat.le_succ _
  | case5 c next rest noBackslash noQuote ih =>
    rw [readString, if_neg noBackslash, if_neg noQuote]
    exact le_trans ih (Nat.le_succ _)

/-- Words end inside of the input. -/
theorem matchText_length (pattern input : Bytes) :
    (matchText pattern input).2.length ≤ input.length := by
  unfold matchText
  split
  · show (input.drop pattern.length).length ≤ input.length
    rw [List.length_drop]
    exact Nat.sub_le _ _
  · exact le_rfl

/-- Of two tokens that end inside of the input, either one does. -/
theorem ite_length {choice : Prop} [Decidable choice] {input : Bytes}
    {first second : TokenType × Bool × Bytes} (left : first.2.2.length ≤ input.length)
    (right : second.2.2.length ≤ input.length) :
    (if choice then first else second).2.2.length ≤ input.length := by
  by_cases chosen : choice
  · rwa [if_pos chosen]
  · rwa [if_neg chosen]

/-- Tokens end inside of the input. -/
theorem tokenAt_length (c : UInt8) (input : Bytes) :
    (tokenAt c input).2.2.length ≤ input.length := by
  have word (pattern : Bytes) := matchText_length pattern input
  have number : (readNumber input).length ≤ input.length := (List.dropWhile_suffix _).length_le
  unfold tokenAt
  refine ite_length le_rfl (ite_length le_rfl (ite_length le_rfl (ite_length le_rfl ?_)))
  refine ite_length (readString_length input) (ite_length (readComment_length input) ?_)
  refine ite_length number (ite_length (word _) (ite_length (word _) (ite_length (word _) ?_)))
  exact ite_length le_rfl (ite_length le_rfl (ite_length le_rfl le_rfl))

/-- A token that is not the end of the stream takes a byte at least. -/
theorem readToken_length (input : Bytes) :
    (readToken input).2.length ≤ input.length ∧
      ((readToken input).1.type ≠ .tokenEndOfStream →
        (readToken input).2.length < input.length) := by
  have skipped : (skipSpaces input).length ≤ input.length :=
    (List.dropWhile_suffix isSpace).length_le
  unfold readToken
  generalize skipSpaces input = start at skipped ⊢
  cases start with
  | nil => exact ⟨Nat.zero_le _, fun other => absurd rfl other⟩
  | cons c rest =>
    have shorter : (tokenAt c rest).2.2.length < input.length :=
      lt_of_le_of_lt (tokenAt_length c rest) skipped
    exact ⟨shorter.le, fun _ => shorter⟩

/-- The token behind comments takes a byte at least, unless it is the end of the stream. -/
theorem readPastComments_length (count : Nat) (input : Bytes) :
    (readPastComments count input).2.length ≤ input.length ∧
      ((readPastComments count input).1.type ≠ .tokenEndOfStream →
        (readPastComments count input).2.length < input.length) := by
  induction count generalizing input with
  | zero => exact readToken_length input
  | succ count ih =>
    have one := readToken_length input
    have later := ih (readToken input).2
    simp only [readPastComments]
    split
    · exact ⟨le_trans later.1 one.1, fun other => lt_of_lt_of_le (later.2 other) one.1⟩
    · exact one

/-- The first token of a value takes a byte at least, unless it is the end of the stream. -/
theorem skipCommentTokens_length (features : Features) (input : Bytes) :
    (skipCommentTokens features input).2.length ≤ input.length ∧
      ((skipCommentTokens features input).1.type ≠ .tokenEndOfStream →
        (skipCommentTokens features input).2.length < input.length) := by
  unfold skipCommentTokens
  split
  · exact readPastComments_length input.length input
  · exact readToken_length input

/-! ## Strings and numbers -/

/-- A reading that has not run out of fuel and, if it succeeds, leaves fewer bytes than a bound. -/
def Ends {α : Type} (bound : Nat) : Except Failure (α × Bytes) → Prop
  | .error failure => failure ≠ .fuel
  | .ok (_, rest) => rest.length < bound

/-- An error is not the end of the fuel. -/
theorem ends_addError {α : Type} (bound : Nat) (message : Bytes) (token : Token) :
    Ends bound (addError message token : Except Failure (α × Bytes)) := by
  intro ended
  cases ended

/-- Of two readings that end, either one does. -/
theorem ite_ends {α : Type} {choice : Prop} [Decidable choice] {bound : Nat}
    {first second : Except Failure (α × Bytes)} (left : Ends bound first)
    (right : Ends bound second) : Ends bound (if choice then first else second) := by
  by_cases chosen : choice
  · rwa [if_pos chosen]
  · rwa [if_neg chosen]

/-- A reading that ends fails, but not for want of fuel, or succeeds and leaves fewer bytes. -/
theorem Ends.cases {α : Type} {bound : Nat} {result : Except Failure (α × Bytes)}
    (ends : Ends bound result) :
    (∃ failure, result = .error failure ∧ failure ≠ .fuel) ∨
      ∃ value rest, result = .ok (value, rest) ∧ rest.length < bound := by
  cases result with
  | error failure => exact .inl ⟨failure, rfl, ends⟩
  | ok found => exact .inr ⟨found.1, found.2, rfl, ends⟩

/-- A `\u` escape ends inside of the input. -/
theorem decodeUnicodeEscapeSequence_ends (token : Token) (input : Bytes) :
    Ends (input.length + 1) (decodeUnicodeEscapeSequence token input) := by
  unfold decodeUnicodeEscapeSequence
  split
  · rename_i first second third fourth rest
    simp only
    split
    · show rest.length < _
      simp only [List.length_cons]
      omega
    · exact ends_addError _ _ _
  · exact ends_addError _ _ _

/-- A code point ends inside of the input. -/
theorem decodeUnicodeCodePoint_ends (token : Token) (input : Bytes) :
    Ends (input.length + 1) (decodeUnicodeCodePoint token input) := by
  unfold decodeUnicodeCodePoint
  rcases (decodeUnicodeEscapeSequence_ends token input).cases with
    ⟨failure, read, fuelled⟩ | ⟨unicode, rest, read, inside⟩
  · rw [read]
    exact fuelled
  · rw [read]
    refine ite_ends (ite_ends (ends_addError _ _ _) (ite_ends ?_ (ends_addError _ _ _))) inside
    rcases (decodeUnicodeEscapeSequence_ends token (rest.drop 2)).cases with
      ⟨failure, pair, fuelled⟩ | ⟨low, last, pair, shorter⟩
    · rw [pair]
      exact fuelled
    · rw [pair]
      rw [List.length_drop] at shorter
      show last.length < input.length + 1
      omega

/-- An escape ends inside of the input. -/
theorem decodeEscapeSequence_ends (token : Token) (input : Bytes) :
    Ends (input.length + 1) (decodeEscapeSequence token input) := by
  cases input with
  | nil => exact ends_addError _ _ _
  | cons escape rest =>
    rw [decodeEscapeSequence]
    cases decodeEscape escape with
    | some byte =>
      show rest.length < rest.length + 1 + 1
      omega
    | none =>
      refine ite_ends ?_ (ends_addError _ _ _)
      rcases (decodeUnicodeCodePoint_ends token rest).cases with
        ⟨failure, read, fuelled⟩ | ⟨unicode, last, read, inside⟩
      · rw [read]
        exact fuelled
      · rw [read]
        exact Nat.lt_succ_of_lt inside

/-- What is made of a result does not end the fuel. -/
theorem map_ne_fuel {α β : Type} {result : Except Failure α} (fuelled : result ≠ .error .fuel)
    (f : α → β) : result.map f ≠ .error .fuel := by
  cases result with
  | error failure =>
    intro ended
    apply fuelled
    rw [Except.error.inj ended]
  | ok value =>
    intro ended
    cases ended

/-- The rounds of `decodeString` are enough. -/
theorem decodeCharacters_ne_fuel (token : Token) {count : Nat} {input : Bytes}
    (enough : input.length ≤ count) : decodeCharacters token count input ≠ .error .fuel := by
  induction count generalizing input with
  | zero =>
    obtain rfl := List.eq_nil_of_length_eq_zero (Nat.le_zero.mp enough)
    intro ended
    cases ended
  | succ count ih =>
    cases input with
    | nil =>
      intro ended
      cases ended
    | cons c rest =>
      have left : rest.length ≤ count := Nat.le_of_succ_le_succ enough
      rw [decodeCharacters]
      by_cases quote : c = 34
      · rw [if_pos quote]
        intro ended
        cases ended
      · rw [if_neg quote]
        by_cases backslash : c = 92
        · rw [if_pos backslash]
          rcases (decodeEscapeSequence_ends token rest).cases with
            ⟨failure, read, fuelled⟩ | ⟨appended, last, read, inside⟩
          · rw [read]
            exact fun ended => fuelled (Except.error.inj ended)
          · rw [read]
            exact map_ne_fuel (ih (by omega)) _
        · rw [if_neg backslash]
          exact map_ne_fuel (ih left) _

/-- A string does not run out of fuel. -/
theorem decodeString_ne_fuel (token : Token) : decodeString token ≠ .error .fuel :=
  decodeCharacters_ne_fuel token (le_refl _)

section Values

variable {D : Type} [CDouble D]

/-- A `double` does not run out of fuel. -/
theorem decodeDouble_ne_fuel (token : Token) :
    (decodeDouble token : Except Failure (Value D)) ≠ .error .fuel := by
  simp only [decodeDouble]
  split
  · intro ended
    cases ended
  · split
    · intro ended
      cases ended
    · intro ended
      cases ended

/-- A number does not run out of fuel. -/
theorem decodeNumber_ne_fuel (token : Token) :
    (decodeNumber token : Except Failure (Value D)) ≠ .error .fuel := by
  unfold decodeNumber
  split
  · exact decodeDouble_ne_fuel token
  · simp only
    split
    · intro ended
      cases ended
    · exact decodeDouble_ne_fuel token
    · split_ifs
      all_goals
        intro ended
        cases ended

/-! ## Values -/

/-- What is made of a value that was read is read as far. -/
theorem ends_map {α β : Type} {bound : Nat} {result : Except Failure α} {rest : Bytes}
    (fuelled : result ≠ .error .fuel) (shorter : rest.length < bound) (f : α → β) :
    Ends bound (result.map fun value => (f value, rest)) := by
  cases result with
  | error failure => exact fun ended => fuelled (congrArg Except.error ended)
  | ok value => exact shorter

/-- A reading that ends before a bound does so before a larger one. -/
theorem Ends.mono {α : Type} {less more : Nat} {result : Except Failure (α × Bytes)}
    (ends : Ends less result) (larger : less ≤ more) : Ends more result := by
  cases result with
  | error failure => exact ends
  | ok found => exact lt_of_lt_of_le ends larger

variable (D) in
/-- Readings of at most a fuel end when they have two steps of it for each byte of the input, and
take a byte at least. -/
structure ReadingsEnd (features : Features) (fuel : Nat) : Prop where
  /-- Of a value. -/
  value : ∀ input : Bytes, 2 * input.length + 1 ≤ fuel →
    Ends input.length (readValue features fuel input : Except Failure (Value D × Bytes))
  /-- Of the elements of an array. -/
  elements : ∀ (index : Int32) (map : List (Int32 × Value D)) (input : Bytes),
    2 * input.length + 2 ≤ fuel → Ends input.length (readElements features fuel index map input)
  /-- Of the members of an object. -/
  members : ∀ (name : Bytes) (map : List (Bytes × Value D)) (input : Bytes),
    2 * input.length + 2 ≤ fuel → Ends input.length (readMembers features fuel name map input)

/-- A value begins with a token, and what is read behind it is shorter. -/
theorem readValue_ends {features : Features} {fuel : Nat} (ends : ReadingsEnd D features fuel)
    {input : Bytes} (enough : 2 * input.length + 1 ≤ fuel + 1) :
    Ends input.length (readValue features (fuel + 1) input : Except Failure (Value D × Bytes)) := by
  have token := (skipCommentTokens_length features input).2
  rw [readValue]
  generalize skipCommentTokens features input = next at token ⊢
  obtain ⟨⟨type, text⟩, rest⟩ := next
  cases type with
  | tokenObjectBegin =>
    have shorter : rest.length < input.length := token (by simp)
    exact (ends.members [] [] rest (by omega)).mono shorter.le
  | tokenArrayBegin =>
    have shorter : rest.length < input.length := token (by simp)
    have skipped : (skipSpaces rest).length ≤ rest.length :=
      (List.dropWhile_suffix isSpace).length_le
    simp only
    by_cases empty : current (skipSpaces rest) = 93
    · rw [if_pos empty]
      have bracket := (readToken_length (skipSpaces rest)).1
      show (readToken (skipSpaces rest)).2.length < input.length
      omega
    · rw [if_neg empty]
      exact (ends.elements 0 [] (skipSpaces rest) (by omega)).mono (by omega)
  | tokenNumber => exact ends_map (decodeNumber_ne_fuel _) (token (by simp)) _
  | tokenString => exact ends_map (decodeString_ne_fuel _) (token (by simp)) _
  | tokenTrue | tokenFalse | tokenNull => exact token (by simp)
  | tokenEndOfStream | tokenObjectEnd | tokenArrayEnd | tokenArraySeparator
  | tokenMemberSeparator | tokenComment | tokenError => exact ends_addError _ _ _

/-- A round of the loop over elements reads a value and a token. -/
theorem readElements_ends {features : Features} {fuel : Nat} (ends : ReadingsEnd D features fuel)
    (index : Int32) (map : List (Int32 × Value D)) {input : Bytes}
    (enough : 2 * input.length + 2 ≤ fuel + 1) :
    Ends input.length (readElements features (fuel + 1) index map input) := by
  rw [readElements]
  rcases (ends.value input (by omega)).cases with
    ⟨failure, read, fuelled⟩ | ⟨value, rest, read, shorter⟩
  · rw [read]
    exact fuelled
  · rw [read]
    have separator := (readPastComments_length rest.length rest).1
    apply ite_ends
    · exact ends_addError _ _ _
    · apply ite_ends
      · show (readPastComments rest.length rest).2.length < input.length
        omega
      · exact (ends.elements _ _ _ (by omega)).mono (by omega)

/-- A round of the loop over members reads a name, a colon, a value and a token. -/
theorem readMembers_ends {features : Features} {fuel : Nat} (ends : ReadingsEnd D features fuel)
    (name : Bytes) (map : List (Bytes × Value D)) {input : Bytes}
    (enough : 2 * input.length + 2 ≤ fuel + 1) :
    Ends input.length (readMembers features (fuel + 1) name map input) := by
  have first := readPastComments_length input.length input
  rw [readMembers]
  generalize readPastComments input.length input = next at first ⊢
  obtain ⟨tokenName, afterName⟩ := next
  simp only at first ⊢
  by_cases last : tokenName.type = .tokenObjectEnd ∧ name = []
  · rw [if_pos last]
    exact first.2 (by rw [last.1]; decide)
  · rw [if_neg last]
    by_cases unnamed : tokenName.type ≠ .tokenString
    · rw [if_pos unnamed]
      exact ends_addError _ _ _
    · rw [if_neg unnamed]
      cases decoded : decodeString tokenName with
      | error failure =>
        have fuelled := decodeString_ne_fuel tokenName
        rw [decoded] at fuelled
        exact fun ended => fuelled (congrArg Except.error ended)
      | ok read =>
        have string : tokenName.type = .tokenString := not_not.mp unnamed
        have named : afterName.length < input.length := first.2 (by rw [string]; decide)
        have colon := (readToken_length afterName).1
        simp only
        by_cases missing : (readToken afterName).1.type ≠ .tokenMemberSeparator
        · rw [if_pos missing]
          exact ends_addError _ _ _
        · rw [if_neg missing]
          rcases (ends.value (readToken afterName).2 (by omega)).cases with
            ⟨failure, found, fuelled⟩ | ⟨value, rest, found, shorter⟩
          · rw [found]
            exact fuelled
          · rw [found]
            have separator := (readPastComments_length rest.length rest).1
            apply ite_ends
            · exact ends_addError _ _ _
            · apply ite_ends
              · show (readPastComments rest.length rest).2.length < input.length
                omega
              · exact (ends.members _ _ _ (by omega)).mono (by omega)

/-- With two steps of fuel for each byte, all readings end. -/
theorem readingsEnd (features : Features) (fuel : Nat) : ReadingsEnd D features fuel := by
  induction fuel with
  | zero => exact ⟨fun _ enough => by omega, fun _ _ _ enough => by omega,
      fun _ _ _ enough => by omega⟩
  | succ fuel ih =>
    exact ⟨fun _ => readValue_ends ih, fun index map _ => readElements_ends ih index map,
      fun name map _ => readMembers_ends ih name map⟩

/-- The fuel of `parse` is enough for every document. -/
theorem parse_ne_fuel (features : Features) (document : Bytes) :
    (parse features document : Except Failure (Value D)) ≠ .error .fuel := by
  have ends := (readingsEnd (D := D) features (2 * document.length + 1)).value document le_rfl
  unfold parse
  cases read : (readValue features (2 * document.length + 1) document :
      Except Failure (Value D × Bytes)) with
  | error failure =>
    rw [read] at ends
    exact fun ended => ends (Except.error.inj ended)
  | ok found =>
    simp only
    split
    · intro ended
      cases ended
    · intro ended
      cases ended

/-- A text that the reader refuses is answered by the `Int` that `NULL` is converted to, unless
`decodeDouble` has written behind its buffer. -/
theorem jsonStringToObject_refused {strObj : Bytes} {failure : Failure}
    (refused : (parse .all strObj : Except Failure (Value D)) = .error failure) :
    (jsonStringToObject strObj : Option (Value D)) =
      if failure = .overrun then none else some (.int 0) := by
  have fuelled := parse_ne_fuel (D := D) .all strObj
  rw [refused] at fuelled
  rw [jsonStringToObject, refused]
  cases failure with
  | error info => rfl
  | overrun => rfl
  | fuel => exact absurd rfl fuelled

end Values

end CppCode.Json
