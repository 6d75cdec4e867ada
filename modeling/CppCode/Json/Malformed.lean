import CppCode.Json.Reading
import CppCode.Json.Reread

/-!
# Malformed texts

What `JsonStringToObject` returns for a text that is none. When the reading fails the function
returns `NULL`, which is an `Int` and not the null value, and the reading also succeeds with
whatever stands behind the value. So the null value comes back exactly when the first token is
`null` (`jsonStringToObject_null`), whether the rest makes a text of it or not. Which token is the
first one is said by the grammar of gaps, which is what the reader passes over
(`readPastComments_gap`, `gap_of_readPastComments`).
-/

namespace CppCode.Json

open Library Mongoose JsonText

/-! ## Comments -/

/-- A comment between marks ends at the first mark. -/
theorem readCStyleComment_body {body : Bytes} (inside : ¬[star, slash] <:+: body) (rest : Bytes) :
    readCStyleComment (body ++ star :: slash :: rest) = (true, rest) := by
  induction body with
  | nil => rfl
  | cons c body ih =>
    rw [List.infix_cons_iff, not_or] at inside
    have open' : ¬(c = 42 ∧ current (body ++ star :: slash :: rest) = 47) := by
      rintro ⟨rfl, next⟩
      cases body with
      | nil => exact absurd (show (42 : UInt8) = 47 from next) (by decide)
      | cons second body =>
        obtain rfl : second = slash := next
        exact inside.1 ⟨body, rfl⟩
    rw [List.cons_append, readCStyleComment, if_neg open', ih inside.2]

/-- A comment between marks that was read ends with the first mark. -/
theorem body_of_readCStyleComment {input rest : Bytes}
    (read : readCStyleComment input = (true, rest)) :
    ∃ body, input = body ++ star :: slash :: rest ∧ ¬[star, slash] <:+: body := by
  induction input with
  | nil => cases read
  | cons c input ih =>
    rw [readCStyleComment] at read
    by_cases ends : c = 42 ∧ current input = 47
    · rw [if_pos ends] at read
      obtain ⟨rfl, next⟩ := ends
      obtain ⟨-, rfl⟩ := Prod.mk.inj read
      cases input with
      | nil => exact absurd next (by decide)
      | cons second input =>
        obtain rfl : second = 47 := next
        exact ⟨[], rfl, by decide⟩
    · rw [if_neg ends] at read
      obtain ⟨body, rfl, inside⟩ := ih read
      refine ⟨c :: body, rfl, ?_⟩
      rw [List.infix_cons_iff, not_or]
      refine ⟨fun front => ends ?_, inside⟩
      obtain ⟨after, same⟩ := front
      obtain ⟨rfl, next⟩ := List.cons.inj same
      rw [← next]
      exact ⟨rfl, rfl⟩

/-- A comment up to the end of the line ends at the first end of a line. -/
theorem readCppStyleComment_body {body : Bytes} (inside : ∀ byte ∈ body, ¬LineEnd byte)
    {last : UInt8} (ends : LineEnd last) (rest : Bytes) :
    readCppStyleComment (body ++ last :: rest) = rest := by
  induction body with
  | nil => exact if_pos (Or.comm.mp ends)
  | cons c body ih =>
    obtain ⟨first, later⟩ := List.forall_mem_cons.mp inside
    have open' : ¬(c = 13 ∨ c = 10) := fun mark => first (Or.comm.mp mark)
    rw [List.cons_append, readCppStyleComment, if_neg open', ih later]

/-- A comment up to the end of the line that was read ends there or with the input. -/
theorem body_of_readCppStyleComment (input : Bytes) :
    readCppStyleComment input = [] ∨
      ∃ body last, input = body ++ last :: readCppStyleComment input ∧
      LineEnd last ∧ ∀ byte ∈ body, ¬LineEnd byte := by
  induction input with
  | nil => exact .inl rfl
  | cons c input ih =>
    rw [readCppStyleComment]
    by_cases mark : c = 13 ∨ c = 10
    · rw [if_pos mark]
      exact .inr ⟨[], c, rfl, Or.comm.mp mark, by simp⟩
    · rw [if_neg mark]
      rcases ih with cut | ⟨body, last, shape, ends, inside⟩
      · exact .inl cut
      · refine .inr ⟨c :: body, last, congrArg (c :: ·) shape, ends, ?_⟩
        exact List.forall_mem_cons.mpr ⟨fun ended => mark (Or.comm.mp ended), inside⟩

/-! ## Gaps -/

/-- The blanks of the reader are those of the grammar. -/
theorem isSpace_iff (c : UInt8) : isSpace c = true ↔ Blank [c] := by
  simp only [isSpace, Bool.or_eq_true, beq_iff_eq, Blank, List.mem_singleton, forall_eq]
  constructor
  · rintro (((rfl | rfl) | rfl) | rfl) <;> decide
  · rintro (rfl | rfl | rfl | rfl) <;> decide

/-- A token may have blanks in front of it. -/
theorem readToken_blank {c : UInt8} (blank : isSpace c = true) (input : Bytes) :
    readToken (c :: input) = readToken input := by
  have skipped : skipSpaces (c :: input) = skipSpaces input := List.dropWhile_cons_of_pos blank
  simp only [readToken, skipped]

/-- So may the token behind comments. -/
theorem readPastComments_blank {c : UInt8} (blank : isSpace c = true) (count : Nat)
    (input : Bytes) : readPastComments count (c :: input) = readPastComments count input := by
  cases count with
  | zero => exact readToken_blank blank input
  | succ count => rw [readPastComments, readPastComments, readToken_blank blank]

/-- A comment is passed over. -/
theorem readPastComments_comment {input rest : Bytes} (read : readComment input = (true, rest))
    (spans : ∃ consumed, 47 :: input = consumed ++ rest) (count : Nat) :
    readPastComments (count + 1) (47 :: input) = readPastComments count rest := by
  obtain ⟨consumed, shape⟩ := spans
  have token : readToken (47 :: input) = (⟨.tokenComment, consumed⟩, rest) := by
    refine readToken_eq rfl ?_ shape
    exact congrArg (Prod.mk TokenType.tokenComment) read
  rw [readPastComments, token]
  exact if_pos rfl

/-- The reader passes over a gap in front of a token. -/
theorem readPastComments_gap {gap after rest : Bytes} {token : Token} (isGap : CommentGap gap)
    (read : readToken after = (token, rest)) (noComment : token.type ≠ .tokenComment)
    {count : Nat} (enough : gap.length ≤ count) :
    readPastComments count (gap ++ after) = (token, rest) := by
  induction isGap generalizing count with
  | nil => exact readPastComments_eq count read noComment
  | blank first _ ih =>
    rw [List.cons_append, readPastComments_blank ((isSpace_iff _).mpr first)]
    exact ih (Nat.le_of_succ_le enough)
  | @block body later inside _ ih =>
    obtain ⟨count, rfl⟩ : ∃ fewer, count = fewer + 1 :=
      Nat.exists_eq_add_one_of_ne_zero (by simp only [List.length_cons] at enough; omega)
    have comment : readComment (42 :: (body ++ star :: slash :: (later ++ after))) =
        (true, later ++ after) := readCStyleComment_body inside (later ++ after)
    have shape : slash :: star :: (body ++ star :: slash :: later) ++ after =
        47 :: 42 :: (body ++ star :: slash :: (later ++ after)) := by simp
    rw [shape, readPastComments_comment comment ⟨47 :: 42 :: (body ++ [star, slash]), by simp⟩]
    apply ih
    simp only [List.length_cons, List.length_append] at enough
    omega
  | @line body later last inside ends _ ih =>
    obtain ⟨count, rfl⟩ : ∃ fewer, count = fewer + 1 :=
      Nat.exists_eq_add_one_of_ne_zero (by simp only [List.length_cons] at enough; omega)
    have comment : readComment (47 :: (body ++ last :: (later ++ after))) =
        (true, later ++ after) :=
      congrArg (Prod.mk true) (readCppStyleComment_body inside ends (later ++ after))
    have shape : slash :: slash :: (body ++ last :: later) ++ after =
        47 :: 47 :: (body ++ last :: (later ++ after)) := by simp
    rw [shape, readPastComments_comment comment ⟨47 :: 47 :: (body ++ [last]), by simp⟩]
    apply ih
    simp only [List.length_cons, List.length_append] at enough
    omega

/-- A token whose type, if it is a comment or `null`, belongs to its first character. -/
def Begins (c : UInt8) (token : TokenType × Bool × Bytes) : Prop :=
  (token.1 = .tokenComment → c = 47) ∧ (token.1 = .tokenNull → c = 110)

/-- A choice between a token that is neither and another one. -/
theorem begins_ite {c : UInt8} {choice : Prop} [Decidable choice] {type : TokenType}
    {found : Bool × Bytes} {second : TokenType × Bool × Bytes}
    (neither : type ≠ .tokenComment ∧ type ≠ .tokenNull) (right : Begins c second) :
    Begins c (if choice then (type, found) else second) := by
  by_cases chosen : choice
  · rw [if_pos chosen]
    exact ⟨fun comment => absurd comment neither.1, fun null => absurd null neither.2⟩
  · rw [if_neg chosen]
    exact right

/-- Only a slash begins a comment, and only an `n` begins `null`. -/
theorem tokenAt_begins (c : UInt8) (input : Bytes) : Begins c (tokenAt c input) := by
  unfold tokenAt
  refine begins_ite (by decide) (begins_ite (by decide) ?_)
  refine begins_ite (by decide) (begins_ite (by decide) (begins_ite (by decide) ?_))
  by_cases comment : c = 47
  · rw [if_pos comment]
    exact ⟨fun _ => comment, fun null => absurd null (by simp)⟩
  · rw [if_neg comment]
    refine begins_ite (by decide) (begins_ite (by decide) (begins_ite (by decide) ?_))
    by_cases null : c = 110
    · rw [if_pos null]
      exact ⟨fun none => absurd none (by simp), fun _ => null⟩
    · rw [if_neg null]
      refine begins_ite (by decide) (begins_ite (by decide) (begins_ite (by decide) ?_))
      exact ⟨fun none => absurd none (by simp), fun none => absurd none (by simp)⟩

/-- What `readToken` makes of the input behind blanks. -/
theorem readToken_shape {c : UInt8} {input : Bytes} (noSpace : isSpace c = false) :
    readToken (c :: input) = (⟨if (tokenAt c input).2.1 then (tokenAt c input).1 else .tokenError,
      (c :: input).take ((c :: input).length - (tokenAt c input).2.2.length)⟩,
      (tokenAt c input).2.2) := by
  have start : skipSpaces (c :: input) = c :: input :=
    List.dropWhile_cons_of_neg (by simp [noSpace])
  simp only [readToken, start, current, List.headD_cons, List.drop_one, List.tail_cons]

/-- A comment that was read is a gap, unless the end of the input cuts it off. -/
theorem gap_of_comment {c : UInt8} {input rest : Bytes} {token : Token}
    (noSpace : isSpace c = false) (read : readToken (c :: input) = (token, rest))
    (comment : token.type = .tokenComment) :
    rest = [] ∨ ∃ body, c :: input = body ++ rest ∧ CommentGap body := by
  rw [readToken_shape noSpace] at read
  obtain ⟨rfl, rfl⟩ := Prod.mk.inj read
  have complete : (tokenAt c input).2.1 = true := by
    by_contra incomplete
    rw [if_neg incomplete] at comment
    cases comment
  rw [if_pos complete] at comment
  obtain rfl := (tokenAt_begins c input).1 comment
  change (readComment input).1 = true at complete
  show (readComment input).2 = [] ∨ ∃ body, 47 :: input = body ++ (readComment input).2 ∧ _
  cases input with
  | nil => exact .inl rfl
  | cons second input =>
    rw [readComment] at complete ⊢
    by_cases block : second = 42
    · rw [if_pos block] at complete ⊢
      obtain rfl := block
      obtain ⟨body, shape, inside⟩ := body_of_readCStyleComment (Prod.ext complete rfl)
      refine .inr ⟨_, ?_, .block inside .nil⟩
      simp [← shape]
    · rw [if_neg block] at complete ⊢
      by_cases line : second = 47
      · rw [if_pos line] at complete ⊢
        obtain rfl := line
        rcases body_of_readCppStyleComment input with cut | ⟨body, last, shape, ends, inside⟩
        · exact .inl cut
        · refine .inr ⟨_, ?_, .line inside ends .nil⟩
          simp [← shape]
      · rw [if_neg line] at complete
        cases complete

/-- At the end of the input the reader finds the end of the stream. -/
theorem readPastComments_nil (count : Nat) :
    readPastComments count [] = (⟨.tokenEndOfStream, []⟩, []) := by
  cases count with
  | zero => rfl
  | succ count => rfl

/-- In front of a token that the reader finds behind comments stands a gap, unless the end of the
input cuts off the last comment. -/
theorem gap_of_readPastComments {count : Nat} {input rest : Bytes} {token : Token}
    (read : readPastComments count input = (token, rest))
    (found : token.type ≠ .tokenComment ∧ token.type ≠ .tokenEndOfStream) :
    ∃ gap after, input = gap ++ after ∧ CommentGap gap ∧ readToken after = (token, rest) := by
  have notEnded (count : Nat) : readPastComments count [] ≠ (token, rest) := by
    intro ended
    rw [readPastComments_nil] at ended
    obtain ⟨rfl, -⟩ := Prod.mk.inj ended
    exact found.2 rfl
  induction count generalizing input with
  | zero => exact ⟨[], input, rfl, .nil, read⟩
  | succ count ih =>
    induction input with
    | nil => exact absurd read (notEnded _)
    | cons c input behind =>
      by_cases blank : isSpace c = true
      · rw [readPastComments_blank blank] at read
        obtain ⟨gap, after, rfl, isGap, next⟩ := behind read
        exact ⟨c :: gap, after, rfl, .blank ((isSpace_iff c).mp blank) isGap, next⟩
      · have noSpace : isSpace c = false := Bool.eq_false_iff.mpr blank
        rw [readPastComments] at read
        cases first : readToken (c :: input) with
        | mk next left =>
          rw [first] at read
          by_cases comment : next.type = .tokenComment
          · have read : readPastComments count left = (token, rest) := by
              simpa only [comment, if_true] using read
            rcases gap_of_comment noSpace first comment with rfl | ⟨body, front, isBody⟩
            · exact absurd read (notEnded count)
            · obtain ⟨gap, after, rfl, isGap, last⟩ := ih read
              exact ⟨body ++ gap, after, by rw [front, List.append_assoc], isBody.append isGap,
                last⟩
          · have read : (next, left) = (token, rest) := by
              simpa only [comment, if_false] using read
            exact ⟨[], c :: input, rfl, .nil, first.trans read⟩

/-! ## The null value -/

/-- The first token, behind blanks and comments, is `null`. -/
def BeginsNull (text : Bytes) : Prop :=
  ∃ gap rest, text = gap ++ ascii "null" ++ rest ∧ CommentGap gap

/-- A token `null` is that word, behind blanks. -/
theorem null_of_readToken {input : Bytes} (null : (readToken input).1.type = .tokenNull) :
    ∃ blanks rest, input = blanks ++ ascii "null" ++ rest ∧ Blank blanks := by
  induction input with
  | nil => cases null
  | cons c input ih =>
    by_cases blank : isSpace c = true
    · rw [readToken_blank blank] at null
      obtain ⟨blanks, rest, rfl, others⟩ := ih null
      have first := (isSpace_iff c).mp blank c List.mem_cons_self
      exact ⟨c :: blanks, rest, rfl, List.forall_mem_cons.mpr ⟨first, others⟩⟩
    · rw [readToken_shape (Bool.eq_false_iff.mpr blank)] at null
      have complete : (tokenAt c input).2.1 = true := by
        by_contra incomplete
        simp only [if_neg incomplete] at null
        cases null
      simp only [if_pos complete] at null
      obtain rfl := (tokenAt_begins c input).2 null
      change (matchText (ascii "ull") input).1 = true at complete
      have word : (ascii "ull").isPrefixOf input = true := by
        by_contra other
        rw [matchText, if_neg other] at complete
        cases complete
      obtain ⟨rest, rfl⟩ := List.isPrefixOf_iff_prefix.mp word
      exact ⟨[], rest, rfl, blank_nil⟩

/-- The reader finds `null` first in the texts that begin with it. -/
theorem skipCommentTokens_null (text : Bytes) :
    (skipCommentTokens .all text).1.type = .tokenNull ↔ BeginsNull text := by
  constructor
  · intro null
    change (readPastComments text.length text).1.type = .tokenNull at null
    have other : (readPastComments text.length text).1.type ≠ .tokenComment ∧
        (readPastComments text.length text).1.type ≠ .tokenEndOfStream := by
      rw [null]
      decide
    obtain ⟨gap, after, shape, isGap, read⟩ := gap_of_readPastComments rfl other
    obtain ⟨blanks, rest, rfl, blank⟩ := null_of_readToken (by rw [read]; exact null)
    refine ⟨gap ++ blanks, rest, ?_, isGap.append blank.commentGap⟩
    rw [shape, List.append_assoc, List.append_assoc, List.append_assoc]
  · rintro ⟨gap, rest, rfl, isGap⟩
    rw [List.append_assoc]
    have read := readPastComments_gap isGap (readToken_null rest) (by decide)
      (by simp : gap.length ≤ (gap ++ (ascii "null" ++ rest)).length)
    exact congrArg (fun found => found.1.type) read

section Values

variable {D : Type} [CDouble D]

/-- What is made of a result that succeeds is made of its value. -/
theorem ok_of_map {α β : Type} {result : Except Failure α} {f : α → β} {made : β}
    (read : result.map f = .ok made) : ∃ value, result = .ok value ∧ f value = made := by
  cases result with
  | error failure => cases read
  | ok value => exact ⟨value, rfl, Except.ok.inj read⟩

/-- A number is not the null value. -/
theorem decodeNumber_isNull {token : Token} {value : Value D}
    (read : decodeNumber token = .ok value) : value.isNull = false := by
  have double (read : decodeDouble token = .ok value) : value.isNull = false := by
    simp only [decodeDouble] at read
    split at read
    · cases read
    · split at read
      · obtain rfl := Except.ok.inj read
        rfl
      · cases read
  unfold decodeNumber at read
  split at read
  · exact double read
  · simp only at read
    split at read
    · cases read
    · exact double read
    · split_ifs at read
      all_goals
        obtain rfl := Except.ok.inj read
        rfl

/-- The loop over elements returns an array. -/
theorem readElements_isNull {features : Features} {fuel : Nat} {index : Int32}
    {map : List (Int32 × Value D)} {input rest : Bytes} {value : Value D}
    (read : readElements features fuel index map input = .ok (value, rest)) :
    value.isNull = false := by
  induction fuel generalizing index map input with
  | zero => cases read
  | succ fuel ih =>
    rw [readElements] at read
    cases element : (readValue features fuel input : Except Failure (Value D × Bytes)) with
    | error failure =>
      rw [element] at read
      cases read
    | ok found =>
      rw [element] at read
      simp only at read
      split_ifs at read
      · cases read
      · obtain ⟨rfl, -⟩ := Prod.mk.inj (Except.ok.inj read)
        rfl
      · exact ih read

/-- The loop over members returns an object. -/
theorem readMembers_isNull {features : Features} {fuel : Nat} {name : Bytes}
    {map : List (Bytes × Value D)} {input rest : Bytes} {value : Value D}
    (read : readMembers features fuel name map input = .ok (value, rest)) :
    value.isNull = false := by
  induction fuel generalizing name map input with
  | zero => cases read
  | succ fuel ih =>
    rw [readMembers] at read
    generalize readPastComments input.length input = next at read
    simp only at read
    by_cases last : next.1.type = .tokenObjectEnd ∧ name = []
    · rw [if_pos last] at read
      obtain ⟨rfl, -⟩ := Prod.mk.inj (Except.ok.inj read)
      rfl
    · rw [if_neg last] at read
      by_cases unnamed : next.1.type ≠ .tokenString
      · rw [if_pos unnamed] at read
        cases read
      · rw [if_neg unnamed] at read
        cases decoded : decodeString next.1 with
        | error failure =>
          rw [decoded] at read
          cases read
        | ok name =>
          rw [decoded] at read
          simp only at read
          by_cases missing : (readToken next.2).1.type ≠ .tokenMemberSeparator
          · rw [if_pos missing] at read
            cases read
          · rw [if_neg missing] at read
            cases member : (readValue features fuel (readToken next.2).2 :
                Except Failure (Value D × Bytes)) with
            | error failure =>
              rw [member] at read
              cases read
            | ok found =>
              rw [member] at read
              simp only at read
              split_ifs at read
              · cases read
              · obtain ⟨rfl, -⟩ := Prod.mk.inj (Except.ok.inj read)
                rfl
              · exact ih read

/-- A value that was read is the null value exactly when its first token is `null`. -/
theorem readValue_isNull {fuel : Nat} {input rest : Bytes} {value : Value D}
    (read : readValue .all fuel input = .ok (value, rest)) :
    value.isNull = true ↔ (skipCommentTokens .all input).1.type = .tokenNull := by
  cases fuel with
  | zero => cases read
  | succ fuel =>
    rw [readValue] at read
    generalize skipCommentTokens .all input = next at read ⊢
    obtain ⟨⟨type, text⟩, after⟩ := next
    have no {value : Value D} (other : value.isNull = false) (noNull : type ≠ .tokenNull) :
        value.isNull = true ↔ type = .tokenNull :=
      iff_of_false (by simp [other]) noNull
    cases type with
    | tokenObjectBegin => exact no (readMembers_isNull read) (by decide)
    | tokenArrayBegin =>
      simp only at read
      split_ifs at read
      · obtain ⟨rfl, -⟩ := Prod.mk.inj (Except.ok.inj read)
        exact no rfl (by decide)
      · exact no (readElements_isNull read) (by decide)
    | tokenNumber =>
      obtain ⟨number, decoded, same⟩ := ok_of_map read
      obtain ⟨rfl, -⟩ := Prod.mk.inj same
      exact no (decodeNumber_isNull decoded) (by decide)
    | tokenString =>
      obtain ⟨string, -, same⟩ := ok_of_map read
      obtain ⟨rfl, -⟩ := Prod.mk.inj same
      exact no rfl (by decide)
    | tokenTrue | tokenFalse =>
      obtain ⟨rfl, -⟩ := Prod.mk.inj (Except.ok.inj read)
      exact no rfl (by decide)
    | tokenNull =>
      obtain ⟨rfl, -⟩ := Prod.mk.inj (Except.ok.inj read)
      exact iff_of_true rfl rfl
    | tokenEndOfStream | tokenObjectEnd | tokenArrayEnd | tokenArraySeparator
    | tokenMemberSeparator | tokenComment | tokenError => cases read

/-- A text that begins with `null` is read as the null value, whatever stands behind it. -/
theorem readValue_null {fuel : Nat} {input : Bytes}
    (null : (skipCommentTokens .all input).1.type = .tokenNull) :
    (readValue .all (fuel + 1) input : Except Failure (Value D × Bytes)) =
      .ok (.null, (skipCommentTokens .all input).2) := by
  rw [readValue]
  simp only [null]

/-- `JsonStringToObject` returns the null value exactly for the texts that begin with `null`. -/
theorem jsonStringToObject_null (strObj : Bytes) :
    (∃ value : Value D, jsonStringToObject strObj = some value ∧ value.isNull = true) ↔
      BeginsNull strObj := by
  rw [← skipCommentTokens_null]
  constructor
  · rintro ⟨value, returned, null⟩
    cases parsed : (parse .all strObj : Except Failure (Value D)) with
    | error failure =>
      rw [jsonStringToObject_refused parsed] at returned
      by_cases overrun : failure = .overrun
      · rw [if_pos overrun] at returned
        cases returned
      · rw [if_neg overrun] at returned
        obtain rfl := Option.some.inj returned
        cases null
    | ok root =>
      rw [jsonStringToObject, parsed] at returned
      obtain rfl := Option.some.inj returned
      unfold parse at parsed
      cases read : (readValue .all (2 * strObj.length + 1) strObj :
          Except Failure (Value D × Bytes)) with
      | error failure =>
        rw [read] at parsed
        cases parsed
      | ok found =>
        rw [read] at parsed
        obtain rfl := Except.ok.inj parsed
        exact (readValue_isNull read).mp null
  · intro null
    have read : (readValue .all (2 * strObj.length + 1) strObj :
        Except Failure (Value D × Bytes)) = _ := readValue_null null
    refine ⟨.null, ?_, rfl⟩
    unfold jsonStringToObject parse
    rw [read]
    rfl

/-- `JsonStringToObject` signals bad input by the null value exactly for the byte strings that are
texts, or begin with `null`. -/
theorem signalsMalformed_iff (strObj : Bytes) :
    (¬IsCommentedText strObj → ∃ value : Value D, jsonStringToObject strObj = some value ∧
      value.isNull = true) ↔ IsCommentedText strObj ∨ BeginsNull strObj := by
  rw [jsonStringToObject_null]
  exact or_iff_not_imp_left.symm

end Values

/-- The empty string is no text, and the value that is returned for it is the `Int` zero, which is
not the null value. -/
theorem empty_notSignalled : ¬IsCommentedText [] ∧
    jsonStringToObject [] = some (.int 0 : Value Int) ∧
    ¬∃ value : Value Int, jsonStringToObject [] = some value ∧ value.isNull = true := by
  have returned : jsonStringToObject [] = some (.int 0 : Value Int) := rfl
  refine ⟨not_isCommentedText_nil, returned, ?_⟩
  rintro ⟨value, same, null⟩
  rw [returned] at same
  obtain rfl := Option.some.inj same
  cases null

end CppCode.Json
