import CppCode.Json.Tokens

/-!
# Reading back what was written

`reread` is what reading the text of a value gives, computed from the value: numbers as the reader
decodes them, arrays without holes, and the failure of the first part that fails. Reading goes
through the text of a value whatever follows it (`reads_writeValue`, by induction over the value),
so a written document is read as `reread` has it (`parse_write`).
-/

namespace CppCode.Json

open Library Mongoose

/-! ## Entries -/

section Entries

variable {κ α β : Type}

/-- The values of a list under the indices from a start on. -/
def indexed : Nat → List α → List (Int32 × α)
  | _, [] => []
  | start, value :: rest => (Int32.ofNat start, value) :: indexed (start + 1) rest

/-- Entries of which every value has been read, or the first failure. -/
def sequence : List (κ × Except Failure α) → Except Failure (List (κ × α))
  | [] => .ok []
  | (_, .error failure) :: _ => .error failure
  | (key, .ok value) :: rest => (sequence rest).map ((key, value) :: ·)

/-- An entry that has been read is in front of the others. -/
theorem map_sequence_cons (key : κ) (value : α) (rest : List (κ × Except Failure α))
    (build : List (κ × α) → β) :
    (sequence ((key, .ok value) :: rest)).map build =
      (sequence rest).map fun found => build ((key, value) :: found) := by
  rw [sequence]
  cases sequence rest with
  | error failure => rfl
  | ok found => rfl

/-- Entries are read when each of them is. -/
theorem sequence_ok (found : List (κ × α)) :
    sequence (found.map fun entry => (entry.1, .ok entry.2)) = .ok found := by
  induction found with
  | nil => rfl
  | cons entry found ih =>
    rw [List.map_cons, sequence, ih]
    rfl

/-- When entries are read, each of them is. -/
theorem eq_of_sequence {entries : List (κ × Except Failure α)} {found : List (κ × α)}
    (read : sequence entries = .ok found) :
    entries = found.map fun entry => (entry.1, .ok entry.2) := by
  induction entries generalizing found with
  | nil =>
    obtain rfl := Except.ok.inj read
    rfl
  | cons entry entries ih =>
    obtain ⟨key, result⟩ := entry
    cases result with
    | error failure => cases read
    | ok value =>
      cases later : sequence entries with
      | error failure =>
        rw [sequence, later] at read
        cases read
      | ok values =>
        rw [sequence, later] at read
        obtain rfl := Except.ok.inj read
        rw [ih later, List.map_cons]

/-- Applying a function to values commutes with giving them indices. -/
theorem indexed_map (change : α → β) (start : Nat) (values : List α) :
    indexed start (values.map change) =
      (indexed start values).map fun entry => (entry.1, change entry.2) := by
  induction values generalizing start with
  | nil => rfl
  | cons value values ih => rw [List.map_cons, indexed, indexed, ih, List.map_cons]

/-- Indices that are no more than `INT_MAX` keep their order. -/
theorem ofNat_lt_ofNat {first second : Nat} (less : first < second) (bound : second < 2 ^ 31) :
    Int32.ofNat first < Int32.ofNat second := by
  rw [Int32.lt_iff_toInt_lt, Int32.toInt_ofNat_of_lt (by omega), Int32.toInt_ofNat_of_lt bound]
  exact_mod_cast less

/-- The indices of an indexed list are those from the start on. -/
theorem mem_indexed {start : Nat} {values : List α} {entry : Int32 × α}
    (inside : entry ∈ indexed start values) :
    ∃ offset < values.length, entry.1 = Int32.ofNat (start + offset) ∧ entry.2 ∈ values := by
  induction values generalizing start with
  | nil => cases inside
  | cons value values ih =>
    rcases List.mem_cons.mp inside with rfl | later
    · exact ⟨0, Nat.succ_pos _, rfl, List.mem_cons_self⟩
    · obtain ⟨offset, below, index, member⟩ := ih later
      refine ⟨offset + 1, Nat.succ_lt_succ below, ?_, List.mem_cons_of_mem _ member⟩
      rw [index, Nat.add_assoc, Nat.add_comm 1]

/-- An indexed list is a map. -/
theorem ascending_indexed {start : Nat} {values : List α}
    (bound : start + values.length ≤ 2 ^ 31) : Ascending (indexed start values) := by
  induction values generalizing start with
  | nil => exact .nil
  | cons value values ih =>
    rw [List.length_cons] at bound
    refine ascending_cons.mpr ⟨fun entry inside => ?_, ih (by omega)⟩
    obtain ⟨offset, below, index, _⟩ := mem_indexed inside
    rw [index]
    exact ofNat_lt_ofNat (by omega) (by omega)

end Entries

/-! ## Loops -/

section Loops

variable {D : Type} [CDouble D] {α : Type}

/-- Reading goes through a text, whatever follows it, and has a result. -/
def Reads (text : Bytes) (result : Except Failure (Value D)) : Prop :=
  ∀ fuel rest, text.length < fuel → Stops rest →
    readValue .all fuel (text ++ rest) = result.map fun value => (value, rest)

/-- A character that is in no number stops one. -/
theorem stops_cons {c : UInt8} (other : isNumberChar c = false) (rest : Bytes) :
    Stops (c :: rest) := by
  rintro byte same
  obtain rfl := Option.some.inj same
  exact other

/-- A comma is one token. -/
theorem readToken_comma (rest : Bytes) :
    readToken (44 :: rest) = (⟨.tokenArraySeparator, [44]⟩, rest) := readToken_eq rfl rfl rfl

/-- A closing bracket is one token. -/
theorem readToken_closeArray (rest : Bytes) :
    readToken (93 :: rest) = (⟨.tokenArrayEnd, [93]⟩, rest) := readToken_eq rfl rfl rfl

/-- A closing brace is one token. -/
theorem readToken_closeObject (rest : Bytes) :
    readToken (125 :: rest) = (⟨.tokenObjectEnd, [125]⟩, rest) := readToken_eq rfl rfl rfl

/-- An opening bracket is one token. -/
theorem readToken_openArray (rest : Bytes) :
    readToken (91 :: rest) = (⟨.tokenArrayBegin, [91]⟩, rest) := readToken_eq rfl rfl rfl

/-- An opening brace is one token. -/
theorem readToken_openObject (rest : Bytes) :
    readToken (123 :: rest) = (⟨.tokenObjectBegin, [123]⟩, rest) := readToken_eq rfl rfl rfl

/-- A colon is one token. -/
theorem readToken_colon (rest : Bytes) :
    readToken (58 :: rest) = (⟨.tokenMemberSeparator, [58]⟩, rest) := readToken_eq rfl rfl rfl

/-- One round of the loop of `readArray` at a value that is followed by a comma. -/
theorem readElements_comma {text rest : Bytes} {result : Except Failure (Value D)}
    (reads : Reads text result) {fuel : Nat} (enough : text.length < fuel) (index : Int32)
    (map : List (Int32 × Value D)) :
    readElements .all (fuel + 1) index map (text ++ 44 :: rest) =
      result.bind fun value =>
        readElements .all fuel (index + 1) (assign map index value) rest := by
  have token (count : Nat) := readPastComments_eq count (readToken_comma rest) (by decide)
  rw [readElements, reads fuel (44 :: rest) enough (stops_cons rfl rest)]
  cases result with
  | error failure => rfl
  | ok value => simp [Except.map, Except.bind, token]

/-- One round of the loop of `readArray` at a value that is followed by the bracket. -/
theorem readElements_close {text rest : Bytes} {result : Except Failure (Value D)}
    (reads : Reads text result) {fuel : Nat} (enough : text.length < fuel) (index : Int32)
    (map : List (Int32 × Value D)) :
    readElements .all (fuel + 1) index map (text ++ 93 :: rest) =
      result.map fun value => (.array (assign map index value), rest) := by
  have token (count : Nat) := readPastComments_eq count (readToken_closeArray rest) (by decide)
  rw [readElements, reads fuel (93 :: rest) enough (stops_cons rfl rest)]
  cases result with
  | error failure => rfl
  | ok value => simp [Except.map, token]

/-- `readArray` reads values with commas between them, each with its result. -/
theorem readElements_separated {text : α → Bytes} {result : α → Except Failure (Value D)}
    {items : List α} (nonempty : items ≠ [])
    (each : ∀ item ∈ items, Reads (text item) (result item)) {fuel start : Nat}
    {map : List (Int32 × Value D)} (bound : start + items.length ≤ 2 ^ 31)
    (below : ∀ entry ∈ map, entry.1 < Int32.ofNat start)
    (enough : (separated (items.map text)).length + 1 < fuel) (rest : Bytes) :
    readElements .all fuel (Int32.ofNat start) map (separated (items.map text) ++ 93 :: rest) =
      (sequence (indexed start (items.map result))).map fun found =>
        (.array (map ++ found), rest) := by
  induction items generalizing start map fuel with
  | nil => exact absurd rfl nonempty
  | cons item items ih =>
    obtain ⟨head, tail⟩ := List.forall_mem_cons.mp each
    obtain ⟨fuel, rfl⟩ : ∃ less, fuel = less + 1 := Nat.exists_eq_add_one_of_ne_zero (by omega)
    rw [List.length_cons] at bound
    have stored (value : Value D) :
        assign map (Int32.ofNat start) value = map ++ [(Int32.ofNat start, value)] :=
      assign_above value below
    cases items with
    | nil =>
      have last : separated ([item].map text) = text item := rfl
      have one : indexed start ([item].map result) = [(Int32.ofNat start, result item)] := rfl
      rw [last] at enough
      rw [last, one, readElements_close head (by omega)]
      cases result item with
      | error failure => rfl
      | ok value => simp [sequence, Except.map, stored]
    | cons next items =>
      have shape : separated ((item :: next :: items).map text) =
          text item ++ 44 :: separated ((next :: items).map text) := rfl
      have step : indexed start ((item :: next :: items).map result) =
          (Int32.ofNat start, result item) ::
            indexed (start + 1) ((next :: items).map result) := rfl
      rw [shape, List.length_append, List.length_cons] at enough
      rw [List.length_cons] at bound
      rw [shape, step, List.append_assoc, List.cons_append, readElements_comma head (by omega)]
      cases result item with
      | error failure => rfl
      | ok value =>
        have less : Int32.ofNat start < Int32.ofNat (start + 1) :=
          ofNat_lt_ofNat (Nat.lt_succ_self start) (by omega)
        have later : ∀ entry ∈ map ++ [(Int32.ofNat start, value)],
            entry.1 < Int32.ofNat (start + 1) := by
          intro entry inside
          rcases List.mem_append.mp inside with old | new
          · exact Std.lt_trans (below entry old) less
          · obtain rfl := List.mem_singleton.mp new
            exact less
        have index : Int32.ofNat start + 1 = Int32.ofNat (start + 1) := by
          rw [Int32.ofNat_add]
          rfl
        have inner := @ih (List.cons_ne_nil _ _) tail fuel (start + 1) _
          (by rw [List.length_cons]; omega) later (by omega)
        simp only [Except.bind, stored, index, inner, map_sequence_cons, List.append_assoc,
          List.singleton_append]

/-- One round of the loop of `readObject` at a member that is followed by a comma. -/
theorem readMembers_comma {name text rest : Bytes} {result : Except Failure (Value D)}
    (reads : Reads text result) {fuel : Nat} (enough : text.length < fuel) (last : Bytes)
    (map : List (Bytes × Value D)) :
    readMembers .all (fuel + 1) last map (memberText (name, text) ++ 44 :: rest) =
      result.bind fun value => readMembers .all fuel name (assign map (cStr name) value) rest := by
  have shape : memberText (name, text) ++ 44 :: rest =
      valueToQuotedString name ++ 58 :: (text ++ 44 :: rest) := by simp [memberText]
  have first (count : Nat) := readPastComments_eq count
    (readToken_quoted name (58 :: (text ++ 44 :: rest))) (by simp)
  have token (count : Nat) := readPastComments_eq count (readToken_comma rest) (by decide)
  have inner := reads fuel (44 :: rest) enough (stops_cons rfl rest)
  rw [shape]
  simp only [readMembers, first, decodeString_quoted, readToken_colon, inner]
  cases result with
  | error failure => simp [Except.map, Except.bind]
  | ok value => simp [Except.map, Except.bind, token, readToken_comma]

/-- One round of the loop of `readObject` at a member that is followed by the brace. -/
theorem readMembers_close {name text rest : Bytes} {result : Except Failure (Value D)}
    (reads : Reads text result) {fuel : Nat} (enough : text.length < fuel) (last : Bytes)
    (map : List (Bytes × Value D)) :
    readMembers .all (fuel + 1) last map (memberText (name, text) ++ 125 :: rest) =
      result.map fun value => (.object (assign map (cStr name) value), rest) := by
  have shape : memberText (name, text) ++ 125 :: rest =
      valueToQuotedString name ++ 58 :: (text ++ 125 :: rest) := by simp [memberText]
  have first (count : Nat) := readPastComments_eq count
    (readToken_quoted name (58 :: (text ++ 125 :: rest))) (by simp)
  have token (count : Nat) := readPastComments_eq count (readToken_closeObject rest) (by decide)
  have inner := reads fuel (125 :: rest) enough (stops_cons rfl rest)
  rw [shape]
  simp only [readMembers, first, decodeString_quoted, readToken_colon, inner]
  cases result with
  | error failure => simp [Except.map]
  | ok value => simp [Except.map, token, readToken_closeObject]

/-- A C string is copied as it is. -/
theorem cStr_of_plain {text : Bytes} (plain : 0 ∉ text) : cStr text = text := by
  refine List.takeWhile_eq_self_iff.mpr fun byte inside => ?_
  rw [bne_iff_ne]
  rintro rfl
  exact plain inside

/-- `readObject` reads members with commas between them, each with its result, when their names
ascend. -/
theorem readMembers_separated {name text : α → Bytes} {result : α → Except Failure (Value D)}
    {items : List α} (nonempty : items ≠ [])
    (each : ∀ item ∈ items, Reads (text item) (result item)) (plain : ∀ item ∈ items, 0 ∉ name item)
    {map : List (Bytes × Value D)}
    (ascending : items.Pairwise fun first second => name first < name second)
    (below : ∀ entry ∈ map, ∀ item ∈ items, entry.1 < name item) {fuel : Nat}
    (enough : (separated (items.map fun item => memberText (name item, text item))).length + 1 <
      fuel) (last rest : Bytes) :
    readMembers .all fuel last map
        (separated (items.map fun item => memberText (name item, text item)) ++ 125 :: rest) =
      (sequence (items.map fun item => (name item, result item))).map fun found =>
        (.object (map ++ found), rest) := by
  induction items generalizing last map fuel with
  | nil => exact absurd rfl nonempty
  | cons item items ih =>
    obtain ⟨head, tail⟩ := List.forall_mem_cons.mp each
    obtain ⟨headPlain, tailPlain⟩ := List.forall_mem_cons.mp plain
    obtain ⟨above, rising⟩ := List.pairwise_cons.mp ascending
    obtain ⟨fuel, rfl⟩ : ∃ less, fuel = less + 1 := Nat.exists_eq_add_one_of_ne_zero (by omega)
    have stored (value : Value D) :
        assign map (cStr (name item)) value = map ++ [(name item, value)] := by
      rw [cStr_of_plain headPlain]
      exact assign_above value fun entry inside => below entry inside item List.mem_cons_self
    have length : (memberText (name item, text item)).length =
        (valueToQuotedString (name item)).length + (text item).length + 1 := by
      simp only [memberText, List.length_append, List.length_cons]
      omega
    cases items with
    | nil =>
      have whole : separated ([item].map fun item => memberText (name item, text item)) =
          memberText (name item, text item) := rfl
      rw [whole] at enough
      rw [whole, readMembers_close head (by omega)]
      simp only [List.map_cons, List.map_nil]
      cases result item with
      | error failure => rfl
      | ok value => simp [sequence, Except.map, stored]
    | cons next items =>
      have shape : separated ((item :: next :: items).map fun item =>
            memberText (name item, text item)) =
          memberText (name item, text item) ++ 44 ::
            separated ((next :: items).map fun item => memberText (name item, text item)) := rfl
      have step : (item :: next :: items).map (fun item => (name item, result item)) =
          (name item, result item) :: (next :: items).map fun item => (name item, result item) :=
        rfl
      rw [shape, List.length_append, List.length_cons] at enough
      rw [shape, step, List.append_assoc, List.cons_append, readMembers_comma head (by omega)]
      cases result item with
      | error failure => rfl
      | ok value =>
        have later : ∀ entry ∈ map ++ [(name item, value)], ∀ other ∈ next :: items,
            entry.1 < name other := by
          intro entry inside other member
          rcases List.mem_append.mp inside with old | new
          · exact below entry old other (List.mem_cons_of_mem _ member)
          · obtain rfl := List.mem_singleton.mp new
            exact above other member
        have inner := @ih (List.cons_ne_nil _ _) tail tailPlain _ rising later fuel (by omega)
          (name item)
        simp only [Except.bind, stored, inner, map_sequence_cons, List.append_assoc,
          List.singleton_append]

end Loops

/-! ## Values -/

section Values

variable {D : Type} [CDouble D]

mutual

/-- What reading back the text of a value gives. -/
def reread : Value D → Except Failure (Value D)
  | .null => .ok .null
  | .int value => decodeNumber ⟨.tokenNumber, intToString value⟩
  | .uint value => decodeNumber ⟨.tokenNumber, uintToString value⟩
  | .real value => decodeNumber ⟨.tokenNumber, trimZeros (CDouble.sprintf value)⟩
  | .string text => .ok (.string text)
  | .boolean value => .ok (.boolean value)
  | .array map =>
    (sequence (indexed 0 (elementsOf (rereadElements map) (.ok .null)))).map .array
  | .object map => (sequence (membersOf (rereadMembers map) (.ok .null))).map .object

/-- What reading back the elements of an array gives. -/
def rereadElements : List (Int32 × Value D) → List (Int32 × Except Failure (Value D))
  | [] => []
  | (index, element) :: rest => (index, reread element) :: rereadElements rest

/-- What reading back the members of an object gives. -/
def rereadMembers : List (Bytes × Value D) → List (Bytes × Except Failure (Value D))
  | [] => []
  | (name, member) :: rest => (name, reread member) :: rereadMembers rest

end

/-- Arrays are read back element by element. -/
theorem reread_array (map : List (Int32 × Value D)) :
    reread (.array map) =
      (sequence (indexed 0 ((elementsOf map .null).map reread))).map .array := by
  have results : rereadElements map = map.map fun entry => (entry.1, reread entry.2) := by
    induction map with
    | nil => rfl
    | cons entry map ih => rw [rereadElements, ih, List.map_cons]
  have loop := elementsOf_map map reread .null
  rw [reread] at loop
  rw [reread, results, loop]

/-- Objects are read back member by member. -/
theorem reread_object {map : List (Bytes × Value D)} (ascending : Ascending map) :
    reread (.object map) =
      (sequence (map.map fun entry => (entry.1, reread entry.2))).map .object := by
  have results : rereadMembers map = map.map fun entry => (entry.1, reread entry.2) := by
    clear ascending
    induction map with
    | nil => rfl
    | cons entry map ih => rw [rereadMembers, ih, List.map_cons]
  rw [reread, results, membersOf_ascending (ascending_map.mpr ascending)]

/-- `match` goes through the text that it looks for. -/
theorem matchText_append (pattern rest : Bytes) :
    matchText pattern (pattern ++ rest) = (true, rest) := by
  have found : pattern.isPrefixOf (pattern ++ rest) = true :=
    List.isPrefixOf_iff_prefix.mpr (List.prefix_append pattern rest)
  rw [matchText, if_pos found, List.drop_left]

/-- A word is one token. -/
theorem readToken_word {c : UInt8} {word : Bytes} {type : TokenType} (noSpace : isSpace c = false)
    (start : ∀ input, tokenAt c input = (type, matchText word input)) (rest : Bytes) :
    readToken (c :: word ++ rest) = (⟨type, c :: word⟩, rest) := by
  rw [List.cons_append]
  exact readToken_eq noSpace (by rw [start, matchText_append]) rfl

/-- `null` is one token. -/
theorem readToken_null (rest : Bytes) :
    readToken (ascii "null" ++ rest) = (⟨.tokenNull, ascii "null"⟩, rest) := by
  have word : ascii "null" = 110 :: ascii "ull" := by decide
  rw [word]
  exact readToken_word rfl (fun _ => rfl) rest

/-- `true` is one token. -/
theorem readToken_true (rest : Bytes) :
    readToken (ascii "true" ++ rest) = (⟨.tokenTrue, ascii "true"⟩, rest) := by
  have word : ascii "true" = 116 :: ascii "rue" := by decide
  rw [word]
  exact readToken_word rfl (fun _ => rfl) rest

/-- `false` is one token. -/
theorem readToken_false (rest : Bytes) :
    readToken (ascii "false" ++ rest) = (⟨.tokenFalse, ascii "false"⟩, rest) := by
  have word : ascii "false" = 102 :: ascii "alse" := by decide
  rw [word]
  exact readToken_word rfl (fun _ => rfl) rest

/-- A text is read with a result when its first token is and the result is that of `readValue`
behind the token. -/
theorem reads_of_token {text : Bytes} {token : Token} {result : Except Failure (Value D)}
    (noComment : token.type ≠ .tokenComment)
    (read : ∀ rest, Stops rest → readToken (text ++ rest) = (token, rest))
    (value : ∀ fuel input rest, skipCommentTokens .all input = (token, rest) →
      readValue .all (fuel + 1) input = result.map fun value => (value, rest)) :
    Reads text result := by
  intro fuel rest enough stops
  obtain ⟨fuel, rfl⟩ : ∃ less, fuel = less + 1 := Nat.exists_eq_add_one_of_ne_zero (by omega)
  exact value fuel _ rest (skipCommentTokens_eq (read rest stops) noComment)

/-- Numbers are read as they are decoded. -/
theorem reads_number {c : UInt8} {digits : Bytes} (first : isDigit c = true ∨ c = 45)
    (all : ∀ byte ∈ digits, isDigit byte = true) :
    Reads (c :: digits) (decodeNumber ⟨.tokenNumber, c :: digits⟩ : Except Failure (Value D)) :=
  reads_of_token (by simp) (fun _ stops => readToken_number first all stops)
    fun fuel input rest token => by simp only [readValue, token]

/-- Numerals are read as they are decoded. -/
theorem reads_decimal (number : Nat) :
    Reads (decimal number)
      (decodeNumber ⟨.tokenNumber, decimal number⟩ : Except Failure (Value D)) := by
  obtain ⟨c, digits, shape⟩ := List.exists_cons_of_ne_nil (decimal_ne_nil number)
  obtain ⟨first, all⟩ := List.forall_mem_cons.mp (shape ▸ decimal_digit number)
  rw [shape]
  exact reads_number (.inl first) all

/-- `null` is read as `null`. -/
theorem reads_null : Reads (ascii "null") (.ok .null : Except Failure (Value D)) :=
  reads_of_token (by simp) (fun rest _ => readToken_null rest)
    fun fuel input rest token => by simp only [readValue, token, Except.map]

/-- A numeral begins with a digit. -/
theorem decimal_eq_cons (number : Nat) :
    ∃ c digits, decimal number = c :: digits ∧ isDigit c = true := by
  obtain ⟨c, digits, shape⟩ := List.exists_cons_of_ne_nil (decimal_ne_nil number)
  exact ⟨c, digits, shape, decimal_digit number c (shape ▸ List.mem_cons_self)⟩

/-- The text of a value begins with neither a blank nor a closing bracket. -/
theorem writeValue_begins {value : Value D} (noReals : value.NoReals) :
    ∃ c text, writeValue value = c :: text ∧ isSpace c = false ∧ c ≠ 93 := by
  have numeral (number : Nat) :
      ∃ c text, decimal number = c :: text ∧ isSpace c = false ∧ c ≠ 93 := by
    obtain ⟨c, digits, shape, digit⟩ := decimal_eq_cons number
    refine ⟨c, digits, shape, isSpace_number (.inl digit), ?_⟩
    rintro rfl
    cases digit
  cases value with
  | null => exact ⟨_, _, rfl, by decide, by decide⟩
  | int value =>
    rw [writeValue, intToString_eq]
    split
    · exact ⟨_, _, rfl, by decide, by decide⟩
    · exact numeral _
  | uint value =>
    rw [writeValue, uintToString_eq]
    exact numeral _
  | real value => exact absurd rfl (noReals _ (.self _) value)
  | string text =>
    rw [writeValue, valueToQuotedString_eq]
    exact ⟨_, _, rfl, by decide, by decide⟩
  | boolean value =>
    cases value with
    | false => exact ⟨_, _, rfl, by decide, by decide⟩
    | true => exact ⟨_, _, rfl, by decide, by decide⟩
  | array map => exact ⟨_, _, by rw [writeValue], by decide, by decide⟩
  | object map => exact ⟨_, _, by rw [writeValue], by decide, by decide⟩

/-- An array is read when the loop over its elements is. -/
theorem reads_array {items : List (Value D)}
    (each : ∀ item ∈ items, Reads (writeValue item) (reread item))
    (noReals : ∀ item ∈ items, item.NoReals) (bound : items.length ≤ 2 ^ 31) :
    Reads (91 :: (separated (items.map writeValue) ++ [93]))
      ((sequence (indexed 0 (items.map reread))).map .array) := by
  intro fuel rest enough stops
  obtain ⟨fuel, rfl⟩ : ∃ less, fuel = less + 1 := Nat.exists_eq_add_one_of_ne_zero (by omega)
  have token := skipCommentTokens_eq
    (readToken_openArray (separated (items.map writeValue) ++ 93 :: rest)) (by decide)
  rw [List.length_cons, List.length_append, List.length_singleton] at enough
  rw [List.cons_append, List.append_assoc, List.singleton_append]
  simp only [readValue, token]
  by_cases none : items = []
  · subst none
    have close : skipSpaces (93 :: rest) = 93 :: rest := List.dropWhile_cons_of_neg (by decide)
    simp [separated, close, current, readToken_closeArray, indexed, sequence, Except.map]
  · have start : skipSpaces (separated (items.map writeValue) ++ 93 :: rest) =
          separated (items.map writeValue) ++ 93 :: rest ∧
        current (separated (items.map writeValue) ++ 93 :: rest) ≠ 93 := by
      obtain ⟨item, others, rfl⟩ := List.exists_cons_of_ne_nil none
      obtain ⟨c, text, begins, noSpace, noClose⟩ :=
        writeValue_begins (noReals item List.mem_cons_self)
      obtain ⟨tail, shape⟩ : ∃ tail, separated ((item :: others).map writeValue) = c :: tail := by
        cases others with
        | nil => exact ⟨_, begins⟩
        | cons other others =>
          have whole : separated ((item :: other :: others).map writeValue) =
              writeValue item ++ 44 :: separated ((other :: others).map writeValue) := rfl
          exact ⟨_, whole.trans (by rw [begins, List.cons_append])⟩
      rw [shape, List.cons_append]
      exact ⟨List.dropWhile_cons_of_neg (by simp [noSpace]), noClose⟩
    have loop := readElements_separated none each (Nat.zero_add items.length ▸ bound)
      (List.forall_mem_nil _) (by omega : _ < fuel) rest
    rw [start.1, if_neg start.2]
    apply loop.trans
    cases sequence (indexed 0 (items.map reread)) with
    | error failure => rfl
    | ok found => rfl

/-- An object is read when the loop over its members is. -/
theorem reads_object {map : List (Bytes × Value D)}
    (each : ∀ entry ∈ map, Reads (writeValue entry.2) (reread entry.2))
    (ascending : Ascending map) (plain : ∀ entry ∈ map, 0 ∉ entry.1) :
    Reads (123 :: (separated (map.map fun entry => memberText (entry.1, writeValue entry.2)) ++
        [125]))
      ((sequence (map.map fun entry => (entry.1, reread entry.2))).map .object) := by
  intro fuel rest enough stops
  obtain ⟨fuel, rfl⟩ : ∃ less, fuel = less + 1 := Nat.exists_eq_add_one_of_ne_zero (by omega)
  have token := skipCommentTokens_eq (readToken_openObject (separated
    (map.map fun entry => memberText (entry.1, writeValue entry.2)) ++ 125 :: rest)) (by decide)
  rw [List.length_cons, List.length_append, List.length_singleton] at enough
  rw [List.cons_append, List.append_assoc, List.singleton_append]
  simp only [readValue, token]
  by_cases none : map = []
  · subst none
    obtain ⟨fuel, rfl⟩ : ∃ less, fuel = less + 1 := Nat.exists_eq_add_one_of_ne_zero (by omega)
    have close (count : Nat) := readPastComments_eq count (readToken_closeObject rest) (by decide)
    simp [separated, readMembers, close, sequence, Except.map]
  · have loop := readMembers_separated none each plain ascending
      (List.forall_mem_nil _) (by omega : _ < fuel) [] rest
    apply loop.trans
    cases sequence (map.map fun entry => (entry.1, reread entry.2)) with
    | error failure => rfl
    | ok found => rfl

/-- The text of a value without doubles is read back as `reread` has it. -/
theorem reads_writeValue {value : Value D} (wellFormed : value.WellFormed)
    (noReals : value.NoReals) : Reads (writeValue value) (reread value) := by
  induction value using Value.nested with
  | null =>
    rw [writeValue, reread]
    exact reads_null
  | int value =>
    rw [writeValue, reread, intToString_eq]
    split
    · exact reads_number (.inr rfl) (decimal_digit _)
    · exact reads_decimal _
  | uint value =>
    rw [writeValue, reread, uintToString_eq]
    exact reads_decimal _
  | real value => exact absurd rfl (noReals _ (.self _) value)
  | string text =>
    have plain : (Value.ofString text : Value D) = .string text :=
      congrArg Value.string (cStr_of_plain (wellFormed _ (.self _)))
    rw [writeValue, reread]
    exact reads_of_token (by simp) (fun rest _ => readToken_quoted text rest)
      fun fuel input rest token => by
        simp only [readValue, token, decodeString_quoted, Except.map, plain]
  | boolean value =>
    rw [writeValue, reread]
    cases value with
    | false =>
      exact reads_of_token (by simp) (fun rest _ => readToken_false rest)
        fun fuel input rest token => by simp only [readValue, token, Except.map]
    | true =>
      exact reads_of_token (by simp) (fun rest _ => readToken_true rest)
        fun fuel input rest token => by simp only [readValue, token, Except.map]
  | array map ih =>
    have each : ∀ element ∈ elementsOf map .null, Reads (writeValue element) (reread element) := by
      intro element visited
      rcases mem_elementsOf visited with rfl | ⟨index, inside⟩
      · rw [writeValue, reread]
        exact reads_null
      · exact ih _ inside (wellFormed.element inside) (noReals.element inside)
    have values : ∀ element ∈ elementsOf map .null, element.NoReals := by
      intro element visited
      rcases mem_elementsOf visited with rfl | ⟨index, inside⟩
      · exact (forall_part_leaf rfl).mpr fun _ same => by cases same
      · exact noReals.element inside
    have bound : (elementsOf map Value.null).length ≤ 2 ^ 31 := by
      have top := (arraySize map).toInt32.toInt_lt
      simp only [elementsOf, List.length_map, List.length_range]
      omega
    rw [writeValue_array, reread_array]
    exact reads_array each values bound
  | object map ih =>
    obtain ⟨ascending, plain⟩ := wellFormed _ (.self _)
    rw [writeValue_object ascending, reread_object ascending]
    exact reads_object (fun entry inside => ih entry inside (wellFormed.member inside)
      (noReals.member inside)) ascending plain

/-- A written document is read back as `reread` has it. -/
theorem parse_write {value : Value D} (wellFormed : value.WellFormed) (noReals : value.NoReals) :
    parse .all (jsonObjectToString value) = reread value := by
  have read := reads_writeValue wellFormed noReals (2 * (jsonObjectToString value).length + 1) [10]
    (by simp only [jsonObjectToString, write, List.length_append]; omega) (stops_cons rfl [])
  change readValue .all _ (jsonObjectToString value) = _ at read
  rw [parse, read]
  cases reread value with
  | error failure => rfl
  | ok root => rfl

end Values

end CppCode.Json
