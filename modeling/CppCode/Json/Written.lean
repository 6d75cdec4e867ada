import CppCode.Library.JsonText
import CppCode.Json.Writer

/-!
# Whether what `FastWriter` writes is JSON

`datum` is what a value is meant to denote, and `Written` are the strings and member names that
are written for it. The writer leaves control characters without a short escape as they are
(`Bare`), which the grammar forbids; every other byte is copied or escaped as the grammar has it
(`chars_quoted`). So a value without such characters is written as a text that denotes it
(`value_writeValue`), and one with any of them is not written as a text (`isText_write_iff`).
-/

namespace CppCode.Json

open Library Mongoose JsonText

/-- A control character that the writer does not escape. -/
def Bare (byte : UInt8) : Prop := isControlCharacter byte = true ∧ specials.contains byte = false

section Written

variable {D : Type}

/-- A string, or a name of a member, that is written for a value. -/
inductive Written : Bytes → Value D → Prop
  /-- A string. -/
  | string (text : Bytes) : Written text (.string text)
  /-- In an element that the loop over an array takes. -/
  | element {map : List (Int32 × Value D)} {element : Value D} {text : Bytes}
      (visited : element ∈ elementsOf map .null) (inner : Written text element) :
      Written text (.array map)
  /-- The name of a member. -/
  | name {map : List (Bytes × Value D)} {entry : Bytes × Value D} (inside : entry ∈ map) :
      Written entry.1 (.object map)
  /-- In a member. -/
  | member {map : List (Bytes × Value D)} {entry : Bytes × Value D} {text : Bytes}
      (inside : entry ∈ map) (inner : Written text entry.2) : Written text (.object map)

/-- No written string or name has a control character that is not escaped. -/
def Value.Clean (value : Value D) : Prop :=
  ∀ text, Written text value → ∀ byte ∈ text, ¬ Bare byte

variable [CDouble D]

mutual

/-- What the text of a value is meant to denote. -/
def datum : Value D → Datum
  | .null => .null
  | .int value => .number (intToString value)
  | .uint value => .number (uintToString value)
  | .real value => .number (trimZeros (CDouble.sprintf value))
  | .string text => .string text
  | .boolean value => .boolean value
  | .array map => .array (elementsOf (elementData map) .null)
  | .object map => .object (membersOf (memberData map) .null)

/-- What the elements of an array are meant to denote. -/
def elementData : List (Int32 × Value D) → List (Int32 × Datum)
  | [] => []
  | (index, element) :: rest => (index, datum element) :: elementData rest

/-- What the members of an object are meant to denote. -/
def memberData : List (Bytes × Value D) → List (Bytes × Datum)
  | [] => []
  | (name, member) :: rest => (name, datum member) :: memberData rest

end

/-- An array denotes what the elements that the loop takes denote. -/
theorem datum_array (map : List (Int32 × Value D)) :
    datum (.array map) = .array ((elementsOf map .null).map datum) := by
  have data : elementData map = map.map fun entry => (entry.1, datum entry.2) := by
    induction map with
    | nil => rfl
    | cons entry map ih => rw [elementData, ih, List.map_cons]
  have texts := elementsOf_map map datum .null
  rw [datum] at texts
  rw [datum, data, texts]

/-- An object denotes what its members denote. -/
theorem datum_object {map : List (Bytes × Value D)} (ascending : Ascending map) :
    datum (.object map) = .object (map.map fun entry => (entry.1, datum entry.2)) := by
  have data : memberData map = map.map fun entry => (entry.1, datum entry.2) := by
    clear ascending
    induction map with
    | nil => rfl
    | cons entry map ih => rw [memberData, ih, List.map_cons]
  rw [datum, data, membersOf_ascending (ascending_map.mpr ascending)]

end Written

/-! ## Strings and numbers -/

/-- The writer copies or escapes a character as the grammar has it, unless the character is
`NUL` or is left bare. -/
theorem chars_quoteCharacter {c : UInt8} (nonzero : c ≠ 0) (clean : ¬ Bare c)
    {text bytes : Bytes} (rest : Chars text bytes) :
    Chars (quoteCharacter c ++ text) (c :: bytes) := by
  rcases quoteCharacter_shape c with
    ⟨letter, shape, meaning⟩ | ⟨shape, special, noQuote, noBackslash⟩
  · rw [shape]
    exact .escape meaning rest
  · have large : 32 ≤ c := by
      have control : isControlCharacter c = false := by
        by_contra set
        exact clean ⟨by simpa using set, special⟩
      simp only [isControlCharacter, Bool.and_eq_false_iff, decide_eq_false_iff_not,
        UInt8.lt_iff_toNat_lt, UInt8.le_iff_toNat_le] at control
      have positive : c.toNat ≠ 0 := fun zero => nonzero (UInt8.toNat_inj.mp zero)
      simp only [UInt8.le_iff_toNat_le]
      simp only [UInt8.reduceToNat] at control ⊢
      omega
    rw [shape]
    exact .raw ⟨large, noQuote, noBackslash⟩ rest

/-- A string without bare characters is written as the content of a string that denotes it. -/
theorem chars_quoted {text : Bytes} (plain : 0 ∉ text) (clean : ∀ byte ∈ text, ¬ Bare byte) :
    Chars (text.flatMap quoteCharacter) text := by
  induction text with
  | nil => exact .nil
  | cons c text ih =>
    have nonzero : c ≠ 0 := fun zero => plain (zero ▸ List.mem_cons_self)
    obtain ⟨head, tail⟩ := List.forall_mem_cons.mp clean
    exact chars_quoteCharacter nonzero head
      (ih (fun member => plain (List.mem_cons_of_mem c member)) tail)

/-- A numeral does not begin with a zero, unless it is zero. -/
theorem head?_decimal {value : Nat} (nonzero : value ≠ 0) : (decimal value).head? ≠ some 48 := by
  induction value using Nat.strong_induction_on with
  | _ value ih =>
    by_cases small : value < 10
    · rw [decimal_of_lt small]
      intro zero
      have digit := (digitByte_spec small).2
      rw [Option.some.inj zero] at digit
      exact nonzero digit.symm
    · have front : value / 10 ≠ 0 := by omega
      rw [decimal_of_ge (by omega), List.head?_append_of_ne_nil _ (decimal_ne_nil _)]
      exact ih (value / 10) (by omega) front

/-- Numerals are integers of the grammar. -/
theorem integer_decimal (value : Nat) : Integer (decimal value) := by
  by_cases zero : value = 0
  · subst zero
    exact .inl (by decide)
  · exact .inr ⟨⟨decimal_ne_nil value, decimal_digit value⟩, head?_decimal zero⟩

/-- A numeral with or without a minus is a number of the grammar. -/
theorem number_decimal {sign : Bytes} (signs : sign = [] ∨ sign = [45]) (value : Nat) :
    Number (sign ++ decimal value) :=
  ⟨sign, decimal value, [], [], by simp, signs, integer_decimal value, .inl rfl, .inl rfl⟩

/-- An `Int` is written as a number. -/
theorem number_intToString (value : Int32) : Number (intToString value) := by
  rw [intToString_eq]
  split
  · exact number_decimal (.inr rfl) _
  · exact number_decimal (.inl rfl) _

/-- A `UInt` is written as a number. -/
theorem number_uintToString (value : UInt32) : Number (uintToString value) := by
  rw [uintToString_eq]
  exact number_decimal (.inl rfl) _

/-! ## Arrays and objects -/

/-- Values with commas between them are the elements of an array. -/
theorem elements_separated {α : Type} {text : α → Bytes} {denoted : α → Datum} {items : List α}
    (nonempty : items ≠ [])
    (each : ∀ item ∈ items, JsonText.Value Blank (text item) (denoted item)) :
    Elements Blank (separated (items.map text)) (items.map denoted) := by
  induction items with
  | nil => exact absurd rfl nonempty
  | cons item items ih =>
    obtain ⟨head, tail⟩ := List.forall_mem_cons.mp each
    cases items with
    | nil =>
      have last := Elements.last blank_nil head blank_nil
      rwa [List.nil_append, List.append_nil] at last
    | cons next items =>
      have more := Elements.more blank_nil head blank_nil (ih (List.cons_ne_nil _ _) tail)
      rwa [List.nil_append, List.append_nil] at more

/-- A quoted name, a colon and a value are a member of an object. -/
theorem member_memberText {name text : Bytes} {value : Datum} (plain : 0 ∉ name)
    (clean : ∀ byte ∈ name, ¬ Bare byte) (denotes : JsonText.Value Blank text value) :
    Member Blank (memberText (name, text)) name value := by
  have member := Member.intro blank_nil (chars_quoted plain clean) blank_nil blank_nil denotes
    blank_nil
  rw [List.nil_append, List.nil_append, List.nil_append, List.append_nil] at member
  rw [memberText, valueToQuotedString_eq, List.cons_append, List.append_assoc]
  exact member

/-- Members with commas between them are the members of an object. -/
theorem members_separated {α : Type} {text name : α → Bytes} {denoted : α → Datum}
    {items : List α} (nonempty : items ≠ [])
    (each : ∀ item ∈ items, Member Blank (text item) (name item) (denoted item)) :
    Members Blank (separated (items.map text))
      (items.map fun item => (name item, denoted item)) := by
  induction items with
  | nil => exact absurd rfl nonempty
  | cons item items ih =>
    obtain ⟨head, tail⟩ := List.forall_mem_cons.mp each
    cases items with
    | nil => exact .last head
    | cons next items => exact .more head (ih (List.cons_ne_nil _ _) tail)

/-! ## Values -/

section Values

variable {D : Type} [CDouble D] {value : Value D}

/-- A clean value without doubles is written as a value of the grammar that denotes it. -/
theorem value_writeValue (wellFormed : value.WellFormed) (noReals : value.NoReals)
    (clean : value.Clean) : JsonText.Value Blank (writeValue value) (datum value) := by
  induction value using Value.nested with
  | null => exact .null
  | int value => exact .number (number_intToString value)
  | uint value => exact .number (number_uintToString value)
  | real number => exact absurd rfl (noReals _ (.self _) number)
  | string text =>
    rw [writeValue, valueToQuotedString_eq]
    exact .string (chars_quoted (wellFormed _ (.self _)) (clean text (.string text)))
  | boolean value =>
    cases value with
    | false => exact .no
    | true => exact .yes
  | array map ih =>
    rw [writeValue_array, datum_array]
    have each : ∀ element ∈ elementsOf map .null,
        JsonText.Value Blank (writeValue element) (datum element) := by
      intro element visited
      rcases mem_elementsOf visited with rfl | ⟨index, inside⟩
      · exact .null
      · exact ih _ inside (wellFormed.element inside) (noReals.element inside)
          fun text inner => clean text (.element visited inner)
    by_cases none : elementsOf map .null = []
    · rw [none]
      exact .emptyArray blank_nil
    · exact .array (elements_separated none each)
  | object map ih =>
    obtain ⟨ascending, names⟩ := wellFormed _ (.self _)
    rw [writeValue_object ascending, datum_object ascending]
    have each : ∀ entry ∈ map,
        Member Blank (memberText (entry.1, writeValue entry.2)) entry.1 (datum entry.2) := by
      intro entry inside
      exact member_memberText (names entry inside) (clean entry.1 (.name inside))
        (ih entry inside (wellFormed.member inside) (noReals.member inside)
          fun text inner => clean text (.member inside inner))
    by_cases none : map = []
    · subst none
      exact .emptyObject blank_nil
    · exact .object (members_separated none each)

/-- What stands in one of several texts stands in them with commas between. -/
theorem mem_separated {texts : List Bytes} {text : Bytes} {byte : UInt8} (one : text ∈ texts)
    (inside : byte ∈ text) : byte ∈ separated texts := by
  induction texts with
  | nil => cases one
  | cons first texts ih =>
    cases texts with
    | nil =>
      obtain rfl := List.mem_singleton.mp one
      exact inside
    | cons next texts =>
      rw [separated, List.mem_append]
      rcases List.mem_cons.mp one with rfl | later
      · exact .inl inside
      · exact .inr (List.mem_cons_of_mem _ (ih later))
      · exact List.cons_ne_nil _ _

/-- A bare character of a string stands in the quoted string. -/
theorem mem_valueToQuotedString {text : Bytes} {byte : UInt8} (inside : byte ∈ text)
    (bare : Bare byte) : byte ∈ valueToQuotedString text := by
  have copied : byte ∈ quoteCharacter byte := by
    rw [quoteCharacter_of_not_special bare.2]
    exact List.mem_singleton_self byte
  have loop : byte ∈ text.flatMap quoteCharacter := List.mem_flatMap.mpr ⟨byte, inside, copied⟩
  rw [valueToQuotedString_eq]
  exact List.mem_cons_of_mem _ (List.mem_append_left _ loop)

/-- A bare character of a written string stands in what is written. -/
theorem Written.mem_writeValue (wellFormed : value.WellFormed) {text : Bytes}
    (written : Written text value) {byte : UInt8} (inside : byte ∈ text) (bare : Bare byte) :
    byte ∈ writeValue value := by
  induction written with
  | string text => exact mem_valueToQuotedString inside bare
  | element visited inner ih =>
    rw [writeValue_array]
    rcases mem_elementsOf visited with rfl | ⟨index, member⟩
    · cases inner
    · have part := ih (wellFormed.element member) inside
      exact List.mem_cons_of_mem _ (List.mem_append_left _
        (mem_separated (List.mem_map_of_mem visited) part))
  | @name map entry member =>
    obtain ⟨ascending, _⟩ := wellFormed _ (.self _)
    rw [writeValue_object ascending]
    have part : byte ∈ memberText (entry.1, writeValue entry.2) :=
      List.mem_append_left _ (mem_valueToQuotedString inside bare)
    exact List.mem_cons_of_mem _ (List.mem_append_left _
      (mem_separated (List.mem_map_of_mem member) part))
  | @member map entry _ member inner ih =>
    obtain ⟨ascending, _⟩ := wellFormed _ (.self _)
    rw [writeValue_object ascending]
    have part := ih (wellFormed.member member) inside
    have later : byte ∈ memberText (entry.1, writeValue entry.2) :=
      List.mem_append_right _ (List.mem_cons_of_mem 58 part)
    exact List.mem_cons_of_mem _ (List.mem_append_left _
      (mem_separated (List.mem_map_of_mem member) later))

/-- A bare character cannot stand in a text. -/
theorem not_printable_of_bare {byte : UInt8} (bare : Bare byte) : ¬ Printable byte := by
  obtain ⟨control, notSpecial⟩ := bare
  have different : byte ∉ specials := by simpa using notSpecial
  simp only [specials, List.mem_cons, List.not_mem_nil, or_false, not_or] at different
  rintro (large | rfl | rfl | rfl)
  · simp only [isControlCharacter, Bool.and_eq_true, decide_eq_true_eq,
      UInt8.le_iff_toNat_le] at control large
    simp only [UInt8.reduceToNat] at control large
    omega
  · simp at different
  · simp at different
  · simp at different

omit [CDouble D] in
/-- Written strings and names of well-formed values end at their `NUL`. -/
theorem Written.plain (wellFormed : value.WellFormed) {text : Bytes}
    (written : Written text value) : 0 ∉ text := by
  induction written with
  | string text => exact wellFormed _ (.self _)
  | element visited inner ih =>
    rcases mem_elementsOf visited with rfl | ⟨index, member⟩
    · cases inner
    · exact ih (wellFormed.element member)
  | name member => exact (wellFormed _ (.self _)).2 _ member
  | member member inner ih => exact ih (wellFormed.member member)

/-- A string is emitted as a string of the grammar that denotes it. -/
def Quoted (text : Bytes) : Prop :=
  ∃ content, valueToQuotedString text = quote :: (content ++ [quote]) ∧ Chars content text

/-- What `JsonObjectToString` writes for a value without doubles is a JSON text, in which every
string and name is emitted as one, exactly when no written string or name has a control character
that is not escaped. -/
theorem isText_write_iff (wellFormed : value.WellFormed) (noReals : value.NoReals) :
    (IsText (jsonObjectToString value) ∧ ∀ text, Written text value → Quoted text) ↔
      value.Clean := by
  constructor
  · rintro ⟨isText, _⟩ text written byte inside bare
    have member : byte ∈ jsonObjectToString value :=
      List.mem_append_left _ (written.mem_writeValue wellFormed inside bare)
    exact not_printable_of_bare bare (isText.printable byte member)
  · intro clean
    refine ⟨⟨datum value, [], writeValue value, [10], rfl, blank_nil,
      value_writeValue wellFormed noReals clean, ?_⟩, fun text written => ?_⟩
    · simp [Blank]
    · exact ⟨_, valueToQuotedString_eq text,
        chars_quoted (written.plain wellFormed) (clean text written)⟩

/-- A string with a line feed is written as a text. -/
theorem isText_write_lineFeed : IsText (jsonObjectToString (.string [97, 10] : Value Int)) := by
  refine ((isText_write_iff (wellFormed_string (by decide)) (noReals_string _)).mpr ?_).1
  rintro text written byte inside ⟨control, unescaped⟩
  cases written with
  | string =>
    rcases List.mem_cons.mp inside with rfl | later
    · cases control
    · obtain rfl := List.mem_singleton.mp later
      cases unescaped

/-- A string with a bell is written as it is, and this is no text. -/
theorem not_isText_write_bell :
    (Value.string [7] : Value Int).WellFormed ∧ (Value.string [7] : Value Int).NoReals ∧
      ¬ IsText (jsonObjectToString (.string [7] : Value Int)) := by
  refine ⟨wellFormed_string (by decide), noReals_string _, fun isText => ?_⟩
  exact absurd (isText.printable 7 (by decide)) (by decide)

end Values

end CppCode.Json
