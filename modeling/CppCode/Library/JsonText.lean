import CppCode.Library.HttpFraming

/-!
# JSON texts

The grammar of JSON at the level of bytes: `Value text datum` says that the bytes of `text` are
one value of the grammar and that they denote `datum`, and `Text` puts blanks around it. Bytes
from `0x80` on may stand in strings and are not looked at. What may stand between two tokens is a
parameter `gap`, so that readers of texts with comments can be compared with the same grammar;
the grammar proper is the one with `Blank`. Strings denote bytes: an escape denotes what it
stands for, a `\u` escape the UTF-8 form of its code point, and two escapes that make a surrogate
pair that of the pair.

A string that begins with bytes which stand for themselves up to a quote ends there
(`Chars.ends_at_quote`), its content is not longer than it is written (`Chars.length_le`), and
nothing in a text is a control byte other than a blank (`IsText.printable`).
-/

namespace CppCode.Library.JsonText

/-- `'"'`. -/
abbrev quote : UInt8 := 34
/-- `'\'`. -/
abbrev backslash : UInt8 := 92
/-- `','`. -/
abbrev comma : UInt8 := 44
/-- `'['`. -/
abbrev openArray : UInt8 := 91
/-- `']'`. -/
abbrev closeArray : UInt8 := 93
/-- `'{'`. -/
abbrev openObject : UInt8 := 123
/-- `'}'`. -/
abbrev closeObject : UInt8 := 125

/-- What a JSON value denotes. A number stands for itself. -/
inductive Datum where
  /-- `null`. -/
  | null
  /-- `true` or `false`. -/
  | boolean (value : Bool)
  /-- A number, as it is written. -/
  | number (text : List UInt8)
  /-- The bytes of a string. -/
  | string (bytes : List UInt8)
  /-- The elements of an array. -/
  | array (elements : List Datum)
  /-- The members of an object, as they stand in the text. -/
  | object (members : List (List UInt8 × Datum))

/-! ## Numbers -/

/-- A run of at least one digit. -/
def Digits (text : List UInt8) : Prop := text ≠ [] ∧ ∀ byte ∈ text, isDigit byte = true

/-- `int`: zero, or digits that do not begin with a zero. -/
def Integer (text : List UInt8) : Prop := text = [48] ∨ Digits text ∧ text.head? ≠ some 48

/-- `frac`, when there is one. -/
def Fraction (text : List UInt8) : Prop := text = [] ∨ ∃ digits, text = 46 :: digits ∧ Digits digits

/-- `exp`, when there is one. -/
def Exponent (text : List UInt8) : Prop :=
  text = [] ∨ ∃ letter sign digits, text = letter :: (sign ++ digits) ∧
    (letter = 101 ∨ letter = 69) ∧ (sign = [] ∨ sign = [43] ∨ sign = [45]) ∧ Digits digits

/-- `number`. -/
def Number (text : List UInt8) : Prop :=
  ∃ sign int frac exp, text = sign ++ int ++ frac ++ exp ∧ (sign = [] ∨ sign = [45]) ∧
    Integer int ∧ Fraction frac ∧ Exponent exp

/-! ## Strings -/

/-- A byte that may stand in a string by itself. -/
def Unescaped (byte : UInt8) : Prop := 32 ≤ byte ∧ byte ≠ quote ∧ byte ≠ backslash

instance (byte : UInt8) : Decidable (Unescaped byte) :=
  inferInstanceAs (Decidable (32 ≤ byte ∧ byte ≠ quote ∧ byte ≠ backslash))

/-- What a letter after a backslash stands for. -/
def escaped (letter : UInt8) : Option UInt8 :=
  if letter = quote ∨ letter = backslash ∨ letter = 47 then some letter
  else if letter = 98 then some 8
  else if letter = 102 then some 12
  else if letter = 110 then some 10
  else if letter = 114 then some 13
  else if letter = 116 then some 9
  else none

/-- The UTF-16 code unit of a `\u` escape. -/
def CodeUnit (text : List UInt8) (unit : Nat) : Prop :=
  ∃ first second third fourth, text = [backslash, 117, first, second, third, fourth] ∧
    ∃ a b c d, nibble first = some a ∧ nibble second = some b ∧ nibble third = some c ∧
      nibble fourth = some d ∧ unit = ((a * 16 + b) * 16 + c) * 16 + d

/-- The first half of a surrogate pair. -/
def High (unit : Nat) : Prop := 0xD800 ≤ unit ∧ unit < 0xDC00

/-- The second half of a surrogate pair. -/
def Low (unit : Nat) : Prop := 0xDC00 ≤ unit ∧ unit < 0xE000

/-- A code point in UTF-8. -/
def utf8 (code : Nat) : List UInt8 :=
  if code < 0x80 then [UInt8.ofNat code]
  else if code < 0x800 then [UInt8.ofNat (0xC0 + code / 0x40), UInt8.ofNat (0x80 + code % 0x40)]
  else if code < 0x10000 then
    [UInt8.ofNat (0xE0 + code / 0x1000), UInt8.ofNat (0x80 + code / 0x40 % 0x40),
      UInt8.ofNat (0x80 + code % 0x40)]
  else
    [UInt8.ofNat (0xF0 + code / 0x40000), UInt8.ofNat (0x80 + code / 0x1000 % 0x40),
      UInt8.ofNat (0x80 + code / 0x40 % 0x40), UInt8.ofNat (0x80 + code % 0x40)]

/-- The content of a string: how it is written between its quotes, and the bytes it denotes. -/
inductive Chars : List UInt8 → List UInt8 → Prop
  /-- The end. -/
  | nil : Chars [] []
  /-- A byte that stands for itself. -/
  | raw {byte : UInt8} {text bytes : List UInt8} (plain : Unescaped byte)
      (rest : Chars text bytes) : Chars (byte :: text) (byte :: bytes)
  /-- An escape of two characters. -/
  | escape {letter byte : UInt8} {text bytes : List UInt8} (meaning : escaped letter = some byte)
      (rest : Chars text bytes) : Chars (backslash :: letter :: text) (byte :: bytes)
  /-- An escaped code unit, unless it is the first half of a pair. -/
  | unit {escape text bytes : List UInt8} {unit : Nat} (code : CodeUnit escape unit)
      (alone : ∀ low second after, High unit → text = second ++ after → CodeUnit second low →
        ¬ Low low)
      (rest : Chars text bytes) : Chars (escape ++ text) (utf8 unit ++ bytes)
  /-- Two escaped code units that are a pair. -/
  | pair {first second text bytes : List UInt8} {high low : Nat} (highCode : CodeUnit first high)
      (lowCode : CodeUnit second low) (isHigh : High high) (isLow : Low low)
      (rest : Chars text bytes) :
      Chars (first ++ second ++ text)
        (utf8 (0x10000 + (high - 0xD800) * 0x400 + (low - 0xDC00)) ++ bytes)

/-- Bytes that may stand by themselves are a content that denotes them. -/
theorem chars_of_unescaped {bytes : List UInt8} (plain : ∀ byte ∈ bytes, Unescaped byte) :
    Chars bytes bytes := by
  induction bytes with
  | nil => exact .nil
  | cons byte bytes ih =>
    obtain ⟨head, tail⟩ := List.forall_mem_cons.mp plain
    exact .raw head (ih tail)

/-- An escaped code unit has six characters, the first of which is a backslash. -/
theorem CodeUnit.shape {text : List UInt8} {unit : Nat} (code : CodeUnit text unit) :
    ∃ digits, text = backslash :: digits ∧ digits.length = 5 := by
  obtain ⟨first, second, third, fourth, rfl, -⟩ := code
  exact ⟨_, rfl, rfl⟩

/-- A code point has at most four bytes. -/
theorem length_utf8_le (code : Nat) : (utf8 code).length ≤ 4 := by
  unfold utf8
  split_ifs <;> simp

/-- A content is not shorter than the bytes that it denotes, and as long only if all of them stand
for themselves. -/
theorem Chars.length_le {text bytes : List UInt8} (chars : Chars text bytes) :
    bytes.length ≤ text.length ∧
      (bytes.length = text.length → text = bytes ∧ ∀ byte ∈ bytes, Unescaped byte) := by
  induction chars with
  | nil => simp
  | raw plain _ ih =>
    simp only [List.length_cons, add_le_add_iff_right, add_left_inj, List.cons.injEq, true_and,
      List.forall_mem_cons]
    exact ⟨ih.1, fun same => ⟨(ih.2 same).1, plain, (ih.2 same).2⟩⟩
  | escape _ _ ih =>
    have shorter := ih.1
    simp only [List.length_cons]
    omega
  | @unit escape _ _ unit code _ _ ih =>
    obtain ⟨digits, rfl, five⟩ := code.shape
    have shorter := ih.1
    have four := length_utf8_le unit
    simp only [List.length_append, List.length_cons]
    omega
  | @pair _ _ _ _ high low highCode lowCode _ _ _ ih =>
    obtain ⟨first, rfl, five⟩ := highCode.shape
    obtain ⟨second, rfl, other⟩ := lowCode.shape
    have shorter := ih.1
    have four := length_utf8_le (0x10000 + (high - 0xD800) * 0x400 + (low - 0xDC00))
    simp only [List.length_append, List.length_cons]
    omega

/-- A content that a quote follows ends at the first quote when the bytes up to there stand for
themselves. -/
theorem Chars.ends_at_quote {text bytes plain rest after : List UInt8} (chars : Chars text bytes)
    (unescaped : ∀ byte ∈ plain, Unescaped byte)
    (split : text ++ quote :: rest = plain ++ quote :: after) : text = plain ∧ rest = after := by
  -- a backslash can be neither the next of the bytes nor the quote behind them
  have noEscape : ∀ {plain text : List UInt8}, (∀ byte ∈ plain, Unescaped byte) →
      backslash :: text ≠ plain ++ quote :: after := by
    intro plain text unescaped same
    cases plain with
    | nil => exact absurd (List.cons.inj same).1 (by decide)
    | cons byte plain =>
      exact (unescaped byte List.mem_cons_self).2.2 (List.cons.inj same).1.symm
  induction chars generalizing plain with
  | nil =>
    cases plain with
    | nil => exact ⟨rfl, (List.cons.inj split).2⟩
    | cons byte plain =>
      exact absurd (List.cons.inj split).1.symm (unescaped byte List.mem_cons_self).2.1
  | @raw byte text bytes own _ ih =>
    cases plain with
    | nil => exact absurd (List.cons.inj split).1 own.2.1
    | cons other plain =>
      obtain ⟨rfl, later⟩ := List.cons.inj split
      obtain ⟨rfl, rest⟩ := ih (List.forall_mem_cons.mp unescaped).2 later
      exact ⟨rfl, rest⟩
  | escape => exact absurd split (noEscape unescaped)
  | unit code =>
    obtain ⟨digits, rfl, -⟩ := code.shape
    exact absurd split (noEscape unescaped)
  | pair highCode =>
    obtain ⟨digits, rfl, -⟩ := highCode.shape
    exact absurd split (noEscape unescaped)

/-! ## Values -/

/-- The blanks of the grammar. -/
def Blank (text : List UInt8) : Prop :=
  ∀ byte ∈ text, byte = space ∨ byte = 9 ∨ byte = lf ∨ byte = cr

/-- There may be no blanks. -/
theorem blank_nil : Blank [] := fun _ member => nomatch member

/-- Blanks in front of a byte that is not a blank are none. -/
theorem Blank.eq_nil {blanks rest after : List UInt8} {byte : UInt8} (blank : Blank blanks)
    (other : ¬Blank [byte]) (split : blanks ++ rest = byte :: after) :
    blanks = [] ∧ rest = byte :: after := by
  cases blanks with
  | nil => exact ⟨rfl, split⟩
  | cons first blanks =>
    obtain rfl := (List.cons.inj split).1
    refine absurd (fun single member => ?_) other
    obtain rfl := List.mem_singleton.mp member
    exact blank single List.mem_cons_self

mutual

/-- One value, without the gaps around it. -/
inductive Value (gap : List UInt8 → Prop) : List UInt8 → Datum → Prop
  /-- `null`. -/
  | null : Value gap (ascii "null") .null
  /-- `true`. -/
  | yes : Value gap (ascii "true") (.boolean true)
  /-- `false`. -/
  | no : Value gap (ascii "false") (.boolean false)
  /-- A number. -/
  | number {text : List UInt8} (number : Number text) : Value gap text (.number text)
  /-- A string. -/
  | string {text bytes : List UInt8} (chars : Chars text bytes) :
      Value gap (quote :: (text ++ [quote])) (.string bytes)
  /-- The array without elements. -/
  | emptyArray {between : List UInt8} (inside : gap between) :
      Value gap (openArray :: (between ++ [closeArray])) (.array [])
  /-- An array with elements. -/
  | array {text : List UInt8} {elements : List Datum} (inside : Elements gap text elements) :
      Value gap (openArray :: (text ++ [closeArray])) (.array elements)
  /-- The object without members. -/
  | emptyObject {between : List UInt8} (inside : gap between) :
      Value gap (openObject :: (between ++ [closeObject])) (.object [])
  /-- An object with members. -/
  | object {text : List UInt8} {members : List (List UInt8 × Datum)}
      (inside : Members gap text members) :
      Value gap (openObject :: (text ++ [closeObject])) (.object members)

/-- At least one value, separated by commas. -/
inductive Elements (gap : List UInt8 → Prop) : List UInt8 → List Datum → Prop
  /-- The last value. -/
  | last {before text after : List UInt8} {element : Datum} (front : gap before)
      (value : Value gap text element) (back : gap after) :
      Elements gap (before ++ text ++ after) [element]
  /-- A value and a comma. -/
  | more {before text after rest : List UInt8} {element : Datum} {elements : List Datum}
      (front : gap before) (value : Value gap text element) (back : gap after)
      (later : Elements gap rest elements) :
      Elements gap (before ++ text ++ after ++ comma :: rest) (element :: elements)

/-- At least one member, separated by commas. -/
inductive Members (gap : List UInt8 → Prop) : List UInt8 → List (List UInt8 × Datum) → Prop
  /-- The last member. -/
  | last {text name : List UInt8} {value : Datum} (member : Member gap text name value) :
      Members gap text [(name, value)]
  /-- A member and a comma. -/
  | more {text rest name : List UInt8} {value : Datum} {members : List (List UInt8 × Datum)}
      (member : Member gap text name value) (later : Members gap rest members) :
      Members gap (text ++ comma :: rest) ((name, value) :: members)

/-- A name, a colon and a value. -/
inductive Member (gap : List UInt8 → Prop) : List UInt8 → List UInt8 → Datum → Prop
  /-- With the gaps around its tokens. -/
  | intro {before raw name after inner text last : List UInt8} {value : Datum} (front : gap before)
      (chars : Chars raw name) (back : gap after) (start : gap inner)
      (denotes : Value gap text value) (stop : gap last) :
      Member gap (before ++ quote :: (raw ++ quote :: (after ++ colon :: (inner ++ text ++ last))))
        name value

end

/-- A text: a value, with gaps around it. -/
def Text (gap : List UInt8 → Prop) (text : List UInt8) (datum : Datum) : Prop :=
  ∃ before value after, text = before ++ value ++ after ∧ gap before ∧ Value gap value datum ∧
    gap after

/-- Whether the bytes are a text of the grammar. -/
def IsText (text : List UInt8) : Prop := ∃ datum, Text Blank text datum

/-- A number has a digit. -/
theorem Number.ne_nil {text : List UInt8} (number : Number text) : text ≠ [] := by
  obtain ⟨sign, int, frac, exp, rfl, -, integer, -, -⟩ := number
  have digit : int ≠ [] := by
    rcases integer with rfl | ⟨digits, -⟩
    · simp
    · exact digits.1
  simp [digit]

/-- A value is not empty. -/
theorem Value.ne_nil {gap : List UInt8 → Prop} {text : List UInt8} {datum : Datum}
    (value : Value gap text datum) : text ≠ [] := by
  cases value with
  | null | yes | no => decide
  | number number => exact number.ne_nil
  | string | emptyArray | array | emptyObject | object => exact List.cons_ne_nil _ _

/-- The empty text denotes nothing. -/
theorem not_text_nil {gap : List UInt8 → Prop} (datum : Datum) : ¬Text gap [] datum := by
  rintro ⟨before, value, after, shape, -, denotes, -⟩
  obtain ⟨front, -⟩ := List.append_eq_nil_iff.mp shape.symm
  exact denotes.ne_nil (List.append_eq_nil_iff.mp front).2

/-! ## Comments -/

/-- `'/'`. -/
abbrev slash : UInt8 := 47
/-- `'*'`. -/
abbrev star : UInt8 := 42

/-- Whether a byte ends a line. -/
def LineEnd (byte : UInt8) : Prop := byte = lf ∨ byte = cr

/-- Blanks and comments: from `/*` to the next `*/`, and from `//` to the end of the line. -/
inductive CommentGap : List UInt8 → Prop
  /-- Nothing. -/
  | nil : CommentGap []
  /-- A blank. -/
  | blank {byte : UInt8} {rest : List UInt8} (first : Blank [byte]) (later : CommentGap rest) :
      CommentGap (byte :: rest)
  /-- A comment between marks. -/
  | block {body rest : List UInt8} (inside : ¬[star, slash] <:+: body) (later : CommentGap rest) :
      CommentGap (slash :: star :: (body ++ star :: slash :: rest))
  /-- A comment up to the end of the line. -/
  | line {body rest : List UInt8} {last : UInt8} (inside : ∀ byte ∈ body, ¬LineEnd byte)
      (ends : LineEnd last) (later : CommentGap rest) :
      CommentGap (slash :: slash :: (body ++ last :: rest))

/-- What may stand behind the last gap: nothing, or a comment that the end of the text cuts off
before the end of its line. -/
def LastComment (text : List UInt8) : Prop :=
  text = [] ∨ ∃ body, text = slash :: slash :: body ∧ ∀ byte ∈ body, ¬LineEnd byte

/-- Whether the bytes are a text of the grammar with comments between the tokens. -/
def IsCommentedText (text : List UInt8) : Prop :=
  ∃ front last datum, text = front ++ last ∧ Text CommentGap front datum ∧ LastComment last

/-- Blanks are a gap. -/
theorem Blank.commentGap {blanks : List UInt8} (blank : Blank blanks) : CommentGap blanks := by
  induction blanks with
  | nil => exact .nil
  | cons byte blanks ih =>
    refine .blank (fun single member => ?_) (ih fun later member => ?_)
    · obtain rfl := List.mem_singleton.mp member
      exact blank single List.mem_cons_self
    · exact blank later (List.mem_cons_of_mem byte member)

/-- Gaps behind each other are a gap. -/
theorem CommentGap.append {first second : List UInt8} (front : CommentGap first)
    (back : CommentGap second) : CommentGap (first ++ second) := by
  induction front with
  | nil => exact back
  | blank first _ ih => exact .blank first ih
  | block inside _ ih => simpa using CommentGap.block inside ih
  | line inside ends _ ih => simpa using CommentGap.line inside ends ih

/-- The empty text is no text with comments either. -/
theorem not_isCommentedText_nil : ¬IsCommentedText [] := by
  rintro ⟨front, last, datum, shape, isText, -⟩
  obtain ⟨rfl, rfl⟩ := List.append_eq_nil_iff.mp shape.symm
  exact not_text_nil datum isText

/-! ## Bytes that can stand in a text -/

/-- A byte that is not a control byte, or one of the three control bytes that are blanks. -/
def Printable (byte : UInt8) : Prop := 32 ≤ byte ∨ byte = 9 ∨ byte = lf ∨ byte = cr

instance (byte : UInt8) : Decidable (Printable byte) :=
  inferInstanceAs (Decidable (32 ≤ byte ∨ byte = 9 ∨ byte = lf ∨ byte = cr))

/-- Whether all bytes of a text are printable can be computed. -/
theorem printable_of_all {text : List UInt8}
    (all : text.all (fun byte => decide (Printable byte)) = true) :
    ∀ byte ∈ text, Printable byte := fun byte member =>
  of_decide_eq_true (List.all_eq_true.mp all byte member)

/-- Digits are printable. -/
theorem printable_of_isDigit {byte : UInt8} (digit : isDigit byte = true) : Printable byte := by
  simp only [isDigit, Bool.and_eq_true, decide_eq_true_eq] at digit
  exact .inl (UInt8.le_trans (by decide) digit.1)

/-- Hexadecimal digits are printable. -/
theorem printable_of_nibble {byte : UInt8} {value : Nat} (digit : nibble byte = some value) :
    Printable byte := by
  unfold nibble at digit
  split at digit
  · rename_i decimal
    exact printable_of_isDigit decimal
  · split at digit
    · rename_i lower
      exact .inl (UInt8.le_trans (by decide) lower.1)
    · split at digit
      · rename_i upper
        exact .inl (UInt8.le_trans (by decide) upper.1)
      · cases digit

/-- Letters that may follow a backslash are printable. -/
theorem printable_of_escaped {letter byte : UInt8} (meaning : escaped letter = some byte) :
    Printable letter := by
  have letters : letter ∈ ([quote, backslash, 47, 98, 102, 110, 114, 116] : List UInt8) := by
    by_contra other
    simp only [List.mem_cons, List.not_mem_nil, or_false, not_or] at other
    simp [escaped, other] at meaning
  exact printable_of_all (by decide) letter letters

/-- The bytes of an escaped code unit are printable. -/
theorem CodeUnit.printable {text : List UInt8} {unit : Nat} (code : CodeUnit text unit) :
    ∀ byte ∈ text, Printable byte := by
  obtain ⟨first, second, third, fourth, rfl, _, _, _, _, one, two, three, four, _⟩ := code
  simp only [List.mem_cons, List.not_mem_nil, or_false]
  rintro byte (rfl | rfl | rfl | rfl | rfl | rfl)
  · decide
  · decide
  · exact printable_of_nibble one
  · exact printable_of_nibble two
  · exact printable_of_nibble three
  · exact printable_of_nibble four

/-- The content of a string is printable. -/
theorem Chars.printable {text bytes : List UInt8} (chars : Chars text bytes) :
    ∀ byte ∈ text, Printable byte := by
  induction chars with
  | nil => simp
  | raw plain _ ih => exact List.forall_mem_cons.mpr ⟨.inl plain.1, ih⟩
  | escape meaning _ ih =>
    exact List.forall_mem_cons.mpr
      ⟨by decide, List.forall_mem_cons.mpr ⟨printable_of_escaped meaning, ih⟩⟩
  | unit code _ _ ih => exact List.forall_mem_append.mpr ⟨code.printable, ih⟩
  | pair high low _ _ _ ih =>
    exact List.forall_mem_append.mpr
      ⟨List.forall_mem_append.mpr ⟨high.printable, low.printable⟩, ih⟩

/-- Runs of digits are printable. -/
theorem Digits.printable {text : List UInt8} (digits : Digits text) :
    ∀ byte ∈ text, Printable byte := fun byte member =>
  printable_of_isDigit (digits.2 byte member)

/-- Numbers are printable. -/
theorem Number.printable {text : List UInt8} (number : Number text) :
    ∀ byte ∈ text, Printable byte := by
  obtain ⟨sign, int, frac, exp, rfl, signs, integer, fraction, exponent⟩ := number
  have minus : ∀ byte ∈ sign, Printable byte := by
    rcases signs with rfl | rfl
    · simp
    · exact printable_of_all (by decide)
  have whole : ∀ byte ∈ int, Printable byte := by
    rcases integer with rfl | ⟨digits, _⟩
    · exact printable_of_all (by decide)
    · exact digits.printable
  have part : ∀ byte ∈ frac, Printable byte := by
    rcases fraction with rfl | ⟨digits, rfl, all⟩
    · simp
    · exact List.forall_mem_cons.mpr ⟨by decide, all.printable⟩
  have power : ∀ byte ∈ exp, Printable byte := by
    rcases exponent with rfl | ⟨letter, mark, digits, rfl, letters, marks, all⟩
    · simp
    · refine List.forall_mem_cons.mpr ⟨?_, List.forall_mem_append.mpr ⟨?_, all.printable⟩⟩
      · rcases letters with rfl | rfl
        · decide
        · decide
      · rcases marks with rfl | rfl | rfl
        · simp
        · exact printable_of_all (by decide)
        · exact printable_of_all (by decide)
  simp only [List.forall_mem_append]
  exact ⟨⟨⟨minus, whole⟩, part⟩, power⟩

section Printable

variable {gap : List UInt8 → Prop}

mutual

/-- Values are printable when the gaps are. -/
theorem Value.printable (blank : ∀ text, gap text → ∀ byte ∈ text, Printable byte) :
    ∀ {text : List UInt8} {datum : Datum}, Value gap text datum → ∀ byte ∈ text, Printable byte
  | _, _, .null => printable_of_all (by decide)
  | _, _, .yes => printable_of_all (by decide)
  | _, _, .no => printable_of_all (by decide)
  | _, _, .number number => number.printable
  | _, _, .string chars =>
    List.forall_mem_cons.mpr
      ⟨by decide, List.forall_mem_append.mpr ⟨chars.printable, printable_of_all (by decide)⟩⟩
  | _, _, .emptyArray inside =>
    List.forall_mem_cons.mpr
      ⟨by decide, List.forall_mem_append.mpr ⟨blank _ inside, printable_of_all (by decide)⟩⟩
  | _, _, .array inside =>
    List.forall_mem_cons.mpr
      ⟨by decide,
        List.forall_mem_append.mpr ⟨inside.printable blank, printable_of_all (by decide)⟩⟩
  | _, _, .emptyObject inside =>
    List.forall_mem_cons.mpr
      ⟨by decide, List.forall_mem_append.mpr ⟨blank _ inside, printable_of_all (by decide)⟩⟩
  | _, _, .object inside =>
    List.forall_mem_cons.mpr
      ⟨by decide,
        List.forall_mem_append.mpr ⟨inside.printable blank, printable_of_all (by decide)⟩⟩

/-- Elements are printable when the gaps are. -/
theorem Elements.printable (blank : ∀ text, gap text → ∀ byte ∈ text, Printable byte) :
    ∀ {text : List UInt8} {elements : List Datum}, Elements gap text elements →
      ∀ byte ∈ text, Printable byte
  | _, _, .last front value back => by
    simp only [List.forall_mem_append]
    exact ⟨⟨blank _ front, value.printable blank⟩, blank _ back⟩
  | _, _, .more front value back later => by
    simp only [List.forall_mem_append, List.forall_mem_cons]
    exact ⟨⟨⟨blank _ front, value.printable blank⟩, blank _ back⟩, by decide,
      later.printable blank⟩

/-- Members are printable when the gaps are. -/
theorem Members.printable (blank : ∀ text, gap text → ∀ byte ∈ text, Printable byte) :
    ∀ {text : List UInt8} {members : List (List UInt8 × Datum)}, Members gap text members →
      ∀ byte ∈ text, Printable byte
  | _, _, .last member => member.printable blank
  | _, _, .more member later => by
    simp only [List.forall_mem_append, List.forall_mem_cons]
    exact ⟨member.printable blank, by decide, later.printable blank⟩

/-- A member is printable when the gaps are. -/
theorem Member.printable (blank : ∀ text, gap text → ∀ byte ∈ text, Printable byte) :
    ∀ {text name : List UInt8} {value : Datum}, Member gap text name value →
      ∀ byte ∈ text, Printable byte
  | _, _, _, .intro front chars back start denotes stop => by
    simp only [List.forall_mem_append, List.forall_mem_cons]
    exact ⟨blank _ front, by decide, chars.printable, by decide, blank _ back, by decide,
      ⟨blank _ start, denotes.printable blank⟩, blank _ stop⟩

end

end Printable

/-- Blanks are printable. -/
theorem Blank.printable (text : List UInt8) (blank : Blank text) :
    ∀ byte ∈ text, Printable byte := by
  intro byte member
  rcases blank byte member with rfl | rfl | rfl | rfl
  · decide
  · decide
  · decide
  · decide

/-- A text has no control byte but blanks. -/
theorem IsText.printable {text : List UInt8} (isText : IsText text) :
    ∀ byte ∈ text, Printable byte := by
  obtain ⟨datum, before, value, after, rfl, front, denotes, back⟩ := isText
  simp only [List.forall_mem_append]
  exact ⟨⟨Blank.printable _ front, denotes.printable Blank.printable⟩, Blank.printable _ back⟩

end CppCode.Library.JsonText
