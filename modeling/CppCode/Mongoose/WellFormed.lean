import CppCode.Mongoose.Headers

/-!
# Well-formed blocks

How the parser reads a block that a sender wrote with care: lines of printable bytes, and fields
of a name, a colon, a space and a value without blanks around it. `requestLenFrom_blockOf` finds
the end of such a block whatever follows it, no proper prefix of it is taken for a block, and
`readHeaders_fields` gives the slots of its fields.
-/

namespace CppCode.Mongoose

open Library

/-! ## The end of the block -/

/-- A line of printable bytes. -/
structure IsPlain (line : Bytes) : Prop where
  /-- The line is not empty. -/
  nonempty : line ≠ []
  /-- Its bytes are printable. -/
  printable : ∀ byte ∈ line, isprint byte = true

instance (line : Bytes) : Decidable (IsPlain line) :=
  decidable_of_iff (line ≠ [] ∧ line.all isprint = true)
    ⟨fun h => ⟨h.1, List.all_eq_true.mp h.2⟩, fun h => ⟨h.1, List.all_eq_true.mpr h.2⟩⟩

/-- Printable bytes do not end a line. -/
theorem ne_of_isprint {byte : UInt8} (printable : isprint byte = true) :
    byte ≠ cr ∧ byte ≠ lf ∧ byte ≠ 0 := by
  refine ⟨?_, ?_, ?_⟩ <;> rintro rfl <;> exact absurd printable (by decide)

/-- The search for the end goes through printable bytes. -/
theorem requestLenFrom_printable {line : Bytes} (printable : ∀ byte ∈ line, isprint byte = true)
    (rest : Bytes) (i : Nat) :
    requestLenFrom (line ++ rest) i = requestLenFrom rest (i + line.length) := by
  induction line generalizing i with
  | nil => rfl
  | cons byte line ih =>
    have plain := printable byte List.mem_cons_self
    have other := (ne_of_isprint plain).2.1
    rw [List.cons_append, requestLenFrom, if_neg (by simp [plain]), if_neg fun both => other both.1,
      if_neg fun both => other both.1,
      ih (fun later member => printable later (List.mem_cons_of_mem byte member)),
      List.length_cons, Nat.add_right_comm, Nat.add_assoc]

/-- The search goes over a carriage return. -/
theorem requestLenFrom_cr (rest : Bytes) (i : Nat) :
    requestLenFrom (cr :: rest) i = requestLenFrom rest (i + 1) := by
  have other : cr ≠ lf := by decide
  rw [requestLenFrom, if_neg (by decide), if_neg fun both => other both.1,
    if_neg fun both => other both.1]

/-- The search goes over a line end that another line follows. -/
theorem requestLenFrom_line {next : Bytes} (plain : IsPlain next) (rest : Bytes) (i : Nat) :
    requestLenFrom (crlf ++ (next ++ rest)) i = requestLenFrom (next ++ rest) (i + 2) := by
  obtain ⟨head, tail, rfl⟩ := List.exists_cons_of_ne_nil plain.nonempty
  obtain ⟨noCr, noLf, -⟩ := ne_of_isprint (plain.printable head List.mem_cons_self)
  have long : ¬((head :: tail ++ rest).take 2 = [cr, lf]) := by
    rw [List.cons_append, List.take_succ_cons]
    exact fun same => noCr (List.cons.inj same).1
  have short : ¬((head :: tail ++ rest).head? = some lf) := by
    rw [List.cons_append, List.head?_cons]
    exact fun same => noLf (Option.some.inj same)
  change requestLenFrom (cr :: lf :: (head :: tail ++ rest)) i = _
  rw [requestLenFrom_cr, requestLenFrom, if_neg (by decide), if_neg fun both => short both.2,
    if_neg fun both => long both.2]

/-- The search stops at the end of the block. -/
theorem requestLenFrom_end (rest : Bytes) (i : Nat) :
    requestLenFrom (crlf ++ crlf ++ rest) i = i + 4 := by
  have other : some cr ≠ some lf := by decide
  change requestLenFrom (cr :: lf :: cr :: lf :: rest) i = _
  rw [requestLenFrom_cr, requestLenFrom, if_neg (by decide), if_neg fun both => other both.2,
    if_pos ⟨rfl, rfl⟩]
  push_cast
  omega

/-- The end of a block of printable lines is found, whatever follows. -/
theorem requestLenFrom_blockOf {line : Bytes} {lines : List Bytes}
    (plain : ∀ member ∈ line :: lines, IsPlain member) (rest : Bytes) (i : Nat) :
    requestLenFrom (blockOf (line :: lines) ++ rest) i = i + (blockOf (line :: lines)).length := by
  induction lines generalizing line i with
  | nil =>
    have shape : blockOf [line] ++ rest = line ++ (crlf ++ crlf ++ rest) := by simp [blockOf]
    rw [shape, requestLenFrom_printable (plain line List.mem_cons_self).printable,
      requestLenFrom_end]
    simp only [blockOf, List.flatMap_cons, List.flatMap_nil, List.append_nil, List.length_append,
      List.length_cons, List.length_nil]
    push_cast
    omega
  | cons next lines ih =>
    have shape : blockOf (line :: next :: lines) ++ rest =
        line ++ (crlf ++ (next ++ (crlf ++ blockOf lines ++ rest))) := by simp [blockOf]
    have tail : next ++ (crlf ++ blockOf lines ++ rest) = blockOf (next :: lines) ++ rest := by
      simp [blockOf]
    rw [shape, requestLenFrom_printable (plain line List.mem_cons_self).printable,
      requestLenFrom_line (plain next (by simp)), tail,
      ih fun member inside => plain member (List.mem_cons_of_mem line inside)]
    simp only [blockOf, List.flatMap_cons, List.length_append, List.length_cons, List.length_nil]
    push_cast
    omega

/-- The bytes of a stream that begins with a block contain it as soon as there are enough of them,
and no block before. -/
theorem mgHttpGetRequestLen_prefix {line : Bytes} {lines : List Bytes}
    (plain : ∀ member ∈ line :: lines, IsPlain member) {body buf rest : Bytes}
    (split : buf ++ rest = blockOf (line :: lines) ++ body) :
    mgHttpGetRequestLen buf buf.length =
      if buf.length < (blockOf (line :: lines)).length then 0
      else (blockOf (line :: lines)).length := by
  have found (after : Bytes) : requestLenFrom (blockOf (line :: lines) ++ after) 0 =
      (blockOf (line :: lines)).length := by
    rw [requestLenFrom_blockOf plain]
    simp
  have taken : mgHttpGetRequestLen buf buf.length = requestLenFrom buf 0 := by
    simp [mgHttpGetRequestLen]
  rw [taken]
  split_ifs with short
  · by_contra nonzero
    have same := requestLenFrom_append nonzero rest
    rw [split, found] at same
    have bound : requestLenFrom buf 0 ≤ (0 : Nat) + buf.length := requestLenFrom_le (by omega)
    omega
  · rcases List.append_eq_append_iff.mp split with ⟨more, whole, -⟩ | ⟨more, rfl, -⟩
    · have length := congrArg List.length whole
      rw [List.length_append] at length
      obtain rfl : more = [] := List.eq_nil_of_length_eq_zero (by omega)
      have exact' := found []
      rw [List.append_nil] at whole exact'
      rw [← whole, exact']
    · exact found more

/-! ## Words and fields -/

/-- A scan goes through a word and stops behind it. -/
theorem scanTo_word {buf word rest : Bytes} {stop : UInt8 → Bool} {s limit : Nat}
    (split : (buf.take limit).drop s = word ++ rest) (through : ∀ byte ∈ word, stop byte = false)
    (halt : ∀ byte ∈ rest.head?, stop byte = true) : scanTo buf stop s limit = s + word.length := by
  unfold scanTo
  rw [split, List.takeWhile_append_of_pos fun byte member => by simp [through byte member]]
  cases rest with
  | nil => rw [List.takeWhile_nil, List.append_nil]
  | cons head tail =>
    rw [List.takeWhile_cons_of_neg (by simp [halt head rfl]), List.append_nil]

/-- A property of the first byte of a text. -/
theorem forall_head {head : UInt8} {tail : Bytes} {property : UInt8 → Prop}
    (holds : property head) : ∀ byte ∈ (head :: tail).head?, property byte := by
  intro byte member
  obtain rfl := Option.some.inj member
  exact holds

/-- A test that no byte of a text passes. -/
theorem forall_not {text : Bytes} {test : UInt8 → Bool} (none : text.any test = false) :
    ∀ byte ∈ text, test byte = false :=
  fun byte member => Bool.eq_false_iff.mpr (List.any_eq_false.mp none byte member)

/-- What is left behind a word. -/
theorem drop_word {buf word rest : Bytes} {s limit : Nat}
    (split : (buf.take limit).drop s = word ++ rest) :
    (buf.take limit).drop (s + word.length) = rest := by
  rw [← List.drop_drop, split, List.drop_left]

/-- `mg_skip` reads a word and the delimiters behind it. -/
theorem mgSkip_word {buf word gap rest delims : Bytes} {s limit : Nat}
    (split : (buf.take limit).drop s = word ++ (gap ++ rest))
    (plain : ∀ byte ∈ word, isDelim delims byte = false)
    (delimits : ∀ byte ∈ gap, isDelim delims byte = true) (present : gap ≠ [])
    (halt : ∀ byte ∈ rest.head?, isDelim delims byte = false) :
    mgSkip buf s limit delims = (⟨some s, word.length⟩, s + word.length + gap.length) := by
  have first : scanTo buf (isDelim delims) s limit = s + word.length := by
    apply scanTo_word split plain
    obtain ⟨head, tail, rfl⟩ := List.exists_cons_of_ne_nil present
    exact forall_head (delimits head List.mem_cons_self)
  have second : scanTo buf (fun byte => !isDelim delims byte) (s + word.length) limit =
      s + word.length + gap.length := by
    apply scanTo_word (drop_word split)
    · exact fun byte member => by simp [delimits byte member]
    · exact fun byte member => by simp [halt byte member]
  simp only [mgSkip, first, second, Nat.add_sub_cancel_left]

/-- A header field. -/
structure Field where
  /-- Its name. -/
  name : Bytes
  /-- Its value. -/
  value : Bytes

/-- The line of a field. -/
def Field.line (field : Field) : Bytes := field.name ++ ([colon, space] ++ field.value)

/-- A field that the parser reads as it was written. -/
structure Field.IsPlain (field : Field) : Prop where
  /-- The name is printable. -/
  name : Mongoose.IsPlain field.name
  /-- The value is printable. -/
  value : Mongoose.IsPlain field.value
  /-- The name has no delimiter. -/
  word : colon ∉ field.name ∧ space ∉ field.name
  /-- The value does not begin with one. -/
  first : field.value.head? ≠ some colon ∧ field.value.head? ≠ some space
  /-- The value does not end with a blank. -/
  last : field.value.getLast? ≠ some space

/-- The line of a field is printable. -/
theorem Field.IsPlain.line {field : Field} (plain : field.IsPlain) :
    Mongoose.IsPlain field.line where
  nonempty := by simp [Field.line]
  printable := by
    intro byte member
    simp only [Field.line, List.mem_append] at member
    rcases member with name | gap | value
    · exact plain.name.printable byte name
    · exact List.all_eq_true.mp (by decide : ([colon, space] : Bytes).all isprint = true) byte gap
    · exact plain.value.printable byte value

/-- The slots of the header table for fields that begin at an offset. -/
def fieldSlots : Nat → List Field → List (MgStr × MgStr)
  | _, [] => []
  | s, field :: fields =>
    (⟨some s, field.name.length⟩, ⟨some (s + field.name.length + 2), field.value.length⟩) ::
      fieldSlots (s + field.line.length + 2) fields

/-- The text of fields up to the end of their block, nothing when there are none left. -/
def fieldsText : List Field → Bytes
  | [] => []
  | field :: fields => blockOf ((field :: fields).map Field.line)

/-- The bytes from an offset in the block on are those of the buffer. -/
theorem drop_of_split {buf text : Bytes} {s limit : Nat} (split : (buf.take limit).drop s = text) :
    ∃ more, buf.drop s = text ++ more := by
  refine ⟨(buf.drop s).drop (limit - s), ?_⟩
  rw [← split, List.drop_take, List.take_append_drop]

/-- A word of the block is the slice of the buffer at its offset. -/
theorem slice_word {buf word rest : Bytes} {s limit : Nat}
    (split : (buf.take limit).drop s = word ++ rest) :
    MgStr.slice buf ⟨some s, word.length⟩ = word := by
  obtain ⟨more, same⟩ := drop_of_split split
  simp only [MgStr.slice, same, List.append_assoc, List.take_left]

/-- Printable bytes do not end a value. -/
theorem isDelim_crlf {byte : UInt8} (printable : isprint byte = true) :
    isDelim crlf byte = false := by
  obtain ⟨noCr, noLf, noNul⟩ := ne_of_isprint printable
  simp [isDelim, noCr, noLf, noNul]

/-- Printable bytes other than a colon and a space do not end a name. -/
theorem isDelim_name {byte : UInt8} (printable : isprint byte = true)
    (other : byte ≠ colon ∧ byte ≠ space) : isDelim [colon, space] byte = false := by
  simp [isDelim, other.1, other.2, (ne_of_isprint printable).2.2]

/-- What follows the value of a field: the line end, and the end of the block behind the last. -/
theorem fieldsText_cons (field : Field) (fields : List Field) :
    ∃ gap, fieldsText (field :: fields) =
        field.name ++ ([colon, space] ++ (field.value ++ (gap ++ fieldsText fields))) ∧
      gap ≠ [] ∧ (∀ byte ∈ gap, isDelim crlf byte = true) ∧
      (fields ≠ [] → gap.length = 2) := by
  cases fields with
  | nil =>
    refine ⟨crlf ++ crlf, ?_, by simp, List.all_eq_true.mp (by decide), by simp⟩
    simp [fieldsText, blockOf, Field.line]
  | cons next fields =>
    refine ⟨crlf, ?_, by simp, List.all_eq_true.mp (by decide), fun _ => rfl⟩
    simp [fieldsText, blockOf, Field.line]

/-- Fields that are left begin with a printable byte. -/
theorem fieldsText_head {fields : List Field} (plain : ∀ field ∈ fields, field.IsPlain) :
    ∀ byte ∈ (fieldsText fields).head?, isprint byte = true := by
  cases fields with
  | nil => simp [fieldsText]
  | cons field fields =>
    obtain ⟨gap, text, -⟩ := fieldsText_cons field fields
    have name := (plain field List.mem_cons_self).name
    obtain ⟨head, tail, shape⟩ := List.exists_cons_of_ne_nil name.nonempty
    rw [text, shape]
    exact forall_head (name.printable head (shape ▸ List.mem_cons_self))

/-- A round of the header loop on the text of fields reads the first of them. -/
theorem readHeader_field {buf : Bytes} {s limit : Nat} {field : Field} {fields : List Field}
    (plain : ∀ member ∈ field :: fields, member.IsPlain)
    (split : (buf.take limit).drop s = fieldsText (field :: fields)) :
    ∃ next, readHeader buf s limit = (⟨some s, field.name.length⟩,
        ⟨some (s + field.name.length + 2), field.value.length⟩, next) ∧
      (buf.take limit).drop next = fieldsText fields ∧
      (fields ≠ [] → next = s + field.line.length + 2) := by
  have head := plain field List.mem_cons_self
  obtain ⟨gap, text, present, delimits, size⟩ := fieldsText_cons field fields
  rw [text] at split
  have valueHead : ∀ byte ∈ (field.value ++ (gap ++ fieldsText fields)).head?,
      isDelim [colon, space] byte = false := by
    obtain ⟨first, rest, shape⟩ := List.exists_cons_of_ne_nil head.value.nonempty
    have word := head.first
    rw [shape] at word ⊢
    exact forall_head (isDelim_name (head.value.printable first (shape ▸ List.mem_cons_self))
      ⟨fun same => word.1 (congrArg Option.some same),
        fun same => word.2 (congrArg Option.some same)⟩)
  have name := mgSkip_word split
    (fun byte member => isDelim_name (head.name.printable byte member)
      ⟨ne_of_mem_of_not_mem member head.word.1, ne_of_mem_of_not_mem member head.word.2⟩)
    (List.all_eq_true.mp (by decide)) (by simp) valueHead
  have behind : (buf.take limit).drop (s + field.name.length + 2) =
      field.value ++ (gap ++ fieldsText fields) := drop_word (drop_word split)
  have value := mgSkip_word behind
    (fun byte member => isDelim_crlf (head.value.printable byte member)) delimits present
    fun byte member => isDelim_crlf
      (fieldsText_head (fun other inside => plain other (List.mem_cons_of_mem field inside))
        byte member)
  have trimmed : field.value.rdropWhile (· == space) = field.value := by
    rw [List.rdropWhile_eq_self_iff]
    intro nonempty blank
    apply head.last
    rw [List.getLast?_eq_some_getLast nonempty]
    exact congrArg _ (eq_of_beq blank)
  refine ⟨s + field.name.length + 2 + field.value.length + gap.length, ?_, ?_, ?_⟩
  · have two : ([colon, space] : Bytes).length = 2 := rfl
    rw [two] at name
    simp only [readHeader, name, value, slice_word behind, trimmed]
  · exact drop_word (drop_word behind)
  · intro more
    rw [size more, Field.line, List.length_append, List.length_append]
    change _ = s + (field.name.length + (2 + field.value.length)) + 2
    omega

/-- The header loop on the text of fields stores their slots. -/
theorem readHeaders_fields {buf : Bytes} {limit fuel room s : Nat} {fields : List Field}
    (plain : ∀ member ∈ fields, member.IsPlain)
    (split : (buf.take limit).drop s = fieldsText fields) (enough : fields.length < fuel)
    (fits : fields.length ≤ room) :
    readHeaders buf limit fuel room s = fieldSlots s fields := by
  induction fields generalizing fuel room s with
  | nil =>
    obtain ⟨fuel, rfl⟩ := Nat.exists_eq_succ_of_ne_zero (by omega : fuel ≠ 0)
    cases room with
    | zero => rfl
    | succ room =>
      have unnamed : (readHeader buf s limit).1.len = 0 := by
        simp [readHeader, mgSkip, scanTo, split, fieldsText]
      simp only [readHeaders, unnamed, ne_eq, not_true_eq_false, false_and, if_false, true_or,
        if_true, fieldSlots]
  | cons field fields ih =>
    obtain ⟨fuel, rfl⟩ := Nat.exists_eq_succ_of_ne_zero (by omega : fuel ≠ 0)
    obtain ⟨room, rfl⟩ := Nat.exists_eq_succ_of_ne_zero
      (by simp only [List.length_cons] at fits; omega : room ≠ 0)
    obtain ⟨next, read, left, place⟩ := readHeader_field plain split
    have head := plain field List.mem_cons_self
    have named := List.length_pos_iff.mpr head.name.nonempty
    have valued := List.length_pos_iff.mpr head.value.nonempty
    simp only [List.length_cons] at enough fits
    simp only [readHeaders, read, fieldSlots]
    rw [if_neg (by omega), if_neg (by omega), ih
      (fun member inside => plain member (List.mem_cons_of_mem field inside)) left (by omega)
      (by omega)]
    cases fields with
    | nil => rfl
    | cons second fields => rw [place (by simp)]

/-! ## Names and numbers -/

/-- Only a byte itself becomes a byte below the letters in lower case. -/
theorem tolower_eq_iff {byte sign : UInt8} (below : sign < 65) :
    tolower byte = sign ↔ byte = sign := by
  simp only [tolower, Bool.and_eq_true, decide_eq_true_eq, UInt8.le_iff_toNat_le,
    UInt8.lt_iff_toNat_lt, ← UInt8.toNat_inj] at below ⊢
  split_ifs with upper
  · simp only [UInt8.toNat_add, UInt8.reduceToNat] at *
    omega
  · rfl

/-- Only `NUL` is `NUL` in lower case. -/
theorem tolower_eq_zero {byte : UInt8} : tolower byte = 0 ↔ byte = 0 := tolower_eq_iff (by decide)

/-- The comparison of a number of bytes succeeds exactly when they are the same in lower case, for
a text without `NUL` that is long enough. -/
theorem mgNcasecmp_eq_zero_iff {left right : Bytes} {count : Nat} (long : count ≤ right.length)
    (plain : 0 ∉ right) :
    mgNcasecmp left right count = 0 ↔
      (left.take count).map tolower = (right.take count).map tolower := by
  induction count generalizing left right with
  | zero => simp [mgNcasecmp]
  | succ count ih =>
    cases right with
    | nil => simp at long
    | cons byte right =>
      have nonzero : byte ≠ 0 := fun zero => plain (zero ▸ List.mem_cons_self)
      cases left with
      | nil =>
        have lower : tolower byte ≠ 0 := fun zero => nonzero (tolower_eq_zero.mp zero)
        have positive : (tolower byte).toNat ≠ 0 := fun zero => lower (UInt8.toNat_inj.mp zero)
        have none : (tolower 0).toNat = 0 := rfl
        simp [mgNcasecmp, none, positive]
      | cons head left =>
        have rest : mgNcasecmp left right count = 0 ↔
            (left.take count).map tolower = (right.take count).map tolower :=
          ih (by simp only [List.length_cons] at long; omega)
            fun zero => plain (List.mem_cons_of_mem byte zero)
        simp only [mgNcasecmp, List.headD_cons, List.tail_cons, List.take_succ_cons, List.map_cons,
          List.cons.injEq]
        by_cases same : tolower head = tolower byte
        · have other : head ≠ 0 := by
            rintro rfl
            exact nonzero (tolower_eq_zero.mp same.symm)
          simp [same, other, rest]
        · have differ : ((tolower head).toNat : Int) - (tolower byte).toNat ≠ 0 := by
            intro zero
            exact same (UInt8.toNat_inj.mp (by omega))
          simp [same, differ]

/-- A field whose name begins with `Content-Length`, in any case. -/
def Field.isContentLength (field : Field) : Bool :=
  (field.name.take 14).map tolower = ascii "content-length"

/-- The parser finds the length fields by their names. -/
theorem isContentLength_field {buf more : Bytes} {s : Nat} {field : Field}
    (place : buf.drop s = field.line ++ more) :
    CppCode.Mongoose.isContentLength buf ⟨some s, field.name.length⟩ = field.isContentLength := by
  have lower : (ascii "Content-Length").map tolower = ascii "content-length" := by decide
  have whole : (ascii "Content-Length").take 14 = ascii "Content-Length" := by decide
  have compared : CppCode.Mongoose.isContentLength buf ⟨some s, field.name.length⟩ = true ↔
      (((field.line ++ more).take 14).map tolower = ascii "content-length") := by
    rw [← lower]
    simp only [CppCode.Mongoose.isContentLength, Option.getD_some, decide_eq_true_eq, place]
    rw [mgNcasecmp_eq_zero_iff (by decide) (by decide), whole]
  apply Bool.eq_iff_iff.mpr
  rw [compared, Field.isContentLength, decide_eq_true_eq, Field.line, List.append_assoc]
  by_cases long : 14 ≤ field.name.length
  · rw [List.take_append_of_le_length long]
  · -- the comparison of a shorter name reaches the colon
    constructor
    · intro same
      have colons : colon ∈ ascii "content-length" := by
        rw [← same, List.take_append, List.map_append]
        apply List.mem_append_right _
        obtain ⟨rest, room⟩ := Nat.exists_eq_succ_of_ne_zero
          (by omega : 14 - field.name.length ≠ 0)
        rw [room]
        exact List.mem_cons_self
      exact absurd colons (by decide)
    · intro same
      have length := congrArg List.length same
      rw [List.length_map, List.length_take] at length
      have fourteen : (ascii "content-length").length = 14 := by decide
      omega

/-- A numeral ends where the digits end. -/
theorem readSigned_append {value rest : Bytes} (present : value ≠ [])
    (first : ∀ byte ∈ value.head?, isspace byte = false)
    (stop : ∀ byte ∈ rest.head?, isDigit byte = false) :
    readSigned (value ++ rest) = readSigned value := by
  obtain ⟨head, tail, rfl⟩ := List.exists_cons_of_ne_nil present
  have digits (text : Bytes) : (text ++ rest).takeWhile isDigit = text.takeWhile isDigit := by
    rw [List.takeWhile_append]
    split_ifs with all
    · cases rest with
      | nil => simpa using (List.takeWhile_prefix isDigit).eq_of_length all |>.symm
      | cons byte rest =>
        rw [List.takeWhile_cons_of_neg (by simp [stop byte rfl]), List.append_nil]
        exact ((List.takeWhile_prefix isDigit).eq_of_length all).symm
    · rfl
  have word := first head rfl
  simp only [readSigned, List.cons_append, List.dropWhile_cons, word, Bool.false_eq_true, if_false]
  rw [digits tail, ← List.cons_append, digits (head :: tail)]

/-- Digits are neither blanks nor signs. -/
theorem not_isspace_of_isDigit {byte : UInt8} (digit : isDigit byte = true) :
    isspace byte = false ∧ byte ≠ 45 ∧ byte ≠ 43 := by
  refine ⟨?_, ?_, ?_⟩
  · simp only [isDigit, isspace, Bool.and_eq_true, Bool.or_eq_false_iff, beq_eq_false_iff_ne,
      Bool.and_eq_false_iff, decide_eq_true_eq, decide_eq_false_iff_not, UInt8.le_iff_toNat_le,
      ne_eq, ← UInt8.toNat_inj, UInt8.reduceToNat] at *
    omega
  · rintro rfl
    exact absurd digit (by decide)
  · rintro rfl
    exact absurd digit (by decide)

/-- A numeral is read as its number. -/
theorem readSigned_decimal (count : Nat) : readSigned (decimal count) = count := by
  have digits := decimal_digit count
  have all : (decimal count).takeWhile isDigit = decimal count :=
    List.takeWhile_eq_self_iff.mpr digits
  have value := digitsValue_decimal count
  obtain ⟨head, tail, shape⟩ := List.exists_cons_of_ne_nil (decimal_ne_nil count)
  rw [shape] at digits all value ⊢
  obtain ⟨word, minus, plus⟩ := not_isspace_of_isDigit (digits head List.mem_cons_self)
  simp only [readSigned, List.dropWhile_cons, word, Bool.false_eq_true, if_false, if_neg minus,
    if_neg plus, all, value]

/-- A number in the range of a word is kept. -/
theorem saturate_of_lt {bits count : Nat} (small : count < 2 ^ (bits - 1)) :
    saturate bits count = count := by
  have bound : (count : Int) < (2 ^ (bits - 1) : Nat) := by exact_mod_cast small
  unfold saturate
  omega

/-- The number that the parser reads from a field. -/
theorem headerNumber_field {buf more : Bytes} {s : Nat} {field : Field} (plain : field.IsPlain)
    (stop : ∀ byte ∈ more.head?, isDigit byte = false)
    (place : buf.drop s = field.line ++ more) :
    headerNumber buf ⟨some (s + field.name.length + 2), field.value.length⟩ =
      to64 field.value := by
  have behind : buf.drop (s + field.name.length + 2) = field.value ++ more := by
    have skip : s + field.name.length + 2 = s + (field.name ++ [colon, space]).length := by
      simp
      omega
    have shape : field.line ++ more = (field.name ++ [colon, space]) ++ (field.value ++ more) := by
      simp [Field.line]
    rw [skip, ← List.drop_drop, place, shape, List.drop_left]
  have first : ∀ byte ∈ field.value.head?, isspace byte = false := by
    intro byte member
    have printable := plain.value.printable byte (List.mem_of_mem_head? member)
    have other : byte ≠ 32 := by
      rintro rfl
      exact plain.first.2 member
    simp only [isprint, isspace, Bool.and_eq_true, Bool.or_eq_false_iff, beq_eq_false_iff_ne,
      Bool.and_eq_false_iff, decide_eq_true_eq, decide_eq_false_iff_not, UInt8.le_iff_toNat_le,
      ne_eq, ← UInt8.toNat_inj, UInt8.reduceToNat] at *
    omega
  simp only [headerNumber, Option.getD_some, behind, to64]
  rw [readSigned_append plain.value.nonempty first stop]

/-- The length that fields declare is the number of the last length field. -/
theorem declaredLength_fields {buf : Bytes} {limit s : Nat} {fields : List Field}
    (plain : ∀ member ∈ fields, member.IsPlain)
    (split : (buf.take limit).drop s = fieldsText fields) :
    declaredLength buf (fieldSlots s fields) =
      ((fields.filter Field.isContentLength).getLast?).map fun field => to64 field.value := by
  induction fields generalizing s with
  | nil => rfl
  | cons field fields ih =>
    obtain ⟨next, -, left, place⟩ := readHeader_field plain split
    obtain ⟨gap, text, present, delimits, -⟩ := fieldsText_cons field fields
    have shape : fieldsText (field :: fields) = field.line ++ (gap ++ fieldsText fields) := by
      rw [text]
      simp [Field.line]
    rw [shape] at split
    obtain ⟨more, buffer⟩ := drop_of_split split
    rw [List.append_assoc] at buffer
    have stop : ∀ byte ∈ (gap ++ fieldsText fields ++ more).head?, isDigit byte = false := by
      obtain ⟨head, tail, rfl⟩ := List.exists_cons_of_ne_nil present
      apply forall_head
      have line := delimits head List.mem_cons_self
      by_contra digit
      rw [isDelim_crlf (isprint_of_isDigit (by simpa using digit))] at line
      cases line
    have rest : declaredLength buf (fieldSlots (s + field.line.length + 2) fields) =
        ((fields.filter Field.isContentLength).getLast?).map fun field => to64 field.value := by
      cases fields with
      | nil => rfl
      | cons second fields =>
        rw [← place (by simp)]
        exact ih (fun member inside => plain member (List.mem_cons_of_mem field inside)) left
    rw [fieldSlots, declaredLength_cons, rest, isContentLength_field buffer,
      headerNumber_field (plain field List.mem_cons_self) stop buffer, List.filter_cons]
    cases named : field.isContentLength with
    | true =>
      simp only [if_true, List.getLast?_cons]
      cases (fields.filter Field.isContentLength).getLast? <;> rfl
    | false => simp

/-- A name whose length no field has is not found. -/
theorem findHeader_fields {buf name : Bytes} {s : Nat} {fields : List Field}
    (other : ∀ field ∈ fields, field.name.length ≠ name.length) :
    findHeader buf (fieldSlots s fields) name = none := by
  have missing : (fieldSlots s fields).find? (fun slot => slot.1.p.isSome &&
      slot.1.len == name.length &&
        mgNcasecmp (buf.drop (slot.1.p.getD 0)) name name.length == 0) = none := by
    induction fields generalizing s with
    | nil => rfl
    | cons field fields ih =>
      have length := other field List.mem_cons_self
      rw [fieldSlots, List.find?_cons_of_neg (by simp [length])]
      exact ih fun member inside => other member (List.mem_cons_of_mem field inside)
  rw [findHeader, missing]
  rfl

/-! ## A reply -/

/-- The status line of a successful reply. -/
abbrev okLine : Bytes := ascii "HTTP/1.1 200 OK"

/-- The headers of a successful reply begin behind its status line. -/
theorem headersStart_ok {buf : Bytes} {limit : Nat} {field : Field} {fields : List Field}
    (plain : ∀ member ∈ field :: fields, member.IsPlain)
    (block : buf.take limit = blockOf (okLine :: (field :: fields).map Field.line)) :
    headersStart buf limit false = some 17 ∧
      (buf.take limit).drop 17 = fieldsText (field :: fields) := by
  -- `HTTP/1.1`, a space, `200` and another space, `OK`
  have text : (buf.take limit).drop 0 = [72, 84, 84, 80, 47, 49, 46, 49] ++
      ([space] ++ ([50, 48, 48, 32] ++ ([79, 75] ++ (crlf ++ fieldsText (field :: fields))))) := by
    have words : okLine = [72, 84, 84, 80, 47, 49, 46, 49, 32, 50, 48, 48, 32, 79, 75] := by decide
    rw [List.drop_zero, block, words]
    simp [blockOf, fieldsText]
  have line : startLine buf limit = 0 := by
    have start : (buf.take limit).drop 0 = [] ++ (72 :: _) := text
    exact scanTo_word start (by simp) (forall_head rfl)
  have proto : mgSkip buf 0 limit [space] = (⟨some 0, 8⟩, 9) :=
    mgSkip_word text (forall_not (by decide)) (List.all_eq_true.mp (by decide)) (by simp)
      (forall_head rfl)
  have status : (buf.take limit).drop 9 = _ := drop_word (drop_word text)
  have behind : (buf.take limit).drop 13 = _ := drop_word status
  have message : mgSkip buf 13 limit crlf = (⟨some 13, 2⟩, 17) :=
    mgSkip_word behind (forall_not (by decide)) (List.all_eq_true.mp (by decide)) (by simp)
      fun byte member => isDelim_crlf (fieldsText_head plain byte member)
  have inside : 13 ≤ limit := by
    by_contra short
    have length := congrArg List.length behind
    simp only [List.length_drop, List.length_take, List.length_append, List.length_cons] at length
    omega
  obtain ⟨more, code⟩ := drop_of_split status
  have blank : buf[12]? = some space := by
    have fourth : (buf.drop 9)[3]? = some space := by rw [code]; rfl
    rwa [List.getElem?_drop] at fourth
  have number : atoi (buf.drop 9) = 200 := by
    rw [code]
    rfl
  refine ⟨?_, drop_word (drop_word behind)⟩
  simp only [headersStart, Bool.false_eq_true, if_false, line, parseStatusLine, proto, message,
    blank, number]
  rw [if_neg (by simp; omega), if_neg (by decide)]
  rfl

/-- The headers of a successful reply are the slots of its fields. -/
theorem headersOf_ok {buf : Bytes} {limit : Nat} {field : Field} {fields : List Field}
    (plain : ∀ member ∈ field :: fields, member.IsPlain)
    (room : (field :: fields).length < mgMaxHttpHeaders)
    (block : buf.take limit = blockOf (okLine :: (field :: fields).map Field.line)) :
    headersOf buf limit false = fieldSlots 17 (field :: fields) := by
  obtain ⟨start, split⟩ := headersStart_ok plain block
  simp only [headersOf, start]
  exact readHeaders_fields plain split (by omega) (by omega)

end CppCode.Mongoose
