import CppCode.Library.Decimal

/-!
# Content-Length framing

HTTP/1.1 messages on a byte stream, as a reader that keeps the connection open has to cut them:
a block of lines that an empty line ends, then as many bytes as the `Content-Length` field of
the block says. `readMessage` takes one message off the front of a stream and `Splits` relates
a stream to the messages that it consists of. A message that a sender frames with a correct
length is read back whatever follows it (`readMessage_append`), so a stream of such messages
splits into exactly these messages and no others (`splits_flatMap`, `Splits.unique`).
-/

namespace CppCode.Library

/-- `'\r'`. -/
abbrev cr : UInt8 := 13
/-- `'\n'`. -/
abbrev lf : UInt8 := 10
/-- `' '`. -/
abbrev space : UInt8 := 32
/-- `':'`. -/
abbrev colon : UInt8 := 58
/-- The line end of HTTP. -/
abbrev crlf : List UInt8 := [cr, lf]

/-- The bytes of an ASCII text. -/
def ascii (text : String) : List UInt8 := text.toList.map fun char => UInt8.ofNat char.toNat

/-- An ASCII letter in lower case. -/
def lowerByte (byte : UInt8) : UInt8 := if 65 ≤ byte && byte ≤ 90 then byte + 32 else byte

/-- A line that can stand in a block: not empty, and without a carriage return. -/
structure IsLine (line : List UInt8) : Prop where
  /-- The empty line ends the block. -/
  nonempty : line ≠ []
  /-- A carriage return begins the end of the line. -/
  plain : cr ∉ line

instance (line : List UInt8) : Decidable (IsLine line) :=
  decidable_of_iff (line ≠ [] ∧ cr ∉ line) ⟨fun h => ⟨h.1, h.2⟩, fun h => ⟨h.1, h.2⟩⟩

/-- Lines, each ended by CRLF, and the empty line that ends the block. -/
def blockOf (lines : List (List UInt8)) : List UInt8 :=
  (lines.flatMap fun line => line ++ crlf) ++ crlf

/-- Read the lines of a block, given the bytes of the current line, and return what follows. -/
def readBlock : List UInt8 → List UInt8 → Option (List (List UInt8) × List UInt8)
  | [], _ => none
  | [_], _ => none
  | first :: second :: rest, line =>
    if first = cr ∧ second = lf then
      if line = [] then some ([], rest)
      else (readBlock rest []).map fun (lines, after) => (line :: lines, after)
    else readBlock (second :: rest) (line ++ [first])

/-- A field line as its name in lower case and its value without the blanks around it. -/
def fieldOf (line : List UInt8) : List UInt8 × List UInt8 :=
  let blank := fun byte : UInt8 => byte == space || byte == 9
  let name := line.takeWhile (· != colon)
  let value := (line.drop (name.length + 1)).dropWhile blank
  (name.map lowerByte, (value.reverse.dropWhile blank).reverse)

/-- The number of a `Content-Length` field. -/
def lengthField (line : List UInt8) : Option Nat :=
  let (name, value) := fieldOf line
  if name = ascii "content-length" ∧ value ≠ [] ∧ value.all isDigit then
    some (digitsValue value)
  else none

/-- The body length that a block declares in a field after its start line. -/
def contentLength (lines : List (List UInt8)) : Option Nat := lines.tail.findSome? lengthField

/-- A message: the lines of its block, and its body. -/
structure Message where
  /-- Start line and fields. -/
  head : List (List UInt8)
  /-- Body. -/
  body : List UInt8
  deriving DecidableEq, Repr

/-- The bytes of a message. -/
def Message.bytes (message : Message) : List UInt8 := blockOf message.head ++ message.body

/-- The block of a message can be read, and declares the length of its body. -/
structure Message.Framed (message : Message) : Prop where
  /-- Every line is a line. -/
  lines : ∀ line ∈ message.head, IsLine line
  /-- The declared length is that of the body. -/
  length : contentLength message.head = some message.body.length

/-- Take one message off a stream. -/
def readMessage (bytes : List UInt8) : Option (Message × List UInt8) :=
  match readBlock bytes [] with
  | none => none
  | some (head, rest) =>
    match contentLength head with
    | none => none
    | some length =>
      if length ≤ rest.length then some (⟨head, rest.take length⟩, rest.drop length) else none

/-- A stream consists of these messages, with no byte left over. -/
inductive Splits : List UInt8 → List Message → Prop
  /-- The empty stream has no message. -/
  | nil : Splits [] []
  /-- The first message, then the rest. -/
  | cons {bytes rest : List UInt8} {message : Message} {messages : List Message}
      (nonempty : bytes ≠ []) (read : readMessage bytes = some (message, rest))
      (later : Splits rest messages) : Splits bytes (message :: messages)

/-! ## Reading a block -/

/-- Reading goes through a line without a carriage return up to its end. -/
theorem readBlock_line {line rest before : List UInt8} (plain : cr ∉ line)
    (nonempty : before ++ line ≠ []) :
    readBlock (line ++ crlf ++ rest) before =
      (readBlock rest []).map fun (lines, after) => ((before ++ line) :: lines, after) := by
  induction line generalizing before with
  | nil =>
    rw [List.append_nil] at nonempty
    simp [readBlock, nonempty]
  | cons byte line ih =>
    have other : byte ≠ cr := fun same => plain (same ▸ List.mem_cons_self)
    have tail : cr ∉ line := fun member => plain (List.mem_cons_of_mem byte member)
    obtain ⟨second, remaining, shape⟩ : ∃ second remaining,
        line ++ crlf ++ rest = second :: remaining := by
      cases line with
      | nil => exact ⟨_, _, rfl⟩
      | cons head line => exact ⟨_, _, rfl⟩
    rw [List.cons_append, List.cons_append, shape, readBlock, if_neg (fun both => other both.1),
      ← shape, ih tail (by simp)]
    simp

/-- A block is read back as its lines, with what follows it. -/
theorem readBlock_blockOf {lines : List (List UInt8)} (readable : ∀ line ∈ lines, IsLine line)
    (rest : List UInt8) : readBlock (blockOf lines ++ rest) [] = some (lines, rest) := by
  induction lines with
  | nil => simp [blockOf, readBlock]
  | cons line lines ih =>
    have head := readable line List.mem_cons_self
    have split : blockOf (line :: lines) ++ rest = line ++ crlf ++ (blockOf lines ++ rest) := by
      simp [blockOf]
    rw [split, readBlock_line head.plain (by simpa using head.nonempty),
      ih fun other member => readable other (List.mem_cons_of_mem line member)]
    rfl

/-! ## Streams of messages -/

/-- A framed message is read back from the front of a stream. -/
theorem readMessage_append {message : Message} (framed : message.Framed) (rest : List UInt8) :
    readMessage (message.bytes ++ rest) = some (message, rest) := by
  have fits : message.body.length ≤ (message.body ++ rest).length := by simp
  simp only [readMessage, Message.bytes, List.append_assoc, readBlock_blockOf framed.lines,
    framed.length, if_pos fits, List.take_left, List.drop_left]

/-- Framed messages in a row split into themselves. -/
theorem splits_flatMap {messages : List Message}
    (framed : ∀ message ∈ messages, message.Framed) :
    Splits (messages.flatMap Message.bytes) messages := by
  induction messages with
  | nil => exact .nil
  | cons message messages ih =>
    have head := framed message List.mem_cons_self
    refine .cons ?_ (readMessage_append head _)
      (ih fun other member => framed other (List.mem_cons_of_mem message member))
    simp [Message.bytes, blockOf]

/-- A stream consists of one sequence of messages only. -/
theorem Splits.unique {bytes : List UInt8} {first second : List Message}
    (left : Splits bytes first) (right : Splits bytes second) : first = second := by
  induction left generalizing second with
  | nil =>
    cases right with
    | nil => rfl
    | cons nonempty => contradiction
  | cons nonempty read _ ih =>
    cases right with
    | nil => contradiction
    | cons _ again later =>
      obtain ⟨rfl, rfl⟩ := Prod.mk.inj (Option.some.inj (read.symm.trans again))
      rw [ih later]

/-! ## Writing a length -/

/-- Digits are not blanks. -/
theorem dropWhile_digits {bytes : List UInt8} (digits : ∀ byte ∈ bytes, isDigit byte = true) :
    bytes.dropWhile (fun byte => byte == space || byte == 9) = bytes := by
  cases bytes with
  | nil => rfl
  | cons head rest =>
    have digit := digits head List.mem_cons_self
    apply List.dropWhile_cons_of_neg
    intro blank
    rcases Bool.or_eq_true _ _ |>.mp blank with same | same
    · rw [eq_of_beq same] at digit
      contradiction
    · rw [eq_of_beq same] at digit
      contradiction

/-- The number of a field that the sender writes is read back. -/
theorem lengthField_decimal (count : Nat) :
    lengthField (ascii "Content-Length: " ++ decimal count) = some count := by
  have digits := decimal_digit count
  have front : (decimal count).dropWhile (fun byte => byte == space || byte == 9) =
      decimal count := dropWhile_digits digits
  have back : (decimal count).reverse.dropWhile (fun byte => byte == space || byte == 9) =
      (decimal count).reverse :=
    dropWhile_digits fun byte member => digits byte (List.mem_reverse.mp member)
  have field : fieldOf (ascii "Content-Length: " ++ decimal count) =
      (ascii "content-length", decimal count) := by
    change (ascii "content-length", _) = _
    change (ascii "content-length", (((decimal count).dropWhile _).reverse.dropWhile _).reverse) = _
    rw [front, back, List.reverse_reverse]
  simp only [lengthField, field, digitsValue_decimal]
  rw [if_pos ⟨trivial, decimal_ne_nil count, List.all_eq_true.mpr digits⟩]

/-- The line of a length can stand in a block. -/
theorem isLine_length (count : Nat) : IsLine (ascii "Content-Length: " ++ decimal count) where
  nonempty := by simp [ascii]
  plain := by
    intro member
    rcases List.mem_append.mp member with name | digit
    · exact absurd name (by decide)
    · exact absurd (decimal_digit count cr digit) (by decide)

end CppCode.Library
