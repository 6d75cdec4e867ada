import CppCode.Json.Writer

/-!
# `Json::Reader`

The reader goes through a document with a cursor; here the cursor is the list of the bytes that
are left, and a token is its type and the bytes that it spans. At the end of the document
`getNextChar` returns `NUL` and stays there, and what `*current_` points to is the `NUL` after
the bytes. `readToken` never returns `false`, and errors never turn into success again: they only
skip to a closing token and fail. So a reading fails with the first error, and the list of
errors has no other. Comments are skipped where they are allowed and are not collected.

Every value that is read takes a step of fuel, and so does every round of a loop over elements or
members. Each pair of such steps reads a byte at least.
-/

namespace CppCode.Json

open Library Mongoose

/-- `TokenType`. -/
inductive TokenType where
  /-- The end, or a `NUL`. -/
  | tokenEndOfStream
  /-- `{`. -/
  | tokenObjectBegin
  /-- `}`. -/
  | tokenObjectEnd
  /-- `[`. -/
  | tokenArrayBegin
  /-- `]`. -/
  | tokenArrayEnd
  /-- A string. -/
  | tokenString
  /-- A number. -/
  | tokenNumber
  /-- `true`. -/
  | tokenTrue
  /-- `false`. -/
  | tokenFalse
  /-- `null`. -/
  | tokenNull
  /-- `,`. -/
  | tokenArraySeparator
  /-- `:`. -/
  | tokenMemberSeparator
  /-- A comment. -/
  | tokenComment
  /-- Anything else. -/
  | tokenError
  deriving DecidableEq, Repr

/-- `Token`. -/
structure Token where
  /-- `type_`. -/
  type : TokenType
  /-- The bytes from `start_` to `end_`. -/
  text : Bytes
  deriving DecidableEq, Repr

/-- `Features`. -/
structure Features where
  /-- `allowComments_`. -/
  allowComments : Bool := true
  /-- `strictRoot_`. -/
  strictRoot : Bool := false

/-- `Features::all`. -/
def Features.all : Features := {}

/-- `ErrorInfo`. -/
structure ErrorInfo where
  /-- `token_`. -/
  token : Token
  /-- `message_`. -/
  message : Bytes
  deriving DecidableEq, Repr

/-- How a reading ends without a value. -/
inductive Failure where
  /-- With an error. -/
  | error (info : ErrorInfo)
  /-- With a write behind the buffer of `decodeDouble`. -/
  | overrun
  /-- Without fuel. -/
  | fuel
  deriving DecidableEq, Repr

/-- `addError`. -/
def addError {α : Type} (message : Bytes) (token : Token) : Except Failure α :=
  .error (.error ⟨token, message⟩)

/-! ## Tokens -/

/-- `*current_`. -/
def current (input : Bytes) : UInt8 := input.headD 0

/-- The blanks of `skipSpaces`. -/
def isSpace (c : UInt8) : Bool := c == 32 || c == 9 || c == 13 || c == 10

/-- `skipSpaces`. -/
def skipSpaces (input : Bytes) : Bytes := input.dropWhile isSpace

/-- `match`. -/
def matchText (pattern input : Bytes) : Bool × Bytes :=
  if pattern.isPrefixOf input then (true, input.drop pattern.length) else (false, input)

/-- `readCStyleComment`. -/
def readCStyleComment : Bytes → Bool × Bytes
  | [] => (false, [])
  | c :: rest =>
    if c = 42 ∧ current rest = 47 then (true, rest.drop 1) else readCStyleComment rest

/-- `readCppStyleComment`. -/
def readCppStyleComment : Bytes → Bytes
  | [] => []
  | c :: rest => if c = 13 ∨ c = 10 then rest else readCppStyleComment rest

/-- `readComment`, after the slash. -/
def readComment : Bytes → Bool × Bytes
  | [] => (false, [])
  | c :: rest =>
    if c = 42 then readCStyleComment rest
    else if c = 47 then (true, readCppStyleComment rest)
    else (false, rest)

/-- The characters that `readNumber` goes through. -/
def isNumberChar (c : UInt8) : Bool :=
  isDigit c || c == 46 || c == 101 || c == 69 || c == 43 || c == 45

/-- `readNumber`. -/
def readNumber (input : Bytes) : Bytes := input.dropWhile isNumberChar

/-- `readString`, after the opening quote. -/
def readString : Bytes → Bool × Bytes
  | [] => (false, [])
  | [c] => (c == 34, [])
  | c :: next :: rest =>
    if c = 92 then readString rest
    else if c = 34 then (true, next :: rest)
    else readString (next :: rest)

/-- The type that `readToken` gives a token that begins with a character, before what `ok` says,
and what is left of the input. -/
def tokenAt (c : UInt8) (input : Bytes) : TokenType × Bool × Bytes :=
  if c = 123 then (.tokenObjectBegin, true, input)
  else if c = 125 then (.tokenObjectEnd, true, input)
  else if c = 91 then (.tokenArrayBegin, true, input)
  else if c = 93 then (.tokenArrayEnd, true, input)
  else if c = 34 then (.tokenString, readString input)
  else if c = 47 then (.tokenComment, readComment input)
  else if isDigit c ∨ c = 45 then (.tokenNumber, true, readNumber input)
  else if c = 116 then (.tokenTrue, matchText (ascii "rue") input)
  else if c = 102 then (.tokenFalse, matchText (ascii "alse") input)
  else if c = 110 then (.tokenNull, matchText (ascii "ull") input)
  else if c = 44 then (.tokenArraySeparator, true, input)
  else if c = 58 then (.tokenMemberSeparator, true, input)
  else if c = 0 then (.tokenEndOfStream, true, input)
  else (.tokenError, false, input)

/-- `readToken`: the token, and the input after it. -/
def readToken (input : Bytes) : Token × Bytes :=
  let start := skipSpaces input
  let (type, ok, rest) := tokenAt (current start) (start.drop 1)
  (⟨if ok then type else .tokenError, start.take (start.length - rest.length)⟩, rest)

/-- The loop over comments, with a bound on their number. -/
def readPastComments : Nat → Bytes → Token × Bytes
  | 0, input => readToken input
  | count + 1, input =>
    let (token, rest) := readToken input
    if token.type = .tokenComment then readPastComments count rest else (token, rest)

/-- `skipCommentTokens`. -/
def skipCommentTokens (features : Features) (input : Bytes) : Token × Bytes :=
  if features.allowComments then readPastComments input.length input else readToken input

/-! ## Strings -/

/-- A hexadecimal digit of `decodeUnicodeEscapeSequence`. -/
def decodeHexDigit (c : UInt8) : Option Nat :=
  if 48 ≤ c ∧ c ≤ 57 then some (c.toNat - 48)
  else if 97 ≤ c ∧ c ≤ 102 then some (c.toNat - 97 + 10)
  else if 65 ≤ c ∧ c ≤ 70 then some (c.toNat - 65 + 10)
  else none

/-- `decodeUnicodeEscapeSequence`. -/
def decodeUnicodeEscapeSequence (token : Token) (input : Bytes) :
    Except Failure (Nat × Bytes) :=
  match input with
  | first :: second :: third :: fourth :: rest =>
    let digits := [first, second, third, fourth].mapM decodeHexDigit
    match digits with
    | some digits => .ok (digits.foldl (fun unicode digit => unicode * 16 + digit) 0, rest)
    | none =>
      addError (ascii "Bad unicode escape sequence in string: hexadecimal digit expected.") token
  | _ => addError (ascii "Bad unicode escape sequence in string: four digits expected.") token

/-- `decodeUnicodeCodePoint`. -/
def decodeUnicodeCodePoint (token : Token) (input : Bytes) : Except Failure (Nat × Bytes) :=
  match decodeUnicodeEscapeSequence token input with
  | .error failure => .error failure
  | .ok (unicode, rest) =>
    if 0xD800 ≤ unicode ∧ unicode ≤ 0xDBFF then
      if rest.length < 6 then
        addError (ascii
          "additional six characters expected to parse unicode surrogate pair.") token
      else if rest.take 2 = [92, 117] then
        match decodeUnicodeEscapeSequence token (rest.drop 2) with
        | .error failure => .error failure
        | .ok (surrogatePair, rest) =>
          .ok (0x10000 + (unicode % 0x400) * 0x400 + surrogatePair % 0x400, rest)
      else
        addError (ascii
          "expecting another \\u token to begin the second half of a unicode surrogate pair") token
    else .ok (unicode, rest)

/-- `codePointToUTF8`. -/
def codePointToUTF8 (cp : Nat) : Bytes :=
  if cp ≤ 0x7f then [UInt8.ofNat cp]
  else if cp ≤ 0x7FF then
    [UInt8.ofNat (0xC0 ||| (0x1f &&& (cp >>> 6))), UInt8.ofNat (0x80 ||| (0x3f &&& cp))]
  else if cp ≤ 0xFFFF then
    [UInt8.ofNat (0xE0 ||| (0xf &&& (cp >>> 12))), UInt8.ofNat (0x80 ||| (0x3f &&& (cp >>> 6))),
      UInt8.ofNat (0x80 ||| (0x3f &&& cp))]
  else if cp ≤ 0x10FFFF then
    [UInt8.ofNat (0xF0 ||| (0x7 &&& (cp >>> 18))), UInt8.ofNat (0x80 ||| (0x3f &&& (cp >>> 12))),
      UInt8.ofNat (0x80 ||| (0x3f &&& (cp >>> 6))), UInt8.ofNat (0x80 ||| (0x3f &&& cp))]
  else []

/-- What `decodeString` appends for an escape other than `\u`. -/
def decodeEscape (escape : UInt8) : Option UInt8 :=
  if escape = 34 then some 34
  else if escape = 47 then some 47
  else if escape = 92 then some 92
  else if escape = 98 then some 8
  else if escape = 102 then some 12
  else if escape = 110 then some 10
  else if escape = 114 then some 13
  else if escape = 116 then some 9
  else none

/-- What `decodeString` appends for the escape after a backslash, and the input after it. -/
def decodeEscapeSequence (token : Token) (input : Bytes) : Except Failure (Bytes × Bytes) :=
  match input with
  | [] => addError (ascii "Empty escape sequence in string") token
  | escape :: rest =>
    match decodeEscape escape with
    | some byte => .ok ([byte], rest)
    | none =>
      if escape = 117 then
        (decodeUnicodeCodePoint token rest).map fun (unicode, rest) =>
          (codePointToUTF8 unicode, rest)
      else addError (ascii "Bad escape sequence in string") token

/-- The loop of `decodeString`, of as many rounds as there are bytes between the quotes. -/
def decodeCharacters (token : Token) : Nat → Bytes → Except Failure Bytes
  | _, [] => .ok []
  | 0, _ :: _ => .error .fuel
  | count + 1, c :: rest =>
    if c = 34 then .ok []
    else if c = 92 then
      match decodeEscapeSequence token rest with
      | .error failure => .error failure
      | .ok (appended, rest) => (decodeCharacters token count rest).map (appended ++ ·)
    else (decodeCharacters token count rest).map (c :: ·)

/-- `decodeString`. -/
def decodeString (token : Token) : Except Failure Bytes :=
  let content := (token.text.drop 1).dropLast
  decodeCharacters token content.length content

/-! ## Numbers -/

/-- The error of a token that is no number. -/
def notNumber {α : Type} (token : Token) : Except Failure α :=
  addError (ascii "'" ++ token.text ++ ascii "' is not a number.") token

/-- `isDouble` of `decodeNumber`: a point, an exponent or a plus, or a minus behind the start. -/
def isDouble (text : Bytes) : Bool :=
  text.any [46, 101, 69, 43].contains || (text.drop 1).contains 45

/-- How the second loop of `decodeNumber` ends. -/
inductive Digits where
  /-- With the value of all digits. -/
  | value (value : UInt32)
  /-- At a character that is no digit. -/
  | noDigit
  /-- At the threshold, from where on the number is read as a `double`. -/
  | large
  deriving DecidableEq, Repr

/-- The second loop of `decodeNumber`. -/
def decodeDigits (threshold : UInt32) : Bytes → UInt32 → Digits
  | [], value => .value value
  | c :: rest, value =>
    if c < 48 ∨ c > 57 then .noDigit
    else if threshold ≤ value then .large
    else decodeDigits threshold rest (value * 10 + (c - 48).toUInt32)

section Values

variable {D : Type} [CDouble D]

/-- `decodeDouble`. A token of 32 bytes has its `NUL` written behind the buffer, and a length that
is no `int` is copied as it converts. -/
def decodeDouble (token : Token) : Except Failure (Value D) :=
  let length := toInt token.text.length
  if length ≤ 32 ∧ (length < 0 ∨ length = 32) then .error .overrun
  else
    let buffer := if length ≤ 32 then token.text.take length.toNat else token.text
    match CDouble.sscanf buffer with
    | some value => .ok (.real value)
    | none => notNumber token

/-- `decodeNumber`. -/
def decodeNumber (token : Token) : Except Failure (Value D) :=
  if isDouble token.text then decodeDouble token
  else
    let isNegative := current token.text == 45
    let digits := if isNegative then token.text.drop 1 else token.text
    let threshold := (if isNegative then (-minInt).toUInt32 else maxUInt) / 10
    match decodeDigits threshold digits 0 with
    | .noDigit => notNumber token
    | .large => decodeDouble token
    | .value value =>
      if isNegative then .ok (.int (-value.toInt32))
      else if value ≤ maxInt.toUInt32 then .ok (.int value.toInt32)
      else .ok (.uint value)

/-! ## Values -/

mutual

/-- `readValue`: the value, and the input after it. -/
def readValue (features : Features) : Nat → Bytes → Except Failure (Value D × Bytes)
  | 0, _ => .error .fuel
  | fuel + 1, input =>
    let (token, rest) := skipCommentTokens features input
    match token.type with
    | .tokenObjectBegin => readMembers features fuel [] [] rest
    | .tokenArrayBegin =>
      let rest := skipSpaces rest
      if current rest = 93 then .ok (.array [], (readToken rest).2)
      else readElements features fuel 0 [] rest
    | .tokenNumber => (decodeNumber token).map fun value => (value, rest)
    | .tokenString => (decodeString token).map fun decoded => (.ofString decoded, rest)
    | .tokenTrue => .ok (.boolean true, rest)
    | .tokenFalse => .ok (.boolean false, rest)
    | .tokenNull => .ok (.null, rest)
    | _ => addError (ascii "Syntax error: value, object or array expected.") token

/-- The loop of `readArray`, from an index on. Its test for a bad token never succeeds. -/
def readElements (features : Features) :
    Nat → Int32 → List (Int32 × Value D) → Bytes → Except Failure (Value D × Bytes)
  | 0, _, _, _ => .error .fuel
  | fuel + 1, index, map, input =>
    match readValue features fuel input with
    | .error failure => .error failure
    | .ok (value, rest) =>
      let map := assign map index value
      let (token, rest) := readPastComments rest.length rest
      if token.type = .tokenArraySeparator ∧ token.type = .tokenArrayEnd then
        addError (ascii "Missing ',' or ']' in array declaration") token
      else if token.type = .tokenArrayEnd then .ok (.array map, rest)
      else readElements features fuel (index + 1) map rest

/-- The loop of `readObject`, with the name of the last member. -/
def readMembers (features : Features) :
    Nat → Bytes → List (Bytes × Value D) → Bytes → Except Failure (Value D × Bytes)
  | 0, _, _, _ => .error .fuel
  | fuel + 1, name, map, input =>
    let (tokenName, rest) := readPastComments input.length input
    if tokenName.type = .tokenObjectEnd ∧ name = [] then .ok (.object map, rest)
    else if tokenName.type ≠ .tokenString then
      addError (ascii "Missing '\x7d' or object member name") tokenName
    else
      match decodeString tokenName with
      | .error failure => .error failure
      | .ok name =>
        let (colon, rest) := readToken rest
        if colon.type ≠ .tokenMemberSeparator then
          addError (ascii "Missing ':' after object member name") colon
        else
          match readValue features fuel rest with
          | .error failure => .error failure
          | .ok (value, rest) =>
            let map := assign map (cStr name) value
            let comma := (readToken rest).1
            if comma.type ≠ .tokenObjectEnd ∧ comma.type ≠ .tokenArraySeparator ∧
                comma.type ≠ .tokenComment then
              addError (ascii "Missing ',' or '\x7d' in object declaration") comma
            else
              let (comma, rest) := readPastComments rest.length rest
              if comma.type = .tokenObjectEnd then .ok (.object map, rest)
              else readMembers features fuel name map rest

end

/-- `parse`, without comments collected. The tokens after the value are looked at by nothing. -/
def parse (features : Features) (document : Bytes) : Except Failure (Value D) :=
  match readValue features (2 * document.length + 1) document with
  | .error failure => .error failure
  | .ok (root, _) =>
    if features.strictRoot ∧ ¬ root.isArray ∧ ¬ root.isObject then
      addError (ascii
        "A valid JSON document must be either an array or an object value.") ⟨.tokenError, document⟩
    else .ok root

/-- `JsonStringToObject`: the value, or that of `NULL`, which is an `Int`. Nothing is returned
when the memory of the program was overwritten. -/
def jsonStringToObject (strObj : Bytes) : Option (Value D) :=
  match parse .all strObj with
  | .ok jsonValue => some jsonValue
  | .error (.error _) => some (.int 0)
  | .error .overrun => none
  | .error .fuel => none

end Values

end CppCode.Json
