import CppCode.Library.PercentCoding
import CppCode.Mongoose.WellFormed

/-!
# Form data

`mg_get_http_var` looks for a variable in the body of a form or in a query string, and decodes its
value into a buffer of the caller. It finds the first field of that name, in any case, and stores
the text of its value or refuses it (`mgGetHttpVar_reads`). What `mg_url_encode` writes for the
values of a form is read back as long as it fits (`mgGetHttpVar_form`).
-/

namespace CppCode.Mongoose

open Library

/-! ## Encoding -/

/-- `isalnum` of the C locale. -/
def isalnum (byte : UInt8) : Bool :=
  isDigit byte || (65 ≤ byte && byte ≤ 90) || (97 ≤ byte && byte ≤ 122)

/-- The bytes that `mg_url_encode` leaves: `strchr` finds the NUL of `dont_escape` as well. -/
def dontEscape (byte : UInt8) : Bool :=
  isalnum byte || (ascii "._-$,;~()/" ++ [0]).contains byte

/-- The text `hex` of `mg_url_encode`. -/
def hexText : Bytes := ascii "0123456789abcdef"

/-- The loop of `mg_url_encode`. Its test before an escape repeats the one of the loop. -/
def urlEncodeLoop (dstLen : Nat) : Bytes → Bytes → Bytes
  | [], dst => dst
  | byte :: src, dst =>
    if dst.length + 2 < dstLen - 1 then
      if dontEscape byte then urlEncodeLoop dstLen src (dst ++ [byte])
      else urlEncodeLoop dstLen src (dst ++
        [37, hexText.getD (byte >>> 4).toNat 0, hexText.getD (byte &&& 0xf).toNat 0])
    else dst

/-- `mg_url_encode`: what it writes in front of the NUL. -/
def mgUrlEncode (src : Bytes) (dstLen : Nat) : Bytes := urlEncodeLoop dstLen src []

/-! ## Decoding -/

/-- `HEXTOI`. -/
def hextoi (x : UInt8) : UInt8 := if isDigit x then x - 48 else x - 87

/-- The loop of `mg_url_decode`, with the room that is left in front of the NUL: its result, and
what was written. -/
def urlDecodeLoop (isFormUrlEncoded : Bool) : Nat → Bytes → Bytes → Int × Bytes
  | _, [], dst => (dst.length, dst)
  | 0, _ :: _, dst => (-1, dst)
  | room + 1, byte :: src, dst =>
    if byte = 37 then
      match src with
      | first :: second :: src =>
        if isxdigit first && isxdigit second then
          urlDecodeLoop isFormUrlEncoded room src
            (dst ++ [hextoi (tolower first) <<< 4 ||| hextoi (tolower second)])
        else (-1, dst)
      | _ => (-1, dst)
    else if isFormUrlEncoded && byte == 43 then
      urlDecodeLoop isFormUrlEncoded room src (dst ++ [32])
    else urlDecodeLoop isFormUrlEncoded room src (dst ++ [byte])

/-- `mg_url_decode`. Its lengths are of type `int`, those that it is called with `size_t`. -/
def mgUrlDecode (src : Bytes) (dstLen : Nat) (isFormUrlEncoded : Bool) : Int × Bytes :=
  urlDecodeLoop isFormUrlEncoded (toInt dstLen - 1).toNat (src.take (toInt src.length).toNat) []

/-- Lengths in the range of `int` are what they were. -/
theorem mgUrlDecode_eq {src : Bytes} {dstLen : Nat} (small : src.length ≤ intMax ∧ dstLen ≤ intMax)
    (form : Bool) : mgUrlDecode src dstLen form = urlDecodeLoop form (dstLen - 1) src [] := by
  have room : ((dstLen : Int) - 1).toNat = dstLen - 1 := by omega
  rw [mgUrlDecode, toInt_of_le small.1, toInt_of_le small.2, Int.toNat_natCast, List.take_length,
    room]

/-! ## Variables -/

/-- The loop of `mg_get_http_var` over the places where a name may begin, with the byte in front. -/
def httpVarLoop (name : Bytes) (dstLen : Nat) : Option UInt8 → Bytes → Int × Bytes
  | _, [] => (-1, [])
  | before, byte :: rest =>
    let p := byte :: rest
    if name.length < p.length then
      if (before = none ∨ before = some 38) ∧ p.getD name.length 0 = 61 ∧
          mgNcasecmp name p name.length = 0 then
        let value := (p.drop (name.length + 1)).takeWhile (· ≠ 38)
        let decoded := mgUrlDecode value dstLen true
        (if decoded.1 = -1 then -2 else decoded.1, decoded.2)
      else httpVarLoop name dstLen (some byte) rest
    else (-1, [])

/-- `mg_get_http_var` for a buffer of the caller that is not `NULL`: its result and what it writes
in front of the NUL. -/
def mgGetHttpVar (buf : Option Bytes) (name : Option Bytes) (dstLen : Nat) : Int × Bytes :=
  if dstLen = 0 then (-2, [])
  else
    match buf, name with
    | some buf, some name => httpVarLoop name dstLen none buf
    | _, _ => (-1, [])

/-! ## The decoder -/

/-- The digits that `isxdigit` knows have the value that `HEXTOI` computes. -/
theorem nibble_spec (byte : UInt8) :
    nibble byte = if isxdigit byte then some (hextoi (tolower byte)).toNat else none := by
  have all : ∀ n < 256, nibble (UInt8.ofNat n) = if isxdigit (UInt8.ofNat n) then
      some (hextoi (tolower (UInt8.ofNat n))).toNat else none := by decide +kernel
  have this := all byte.toNat byte.toNat_lt
  rwa [UInt8.ofNat_toNat] at this

/-- The two digits of a byte are put together. -/
theorem hextoi_join {first second : UInt8} {high low : Nat} (one : nibble first = some high)
    (two : nibble second = some low) :
    hextoi (tolower first) <<< 4 ||| hextoi (tolower second) = UInt8.ofNat (high * 16 + low) := by
  have joined : ∀ high < 16, ∀ low < 16,
      UInt8.ofNat high <<< 4 ||| UInt8.ofNat low = UInt8.ofNat (high * 16 + low) := by
    decide +kernel
  have values : ∀ {byte : UInt8} {value : Nat}, nibble byte = some value →
      hextoi (tolower byte) = UInt8.ofNat value := by
    intro byte value digit
    rw [nibble_spec] at digit
    split_ifs at digit
    rw [← Option.some.inj digit, UInt8.ofNat_toNat]
  rw [values one, values two]
  exact joined high (nibble_lt one) low (nibble_lt two)

/-- Three bytes are decoded as one when two of them are digits. -/
theorem percentDecode_digits (form : Bool) (first second : UInt8) (src : Bytes) :
    percentDecode form (37 :: first :: second :: src) =
      if isxdigit first && isxdigit second then (percentDecode form src).map
        ((hextoi (tolower first) <<< 4 ||| hextoi (tolower second)) :: ·)
      else none := by
  rw [percentDecode, if_pos (show (37 : UInt8) = percent from rfl)]
  rw [nibble_spec first, nibble_spec second]
  by_cases one : isxdigit first = true
  · by_cases two : isxdigit second = true
    · have joined := @hextoi_join first second _ _ (by rw [nibble_spec, if_pos one])
        (by rw [nibble_spec, if_pos two])
      rw [if_pos one, if_pos two, one, two, joined]
      rfl
    · simp [one, two]
  · simp [one]

/-- A percent sign with less than two bytes behind it is refused. -/
theorem percentDecode_short (form : Bool) {src : Bytes} (short : src.length < 2) :
    percentDecode form (37 :: src) = none := by
  match src with
  | [] => rfl
  | [_] => rfl
  | _ :: _ :: _ =>
    simp only [List.length_cons] at short
    omega

/-- What becomes of a text behind `dst` when there is room for so many bytes. -/
def storedText (room : Nat) (dst text : Bytes) : Int × Bytes :=
  (if text.length ≤ room then ((dst.length + text.length : Nat) : Int) else -1,
    dst ++ text.take room)

/-- Storing goes on behind the first byte. -/
theorem storedText_cons (room : Nat) (dst text : Bytes) (byte : UInt8) :
    storedText (room + 1) dst (byte :: text) = storedText room (dst ++ [byte]) text := by
  have length : (dst ++ [byte]).length + text.length = dst.length + (byte :: text).length := by
    simp only [List.length_append, List.length_cons, List.length_nil]
    omega
  have fits : (byte :: text).length ≤ room + 1 ↔ text.length ≤ room := by
    rw [List.length_cons]
    omega
  rw [storedText, storedText, length]
  simp only [fits, List.take_succ_cons, List.append_assoc, List.singleton_append]

/-- A byte that is no percent sign is stored alone. -/
theorem urlDecodeLoop_plain {form : Bool} {byte : UInt8} (plain : byte ≠ percent) (room : Nat)
    (src dst : Bytes) :
    urlDecodeLoop form (room + 1) (byte :: src) dst =
      urlDecodeLoop form room src (dst ++ [plainValue form byte]) := by
  rw [urlDecodeLoop.eq_def]
  dsimp only
  rw [if_neg (show ¬byte = 37 from plain), plainValue]
  split_ifs <;> rfl

/-- Two digits are stored as their byte. -/
theorem urlDecodeLoop_digits {form : Bool} {first second : UInt8} {high low : Nat}
    (one : nibble first = some high) (two : nibble second = some low) (room : Nat)
    (src dst : Bytes) :
    urlDecodeLoop form (room + 1) (percent :: first :: second :: src) dst =
      urlDecodeLoop form room src (dst ++ [UInt8.ofNat (high * 16 + low)]) := by
  have joined := hextoi_join one two
  rw [nibble_spec] at one two
  split_ifs at one two with digit digit'
  rw [urlDecodeLoop, if_pos (show percent = 37 from rfl), digit, digit', Bool.and_self, if_pos rfl,
    joined]

/-- A percent sign without its digits is refused. -/
theorem urlDecodeLoop_lacks {form : Bool} {behind : Bytes} (lacks : LacksDigits behind) (room : Nat)
    (dst : Bytes) : urlDecodeLoop form room (percent :: behind) dst = (-1, dst) := by
  match room, behind with
  | 0, _ => rfl
  | _ + 1, [] => rfl
  | _ + 1, [_] => rfl
  | room + 1, first :: second :: behind =>
    have missing := lacks first second behind rfl
    rw [nibble_spec, nibble_spec] at missing
    have noDigits : (isxdigit first && isxdigit second) = false := by
      obtain one | two := missing
      · split_ifs at one with digit
        simp [digit]
      · split_ifs at two with digit
        simp [digit]
    rw [urlDecodeLoop, if_pos (show percent = 37 from rfl), noDigits, if_neg Bool.false_ne_true]

/-- Without room nothing is stored. -/
theorem urlDecodeLoop_full (form : Bool) (byte other : UInt8) (src text dst : Bytes) :
    urlDecodeLoop form 0 (byte :: src) dst = storedText 0 dst (other :: text) := by
  rw [storedText, if_neg (by simp), List.take_zero, List.append_nil]
  rfl

/-- `mg_url_decode` decodes what fits. -/
theorem urlDecodeLoop_some {form : Bool} {room : Nat} {src dst text : Bytes}
    (decoded : percentDecode form src = some text) :
    urlDecodeLoop form room src dst = storedText room dst text := by
  fun_induction percentDecode form src generalizing dst text room with
  | case1 =>
    obtain rfl := Option.some.inj decoded
    simp [urlDecodeLoop, storedText]
  | case2 first second rest high low two one ih =>
    obtain ⟨more, read, rfl⟩ := Option.map_eq_some_iff.mp decoded
    cases room with
    | zero => exact urlDecodeLoop_full _ _ _ _ _ _
    | succ room => rw [urlDecodeLoop_digits one two, ih read, storedText_cons]
  | case3 => exact absurd decoded (by simp)
  | case4 => exact absurd decoded (by simp)
  | case5 byte rest plain ih =>
    obtain ⟨more, read, rfl⟩ := Option.map_eq_some_iff.mp decoded
    cases room with
    | zero => exact urlDecodeLoop_full _ _ _ _ _ _
    | succ room => rw [urlDecodeLoop_plain plain, ih read, storedText_cons]

/-- `mg_url_decode` refuses a percent sign without its digits, after it stored what is in front of
it. -/
theorem urlDecodeLoop_bad {form : Bool} {room : Nat} {front behind dst text : Bytes}
    (decoded : percentDecode form front = some text) (lacks : LacksDigits behind) :
    urlDecodeLoop form room (front ++ percent :: behind) dst = (-1, dst ++ text.take room) := by
  fun_induction percentDecode form front generalizing dst text room with
  | case1 =>
    obtain rfl := Option.some.inj decoded
    rw [List.nil_append, urlDecodeLoop_lacks lacks, List.take_nil, List.append_nil]
  | case2 first second rest high low two one ih =>
    obtain ⟨more, read, rfl⟩ := Option.map_eq_some_iff.mp decoded
    cases room with
    | zero => rw [List.take_zero, List.append_nil]; rfl
    | succ room =>
      rw [List.cons_append, List.cons_append, List.cons_append, urlDecodeLoop_digits one two,
        ih read, List.take_succ_cons, List.append_assoc, List.singleton_append]
  | case3 => exact absurd decoded (by simp)
  | case4 => exact absurd decoded (by simp)
  | case5 byte rest plain ih =>
    obtain ⟨more, read, rfl⟩ := Option.map_eq_some_iff.mp decoded
    cases room with
    | zero => rw [List.take_zero, List.append_nil]; rfl
    | succ room =>
      rw [List.cons_append, urlDecodeLoop_plain plain, ih read, List.take_succ_cons,
        List.append_assoc, List.singleton_append]

/-! ## Finding a variable -/

/-- Bytes that are compared without `NUL`s on the left are the same in lower case. -/
theorem mgNcasecmp_left {left right : Bytes} (plain : 0 ∉ left) :
    mgNcasecmp left right left.length = 0 ↔
      left.map tolower = (right.take left.length).map tolower := by
  induction left generalizing right with
  | nil => simp [mgNcasecmp]
  | cons head left ih =>
    have nonzero : head ≠ 0 := fun zero => plain (zero ▸ List.mem_cons_self)
    have rest := @ih right.tail fun zero => plain (List.mem_cons_of_mem head zero)
    cases right with
    | nil =>
      have lower : tolower head ≠ 0 := fun zero => nonzero (tolower_eq_zero.mp zero)
      have positive : (tolower head).toNat ≠ 0 := fun zero => lower (UInt8.toNat_inj.mp zero)
      have none : (tolower 0).toNat = 0 := rfl
      simp [mgNcasecmp, none, positive]
    | cons byte right =>
      rw [List.tail_cons] at rest
      simp only [List.length_cons, mgNcasecmp, List.headD_cons, List.tail_cons,
        List.take_succ_cons, List.map_cons, List.cons.injEq]
      by_cases same : tolower head = tolower byte
      · simp [same, nonzero, rest]
      · have differ : ((tolower head).toNat : Int) - (tolower byte).toNat ≠ 0 := by
          intro zero
          exact same (UInt8.toNat_inj.mp (by omega))
        simp [same, differ]

/-- The encoded value of a field that has this name. -/
def valueOf (name field : Bytes) : Option Bytes :=
  if name.map tolower = (field.take name.length).map tolower ∧ field[name.length]? = some 61 then
    some (field.drop (name.length + 1))
  else none

/-- The test of `mg_get_http_var` at the beginning of a field looks at the field alone. -/
theorem valueOf_first {name p : Bytes} (plain : 38 ∉ name ∧ 0 ∉ name) :
    valueOf name (p.takeWhile (· ≠ 38)) =
      if name.length < p.length ∧ p.getD name.length 0 = 61 ∧ mgNcasecmp name p name.length = 0 then
        some ((p.drop (name.length + 1)).takeWhile (· ≠ 38))
      else none := by
  by_cases found : name.length < p.length ∧ p.getD name.length 0 = 61 ∧
      mgNcasecmp name p name.length = 0
  · rw [if_pos found]
    obtain ⟨long, equals, same⟩ := found
    rw [mgNcasecmp_left plain.2] at same
    have split : p = p.take name.length ++ 61 :: p.drop (name.length + 1) := by
      rw [List.getD_eq_getElem?_getD, List.getElem?_eq_getElem long, Option.getD_some] at equals
      rw [← equals, ← List.drop_eq_getElem_cons long, List.take_append_drop]
    have front : (p.take name.length).length = name.length := List.length_take_of_le (by omega)
    have through : ∀ byte ∈ p.take name.length, decide (byte ≠ 38) = true := by
      intro byte inside
      apply decide_eq_true
      rintro rfl
      have lower : tolower 38 ∈ name.map tolower := by
        rw [same]
        exact List.mem_map_of_mem inside
      obtain ⟨other, member, equal⟩ := List.mem_map.mp lower
      have ampersand : other = 38 := (tolower_eq_iff (by decide)).mp equal
      exact plain.1 (ampersand ▸ member)
    have field : p.takeWhile (· ≠ 38) =
        p.take name.length ++ 61 :: (p.drop (name.length + 1)).takeWhile (· ≠ 38) := by
      conv_lhs => rw [split, List.takeWhile_append_of_pos through]
      rfl
    rw [valueOf, field, List.take_left' front, if_pos ⟨same, by simp [front]⟩,
      ← List.drop_drop, List.drop_left' front]
    rfl
  · rw [if_neg found, valueOf, if_neg]
    rintro ⟨same, equals⟩
    obtain ⟨rest, whole⟩ := List.takeWhile_prefix (· ≠ 38) (l := p)
    obtain ⟨inside, value⟩ := List.getElem?_eq_some_iff.mp equals
    apply found
    have front : p.take name.length = (p.takeWhile (· ≠ 38)).take name.length := by
      conv_lhs => rw [← whole]
      exact List.take_append_of_le_length (Nat.le_of_lt inside)
    have there : p[name.length]? = some 61 := by
      rw [← whole, List.getElem?_append_left inside, equals]
    obtain ⟨long, -⟩ := List.getElem?_eq_some_iff.mp there
    refine ⟨long, ?_, ?_⟩
    · rw [List.getD_eq_getElem?_getD, there]
      rfl
    · rw [mgNcasecmp_left plain.2, front, same]

/-- What `mg_get_http_var` makes of an encoded value, when its length is an `int`. -/
def varResult (dstLen : Nat) (value : Bytes) : Int × Bytes :=
  let decoded := urlDecodeLoop true (dstLen - 1) value []
  (if decoded.1 = -1 then -2 else decoded.1, decoded.2)

/-- The result of `mg_get_http_var` for the encoded value of a variable, and the text that it stored
in the buffer of the caller. -/
inductive VarRead (dstLen : Nat) : Bytes → Int × Bytes → Prop
  /-- The text fits. -/
  | whole {value text : Bytes} (decoded : percentDecode true value = some text)
      (fits : text.length < dstLen) : VarRead dstLen value (text.length, text)
  /-- The text does not fit, and is cut. -/
  | cut {value text : Bytes} (decoded : percentDecode true value = some text)
      (long : dstLen ≤ text.length) : VarRead dstLen value (-2, text.take (dstLen - 1))
  /-- A percent sign lacks its digits: the text in front of it was stored, as far as it fits. -/
  | bad {front behind text : Bytes} (decoded : percentDecode true front = some text)
      (lacks : LacksDigits behind) :
      VarRead dstLen (front ++ percent :: behind) (-2, text.take (dstLen - 1))

/-- A value is stored or refused. -/
theorem varResult_read {dstLen : Nat} (room : 0 < dstLen) (value : Bytes) :
    VarRead dstLen value (varResult dstLen value) := by
  cases decoded : percentDecode true value with
  | none =>
    obtain ⟨front, behind, text, rfl, lacks, read⟩ := percentDecode_none decoded
    rw [varResult, urlDecodeLoop_bad read lacks]
    exact .bad read lacks
  | some text =>
    rw [varResult, urlDecodeLoop_some decoded, storedText, List.length_nil, Nat.zero_add,
      List.nil_append]
    by_cases fits : text.length < dstLen
    · have inside : text.length ≤ dstLen - 1 := by omega
      simp only [if_pos inside, List.take_of_length_le inside]
      rw [if_neg (by omega)]
      exact .whole decoded fits
    · have past : ¬text.length ≤ dstLen - 1 := by omega
      simp only [if_neg past, if_true]
      exact .cut decoded (not_lt.mp fits)

/-- The first field is in front of the first ampersand. -/
theorem splitOn_takeWhile (p : Bytes) :
    p.splitOn 38 = p.takeWhile (· ≠ 38) :: (p.splitOn 38).tail := by
  induction p with
  | nil => rfl
  | cons byte p ih =>
    rw [List.splitOn_cons_eq_if_modifyHead]
    by_cases sign : byte = 38
    · simp [sign]
    · rw [if_neg (by simpa using sign), ih]
      simp [sign]

/-- The empty field has no value. -/
theorem valueOf_nil (name : Bytes) : valueOf name [] = none := by
  simp [valueOf]

/-- The loop tests the beginnings of the fields. -/
theorem httpVarLoop_eq {name p : Bytes} {dstLen : Nat} {before : Option UInt8}
    (plain : 38 ∉ name ∧ 0 ∉ name) (small : p.length ≤ intMax ∧ dstLen ≤ intMax) :
    httpVarLoop name dstLen before p =
      ((if before = none ∨ before = some 38 then p.splitOn 38 else (p.splitOn 38).tail).findSome?
        (valueOf name)).elim (-1, []) (varResult dstLen) := by
  induction p generalizing before with
  | nil =>
    have nothing : (([] : Bytes).splitOn 38).findSome? (valueOf name) = none := by
      simp [valueOf_nil]
    split_ifs
    · rw [nothing]
      rfl
    · rfl
  | cons byte p ih =>
    have later : p.length ≤ intMax ∧ dstLen ≤ intMax :=
      ⟨le_trans (Nat.le_succ _) small.1, small.2⟩
    have first := @valueOf_first name (byte :: p) plain
    by_cases found : (before = none ∨ before = some 38) ∧ name.length < (byte :: p).length ∧
        (byte :: p).getD name.length 0 = 61 ∧ mgNcasecmp name (byte :: p) name.length = 0
    · obtain ⟨begins, long, equals, same⟩ := found
      rw [if_pos ⟨long, equals, same⟩] at first
      have short : (((byte :: p).drop (name.length + 1)).takeWhile (· ≠ 38)).length ≤ intMax :=
        le_trans (le_trans (List.takeWhile_prefix _).length_le (List.drop_suffix _ _).length_le)
          small.1
      rw [httpVarLoop, if_pos long, if_pos ⟨begins, equals, same⟩, if_pos begins,
        splitOn_takeWhile, List.findSome?_cons, first]
      dsimp only
      rw [mgUrlDecode_eq ⟨short, small.2⟩]
      rfl
    · -- the place is passed over, also when there is no room for the name behind it
      have passed : httpVarLoop name dstLen before (byte :: p) =
          httpVarLoop name dstLen (some byte) p := by
        by_cases long : name.length < (byte :: p).length
        · rw [httpVarLoop, if_pos long, if_neg fun all => found ⟨all.1, long, all.2.1, all.2.2⟩]
        · rw [httpVarLoop, if_neg long]
          cases p with
          | nil => rfl
          | cons next p =>
            rw [httpVarLoop, if_neg]
            simp only [List.length_cons] at long ⊢
            omega
      have none_here : (before = none ∨ before = some 38) →
          valueOf name ((byte :: p).takeWhile (· ≠ 38)) = none := by
        intro begins
        rw [first, if_neg fun all => found ⟨begins, all⟩]
      have fields : (if before = none ∨ before = some 38 then (byte :: p).splitOn 38
          else ((byte :: p).splitOn 38).tail).findSome? (valueOf name) =
          ((byte :: p).splitOn 38).tail.findSome? (valueOf name) := by
        split_ifs with begins
        · conv_lhs => rw [splitOn_takeWhile, List.findSome?_cons, none_here begins]
        · rfl
      rw [passed, ih later, fields, List.splitOn_cons_eq_if_modifyHead]
      by_cases sign : byte = 38
      · rw [if_pos (Or.inr (congrArg some sign)), if_pos (by simpa using sign), List.tail_cons]
      · rw [if_neg (by simpa using sign), if_neg (by simpa using sign), List.tail_modifyHead]

/-- `mg_get_http_var` looks for the first field that has the name, in any case, and stores the text
of its value or refuses it. -/
theorem mgGetHttpVar_reads {buf name : Bytes} {dstLen : Nat} (plain : 38 ∉ name ∧ 0 ∉ name)
    (room : 0 < dstLen) (small : buf.length ≤ intMax ∧ dstLen ≤ intMax) :
    match (buf.splitOn 38).findSome? (valueOf name) with
    | none => mgGetHttpVar (some buf) (some name) dstLen = (-1, [])
    | some value => VarRead dstLen value (mgGetHttpVar (some buf) (some name) dstLen) := by
  rw [mgGetHttpVar, if_neg (by omega), httpVarLoop_eq plain small, if_pos (Or.inl rfl)]
  cases (buf.splitOn 38).findSome? (valueOf name) with
  | none => rfl
  | some value => exact varResult_read room value

/-- The name of a variable is found in either case. -/
theorem shouted_found :
    match ((ascii "n1=4&N2=a+b%21&n2=5").splitOn 38).findSome? (valueOf (ascii "n2")) with
    | none => mgGetHttpVar (some (ascii "n1=4&N2=a+b%21&n2=5")) (some (ascii "n2")) 100 = (-1, [])
    | some value => VarRead 100 value
        (mgGetHttpVar (some (ascii "n1=4&N2=a+b%21&n2=5")) (some (ascii "n2")) 100) :=
  @mgGetHttpVar_reads (ascii "n1=4&N2=a+b%21&n2=5") (ascii "n2") 100 (by decide) (by decide)
    (by decide +kernel)

/-! ## Forms -/

/-- The two digits of a byte. -/
theorem hexText_digits (byte : UInt8) :
    [37, hexText.getD (byte >>> 4).toNat 0, hexText.getD (byte &&& 0xf).toNat 0] =
      percentByte byte := by
  have all : ∀ n < 256, [37, hexText.getD (UInt8.ofNat n >>> 4).toNat 0,
      hexText.getD (UInt8.ofNat n &&& 0xf).toNat 0] = percentByte (UInt8.ofNat n) := by
    decide +kernel
  have this := all byte.toNat byte.toNat_lt
  rwa [UInt8.ofNat_toNat] at this

/-- There is room for the encoding of a text: in front of its last byte, `mg_url_encode` wants three
more bytes and the NUL, also for a byte that it leaves. -/
def EncodeFits (src : Bytes) (dstLen : Nat) : Prop :=
  src = [] ∨ (percentEncode dontEscape src.dropLast).length + 3 < dstLen

/-- The loop writes the whole encoding exactly when it has room. -/
theorem urlEncodeLoop_eq_iff {dstLen : Nat} {src dst : Bytes} :
    urlEncodeLoop dstLen src dst = dst ++ percentEncode dontEscape src ↔
      src = [] ∨ dst.length + (percentEncode dontEscape src.dropLast).length + 3 < dstLen := by
  induction src generalizing dst with
  | nil => simp [urlEncodeLoop, percentEncode]
  | cons byte src ih =>
    have written : urlEncodeLoop dstLen (byte :: src) dst =
        if dst.length + 2 < dstLen - 1 then
          urlEncodeLoop dstLen src (dst ++ if dontEscape byte then [byte] else percentByte byte)
        else dst := by
      rw [urlEncodeLoop, hexText_digits]
      split_ifs <;> rfl
    rw [written, percentEncode_cons, or_iff_right (List.cons_ne_nil byte src)]
    by_cases room : dst.length + 2 < dstLen - 1
    · rw [if_pos room, ← List.append_assoc, ih]
      cases src with
      | nil =>
        have less : dst.length + 3 < dstLen := by omega
        simp [percentEncode, less]
      | cons next src =>
        rw [or_iff_right (List.cons_ne_nil next src), List.dropLast_cons_cons, percentEncode_cons,
          List.length_append, List.length_append, Nat.add_assoc dst.length]
    · rw [if_neg room]
      constructor
      · intro same
        have lengths := congrArg List.length same
        have piece : 0 < (if dontEscape byte then [byte] else percentByte byte).length := by
          split_ifs <;> simp [percentByte]
        simp only [List.length_append] at lengths
        omega
      · intro fits
        omega

/-- `mg_url_encode` writes the whole encoding of a text exactly when it has room. -/
theorem mgUrlEncode_eq_iff {src : Bytes} {dstLen : Nat} :
    mgUrlEncode src dstLen = percentEncode dontEscape src ↔ EncodeFits src dstLen := by
  have whole := @urlEncodeLoop_eq_iff dstLen src []
  rwa [List.nil_append, List.length_nil, Nat.zero_add] at whole

/-- The signs that a form needs are escaped. -/
theorem dontEscape_signs : dontEscape 38 = false ∧ dontEscape 61 = false ∧
    ∀ byte, dontEscape byte = true → byte ≠ percent ∧ plainValue true byte = byte := by
  refine ⟨by decide, by decide, fun byte left => ⟨?_, ?_⟩⟩
  · rintro rfl
    exact absurd left (by decide)
  · rw [plainValue, if_neg]
    intro plus
    rw [Bool.true_and, beq_iff_eq] at plus
    rw [plus] at left
    exact absurd left (by decide)

/-- A field of a form. -/
def formField (size : Nat) (pair : Bytes × Bytes) : Bytes :=
  pair.1 ++ 61 :: mgUrlEncode pair.2 size

/-- A form: names and values that `mg_url_encode` encoded in a buffer of this size. -/
def formBody (size : Nat) (pairs : List (Bytes × Bytes)) : Bytes :=
  [38].intercalate (pairs.map (formField size))

/-- The value of a field of a form is found under its name, in any case. -/
theorem valueOf_formField {name : Bytes} {size : Nat} {pair : Bytes × Bytes} (key : 61 ∉ pair.1)
    (room : EncodeFits pair.2 size) :
    valueOf name (formField size pair) =
      if pair.1.map tolower = name.map tolower then some (percentEncode dontEscape pair.2)
      else none := by
  have encoded := mgUrlEncode_eq_iff.mpr room
  have absent : 61 ∉ percentEncode dontEscape pair.2 :=
    not_mem_percentEncode dontEscape_signs.2.1 (by decide) (by decide) pair.2
  rw [formField, encoded, valueOf]
  by_cases same : pair.1.map tolower = name.map tolower
  · have length : pair.1.length = name.length := by
      have lengths := congrArg List.length same
      rwa [List.length_map, List.length_map] at lengths
    rw [if_pos same, if_pos, ← List.drop_drop, List.drop_left' length]
    · rfl
    · rw [List.take_left' length, ← length]
      exact ⟨same.symm, by simp⟩
  · rw [if_neg same, if_neg]
    rintro ⟨equal, sign⟩
    have lengths := congrArg List.length equal
    simp only [List.length_map, List.length_take] at lengths
    rcases Nat.lt_trichotomy name.length pair.1.length with less | level | more
    · rw [List.getElem?_append_left less] at sign
      exact key (List.mem_of_getElem? sign)
    · rw [List.take_left' level.symm] at equal
      exact same equal.symm
    · rw [List.getElem?_append_right (by omega), List.getElem?_cons] at sign
      split_ifs at sign
      · omega
      · exact absent (List.mem_of_getElem? sign)

/-- The first field of a form that has the name. -/
theorem valueOf_formFields {name : Bytes} {size : Nat} {pairs : List (Bytes × Bytes)}
    (keys : ∀ pair ∈ pairs, 61 ∉ pair.1) (sizes : ∀ pair ∈ pairs, EncodeFits pair.2 size) :
    (pairs.map (formField size)).findSome? (valueOf name) =
      (pairs.find? fun pair => pair.1.map tolower = name.map tolower).map fun pair =>
        percentEncode dontEscape pair.2 := by
  induction pairs with
  | nil => rfl
  | cons pair pairs ih =>
    obtain ⟨key, others⟩ := List.forall_mem_cons.mp keys
    obtain ⟨fits, sizes⟩ := List.forall_mem_cons.mp sizes
    rw [List.map_cons, List.findSome?_cons, valueOf_formField key fits, List.find?_cons]
    by_cases same : pair.1.map tolower = name.map tolower
    · rw [if_pos same, decide_eq_true same]
      rfl
    · rw [if_neg same, decide_eq_false same]
      exact ih others sizes

/-- An encoded value is decoded into the buffer of the caller. -/
theorem varResult_encoded {dstLen : Nat} (room : 0 < dstLen) (value : Bytes) :
    varResult dstLen (percentEncode dontEscape value) =
      (if value.length < dstLen then (value.length : Int) else -2, value.take (dstLen - 1)) := by
  have decoded := percentDecode_encode dontEscape_signs.2.2 value []
  rw [List.append_nil] at decoded
  have stored : urlDecodeLoop true (dstLen - 1) (percentEncode dontEscape value) [] =
      storedText (dstLen - 1) [] value :=
    urlDecodeLoop_some (decoded.trans (by simp [percentDecode]))
  rw [varResult, stored, storedText, List.length_nil, Nat.zero_add, List.nil_append]
  dsimp only
  by_cases fits : value.length < dstLen
  · have inside : value.length ≤ dstLen - 1 := by omega
    rw [if_pos fits, if_pos inside, if_neg (by omega)]
  · have past : ¬value.length ≤ dstLen - 1 := by omega
    rw [if_neg fits, if_neg past, if_pos rfl]

/-- What a form says about a variable is read back: the value of the first field of that name, cut
and refused when the buffer of the caller is too small for it. -/
theorem mgGetHttpVar_form {name : Bytes} {dstLen size : Nat} {pairs : List (Bytes × Bytes)}
    (plain : 38 ∉ name ∧ 0 ∉ name) (room : 0 < dstLen)
    (keys : ∀ pair ∈ pairs, 38 ∉ pair.1 ∧ 61 ∉ pair.1)
    (sizes : ∀ pair ∈ pairs, EncodeFits pair.2 size)
    (small : (formBody size pairs).length ≤ intMax ∧ dstLen ≤ intMax) :
    mgGetHttpVar (some (formBody size pairs)) (some name) dstLen =
      (pairs.find? fun pair => pair.1.map tolower = name.map tolower).elim (-1, []) fun pair =>
        (if pair.2.length < dstLen then (pair.2.length : Int) else -2,
          pair.2.take (dstLen - 1)) := by
  have fields := @valueOf_formFields name size pairs (fun pair inside => (keys pair inside).2) sizes
  have body : ((formBody size pairs).splitOn 38).findSome? (valueOf name) =
      (pairs.map (formField size)).findSome? (valueOf name) := by
    by_cases empty : pairs = []
    · rw [empty]
      simp [formBody, valueOf_nil]
    · have separate : ∀ field ∈ pairs.map (formField size), 38 ∉ field := by
        intro field member
        obtain ⟨pair, inside, rfl⟩ := List.mem_map.mp member
        rw [formField, mgUrlEncode_eq_iff.mpr (sizes pair inside), List.mem_append, List.mem_cons]
        rintro (front | sign | behind)
        · exact (keys pair inside).1 front
        · exact absurd sign (by decide)
        · exact not_mem_percentEncode dontEscape_signs.1 (by decide) (by decide) pair.2 behind
      rw [formBody, List.splitOn_intercalate 38 separate (by simpa using empty)]
  rw [mgGetHttpVar, if_neg (by omega), httpVarLoop_eq plain small, if_pos (Or.inl rfl), body,
    fields]
  cases pairs.find? fun pair => pair.1.map tolower = name.map tolower with
  | none => rfl
  | some pair => exact varResult_encoded room pair.2

/-- A form with two values, one of them with signs. -/
theorem sum_read :
    mgGetHttpVar (some (formBody 100 [(ascii "n1", ascii "4&n2=x"), (ascii "n2", ascii "1 + 2")]))
        (some (ascii "N2")) 4 =
      ([(ascii "n1", ascii "4&n2=x"), (ascii "n2", ascii "1 + 2")].find? fun pair =>
        pair.1.map tolower = (ascii "N2").map tolower).elim (-1, []) fun pair =>
          (if pair.2.length < 4 then (pair.2.length : Int) else -2, pair.2.take (4 - 1)) :=
  mgGetHttpVar_form (by decide) (by decide) (by decide)
    (by
      intro pair member
      simp only [List.mem_cons, List.not_mem_nil, or_false] at member
      obtain rfl | rfl := member
      · exact .inr (by decide +kernel)
      · exact .inr (by decide +kernel))
    (by decide +kernel)

end CppCode.Mongoose
