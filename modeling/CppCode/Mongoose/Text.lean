import Mathlib.Data.List.TakeWhile
import CppCode.Library.HttpFraming

/-!
# Bytes, machine integers and the C string helpers

Buffers are lists of bytes and pointers into them are offsets. `size_t` arithmetic is taken
modulo the width of the platform and conversions to `int` are explicit, because both are
narrower than the quantities that the HTTP code keeps in them. The helpers below are those of
`common/mg_str.c`, `common/str_util.c` and `mongoose/src/util.c` that the HTTP code calls,
and `_atoi64`, which is what `to64` is on Windows.
-/

namespace CppCode.Mongoose

open Library

/-- A byte string. -/
abbrev Bytes := List UInt8

/-- The target: the width of `size_t`, the most bytes that one heap buffer can hold, which is less
than the address space, and the build. What stands in the memory behind a receive buffer is not
known, and any answer of `strayChunk` is possible. -/
structure Platform where
  /-- Width of `size_t` in bits. -/
  bits : Nat
  /-- Largest buffer that `realloc` returns. -/
  heap : Nat
  /-- `NDEBUG` is defined, as in the Release builds, and `assert` does nothing. -/
  ndebug : Bool
  /-- Whether a chunk stands in the memory behind a receive buffer with these bytes, at the end of
  the body of this length, when so many messages were delivered. -/
  strayChunk : Bytes → Nat → Nat → Bool
  /-- Pointers are at least as wide as `int`. -/
  wide : 32 ≤ bits
  /-- A buffer never fills the address space. -/
  fits : heap + 1 < 2 ^ bits

/-- A Release build for a 64-bit target with a heap of a tebibyte. -/
def amd64 : Platform := ⟨64, 2 ^ 40, true, fun _ _ _ => false, by decide, by decide⟩

/-- `INT_MAX` for the 32-bit `int` of every target. -/
def intMax : Nat := 2 ^ 31 - 1

/-- Conversion of a `size_t` value to `int`. -/
def toInt (value : Nat) : Int := Int.bmod value (2 ^ 32)

/-- Values up to `INT_MAX` convert to themselves. -/
theorem toInt_of_le {value : Nat} (small : value ≤ intMax) : toInt value = value := by
  unfold intMax at small
  unfold toInt
  rw [Int.bmod_def]
  split <;> omega

/-- Values in the upper half of the 32-bit range convert to negative numbers. -/
theorem toInt_neg {value : Nat} (large : intMax < value) (below : value < 2 ^ 32) :
    toInt value < 0 := by
  unfold intMax at large
  unfold toInt
  rw [Int.bmod_def]
  split <;> omega

/-- Conversion of a signed number to `size_t`. -/
def Platform.toSize (platform : Platform) (value : Int) : Nat :=
  (value % (2 ^ platform.bits : Nat)).toNat

/-- Addition in `size_t`. -/
def Platform.add (platform : Platform) (left right : Nat) : Nat :=
  (left + right) % 2 ^ platform.bits

/-- `(size_t) ~0`. -/
def Platform.maxSize (platform : Platform) : Nat := 2 ^ platform.bits - 1

/-- Converted values are in the range of `size_t`. -/
theorem Platform.toSize_lt (platform : Platform) (value : Int) :
    platform.toSize value < 2 ^ platform.bits := by
  have positive : 0 < ((2 ^ platform.bits : Nat) : Int) := by
    exact_mod_cast Nat.two_pow_pos platform.bits
  have below := Int.emod_lt_of_pos value positive
  have nonnegative := Int.emod_nonneg value (ne_of_gt positive)
  unfold Platform.toSize
  omega

/-- Non-negative numbers in range convert to themselves. -/
theorem Platform.toSize_of_lt (platform : Platform) {value : Nat}
    (below : value < 2 ^ platform.bits) : platform.toSize value = value := by
  have small : ((value : Int) % (2 ^ platform.bits : Nat)) = value :=
    Int.emod_eq_of_lt (by omega) (by exact_mod_cast below)
  simp only [Platform.toSize, small, Int.toNat_natCast]

/-- `isprint` of the C locale. -/
def isprint (byte : UInt8) : Bool := 32 ≤ byte && byte ≤ 126
/-- `isspace` of the C locale. -/
def isspace (byte : UInt8) : Bool := byte == 32 || (9 ≤ byte && byte ≤ 13)
/-- `isxdigit` of the C locale. -/
def isxdigit (byte : UInt8) : Bool :=
  isDigit byte || (65 ≤ byte && byte ≤ 70) || (97 ≤ byte && byte ≤ 102)
/-- `tolower` of the C locale. -/
def tolower (byte : UInt8) : UInt8 := if 65 ≤ byte && byte ≤ 90 then byte + 32 else byte

/-- Every decimal digit is printable. -/
theorem isprint_of_isDigit {byte : UInt8} (digit : isDigit byte = true) :
    isprint byte = true := by
  simp only [isDigit, isprint, Bool.and_eq_true, decide_eq_true_eq, UInt8.le_iff_toNat_le] at *
  simp only [UInt8.reduceToNat] at *
  omega

/-- `struct mg_str`: a pointer into a buffer, as an offset, and a length. -/
structure MgStr where
  /-- `NULL`, or the offset of the first byte. -/
  p : Option Nat := none
  /-- Length in bytes. -/
  len : Nat := 0
  deriving DecidableEq, Repr

/-- The bytes of a buffer that a string refers to. -/
def MgStr.slice (buf : Bytes) (str : MgStr) : Bytes :=
  match str.p with
  | none => []
  | some offset => (buf.drop offset).take str.len

/-- First offset from `s` up to `limit` whose byte satisfies the predicate, `limit` if none. -/
def scanTo (buf : Bytes) (stop : UInt8 → Bool) (s limit : Nat) : Nat :=
  s + (((buf.take limit).drop s).takeWhile fun byte => !stop byte).length

/-- `strchr(delims, byte) != NULL`, which the terminating NUL satisfies as well. -/
def isDelim (delims : Bytes) (byte : UInt8) : Bool := delims.contains byte || byte == 0

/-- `mg_skip`: the string from `s` up to the first delimiter, and the offset after the run of
delimiters that follows it. -/
def mgSkip (buf : Bytes) (s limit : Nat) (delims : Bytes) : MgStr × Nat :=
  let stop := scanTo buf (isDelim delims) s limit
  (⟨some s, stop - s⟩, scanTo buf (fun byte => !isDelim delims byte) stop limit)

/-- `mg_ncasecmp`, on the bytes that the two pointers point to. -/
def mgNcasecmp : Bytes → Bytes → Nat → Int
  | _, _, 0 => 0
  | left, right, count + 1 =>
    let diff := ((tolower (left.headD 0)).toNat : Int) - (tolower (right.headD 0)).toNat
    if diff = 0 ∧ left.headD 0 ≠ 0 then mgNcasecmp left.tail right.tail count else diff

/-- `mg_vcasecmp` against a literal. -/
def mgVcasecmp (buf : Bytes) (str : MgStr) (text : Bytes) : Int :=
  let order := mgNcasecmp (buf.drop (str.p.getD 0)) text (min str.len text.length)
  if order = 0 then (str.len : Int) - text.length else order

/-- The leading sign and digits of a numeral, after white space. -/
def readSigned (text : Bytes) : Int :=
  match text.dropWhile isspace with
  | [] => 0
  | head :: rest =>
    if head = 45 then -(digitsValue (rest.takeWhile isDigit) : Int)
    else if head = 43 then digitsValue (rest.takeWhile isDigit)
    else digitsValue ((head :: rest).takeWhile isDigit)

/-- A number moved to the nearest end of a signed word when it is outside of it. -/
def saturate (bits : Nat) (value : Int) : Int :=
  max (-(2 ^ (bits - 1) : Nat)) (min ((2 ^ (bits - 1) : Nat) - 1) value)

/-- `to64`, which is `_atoi64`: out-of-range numbers become the nearest 64-bit one. -/
def to64 (text : Bytes) : Int := saturate 64 (readSigned text)

/-- `atoi`, with the same saturation at 32 bits. -/
def atoi (text : Bytes) : Int := saturate 32 (readSigned text)

end CppCode.Mongoose
