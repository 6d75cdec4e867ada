import CppCode.Library.HttpFraming

/-!
# Base64

Three bytes as four digits of six bits. A last group of one or two bytes is filled up with zero
bits, and with padding to four characters.
-/

namespace CppCode.Library

/-- The digits. -/
def base64Alphabet : List UInt8 :=
  ascii "ABCDEFGHIJKLMNOPQRSTUVWXYZabcdefghijklmnopqrstuvwxyz0123456789+/"

/-- The digit of a value below 64. -/
def base64Digit (value : Nat) : UInt8 := base64Alphabet.getD value 0

/-- The four digits of three bytes. -/
def base64Group (a b c : UInt8) : List UInt8 :=
  let bits := a.toNat * 65536 + b.toNat * 256 + c.toNat
  [base64Digit (bits / 262144), base64Digit (bits / 4096 % 64), base64Digit (bits / 64 % 64),
    base64Digit (bits % 64)]

/-- The encoding of bytes. -/
def base64 : List UInt8 → List UInt8
  | [] => []
  | [a] => (base64Group a 0 0).take 2 ++ ascii "=="
  | [a, b] => (base64Group a b 0).take 3 ++ ascii "="
  | a :: b :: c :: rest => base64Group a b c ++ base64 rest

/-- Whole groups are encoded on their own. -/
theorem base64_append {whole : List UInt8} (three : whole.length % 3 = 0) (rest : List UInt8) :
    base64 (whole ++ rest) = base64 whole ++ base64 rest := by
  induction whole using base64.induct with
  | case1 => rfl
  | case2 a => simp at three
  | case3 a b => simp at three
  | case4 a b c others ih =>
    have less : others.length % 3 = 0 := by
      simp only [List.length_cons] at three
      omega
    show base64Group a b c ++ base64 (others ++ rest) = _
    rw [ih less, ← List.append_assoc]
    rfl

/-- Each group has four characters. -/
theorem length_base64 (bytes : List UInt8) :
    (base64 bytes).length = 4 * ((bytes.length + 2) / 3) := by
  induction bytes using base64.induct with
  | case1 => rfl
  | case2 a => simp [base64, base64Group, ascii]
  | case3 a b => simp [base64, base64Group, ascii]
  | case4 a b c rest ih =>
    have more : (a :: b :: c :: rest).length = rest.length + 3 := rfl
    rw [base64, List.length_append, ih, more]
    show 4 + _ = _
    omega

end CppCode.Library
