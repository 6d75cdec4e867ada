import CppCode.Library.BlockHash

/-!
# SHA-1

The Secure Hash Standard's SHA-1, in its own terms: the message schedule of a block as eighty words
in a row, one round for each of them on five variables, and the padding of a `BlockHash`.
-/

namespace CppCode.Library

/-- Rotation of a word to the left. -/
def rol (word : BitVec 32) (count : Nat) : BitVec 32 := word <<< count ||| word >>> (32 - count)

/-- The five variables of a hash value. -/
structure Sha1Words where
  /-- First word. -/
  a : BitVec 32
  /-- Second word. -/
  b : BitVec 32
  /-- Third word. -/
  c : BitVec 32
  /-- Fourth word. -/
  d : BitVec 32
  /-- Fifth word. -/
  e : BitVec 32
  deriving DecidableEq, Repr

/-- The word at an index of a block. -/
def blockWord (block : List UInt8) (index : Nat) : BitVec 32 :=
  BitVec.ofNat 32 (beValue ((block.drop (4 * index)).take 4))

/-- The next word of a schedule. -/
def sha1Next (words : List (BitVec 32)) : BitVec 32 :=
  rol (words.getD (words.length - 3) 0 ^^^ words.getD (words.length - 8) 0 ^^^
    words.getD (words.length - 14) 0 ^^^ words.getD (words.length - 16) 0) 1

/-- Extend a schedule by some words. -/
def sha1Extend : Nat → List (BitVec 32) → List (BitVec 32)
  | 0, words => words
  | count + 1, words => sha1Extend count (words ++ [sha1Next words])

/-- The message schedule of a block. -/
def sha1Schedule (block : List UInt8) : List (BitVec 32) :=
  sha1Extend 64 ((List.range 16).map (blockWord block))

/-- The logical function of a round. -/
def sha1Mix (t : Nat) (b c d : BitVec 32) : BitVec 32 :=
  if t < 20 then b &&& c ||| ~~~b &&& d
  else if t < 40 then b ^^^ c ^^^ d
  else if t < 60 then b &&& c ||| b &&& d ||| c &&& d
  else b ^^^ c ^^^ d

/-- The constant of a round. -/
def sha1Key (t : Nat) : BitVec 32 :=
  if t < 20 then 0x5a827999 else if t < 40 then 0x6ed9eba1 else if t < 60 then 0x8f1bbcdc
  else 0xca62c1d6

/-- One round with its word of the schedule. -/
def sha1Round (word : BitVec 32) (t : Nat) (v : Sha1Words) : Sha1Words :=
  ⟨rol v.a 5 + sha1Mix t v.b v.c v.d + v.e + sha1Key t + word, v.a, rol v.b 30, v.c, v.d⟩

/-- The first rounds of a block. -/
def sha1Rounds (words : List (BitVec 32)) (count : Nat) (v : Sha1Words) : Sha1Words :=
  (List.range count).foldl (fun v t => sha1Round (words.getD t 0) t v) v

/-- Mix a block into a hash value. -/
def sha1Compress (h : Sha1Words) (block : List UInt8) : Sha1Words :=
  let v := sha1Rounds (sha1Schedule block) 80 h
  ⟨h.a + v.a, h.b + v.b, h.c + v.c, h.d + v.d, h.e + v.e⟩

/-- SHA-1 on the blocks of a message. -/
def sha1Hash : BlockHash Sha1Words where
  size := 64
  compress := sha1Compress
  start := ⟨0x67452301, 0xefcdab89, 0x98badcfe, 0x10325476, 0xc3d2e1f0⟩
  length := beBytes 8
  room := by decide
  eight := length_beBytes 8

/-- The bytes of a hash value. -/
def Sha1Words.bytes (h : Sha1Words) : List UInt8 :=
  [h.a, h.b, h.c, h.d, h.e].flatMap fun word => beBytes 4 word.toNat

/-- The digest of a message. -/
def sha1 (message : List UInt8) : List UInt8 := (sha1Hash.digest message).bytes

/-- A keyed digest: the message is hashed behind the key, and the digest once more. -/
def hmac (hash : List UInt8 → List UInt8) (size : Nat) (key message : List UInt8) : List UInt8 :=
  let key := if size < key.length then hash key else key
  let key := key ++ List.replicate (size - key.length) 0
  hash (key.map (· ^^^ 0x5c) ++ hash (key.map (· ^^^ 0x36) ++ message))

/-! ## The schedule -/

/-- A schedule is extended behind its words. -/
theorem sha1Extend_begins (count : Nat) (words : List (BitVec 32)) :
    words <+: sha1Extend count words ∧ (sha1Extend count words).length = words.length + count := by
  induction count generalizing words with
  | zero => exact ⟨List.prefix_rfl, rfl⟩
  | succ count ih =>
    obtain ⟨longer, length⟩ := ih (words ++ [sha1Next words])
    refine ⟨(List.prefix_append words _).trans longer, ?_⟩
    rw [sha1Extend, length, List.length_append, List.length_singleton]
    omega

/-- Words of a prefix are words of the list. -/
theorem getD_of_begins {left right : List (BitVec 32)} (begins : left <+: right) {t : Nat}
    (inside : t < left.length) : right.getD t 0 = left.getD t 0 := by
  obtain ⟨rest, rfl⟩ := begins
  rw [List.getD_eq_getElem?_getD, List.getElem?_append_left inside, ← List.getD_eq_getElem?_getD]

/-- Each later word of a schedule is made of four earlier ones. -/
theorem sha1Extend_getD {count t : Nat} {words : List (BitVec 32)} (sixteen : 16 ≤ words.length)
    (later : words.length ≤ t) (inside : t < words.length + count) :
    (sha1Extend count words).getD t 0 =
      rol ((sha1Extend count words).getD (t - 3) 0 ^^^ (sha1Extend count words).getD (t - 8) 0 ^^^
        (sha1Extend count words).getD (t - 14) 0 ^^^
        (sha1Extend count words).getD (t - 16) 0) 1 := by
  induction count generalizing words with
  | zero => omega
  | succ count ih =>
    rw [sha1Extend]
    have length : (words ++ [sha1Next words]).length = words.length + 1 := by simp
    by_cases here : t = words.length
    · subst here
      have begins := (sha1Extend_begins count (words ++ [sha1Next words])).1
      have earlier : ∀ back, 0 < back → back ≤ 16 →
          (sha1Extend count (words ++ [sha1Next words])).getD (words.length - back) 0 =
            words.getD (words.length - back) 0 := by
        intro back positive small
        rw [getD_of_begins begins (by omega)]
        exact getD_of_begins (List.prefix_append words _) (by omega)
      rw [earlier 3 (by decide) (by decide), earlier 8 (by decide) (by decide),
        earlier 14 (by decide) (by decide), earlier 16 (by decide) (by decide),
        getD_of_begins begins (by omega)]
      simp [sha1Next]
    · exact ih (by omega) (by omega) (by omega)

/-- The first sixteen words of a schedule are those of the block. -/
theorem sha1Schedule_first (block : List UInt8) {t : Nat} (first : t < 16) :
    (sha1Schedule block).getD t 0 = blockWord block t := by
  have begins := (sha1Extend_begins 64 ((List.range 16).map (blockWord block))).1
  rw [sha1Schedule, getD_of_begins begins (by simpa using first)]
  simp [first]

/-- The other words are made of earlier ones. -/
theorem sha1Schedule_later (block : List UInt8) {t : Nat} (later : 16 ≤ t) (inside : t < 80) :
    (sha1Schedule block).getD t 0 =
      rol ((sha1Schedule block).getD (t - 3) 0 ^^^ (sha1Schedule block).getD (t - 8) 0 ^^^
        (sha1Schedule block).getD (t - 14) 0 ^^^ (sha1Schedule block).getD (t - 16) 0) 1 :=
  sha1Extend_getD (by simp) (by simpa using later) (by simpa using inside)

/-- One more round. -/
theorem sha1Rounds_succ (words : List (BitVec 32)) (count : Nat) (v : Sha1Words) :
    sha1Rounds words (count + 1) v =
      sha1Round (words.getD count 0) count (sha1Rounds words count v) := by
  rw [sha1Rounds, List.range_succ, List.foldl_append]
  rfl

end CppCode.Library
