import CppCode.Mongoose.Sha1

/-!
# The rounds of SHA-1 in place

`cs_sha1_transform` is one block of the standard. Line by line, the five names hold the five
variables of the standard, and the sixteen words are the last sixteen of the schedule, or words of
the block whose turn has not come.
-/

namespace CppCode.Mongoose

open Library

/-! ## The lines -/

/-- The name on an argument position of a line. -/
def sha1Role (place t : Nat) : Sha1Reg :=
  match (place + 4 * t) % 5 with
  | 0 => .a
  | 1 => .b
  | 2 => .c
  | 3 => .d
  | _ => .e

/-- The macro of a line. -/
def sha1Kind (t : Nat) : Sha1Macro :=
  if t < 16 then .r0 else if t < 20 then .r1 else if t < 40 then .r2 else if t < 60 then .r3
  else .r4

/-- A line with the names moved on by its index. -/
def sha1LineAt (t : Nat) : Sha1Line :=
  ⟨sha1Kind t, sha1Role 0 t, sha1Role 1 t, sha1Role 2 t, sha1Role 3 t, sha1Role 4 t, t⟩

/-- The lines follow a rule. -/
theorem sha1Lines_eq : sha1Lines = (List.range 80).map sha1LineAt := by decide

/-- On the next line the names have moved on by one place. -/
theorem sha1Role_succ (place t : Nat) : sha1Role (place + 1) (t + 1) = sha1Role place t := by
  have moved : (place + 1 + 4 * (t + 1)) % 5 = (place + 4 * t) % 5 := by omega
  rw [sha1Role, moved]
  rfl

/-- The first place has the name that was last. -/
theorem sha1Role_zero_succ (t : Nat) : sha1Role 0 (t + 1) = sha1Role 4 t := by
  have moved : (0 + 4 * (t + 1)) % 5 = (4 + 4 * t) % 5 := by omega
  rw [sha1Role, moved]
  rfl

/-- Different places have different names. -/
theorem sha1Role_ne {left right : Nat} (t : Nat) (inside : left < 5) (inside' : right < 5)
    (different : left ≠ right) : sha1Role left t ≠ sha1Role right t := by
  have apart : (left + 4 * t) % 5 ≠ (right + 4 * t) % 5 := by omega
  have low : (left + 4 * t) % 5 < 5 := Nat.mod_lt _ (by decide)
  have low' : (right + 4 * t) % 5 < 5 := Nat.mod_lt _ (by decide)
  rw [sha1Role, sha1Role]
  generalize (left + 4 * t) % 5 = l at *
  generalize (right + 4 * t) % 5 = r at *
  interval_cases l <;> interval_cases r <;> simp_all

/-! ## One line -/

/-- The variables in the places of a line. -/
def Sha1Line.read (line : Sha1Line) (regs : Sha1Reg → BitVec 32) : Sha1Words :=
  ⟨regs line.v, regs line.w, regs line.x, regs line.y, regs line.z⟩

/-- Two ways to choose between bits. -/
theorem choose_bits (w x y : BitVec 32) : w &&& (x ^^^ y) ^^^ y = w &&& x ||| ~~~w &&& y := by
  ext i inside
  simp only [BitVec.getElem_xor, BitVec.getElem_and, BitVec.getElem_or, BitVec.getElem_not]
  cases w[i] <;> cases x[i] <;> cases y[i] <;> rfl

/-- Two ways to take the majority of bits. -/
theorem majority_bits (w x y : BitVec 32) :
    (w ||| x) &&& y ||| w &&& x = w &&& x ||| w &&& y ||| x &&& y := by
  ext i inside
  simp only [BitVec.getElem_and, BitVec.getElem_or]
  cases w[i] <;> cases x[i] <;> cases y[i] <;> rfl

/-- The macro of a line computes the logical function of its round. -/
theorem sha1Kind_mix (t : Nat) (w x y : BitVec 32) :
    (sha1Kind t).mix w x y = sha1Mix t w x y := by
  rw [sha1Kind, sha1Mix]
  by_cases first : t < 16
  · rw [if_pos first, if_pos (by omega)]
    exact choose_bits w x y
  · rw [if_neg first]
    split_ifs
    · exact choose_bits w x y
    · rfl
    · exact majority_bits w x y
    · rfl

/-- The macro of a line has the constant of its round. -/
theorem sha1Kind_key (t : Nat) : (sha1Kind t).key = sha1Key t := by
  rw [sha1Kind, sha1Key]
  by_cases first : t < 16
  · rw [if_pos first, if_pos (by omega)]
    rfl
  · rw [if_neg first]
    split_ifs <;> rfl

/-- The word that a line takes from the block, and the block after it. -/
def Sha1Line.fetch (line : Sha1Line) (block : List (BitVec 32)) : BitVec 32 × List (BitVec 32) :=
  if line.kind = .r0 then blk0 block line.i else blk block line.i

/-- A line leaves its block as `fetch` does. -/
theorem exec_block (line : Sha1Line) (work : Sha1Work) :
    (line.exec work).block = (line.fetch work.block).2 := rfl

/-- A line is a round of the standard, read in the places of the next line. -/
theorem exec_read (t : Nat) (work : Sha1Work) :
    (sha1LineAt (t + 1)).read ((sha1LineAt t).exec work).regs =
      sha1Round ((sha1LineAt t).fetch work.block).1 t ((sha1LineAt t).read work.regs) := by
  have apart : ∀ {left right : Nat}, left < 5 → right < 5 → left ≠ right →
      sha1Role left t ≠ sha1Role right t := fun inside inside' => sha1Role_ne t inside inside'
  simp only [Sha1Line.read, sha1LineAt, sha1Role_zero_succ, sha1Role_succ, sha1Round]
  simp only [Sha1Line.exec, sha1Kind_mix, sha1Kind_key]
  have zw := apart (show 4 < 5 by decide) (show 1 < 5 by decide) (by decide)
  have vw := apart (show 0 < 5 by decide) (show 1 < 5 by decide) (by decide)
  have vz := apart (show 0 < 5 by decide) (show 4 < 5 by decide) (by decide)
  have wz := apart (show 1 < 5 by decide) (show 4 < 5 by decide) (by decide)
  have xw := apart (show 2 < 5 by decide) (show 1 < 5 by decide) (by decide)
  have xz := apart (show 2 < 5 by decide) (show 4 < 5 by decide) (by decide)
  have yw := apart (show 3 < 5 by decide) (show 1 < 5 by decide) (by decide)
  have yz := apart (show 3 < 5 by decide) (show 4 < 5 by decide) (by decide)
  rw [Function.update_of_ne zw, Function.update_self, Function.update_of_ne vw,
    Function.update_of_ne vz, Function.update_self, Function.update_of_ne wz,
    Function.update_of_ne xw, Function.update_of_ne xz, Function.update_of_ne yw,
    Function.update_of_ne yz]
  refine congrArg (fun first => Sha1Words.mk first _ _ _ _) ?_
  rw [Sha1Line.fetch]
  ac_rfl

/-! ## The words -/

/-- A word of four bytes, bit by bit. -/
theorem ofNat_leValue_four (b0 b1 b2 b3 : UInt8) :
    BitVec.ofNat 32 (leValue [b0, b1, b2, b3]) =
      (b3.toBitVec ++ b2.toBitVec ++ b1.toBitVec ++ b0.toBitVec : BitVec 32) := by
  have small : ∀ b : UInt8, b.toBitVec.toNat < 2 ^ 8 := fun b => b.toBitVec.isLt
  apply BitVec.eq_of_toNat_eq
  rw [BitVec.toNat_ofNat, BitVec.toNat_append, BitVec.toNat_append, BitVec.toNat_append,
    ← Nat.shiftLeft_add_eq_or_of_lt (small b2), ← Nat.shiftLeft_add_eq_or_of_lt (small b1),
    ← Nat.shiftLeft_add_eq_or_of_lt (small b0)]
  simp only [leValue, Nat.shiftLeft_eq, UInt8.toNat_toBitVec]
  have low := b0.toNat_lt
  have second := b1.toNat_lt
  have third := b2.toNat_lt
  have high := b3.toNat_lt
  omega

/-- The bits of a word of four bytes. -/
theorem getLsbD_four (b0 b1 b2 b3 : BitVec 8) (i : Nat) :
    (b3 ++ b2 ++ b1 ++ b0 : BitVec 32).getLsbD i =
      if i < 8 then b0.getLsbD i else if i < 16 then b1.getLsbD (i - 8)
      else if i < 24 then b2.getLsbD (i - 16) else b3.getLsbD (i - 24) := by
  show BitVec.getLsbD (b3 ++ b2 ++ b1 ++ b0 : BitVec (8 + 8 + 8 + 8)) i = _
  rw [BitVec.getLsbD_append, BitVec.getLsbD_append, BitVec.getLsbD_append, Nat.sub_sub, Nat.sub_sub]
  have second : (i - 8 < 8) = (i < 16) := propext (by omega)
  have third : (i - (8 + 8) < 8) = (i < 24) := propext (by omega)
  simp only [second, third, Nat.reduceAdd]

/-- The bytes of a word are swapped by two rotations. -/
theorem rol_swaps (b0 b1 b2 b3 : BitVec 8) :
    rol (b3 ++ b2 ++ b1 ++ b0 : BitVec 32) 24 &&& 0xff00ff00 |||
      rol (b3 ++ b2 ++ b1 ++ b0 : BitVec 32) 8 &&& 0x00ff00ff =
        (b0 ++ b1 ++ b2 ++ b3 : BitVec 32) := by
  apply BitVec.eq_of_getLsbD_eq
  intro i inside
  simp only [rol, BitVec.getLsbD_or, BitVec.getLsbD_and, BitVec.getLsbD_shiftLeft,
    BitVec.getLsbD_ushiftRight, getLsbD_four]
  interval_cases i <;> simp

/-- `blk0` reads a word of the block most significant byte first. -/
theorem blk0_word (buffer : Bytes) {t : Nat} (whole : buffer.length = 64) (inside : t < 16) :
    rol ((memoryWords buffer).getD t 0) 24 &&& 0xff00ff00 |||
      rol ((memoryWords buffer).getD t 0) 8 &&& 0x00ff00ff = blockWord buffer t := by
  have word : (memoryWords buffer).getD t 0 =
      BitVec.ofNat 32 (leValue ((buffer.drop (4 * t)).take 4)) := by
    simp [memoryWords, inside]
  have four : ((buffer.drop (4 * t)).take 4).length = 4 := by
    rw [List.length_take, List.length_drop]
    omega
  obtain ⟨b0, b1, b2, b3, bytes⟩ := List.length_eq_four.mp four
  rw [word, blockWord, bytes, beValue]
  show _ = BitVec.ofNat 32 (leValue [b3, b2, b1, b0])
  rw [ofNat_leValue_four, ofNat_leValue_four]
  exact rol_swaps _ _ _ _

/-- The sixteen words before a line: the last ones of the schedule, or words of the block. -/
structure Ring (buffer : Bytes) (t : Nat) (block : List (BitVec 32)) : Prop where
  /-- There are sixteen words. -/
  length : block.length = 16
  /-- Words whose turn has not come. -/
  later : ∀ s, t ≤ s → s < 16 → block.getD s 0 = (memoryWords buffer).getD s 0
  /-- Words of the schedule. -/
  earlier : ∀ s, s < t → t ≤ s + 16 → block.getD (s % 16) 0 = (sha1Schedule buffer).getD s 0

/-- The words of a block are a ring before the first line. -/
theorem ring_start (buffer : Bytes) : Ring buffer 0 (memoryWords buffer) where
  length := by simp [memoryWords]
  later _ _ _ := rfl
  earlier s before := absurd before (Nat.not_lt_zero s)

/-- A ring stays one when the word of the line is put in its place. -/
theorem Ring.set {buffer : Bytes} {t : Nat} {block : List (BitVec 32)}
    (ring : Ring buffer t block) :
    Ring buffer (t + 1) (block.set (t % 16) ((sha1Schedule buffer).getD t 0)) where
  length := by rw [List.length_set, ring.length]
  later s after inside := by
    have other : t % 16 ≠ s := by omega
    rw [List.getD_eq_getElem?_getD, List.getElem?_set_ne other, ← List.getD_eq_getElem?_getD]
    exact ring.later s (by omega) inside
  earlier s before near := by
    by_cases here : s = t
    · subst here
      rw [List.getD_eq_getElem?_getD, List.getElem?_set_self (by rw [ring.length]; omega),
        Option.getD_some]
    · have other : t % 16 ≠ s % 16 := by omega
      rw [List.getD_eq_getElem?_getD, List.getElem?_set_ne other, ← List.getD_eq_getElem?_getD]
      exact ring.earlier s (by omega) (by omega)

/-- A line of the first macro swaps the bytes of its word. -/
theorem fetch_first {t : Nat} (first : t < 16) (block : List (BitVec 32)) :
    (sha1LineAt t).fetch block = blk0 block t := by
  have kind : sha1Kind t = .r0 := if_pos first
  rw [Sha1Line.fetch, sha1LineAt, if_pos kind]

/-- The other lines compute the next word of the schedule. -/
theorem fetch_later {t : Nat} (later : ¬t < 16) (block : List (BitVec 32)) :
    (sha1LineAt t).fetch block = blk block t := by
  have kind : sha1Kind t ≠ .r0 := by
    rw [sha1Kind, if_neg later]
    split_ifs <;> decide
  rw [Sha1Line.fetch, sha1LineAt, if_neg kind]

/-- A line takes its word of the schedule and puts it in its place. -/
theorem Ring.fetch {buffer : Bytes} {t : Nat} {block : List (BitVec 32)}
    (whole : buffer.length = 64) (inside : t < 80) (ring : Ring buffer t block) :
    (sha1LineAt t).fetch block =
      ((sha1Schedule buffer).getD t 0,
        block.set (t % 16) ((sha1Schedule buffer).getD t 0)) := by
  by_cases first : t < 16
  · have word : rol (block.getD t 0) 24 &&& 0xff00ff00 ||| rol (block.getD t 0) 8 &&& 0x00ff00ff =
        (sha1Schedule buffer).getD t 0 := by
      rw [ring.later t (Nat.le_refl t) first, blk0_word buffer whole first,
        sha1Schedule_first buffer first]
    rw [fetch_first first, blk0, word, Nat.mod_eq_of_lt first]
  · have back : ∀ steps place, 0 < steps → steps ≤ 16 → place = (t - steps) % 16 →
        block.getD place 0 = (sha1Schedule buffer).getD (t - steps) 0 := by
      intro steps place positive near same
      rw [same]
      exact ring.earlier (t - steps) (by omega) (by omega)
    rw [fetch_later first, blk, back 3 _ (by decide) (by decide) (by omega),
      back 8 _ (by decide) (by decide) (by omega), back 14 _ (by decide) (by decide) (by omega),
      back 16 _ (by decide) (by decide) (by omega), ← sha1Schedule_later buffer (by omega) inside]

/-! ## The block -/

/-- The variables and the words before a line. -/
def workBefore (state : Sha1Words) (buffer : Bytes) (t : Nat) : Sha1Work :=
  ((List.range t).map sha1LineAt).foldl (fun work line => line.exec work)
    ⟨startRegs state, memoryWords buffer⟩

/-- One more line. -/
theorem workBefore_succ (state : Sha1Words) (buffer : Bytes) (t : Nat) :
    workBefore state buffer (t + 1) = (sha1LineAt t).exec (workBefore state buffer t) := by
  rw [workBefore, List.range_succ, List.map_append, List.foldl_append]
  rfl

/-- Before a line, its places hold the variables of the standard and the words are a ring. -/
theorem rounds_run (state : Sha1Words) {buffer : Bytes} (whole : buffer.length = 64) {t : Nat}
    (inside : t ≤ 80) :
    (sha1LineAt t).read (workBefore state buffer t).regs =
        sha1Rounds (sha1Schedule buffer) t state ∧
      Ring buffer t (workBefore state buffer t).block := by
  induction t with
  | zero => exact ⟨rfl, ring_start buffer⟩
  | succ t ih =>
    obtain ⟨same, ring⟩ := ih (by omega)
    have fetched := ring.fetch whole (by omega)
    rw [workBefore_succ, exec_read, exec_block, fetched, same, sha1Rounds_succ]
    refine ⟨?_, ring.set⟩
    dsimp only

/-- `cs_sha1_transform` mixes a block into the hash value as the standard does. -/
theorem csSha1Transform_eq (state : Sha1Words) {buffer : Bytes} (whole : buffer.length = 64) :
    csSha1Transform state buffer = sha1Compress state buffer := by
  have run := (rounds_run state whole (Nat.le_refl 80)).1
  have last : sha1LineAt 80 = ⟨.r4, .a, .b, .c, .d, .e, 80⟩ := rfl
  rw [workBefore, ← sha1Lines_eq, last] at run
  rw [csSha1Transform, sha1Compress, ← run]
  rfl

end CppCode.Mongoose
