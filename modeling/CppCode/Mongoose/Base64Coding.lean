import CppCode.Mongoose.Base64

/-!
# Base64 in parts and back

The encoder in parts emits the encoding of all bytes that it was given, however they are split, and
the encoder of a buffer writes the same. The decoder reads it back, whatever stands in the memory
behind it, if that cannot be taken for more digits.
-/

namespace CppCode.Mongoose

open Library

/-! ## Digits -/

/-- The emitted character is the digit. -/
theorem emitCode_out (ctx : Base64Ctx) {v : Nat} (six : v < 64) :
    csBase64EmitCode ctx v = { ctx with out := ctx.out ++ [base64Digit v] } := by
  have digits : ∀ v < 64, UInt8.ofNat (if v < 26 then v + 65
      else if v < 52 then v - 26 + 97
      else if v < 62 then v - 52 + 48
      else if v - 52 - 10 = 0 then 43 else 47) = base64Digit v := by decide +kernel
  rw [csBase64EmitCode, digits v six]

/-- The values of the four digits, as the code computes them. -/
theorem group_values (a b c : UInt8) :
    let bits := a.toNat * 65536 + b.toNat * 256 + c.toNat
    a.toNat >>> 2 = bits / 262144 ∧
      ((a.toNat &&& 3) <<< 4 ||| b.toNat >>> 4) = bits / 4096 % 64 ∧
      ((b.toNat &&& 15) <<< 2 ||| c.toNat >>> 6) = bits / 64 % 64 ∧
      (c.toNat &&& 63) = bits % 64 := by
  have smallA := a.toNat_lt
  have smallB := b.toNat_lt
  have smallC := c.toNat_lt
  have three : a.toNat &&& 3 = a.toNat % 4 := Nat.and_two_pow_sub_one_eq_mod _ 2
  have fifteen : b.toNat &&& 15 = b.toNat % 16 := Nat.and_two_pow_sub_one_eq_mod _ 4
  have last : c.toNat &&& 63 = c.toNat % 64 := Nat.and_two_pow_sub_one_eq_mod _ 6
  have first : b.toNat >>> 4 = b.toNat / 16 := Nat.shiftRight_eq_div_pow _ 4
  have second : c.toNat >>> 6 = c.toNat / 64 := Nat.shiftRight_eq_div_pow _ 6
  have whole : a.toNat >>> 2 = a.toNat / 4 := Nat.shiftRight_eq_div_pow _ 2
  have low : b.toNat / 16 < 2 ^ 4 := by omega
  have low' : c.toNat / 64 < 2 ^ 2 := by omega
  dsimp only
  rw [whole, three, fifteen, last, first, second, ← Nat.shiftLeft_add_eq_or_of_lt low,
    ← Nat.shiftLeft_add_eq_or_of_lt low', Nat.shiftLeft_eq, Nat.shiftLeft_eq]
  omega

/-- The digits of a group that has some of its bytes. -/
theorem emitChunk_out (a b c : UInt8) (out : Bytes) {size : Nat} (present : 0 < size)
    (few : size ≤ 3) :
    csBase64EmitChunk ⟨[a, b, c], size, out⟩ =
      ⟨[a, b, c], size, out ++ (base64Group a b c).take (size + 1)⟩ := by
  obtain ⟨first, second, third, fourth⟩ := group_values a b c
  have smallA := a.toNat_lt
  have high : (a.toNat * 65536 + b.toNat * 256 + c.toNat) / 262144 < 64 := by
    have smallB := b.toNat_lt
    have smallC := c.toNat_lt
    omega
  have code : ∀ ctx (bits : Nat), csBase64EmitCode ctx (bits % 64) =
      { ctx with out := ctx.out ++ [base64Digit (bits % 64)] } :=
    fun ctx bits => emitCode_out ctx (Nat.mod_lt _ (by decide))
  simp only [csBase64EmitChunk, List.getD_cons_zero, List.getD_cons_succ, first, second, third,
    fourth, code, emitCode_out _ high]
  interval_cases size <;> simp [base64Group]

/-! ## Parts -/

/-- A context represents the bytes that it was given: the digits of the whole groups are emitted,
and the other bytes wait at the front of the chunk. -/
def Base64Ctx.Represents (ctx : Base64Ctx) (start bytes : Bytes) : Prop :=
  ∃ whole rest spare : Bytes, bytes = whole ++ rest ∧ whole.length % 3 = 0 ∧ rest.length < 3 ∧
    (rest ++ spare).length = 3 ∧ ctx = ⟨rest ++ spare, rest.length, start ++ base64 whole⟩

/-- An initial context represents no bytes. -/
theorem init_represents {garbage : Bytes} (three : garbage.length = 3) (out : Bytes) :
    (csBase64Init garbage out).Represents out [] :=
  ⟨[], [], garbage, rfl, rfl, by decide, three, by simp [csBase64Init, base64]⟩

/-- A byte completes a group or waits. -/
theorem byte_represents {ctx : Base64Ctx} {start bytes : Bytes}
    (represents : ctx.Represents start bytes) (byte : UInt8) :
    (csBase64Byte ctx byte).Represents start (bytes ++ [byte]) := by
  obtain ⟨whole, rest, spare, rfl, groups, few, three, rfl⟩ := represents
  have present : 0 < spare.length := by
    rw [List.length_append] at three
    omega
  obtain ⟨old, spare, rfl⟩ := List.exists_cons_of_length_pos present
  have chunk : (rest ++ old :: spare).set rest.length byte = rest ++ [byte] ++ spare := by
    rw [List.set_append_right _ _ (Nat.le_refl _), Nat.sub_self, List.append_assoc]
    rfl
  have longer : (rest ++ [byte]).length = rest.length + 1 := List.length_append
  have size : (rest ++ [byte] ++ spare).length = 3 := by
    rw [← chunk, List.length_set, three]
  rw [csBase64Byte, chunk, List.append_assoc whole]
  dsimp only
  by_cases full : rest.length + 1 = 3
  · have none : spare = [] := by
      rw [List.length_append] at size
      exact List.length_eq_zero_iff.mp (by omega)
    rw [none, List.append_nil, longer] at size
    obtain ⟨a, b, c, group⟩ := List.length_eq_three.mp (longer.trans full)
    rw [if_pos full, none, List.append_nil, full, group,
      emitChunk_out a b c _ (by decide) (by decide)]
    refine ⟨whole ++ [a, b, c], [], [a, b, c], by rw [List.append_nil], ?_, by decide, rfl, ?_⟩
    · rw [List.length_append]
      show (whole.length + 3) % 3 = 0
      omega
    · rw [base64_append groups, ← List.append_assoc]
      rfl
  · rw [if_neg full]
    exact ⟨whole, rest ++ [byte], spare, rfl, groups, by omega, size, by rw [longer]⟩

/-- `cs_base64_update` keeps what a context represents, with the bytes that it adds. -/
theorem base64Update_represents {ctx : Base64Ctx} {start bytes : Bytes}
    (represents : ctx.Represents start bytes) (str : Bytes) :
    (csBase64Update ctx str).Represents start (bytes ++ str) := by
  induction str generalizing ctx bytes with
  | nil =>
    rw [List.append_nil]
    exact represents
  | cons byte rest ih =>
    have others := ih (byte_represents represents byte)
    rw [List.append_assoc] at others
    exact others

/-- `cs_base64_finish` completes the encoding. -/
theorem base64Finish_out {ctx : Base64Ctx} {start bytes : Bytes}
    (represents : ctx.Represents start bytes) :
    (csBase64Finish ctx).out = start ++ base64 bytes := by
  obtain ⟨whole, rest, spare, rfl, groups, few, three, rfl⟩ := represents
  rw [base64_append groups, ← List.append_assoc]
  obtain rest | ⟨a, _ | ⟨b, _ | ⟨c, rest⟩⟩⟩ := rest
  · exact (List.append_nil _).symm
  · have behind : ([a] ++ spare).drop 3 = [] := List.drop_eq_nil_of_le (Nat.le_of_eq three)
    have chunk : store ([a] ++ spare) 1 (List.replicate 2 0) = [a, 0, 0] := by
      show ([a] ++ spare).take 1 ++ [0, 0] ++ ([a] ++ spare).drop 3 = _
      rw [behind]
      rfl
    show (csBase64EmitChunk ⟨store ([a] ++ spare) 1 (List.replicate 2 0), 1, _⟩).out ++ [61, 61] = _
    rw [chunk, emitChunk_out a 0 0 _ (by decide) (by decide), List.append_assoc]
    rfl
  · have behind : ([a, b] ++ spare).drop 3 = [] := List.drop_eq_nil_of_le (Nat.le_of_eq three)
    have chunk : store ([a, b] ++ spare) 2 (List.replicate 1 0) = [a, b, 0] := by
      show ([a, b] ++ spare).take 2 ++ [0] ++ ([a, b] ++ spare).drop 3 = _
      rw [behind]
      rfl
    show (csBase64EmitChunk ⟨store ([a, b] ++ spare) 2 (List.replicate 1 0), 2, _⟩).out ++ [61] = _
    rw [chunk, emitChunk_out a b 0 _ (by decide) (by decide), List.append_assoc]
    rfl
  · simp at few
    omega

/-- Parts are encoded one after the other. -/
theorem base64Updates_represent {ctx : Base64Ctx} {start bytes : Bytes}
    (represents : ctx.Represents start bytes) (parts : List Bytes) :
    (parts.foldl csBase64Update ctx).Represents start (bytes ++ parts.flatten) := by
  induction parts generalizing ctx bytes with
  | nil =>
    rw [List.flatten_nil, List.append_nil]
    exact represents
  | cons part rest ih =>
    have others := ih (base64Update_represents represents part)
    rw [List.append_assoc] at others
    exact others

/-- Bytes given in parts are encoded as one. -/
theorem base64_parts {garbage : Bytes} (three : garbage.length = 3) (out : Bytes)
    (parts : List Bytes) :
    (csBase64Finish (parts.foldl csBase64Update (csBase64Init garbage out))).out =
      out ++ base64 parts.flatten :=
  base64Finish_out (base64Updates_represent (init_represents three out) parts)

/-- Credentials are encoded part by part. -/
theorem word_encoded :
    (csBase64Finish ([ascii "user", ascii ":", ascii "pass"].foldl csBase64Update
      (csBase64Init [1, 2, 3] (ascii "Basic ")))).out =
        ascii "Basic " ++ base64 [ascii "user", ascii ":", ascii "pass"].flatten :=
  base64_parts (by decide) (ascii "Basic ") [ascii "user", ascii ":", ascii "pass"]

/-! ## A buffer -/

/-- Padding is appended up to a multiple of four. -/
theorem base64PadLoop_out {dst : Bytes} {fuel missing : Nat} (few : missing < 4)
    (enough : missing ≤ fuel) (short : (dst.length + missing) % 4 = 0) :
    base64PadLoop fuel dst = dst ++ List.replicate missing 61 := by
  induction fuel generalizing dst missing with
  | zero =>
    obtain rfl : missing = 0 := by omega
    exact (List.append_nil _).symm
  | succ fuel ih =>
    by_cases done : missing = 0
    · subst done
      rw [Nat.add_zero] at short
      rw [base64PadLoop, if_neg (not_not.mpr short)]
      exact (List.append_nil _).symm
    · obtain ⟨missing, rfl⟩ := Nat.exists_eq_add_one_of_ne_zero done
      have longer : (dst ++ [61]).length = dst.length + 1 := List.length_append
      rw [base64PadLoop, if_pos (by omega),
        @ih (dst ++ [61]) missing (by omega) (by omega) (by rw [longer]; omega), List.append_assoc]
      rfl

/-- A round of the first loop writes the digits of a group that has some of its bytes. -/
theorem base64EncodeLoop_step {src : Bytes} {fuel i size : Nat} {a b c : UInt8} (dst : Bytes)
    (present : 0 < size) (few : size ≤ 3) (left : size = min 3 (src.length - i))
    (first : src.getD i 0 = a) (second : (if size < 2 then 0 else src.getD (i + 1) 0) = b)
    (third : (if size < 3 then 0 else src.getD (i + 2) 0) = c) :
    base64EncodeLoop src src.length (fuel + 1) i dst =
      base64EncodeLoop src src.length fuel (i + 3)
        (dst ++ (base64Group a b c).take (size + 1)) := by
  obtain ⟨one, two, three, four⟩ := group_values a b c
  have digit : ∀ v, b64.getD v 0 = base64Digit v := fun v => rfl
  have more : (i + 1 ≥ src.length) = (size < 2) := propext (by omega)
  have most : (i + 2 ≥ src.length) = (size < 3) := propext (by omega)
  have more' : (i + 1 < src.length) = ¬size < 2 := propext (by omega)
  have most' : (i + 2 < src.length) = ¬size < 3 := propext (by omega)
  have zeros : ∀ (test : Prop) [Decidable test] (byte : UInt8),
      (if test then 0 else byte.toNat) = (if test then 0 else byte).toNat := by
    intro test _ byte
    split_ifs <;> rfl
  rw [base64EncodeLoop, if_pos (by omega)]
  simp only [more, most, more', most', zeros, first, second, third, one, two, three, four, digit]
  interval_cases size <;> simp [base64Group]

/-- The loops over a buffer write the encoding of the bytes from an offset. -/
theorem base64EncodeLoop_out {src rest dst : Bytes} {fuel i : Nat} (here : src.drop i = rest)
    (enough : rest.length ≤ fuel) (four : dst.length % 4 = 0) :
    base64PadLoop 4 (base64EncodeLoop src src.length fuel i dst) = dst ++ base64 rest := by
  have length : rest.length = src.length - i := by rw [← here, List.length_drop]
  have byte : ∀ k, src.getD (i + k) 0 = rest.getD k 0 := by
    intro k
    rw [← here, List.getD_eq_getElem?_getD, List.getD_eq_getElem?_getD, List.getElem?_drop]
  have stops : ∀ fuel j dst, src.length ≤ j →
      base64EncodeLoop src src.length fuel j dst = dst := by
    intro fuel j dst past
    cases fuel with
    | zero => rfl
    | succ fuel => rw [base64EncodeLoop, if_neg (by omega)]
  induction rest using base64.induct generalizing i fuel dst with
  | case1 =>
    have past : src.length ≤ i := by
      rw [List.length_nil] at length
      omega
    rw [stops _ _ _ past]
    exact @base64PadLoop_out dst 4 0 (by decide) (by decide) four
  | case2 a =>
    rw [List.length_singleton] at enough length
    obtain ⟨fuel, rfl⟩ := Nat.exists_eq_add_one_of_ne_zero (show fuel ≠ 0 by omega)
    have wrote : (dst ++ (base64Group a 0 0).take 2).length = dst.length + 2 := List.length_append
    rw [@base64EncodeLoop_step src fuel i 1 a 0 0 dst (by decide) (by decide) (by omega)
      (byte 0) rfl
      rfl, stops _ _ _ (by omega),
      @base64PadLoop_out _ 4 2 (by decide) (by decide) (by rw [wrote]; omega), List.append_assoc]
    rfl
  | case3 a b =>
    have two : src.length - i = 2 := length.symm
    obtain ⟨fuel, rfl⟩ := Nat.exists_eq_add_one_of_ne_zero (show fuel ≠ 0 by
      simp only [List.length_cons] at enough
      omega)
    have wrote : (dst ++ (base64Group a b 0).take 3).length = dst.length + 3 := List.length_append
    rw [@base64EncodeLoop_step src fuel i 2 a b 0 dst (by decide) (by decide) (by omega) (byte 0)
      (byte 1) rfl, stops _ _ _ (by omega),
      @base64PadLoop_out _ 4 1 (by decide) (by decide) (by rw [wrote]; omega), List.append_assoc]
    rfl
  | case4 a b c others ih =>
    have more : (a :: b :: c :: others).length = others.length + 3 := rfl
    rw [more] at enough length
    obtain ⟨fuel, rfl⟩ := Nat.exists_eq_add_one_of_ne_zero (show fuel ≠ 0 by omega)
    have behind : src.drop (i + 3) = others := by
      rw [← List.drop_drop, here]
      rfl
    have length' : others.length = src.length - (i + 3) := by omega
    have byte' : ∀ k, src.getD (i + 3 + k) 0 = others.getD k 0 := by
      intro k
      rw [← behind, List.getD_eq_getElem?_getD, List.getD_eq_getElem?_getD, List.getElem?_drop]
    have wrote : (dst ++ base64Group a b c).length = dst.length + 4 := List.length_append
    rw [@base64EncodeLoop_step src fuel i 3 a b c dst (by decide) (by decide) (by omega) (byte 0)
      (byte 1) (byte 2)]
    show base64PadLoop 4
      (base64EncodeLoop src src.length fuel (i + 3) (dst ++ base64Group a b c)) = _
    rw [ih behind (by omega) (by rw [wrote]; omega) length' byte', List.append_assoc]
    rfl

/-- `cs_base64_encode` writes the encoding of its bytes and a NUL. -/
theorem csBase64Encode_eq (src : Bytes) : csBase64Encode src src.length = base64 src ++ [0] := by
  rw [csBase64Encode, base64EncodeLoop_out (List.drop_zero) (Nat.le_refl _) rfl]
  rfl

/-! ## Decoding -/

/-- The digits are read back. -/
theorem fromB64_digit {v : Nat} (six : v < 64) : fromB64 (base64Digit v) = v := by
  have digits : ∀ v < 64, fromB64 (base64Digit v) = v := by decide +kernel
  exact digits v six

/-- The bytes of a group, as the decoder puts them together from the values of its digits. -/
theorem group_bytes (a b c : UInt8) :
    let bits := a.toNat * 65536 + b.toNat * 256 + c.toNat
    UInt8.ofNat ((bits / 262144) <<< 2 ||| (bits / 4096 % 64) >>> 4) = a ∧
      UInt8.ofNat ((bits / 4096 % 64) <<< 4 ||| (bits / 64 % 64) >>> 2) = b ∧
      UInt8.ofNat ((bits / 64 % 64) <<< 6 ||| bits % 64) = c := by
  have smallA := a.toNat_lt
  have smallB := b.toNat_lt
  have smallC := c.toNat_lt
  have byte : ∀ {value : Nat} {byte : UInt8}, value % 256 = byte.toNat →
      UInt8.ofNat value = byte := by
    intro value byte same
    apply UInt8.toNat_inj.mp
    rw [UInt8.toNat_ofNat']
    exact same
  dsimp only
  generalize value : a.toNat * 65536 + b.toNat * 256 + c.toNat = bits
  have low : bits / 4096 % 64 / 2 ^ 4 < 2 ^ 2 := by omega
  have low' : bits / 64 % 64 / 2 ^ 2 < 2 ^ 4 := by omega
  have low'' : bits % 64 < 2 ^ 6 := by omega
  simp only [Nat.shiftRight_eq_div_pow]
  rw [← Nat.shiftLeft_add_eq_or_of_lt low, ← Nat.shiftLeft_add_eq_or_of_lt low',
    ← Nat.shiftLeft_add_eq_or_of_lt low'']
  simp only [Nat.shiftLeft_eq]
  exact ⟨byte (by omega), byte (by omega), byte (by omega)⟩

/-- A round of the decoder on four digits, or on two or three of them and padding. -/
theorem base64DecodeLoop_digits {v0 v1 v2 v3 : Nat} (six0 : v0 < 64) (six1 : v1 < 64)
    (six2 : v2 < 64) (six3 : v3 < 64) {fuel len : Nat} (s dst : Bytes) (four : 4 ≤ len) :
    let byte0 := UInt8.ofNat (v0 <<< 2 ||| v1 >>> 4)
    let byte1 := UInt8.ofNat (v1 <<< 4 ||| v2 >>> 2)
    let byte2 := UInt8.ofNat (v2 <<< 6 ||| v3)
    base64DecodeLoop (fuel + 1)
        (base64Digit v0 :: base64Digit v1 :: base64Digit v2 :: base64Digit v3 :: s) len dst =
        base64DecodeLoop fuel s (len - 4) (dst ++ [byte0, byte1, byte2]) ∧
      base64DecodeLoop (fuel + 1)
        (base64Digit v0 :: base64Digit v1 :: base64Digit v2 :: 61 :: s) len dst =
        (len - 4, dst ++ [byte0, byte1]) ∧
      base64DecodeLoop (fuel + 1) (base64Digit v0 :: base64Digit v1 :: 61 :: 61 :: s) len dst =
        (len - 4, dst ++ [byte0]) := by
  have equals : fromB64 61 = 200 := by decide
  have special : ∀ {v : Nat}, v < 64 → v ≠ 255 ∧ v ≠ 200 := by
    intro v six
    constructor <;> omega
  refine ⟨?_, ?_, ?_⟩ <;> rw [base64DecodeLoop] <;>
    simp [fromB64_digit, six0, six1, six2, six3, special, equals, four]

/-- A round of the decoder on a group of an encoding. -/
theorem base64DecodeLoop_group (a b c : UInt8) {fuel len : Nat} (s dst : Bytes) (four : 4 ≤ len) :
    base64DecodeLoop (fuel + 1) (base64 [a, b, c] ++ s) len dst =
        base64DecodeLoop fuel s (len - 4) (dst ++ [a, b, c]) ∧
      base64DecodeLoop (fuel + 1) (base64 [a, b] ++ s) len dst = (len - 4, dst ++ [a, b]) ∧
      base64DecodeLoop (fuel + 1) (base64 [a] ++ s) len dst = (len - 4, dst ++ [a]) := by
  have high : ∀ b c : UInt8, (a.toNat * 65536 + b.toNat * 256 + c.toNat) / 262144 < 64 := by
    intro b c
    have smallA := a.toNat_lt
    have smallB := b.toNat_lt
    have smallC := c.toNat_lt
    omega
  have six : ∀ bits : Nat, bits % 64 < 64 := fun bits => Nat.mod_lt _ (by decide)
  have round := fun b c : UInt8 =>
    let bits := a.toNat * 65536 + b.toNat * 256 + c.toNat
    @base64DecodeLoop_digits _ _ _ _ (high b c) (six (bits / 4096)) (six (bits / 64)) (six bits)
      fuel len s dst four
  refine ⟨?_, ?_, ?_⟩
  · obtain ⟨first, second, third⟩ := group_bytes a b c
    have whole := (round b c).1
    rw [first, second, third] at whole
    exact whole
  · obtain ⟨first, second, -⟩ := group_bytes a b 0
    have part := (round b 0).2.1
    rw [first, second] at part
    exact part
  · obtain ⟨first, -, -⟩ := group_bytes a 0 0
    have part := (round 0 0).2.2
    rw [first] at part
    exact part

/-- What follows an encoding ends the decoder: fewer than four characters are left, or one of the
next four is not of the alphabet. -/
def Stops (after : Bytes) (len : Nat) : Prop :=
  len < 4 ∨ ∃ stop ∈ after.take 4, fromB64 stop = 255

/-- It takes no further group. -/
theorem Stops.ends {after : Bytes} {len : Nat} (stops : Stops after len) :
    ¬(len ≥ 4 ∧ fromB64 (after.getD 0 0) ≠ 255 ∧ fromB64 (after.getD 1 0) ≠ 255 ∧
      fromB64 (after.getD 2 0) ≠ 255 ∧ fromB64 (after.getD 3 0) ≠ 255) := by
  rintro ⟨four, first, second, third, fourth⟩
  rcases stops with short | ⟨stop, member, outside⟩
  · omega
  · obtain ⟨i, inside, rfl⟩ := List.mem_iff_getElem.mp member
    have near : i < 4 := lt_of_lt_of_le inside (List.length_take_le 4 after)
    have within : i < after.length := lt_of_lt_of_le inside (List.length_take_le' 4 after)
    have digit : fromB64 (after.getD i 0) ≠ 255 := by
      interval_cases i
      · exact first
      · exact second
      · exact third
      · exact fourth
    rw [List.getElem_take] at outside
    rw [List.getD_eq_getElem?_getD, List.getElem?_eq_getElem within, Option.getD_some] at digit
    exact digit outside

/-- The decoder reads an encoding to its end. -/
theorem base64DecodeLoop_base64 {bytes after dst : Bytes} {fuel len : Nat}
    (inside : (base64 bytes).length ≤ len) (enough : len / 4 < fuel)
    (stops : Stops after (len - (base64 bytes).length)) :
    base64DecodeLoop fuel (base64 bytes ++ after) len dst =
      (len - (base64 bytes).length, dst ++ bytes) := by
  obtain ⟨fuel, rfl⟩ : ∃ less, fuel = less + 1 := Nat.exists_eq_add_one_of_ne_zero (by omega)
  induction bytes using base64.induct generalizing fuel len dst with
  | case1 =>
    show base64DecodeLoop (fuel + 1) after len dst = (len, dst ++ [])
    have none : Stops after len := stops
    rw [base64DecodeLoop, if_neg none.ends, List.append_nil]
  | case2 a => exact (base64DecodeLoop_group a 0 0 after dst inside).2.2
  | case3 a b => exact (base64DecodeLoop_group a b 0 after dst inside).2.1
  | case4 a b c rest ih =>
    have split : base64 (a :: b :: c :: rest) = base64 [a, b, c] ++ base64 rest := rfl
    have length : (base64 (a :: b :: c :: rest)).length = (base64 rest).length + 4 := by
      rw [split, List.length_append, Nat.add_comm]
      rfl
    rw [length] at inside stops
    have later : len - 4 - (base64 rest).length = len - ((base64 rest).length + 4) := by omega
    obtain ⟨fuel, rfl⟩ : ∃ less, fuel = less + 1 :=
      Nat.exists_eq_add_one_of_ne_zero (by omega)
    have tail := @ih (dst ++ [a, b, c]) (len - 4) (by omega) (by rwa [later]) fuel (by omega)
    rw [length, split, List.append_assoc, (base64DecodeLoop_group a b c _ dst (by omega)).1, tail,
      later, List.append_assoc]
    rfl

/-- What is decoded of an encoded text. -/
theorem decoded_text {bytes after : Bytes} {len : Nat} (inside : (base64 bytes).length ≤ len)
    (stops : Stops after (len - (base64 bytes).length)) :
    (csBase64Decode (base64 bytes ++ after) len).2 = bytes := by
  rw [csBase64Decode, base64DecodeLoop_base64 inside (by omega) stops]
  rfl

/-- The decoder writes at most three bytes for four characters. -/
theorem base64DecodeLoop_length (fuel : Nat) (s : Bytes) (len : Nat) (dst : Bytes) :
    (base64DecodeLoop fuel s len dst).2.length ≤ dst.length + 3 * (len / 4) := by
  induction fuel generalizing s len dst with
  | zero => exact Nat.le_add_right _ _
  | succ fuel ih =>
    rw [base64DecodeLoop]
    dsimp only
    split_ifs with round first second third
    · exact Nat.le_add_right _ _
    · rw [List.length_append, List.length_singleton]
      omega
    · rw [List.length_append, List.length_append, List.length_singleton, List.length_singleton]
      omega
    · apply (ih _ _ _).trans
      rw [List.length_append, List.length_append, List.length_append, List.length_singleton,
        List.length_singleton, List.length_singleton]
      omega
    · exact Nat.le_add_right _ _

/-- The decoder reads nothing behind a character outside of the alphabet. -/
theorem base64DecodeLoop_local {stop : UInt8} (outside : fromB64 stop = 255) (after after' : Bytes)
    (fuel : Nat) (s : Bytes) (len : Nat) (dst : Bytes) :
    base64DecodeLoop fuel (s ++ stop :: after) len dst =
      base64DecodeLoop fuel (s ++ stop :: after') len dst := by
  induction fuel generalizing s len dst with
  | zero => rfl
  | succ fuel ih =>
    obtain _ | ⟨a, _ | ⟨b, _ | ⟨c, _ | ⟨d, rest⟩⟩⟩⟩ := s
    · simp [base64DecodeLoop, outside]
    · simp [base64DecodeLoop, outside]
    · simp [base64DecodeLoop, outside]
    · simp [base64DecodeLoop, outside]
    · have others := ih rest
      simp [base64DecodeLoop, others]

end CppCode.Mongoose
