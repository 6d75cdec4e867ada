import CppCode.Mongoose.Sha1Rounds

/-!
# The digest of a message in parts

A context of `common/sha1.c` represents the bytes that it was given: its hash value is the one after
their whole blocks, the unfinished block is at the front of its buffer, and its two counts are the
number of their bits. `cs_sha1_update` keeps this for any bytes, and `cs_sha1_final` appends the
padding of the standard through the same function.
-/

namespace CppCode.Mongoose

open Library Library.BlockHash

/-- A context represents the bytes that it was given. -/
structure Sha1Ctx.Represents (context : Sha1Ctx) (message : Bytes) : Prop where
  /-- The hash value of the whole blocks. -/
  state : context.state = (sha1Hash.absorb sha1Hash.start message).1
  /-- The buffer is a block. -/
  block : context.buffer.length = 64
  /-- The unfinished block. -/
  rest : context.buffer.take (message.length % 64) = (sha1Hash.absorb sha1Hash.start message).2
  /-- The number of bits. -/
  low : context.count0 = 8 * message.length % 0x100000000
  /-- Its high word. -/
  high : context.count1 = 8 * message.length / 0x100000000 % 0x100000000

/-- An initial context represents no bytes. -/
theorem csSha1Init_represents {garbage : Bytes} (block : garbage.length = 64) :
    (csSha1Init garbage).Represents [] where
  state := rfl
  block := block
  rest := rfl
  low := rfl
  high := rfl

/-! ## More bytes -/

/-- The loop over whole blocks compresses them and stops at the unfinished one. -/
theorem sha1UpdateLoop_absorb {data : Bytes} (fits : data.length + 63 < 0x100000000) {fuel i : Nat}
    (state : Sha1Words) (inside : i ≤ data.length) (enough : data.length < i + 64 * fuel + 64) :
    ∃ stop, stop ≤ data.length ∧
      sha1UpdateLoop data data.length fuel state i =
        ((sha1Hash.absorb state (data.drop i)).1, stop) ∧
      data.drop stop = (sha1Hash.absorb state (data.drop i)).2 := by
  have left : ∀ j, (data.drop j).length = data.length - j := fun j => List.length_drop
  have stops : ∀ {state : Sha1Words} {i : Nat}, i ≤ data.length → data.length < i + 64 →
      sha1Hash.absorb state (data.drop i) = (state, data.drop i) := by
    intro state i inside short
    exact absorb_short (by rw [left]; show _ < 64; omega)
  induction fuel generalizing state i with
  | zero =>
    rw [stops inside (by omega)]
    exact ⟨i, inside, rfl, rfl⟩
  | succ fuel ih =>
    rw [sha1UpdateLoop, Nat.mod_eq_of_lt (by omega)]
    by_cases whole : i + 63 < data.length
    · have block : ((data.drop i).take 64).length = 64 := by
        rw [List.length_take, left]
        omega
      have step : sha1Hash.absorb state (data.drop i) =
          sha1Hash.absorb (csSha1Transform state ((data.drop i).take 64)) (data.drop (i + 64)) := by
        rw [absorb_step (by rw [left]; show 64 ≤ _; omega), csSha1Transform_eq state block,
          ← List.drop_drop]
        rfl
      rw [if_pos whole, step]
      exact ih _ (by omega) (by omega)
    · rw [if_neg whole, stops inside (by omega)]
      exact ⟨i, inside, rfl, rfl⟩

/-- Bytes stored behind the front of a block. -/
theorem take_store {buf bytes : Bytes} {offset : Nat} (inside : offset ≤ buf.length) :
    (store buf offset bytes).take (offset + bytes.length) = buf.take offset ++ bytes := by
  have front : (buf.take offset ++ bytes).length = offset + bytes.length := by
    rw [List.length_append, List.length_take]
    omega
  rw [store, ← front, List.take_left]

/-- The counts after more bytes. -/
theorem update_counts {context : Sha1Ctx} {message : Bytes}
    (represents : context.Represents message)
    (more : Nat) :
    let low := (context.count0 + more * 8) % 0x100000000
    low = 8 * (message.length + more) % 0x100000000 ∧
      ((if low < context.count0 then context.count1 + 1 else context.count1) +
        more / 0x20000000) % 0x100000000 =
        8 * (message.length + more) / 0x100000000 % 0x100000000 := by
  rw [represents.low, represents.high]
  dsimp only
  constructor
  · omega
  · split_ifs <;> omega

/-- When a block is filled, the hash value is that of the whole blocks and the rest is kept. -/
theorem update_full {context : Sha1Ctx} {data : Bytes} {j : Nat}
    (block : context.buffer.length = 64) (room : j < 64) (full : 63 < j + data.length)
    (fits : data.length + 63 < 0x100000000) :
    let filled := store context.buffer j (data.take (64 - j))
    let (state, i) := sha1UpdateLoop data data.length (data.length / 64)
      (csSha1Transform context.state filled) (64 - j)
    state = (sha1Hash.absorb context.state (context.buffer.take j ++ data)).1 ∧
      (store filled 0 ((data.drop i).take (data.length - i))).length = 64 ∧
      ∃ count, count = (sha1Hash.absorb context.state (context.buffer.take j ++ data)).2.length ∧
        (store filled 0 ((data.drop i).take (data.length - i))).take count =
          (sha1Hash.absorb context.state (context.buffer.take j ++ data)).2 := by
  have front : (context.buffer.take j).length = j := by
    rw [List.length_take]
    omega
  have added : (data.take (64 - j)).length = 64 - j := by
    rw [List.length_take]
    omega
  have filled : store context.buffer j (data.take (64 - j)) =
      context.buffer.take j ++ data.take (64 - j) := by
    have behind : context.buffer.drop 64 = [] := List.drop_eq_nil_of_le (by omega)
    rw [store, added, show j + (64 - j) = 64 by omega, behind, List.append_nil]
  have whole : (context.buffer.take j ++ data.take (64 - j)).length = 64 := by
    rw [List.length_append, front, added]
    omega
  have first : (context.buffer.take j ++ data).take 64 =
      context.buffer.take j ++ data.take (64 - j) := by
    rw [List.take_append, front, List.take_of_length_le (by omega)]
  have others : (context.buffer.take j ++ data).drop 64 = data.drop (64 - j) := by
    rw [List.drop_append, front, List.drop_eq_nil_of_le (by omega), List.nil_append]
  have step : sha1Hash.absorb context.state (context.buffer.take j ++ data) =
      sha1Hash.absorb (csSha1Transform context.state (context.buffer.take j ++ data.take (64 - j)))
        (data.drop (64 - j)) := by
    rw [absorb_step (by rw [List.length_append, front]; show 64 ≤ _; omega),
      csSha1Transform_eq _ whole]
    show sha1Hash.absorb (sha1Compress _ ((context.buffer.take j ++ data).take 64))
      ((context.buffer.take j ++ data).drop 64) = _
    rw [first, others]
  rw [filled, step]
  obtain ⟨stop, inside, looped, kept⟩ := sha1UpdateLoop_absorb fits
    (csSha1Transform context.state (context.buffer.take j ++ data.take (64 - j)))
    (show 64 - j ≤ data.length by omega)
    (show data.length < 64 - j + 64 * (data.length / 64) + 64 by omega)
  have all : (data.drop stop).take (data.length - stop) = data.drop stop :=
    List.take_of_length_le (by rw [List.length_drop])
  have few : (data.drop stop).length < 64 := by
    rw [kept, length_absorb]
    exact Nat.mod_lt _ (by decide)
  dsimp only
  rw [looped]
  dsimp only
  rw [all, ← kept]
  refine ⟨rfl, ?_, _, rfl, ?_⟩
  · rw [length_store (by omega), whole]
  · have taken := @take_store (context.buffer.take j ++ data.take (64 - j)) (data.drop stop) 0
      (Nat.zero_le _)
    rwa [Nat.zero_add] at taken

/-- `cs_sha1_update` keeps what a context represents, with the bytes that it adds. -/
theorem update_represents {context : Sha1Ctx} {message data : Bytes}
    (represents : context.Represents message) (fits : data.length + 63 < 0x100000000) :
    (csSha1Update context data data.length).Represents (message ++ data) := by
  have block := represents.block
  have unread : context.count0 / 8 % 64 = message.length % 64 := by
    rw [represents.low]
    omega
  have room : message.length % 64 < 64 := Nat.mod_lt _ (by decide)
  have size : (message ++ data).length = message.length + data.length := List.length_append
  have absorbed := @absorb_append _ sha1Hash sha1Hash.start message data
  rw [← represents.state, ← represents.rest] at absorbed
  have left : (sha1Hash.absorb sha1Hash.start (message ++ data)).2.length =
      (message.length + data.length) % 64 := by
    rw [length_absorb, size]
    rfl
  obtain ⟨low, high⟩ := update_counts represents data.length
  rw [csSha1Update, unread, Nat.mod_eq_of_lt (show message.length % 64 + data.length < _ by omega)]
  by_cases full : 63 < message.length % 64 + data.length
  · obtain ⟨state, length, count, same, rest⟩ := update_full block room full fits
    rw [if_pos full]
    rw [← absorbed] at state rest same
    rw [left] at same
    rw [same] at rest
    exact ⟨state, length, by rwa [size], by rwa [size], by rwa [size]⟩
  · have short : (context.buffer.take (message.length % 64) ++ data).length < sha1Hash.size := by
      rw [List.length_append, List.length_take]
      show _ < 64
      omega
    rw [absorb_short short] at absorbed
    have together : (message.length + data.length) % 64 = message.length % 64 + data.length := by
      omega
    rw [if_neg full, List.take_length]
    refine ⟨?_, ?_, ?_, by rwa [size], by rwa [size]⟩
    · rw [absorbed]
    · show (store context.buffer _ data).length = 64
      rw [length_store (by omega), block]
    · rw [absorbed, size, together]
      exact take_store (by omega)

/-! ## The padding -/

/-- The mask of the padding loop is the place in a block. -/
theorem pad_mask (length : Nat) :
    8 * length % 0x100000000 &&& 504 = 448 ↔ length % 64 = 56 := by
  have bits : 8 * length % 0x100000000 = (length % 0x20000000) <<< 3 := by
    rw [Nat.shiftLeft_eq]
    omega
  have mask : (504 : Nat) = 63 <<< 3 := rfl
  have low : length % 0x20000000 &&& 63 = length % 0x20000000 % 64 :=
    Nat.and_two_pow_sub_one_eq_mod _ 6
  rw [bits, mask, ← Nat.shiftLeft_and_distrib, low, Nat.shiftLeft_eq]
  omega

/-- The padding loop appends zeros until the length has its place. -/
theorem sha1PadLoop_represents {context : Sha1Ctx} {message : Bytes} {fuel zeros : Nat}
    (represents : context.Represents message) (few : zeros < fuel) (small : zeros < 64)
    (place : (message.length + zeros) % 64 = 56) :
    (sha1PadLoop fuel context).Represents (message ++ List.replicate zeros 0) := by
  induction zeros generalizing context message fuel with
  | zero =>
    obtain ⟨fuel, rfl⟩ := Nat.exists_eq_add_one_of_ne_zero (by omega : fuel ≠ 0)
    have here : context.count0 &&& 504 = 448 := by
      rw [represents.low]
      exact (pad_mask _).mpr place
    rw [sha1PadLoop, if_neg (not_not.mpr here), List.replicate_zero, List.append_nil]
    exact represents
  | succ zeros ih =>
    obtain ⟨fuel, rfl⟩ := Nat.exists_eq_add_one_of_ne_zero (by omega : fuel ≠ 0)
    have away : context.count0 &&& 504 ≠ 448 := by
      rw [represents.low]
      intro here
      have now := (pad_mask _).mp here
      omega
    have one : ([0] : Bytes).length + 63 < 0x100000000 := by decide
    have longer : (message ++ [0]).length = message.length + 1 := List.length_append
    have rest := @ih _ _ fuel (update_represents represents one) (by omega) (by omega)
      (by rw [longer]; omega)
    have first : message ++ List.replicate (zeros + 1) 0 =
        message ++ [0] ++ List.replicate zeros 0 := by
      rw [List.append_assoc]
      rfl
    rw [sha1PadLoop, if_pos away, first]
    exact rest

/-- Numbers with one low byte. -/
theorem ofNat_eq_of_mod {left right : Nat} (same : left % 256 = right % 256) :
    UInt8.ofNat left = UInt8.ofNat right := by
  apply UInt8.toNat_inj.mp
  rw [UInt8.toNat_ofNat', UInt8.toNat_ofNat']
  exact same

/-- The counts are the length that the padding ends with. -/
theorem finalcount_eq {context : Sha1Ctx} {message : Bytes}
    (represents : context.Represents message) :
    ((List.range 8).map fun i => UInt8.ofNat
      ((if i ≥ 4 then context.count0 else context.count1) >>> ((3 - i % 4) * 8))) =
      sha1Hash.length (8 * message.length) := by
  rw [represents.low, represents.high]
  show _ = beBytes 8 (8 * message.length)
  generalize 8 * message.length = bits
  simp only [show List.range 8 = [0, 1, 2, 3, 4, 5, 6, 7] from rfl, List.map_cons, List.map_nil,
    beBytes, leBytes, List.reverse_cons, List.reverse_nil, List.nil_append, List.cons_append,
    Nat.shiftRight_eq_div_pow, Nat.div_div_eq_div_mul, List.cons.injEq, and_true]
  refine ⟨?_, ?_, ?_, ?_, ?_, ?_, ?_, ?_⟩ <;> apply ofNat_eq_of_mod <;>
    simp only [ge_iff_le, Nat.reduceLeDiff, if_true, if_false, Nat.reduceMod, Nat.reduceSub,
      Nat.reduceMul, Nat.reducePow] <;> omega

/-- The bytes of a word. -/
theorem beBytes_four (word : BitVec 32) :
    beBytes 4 word.toNat =
      [UInt8.ofNat (word.toNat >>> 24), UInt8.ofNat (word.toNat >>> 16),
        UInt8.ofNat (word.toNat >>> 8), UInt8.ofNat (word.toNat >>> 0)] := by
  simp [beBytes, leBytes, Nat.shiftRight_eq_div_pow, Nat.div_div_eq_div_mul]

/-- The bytes of a hash value. -/
theorem digest_bytes (h : Sha1Words) :
    ((List.range 20).map fun i => UInt8.ofNat
      ((([h.a, h.b, h.c, h.d, h.e] : List (BitVec 32)).getD (i / 4) 0).toNat >>>
        ((3 - i % 4) * 8))) = h.bytes := by
  simp only [Sha1Words.bytes, List.flatMap_cons, List.flatMap_nil, beBytes_four]
  rfl

/-- `cs_sha1_final` gives the digest of the bytes that a context represents. -/
theorem csSha1Final_eq {context : Sha1Ctx} {message : Bytes}
    (represents : context.Represents message) : csSha1Final context = sha1 message := by
  have marked := @update_represents _ _ [0x80] represents (by decide)
  have zeros : sha1Hash.zeros message.length < 64 := Nat.mod_lt _ (by decide)
  have longer : (message ++ [0x80]).length = message.length + 1 := List.length_append
  have place : ((message ++ [0x80]).length + sha1Hash.zeros message.length) % 64 = 56 := by
    have whole : (message.length + (sha1Hash.padding message.length).length) % 64 = 0 :=
      padded_whole message.length
    rw [length_padding] at whole
    rw [longer]
    omega
  have padded := @sha1PadLoop_represents _ _ 64 _ marked zeros zeros place
  have eight : (sha1Hash.length (8 * message.length)).length = 8 := length_beBytes 8 _
  have done := @update_represents _ _ (sha1Hash.length (8 * message.length)) padded
    (by rw [eight]; decide)
  have all : message ++ [0x80] ++ List.replicate (sha1Hash.zeros message.length) 0 ++
      sha1Hash.length (8 * message.length) = message ++ sha1Hash.padding message.length := by
    rw [padding, List.append_assoc, List.append_assoc]
    rfl
  rw [eight, all] at done
  have state := done.state
  rw [csSha1Final, finalcount_eq represents, digest_bytes, sha1, digest, ← state]
  rfl

/-- A context represents all messages that it was given. -/
theorem updates_represent {context : Sha1Ctx} {message : Bytes} {msgs : List Bytes}
    (represents : context.Represents message)
    (fits : ∀ msg ∈ msgs, msg.length + 63 < 0x100000000) :
    (msgs.foldl (fun context msg => csSha1Update context msg (msg.length % 0x100000000))
      context).Represents (message ++ msgs.flatten) := by
  induction msgs generalizing context message with
  | nil =>
    rw [List.flatten_nil, List.append_nil]
    exact represents
  | cons msg rest ih =>
    have here := fits msg List.mem_cons_self
    have next := update_represents represents here
    have others := ih next fun other member => fits other (List.mem_cons_of_mem msg member)
    rw [List.foldl_cons, Nat.mod_eq_of_lt (by omega), List.flatten_cons, ← List.append_assoc]
    exact others

/-- `mg_hash_sha1_v` computes the SHA-1 of its messages in a row. -/
theorem hash_sha1_v_eq {garbage : Bytes} {msgs : List Bytes} (block : garbage.length = 64)
    (fits : ∀ msg ∈ msgs, msg.length + 63 < 0x100000000) :
    mgHashSha1V garbage msgs = sha1 msgs.flatten :=
  csSha1Final_eq (updates_represent (csSha1Init_represents block) fits)

/-- Two messages, the second of which starts in the middle of a block. -/
theorem parts_hashed :
    mgHashSha1V (List.replicate 64 0xaa) [[0x61], [0x62, 0x63]] = sha1 [0x61, 0x62, 0x63] :=
  hash_sha1_v_eq (by decide) (by decide)

example : sha1 [0x61, 0x62, 0x63] =
    [0xa9, 0x99, 0x3e, 0x36, 0x47, 0x06, 0x81, 0x6a, 0xba, 0x3e, 0x25, 0x71, 0x78, 0x50, 0xc2, 0x6c,
      0x9c, 0xd0, 0xd8, 0x9d] := by decide +kernel

/-! ## The keyed digest -/

/-- A digest has twenty bytes. -/
theorem length_sha1 (message : Bytes) : (sha1 message).length = 20 := by
  simp [sha1, Sha1Words.bytes]

/-- A masked key, padded with zeros to a block, and bytes behind it. -/
theorem final_of_masked {garbage key data : Bytes} (mask : UInt8) (block : garbage.length = 64)
    (short : key.length ≤ 64) (fits : data.length + 63 < 0x100000000) :
    csSha1Final (csSha1Update (csSha1Update (csSha1Init garbage)
      ((store (List.replicate 64 0) 0 key).map (· ^^^ mask)) 64) data data.length) =
      sha1 ((key ++ List.replicate (64 - key.length) 0).map (· ^^^ mask) ++ data) := by
  have padded : store (List.replicate 64 0) 0 key = key ++ List.replicate (64 - key.length) 0 := by
    rw [store, List.take_zero, List.nil_append, Nat.zero_add, List.drop_replicate]
  have whole : ((key ++ List.replicate (64 - key.length) 0).map (· ^^^ mask)).length = 64 := by
    rw [List.length_map, List.length_append, List.length_replicate]
    omega
  have first := update_represents (csSha1Init_represents block)
    (show ((key ++ List.replicate (64 - key.length) 0).map (· ^^^ mask)).length + 63 < _ by
      rw [whole]
      decide)
  rw [whole] at first
  rw [padded]
  exact csSha1Final_eq (update_represents first fits)

/-- `cs_hmac_sha1` computes the keyed digest of SHA-1. -/
theorem hmac_sha1_eq {garbage key data : Bytes} (block : garbage.length = 64)
    (fits : key.length + 63 < 0x100000000) (fits' : data.length + 63 < 0x100000000) :
    csHmacSha1 garbage key data = hmac sha1 64 key data := by
  have wiped : (List.replicate 64 0 : Bytes).length = 64 := List.length_replicate
  have outer : ∀ {key message : Bytes}, key.length ≤ 64 → _ :=
    fun {key message} short => @final_of_masked _ key (sha1 message) 0x5c wiped short
      (by rw [length_sha1]; decide)
  simp only [length_sha1] at outer
  rw [csHmacSha1, hmac, Nat.mod_eq_of_lt (show key.length < _ by omega),
    Nat.mod_eq_of_lt (show data.length < _ by omega)]
  by_cases long : 64 < key.length
  · have hashed := csSha1Final_eq (update_represents (csSha1Init_represents block) fits)
    have short : (sha1 key).length ≤ 64 := by
      rw [length_sha1]
      decide
    rw [List.nil_append] at hashed
    rw [if_pos long, if_pos long, hashed]
    dsimp only
    rw [final_of_masked 0x36 wiped short fits', outer short]
  · have short : key.length ≤ 64 := by omega
    rw [if_neg long, if_neg long]
    dsimp only
    rw [final_of_masked 0x36 block short fits', outer short]

/-- A key that is longer than a block. -/
theorem long_key_hashed :
    csHmacSha1 (List.replicate 64 0xaa) (List.replicate 65 0x41) [0x61] =
      hmac sha1 64 (List.replicate 65 0x41) [0x61] :=
  hmac_sha1_eq (by decide) (by decide) (by decide)

end CppCode.Mongoose
