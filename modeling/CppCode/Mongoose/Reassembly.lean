import CppCode.Library.ChunkedCoding
import CppCode.Mongoose.Chunked

/-!
# Reassembling a coded body

What `mg_handle_chunked` does with chunks. On any bytes, the calls that look at a longer and longer
buffer decode what one decoding of the whole buffer does (`unchunk`, `mgHandleChunked_unchunk`). A
chunk that a sender codes is found when its last byte is there and not before
(`mgHttpParseChunk_part`), so one call moves the data of the chunks that are whole to the body,
keeps the part behind them, and the next call goes on from there: `mgHandleChunked_part` while the
empty chunk is missing, `mgHandleChunked_whole` when it is there.
-/

namespace CppCode.Mongoose

open Library

/-! ## One chunk -/

/-- The digits of a numeral are hexadecimal digits with their values. -/
theorem hexDigit_hexByte :
    ∀ digit < 16, isxdigit (hexByte digit) = true ∧ hexDigit (hexByte digit) = digit := by
  decide

/-- The value of a numeral is its number. -/
theorem hexValue_hexadecimal (value : Nat) : hexValue (hexadecimal value) = value :=
  foldl_hexadecimal (fun digit small => (hexDigit_hexByte digit small).2) value

/-- A chunk that was found is found whatever follows it. -/
theorem mgHttpParseChunk_append {platform : Platform} {buf : Bytes} {chunk : Chunk}
    (found : mgHttpParseChunk platform buf = some chunk) (more : Bytes) :
    mgHttpParseChunk platform (buf ++ more) = some chunk := by
  simp only [mgHttpParseChunk] at found
  split_ifs at found with first last
  obtain rfl := Option.some.inj found
  simp only [not_or, not_not] at first last
  have longer : ∀ {i : Nat} {byte : UInt8}, buf[i]? = some byte →
      (buf ++ more)[i]? = some byte := by
    intro i byte held
    obtain ⟨inside, -⟩ := List.getElem?_eq_some_iff.mp held
    rwa [List.getElem?_append_left inside]
  have digits : (buf ++ more).takeWhile isxdigit = buf.takeWhile isxdigit := by
    obtain ⟨inside, -⟩ := List.getElem?_eq_some_iff.mp first.2.1
    rw [List.takeWhile_append, if_neg (ne_of_lt inside)]
  simp only [mgHttpParseChunk, digits]
  rw [if_neg, if_neg]
  · simp only [not_or, not_not]
    exact ⟨last.1, longer last.2.1, longer last.2.2⟩
  · simp only [not_or, not_not]
    exact ⟨first.1, longer first.2.1, longer first.2.2⟩

/-- The chunk of some data, by offsets from its first byte. -/
def chunkIn (data : Bytes) : Chunk :=
  ⟨(chunkOf data).length, (hexadecimal data.length).length + 2, data.length⟩

/-- A whole chunk is found. -/
theorem mgHttpParseChunk_chunkOf {platform : Platform} {data : Bytes}
    (small : (chunkOf data).length < 2 ^ platform.bits) (rest : Bytes) :
    mgHttpParseChunk platform (chunkOf data ++ rest) = some (chunkIn data) := by
  apply mgHttpParseChunk_append
  have length := length_chunkOf data
  have present := List.length_pos_iff.mpr (hexadecimal_ne_nil data.length)
  have shape : chunkOf data = hexadecimal data.length ++ (crlf ++ (data ++ crlf)) := by
    simp only [chunkOf, List.append_assoc]
  have digits : (chunkOf data).takeWhile isxdigit = hexadecimal data.length := by
    have every : ∀ byte ∈ hexadecimal data.length, isxdigit byte = true := by
      intro byte member
      obtain ⟨digit, bound, rfl⟩ := hexadecimal_digit data.length byte member
      exact (hexDigit_hexByte digit bound).1
    rw [shape, List.takeWhile_append_of_pos every]
    exact (List.append_right_eq_self).mpr (List.takeWhile_cons_of_neg (by decide))
  have number : hexValue (hexadecimal data.length) % 2 ^ platform.bits = data.length := by
    rw [hexValue_hexadecimal, Nat.mod_eq_of_lt (by omega)]
  have stop : platform.add ((hexadecimal data.length).length + 2) data.length =
      (hexadecimal data.length).length + 2 + data.length := Nat.mod_eq_of_lt (by omega)
  have line : ∀ i, (chunkOf data)[(hexadecimal data.length).length + i]? =
      (crlf ++ (data ++ crlf))[i]? := by
    intro i
    rw [shape, List.getElem?_append_right (Nat.le_add_right _ _), Nat.add_sub_cancel_left]
  have ending : ∀ i, (chunkOf data)[(hexadecimal data.length).length + 2 + data.length + i]? =
      crlf[i]? := by
    intro i
    have place : 2 + (data.length + i) = crlf.length + (data.length + i) := rfl
    rw [Nat.add_assoc, Nat.add_assoc, line, place, List.getElem?_append_right (by omega),
      Nat.add_sub_cancel_left, List.getElem?_append_right (by omega), Nat.add_sub_cancel_left]
  simp only [mgHttpParseChunk, digits, number, stop]
  rw [if_neg, if_neg]
  · simp only [chunkIn, Option.some.injEq, Chunk.mk.injEq, and_true]
    omega
  · simp only [not_or, not_not]
    exact ⟨by omega, ending 0, ending 1⟩
  · simp only [not_or, not_not]
    exact ⟨by omega, line 0, line 1⟩

/-- A part of a chunk is not found. -/
theorem mgHttpParseChunk_part {platform : Platform} {data part left : Bytes}
    (small : (chunkOf data).length < 2 ^ platform.bits) (split : chunkOf data = part ++ left)
    (missing : left ≠ []) : mgHttpParseChunk platform part = none := by
  by_contra found
  obtain ⟨chunk, found⟩ := Option.ne_none_iff_exists'.mp found
  have length := congrArg List.length split
  have positive := List.length_pos_iff.mpr missing
  rw [List.length_append] at length
  obtain ⟨-, inside, -⟩ := mgHttpParseChunk_inside found (by omega)
  have whole := mgHttpParseChunk_append found left
  rw [← split, ← List.append_nil (chunkOf data), mgHttpParseChunk_chunkOf small] at whole
  obtain rfl := Option.some.inj whole
  simp only [chunkIn] at inside
  omega

/-! ## Decoding -/

/-- What the complete chunks at the beginning of some bytes hold. -/
structure Unchunked where
  /-- Their data, behind the body that was there before. -/
  body : Bytes
  /-- What follows them. -/
  rest : Bytes
  /-- The empty chunk is among them. -/
  last : Bool
  deriving DecidableEq, Repr

/-- The complete chunks at the beginning of some bytes, up to the empty one, `none` when the data of
one of them ends behind the bytes. Every round takes at least a byte. -/
def unchunk (platform : Platform) : Nat → Bytes → Bytes → Option Unchunked
  | 0, body, rest => some ⟨body, rest, false⟩
  | fuel + 1, body, rest =>
    match mgHttpParseChunk platform rest with
    | none => some ⟨body, rest, false⟩
    | some chunk =>
      if rest.length < chunk.data + chunk.dataLen then none
      else if chunk.dataLen = 0 then some ⟨body, rest.drop chunk.size, true⟩
      else unchunk platform fuel (body ++ (rest.drop chunk.data).take chunk.dataLen)
        (rest.drop chunk.size)

/-- More fuel than there are bytes does not change what is decoded. -/
theorem unchunk_fuel {platform : Platform} {fuel : Nat} {body rest : Bytes}
    (enough : rest.length < fuel) :
    unchunk platform (fuel + 1) body rest = unchunk platform fuel body rest := by
  induction fuel generalizing body rest with
  | zero => omega
  | succ fuel ih =>
    rw [unchunk, unchunk]
    cases found : mgHttpParseChunk platform rest with
    | none => rfl
    | some chunk =>
      obtain ⟨positive, inside⟩ := mgHttpParseChunk_size found
      have shorter : (rest.drop chunk.size).length < fuel := by
        rw [List.length_drop]
        omega
      simp only [ih shorter]

/-- Any two amounts of fuel above the number of bytes decode the same. -/
theorem unchunk_enough {platform : Platform} {fuel other : Nat} {body rest : Bytes}
    (enough : rest.length < fuel) (also : rest.length < other) :
    unchunk platform fuel body rest = unchunk platform other body rest := by
  have least : ∀ {fuel}, rest.length < fuel →
      unchunk platform fuel body rest = unchunk platform (rest.length + 1) body rest := by
    intro fuel more
    induction fuel, more using Nat.le_induction with
    | base => rfl
    | succ fuel more ih => rw [unchunk_fuel more, ih]
  rw [least enough, least also]

/-- What follows the chunks is not longer than the bytes. -/
theorem unchunk_shorter {platform : Platform} {fuel : Nat} {body rest : Bytes} {r : Unchunked}
    (decoded : unchunk platform fuel body rest = some r) : r.rest.length ≤ rest.length := by
  induction fuel generalizing body rest with
  | zero =>
    obtain rfl := Option.some.inj decoded
    exact le_refl _
  | succ fuel ih =>
    rw [unchunk] at decoded
    split at decoded
    · obtain rfl := Option.some.inj decoded
      exact le_refl _
    · split_ifs at decoded with past empty
      · obtain rfl := Option.some.inj decoded
        exact (List.drop_sublist _ _).length_le
      · exact le_trans (ih decoded) (List.drop_sublist _ _).length_le

/-- Chunks that come in pieces: what is decoded goes on from what was decoded before. -/
theorem unchunk_append {platform : Platform} {fuel : Nat} {body rest more : Bytes} {r : Unchunked}
    (decoded : unchunk platform fuel body rest = some r) (unfinished : r.last = false)
    {long : Nat} (enough : (rest ++ more).length < long) :
    unchunk platform long body (rest ++ more) = unchunk platform long r.body (r.rest ++ more) := by
  induction fuel generalizing body rest long with
  | zero =>
    obtain rfl := Option.some.inj decoded
    rfl
  | succ fuel ih =>
    obtain ⟨long, rfl⟩ : ∃ before, long = before + 1 := ⟨long - 1, by omega⟩
    rw [unchunk] at decoded
    cases found : mgHttpParseChunk platform rest with
    | none =>
      rw [found] at decoded
      obtain rfl := Option.some.inj decoded
      rfl
    | some chunk =>
      rw [found] at decoded
      simp only at decoded
      obtain ⟨positive, inside⟩ := mgHttpParseChunk_size found
      split_ifs at decoded with past empty
      · obtain rfl := Option.some.inj decoded
        simp at unfinished
      · have shorter : (rest.drop chunk.size ++ more).length < long := by
          simp only [List.length_append, List.length_drop] at enough ⊢
          omega
        have data : ((rest ++ more).drop chunk.data).take chunk.dataLen =
            (rest.drop chunk.data).take chunk.dataLen := by
          rw [List.drop_append_of_le_length (by omega),
            List.take_append_of_le_length (by rw [List.length_drop]; omega)]
        have within : ¬(rest ++ more).length < chunk.data + chunk.dataLen := by
          rw [List.length_append]
          omega
        conv_lhs => rw [unchunk, mgHttpParseChunk_append found more]
        simp only [if_neg within, if_neg empty, data, List.drop_append_of_le_length inside]
        have left := unchunk_shorter decoded
        rw [ih decoded shorter, unchunk_fuel]
        simp only [List.length_append] at left shorter ⊢
        omega

/-! ## The loop -/

/-- The body so far, and what follows the chunks that were collapsed. -/
structure Traversal.Holds (t : Traversal) (body rest : Bytes) : Prop where
  /-- The body is in front. -/
  front : t.buf.take t.bodyLen = body
  /-- Its length is known. -/
  count : t.bodyLen = body.length
  /-- The next chunk is behind it. -/
  behind : t.bodyLen ≤ t.i
  /-- What follows. -/
  ahead : t.buf.drop t.i = rest

/-- The body of the loop moves the data of a chunk to the body, when it is there. -/
theorem collapse_chunk {t : Traversal} {body rest : Bytes} {chunk : Chunk}
    (holds : t.Holds body rest) (inside : chunk.size ≤ rest.length)
    (unwrapped : chunk.data + chunk.dataLen ≤ rest.length → chunk.dataLen < chunk.size) :
    (rest.length < chunk.data + chunk.dataLen → collapse t chunk = none) ∧
      (chunk.data + chunk.dataLen ≤ rest.length → ∃ next, collapse t chunk = some next ∧
        next.Holds (body ++ (rest.drop chunk.data).take chunk.dataLen) (rest.drop chunk.size) ∧
        next.bodyLen < next.i ∧ next.zeroChunkReceived = decide (chunk.dataLen = 0)) := by
  obtain ⟨front, count, behind, ahead⟩ := holds
  have size := congrArg List.length ahead
  have room := congrArg List.length front
  rw [List.length_drop] at size
  rw [List.length_take] at room
  unfold collapse
  constructor
  · intro past
    rw [if_pos (by omega)]
  · intro whole
    have shorter := unwrapped whole
    have moved : t.buf.drop (t.i + chunk.data) = rest.drop chunk.data := by
      rw [← List.drop_drop, ahead]
    have data : ((rest.drop chunk.data).take chunk.dataLen).length = chunk.dataLen := by
      rw [List.length_take, List.length_drop]
      omega
    refine ⟨_, by rw [if_neg (by omega), moved, front], ⟨?_, ?_, ?_, ?_⟩, ?_, rfl⟩
    · simp only [count]
      exact List.take_left' (by rw [List.length_append, data])
    · simp only [count, List.length_append, data]
    · simp only
      omega
    · have later : t.bodyLen + chunk.dataLen + (t.i + chunk.size -
          (body ++ (rest.drop chunk.data).take chunk.dataLen).length) = t.i + chunk.size := by
        rw [List.length_append, data]
        omega
      simp only
      rw [List.drop_append, List.drop_eq_nil_of_le (by rw [List.length_append, data]; omega),
        List.nil_append, List.drop_drop, later, ← List.drop_drop, ahead]
    · simp only
      omega

/-- The body of the loop moves the data of a chunk that a sender codes. -/
theorem collapse_holds {t : Traversal} {body data rest : Bytes}
    (holds : t.Holds body (chunkOf data ++ rest)) :
    ∃ next, collapse t (chunkIn data) = some next ∧ next.Holds (body ++ data) rest ∧
      next.bodyLen < next.i ∧ next.zeroChunkReceived = decide (data.length = 0) := by
  have chunk := length_chunkOf data
  have line : chunkOf data ++ rest =
      (hexadecimal data.length ++ crlf) ++ (data ++ (crlf ++ rest)) := by
    simp only [chunkOf, List.append_assoc]
  have place : (chunkIn data).data = (hexadecimal data.length ++ crlf).length := by
    simp [chunkIn]
  have moved : ((chunkOf data ++ rest).drop (chunkIn data).data).take (chunkIn data).dataLen =
      data := by
    rw [line, place, List.drop_left]
    exact List.take_left
  have size : (chunkIn data).size = (chunkOf data).length := rfl
  have length : (chunkIn data).data = (hexadecimal data.length).length + 2 := rfl
  have count : (chunkIn data).dataLen = data.length := rfl
  obtain ⟨next, collapsed, settled, past, zero⟩ :=
    (@collapse_chunk t body _ (chunkIn data) holds (by rw [List.length_append]; omega)
      fun _ => by omega).2 (by
      rw [List.length_append]
      omega)
  rw [moved] at settled
  refine ⟨next, collapsed, ?_, past, zero⟩
  rwa [show (chunkOf data ++ rest).drop (chunkIn data).size = rest from List.drop_left] at settled

/-- The loop moves the data of chunks that are whole and not empty to the body, and goes on behind
them. -/
theorem traverse_coded {platform : Platform} {t : Traversal} {body rest : Bytes}
    {datas : List Bytes} (holds : t.Holds body (coded datas ++ rest))
    (present : ∀ data ∈ datas, data ≠ []) (small : (coded datas).length < 2 ^ platform.bits)
    (fresh : t.zeroChunkReceived = false) :
    ∃ next, next.Holds (body ++ datas.flatten) rest ∧ next.zeroChunkReceived = false ∧
      (datas = [] ∧ next = t ∨ next.bodyLen < next.i) ∧
      ∀ fuel, traverse platform (datas.length + fuel) t = traverse platform fuel next := by
  induction datas generalizing t body with
  | nil =>
    refine ⟨t, ?_, fresh, .inl ⟨rfl, rfl⟩, fun fuel => by rw [List.length_nil, Nat.zero_add]⟩
    rwa [List.flatten_nil, List.append_nil]
  | cons data datas ih =>
    rw [coded_cons, List.length_append] at small
    rw [coded_cons, List.append_assoc] at holds
    obtain ⟨next, collapsed, held, past, zero⟩ := collapse_holds holds
    have goesOn : next.zeroChunkReceived = false := by
      rw [zero, decide_eq_false_iff_not, List.length_eq_zero_iff]
      exact present data List.mem_cons_self
    obtain ⟨final, settled, last, moved, goes⟩ :=
      ih held (fun other member => present other (List.mem_cons_of_mem data member)) (by omega)
        goesOn
    refine ⟨final, ?_, last, .inr ?_, fun fuel => ?_⟩
    · rwa [List.flatten_cons, ← List.append_assoc]
    · rcases moved with ⟨-, rfl⟩ | moved
      · exact past
      · exact moved
    · have found := @mgHttpParseChunk_chunkOf platform data (by omega) (coded datas ++ rest)
      rw [← holds.ahead] at found
      have count : (data :: datas).length + fuel = (datas.length + fuel) + 1 := by
        rw [List.length_cons]
        omega
      rw [count, traverse, found]
      simp only [collapsed, Option.bind_some, goesOn, Bool.false_eq_true, if_false]
      exact goes fuel

/-- The loop decodes the chunks that follow the body. -/
theorem traverse_unchunk {platform : Platform} {fuel : Nat} {t : Traversal} {body rest : Bytes}
    (holds : t.Holds body rest) (held : rest.length < 2 ^ platform.bits)
    (fresh : t.zeroChunkReceived = false) :
    (unchunk platform fuel body rest = none → traverse platform fuel t = none) ∧
      ∀ r, unchunk platform fuel body rest = some r →
        ∃ final, traverse platform fuel t = some final ∧
        final.Holds r.body r.rest ∧ final.zeroChunkReceived = r.last ∧
        (final = t ∨ final.bodyLen < final.i) := by
  induction fuel generalizing t body rest with
  | zero =>
    refine ⟨by simp [unchunk], fun r decoded => ?_⟩
    obtain rfl := Option.some.inj decoded
    exact ⟨t, rfl, holds, fresh, .inl rfl⟩
  | succ fuel ih =>
    rw [unchunk, traverse, holds.ahead]
    cases found : mgHttpParseChunk platform rest with
    | none =>
      refine ⟨by simp, fun r decoded => ?_⟩
      obtain rfl := Option.some.inj decoded
      exact ⟨t, rfl, holds, fresh, .inl rfl⟩
    | some chunk =>
      obtain ⟨positive, inside, unwrapped⟩ := mgHttpParseChunk_inside found held
      obtain ⟨stops, goesOn⟩ := collapse_chunk holds inside unwrapped
      simp only
      by_cases past : rest.length < chunk.data + chunk.dataLen
      · refine ⟨fun _ => by rw [stops past, Option.bind_none], fun r decoded => ?_⟩
        rw [if_pos past] at decoded
        contradiction
      · obtain ⟨next, collapsed, settled, moved, zero⟩ := goesOn (not_lt.mp past)
        rw [if_neg past, collapsed, Option.bind_some]
        by_cases empty : chunk.dataLen = 0
        · rw [if_pos empty, if_pos (by rw [zero, decide_eq_true empty])]
          refine ⟨by simp, fun r decoded => ?_⟩
          obtain rfl := Option.some.inj decoded
          simp only [empty, List.take_zero, List.append_nil] at settled
          exact ⟨next, rfl, settled, by rw [zero, decide_eq_true empty], .inr moved⟩
        · have unfinished : next.zeroChunkReceived = false := by rw [zero, decide_eq_false empty]
          rw [if_neg empty, if_neg (by simp [unfinished])]
          obtain ⟨none, some⟩ := ih settled (by rw [List.length_drop]; omega) unfinished
          refine ⟨none, fun r decoded => ?_⟩
          obtain ⟨final, done, last, final_zero, further⟩ := some r decoded
          refine ⟨final, done, last, final_zero, .inr ?_⟩
          rcases further with rfl | further
          · exact moved
          · exact further

/-! ## One call -/

/-- The traversal starts behind the body that was reassembled earlier. -/
theorem start_holds (body rest : Bytes) :
    (⟨body ++ rest, body.length, body.length, false⟩ : Traversal).Holds body rest :=
  ⟨List.take_left, rfl, le_refl _, List.drop_left⟩

section
variable {platform : Platform} {stray : Bool} {body rest : Bytes} {datas : List Bytes}
  {t : Traversal}

/-- The loop can take another chunk behind those that are whole. -/
theorem enough_fuel (body rest : Bytes) (datas : List Bytes) :
    ∃ more, (body ++ (coded datas ++ rest)).length + 1 = datas.length + (more + 1) := by
  have count := length_le_coded datas
  refine ⟨(body ++ (coded datas ++ rest)).length - datas.length, ?_⟩
  simp only [List.length_append]
  omega

/-- When the loop moves past the body, a call keeps what follows the chunks behind the body, and
the message gets the length of the body. -/
theorem mgHandleChunked_moved (head : Bytes) (hm : HttpMessage) (behind : t.bodyLen < t.i)
    (holds : t.Holds (body ++ datas.flatten) rest)
    (done : traverse platform ((body ++ (coded datas ++ rest)).length + 1)
      ⟨body ++ (coded datas ++ rest), body.length, body.length, false⟩ = some t) :
    mgHandleChunked platform stray (head ++ (body ++ (coded datas ++ rest))) head.length body.length
        hm =
      some (head ++ (body ++ datas.flatten ++ rest), (body ++ datas.flatten).length,
        { hm with
          body := { hm.body with len := (body ++ datas.flatten).length }
          message := { hm.message with
            len := if t.zeroChunkReceived then
                (body ++ datas.flatten).length + rest.length + head.length
              else hm.message.len } }) := by
  have kept : ¬(body ++ (coded datas ++ rest)).length < body.length := by
    rw [List.length_append]
    omega
  simp only [mgHandleChunked, List.drop_left, List.take_left, if_neg kept, done, Option.map_some,
    holds.ahead]
  rw [if_pos behind, holds.front, holds.count, List.append_assoc head]

/-- A call before the empty chunk is there moves the chunks that are whole, and leaves the length of
the message as it is. -/
theorem mgHandleChunked_part {next part left : Bytes} (head : Bytes) (hm : HttpMessage)
    (present : ∀ data ∈ datas, data ≠ []) (small : (coded datas).length < 2 ^ platform.bits)
    (short : (chunkOf next).length < 2 ^ platform.bits) (split : chunkOf next = part ++ left)
    (missing : left ≠ []) :
    ∃ after, mgHandleChunked platform stray (head ++ (body ++ (coded datas ++ part))) head.length
        body.length hm =
          some (head ++ (body ++ datas.flatten ++ part), (body ++ datas.flatten).length, after) ∧
      after.headers = hm.headers ∧ after.message = hm.message := by
  have none := mgHttpParseChunk_part short split missing
  obtain ⟨final, holds, zero, moved, goes⟩ :=
    traverse_coded (start_holds body (coded datas ++ part)) present small rfl
  rcases moved with ⟨rfl, -⟩ | behind
  · -- nothing is whole, and nothing changes
    refine ⟨hm, ?_, rfl, rfl⟩
    have without : ¬HasChunk platform (head ++ (body ++ (coded [] ++ part))) head.length
        body.length := by
      simp only [HasChunk, List.drop_left]
      change ¬(mgHttpParseChunk platform part).isSome = true
      simp [none]
    have held : ¬Lost platform stray (head ++ (body ++ (coded [] ++ part))) head.length
        body.length := by
      intro lost
      have shorter := lost.1
      simp only [List.length_append] at shorter
      omega
    rw [mgHandleChunked_none without held]
    simp [coded]
  · have stops : ∀ fuel, traverse platform (fuel + 1) final = some final := by
      intro fuel
      rw [traverse, holds.ahead, none]
    obtain ⟨more, enough⟩ := enough_fuel body part datas
    have done := (goes (more + 1)).trans (stops more)
    rw [← enough] at done
    refine ⟨_, mgHandleChunked_moved head hm behind holds done, rfl, ?_⟩
    simp only [zero, Bool.false_eq_true, if_false]

/-- The call that finds the empty chunk completes the body. -/
theorem mgHandleChunked_whole (head : Bytes) (hm : HttpMessage)
    (present : ∀ data ∈ datas, data ≠ [])
    (small : (coded (datas ++ [[]])).length < 2 ^ platform.bits) :
    ∃ after, mgHandleChunked platform stray (head ++ (body ++ coded (datas ++ [[]]))) head.length
        body.length hm =
          some (head ++ (body ++ datas.flatten), (body ++ datas.flatten).length, after) ∧
      after.headers = hm.headers ∧
      after.message.len = head.length + (body ++ datas.flatten).length ∧
      after.body = ⟨hm.body.p, (body ++ datas.flatten).length⟩ := by
  have last : coded (datas ++ [[]]) = coded datas ++ chunkOf [] := by
    rw [coded_append, coded_cons]
    exact congrArg _ (List.append_nil _)
  have flat : (datas ++ [[]]).flatten = datas.flatten := by simp
  rw [last, List.length_append] at small
  have fits : (coded datas).length < 2 ^ platform.bits := by omega
  obtain ⟨middle, holds, -, -, goes⟩ :=
    traverse_coded (start_holds body (coded datas ++ chunkOf [])) present fits rfl
  have found := @mgHttpParseChunk_chunkOf platform [] (by omega) []
  obtain ⟨final, collapsed, held, behind, zero⟩ := @collapse_holds middle _ [] [] (by
    rwa [List.append_nil])
  rw [List.append_nil] at held found
  have stops : ∀ fuel, traverse platform (fuel + 1) middle = some final := by
    intro fuel
    rw [traverse, holds.ahead, found]
    simp only [collapsed, Option.bind_some, zero]
    rfl
  obtain ⟨more, enough⟩ := enough_fuel body (chunkOf []) datas
  have done := (goes (more + 1)).trans (stops more)
  rw [← enough] at done
  have moved := @mgHandleChunked_moved platform stray body [] (datas ++ [[]]) final head hm behind
    (by rwa [flat]) (by rwa [List.append_nil, last])
  rw [List.append_nil, flat, List.append_nil] at moved
  refine ⟨_, moved, rfl, ?_, rfl⟩
  simp only [zero, List.length_nil, decide_true, if_true]
  omega

/-- A call on a buffer that holds the whole body so far decodes the chunks behind it. -/
theorem mgHandleChunked_unchunk {block : Bytes} (hm : HttpMessage)
    (held : (body ++ rest).length < 2 ^ platform.bits) :
    (unchunk platform (rest.length + 1) body rest = none →
      mgHandleChunked platform stray (block ++ (body ++ rest)) block.length body.length hm = none) ∧
      ∀ r, unchunk platform (rest.length + 1) body rest = some r → ∃ after,
        mgHandleChunked platform stray (block ++ (body ++ rest)) block.length body.length hm =
            some (block ++ (r.body ++ r.rest), r.body.length, after) ∧
          after.headers = hm.headers ∧
          after.message.len =
            if r.last then block.length + (r.body ++ r.rest).length else hm.message.len := by
  have small : rest.length < 2 ^ platform.bits := by
    rw [List.length_append] at held
    omega
  have fuel : unchunk platform (rest.length + 1) body rest =
      unchunk platform ((body ++ rest).length + 1) body rest :=
    unchunk_enough (by omega) (by rw [List.length_append]; omega)
  have kept : ¬(body ++ rest).length < body.length := by
    rw [List.length_append]
    omega
  obtain ⟨stops, goesOn⟩ := @traverse_unchunk platform ((body ++ rest).length + 1) _ body rest
    (start_holds body rest) small rfl
  rw [fuel]
  simp only [mgHandleChunked, List.drop_left, List.take_left, if_neg kept]
  refine ⟨fun none => by rw [stops none, Option.map_none], fun r decoded => ?_⟩
  obtain ⟨final, done, holds, last, moved⟩ := goesOn r decoded
  rw [done, Option.map_some]
  by_cases behind : final.bodyLen < final.i
  · rw [if_pos behind, holds.front, holds.count, holds.ahead, last, List.append_assoc]
    refine ⟨_, rfl, rfl, ?_⟩
    rw [List.length_append, Nat.add_comm block.length]
  · -- no chunk is complete, and nothing changes
    obtain rfl := moved.resolve_right behind
    have front := holds.front
    have ahead := holds.ahead
    simp only [List.take_left, List.drop_left] at front ahead
    rw [if_neg behind, ← last, ← front, ← ahead]
    exact ⟨hm, rfl, rfl, rfl⟩

end

end CppCode.Mongoose
