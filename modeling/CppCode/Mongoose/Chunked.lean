import CppCode.Mongoose.Headers

/-!
# Chunked bodies

`mg_http_parse_chunk` and `mg_handle_chunked`, on the bytes after the header block. The chunk length
is a `size_t` that a peer can make as large as it likes, and the index of the end of the chunk wraps
with it. A chunk length can be so large that the index of the end wraps back onto the first line end
of the chunk, and `memmove` is called with that length, which is `none` here. A second message on
the connection can be shorter than the bytes that were reassembled for the first. The assertion that
they are still there then stops the program, and without it the next chunk is looked for behind the
bytes in use, so whether one stands there is an argument: when it does, the length of the rest
wraps, and `memmove` is called with it; when it does not, nothing happens. Otherwise the chunks that
are complete are collapsed to the front, and `mgHandleChunked_inside` says that the body is then
inside of the buffer.
-/

namespace CppCode.Mongoose

open Library

/-- The value of a hexadecimal digit. -/
def hexDigit (byte : UInt8) : Nat :=
  if isDigit byte then byte.toNat - 48 else (tolower byte).toNat - 97 + 10

/-- The number that hexadecimal digits denote. -/
def hexValue (digits : Bytes) : Nat :=
  digits.foldl (fun value byte => value * 16 + hexDigit byte) 0

/-- A chunk, by offsets from its first byte. -/
structure Chunk where
  /-- Bytes of the chunk with its lines. -/
  size : Nat
  /-- Where the data begins. -/
  data : Nat
  /-- Length of the data. -/
  dataLen : Nat
  deriving DecidableEq, Repr

/-- `mg_http_parse_chunk`, `none` when it returns 0. The end of the data is computed in `size_t`;
the two values for which the test of the last line end wraps as well give 0 in either case. -/
def mgHttpParseChunk (platform : Platform) (buf : Bytes) : Option Chunk :=
  let digits := buf.takeWhile isxdigit
  let n := hexValue digits % 2 ^ platform.bits
  let i := digits.length
  if i = 0 ∨ buf[i]? ≠ some cr ∨ buf[i + 1]? ≠ some lf then none
  else
    let stop := platform.add (i + 2) n
    if stop = 0 ∨ buf[stop]? ≠ some cr ∨ buf[stop + 1]? ≠ some lf then none
    else some ⟨stop + 2, i + 2, n⟩

/-- The variables of the loop of `mg_handle_chunked`. -/
structure Traversal where
  /-- The bytes after the header block. -/
  buf : Bytes
  /-- Offset of the next chunk. -/
  i : Nat
  /-- Bytes of the body so far. -/
  bodyLen : Nat
  /-- `zero_chunk_received`. -/
  zeroChunkReceived : Bool := false
  deriving DecidableEq, Repr

/-- The body of the loop for a chunk, `none` when `memmove` reads past the buffer. -/
def collapse (t : Traversal) (chunk : Chunk) : Option Traversal :=
  if t.i + chunk.data + chunk.dataLen > t.buf.length then none
  else some {
    buf := t.buf.take t.bodyLen ++ (t.buf.drop (t.i + chunk.data)).take chunk.dataLen ++
      t.buf.drop (t.bodyLen + chunk.dataLen)
    i := t.i + chunk.size
    bodyLen := t.bodyLen + chunk.dataLen
    zeroChunkReceived := chunk.dataLen = 0 }

/-- The loop of `mg_handle_chunked`. -/
def traverse (platform : Platform) : Nat → Traversal → Option Traversal
  | 0, t => some t
  | fuel + 1, t =>
    match mgHttpParseChunk platform (t.buf.drop t.i) with
    | none => some t
    | some chunk =>
      (collapse t chunk).bind fun t =>
        if t.zeroChunkReceived then some t else traverse platform fuel t

/-- `mg_handle_chunked` on a buffer with a header block of length `len` and the value of
`chunk.body_len`, which it returns: the buffer without the bytes around the collapsed chunks, and
the message. The handlers ignore `MG_EV_HTTP_CHUNK`, so no data is deleted. When the body ends
behind the bytes in use, `stray` says whether a chunk stands there. -/
def mgHandleChunked (platform : Platform) (stray : Bool) (buf : Bytes) (len chunkBodyLen : Nat)
    (hm : HttpMessage) : Option (Bytes × Nat × HttpMessage) :=
  let region := buf.drop len
  if region.length < chunkBodyLen then
    -- `assert(blen >= body_len)`, and without it a `memmove` of `blen - i` bytes behind a chunk
    if platform.ndebug = false ∨ stray then none else some (buf, chunkBodyLen, hm)
  else
    (traverse platform (region.length + 1) ⟨region, chunkBodyLen, chunkBodyLen, false⟩).map
      fun t =>
        if t.i > t.bodyLen then
          let rest := t.buf.drop t.i
          (buf.take len ++ t.buf.take t.bodyLen ++ rest, t.bodyLen,
            { hm with
              body := { hm.body with len := t.bodyLen }
              message := { hm.message with
                len := if t.zeroChunkReceived then t.bodyLen + rest.length + len
                  else hm.message.len } })
        else (buf, chunkBodyLen, hm)

/-- A chunk lies inside of the buffer with its lines. -/
theorem mgHttpParseChunk_size {platform : Platform} {buf : Bytes} {chunk : Chunk}
    (found : mgHttpParseChunk platform buf = some chunk) :
    0 < chunk.size ∧ chunk.size ≤ buf.length := by
  simp only [mgHttpParseChunk] at found
  split_ifs at found with first last
  obtain rfl := Option.some.inj found
  have ends : buf[platform.add ((buf.takeWhile isxdigit).length + 2)
      (hexValue (buf.takeWhile isxdigit) % 2 ^ platform.bits) + 1]? = some lf := by
    by_contra other
    exact last (.inr (.inr other))
  obtain ⟨inside, -⟩ := List.getElem?_eq_some_iff.mp ends
  exact ⟨by simp, inside⟩

/-- The data of a chunk is inside of it unless its length made the index of its end wrap. -/
theorem mgHttpParseChunk_inside {platform : Platform} {buf : Bytes} {chunk : Chunk}
    (found : mgHttpParseChunk platform buf = some chunk) (held : buf.length < 2 ^ platform.bits) :
    0 < chunk.size ∧ chunk.size ≤ buf.length ∧
      (chunk.data + chunk.dataLen ≤ buf.length → chunk.dataLen < chunk.size) := by
  obtain ⟨positive, inside⟩ := mgHttpParseChunk_size found
  refine ⟨positive, inside, ?_⟩
  simp only [mgHttpParseChunk] at found
  split_ifs at found with first last
  obtain rfl := Option.some.inj found
  intro whole
  simp only at whole ⊢
  have unwrapped := Nat.mod_eq_of_lt (lt_of_le_of_lt whole held)
  simp only [Platform.add]
  omega

/-! ## The loop -/

/-- The traversal of a region: the body so far is in front of the next chunk. -/
structure Traversal.Inside (t : Traversal) (blen : Nat) : Prop where
  /-- The region keeps its size. -/
  length : t.buf.length = blen
  /-- The body is behind. -/
  body : t.bodyLen ≤ t.i
  /-- The next chunk is not past the end. -/
  next : t.i ≤ blen

/-- The body of the loop keeps the traversal inside and moves past the data. -/
theorem collapse_inside {platform : Platform} {t next : Traversal} {chunk : Chunk} {blen : Nat}
    (inside : t.Inside blen) (held : blen < 2 ^ platform.bits)
    (found : mgHttpParseChunk platform (t.buf.drop t.i) = some chunk)
    (taken : collapse t chunk = some next) :
    next.Inside blen ∧ t.i < next.i ∧ next.bodyLen < next.i := by
  have length := inside.length
  have body := inside.body
  have shorter : (t.buf.drop t.i).length < 2 ^ platform.bits := by
    rw [List.length_drop]
    omega
  obtain ⟨positive, fits, unwrapped⟩ := mgHttpParseChunk_inside found shorter
  rw [List.length_drop] at fits unwrapped
  unfold collapse at taken
  split_ifs at taken with past
  obtain rfl := Option.some.inj taken
  have data := unwrapped (by omega)
  refine ⟨⟨?_, ?_, ?_⟩, ?_, ?_⟩
  · simp only [List.length_append, List.length_take, List.length_drop]
    omega
  all_goals
    simp only
    omega

/-- The loop keeps the traversal inside, and moves past the body when there is a chunk. -/
theorem traverse_inside {platform : Platform} {fuel blen : Nat} {t final : Traversal}
    (inside : t.Inside blen) (held : blen < 2 ^ platform.bits)
    (done : traverse platform fuel t = some final) :
    final.Inside blen ∧ (t.bodyLen < t.i → final.bodyLen < final.i) := by
  induction fuel generalizing t with
  | zero =>
    obtain rfl := Option.some.inj done
    exact ⟨inside, id⟩
  | succ fuel ih =>
    rw [traverse] at done
    cases found : mgHttpParseChunk platform (t.buf.drop t.i) with
    | none =>
      rw [found] at done
      obtain rfl := Option.some.inj done
      exact ⟨inside, id⟩
    | some chunk =>
      rw [found] at done
      obtain ⟨next, taken, rest⟩ := Option.bind_eq_some_iff.mp done
      obtain ⟨kept, -, past⟩ := collapse_inside inside held found taken
      split_ifs at rest with zero
      · obtain rfl := Option.some.inj rest
        exact ⟨kept, fun _ => past⟩
      · obtain ⟨last, later⟩ := ih kept rest
        exact ⟨last, fun _ => later past⟩

/-- More fuel than there are bytes left does not change what the loop does. -/
theorem traverse_fuel {platform : Platform} {fuel blen : Nat} {t : Traversal}
    (inside : t.Inside blen) (held : blen < 2 ^ platform.bits) (enough : blen - t.i < fuel) :
    traverse platform (fuel + 1) t = traverse platform fuel t := by
  induction fuel generalizing t with
  | zero => omega
  | succ fuel ih =>
    rw [traverse, traverse]
    cases found : mgHttpParseChunk platform (t.buf.drop t.i) with
    | none => rfl
    | some chunk =>
      simp only
      cases taken : collapse t chunk with
      | none => rfl
      | some next =>
        obtain ⟨kept, forward, -⟩ := collapse_inside inside held found taken
        have last := kept.next
        simp only [Option.bind_some, ih kept (by omega)]

/-- Whether the bytes after a header block continue with a complete chunk. -/
def HasChunk (platform : Platform) (buf : Bytes) (len chunkBodyLen : Nat) : Prop :=
  (mgHttpParseChunk platform ((buf.drop len).drop chunkBodyLen)).isSome = true

instance (platform : Platform) (buf : Bytes) (len chunkBodyLen : Nat) :
    Decidable (HasChunk platform buf len chunkBodyLen) := by
  unfold HasChunk
  infer_instance

/-- Fewer bytes are there than were reassembled before, and this stops the program: by the assertion
in a Debug build, by a chunk behind the bytes in use in a Release build. -/
def Lost (platform : Platform) (stray : Bool) (buf : Bytes) (len chunkBodyLen : Nat) : Prop :=
  buf.length - len < chunkBodyLen ∧ (platform.ndebug = false ∨ stray = true)

instance (platform : Platform) (stray : Bool) (buf : Bytes) (len chunkBodyLen : Nat) :
    Decidable (Lost platform stray buf len chunkBodyLen) :=
  inferInstanceAs (Decidable (_ ∧ _))

/-- A body that is lost stops the program. -/
theorem mgHandleChunked_lost {platform : Platform} {stray : Bool} {buf : Bytes}
    {len chunkBodyLen : Nat} (lost : Lost platform stray buf len chunkBodyLen) (hm : HttpMessage) :
    mgHandleChunked platform stray buf len chunkBodyLen hm = none := by
  have short : (buf.drop len).length < chunkBodyLen := by
    rw [List.length_drop]
    exact lost.1
  simp only [mgHandleChunked, if_pos short, if_pos lost.2]

/-- Without a complete chunk nothing changes. -/
theorem mgHandleChunked_none {platform : Platform} {stray : Bool} {buf : Bytes}
    {len chunkBodyLen : Nat} (without : ¬HasChunk platform buf len chunkBodyLen)
    (kept : ¬Lost platform stray buf len chunkBodyLen) (hm : HttpMessage) :
    mgHandleChunked platform stray buf len chunkBodyLen hm = some (buf, chunkBodyLen, hm) := by
  by_cases short : (buf.drop len).length < chunkBodyLen
  · have goes : ¬(platform.ndebug = false ∨ stray = true) := fun stops =>
      kept ⟨by rwa [List.length_drop] at short, stops⟩
    simp only [mgHandleChunked, if_pos short, if_neg goes]
  · have none : mgHttpParseChunk platform ((buf.drop len).drop chunkBodyLen) = none := by
      simpa [HasChunk] using without
    simp only [mgHandleChunked, if_neg short, traverse, none, Option.map_some, gt_iff_lt,
      lt_self_iff_false, if_false]

/-- A complete chunk stands behind the body so far. -/
theorem HasChunk.behind {platform : Platform} {buf : Bytes} {len chunkBodyLen : Nat}
    (chunked : HasChunk platform buf len chunkBodyLen) : ¬(buf.drop len).length < chunkBodyLen := by
  intro short
  unfold HasChunk at chunked
  rw [List.drop_eq_nil_of_le (by omega)] at chunked
  simp [mgHttpParseChunk] at chunked

/-- With a complete chunk the body is what was collapsed, inside of the buffer that is left. -/
theorem mgHandleChunked_inside {platform : Platform} {stray : Bool} {buf : Bytes}
    {len chunkBodyLen : Nat} {hm : HttpMessage} {result : Bytes × Nat × HttpMessage}
    (block : len ≤ buf.length) (held : buf.length < 2 ^ platform.bits)
    (chunked : HasChunk platform buf len chunkBodyLen)
    (handled : mgHandleChunked platform stray buf len chunkBodyLen hm = some result) :
    result.2.2.body.p = hm.body.p ∧ len + result.2.2.body.len ≤ result.1.length ∧
      result.1.length ≤ buf.length := by
  have stale := chunked.behind
  obtain ⟨chunk, found⟩ := Option.isSome_iff_exists.mp chunked
  simp only [mgHandleChunked, if_neg stale] at handled
  obtain ⟨final, done, rfl⟩ := Option.map_eq_some_iff.mp handled
  have region : (buf.drop len).length = buf.length - len := List.length_drop
  have shorter : buf.length - len < 2 ^ platform.bits := by omega
  have start : (⟨buf.drop len, chunkBodyLen, chunkBodyLen, false⟩ : Traversal).Inside
      (buf.length - len) := ⟨region, le_refl _, by simp only; omega⟩
  rw [traverse, found] at done
  obtain ⟨next, taken, rest⟩ := Option.bind_eq_some_iff.mp done
  obtain ⟨kept, -, past⟩ := collapse_inside start shorter found taken
  obtain ⟨last, moved⟩ : final.Inside (buf.length - len) ∧ final.bodyLen < final.i := by
    split_ifs at rest with zero
    · obtain rfl := Option.some.inj rest
      exact ⟨kept, past⟩
    · obtain ⟨last, later⟩ := traverse_inside kept shorter rest
      exact ⟨last, later past⟩
  have size := last.length
  have bound := last.next
  rw [if_pos moved]
  refine ⟨rfl, ?_, ?_⟩
  · simp only [List.length_append, List.length_take, List.length_drop]
    omega
  · simp only [List.length_append, List.length_take, List.length_drop]
    omega

/-- Reassembling a body does not make the buffer longer. -/
theorem mgHandleChunked_shorter {platform : Platform} {stray : Bool} {buf : Bytes}
    {len chunkBodyLen : Nat} {hm : HttpMessage} {result : Bytes × Nat × HttpMessage}
    (block : len ≤ buf.length) (held : buf.length < 2 ^ platform.bits)
    (handled : mgHandleChunked platform stray buf len chunkBodyLen hm = some result) :
    result.1.length ≤ buf.length := by
  by_cases chunked : HasChunk platform buf len chunkBodyLen
  · exact (mgHandleChunked_inside block held chunked handled).2.2
  · by_cases lost : Lost platform stray buf len chunkBodyLen
    · rw [mgHandleChunked_lost lost] at handled
      contradiction
    · rw [mgHandleChunked_none chunked lost] at handled
      obtain rfl := Option.some.inj handled
      exact le_refl _

/-- Reassembling a body leaves the header block where it is, and the method and the URI in it. -/
theorem mgHandleChunked_front {platform : Platform} {stray : Bool} {buf : Bytes}
    {len chunkBodyLen : Nat} {hm : HttpMessage} {result : Bytes × Nat × HttpMessage}
    (block : len ≤ buf.length)
    (handled : mgHandleChunked platform stray buf len chunkBodyLen hm = some result) :
    result.1.take len = buf.take len ∧ len ≤ result.1.length ∧
      result.2.2.method = hm.method ∧ result.2.2.uri = hm.uri := by
  have front : (buf.take len).length = len := List.length_take_of_le block
  simp only [mgHandleChunked] at handled
  split_ifs at handled with short
  · obtain rfl := Option.some.inj handled
    exact ⟨rfl, block, rfl, rfl⟩
  obtain ⟨final, done, rfl⟩ := Option.map_eq_some_iff.mp handled
  by_cases moved : final.bodyLen < final.i
  · rw [if_pos moved]
    refine ⟨?_, ?_, rfl, rfl⟩
    · simp only [List.append_assoc]
      rw [List.take_append_of_le_length (by omega), List.take_of_length_le (by omega)]
    · simp only [List.length_append]
      omega
  · rw [if_neg moved]
    exact ⟨rfl, block, rfl, rfl⟩

end CppCode.Mongoose
