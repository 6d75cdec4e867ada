import CppCode.Mongoose.WebSocketFrames

/-!
# Receiving a stream of frames

What `mg_deliver_websocket_data` does with the frames of a sender. Its block begins with the
fragments of the current message, if there are any, behind the size word (`front`), and goes on
with the bytes that were not read. A part of a frame is left (`deliver_part`); a whole frame is
unmasked (`deliver_frame`), and then it is shown (`takeFrame_plain`), appended to the fragments
(`takeFrame_continues`) or begins them (`takeFrame_first`).
-/

namespace CppCode.Mongoose

open Library

/-! ## The front of the buffer -/

/-- The bytes that stand in front of the unread ones: nothing, or the fragments of a message
behind their size word. -/
def front : Option Bytes → Bytes
  | none => []
  | some data => 0 :: (leBytes 4 data.length ++ data)

@[simp] theorem length_front_some (data : Bytes) :
    (front (some data)).length = 5 + data.length := by
  simp [front]
  omega

/-- The size word of the fragments. -/
theorem sizeWord_front {data behind : Bytes} (small : data.length < 0x100000000) :
    sizeWord (front (some data) ++ behind) = data.length := by
  have word : ((front (some data) ++ behind).drop 1).take 4 = leBytes 4 data.length := by
    show (leBytes 4 data.length ++ data ++ behind).take 4 = leBytes 4 data.length
    rw [List.append_assoc, List.take_left' (length_leBytes 4 data.length)]
  rw [sizeWord, word, leValue_leBytes_of_lt (by simpa using small)]

section
variable {realloc : Realloc} {nc : WsConn} {begun rest slack : Bytes} {frame : WsFrame}

/-- A whole frame behind the fragments is unmasked and taken. -/
theorem deliver_frame
    (held : nc.recvMbuf =
      ⟨begun ++ frame.bytes ++ rest ++ slack, (begun ++ frame.bytes ++ rest).length⟩)
    (offset : wsOffset nc = begun.length) :
    mgDeliverWebsocketData realloc nc =
      (takeFrame realloc nc (begun ++ frame.header ++ frame.data ++ rest ++ slack) begun.length
        frame.lengths).map fun next => (true, next) := by
  have positive : 0 < frame.bytes.length := List.length_pos_iff.mpr frame.bytes_ne_nil
  have read : wsLengths (nc.recvMbuf.used.drop begun.length) = frame.lengths := by
    rw [held, used_append, List.append_assoc, List.drop_left]
    have whole : frame.header.length ≤ (frame.bytes ++ rest).length := by
      rw [List.length_append, frame.length_bytes]
      omega
    exact (wsLengths_stream (List.append_nil (frame.bytes ++ rest))).1 whole
  have there : ¬(frame.lengths.frameLen = 0 ∨
      nc.recvMbuf.len - begun.length < frame.lengths.frameLen) := by
    rw [frame.frameLen_lengths, held]
    simp only [List.length_append]
    omega
  unfold mgDeliverWebsocketData
  simp only [offset, read]
  rw [if_neg there]
  cases masked : frame.mask with
  | none =>
    have plain : frame.lengths.maskLen = 0 := by simp [WsFrame.lengths, masked]
    have same : nc.recvMbuf.buf = begun ++ frame.header ++ frame.data ++ rest ++ slack := by
      rw [held]
      simp [WsFrame.bytes, WsFrame.payload, masked]
    rw [if_pos plain, same]
  | some mask =>
    have four : mask.length = 4 := frame.four mask (by rw [masked]; rfl)
    have word : frame.lengths.maskLen = 4 := by simp [WsFrame.lengths, masked, four]
    have header : frame.lengths.headerLen = frame.header.length := rfl
    have shape : nc.recvMbuf.buf =
        begun ++ frame.header ++ wsMask mask frame.data ++ (rest ++ slack) := by
      rw [held]
      simp [WsFrame.bytes, WsFrame.payload, masked]
    have inside : ¬nc.recvMbuf.buf.length <
        begun.length + frame.header.length + frame.lengths.dataLen := by
      rw [shape]
      simp only [WsFrame.lengths, List.length_append, length_wsMask]
      omega
    have keys : (nc.recvMbuf.buf.drop (begun.length + frame.header.length - 4)).take 4 = mask := by
      rw [shape]
      have split : begun ++ frame.header = begun ++
          (frame.flags :: frame.lengthByte :: frame.extended) ++ mask := by
        simp [WsFrame.header, masked]
      rw [← List.length_append, split, List.length_append, four, Nat.add_sub_cancel,
        List.append_assoc, List.append_assoc _ mask, List.drop_left, List.take_left' four]
    have data : (nc.recvMbuf.buf.drop (begun.length + frame.header.length)).take
        frame.lengths.dataLen = wsMask mask frame.data := by
      rw [shape, ← List.length_append, List.append_assoc, List.drop_left]
      exact List.take_left' (length_wsMask mask frame.data)
    rw [if_neg (by omega), header, if_neg inside, keys, data, wsMask_wsMask, shape,
      ← List.length_append, store_middle (length_wsMask mask frame.data)]
    simp

/-- A part of a frame behind the fragments is left. -/
theorem deliver_part {part missing : Bytes} (cut : frame.bytes = part ++ missing)
    (more : missing ≠ [])
    (held : nc.recvMbuf = ⟨begun ++ part ++ slack, (begun ++ part).length⟩)
    (offset : wsOffset nc = begun.length) :
    mgDeliverWebsocketData realloc nc = some (false, nc) := by
  have positive : 0 < missing.length := List.length_pos_iff.mpr more
  have stream : part ++ missing = frame.bytes ++ [] := by rw [cut, List.append_nil]
  have read : nc.recvMbuf.used.drop begun.length = part := by
    rw [held, used_append, List.drop_left]
  have len : nc.recvMbuf.len - begun.length = part.length := by
    rw [held]
    simp
  unfold mgDeliverWebsocketData
  simp only [offset, read, len]
  rw [if_pos]
  rcases (wsLengths_stream stream).2 with none | known
  · exact .inl none
  · rw [known, frame.frameLen_lengths, cut, List.length_append]
    exact .inr (by omega)

/-- When nothing is unread there is nothing to do. -/
theorem deliver_nothing (held : nc.recvMbuf = ⟨begun ++ slack, begun.length⟩)
    (offset : wsOffset nc = begun.length) :
    mgDeliverWebsocketData realloc nc = some (false, nc) := by
  have read : nc.recvMbuf.used.drop begun.length = [] := by
    rw [held, used_append, List.drop_length]
  unfold mgDeliverWebsocketData
  simp only [offset, read]
  exact if_pos (.inl rfl)

end

/-! ## Taking a frame -/

/-- The flag bits of the first byte. -/
theorem WsFrame.flags_spec (frame : WsFrame) :
    (frame.flags &&& 0x80 = 0 ↔ frame.fin = false) ∧
      (frame.flags &&& 0x0f = 0 ↔ frame.opcode = 0) ∧
      (frame.flags &&& 0x0f).toNat = frame.opcode ∧
      (frame.fin = false → frame.flags &&& 0xf0 = 0) := by
  have bits : ∀ (fin : Bool) (opcode : Fin 16),
      let flags := UInt8.ofNat ((if fin then 0x80 else 0) + opcode)
      (flags &&& 0x80 = 0 ↔ fin = false) ∧ (flags &&& 0x0f = 0 ↔ opcode = 0) ∧
        (flags &&& 0x0f).toNat = opcode ∧ (fin = false → flags &&& 0xf0 = 0) := by decide
  exact bits frame.fin frame.opcode

theorem WsFrame.isFragment (frame : WsFrame) :
    mgIsWsFragment frame.flags = true ↔ frame.fin = false ∨ frame.opcode = 0 := by
  obtain ⟨final, code, -⟩ := frame.flags_spec
  rw [mgIsWsFragment, Bool.or_eq_true, beq_iff_eq, beq_iff_eq, final, code]

theorem WsFrame.isFirstFragment (frame : WsFrame) :
    mgIsWsFirstFragment frame.flags = true ↔ frame.fin = false ∧ frame.opcode ≠ 0 := by
  obtain ⟨final, code, -⟩ := frame.flags_spec
  rw [mgIsWsFirstFragment, Bool.and_eq_true, beq_iff_eq, bne_iff_ne, final, ne_eq, code]

/-- The call of the event handler for some data. -/
def shownAs (flags : UInt8) (data : Bytes) : WsEvent × WsMessage :=
  (if flags &&& 0x8 ≠ 0 then .controlFrame else .frame, ⟨flags, data.length, data⟩)

/-- The connection after a fragment was appended to the fragments `data`: the message is shown and
removed if that was its last one. -/
def fragmentTaken (nc : WsConn) (flags : UInt8) (data rest tail : Bytes) : WsConn :=
  let mbuf : Mbuf :=
    ⟨front (some data) ++ rest ++ tail, (front (some data) ++ rest).length⟩
  if flags &&& 0x80 ≠ 0 then
    { nc with shown := nc.shown ++ [shownAs flags data], recvMbuf := mbuf.remove (5 + data.length) }
  else { nc with recvMbuf := mbuf }

/-- What `appendFragment` does when `dst` ends the fragments and the new data begin at `src`. -/
theorem appendFragment_eq {nc : WsConn} {buf begun data rest : Bytes} {dst src : Nat}
    (flags : UInt8) (kept : buf.take dst = front (some begun))
    (moved : (buf.drop src).take (nc.recvMbuf.len - src) = data ++ rest)
    (inside : nc.recvMbuf.len = src + (data ++ rest).length) (room : dst ≤ buf.length)
    (small : begun.length + data.length < 0x100000000) :
    appendFragment nc buf dst src flags data.length =
      fragmentTaken nc flags (begun ++ data) rest (buf.drop (dst + (data ++ rest).length)) := by
  have size : (begun ++ data).length = begun.length + data.length := List.length_append
  have here : dst = 5 + begun.length := by
    have lengths := congrArg List.length kept
    rw [length_front_some, List.length_take, Nat.min_eq_left room] at lengths
    exact lengths
  have count : nc.recvMbuf.len - src = (data ++ rest).length := by omega
  have joined : memmove buf dst src (nc.recvMbuf.len - src) = front (some begun) ++
      (data ++ rest ++ buf.drop (dst + (data ++ rest).length)) := by
    rw [memmove, kept, moved, count, List.append_assoc]
  have word : (sizeWord (memmove buf dst src (nc.recvMbuf.len - src)) + data.length) %
      0x100000000 = (begun ++ data).length := by
    rw [joined, sizeWord_front (by omega), size, Nat.mod_eq_of_lt small]
  have stored : store (memmove buf dst src (nc.recvMbuf.len - src)) 1
      (leBytes 4 (begun ++ data).length) = front (some (begun ++ data)) ++ rest ++
        buf.drop (dst + (data ++ rest).length) := by
    have middle := @store_middle [0] (leBytes 4 begun.length) (leBytes 4 (begun ++ data).length)
      (begun ++ (data ++ rest ++ buf.drop (dst + (data ++ rest).length))) (by simp)
    rw [joined]
    simpa [front] using middle
  have view : ((front (some (begun ++ data)) ++ rest ++
      buf.drop (dst + (data ++ rest).length)).drop 5).take (begun ++ data).length =
        begun ++ data := by
    show ((leBytes 4 (begun ++ data).length ++ (begun ++ data) ++ rest ++
      buf.drop (dst + (data ++ rest).length)).drop 4).take (begun ++ data).length = begun ++ data
    rw [List.append_assoc, List.append_assoc, List.drop_left' (length_leBytes 4 _),
      List.take_left]
  have len : nc.recvMbuf.len + dst - src = (front (some (begun ++ data)) ++ rest).length := by
    rw [List.length_append, length_front_some, inside, here, List.length_append, size]
    omega
  unfold appendFragment fragmentTaken
  simp only [word, stored, view, len]
  rfl

/-- A fragment whose data begin at an offset of the block, after the size word was written over
the first bytes of the block. -/
def stomped (offset : Nat) (data : Bytes) : Bytes :=
  List.replicate (5 - offset) 0 ++ data.drop (5 - offset)

/-- Data behind the size word are kept. -/
theorem stomped_eq {offset : Nat} {data : Bytes} (behind : 5 ≤ offset) :
    stomped offset data = data := by
  rw [stomped, Nat.sub_eq_zero_of_le behind]
  rfl

theorem length_stomped {offset : Nat} {data : Bytes} (room : 5 ≤ offset + data.length) :
    (stomped offset data).length = data.length := by
  rw [stomped, List.length_append, List.length_replicate, List.length_drop]
  omega

section
variable {realloc : Realloc} {nc : WsConn} {begun rest slack : Bytes} {frame : WsFrame}

/-- A frame that is not reassembled is shown and removed. -/
theorem takeFrame_plain
    (len : nc.recvMbuf.len = (frame.header ++ frame.data ++ rest).length)
    (alone : ¬(mgIsWsFragment frame.flags ∧ nc.noDefrag = false)) :
    takeFrame realloc nc (frame.header ++ frame.data ++ rest ++ slack) 0 frame.lengths =
      some (closeToo { nc with
        shown := nc.shown ++ [shownAs frame.flags frame.data]
        recvMbuf := ⟨rest ++ (frame.header ++ frame.data ++ rest ++ slack).drop rest.length,
          rest.length⟩ } 0) := by
  have first : (frame.header ++ frame.data ++ rest ++ slack).headD 0 = frame.flags := rfl
  have flags : (frame.header ++ frame.data ++ rest ++ slack).getD 0 0 = frame.flags := rfl
  have view : ((frame.header ++ frame.data ++ rest ++ slack).drop frame.header.length).take
      frame.data.length = frame.data := by
    rw [List.append_assoc, List.append_assoc, List.drop_left, List.take_left]
  have present : frame.header ++ frame.data ≠ [] := by simp [WsFrame.header]
  have whole : frame.lengths.frameLen = (frame.header ++ frame.data).length := by
    rw [frame.frameLen_lengths, frame.length_bytes, List.length_append]
  have src : (0 : Nat) + frame.lengths.headerLen = frame.header.length := Nat.zero_add _
  have size : frame.lengths.dataLen = frame.data.length := rfl
  unfold takeFrame
  simp only [first, flags, src, size, view]
  rw [if_neg alone]
  simp only [mgHandleIncomingWebsocketFrame, shownAs, whole, len]
  rw [remove_front present]

/-- A fragment of a message that was begun is appended. -/
theorem takeFrame_continues (len : nc.recvMbuf.len =
      (front (some begun) ++ frame.header ++ frame.data ++ rest).length)
    (defrag : nc.noDefrag = false) (later : frame.fin = true ∨ frame.opcode = 0)
    (small : begun.length + frame.data.length < 0x100000000) :
    takeFrame realloc nc (front (some begun) ++ frame.header ++ frame.data ++ rest ++ slack)
      (front (some begun)).length frame.lengths =
      some (closeToo (fragmentTaken nc frame.flags (begun ++ frame.data) rest
        ((front (some begun) ++ frame.header ++ frame.data ++ rest ++ slack).drop
          ((front (some begun)).length + (frame.data ++ rest).length)))
        (front (some begun)).length) := by
  have first : mgIsWsFragment
      ((front (some begun) ++ frame.header ++ frame.data ++ rest ++ slack).headD 0) := by
    show mgIsWsFragment 0 = true
    decide
  have flags : (front (some begun) ++ frame.header ++ frame.data ++ rest ++ slack).getD
      (front (some begun)).length 0 = frame.flags := by
    rw [List.getD_eq_getElem?_getD]
    simp only [List.append_assoc]
    rw [List.getElem?_append_right (Nat.le_refl _), Nat.sub_self]
    rfl
  have other : ¬mgIsWsFirstFragment frame.flags = true := by
    rw [frame.isFirstFragment]
    rcases later with fin | zero
    · simp [fin]
    · simp [zero]
  have enough :
      ¬(front (some begun) ++ frame.header ++ frame.data ++ rest ++ slack).length < 5 := by
    simp only [List.length_append, length_front_some]
    omega
  have src : (front (some begun)).length + frame.lengths.headerLen =
      (front (some begun) ++ frame.header).length := List.length_append.symm
  have size : frame.lengths.dataLen = frame.data.length := rfl
  unfold takeFrame
  simp only [flags, src, size]
  rw [if_pos ⟨first, defrag⟩, if_neg other, if_neg enough]
  rw [appendFragment_eq frame.flags _ _ _ _ small]
  · simp only [List.append_assoc, List.take_left]
  · have behind : nc.recvMbuf.len - (front (some begun) ++ frame.header).length =
        (frame.data ++ rest).length := by
      rw [len]
      simp only [List.length_append]
      omega
    rw [behind, List.append_assoc, List.append_assoc, List.drop_left, ← List.append_assoc,
      List.take_left]
  · rw [len]
    simp only [List.length_append]
    omega
  · simp only [List.length_append]
    omega

/-- What the enlarged block holds behind the size word of a first fragment. -/
theorem drop_stomped {before data behind : Bytes} (room : 5 ≤ before.length + data.length) :
    (List.replicate 5 0 ++ (before ++ data ++ behind).drop 5).drop before.length =
      stomped before.length data ++ behind := by
  have split : 5 + (before.length - 5) = before.length + (5 - before.length) := by omega
  rw [List.drop_append, List.drop_replicate, List.length_replicate, List.drop_drop, split,
    ← List.drop_drop, List.append_assoc, List.drop_left,
    List.drop_append_of_le_length (by omega), stomped, List.append_assoc]

/-- The first fragment of a message begins the reassembly anew. -/
theorem takeFrame_first {held : Option Bytes} {more : Bytes}
    (len : nc.recvMbuf.len = (front held ++ frame.header ++ frame.data ++ rest).length)
    (defrag : nc.noDefrag = false) (begins : frame.fin = false) (code : frame.opcode ≠ 0)
    (room : 5 ≤ (front held ++ frame.header).length + frame.data.length)
    (grown : realloc.resize nc.recvMbuf = .inPlace more) :
    ∃ tail, takeFrame realloc nc (front held ++ frame.header ++ frame.data ++ rest ++ slack)
      (front held).length frame.lengths =
      some (closeToo (fragmentTaken nc frame.flags
        (stomped (front held ++ frame.header).length frame.data) rest tail) 5) := by
  have fits := frame.fits
  unfold intMax at fits
  have clear : (front held ++ frame.header ++ frame.data ++ rest ++ slack).headD 0 &&& 0xf0 = 0 ∧
      mgIsWsFragment ((front held ++ frame.header ++ frame.data ++ rest ++ slack).headD 0) := by
    cases held with
    | none => exact ⟨frame.flags_spec.2.2.2 begins, frame.isFragment.mpr (.inl begins)⟩
    | some data => exact ⟨by show (0 : UInt8) &&& 0xf0 = 0; decide,
        by show mgIsWsFragment 0 = true; decide⟩
  have first : (front held ++ frame.header ++ frame.data ++ rest ++ slack ++ more).headD 0 =
      (front held ++ frame.header ++ frame.data ++ rest ++ slack).headD 0 := by
    cases held <;> rfl
  have flags : (front held ++ frame.header ++ frame.data ++ rest ++ slack).getD
      (front held).length 0 = frame.flags := by
    rw [List.getD_eq_getElem?_getD]
    simp only [List.append_assoc]
    rw [List.getElem?_append_right (Nat.le_refl _), Nat.sub_self]
    rfl
  have src : (front held).length + frame.lengths.headerLen =
      (front held ++ frame.header).length := List.length_append.symm
  have size : frame.lengths.dataLen = frame.data.length := rfl
  have word : store (store (front held ++ frame.header ++ frame.data ++ rest ++ slack ++ more) 0
      [0]) 1 [0, 0, 0, 0] = List.replicate 5 0 ++
        (front held ++ frame.header ++ frame.data ++ (rest ++ slack ++ more)).drop 5 := by
    simp only [store, List.take_zero, List.nil_append, Nat.zero_add, List.singleton_append,
      List.take_succ_cons, List.append_assoc, List.length_cons, List.length_nil,
      List.drop_succ_cons, List.drop_drop]
    rfl
  have behind : nc.recvMbuf.len - (front held ++ frame.header).length =
      (stomped (front held ++ frame.header).length frame.data ++ rest).length := by
    have total : (stomped (front held ++ frame.header).length frame.data ++ rest).length =
        frame.data.length + rest.length := by
      rw [List.length_append, length_stomped room]
    rw [total, len]
    simp only [List.length_append]
    omega
  have four := realloc.four nc.recvMbuf more grown
  have two : 2 ≤ frame.header.length := by
    rw [frame.length_header]
    omega
  have inside : ¬((front held ++ frame.header ++ frame.data ++ rest ++ slack ++ more).length < 6 ∨
      (front held ++ frame.header ++ frame.data ++ rest ++ slack ++ more).length <
        5 + (nc.recvMbuf.len - (front held ++ frame.header).length)) := by
    rw [len]
    simp only [List.length_append, four]
    omega
  unfold takeFrame
  simp only [flags, src, size, grown, Resized.block]
  rw [if_pos ⟨clear.2, defrag⟩, if_pos (frame.isFirstFragment.mpr ⟨begins, code⟩), if_neg inside]
  simp only [first, clear.1, word]
  rw [← length_stomped room]
  rw [@appendFragment_eq nc _ [] (stomped (front held ++ frame.header).length frame.data) rest]
  · exact ⟨_, rfl⟩
  · exact List.take_left' List.length_replicate
  · rw [drop_stomped room, behind, ← List.append_assoc, ← List.append_assoc,
      List.append_assoc _ slack, List.take_left]
  · rw [← behind, len]
    simp only [List.length_append]
    omega
  · simp
  · rw [length_stomped room]
    simp only [List.length_nil]
    omega

end

end CppCode.Mongoose
