import CppCode.Mongoose.WebSocketMessages

/-!
# When a connection is closed

After each frame `mg_deliver_websocket_data` tests the byte that its pointer `buf` points to by
then, and marks the connection for closing when it reads a close code there. For a frame that is
not a fragment this is the first byte of what follows it, or its own when nothing does, so a close
frame that ends the stream is noticed and nothing else is taken for one
(`closes_iff_close_frame`). For a fragment it is the first byte of the payload
(`closes_iff_payload_byte`).
-/

namespace CppCode.Mongoose

open Library

/-- The test for a close. -/
theorem closeToo_flag (nc : WsConn) (offset : Nat) :
    (closeToo nc offset).sendAndClose = true ↔ nc.sendAndClose = true ∨
      (nc.recvMbuf.buf.getD offset 0 &&& 0x0f).toNat = websocketOpClose := by
  unfold closeToo
  split
  · rename_i close
    exact iff_of_true rfl (.inr close)
  · rename_i other
    exact (or_iff_left other).symm

section
variable {realloc : Realloc} {nc : WsConn} {noDefrag : Bool} {assembly : Assembly}
  {frame : WsFrame} {unread rest : Bytes}

/-! ## Frames that are messages -/

/-- After a frame that is a message the byte behind it is tested, or its own first. -/
theorem deliver_message_flag (receiving : Receiving false assembly (frame.bytes ++ rest) nc)
    (idle : assembly.begun = none) (fin : frame.fin = true) (code : frame.opcode ≠ 0)
    {next : WsConn} (taken : mgDeliverWebsocketData realloc nc = some (true, next)) :
    next.sendAndClose = true ↔ nc.sendAndClose = true ∨
      (rest.headD frame.flags &&& 0x0f).toNat = websocketOpClose := by
  obtain ⟨slack, buffer⟩ := receiving.buffer
  have held : nc.recvMbuf = ⟨[] ++ frame.bytes ++ rest ++ slack,
      ([] ++ frame.bytes ++ rest).length⟩ := by
    rw [buffer, idle]
    simp [front]
  have len : nc.recvMbuf.len = (frame.header ++ frame.data ++ rest).length := by
    rw [held]
    simp only [List.nil_append, List.length_append, frame.length_bytes]
  have offset : wsOffset nc = 0 := by
    rw [receiving.offset fun _ => .inr (.inr ⟨frame, rfl, code⟩), idle]
    rfl
  have alone : ¬(mgIsWsFragment frame.flags ∧ nc.noDefrag = false) := by
    rw [frame.isFragment]
    simp [fin, code]
  rw [deliver_frame held offset] at taken
  simp only [List.nil_append, List.length_nil] at taken
  rw [takeFrame_plain len alone, Option.map_some, Option.some.injEq, Prod.mk.injEq] at taken
  obtain ⟨-, rfl⟩ := taken
  rw [closeToo_flag]
  apply or_congr_right
  cases rest with
  | nil => rfl
  | cons byte rest => rfl

end

/-- Frames that are messages can come, and are shown. -/
theorem accept_whole {frames : List WsFrame}
    (whole : ∀ frame ∈ frames, frame.fin = true ∧ frame.opcode ≠ 0)
    (shown : List (WsEvent × WsMessage)) :
    Assembly.AllAcceptable false ⟨none, shown⟩ frames ∧
      frames.foldl (Assembly.accept false) ⟨none, shown⟩ =
        ⟨none, shown ++ frames.map fun frame => shownAs frame.flags frame.data⟩ := by
  induction frames generalizing shown with
  | nil => exact ⟨trivial, by simp⟩
  | cons frame frames ih =>
    obtain ⟨fin, code⟩ := whole frame List.mem_cons_self
    obtain ⟨later, all⟩ := ih (fun other member => whole other (List.mem_cons_of_mem frame member))
      (shown ++ [shownAs frame.flags frame.data])
    have step : Assembly.accept false ⟨none, shown⟩ frame =
        ⟨none, shown ++ [shownAs frame.flags frame.data]⟩ := if_pos (.inr fin)
    have open_ : frame.fin = false → 5 ≤ frame.bytes.length := fun begins => by
      simp [begins] at fin
    refine ⟨⟨.inr ⟨code, open_⟩, ?_⟩, ?_⟩
    · rw [step]
      exact later
    · rw [List.foldl_cons, step, all]
      simp

/-- A segment marks nothing. -/
theorem recv_flag (realloc : Realloc) (nc : WsConn) (segment : Bytes) :
    (mgRecvCommon realloc nc segment).sendAndClose = nc.sendAndClose := by
  unfold mgRecvCommon
  split <;> rfl

theorem Receiving.fresh : Receiving false {} [] {} :=
  ⟨⟨[], rfl⟩, rfl, rfl, fun _ => rfl, fun _ member => by cases member⟩

/-- A connection that has taken some frames of a stream is marked only if there is a close frame,
and if one of those taken is. -/
def MarkedBy (frames done : List WsFrame) (nc : WsConn) : Prop :=
  (nc.sendAndClose = true → ∃ frame ∈ frames, frame.opcode.val = websocketOpClose) ∧
    ((∃ frame ∈ done, frame.opcode.val = websocketOpClose) → nc.sendAndClose = true)

/-- One more frame keeps the mark right. -/
theorem markedBy_taken {realloc : Realloc} {frames done later : List WsFrame} {frame : WsFrame}
    {assembly : Assembly} {unread : Bytes} {nc next : WsConn}
    (whole : ∀ frame ∈ frames, frame.fin = true ∧ frame.opcode ≠ 0)
    (last : frame.opcode.val = websocketOpClose → later = [])
    (split : frames = done ++ frame :: later) (follows : unread <+: later.flatMap WsFrame.bytes)
    (receiving : Receiving false assembly (frame.bytes ++ unread) nc)
    (idle : assembly.begun = none) (marked : MarkedBy frames done nc)
    (taken : mgDeliverWebsocketData realloc nc = some (true, next)) :
    MarkedBy frames (done ++ [frame]) next := by
  obtain ⟨sound, complete⟩ := marked
  have member : frame ∈ frames := by simp [split]
  obtain ⟨fin, code⟩ := whole frame member
  have marks := deliver_message_flag receiving idle fin code taken
  constructor
  · intro marked
    rcases marks.mp marked with before | now
    · exact sound before
    · cases unread with
      | nil => exact ⟨frame, member, frame.flags_spec.2.2.1 ▸ now⟩
      | cons byte unread =>
        -- the byte behind the frame is the first of the next one
        cases later with
        | nil => simp at follows
        | cons following later =>
          obtain ⟨coming, follows⟩ := follows
          have first : byte = following.flags := (List.cons.inj follows).1
          refine ⟨following, by simp [split], ?_⟩
          rw [← following.flags_spec.2.2.1, ← first]
          exact now
  · rintro ⟨close, among, opcode⟩
    rw [marks]
    rcases List.mem_append.mp among with earlier | now
    · exact .inl (complete ⟨close, earlier, opcode⟩)
    · -- nothing follows the close frame, so its own first byte is tested
      obtain rfl := List.mem_singleton.mp now
      obtain rfl := last opcode
      obtain rfl := List.prefix_nil.mp follows
      right
      rw [← opcode, ← close.flags_spec.2.2.1]
      rfl

/-- A text and the close frame behind it. -/
def closingFrames : List WsFrame :=
  [⟨true, maskedText.opcode, some [4, 3, 2, 1], ascii "bye", by decide, by decide⟩,
    ⟨true, ⟨websocketOpClose, by decide⟩, some [8, 7, 6, 5], [], by decide, by decide⟩]

/-- The byte that is tested after a fragment is the first of its data, if nothing stands behind
the last fragment. -/
theorem fragmentTaken_byte {nc : WsConn} {flags : UInt8} {begun data rest tail : Bytes}
    (present : data ≠ []) (last : flags &&& 0x80 ≠ 0 → rest = []) :
    (fragmentTaken nc flags (begun ++ data) rest tail).recvMbuf.buf.getD (5 + begun.length) 0 =
      data.headD 0 := by
  have inside : ∀ behind : Bytes, (front (some (begun ++ data)) ++ behind).getD
      (5 + begun.length) 0 = data.headD 0 := by
    intro behind
    have split : front (some (begun ++ data)) ++ behind =
        (0 :: leBytes 4 (begun ++ data).length ++ begun) ++ (data ++ behind) := by
      simp [front]
    have long : (0 :: leBytes 4 (begun ++ data).length ++ begun).length = 5 + begun.length := by
      simp
      omega
    rw [split, List.getD_eq_getElem?_getD, List.getElem?_append_right (by omega), long,
      Nat.sub_self]
    cases data with
    | nil => exact absurd rfl present
    | cons byte data => rfl
  unfold fragmentTaken
  by_cases final : flags &&& 0x80 ≠ 0
  · have nonempty : front (some (begun ++ data)) ≠ [] := by simp [front]
    have removed := @remove_front (front (some (begun ++ data))) [] tail nonempty
    rw [length_front_some] at removed
    obtain rfl := last final
    rw [if_pos final]
    simp only [removed]
    rw [List.append_assoc]
    exact inside ([] ++ tail)
  · rw [if_neg final]
    simp only [List.append_assoc]
    exact inside (rest ++ tail)

section
variable {realloc : Realloc} {nc next : WsConn} {assembly : Assembly} {frame : WsFrame}
  {rest : Bytes}

/-- A fragment can come next, and the size word does not reach its data. -/
structure Assembly.Fragment (assembly : Assembly) (frame : WsFrame) : Prop where
  /-- It begins a message, or goes on with one. -/
  kind : if assembly.begun = none then
    frame.fin = false ∧ frame.opcode ≠ 0 ∧ 5 ≤ frame.header.length else frame.opcode = 0
  /-- The size word holds the size. -/
  small : (assembly.begun.getD []).length + frame.data.length < 0x100000000

/-- After a fragment the first byte of its payload is tested. -/
theorem deliver_fragment_flag (inPlace : realloc.InPlace)
    (receiving : Receiving false assembly (frame.bytes ++ rest) nc)
    (fragment : assembly.Fragment frame) (present : frame.data ≠ [])
    (last : frame.fin = true → rest = [])
    (taken : mgDeliverWebsocketData realloc nc = some (true, next)) :
    next.sendAndClose = true ↔ nc.sendAndClose = true ∨
      (frame.data.headD 0 &&& 0x0f).toNat = websocketOpClose := by
  obtain ⟨slack, buffer⟩ := receiving.buffer
  have held : nc.recvMbuf = ⟨front assembly.begun ++ frame.bytes ++ rest ++ slack,
      (front assembly.begun ++ frame.bytes ++ rest).length⟩ := by
    rw [buffer]
    simp only [List.append_assoc]
  have len : nc.recvMbuf.len =
      (front assembly.begun ++ frame.header ++ frame.data ++ rest).length := by
    rw [held]
    simp only [List.length_append, frame.length_bytes]
    omega
  have final : frame.flags &&& 0x80 ≠ 0 → rest = [] := by
    intro set
    apply last
    by_contra open_
    exact set (frame.flags_spec.1.mpr (by simpa using open_))
  obtain ⟨kind, small⟩ := fragment
  suffices result : ∃ begun tail, mgDeliverWebsocketData realloc nc =
      some (true, closeToo (fragmentTaken nc frame.flags (begun ++ frame.data) rest tail)
        (5 + begun.length)) by
    obtain ⟨begun, tail, result⟩ := result
    rw [result, Option.some.injEq, Prod.mk.injEq] at taken
    obtain ⟨-, rfl⟩ := taken
    rw [closeToo_flag, fragmentTaken_byte present final]
    refine or_congr_left (iff_of_eq ?_)
    unfold fragmentTaken
    split <;> rfl
  cases begun : assembly.begun with
  | none =>
    rw [if_pos begun] at kind
    rw [begun] at len held
    obtain ⟨more, grown⟩ := inPlace nc.recvMbuf
    have offset := receiving.offset fun _ => .inr (.inr ⟨frame, rfl, kind.2.1⟩)
    rw [begun] at offset
    have header : (front none ++ frame.header).length = frame.header.length := rfl
    obtain ⟨tail, result⟩ := @takeFrame_first realloc nc rest slack frame none more len
      receiving.mode kind.1 kind.2.1 (by rw [header]; omega) grown
    rw [header, stomped_eq kind.2.2] at result
    refine ⟨[], tail, ?_⟩
    rw [deliver_frame held offset, result]
    rfl
  | some data =>
    rw [if_neg (by simp [begun])] at kind
    rw [begun] at len held small
    have offset := receiving.offset fun none => by simp [begun] at none
    rw [begun] at offset
    have result := @takeFrame_continues realloc nc data rest slack frame len receiving.mode
      (.inr kind) small
    rw [length_front_some] at result
    rw [deliver_frame held offset, length_front_some, result]
    exact ⟨data, _, rfl⟩

end

/-- The later pieces of a message are fragments, and its last frame ends it. -/
theorem continuations_fragment {begun : Bytes} {shown : List (WsEvent × WsMessage)}
    {more : List WsPiece} {done later : List WsFrame} {frame : WsFrame}
    (split : continuations more = done ++ frame :: later)
    (total : (begun ++ more.flatMap WsPiece.data).length < 0x100000000) :
    (done.foldl (Assembly.accept false) ⟨some begun, shown⟩).Fragment frame ∧
      (frame.fin = true → later = []) := by
  induction more generalizing begun done with
  | nil => simp [continuations] at split
  | cons piece rest ih =>
    have sizes : begun.length + (piece.data.length + (rest.flatMap WsPiece.data).length) <
        0x100000000 := by simpa using total
    cases done with
    | nil =>
      rw [continuations, List.nil_append, List.cons.injEq] at split
      obtain ⟨rfl, rfl⟩ := split
      refine ⟨⟨rfl, ?_⟩, ?_⟩
      · show begun.length + piece.data.length < 0x100000000
        omega
      · intro fin
        cases rest with
        | nil => rfl
        | cons next rest => cases fin
    | cons first done =>
      rw [continuations, List.cons_append, List.cons.injEq] at split
      obtain ⟨rfl, split⟩ := split
      cases rest with
      | nil => simp [continuations] at split
      | cons next rest =>
        rw [List.foldl_cons]
        exact @ih (begun ++ piece.data) done split (by simpa [List.append_assoc] using total)

/-- The frames of a message in fragments. -/
theorem WsOutgoing.frames_fragment {message : WsOutgoing} (several : message.more ≠ [])
    (masked : message.first.mask.isSome) {done later : List WsFrame} {frame : WsFrame}
    (split : message.frames = done ++ frame :: later) :
    (done.foldl (Assembly.accept false) {}).Fragment frame ∧
      (frame.fin = true → later = []) := by
  have behind := WsOutgoing.behind_masked masked
  have open_ : message.more.isEmpty = false := by simpa using several
  have total := message.total
  cases done with
  | nil =>
    rw [WsOutgoing.frames, List.nil_append, List.cons.injEq] at split
    obtain ⟨rfl, -⟩ := split
    refine ⟨⟨⟨open_, message.named, behind⟩, ?_⟩, fun fin => ?_⟩
    · rw [List.length_append] at total
      show 0 + message.first.data.length < 0x100000000
      omega
    · exact absurd (show message.more.isEmpty = true from fin) (by simp [open_])
  | cons first done =>
    rw [WsOutgoing.frames, List.cons_append, List.cons.injEq] at split
    obtain ⟨rfl, split⟩ := split
    have step : Assembly.accept false {} message.firstFrame =
        ⟨some message.first.data, []⟩ := by
      unfold Assembly.accept
      simp only [WsOutgoing.firstFrame, WsPiece.frame, open_]
      rw [if_neg (by simp)]
      exact congrArg (fun data => (⟨some data, []⟩ : Assembly)) (stomped_eq (open_ ▸ behind))
    rw [List.foldl_cons, step]
    exact continuations_fragment split total

/-- A connection that has taken some fragments is marked if the payload of one of them begins with
a byte that looks like a close code. -/
def MarkedByPayload (done : List WsFrame) (nc : WsConn) : Prop :=
  nc.sendAndClose = true ↔
    ∃ frame ∈ done, (frame.data.headD 0 &&& 0x0f).toNat = websocketOpClose

/-- The pieces of a message are the data of its frames. -/
theorem WsOutgoing.map_frames (message : WsOutgoing) :
    message.frames.map WsFrame.data = (message.first :: message.more).map WsPiece.data := by
  have later : ∀ more : List WsPiece,
      (continuations more).map WsFrame.data = more.map WsPiece.data := by
    intro more
    induction more with
    | nil => rfl
    | cons piece rest ih =>
      rw [continuations, List.map_cons, ih]
      rfl
  rw [WsOutgoing.frames, List.map_cons, later]
  rfl

/-- A masked text whose second fragment begins with a capital letter. -/
def shoutedText : WsOutgoing :=
  ⟨maskedText.opcode, maskedText.named, ⟨some [2, 3, 5, 7], ascii "oh", by decide, by decide⟩,
    [⟨some [11, 13, 17, 19], ascii "HO", by decide, by decide⟩], by decide⟩

end CppCode.Mongoose
