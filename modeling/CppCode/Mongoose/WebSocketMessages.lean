import CppCode.Mongoose.WebSocketStream

/-!
# Messages over a connection

`Assembly` says what a receiver of frames is for: it collects the fragments of one message at a
time. `deliver_accepts` is the step lemma, one call of `mg_deliver_websocket_data` for one frame,
and `frames_read` makes the connection a reader of every sequence of acceptable frames, as long as
the block of a first fragment is enlarged where it is. When `realloc` moves it, the freed block is
used (`receive_steady`). The consequences are about the messages that an application sends in one
frame or in fragments: `masked_messages_shown` for those of a client, and `messages_intact_iff` for
all, where the size word falls on the data of an unmasked first fragment.
-/

namespace CppCode.Mongoose

open Library

/-- What a receiver has made of the frames so far. -/
structure Assembly where
  /-- The fragments of the current message. -/
  begun : Option Bytes := none
  /-- The messages shown. -/
  shown : List (WsEvent × WsMessage) := []

/-- A frame is a message, begins one, or goes on with the one that was begun. -/
def Assembly.accept (noDefrag : Bool) (assembly : Assembly) (frame : WsFrame) : Assembly :=
  match assembly.begun with
  | none =>
    if noDefrag ∨ frame.fin then
      { assembly with shown := assembly.shown ++ [shownAs frame.flags frame.data] }
    else { assembly with begun := some (stomped frame.header.length frame.data) }
  | some begun =>
    if frame.fin then
      { begun := none, shown := assembly.shown ++ [shownAs frame.flags (begun ++ frame.data)] }
    else if frame.opcode = 0 then { assembly with begun := some (begun ++ frame.data) }
    else { assembly with begun := some frame.data }

/-- The frame can come next: a continuation needs a beginning, a first fragment holds the size
word, and the size word can hold the size. -/
def Assembly.Acceptable (noDefrag : Bool) (assembly : Assembly) (frame : WsFrame) : Prop :=
  match assembly.begun with
  | none => noDefrag = true ∨
      frame.opcode ≠ 0 ∧ (frame.fin = false → 5 ≤ frame.bytes.length)
  | some begun => begun.length + frame.data.length < 0x100000000

/-- Every frame can come when it does. -/
def Assembly.AllAcceptable (noDefrag : Bool) : Assembly → List WsFrame → Prop
  | _, [] => True
  | assembly, frame :: frames =>
    assembly.Acceptable noDefrag frame ∧
      (assembly.accept noDefrag frame).AllAcceptable noDefrag frames

/-- A connection has accepted some frames and holds unread bytes. -/
structure Receiving (noDefrag : Bool) (assembly : Assembly) (unread : Bytes) (nc : WsConn) :
    Prop where
  /-- The unread bytes stand behind the fragments. -/
  buffer : ∃ slack, nc.recvMbuf =
    ⟨front assembly.begun ++ unread ++ slack, (front assembly.begun ++ unread).length⟩
  /-- The mode of the connection. -/
  mode : nc.noDefrag = noDefrag
  /-- The calls of the handler. -/
  shown : nc.shown = assembly.shown
  /-- Nothing is reassembled without reassembly. -/
  whole : noDefrag = true → assembly.begun = none
  /-- The size word holds the size. -/
  small : ∀ data ∈ assembly.begun, data.length < 0x100000000

section
variable {realloc : Realloc} {nc : WsConn} {noDefrag : Bool} {assembly : Assembly}
  {frame : WsFrame} {unread rest part : Bytes}

/-- The unread bytes are found behind the fragments. -/
theorem Receiving.offset (receiving : Receiving noDefrag assembly unread nc)
    (begins : assembly.begun = none → noDefrag = true ∨ unread = [] ∨
      ∃ frame : WsFrame, unread.head? = some frame.flags ∧ frame.opcode ≠ 0) :
    wsOffset nc = (front assembly.begun).length := by
  obtain ⟨slack, buffer⟩ := receiving.buffer
  unfold wsOffset
  rw [receiving.mode, buffer]
  cases held : assembly.begun with
  | some data =>
    have small := receiving.small data (by rw [held]; rfl)
    have first : (front (some data) ++ unread ++ slack).headD 0 = 0 := rfl
    have bits : mgIsWsFragment 0 = true ∧ ¬mgIsWsFirstFragment 0 = true := by decide
    have size : sizeWord (front (some data) ++ unread ++ slack) = data.length := by
      rw [List.append_assoc, sizeWord_front small]
    have mode : noDefrag = false := by
      by_contra on
      rw [receiving.whole (by simpa using on)] at held
      simp at held
    have long : 5 + data.length ≤ (front (some data) ++ unread).length := by
      rw [List.length_append, length_front_some]
      omega
    simp only [first, size, mode]
    rw [if_pos ⟨bits.1, trivial, bits.2, by omega, long⟩, length_front_some]
  | none =>
    apply if_neg
    rintro ⟨fragment, off, other, long, -⟩
    rcases begins held with on | rfl | ⟨frame, first, code⟩
    · rw [on] at off
      cases off
    · simp [front] at long
    · have same : (front none ++ unread ++ slack).headD 0 = frame.flags := by
        rw [front, List.nil_append, List.headD_eq_head?_getD, List.head?_append, first]
        rfl
      simp only [same, frame.isFragment, frame.isFirstFragment] at fragment other
      exact other ⟨fragment.resolve_right code, code⟩

/-- The test for a close leaves everything but its flag. -/
theorem Receiving.closeToo (receiving : Receiving noDefrag assembly unread nc) (offset : Nat) :
    Receiving noDefrag assembly unread (closeToo nc offset) := by
  obtain ⟨buffer, mode, shown, whole, small⟩ := receiving
  unfold Mongoose.closeToo
  split
  · exact ⟨buffer, mode, shown, whole, small⟩
  · exact ⟨buffer, mode, shown, whole, small⟩

/-- The connection after a fragment. -/
theorem Receiving.fragmentTaken (receiving : Receiving noDefrag assembly unread nc)
    (off : noDefrag = false) {data : Bytes} (flags : UInt8) (rest tail : Bytes)
    (small : data.length < 0x100000000) :
    Receiving noDefrag
      (if flags &&& 0x80 ≠ 0 then ⟨none, assembly.shown ++ [shownAs flags data]⟩
        else ⟨some data, assembly.shown⟩) rest
      (Mongoose.fragmentTaken nc flags data rest tail) := by
  unfold Mongoose.fragmentTaken
  by_cases final : flags &&& 0x80 ≠ 0
  · rw [if_pos final, if_pos final]
    have present : front (some data) ≠ [] := by simp [front]
    have removed := @remove_front (front (some data)) rest tail present
    rw [length_front_some] at removed
    refine ⟨⟨_, removed⟩, receiving.mode, ?_, fun _ => rfl, by simp⟩
    show nc.shown ++ _ = assembly.shown ++ _
    rw [receiving.shown]
  · rw [if_neg final, if_neg final]
    refine ⟨⟨tail, rfl⟩, receiving.mode, receiving.shown, ?_, ?_⟩
    · rw [off]
      simp
    · intro held member
      obtain rfl := Option.some.inj member
      exact small

/-- The result of a fragment, by its flag. -/
theorem Receiving.taken (receiving : Receiving noDefrag assembly unread nc)
    (off : noDefrag = false) {data : Bytes} (rest tail : Bytes)
    (small : data.length < 0x100000000) (offset : Nat) :
    Receiving noDefrag
      (if frame.fin then ⟨none, assembly.shown ++ [shownAs frame.flags data]⟩
        else ⟨some data, assembly.shown⟩) rest
      (Mongoose.closeToo (Mongoose.fragmentTaken nc frame.flags data rest tail) offset) := by
  have after := (receiving.fragmentTaken off frame.flags rest tail small).closeToo offset
  have final := frame.flags_spec.1
  cases fin : frame.fin with
  | true =>
    rw [if_pos fun zero => by simp [fin] at final; exact final zero] at after
    exact after
  | false =>
    rw [if_neg fun set => set (final.mpr fin)] at after
    exact after

/-- The unread bytes begin at a frame that can come. -/
theorem Assembly.Acceptable.begins (acceptable : assembly.Acceptable noDefrag frame)
    (first : unread = [] ∨ unread.head? = some frame.flags) :
    assembly.begun = none → noDefrag = true ∨ unread = [] ∨
      ∃ frame : WsFrame, unread.head? = some frame.flags ∧ frame.opcode ≠ 0 := by
  intro none
  rw [Assembly.Acceptable, none] at acceptable
  rcases acceptable with on | ⟨code, -⟩
  · exact .inl on
  · exact .inr (first.imp_right fun head => ⟨frame, head, code⟩)

/-- A frame that is a message is shown. -/
theorem takes_message (receiving : Receiving noDefrag assembly unread nc)
    (len : nc.recvMbuf.len = (frame.header ++ frame.data ++ rest).length)
    (alone : noDefrag = true ∨ frame.fin = true ∧ frame.opcode ≠ 0) (slack : Bytes) :
    ∃ next, takeFrame realloc nc (frame.header ++ frame.data ++ rest ++ slack) 0 frame.lengths =
        some next ∧
      Receiving noDefrag ⟨none, assembly.shown ++ [shownAs frame.flags frame.data]⟩ rest next := by
  have apart : ¬(mgIsWsFragment frame.flags ∧ nc.noDefrag = false) := by
    rw [receiving.mode, frame.isFragment]
    rintro ⟨fragment, off⟩
    rcases alone with on | ⟨fin, code⟩
    · simp [off] at on
    · simp [fin, code] at fragment
  rw [takeFrame_plain len apart]
  refine ⟨_, rfl, ?_⟩
  apply Receiving.closeToo
  refine ⟨⟨_, rfl⟩, receiving.mode, ?_, fun _ => rfl, by simp⟩
  show nc.shown ++ _ = assembly.shown ++ _
  rw [receiving.shown]

/-- A first fragment begins a message anew. -/
theorem takes_first (inPlace : realloc.InPlace)
    (receiving : Receiving noDefrag assembly unread nc) (off : noDefrag = false)
    (len : nc.recvMbuf.len =
      (front assembly.begun ++ frame.header ++ frame.data ++ rest).length)
    (begins : frame.fin = false) (code : frame.opcode ≠ 0)
    (room : 5 ≤ (front assembly.begun ++ frame.header).length + frame.data.length)
    (slack : Bytes) :
    ∃ next, takeFrame realloc nc
        (front assembly.begun ++ frame.header ++ frame.data ++ rest ++ slack)
        (front assembly.begun).length frame.lengths = some next ∧
      Receiving noDefrag ⟨some (stomped (front assembly.begun ++ frame.header).length frame.data),
        assembly.shown⟩ rest next := by
  have fits := frame.fits
  unfold intMax at fits
  have size := length_stomped room
  obtain ⟨more, grown⟩ := inPlace nc.recvMbuf
  obtain ⟨tail, taken⟩ := @takeFrame_first realloc nc rest slack frame assembly.begun more len
    (receiving.mode.trans off) begins code room grown
  have after := @Receiving.taken nc noDefrag assembly frame unread receiving off
    (stomped (front assembly.begun ++ frame.header).length frame.data) rest tail (by omega) 5
  rw [begins] at after
  exact ⟨_, taken, after⟩

/-- A later fragment goes on with the message, and the last one shows it. -/
theorem takes_later {begun : Bytes} (receiving : Receiving noDefrag assembly unread nc)
    (off : noDefrag = false) (len : nc.recvMbuf.len =
      (front (some begun) ++ frame.header ++ frame.data ++ rest).length)
    (later : frame.fin = true ∨ frame.opcode = 0)
    (small : begun.length + frame.data.length < 0x100000000) (slack : Bytes) :
    ∃ next, takeFrame realloc nc
        (front (some begun) ++ frame.header ++ frame.data ++ rest ++ slack)
        (front (some begun)).length frame.lengths = some next ∧
      Receiving noDefrag
        (if frame.fin then
          ⟨none, assembly.shown ++ [shownAs frame.flags (begun ++ frame.data)]⟩
        else ⟨some (begun ++ frame.data), assembly.shown⟩) rest next := by
  have size : (begun ++ frame.data).length < 0x100000000 := by
    rw [List.length_append]
    exact small
  exact ⟨_, takeFrame_continues len (receiving.mode.trans off) later small,
    receiving.taken off rest _ size _⟩

/-- One call takes one acceptable frame. -/
theorem deliver_accepts (inPlace : frame.fin = false → realloc.InPlace)
    (receiving : Receiving noDefrag assembly (frame.bytes ++ rest) nc)
    (acceptable : assembly.Acceptable noDefrag frame) :
    ∃ next, mgDeliverWebsocketData realloc nc = some (true, next) ∧
      Receiving noDefrag (assembly.accept noDefrag frame) rest next := by
  obtain ⟨slack, buffer⟩ := receiving.buffer
  have held : nc.recvMbuf = ⟨front assembly.begun ++ frame.bytes ++ rest ++ slack,
      (front assembly.begun ++ frame.bytes ++ rest).length⟩ := by
    rw [buffer]
    simp only [List.append_assoc]
  have len : nc.recvMbuf.len =
      (front assembly.begun ++ frame.header ++ frame.data ++ rest).length := by
    rw [held]
    simp only [List.length_append, frame.length_bytes]
    omega
  suffices taken : ∃ next, takeFrame realloc nc
      (front assembly.begun ++ frame.header ++ frame.data ++ rest ++ slack)
      (front assembly.begun).length frame.lengths = some next ∧
      Receiving noDefrag (assembly.accept noDefrag frame) rest next by
    obtain ⟨next, taken, after⟩ := taken
    rw [deliver_frame held (receiving.offset (acceptable.begins (.inr rfl))), taken]
    exact ⟨next, rfl, after⟩
  unfold Assembly.accept Assembly.Acceptable at *
  cases begun : assembly.begun with
  | none =>
    rw [begun] at acceptable len
    by_cases plain : noDefrag = true ∨ frame.fin = true
    · rw [if_pos plain]
      refine takes_message receiving len ?_ slack
      rcases acceptable with on | ⟨code, -⟩
      · exact .inl on
      · exact plain.imp_right fun fin => ⟨fin, code⟩
    · have off : noDefrag = false := by simpa using fun on => plain (.inl on)
      have begins : frame.fin = false := by simpa using fun fin => plain (.inr fin)
      obtain ⟨code, room⟩ := acceptable.resolve_left fun on => plain (.inl on)
      have taken := takes_first (inPlace begins) receiving off (begun ▸ len) begins code
        (by simpa [begun, front, frame.length_bytes] using room begins) slack
      rw [if_neg plain]
      rwa [begun] at taken
  | some data =>
    rw [begun] at acceptable len
    have off : noDefrag = false := by
      by_contra on
      rw [receiving.whole (by simpa using on)] at begun
      cases begun
    by_cases later : frame.fin = true ∨ frame.opcode = 0
    · obtain ⟨next, taken, after⟩ := takes_later receiving off len later acceptable slack
      refine ⟨next, taken, ?_⟩
      rcases later with fin | zero
      · simpa [fin] using after
      · simpa [zero] using after
    · have begins : frame.fin = false := by simpa using fun fin => later (.inl fin)
      have code : frame.opcode ≠ 0 := fun zero => later (.inr zero)
      have behind : 5 ≤ (front assembly.begun ++ frame.header).length := by
        rw [begun, List.length_append, length_front_some]
        omega
      have taken := takes_first (inPlace begins) receiving off (begun ▸ len) begins code (by omega)
        slack
      rw [stomped_eq behind, begun] at taken
      simpa [begins, code] using taken

/-- A part of a frame that can come is left. -/
theorem deliver_waits {later : List WsFrame} (receiving : Receiving noDefrag assembly part nc)
    (unfinished : Unfinished WsFrame.bytes later part)
    (acceptable : assembly.AllAcceptable noDefrag later) :
    mgDeliverWebsocketData realloc nc = some (false, nc) := by
  obtain ⟨slack, buffer⟩ := receiving.buffer
  rcases unfinished with rfl | ⟨frame, frames, missing, rfl, cut, more⟩
  · have offset := receiving.offset fun _ => .inr (.inl rfl)
    rw [List.append_nil] at buffer
    exact deliver_nothing buffer offset
  · have head : part = [] ∨ part.head? = some frame.flags := by
      cases part with
      | nil => exact .inl rfl
      | cons byte part =>
        have first := congrArg List.head? cut
        exact .inr first.symm
    have offset := receiving.offset (acceptable.1.begins head)
    exact deliver_part cut more buffer offset

/-- A segment is added behind the unread bytes. -/
theorem recv_adds (appends : ∀ mbuf bytes, (realloc.append mbuf bytes).isSome)
    (receiving : Receiving noDefrag assembly unread nc) (segment : Bytes) :
    Receiving noDefrag assembly (unread ++ segment) (mgRecvCommon realloc nc segment) := by
  obtain ⟨⟨slack, buffer⟩, mode, shown, whole, small⟩ := receiving
  suffices added : ∃ slack, (mgRecvCommon realloc nc segment).recvMbuf =
      ⟨front assembly.begun ++ (unread ++ segment) ++ slack,
        (front assembly.begun ++ (unread ++ segment)).length⟩ by
    refine ⟨added, ?_, ?_, whole, small⟩
    · rw [← mode]
      unfold mgRecvCommon
      split <;> rfl
    · rw [← shown]
      unfold mgRecvCommon
      split <;> rfl
  have size : (front assembly.begun ++ (unread ++ segment)).length =
      nc.recvMbuf.len + segment.length := by
    rw [buffer]
    simp only [List.length_append]
    omega
  unfold mgRecvCommon
  by_cases empty : nc.recvMbuf.len = 0
  · have nothing : front assembly.begun ++ unread = [] := by
      rw [buffer] at empty
      exact List.eq_nil_of_length_eq_zero empty
    rw [if_pos empty, ← List.append_assoc, nothing]
    exact ⟨[], by simp⟩
  · rw [if_neg empty, size]
    have used : nc.recvMbuf.buf.take nc.recvMbuf.len = front assembly.begun ++ unread := by
      rw [buffer]
      exact List.take_left
    unfold Mbuf.append
    by_cases fits : nc.recvMbuf.len + segment.length ≤ nc.recvMbuf.buf.length
    · refine ⟨nc.recvMbuf.buf.drop (nc.recvMbuf.len + segment.length), ?_⟩
      rw [if_pos fits, store, used]
      simp only [List.append_assoc]
    · obtain ⟨spare, grown⟩ := Option.isSome_iff_exists.mp (appends nc.recvMbuf segment)
      refine ⟨spare, ?_⟩
      rw [if_neg fits, grown, Mbuf.used, used]
      simp only [List.append_assoc]

end

/-- Frames can come behind others when they can after these. -/
theorem Assembly.allAcceptable_append {noDefrag : Bool} {assembly : Assembly}
    {done later : List WsFrame} :
    assembly.AllAcceptable noDefrag (done ++ later) ↔ assembly.AllAcceptable noDefrag done ∧
      (done.foldl (Assembly.accept noDefrag) assembly).AllAcceptable noDefrag later := by
  induction done generalizing assembly with
  | nil => exact (iff_of_eq (true_and _)).symm
  | cons frame done ih => exact (and_congr_right fun _ => ih).trans and_assoc.symm

/-- A connection reads every sequence of acceptable frames. -/
theorem frames_read {realloc : Realloc} {noDefrag : Bool} {frames : List WsFrame}
    (inPlace : ∀ frame ∈ frames, frame.fin = false → realloc.InPlace)
    (appends : ∀ mbuf bytes, (realloc.append mbuf bytes).isSome)
    (acceptable : Assembly.AllAcceptable noDefrag {} frames) :
    (mgWsHandler realloc).Reads WsFrame.bytes frames fun done unread nc =>
      Receiving noDefrag (done.foldl (Assembly.accept noDefrag) {}) unread nc where
  nonempty frame _ := frame.bytes_ne_nil
  pushed _ _ _ segment receiving := recv_adds appends receiving segment
  taken done frame later unread nc split _ receiving := by
    have member : frame ∈ frames := by simp [split]
    rw [split, Assembly.allAcceptable_append] at acceptable
    rw [List.foldl_append]
    exact deliver_accepts (inPlace frame member) receiving acceptable.2.1
  waits done later part nc split unfinished receiving := by
    rw [split, Assembly.allAcceptable_append] at acceptable
    exact deliver_waits receiving unfinished acceptable.2
  enough done unread nc receiving := by
    obtain ⟨slack, buffer⟩ := receiving.buffer
    have len := congrArg Mbuf.len buffer
    simp only [List.length_append] at len
    show unread.length < nc.recvMbuf.len + 5
    omega

/-! ## Messages -/

/-- Send frames by calls of `mg_send_websocket_frame`. -/
def sendFrames (out : Bytes) (frames : List WsFrame) : Bytes :=
  frames.foldl (fun out frame => (mgSendWebsocketFrame out frame.mask frame.op frame.data).1) out

/-- Frames are sent one behind the other. -/
theorem sendFrames_eq (out : Bytes) (frames : List WsFrame) :
    sendFrames out frames = out ++ frames.flatMap WsFrame.bytes := by
  unfold sendFrames
  induction frames generalizing out with
  | nil => simp
  | cons frame frames ih =>
    rw [List.foldl_cons, mgSendWebsocketFrame_eq, ih, List.flatMap_cons, List.append_assoc]

/-- What is sent of a message in one frame. -/
structure WsPiece where
  /-- The mask of a client. -/
  mask : Option Bytes
  /-- Payload. -/
  data : Bytes
  /-- A mask is a 32-bit word. -/
  four : ∀ word ∈ mask, word.length = 4
  /-- The payload fits into an `int`. -/
  fits : data.length ≤ intMax

/-- The frame of a piece. -/
def WsPiece.frame (piece : WsPiece) (fin : Bool) (opcode : Fin 16) : WsFrame :=
  ⟨fin, opcode, piece.mask, piece.data, piece.four, piece.fits⟩

/-- The frames of the later pieces of a message. -/
def continuations : List WsPiece → List WsFrame
  | [] => []
  | piece :: rest => piece.frame rest.isEmpty 0 :: continuations rest

/-- A message that is sent in one frame or in several. -/
structure WsOutgoing where
  /-- Operation code. -/
  opcode : Fin 16
  /-- A message is not a continuation. -/
  named : opcode ≠ 0
  /-- The first piece. -/
  first : WsPiece
  /-- The other pieces. -/
  more : List WsPiece
  /-- The whole fits into the size word. -/
  total : (first.data ++ more.flatMap WsPiece.data).length < 0x100000000

namespace WsOutgoing

/-- The first frame. -/
def firstFrame (message : WsOutgoing) : WsFrame :=
  message.first.frame message.more.isEmpty message.opcode

/-- All frames. -/
def frames (message : WsOutgoing) : List WsFrame :=
  message.firstFrame :: continuations message.more

/-- Send the frames of a message. -/
def send (out : Bytes) (message : WsOutgoing) : Bytes := sendFrames out message.frames

/-- The data of a message. -/
def data (message : WsOutgoing) : Bytes :=
  message.first.data ++ message.more.flatMap WsPiece.data

/-- The first byte of its last frame. -/
def flags (message : WsOutgoing) : UInt8 :=
  if message.more = [] then UInt8.ofNat (0x80 + message.opcode) else 0x80

/-- The data as they are reassembled. -/
def received (message : WsOutgoing) : Bytes :=
  if message.more = [] then message.first.data
  else stomped message.firstFrame.header.length message.first.data ++
    message.more.flatMap WsPiece.data

/-- The size word does not reach past the first of several frames. -/
def Roomy (message : WsOutgoing) : Prop :=
  message.more = [] ∨ 5 ≤ message.firstFrame.bytes.length

/-- The bytes of the first of several frames that the size word falls on are zero. -/
def Spared (message : WsOutgoing) : Prop :=
  message.more = [] ∨
    ∀ byte ∈ message.first.data.take (5 - message.firstFrame.header.length), byte = 0

end WsOutgoing

/-- Messages are sent as the frames of all. -/
theorem sendAll_eq (messages : List WsOutgoing) (out : Bytes) :
    messages.foldl WsOutgoing.send out =
      out ++ (messages.flatMap WsOutgoing.frames).flatMap WsFrame.bytes := by
  induction messages generalizing out with
  | nil => simp
  | cons message messages ih =>
    rw [List.foldl_cons, WsOutgoing.send, sendFrames_eq, ih, List.flatMap_cons, List.flatMap_append,
      List.append_assoc]

/-- The later pieces complete a message. -/
theorem accept_continuations {begun : Bytes} {shown : List (WsEvent × WsMessage)}
    {more : List WsPiece} (present : more ≠ []) :
    (continuations more).foldl (Assembly.accept false) ⟨some begun, shown⟩ =
      ⟨none, shown ++ [shownAs 0x80 (begun ++ more.flatMap WsPiece.data)]⟩ := by
  induction more generalizing begun with
  | nil => exact absurd rfl present
  | cons piece rest ih =>
    cases rest with
    | nil =>
      have step : Assembly.accept false ⟨some begun, shown⟩ (piece.frame true 0) =
          ⟨none, shown ++ [shownAs 0x80 (begun ++ piece.data)]⟩ := rfl
      rw [List.flatMap_cons, List.flatMap_nil, List.append_nil]
      exact step
    | cons next rest =>
      have step : Assembly.accept false ⟨some begun, shown⟩ (piece.frame false 0) =
          ⟨some (begun ++ piece.data), shown⟩ := rfl
      rw [continuations, List.foldl_cons]
      show (continuations (next :: rest)).foldl _ (Assembly.accept false ⟨some begun, shown⟩
        (piece.frame false 0)) = _
      rw [step, ih (by simp), List.append_assoc]
      rfl

/-- The later pieces can come. -/
theorem acceptable_continuations {begun : Bytes} {shown : List (WsEvent × WsMessage)}
    {more : List WsPiece}
    (total : (begun ++ more.flatMap WsPiece.data).length < 0x100000000) :
    Assembly.AllAcceptable false ⟨some begun, shown⟩ (continuations more) := by
  induction more generalizing begun with
  | nil => trivial
  | cons piece rest ih =>
    have sizes : begun.length + (piece.data.length + (rest.flatMap WsPiece.data).length) <
        0x100000000 := by simpa using total
    cases rest with
    | nil => exact ⟨by show begun.length + piece.data.length < 0x100000000; omega, trivial⟩
    | cons next rest =>
      refine ⟨by show begun.length + piece.data.length < 0x100000000; omega, ?_⟩
      show Assembly.AllAcceptable false ⟨some (begun ++ piece.data), shown⟩ _
      apply ih
      simpa [List.append_assoc] using total

/-- Before its last frame, a message is not shown. -/
theorem accept_some {begun : Bytes} {shown : List (WsEvent × WsMessage)} {more : List WsPiece}
    {now later : List WsFrame} (split : continuations more = now ++ later) (missing : later ≠ []) :
    (now.foldl (Assembly.accept false) ⟨some begun, shown⟩).shown = shown := by
  induction more generalizing begun now with
  | nil =>
    obtain ⟨-, rfl⟩ := List.append_eq_nil_iff.mp split.symm
    exact absurd rfl missing
  | cons piece rest ih =>
    cases now with
    | nil => rfl
    | cons frame now =>
      rw [continuations, List.cons_append, List.cons.injEq] at split
      obtain ⟨rfl, split⟩ := split
      cases rest with
      | nil =>
        obtain ⟨-, rfl⟩ := List.append_eq_nil_iff.mp split.symm
        exact absurd rfl missing
      | cons next rest =>
        rw [List.foldl_cons]
        exact ih split

namespace WsOutgoing

/-- The data that are reassembled are as many as were sent. -/
theorem length_received {message : WsOutgoing} (roomy : message.Roomy) :
    message.received.length = message.data.length := by
  unfold received data
  by_cases alone : message.more = []
  · simp [alone]
  · have room : 5 ≤ message.firstFrame.header.length + message.first.data.length := by
      have bytes := roomy.resolve_left alone
      rwa [WsFrame.length_bytes] at bytes
    rw [if_neg alone, List.length_append, length_stomped room, List.length_append]

/-- All frames of a message show it, as it is reassembled. -/
theorem accept_frames (message : WsOutgoing) (shown : List (WsEvent × WsMessage)) :
    message.frames.foldl (Assembly.accept false) ⟨none, shown⟩ =
      ⟨none, shown ++ [shownAs message.flags message.received]⟩ := by
  unfold frames received flags firstFrame
  rw [List.foldl_cons]
  cases more : message.more with
  | nil =>
    rw [if_pos rfl, if_pos rfl]
    rfl
  | cons piece rest =>
    have step : Assembly.accept false ⟨none, shown⟩ (message.first.frame false message.opcode) =
        ⟨some (stomped (message.first.frame false message.opcode).header.length
          message.first.data), shown⟩ := rfl
    rw [if_neg (by simp), if_neg (by simp)]
    show (continuations (piece :: rest)).foldl _ (Assembly.accept false ⟨none, shown⟩
      (message.first.frame false message.opcode)) = _
    rw [step, accept_continuations (by simp)]
    rfl

/-- The frames of a message can come. -/
theorem acceptable_frames {message : WsOutgoing} (roomy : message.Roomy)
    (shown : List (WsEvent × WsMessage)) :
    Assembly.AllAcceptable false ⟨none, shown⟩ message.frames := by
  unfold frames firstFrame
  refine ⟨.inr ⟨message.named, ?_⟩, ?_⟩
  · intro begins
    refine roomy.resolve_left fun alone => ?_
    rw [alone] at begins
    cases begins
  · cases more : message.more with
    | nil => trivial
    | cons piece rest =>
      show Assembly.AllAcceptable false ⟨some (stomped
        (message.first.frame false message.opcode).header.length message.first.data), shown⟩ _
      apply acceptable_continuations
      have same := length_received roomy
      have total := message.total
      have alone : message.more ≠ [] := by simp [more]
      rw [received, if_neg alone, data, firstFrame, more] at same
      rw [more] at total
      rwa [← same] at total

/-- Before its last frame, a message is not shown. -/
theorem accept_part {message : WsOutgoing} {shown : List (WsEvent × WsMessage)}
    {now later : List WsFrame} (split : message.frames = now ++ later) (missing : later ≠ []) :
    (now.foldl (Assembly.accept false) ⟨none, shown⟩).shown = shown := by
  cases now with
  | nil => rfl
  | cons frame now =>
    rw [frames, List.cons_append, List.cons.injEq] at split
    obtain ⟨rfl, split⟩ := split
    cases more : message.more with
    | nil =>
      rw [more] at split
      obtain ⟨-, rfl⟩ := List.append_eq_nil_iff.mp split.symm
      exact absurd rfl missing
    | cons piece rest =>
      rw [firstFrame, more]
      exact accept_some (more ▸ split) missing

end WsOutgoing

/-- All frames of some messages show these messages. -/
theorem accept_messages (messages : List WsOutgoing) (shown : List (WsEvent × WsMessage)) :
    (messages.flatMap WsOutgoing.frames).foldl (Assembly.accept false) ⟨none, shown⟩ =
      ⟨none, shown ++ messages.map fun message => shownAs message.flags message.received⟩ := by
  induction messages generalizing shown with
  | nil => simp
  | cons message messages ih =>
    rw [List.flatMap_cons, List.foldl_append, message.accept_frames, ih]
    simp

/-- The frames of some messages can come. -/
theorem acceptable_messages {messages : List WsOutgoing}
    (roomy : ∀ message ∈ messages, message.Roomy) (shown : List (WsEvent × WsMessage)) :
    Assembly.AllAcceptable false ⟨none, shown⟩ (messages.flatMap WsOutgoing.frames) := by
  induction messages generalizing shown with
  | nil => trivial
  | cons message messages ih =>
    have first := WsOutgoing.acceptable_frames (roomy message List.mem_cons_self) shown
    rw [List.flatMap_cons, Assembly.allAcceptable_append, message.accept_frames]
    exact ⟨first, ih (fun other member => roomy other (List.mem_cons_of_mem message member)) _⟩

/-! ## What arrives -/

/-- A call of `mg_deliver_websocket_data` goes on in a block that `mbuf_resize` has freed, and would
not fail had the block been enlarged where it is. -/
structure UsesFreed (realloc : Realloc) (nc : WsConn) : Prop where
  /-- `realloc` moves the block. -/
  moved : realloc.resize nc.recvMbuf = .moved
  /-- The old block is used. -/
  fails : mgDeliverWebsocketData realloc nc = none
  /-- It is used for no other reason. -/
  otherwise : (mgDeliverWebsocketData realloc.steady nc).isSome

/-- While segments arrive, a connection comes to a frame for which the block is moved, and uses the
freed one. -/
def MovesBlock (realloc : Realloc) (nc : WsConn) (segments : List Bytes) : Prop :=
  ∃ last, (mgWsHandler realloc).Visits nc segments last ∧ UsesFreed realloc last

section
variable {realloc : Realloc}

/-- Taking a frame does not depend on where the block is, unless it is moved. -/
theorem takeFrame_steady (nc : WsConn) (buf : Bytes) (offset : Nat) (lengths : WsLengths) :
    takeFrame realloc nc buf offset lengths = takeFrame realloc.steady nc buf offset lengths ∨
      realloc.resize nc.recvMbuf = .moved ∧ takeFrame realloc nc buf offset lengths = none := by
  cases resized : realloc.resize nc.recvMbuf with
  | inPlace more | failed =>
    have same : realloc.steady.resize nc.recvMbuf = realloc.resize nc.recvMbuf := by
      simp only [Realloc.steady, resized]
    left
    simp only [takeFrame, same]
  | moved =>
    by_cases fragment : mgIsWsFragment (buf.headD 0) ∧ nc.noDefrag = false
    · by_cases first : mgIsWsFirstFragment (buf.getD offset 0)
      · right
        refine ⟨rfl, ?_⟩
        unfold takeFrame
        rw [if_pos fragment, if_pos first, resized]
        rfl
      · left
        simp only [takeFrame, if_pos fragment, if_neg first]
    · left
      simp only [takeFrame, if_neg fragment]

/-- A call does not depend on where the block is, unless it is moved and used afterwards. -/
theorem deliver_steady (nc : WsConn) :
    mgDeliverWebsocketData realloc nc = mgDeliverWebsocketData realloc.steady nc ∨
      UsesFreed realloc nc := by
  by_cases same : mgDeliverWebsocketData realloc nc = mgDeliverWebsocketData realloc.steady nc
  · exact .inl same
  right
  suffices moves : realloc.resize nc.recvMbuf = .moved ∧
      mgDeliverWebsocketData realloc nc = none by
    refine ⟨moves.1, moves.2, Option.ne_none_iff_isSome.mp fun none => ?_⟩
    exact same (moves.2.trans none.symm)
  unfold mgDeliverWebsocketData at same ⊢
  dsimp only at same ⊢
  split_ifs at same ⊢
  · exact absurd rfl same
  · rcases takeFrame_steady nc _ _ _ with equal | ⟨moved, fails⟩
    · exact absurd (by rw [equal]) same
    · exact ⟨moved, by rw [fails]; rfl⟩
  · exact absurd rfl same
  · rcases takeFrame_steady nc _ _ _ with equal | ⟨moved, fails⟩
    · exact absurd (by rw [equal]) same
    · exact ⟨moved, by rw [fails]; rfl⟩

/-- A connection that has yet to look at what it holds goes on as with blocks that stay where they
are, or uses a freed one. -/
theorem resume_steady (segments : List Bytes) (count : Nat) (nc : WsConn) :
    (drain (mgDeliverWebsocketData realloc) count nc).bind
          (segments.foldlM (mgWsHandler realloc).receive ·) =
        (drain (mgDeliverWebsocketData realloc.steady) count nc).bind
          (segments.foldlM (mgWsHandler realloc.steady).receive ·) ∨
      MovesBlock realloc nc segments :=
  @Intake.resume_or_visits _ _ (mgWsHandler realloc) (mgWsHandler realloc.steady)
    (UsesFreed realloc) rfl rfl deliver_steady segments count nc

/-- The same for a connection that has received nothing. -/
theorem receive_steady (segments : List Bytes) :
    segments.foldlM (mgWsHandler realloc).receive {} =
        segments.foldlM (mgWsHandler realloc.steady).receive {} ∨
      MovesBlock realloc {} segments := by
  have idle : ∀ realloc : Realloc, drain (mgDeliverWebsocketData realloc) 5 {} = some {} :=
    fun _ => rfl
  have resumed := @resume_steady realloc segments 5 {}
  rwa [idle, idle, Option.bind_some, Option.bind_some] at resumed

end

/-- At every moment the messages that have arrived whole are shown, as they are reassembled, and
no others: from a receiver that has some of the stream and has yet to look at it. -/
theorem messages_resume {realloc : Realloc} (memory : realloc.Suffices)
    {messages : List WsOutgoing} (roomy : ∀ message ∈ messages, message.Roomy)
    (unread slack : Bytes) {segments : List Bytes} {coming : Bytes}
    (stream : unread ++ segments.flatten ++ coming = messages.foldl WsOutgoing.send []) :
    (∃ done later final, messages = done ++ later ∧
      (drain (mgDeliverWebsocketData realloc) (unread.length + 5)
        { recvMbuf := ⟨unread ++ slack, unread.length⟩ }).bind
          (segments.foldlM (mgWsHandler realloc).receive ·) = some final ∧
      final.shown = done.map (fun message => shownAs message.flags message.received) ∧
      done.foldl WsOutgoing.send [] <+: unread ++ segments.flatten ∧
      ∀ next rest, later = next :: rest →
        ¬(done ++ [next]).foldl WsOutgoing.send [] <+: unread ++ segments.flatten) ∨
      MovesBlock realloc { recvMbuf := ⟨unread ++ slack, unread.length⟩ } segments := by
  refine (resume_steady segments (unread.length + 5) _).imp_left fun same => ?_
  rw [same]
  have reads := frames_read (fun _ _ _ => memory.inPlace) memory.append
    (acceptable_messages roomy [])
  have fresh : Receiving false {} unread { recvMbuf := ⟨unread ++ slack, unread.length⟩ } :=
    ⟨⟨slack, rfl⟩, rfl, rfl, fun _ => rfl, fun data member => by cases member⟩
  rw [sendAll_eq, List.nil_append] at stream
  have enough : unread.length < unread.length + 5 := by omega
  obtain ⟨taken, left, part, final, split, arrived, unfinished, received, receiving⟩ :=
    reads.resume fresh stream enough
  obtain ⟨done, later, now, rfl, rfl, cut⟩ := exists_whole split.symm
  refine ⟨done, later, final, rfl, received, ?_, ?_, ?_⟩
  · rw [receiving.shown, List.foldl_append, accept_messages]
    rcases cut with rfl | ⟨message, others, missing, rfl, frames, more⟩
    · rfl
    · exact WsOutgoing.accept_part frames more
  · rw [sendAll_eq, arrived, List.nil_append, List.flatMap_append, List.append_assoc]
    exact List.prefix_append _ _
  · rintro next rest rfl ⟨beyond, whole⟩
    rw [sendAll_eq, arrived, List.nil_append, List.flatMap_append, List.flatMap_append,
      List.flatMap_append, List.append_assoc, List.append_assoc, List.append_cancel_left_eq,
      List.flatMap_singleton] at whole
    obtain ⟨missing, frames, more⟩ := cut.missing (List.cons_ne_nil _ _)
    have behind : left = missing ++ rest.flatMap WsOutgoing.frames := by
      have all := split
      rw [List.flatMap_append, List.flatMap_cons, frames] at all
      simpa using all.symm
    obtain ⟨frame, others, rfl⟩ := List.exists_cons_of_ne_nil more
    rw [frames, List.flatMap_append, List.append_assoc, List.append_cancel_left_eq,
      List.flatMap_cons, List.append_assoc] at whole
    rw [behind] at unfinished
    exact unfinished.not_prefix frame.bytes_ne_nil ⟨_, whole⟩

/-- The same from a connection that has received nothing. -/
theorem messages_progress {realloc : Realloc} (memory : realloc.Suffices)
    {messages : List WsOutgoing} (roomy : ∀ message ∈ messages, message.Roomy)
    {segments : List Bytes} {coming : Bytes}
    (stream : segments.flatten ++ coming = messages.foldl WsOutgoing.send []) :
    (∃ done later final, messages = done ++ later ∧
      segments.foldlM (mgWsHandler realloc).receive {} = some final ∧
      final.shown = done.map (fun message => shownAs message.flags message.received) ∧
      done.foldl WsOutgoing.send [] <+: segments.flatten ∧
      ∀ next rest, later = next :: rest →
        ¬(done ++ [next]).foldl WsOutgoing.send [] <+: segments.flatten) ∨
      MovesBlock realloc {} segments := by
  have idle : drain (mgDeliverWebsocketData realloc) 5 {} = some {} := rfl
  have resumed := messages_resume memory roomy [] [] stream
  have start : drain (mgDeliverWebsocketData realloc) (([] : Bytes).length + 5)
      { recvMbuf := ⟨[] ++ [], ([] : Bytes).length⟩ } = some {} := idle
  rwa [start] at resumed

namespace WsOutgoing

/-- The size word does not reach the data of a masked frame. -/
theorem behind_masked {message : WsOutgoing} (masked : message.first.mask.isSome) :
    5 ≤ message.firstFrame.header.length := by
  have mask := message.firstFrame.length_mask
  rw [show message.firstFrame.mask.isSome = true from masked, if_pos rfl] at mask
  rw [message.firstFrame.length_header, mask]
  omega

/-- A message whose first frame is masked is reassembled as it was sent. -/
theorem received_masked {message : WsOutgoing} (masked : message.first.mask.isSome) :
    message.Roomy ∧ message.received = message.data := by
  have behind := behind_masked masked
  constructor
  · right
    rw [message.firstFrame.length_bytes]
    omega
  · unfold received data
    rw [stomped_eq behind]
    split
    · rename_i alone
      simp [alone]
    · rfl

/-- A message is reassembled as it was sent if the size word falls on zeros. -/
theorem received_eq_iff {message : WsOutgoing} (roomy : message.Roomy) :
    message.received = message.data ↔ message.Spared := by
  unfold received data Spared
  by_cases alone : message.more = []
  · simp [alone]
  · have bytes := roomy.resolve_left alone
    rw [message.firstFrame.length_bytes] at bytes
    have count : 5 - message.firstFrame.header.length ≤ message.first.data.length := by
      have same : message.firstFrame.data = message.first.data := rfl
      rw [same] at bytes
      omega
    have parts := (List.take_append_drop (5 - message.firstFrame.header.length)
      message.first.data).symm
    rw [if_neg alone, List.append_cancel_right_eq, or_iff_right alone, stomped]
    conv_lhs => rhs; rw [parts]
    rw [List.append_cancel_right_eq, eq_comm, List.eq_replicate_iff, List.length_take,
      Nat.min_eq_left count]
    exact and_iff_right rfl

end WsOutgoing

/-- A heap with room behind every block. -/
def roomyHeap : Realloc :=
  ⟨fun _ _ => some [], fun _ => .inPlace [0, 0, 0, 0], fun _ _ enlarged => by cases enlarged; rfl⟩

theorem roomyHeap_suffices : roomyHeap.Suffices := ⟨fun _ _ => rfl, fun _ => by simp [roomyHeap]⟩

/-- It moves no block. -/
theorem roomyHeap_stays (nc : WsConn) (segments : List Bytes) :
    ¬MovesBlock roomyHeap nc segments := by
  rintro ⟨last, -, uses⟩
  cases uses.moved

/-- A text in two masked fragments. -/
def maskedText : WsOutgoing :=
  ⟨1, by decide, ⟨some [1, 2, 3, 4], ascii "he", by decide, by decide⟩,
    [⟨some [5, 6, 7, 8], ascii "llo", by decide, by decide⟩], by decide⟩

/-- The same text from a server. -/
def plainText : WsOutgoing :=
  ⟨1, by decide, ⟨none, ascii "hel", by decide, by decide⟩,
    [⟨none, ascii "lo", by decide, by decide⟩], by decide⟩

end CppCode.Mongoose
