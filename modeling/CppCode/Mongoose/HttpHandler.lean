import CppCode.Mongoose.Chunked

/-!
# The protocol handler

`mg_http_handler` on one connection, with `mg_recv_common` in front of it. A step of the
connection is a segment that arrives, the return of a callback, or its close. Callbacks are not
atomic: the handler of a request may poll the manager or free it, so segments and the close may
come before it returns, and the message is removed from the receive buffer only afterwards.

What ends the use of HTTP on a connection is kept as its status: an upgrade to WebSocket, whose
frames are not modelled because they reach neither `MG_EV_HTTP_REQUEST` nor `MG_EV_HTTP_REPLY`,
the close, and a stop of the whole program in `mg_handle_chunked`. No endpoints, files or scripts
are registered, so every event goes to the handler of the connection.
-/

namespace CppCode.Mongoose

open Library

/-- `MG_MAX_HTTP_REQUEST_SIZE` of the Windows and Unix targets. -/
def mgMaxHttpRequestSize : Nat := 8192

/-- What a connection is used for. -/
inductive Status
  /-- `mg_http_handler` is its protocol handler. -/
  | http
  /-- `mg_ws_handler` is its protocol handler. -/
  | websocket
  /-- It was closed. -/
  | closed
  /-- The program stopped while it handled the connection. -/
  | stopped
  deriving DecidableEq, Repr

/-- A call of the event handler with `MG_EV_HTTP_REQUEST` or `MG_EV_HTTP_REPLY`. -/
structure Delivery where
  /-- The bytes in the receive buffer at the time of the call. -/
  held : Bytes
  /-- The message passed to the handler. -/
  hm : HttpMessage
  deriving DecidableEq, Repr

/-- A connection, as far as the protocol handler uses it. -/
structure HttpConn where
  /-- `recv_mbuf`. -/
  recvMbuf : Bytes := []
  /-- `chunk.body_len` of the protocol data. -/
  chunkBodyLen : Nat := 0
  /-- What the connection is used for. -/
  status : Status := .http
  /-- `MG_F_CLOSE_IMMEDIATELY`. -/
  closeImmediately : Bool := false
  /-- Lengths of the messages whose callbacks have not returned, innermost first. -/
  removals : List Nat := []
  /-- The calls of the event handler so far. -/
  delivered : List Delivery := []
  deriving DecidableEq, Repr

/-- Whether a chunk stands in the memory behind the receive buffer, where the next one of its body
is looked for when fewer bytes are there than were reassembled. -/
def HttpConn.stray (platform : Platform) (nc : HttpConn) : Bool :=
  platform.strayChunk nc.recvMbuf nc.chunkBodyLen nc.delivered.length

/-- `mbuf_append`, which drops the bytes when the buffer cannot grow. -/
def mbufAppend (platform : Platform) (mbuf buf : Bytes) : Bytes :=
  if mbuf.length + buf.length ≤ platform.heap then mbuf ++ buf else mbuf

/-- `mbuf_remove`, which ignores a length that is not in the buffer. -/
def mbufRemove (mbuf : Bytes) (n : Nat) : Bytes :=
  if 0 < n ∧ n ≤ mbuf.length then mbuf.drop n else mbuf

/-- The header that makes a message an upgrade to WebSocket. -/
def upgradeHeader (isReq : Bool) : Bytes :=
  if isReq then ascii "Sec-WebSocket-Key" else ascii "Sec-WebSocket-Accept"

/-- `Transfer-Encoding: chunked`. -/
def isChunked (buf : Bytes) (hm : HttpMessage) : Bool :=
  match mgGetHttpHeader buf hm (ascii "Transfer-Encoding") with
  | none => false
  | some value => mgVcasecmp buf value (ascii "chunked") = 0

/-- The chain of tests at the end of `mg_http_handler`, up to the call of the event handler. -/
def dispatch (isReq : Bool) (nc : HttpConn) (reqLen : Int) (hm : HttpMessage) : HttpConn :=
  let io := nc.recvMbuf
  if reqLen < 0 ∨ reqLen = 0 ∧ io.length ≥ mgMaxHttpRequestSize then
    { nc with closeImmediately := true }
  else if reqLen = 0 then nc
  else if (mgGetHttpHeader io hm (upgradeHeader isReq)).isSome then
    { nc with recvMbuf := mbufRemove io reqLen.toNat, status := .websocket }
  else if hm.message.len ≤ io.length then
    { nc with
      removals := hm.message.len :: nc.removals
      delivered := nc.delivered ++ [⟨io, hm⟩] }
  else nc

/-- `mg_http_handler` after the buffer was parsed: a chunked body is reassembled first. -/
def handleParsed (platform : Platform) (isReq : Bool) (nc : HttpConn) (reqLen : Int)
    (hm : HttpMessage) : HttpConn :=
  if reqLen > 0 ∧ isChunked nc.recvMbuf hm = true then
    match mgHandleChunked platform (nc.stray platform) nc.recvMbuf reqLen.toNat nc.chunkBodyLen hm
    with
    | none => { nc with status := .stopped }
    | some (recvMbuf, chunkBodyLen, hm) =>
      dispatch isReq { nc with recvMbuf, chunkBodyLen } reqLen hm
  else dispatch isReq nc reqLen hm

/-- `mg_http_handler` for `MG_EV_RECV`. -/
def handleRecv (platform : Platform) (isReq : Bool) (nc : HttpConn) : HttpConn :=
  let parsed := mgParseHttp platform nc.recvMbuf (toInt nc.recvMbuf.length) isReq
  handleParsed platform isReq nc parsed.1 parsed.2

/-- Receiving is parsing the buffer, then handling what was parsed. -/
theorem handleRecv_eq (platform : Platform) (isReq : Bool) (nc : HttpConn) :
    handleRecv platform isReq nc = handleParsed platform isReq nc
      (mgParseHttp platform nc.recvMbuf (toInt nc.recvMbuf.length) isReq).1
      (mgParseHttp platform nc.recvMbuf (toInt nc.recvMbuf.length) isReq).2 := rfl

/-- The message that is delivered before `MG_EV_CLOSE`: its body is what the buffer holds. -/
def closingMessage (io : Bytes) (reqLen : Int) (hm : HttpMessage) : HttpMessage :=
  { hm with
    message := { hm.message with len := io.length }
    body := { hm.body with len := io.length - reqLen.toNat } }

/-- `mg_http_handler` for `MG_EV_CLOSE`: a message whose block is complete is delivered with the
bytes that there are. -/
def handleClose (platform : Platform) (isReq : Bool) (nc : HttpConn) : HttpConn :=
  let io := nc.recvMbuf
  let parsed := mgParseHttp platform io (toInt io.length) isReq
  let nc := { nc with status := .closed }
  if io.length > 0 ∧ parsed.1 > 0 then
    { nc with delivered := nc.delivered ++ [⟨io, closingMessage io parsed.1 parsed.2⟩] }
  else nc

/-- What happens to a connection. -/
inductive Action
  /-- A segment is passed to `mg_recv_common`. -/
  | recv (buf : Bytes)
  /-- The innermost callback returns. -/
  | returns
  /-- `mg_close_conn`. -/
  | close
  deriving DecidableEq, Repr

/-- The effect of an action, `none` when it is not enabled. -/
def step (platform : Platform) (isReq : Bool) (nc : HttpConn) : Action → Option HttpConn
  | .recv buf =>
    match nc.status with
    | .http =>
      if nc.closeImmediately then some nc
      else
        let nc := { nc with recvMbuf := mbufAppend platform nc.recvMbuf buf }
        some (handleRecv platform isReq nc)
    | .websocket => some nc
    | .closed | .stopped => none
  | .returns =>
    match nc.status, nc.removals with
    | .stopped, _ | _, [] => none
    -- the connection was freed while the callback ran, and its buffer with it
    | .closed, _ :: removals => some { nc with removals }
    | _, n :: removals => some { nc with recvMbuf := mbufRemove nc.recvMbuf n, removals }
  | .close =>
    match nc.status with
    | .http => some (handleClose platform isReq nc)
    | .websocket => some { nc with status := .closed }
    | .closed | .stopped => none

/-! ## Segments -/

/-- A segment arrives. When it completes a message, the callback for it returns before anything else
happens on the connection. -/
def recvSegment (platform : Platform) (isReq : Bool) (nc : HttpConn) (segment : Bytes) :
    Option HttpConn :=
  (step platform isReq nc (.recv segment)).bind fun nc =>
    match nc.removals with
    | [] => some nc
    | _ :: _ => step platform isReq nc .returns

/-- A connection that has received some bytes and delivered nothing. -/
def waiting (buf : Bytes) : HttpConn := { recvMbuf := buf }

section
variable {platform : Platform} {isReq : Bool} {buf segment : Bytes}

/-- Handling the bytes that a connection has received. -/
theorem handleRecv_waiting (buf : Bytes) :
    handleRecv platform isReq (waiting buf) = handleParsed platform isReq (waiting buf)
      (mgParseHttp platform buf (toInt buf.length) isReq).1
      (mgParseHttp platform buf (toInt buf.length) isReq).2 := handleRecv_eq platform isReq _

/-- An incomplete block leaves a short buffer as it is. -/
theorem handleParsed_zero {nc : HttpConn} (hm : HttpMessage)
    (short : nc.recvMbuf.length < mgMaxHttpRequestSize) :
    handleParsed platform isReq nc 0 hm = nc := by
  unfold handleParsed
  rw [if_neg fun both => absurd both.1 (by simp)]
  simp only [dispatch]
  rw [if_neg, if_pos trivial]
  rintro (negative | ⟨-, large⟩)
  · exact absurd negative (by simp)
  · omega

/-- An incomplete block in a long buffer closes the connection. -/
theorem handleParsed_overlong {nc : HttpConn} (hm : HttpMessage)
    (long : mgMaxHttpRequestSize ≤ nc.recvMbuf.length) :
    handleParsed platform isReq nc 0 hm = { nc with closeImmediately := true } := by
  unfold handleParsed
  rw [if_neg fun both => absurd both.1 (by simp)]
  simp only [dispatch]
  rw [if_pos (.inr ⟨trivial, long⟩)]

/-- A segment arrives at a connection that is waiting. -/
theorem step_waiting (heap : buf.length + segment.length ≤ platform.heap) :
    step platform isReq (waiting buf) (.recv segment) =
      some (handleRecv platform isReq (waiting (buf ++ segment))) := by
  have grown : mbufAppend platform buf segment = buf ++ segment := if_pos heap
  show some (handleRecv platform isReq
    { waiting buf with recvMbuf := mbufAppend platform buf segment }) = _
  rw [grown]
  rfl

/-- A segment that completes nothing is added to the bytes that wait. -/
theorem recvSegment_part (heap : buf.length + segment.length ≤ platform.heap)
    (kept : handleRecv platform isReq (waiting (buf ++ segment)) = waiting (buf ++ segment)) :
    recvSegment platform isReq (waiting buf) segment = some (waiting (buf ++ segment)) := by
  rw [recvSegment, step_waiting heap, kept]
  rfl

/-- A segment that ends with its message empties the buffer. -/
theorem recvSegment_whole {delivered : List Delivery}
    (heap : buf.length + segment.length ≤ platform.heap) (present : 0 < (buf ++ segment).length)
    (handled : handleRecv platform isReq (waiting (buf ++ segment)) =
      { waiting (buf ++ segment) with
        removals := [(buf ++ segment).length]
        delivered }) :
    recvSegment platform isReq (waiting buf) segment =
      some { waiting [] with delivered } := by
  have removed : mbufRemove (buf ++ segment) (buf ++ segment).length = [] := by
    rw [mbufRemove, if_pos ⟨present, le_refl _⟩, List.drop_length]
  rw [recvSegment, step_waiting heap, handled]
  show some { waiting [] with
    recvMbuf := mbufRemove (buf ++ segment) (buf ++ segment).length
    delivered } = _
  rw [removed]
  rfl

end

end CppCode.Mongoose
