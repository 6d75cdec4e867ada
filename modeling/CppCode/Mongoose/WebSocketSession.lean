import CppCode.Mongoose.Handshake
import CppCode.Mongoose.WebSocketMessages

/-!
# A WebSocket session

A connection of a server from its first byte on: `mg_http_handler` until a handshake is whole, then
`mg_ws_handler`, which is called at once for what was received behind the handshake. Messages that a
client sends without waiting for the answer are not lost, however the network cuts the stream
(`session_messages_shown`), but they can spoil the answer: the key that it is made of is read where
the buffer held it before the handshake was removed.
-/

namespace CppCode.Mongoose

open Library

/-- A connection of a server. -/
inductive WsSession
  /-- `mg_http_handler` is its protocol handler. -/
  | http (nc : HttpConn)
  /-- `mg_ws_handler` is its protocol handler, and this was sent. -/
  | websocket (nc : WsConn) (sendMbuf : Bytes)
  deriving DecidableEq

/-- The receive buffer and the message that `mg_http_handler` tests for an upgrade. -/
def upgradeMessage (platform : Platform) (nc : HttpConn) : Bytes × Int × HttpMessage :=
  let io := nc.recvMbuf
  let parsed := mgParseHttp platform io (toInt io.length) true
  if parsed.1 > 0 ∧ isChunked io parsed.2 = true then
    match mgHandleChunked platform (nc.stray platform) io parsed.1.toNat nc.chunkBodyLen
      parsed.2 with
    | none => (io, parsed)
    | some (recvMbuf, _, hm) => (recvMbuf, parsed.1, hm)
  else (io, parsed)

/-- The branch of `mg_http_handler` for a WebSocket request, with the bytes behind those in use in
the receive buffer and an event handler that leaves the buffers alone. Nothing waits to be sent. -/
def switchProtocol (realloc : Realloc) (garbage slack io : Bytes) (reqLen : Int)
    (hm : HttpMessage) : Option WsSession :=
  match mgGetHttpHeader io hm (upgradeHeader true) with
  | none => none
  | some vec =>
    let accepted := acceptWebsocket garbage ⟨io ++ slack, io.length⟩ [] reqLen.toNat vec
    (drain (mgDeliverWebsocketData realloc) (accepted.1.len + 5) { recvMbuf := accepted.1 }).map
      fun nc => .websocket nc accepted.2

/-- A segment arrives. -/
def WsSession.receive (platform : Platform) (realloc : Realloc) (garbage slack : Bytes) :
    WsSession → Bytes → Option WsSession
  | .http nc, segment =>
    (recvSegment platform true nc segment).bind fun next =>
      if next.status = .websocket then
        let message := upgradeMessage platform
          { nc with recvMbuf := mbufAppend platform nc.recvMbuf segment }
        switchProtocol realloc garbage slack message.1 message.2.1 message.2.2
      else some (.http next)
  | .websocket nc sendMbuf, segment =>
    ((mgWsHandler realloc).receive nc segment).map fun next => .websocket next sendMbuf

section
variable {platform : Platform} {realloc : Realloc} {garbage slack buf behind : Bytes}
  {handshake : WsHandshake}

/-- Segments of frames are handled by `mg_ws_handler`. -/
theorem receive_websocket (nc : WsConn) (sendMbuf : Bytes) (segments : List Bytes) :
    run (WsSession.receive platform realloc garbage slack) (.websocket nc sendMbuf) segments =
      (segments.foldlM (mgWsHandler realloc).receive nc).map fun next =>
        .websocket next sendMbuf := by
  induction segments generalizing nc with
  | nil => rfl
  | cons segment segments ih =>
    rw [run, List.foldlM_cons, WsSession.receive]
    cases received : (mgWsHandler realloc).receive nc segment with
    | none => rfl
    | some next => exact ih next

/-- A segment that does not complete a handshake is kept. -/
theorem receive_part {segment rest : Bytes} (valid : handshake.Valid)
    (small : handshake.bytes.length ≤ mgMaxHttpRequestSize)
    (heap : (handshake.bytes ++ behind).length ≤ platform.heap)
    (split : buf ++ segment ++ rest = handshake.bytes ++ behind)
    (short : (buf ++ segment).length < handshake.bytes.length) :
    WsSession.receive platform realloc garbage slack (.http (waiting buf)) segment =
      some (.http (waiting (buf ++ segment))) := by
  have lengths := congrArg List.length split
  rw [List.length_append, List.length_append] at lengths
  have kept := @WsHandshake.Valid.handleRecv_part handshake platform _ _ _ valid small split short
  have served := recvSegment_part (by omega) kept
  rw [WsSession.receive, served]
  rfl

/-- Segments that do not complete a handshake are kept. -/
theorem receive_parts {segments : List Bytes} {rest : Bytes} (valid : handshake.Valid)
    (small : handshake.bytes.length ≤ mgMaxHttpRequestSize)
    (heap : (handshake.bytes ++ behind).length ≤ platform.heap)
    (split : buf ++ segments.flatten ++ rest = handshake.bytes ++ behind)
    (short : (buf ++ segments.flatten).length < handshake.bytes.length) :
    run (WsSession.receive platform realloc garbage slack) (.http (waiting buf)) segments =
      some (.http (waiting (buf ++ segments.flatten))) := by
  induction segments generalizing buf with
  | nil =>
    rw [List.flatten_nil, List.append_nil]
    rfl
  | cons segment segments ih =>
    rw [List.flatten_cons, ← List.append_assoc] at split short ⊢
    have first : buf ++ segment ++ (segments.flatten ++ rest) = handshake.bytes ++ behind := by
      rw [← List.append_assoc, split]
    have shorter : (buf ++ segment).length < handshake.bytes.length := by
      rw [List.length_append] at short
      omega
    exact run_cons_iff.mpr ⟨_, receive_part valid small heap first shorter, ih split short⟩

/-- The receive buffer after a handshake was removed: the bytes behind it, and in the block behind
these what was there before. -/
def WsHandshake.leftover (handshake : WsHandshake) (behind slack : Bytes) : Mbuf :=
  ⟨behind ++ (handshake.bytes ++ behind ++ slack).drop behind.length, behind.length⟩

/-- The answer to a handshake is made from what the receive buffer has in the place of the key after
the handshake was removed. -/
theorem accept_handshake {p : Nat} {hm : HttpMessage} (valid : handshake.Valid)
    (describes : handshake.Describes behind p hm) (block : garbage.length = 64) :
    acceptWebsocket garbage
        ⟨handshake.bytes ++ behind ++ slack, (handshake.bytes ++ behind).length⟩ []
        handshake.bytes.length ⟨some p, handshake.key.length⟩ =
      (handshake.leftover behind slack, handshakeAnswer (overlaid behind handshake.key p)) := by
  have present : handshake.bytes ≠ [] := List.length_pos_iff.mp
    (requestBlock_pos (ascii "GET") handshake.path handshake.fields)
  have read := @slice_removed handshake.bytes behind slack handshake.key p present
    describes.inside describes.place
  have few : (overlaid behind handshake.key p).length + 63 < 0x100000000 := by
    rw [overlaid, List.length_append, List.length_take, List.length_drop, List.length_drop,
      valid.length_key]
    omega
  have answered := @mgWsHandshake_eq garbage []
    (Mbuf.remove ⟨handshake.bytes ++ behind ++ slack, (handshake.bytes ++ behind).length⟩
      handshake.bytes.length).buf ⟨some p, handshake.key.length⟩ block (by rwa [read])
  rw [read, List.nil_append] at answered
  rw [remove_front present] at answered
  rw [acceptWebsocket, remove_front present, if_pos List.length_nil, answered,
    WsHandshake.leftover]

/-- A message that is not chunked is tested as it was parsed. -/
theorem upgradeMessage_plain {nc : HttpConn} {parsed : Int × HttpMessage}
    (parses : mgParseHttp platform nc.recvMbuf (toInt nc.recvMbuf.length) true = parsed)
    (plain : isChunked nc.recvMbuf parsed.2 = false) :
    upgradeMessage platform nc = (nc.recvMbuf, parsed) := by
  unfold upgradeMessage
  dsimp only
  rw [parses, plain, if_neg (by simp)]

/-- A whole handshake switches the protocol, and the bytes behind it are handled. -/
theorem switch_handshake {p : Nat} {hm : HttpMessage} (valid : handshake.Valid)
    (describes : handshake.Describes behind p hm) (block : garbage.length = 64) :
    switchProtocol realloc garbage slack (handshake.bytes ++ behind) handshake.bytes.length hm =
      (drain (mgDeliverWebsocketData realloc) (behind.length + 5)
        { recvMbuf := handshake.leftover behind slack }).map
          fun nc => .websocket nc (handshakeAnswer (overlaid behind handshake.key p)) := by
  have found : mgGetHttpHeader (handshake.bytes ++ behind) hm (upgradeHeader true) =
      some ⟨some p, handshake.key.length⟩ := describes.key
  rw [switchProtocol, found]
  dsimp only
  rw [Int.toNat_natCast, accept_handshake valid describes block]
  rfl

/-- A segment that makes `mg_http_handler` change the protocol handler. -/
theorem receive_switch {nc next : HttpConn} {io segment : Bytes} {parsed : Int × HttpMessage}
    (served : recvSegment platform true nc segment = some next) (changed : next.status = .websocket)
    (message : upgradeMessage platform
      { nc with recvMbuf := mbufAppend platform nc.recvMbuf segment } = (io, parsed)) :
    WsSession.receive platform realloc garbage slack (.http nc) segment =
      switchProtocol realloc garbage slack io parsed.1 parsed.2 := by
  rw [WsSession.receive, served, Option.bind_some, if_pos changed]
  dsimp only
  rw [message]

/-- The segment that completes a handshake switches the protocol. -/
theorem receive_last {last : Bytes} (valid : handshake.Valid)
    (fits : (handshake.bytes ++ behind).length ≤ intMax)
    (heap : (handshake.bytes ++ behind).length ≤ platform.heap) (block : garbage.length = 64)
    (split : buf ++ last = handshake.bytes ++ behind) :
    ∃ p, p + handshake.key.length ≤ handshake.bytes.length ∧
      MgStr.slice handshake.bytes ⟨some p, handshake.key.length⟩ = handshake.key ∧
      WsSession.receive platform realloc garbage slack (.http (waiting buf)) last =
        (drain (mgDeliverWebsocketData realloc) (behind.length + 5)
          { recvMbuf := handshake.leftover behind slack }).map fun nc =>
            .websocket nc (handshakeAnswer (overlaid behind handshake.key p)) := by
  have lengths := congrArg List.length split
  rw [List.length_append] at lengths
  have arrived := @step_waiting platform true buf last (by omega)
  obtain ⟨length, p, describes⟩ := @WsHandshake.Valid.parse handshake platform behind valid fits
  have handled := @WsHandshake.Valid.handleRecv_whole handshake platform behind valid fits
  rw [split, handled] at arrived
  have served : recvSegment platform true (waiting buf) last =
      some { waiting behind with status := .websocket } := by
    rw [recvSegment, arrived]
    rfl
  have grown : mbufAppend platform buf last = handshake.bytes ++ behind := by
    rw [mbufAppend, if_pos (by omega), split]
  generalize parses : mgParseHttp platform (handshake.bytes ++ behind)
    (toInt (handshake.bytes ++ behind).length) true = parsed at length describes
  have message := @upgradeMessage_plain platform (waiting (handshake.bytes ++ behind)) parsed parses
    describes.whole
  refine ⟨p, describes.inside, describes.place, ?_⟩
  rw [← grown] at message
  rw [receive_switch served rfl message, grown, ← switch_handshake valid describes block, length]
  rfl

end

/-- A request for an upgrade. -/
def chat : WsHandshake where
  nonce := ascii "the sample nonce"
  path := ascii "/chat"
  userInfo := none
  host := some (ascii "localhost")
  protocol := none
  extra := []

/-- It is read as it was written. -/
theorem chat_valid : chat.Valid where
  nonce := by decide
  path := ⟨by decide, by decide⟩
  plain := fun field member => by
    obtain rfl := List.mem_singleton.mp member
    exact ⟨by decide, by decide, by decide, by decide, by decide⟩
  room := by decide
  whole := by simp [chat]

end CppCode.Mongoose
