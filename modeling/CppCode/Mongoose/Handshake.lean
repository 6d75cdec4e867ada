import CppCode.Mongoose.RequestDelivery
import CppCode.Mongoose.Sha1Digest

/-!
# The WebSocket handshake

A client asks for an upgrade with a random key, and `mg_http_handler` answers with the digest of
that key and a fixed text. It removes the request from the receive buffer before it reads the key
there, so what was received behind the request is moved over the bytes of the key when there is
enough of it (`slice_removed`).
-/

namespace CppCode.Mongoose

open Library

/-! ## The answer -/

/-- The text `magic` of `mg_ws_handshake`. -/
def wsMagic : Bytes := ascii "258EAFA5-E914-47DA-95CA-C5AB0DC85B11"

/-- `mg_ws_handshake`, with the memory that its key points into. -/
def mgWsHandshake (garbage out memory : Bytes) (key : MgStr) : Bytes :=
  let sha := mgHashSha1V garbage [key.slice memory, wsMagic]
  let b64Sha := csBase64Encode sha 20
  mgPrintf out (ascii "HTTP/1.1 101 Switching Protocols\r\nUpgrade: websocket\r\n" ++
    ascii "Connection: Upgrade\r\nSec-WebSocket-Accept: " ++ b64Sha.takeWhile (· ≠ 0) ++
    ascii "\r\n\r\n")

/-- What `mg_http_handler` does with the buffers of a connection that asks for an upgrade, when the
event handler leaves them and its flags alone: the request is removed, and answered when nothing
else waits to be sent. -/
def acceptWebsocket (garbage : Bytes) (recvMbuf : Mbuf) (sendMbuf : Bytes) (reqLen : Nat)
    (vec : MgStr) : Mbuf × Bytes :=
  let recvMbuf := recvMbuf.remove reqLen
  (recvMbuf,
    if sendMbuf.length = 0 then mgWsHandshake garbage sendMbuf recvMbuf.buf vec else sendMbuf)

/-- The answer to a key. -/
def handshakeAnswer (key : Bytes) : Bytes :=
  ascii "HTTP/1.1 101 Switching Protocols\r\nUpgrade: websocket\r\n" ++
    ascii "Connection: Upgrade\r\nSec-WebSocket-Accept: " ++ base64 (sha1 (key ++ wsMagic)) ++
    ascii "\r\n\r\n"

/-- The text of an encoding ends before its NUL. -/
theorem encoded_text (bytes : Bytes) :
    (csBase64Encode bytes bytes.length).takeWhile (· ≠ 0) = base64 bytes := by
  have digits : ∀ byte ∈ base64 bytes, decide (byte ≠ 0) = true := by
    intro byte member
    exact decide_eq_true (ne_of_isprint (base64_printable _ byte member).1).2.2
  rw [csBase64Encode_eq, List.takeWhile_append_of_pos digits]
  simp

/-- `mg_ws_handshake` sends the encoded digest of the key and the fixed text. -/
theorem mgWsHandshake_eq {garbage out memory : Bytes} {key : MgStr} (block : garbage.length = 64)
    (fits : (key.slice memory).length + 63 < 0x100000000) :
    mgWsHandshake garbage out memory key = out ++ handshakeAnswer (key.slice memory) := by
  have hashed : mgHashSha1V garbage [key.slice memory, wsMagic] =
      sha1 (key.slice memory ++ wsMagic) := by
    have parts : ∀ part ∈ [key.slice memory, wsMagic], part.length + 63 < 0x100000000 := by
      simp only [List.mem_cons, List.not_mem_nil, or_false, forall_eq_or_imp, forall_eq]
      exact ⟨fits, by decide⟩
    have text : [key.slice memory, wsMagic].flatten = key.slice memory ++ wsMagic := by simp
    rw [← text]
    exact csSha1Final_eq (updates_represent (csSha1Init_represents block) parts)
  have text := encoded_text (sha1 (key.slice memory ++ wsMagic))
  rw [length_sha1] at text
  rw [mgWsHandshake, hashed, text, mgPrintf_of_ne_nil (by simp [ascii]), handshakeAnswer]

/-! ## The key in the buffer -/

/-- What stands in the place of a string, `p` bytes from the front of a block, after bytes were
moved to that front. -/
def overlaid (behind key : Bytes) (p : Nat) : Bytes :=
  (behind.drop p).take key.length ++ key.drop (behind.length - p)

/-- A string in the part of a buffer that is removed is still there, as far as nothing is moved over
it. -/
theorem slice_removed {gone behind slack key : Bytes} {p : Nat} (present : gone ≠ [])
    (inside : p + key.length ≤ gone.length)
    (place : MgStr.slice gone ⟨some p, key.length⟩ = key) :
    MgStr.slice (Mbuf.remove ⟨gone ++ behind ++ slack, (gone ++ behind).length⟩ gone.length).buf
        ⟨some p, key.length⟩ = overlaid behind key p := by
  have whole : (gone.drop p).take key.length = key := place
  rw [remove_front present]
  show ((behind ++ (gone ++ behind ++ slack).drop behind.length).drop p).take key.length = _
  have offset : behind.length + (p - behind.length) = p + (behind.length - p) := by omega
  rw [overlaid, List.drop_append, List.take_append, List.length_drop, List.drop_drop, offset]
  congr 1
  by_cases moved : key.length ≤ behind.length - p
  · rw [Nat.sub_eq_zero_of_le moved, List.take_zero, List.drop_eq_nil_of_le moved]
  · have kept : key.drop (behind.length - p) =
        (gone.drop (p + (behind.length - p))).take (key.length - (behind.length - p)) := by
      conv_lhs => rw [← whole, List.drop_take, List.drop_drop]
    rw [List.append_assoc, List.drop_append_of_le_length (by omega),
      List.take_append_of_le_length (by rw [List.length_drop]; omega), kept]

/-- The string is unchanged exactly when what was moved over it has its bytes. -/
theorem overlaid_eq_iff {behind key : Bytes} {p : Nat} :
    overlaid behind key p = key ↔ (behind.drop p).take key.length <+: key := by
  have length : ((behind.drop p).take key.length).length = min key.length (behind.length - p) := by
    rw [List.length_take, List.length_drop]
  constructor
  · intro same
    exact ⟨_, same⟩
  · rintro ⟨rest, same⟩
    have behindKey : key.drop (behind.length - p) = rest := by
      by_cases moved : key.length ≤ behind.length - p
      · have none : rest = [] := by
          have lengths := congrArg List.length same
          rw [List.length_append, length] at lengths
          exact List.length_eq_zero_iff.mp (by omega)
        rw [none, List.drop_eq_nil_of_le moved]
      · have count : ((behind.drop p).take key.length).length = behind.length - p := by omega
        conv_lhs => rw [← same, ← count, List.drop_left]
    rw [overlaid, behindKey, same]

/-! ## The request -/

/-- `mg_send_websocket_handshake3`, with the random bytes of the nonce; a host that is
`MG_WS_NO_HOST_HEADER_MAGIC` is `none`. -/
def mgSendWebsocketHandshake3 (garbage nonce out path : Bytes)
    (host protocol extraHeaders user pass : Option Bytes) : Bytes :=
  let key := (csBase64Encode nonce nonce.length).takeWhile (· ≠ 0)
  let auth :=
    match user with
    | none => []
    | some user => mgBasicAuthHeader garbage [] user pass
  let out := mgPrintf out (ascii "GET " ++ path ++ ascii " HTTP/1.1\r\nUpgrade: websocket\r\n" ++
    ascii "Connection: Upgrade\r\n" ++ auth ++ ascii "Sec-WebSocket-Version: 13\r\n" ++
    ascii "Sec-WebSocket-Key: " ++ key ++ ascii "\r\n")
  let out :=
    match host with
    | none => out
    | some host => mgPrintf out (ascii "Host: " ++ host ++ ascii "\r\n")
  let out :=
    match protocol with
    | none => out
    | some protocol => mgPrintf out (ascii "Sec-WebSocket-Protocol: " ++ protocol ++ ascii "\r\n")
  let out :=
    match extraHeaders with
    | none => out
    | some headers => mgPrintf out headers
  mgPrintf out (ascii "\r\n")

/-- A request for an upgrade, as the caller of `mg_send_websocket_handshake3` means it. -/
structure WsHandshake where
  /-- The random bytes of the key. -/
  nonce : Bytes
  /-- The target. -/
  path : Bytes
  /-- User name and password. -/
  userInfo : Option (Bytes × Bytes)
  /-- Host. -/
  host : Option Bytes
  /-- Protocol on top of WebSocket. -/
  protocol : Option Bytes
  /-- Additional headers. -/
  extra : List Field

namespace WsHandshake

/-- The key. -/
def key (handshake : WsHandshake) : Bytes := base64 handshake.nonce

/-- The fields in front of the key. -/
def before (handshake : WsHandshake) : List Field :=
  [⟨ascii "Upgrade", ascii "websocket"⟩, ⟨ascii "Connection", ascii "Upgrade"⟩] ++
    handshake.userInfo.toList.map (fun info => UrlRequest.authorization info.1 info.2) ++
      [⟨ascii "Sec-WebSocket-Version", ascii "13"⟩]

/-- The fields behind it. -/
def after (handshake : WsHandshake) : List Field :=
  handshake.host.toList.map (fun host => ⟨ascii "Host", host⟩) ++
    handshake.protocol.toList.map (fun protocol => ⟨ascii "Sec-WebSocket-Protocol", protocol⟩) ++
      handshake.extra

/-- The fields. -/
def fields (handshake : WsHandshake) : List Field :=
  handshake.before ++ ⟨ascii "Sec-WebSocket-Key", handshake.key⟩ :: handshake.after

/-- The bytes. -/
def bytes (handshake : WsHandshake) : Bytes :=
  requestBlock (ascii "GET") handshake.path handshake.fields

/-- A request that is read as it was written. -/
structure Valid (handshake : WsHandshake) : Prop where
  /-- The nonce has four words. -/
  nonce : handshake.nonce.length = 16
  /-- The target is a word. -/
  path : IsWord handshake.path
  /-- The fields behind the key are plain. -/
  plain : ∀ field ∈ handshake.after, field.IsPlain
  /-- The table has room for the fields. -/
  room : handshake.fields.length < mgMaxHttpHeaders
  /-- No additional header says that the request is chunked. -/
  whole : ∀ field ∈ handshake.extra,
    field.name.map tolower ≠ (ascii "Transfer-Encoding").map tolower

/-- What `mg_send_websocket_handshake3` sends are the bytes of the request. -/
theorem send_bytes (handshake : WsHandshake) {garbage : Bytes} (three : garbage.length = 3)
    {extraHeaders : Option Bytes}
    (headers : extraHeaders.getD [] = handshake.extra.flatMap fun field : Field =>
      field.line ++ crlf) :
    mgSendWebsocketHandshake3 garbage handshake.nonce [] handshake.path handshake.host
      handshake.protocol extraHeaders (handshake.userInfo.map Prod.fst)
      (handshake.userInfo.map Prod.snd) = handshake.bytes := by
  have auth : ∀ info : Bytes × Bytes, mgBasicAuthHeader garbage [] info.1 (some info.2) =
      (UrlRequest.authorization info.1 info.2).line ++ crlf := by
    intro info
    have name : ascii "Authorization: Basic " =
        ascii "Authorization" ++ ([colon, space] ++ ascii "Basic ") := by decide
    have newline : ascii "\r\n" = crlf := by decide
    rw [mgBasicAuthHeader_eq three, name, newline]
    simp [UrlRequest.authorization, Field.line]
  have first : ascii "GET " = ascii "GET" ++ [space] := by decide
  have second : ascii " HTTP/1.1\r\nUpgrade: websocket\r\n" = [space] ++ (ascii "HTTP/1.1" ++
      (crlf ++ (ascii "Upgrade" ++ ([colon, space] ++ (ascii "websocket" ++ crlf))))) := by decide
  have third : ascii "Connection: Upgrade\r\n" =
      ascii "Connection" ++ ([colon, space] ++ (ascii "Upgrade" ++ crlf)) := by decide
  have fourth : ascii "Sec-WebSocket-Version: 13\r\n" =
      ascii "Sec-WebSocket-Version" ++ ([colon, space] ++ (ascii "13" ++ crlf)) := by decide
  have fifth : ascii "Sec-WebSocket-Key: " = ascii "Sec-WebSocket-Key" ++ [colon, space] := by
    decide
  have sixth : ascii "Host: " = ascii "Host" ++ [colon, space] := by decide
  have seventh : ascii "Sec-WebSocket-Protocol: " =
      ascii "Sec-WebSocket-Protocol" ++ [colon, space] := by decide
  have newline : ascii "\r\n" = crlf := by decide
  have printed : ∀ out text : Bytes, mgPrintf out text = out ++ text := by
    intro out text
    cases text with
    | nil => simp [mgPrintf]
    | cons byte text => rfl
  simp only [mgSendWebsocketHandshake3, encoded_text, printed, first, second, third, fourth,
    fifth, sixth,
    seventh, newline]
  have line : ∀ name value, Field.line ⟨name, value⟩ = name ++ ([colon, space] ++ value) :=
    fun _ _ => rfl
  cases handshake with
  | mk nonce path userInfo host protocol extra =>
    dsimp only at headers ⊢
    cases userInfo <;> cases host <;> cases protocol <;> cases extraHeaders <;>
      simp [bytes, requestBlock, blockOf, requestLine, fields, before, after, key, auth, line,
        List.flatMap_map] <;>
      simpa [Field.line] using headers

variable {handshake : WsHandshake} {platform : Platform} {buf rest behind : Bytes}

/-- The fields in front of the key are plain, and have these names. -/
theorem before_field {field : Field} (member : field ∈ handshake.before) :
    field.IsPlain ∧ field.name ∈ [ascii "Upgrade", ascii "Connection", ascii "Authorization",
      ascii "Sec-WebSocket-Version"] := by
  simp only [before, List.mem_append, List.mem_cons, List.not_mem_nil, or_false,
    List.mem_map] at member
  obtain ((rfl | rfl) | ⟨info, -, rfl⟩) | rfl := member
  · exact ⟨⟨by decide, by decide, by decide, by decide, by decide⟩, by simp⟩
  · exact ⟨⟨by decide, by decide, by decide, by decide, by decide⟩, by simp⟩
  · exact ⟨UrlRequest.authorization_plain info.1 info.2, by simp [UrlRequest.authorization]⟩
  · exact ⟨⟨by decide, by decide, by decide, by decide, by decide⟩, by simp⟩

/-- The key has 24 bytes. -/
theorem Valid.length_key (valid : handshake.Valid) : handshake.key.length = 24 := by
  rw [key, length_base64, valid.nonce]

/-- The fields of a handshake are read as they were written. -/
theorem Valid.fields_plain (valid : handshake.Valid) :
    ∀ field ∈ handshake.fields, field.IsPlain := by
  intro field member
  obtain inFront | others := List.mem_append.mp member
  · exact (before_field inFront).1
  · obtain rfl | later := List.mem_cons.mp others
    · have printable := base64_printable handshake.nonce
      have present : handshake.key ≠ [] := by
        intro none
        have length := valid.length_key
        rw [none] at length
        exact absurd length (by decide)
      have word : IsWord handshake.key :=
        ⟨⟨present, fun byte inside => (printable byte inside).1⟩,
          fun inside => (printable space inside).2.1 rfl⟩
      apply plain_of_word (by decide) (by decide) word
      intro first
      exact (printable colon (List.mem_of_mem_head? first)).2.2 rfl
    · exact valid.plain field later

/-- A field is not chunked. -/
theorem Valid.unchunked (valid : handshake.Valid) : ∀ field ∈ handshake.fields,
    field.name.map tolower ≠ (ascii "Transfer-Encoding").map tolower := by
  have known : ∀ name ∈ [ascii "Upgrade", ascii "Connection", ascii "Authorization",
      ascii "Sec-WebSocket-Version", ascii "Sec-WebSocket-Key", ascii "Host",
      ascii "Sec-WebSocket-Protocol"],
      name.map tolower ≠ (ascii "Transfer-Encoding").map tolower := by
    decide
  intro field member
  obtain inFront | others := List.mem_append.mp member
  · have named := (before_field inFront).2
    exact known field.name (List.mem_append_left [_, _, _] named)
  · simp only [after, List.mem_cons, List.mem_append, List.mem_map] at others
    obtain rfl | (⟨host, -, rfl⟩ | ⟨protocol, -, rfl⟩) | added := others
    · exact known _ (by simp)
    · exact known _ (by simp)
    · exact known _ (by simp)
    · exact valid.whole field added

/-! ## Receiving it -/

/-- There is a first field. -/
theorem fields_cons (handshake : WsHandshake) :
    ∃ first others, handshake.fields = first :: others :=
  List.exists_cons_of_ne_nil (by simp [fields])

/-- A part of the request is kept. -/
theorem Valid.handleRecv_part (valid : handshake.Valid)
    (small : handshake.bytes.length ≤ mgMaxHttpRequestSize)
    (split : buf ++ rest = handshake.bytes ++ behind)
    (short : buf.length < handshake.bytes.length) :
    handleRecv platform true (waiting buf) = waiting buf := by
  have few : buf.length ≤ intMax := by
    unfold mgMaxHttpRequestSize at small
    unfold intMax
    omega
  have word : IsWord (ascii "GET") := ⟨by decide, by decide⟩
  rw [handleRecv_waiting]
  have unfinished := @parse_request_unfinished platform _ _ _ behind _ _ word valid.path
    valid.fields_plain split few short
  rw [unfinished]
  exact handleParsed_zero _ (lt_of_lt_of_le short small)

/-- A message in which the key was found. -/
structure Describes (handshake : WsHandshake) (behind : Bytes) (p : Nat) (hm : HttpMessage) :
    Prop where
  /-- Its request line. -/
  line : hm.Requests (handshake.bytes ++ behind) (ascii "GET") handshake.path
  /-- Where the key is. -/
  key : mgGetHttpHeader (handshake.bytes ++ behind) hm (ascii "Sec-WebSocket-Key") =
    some ⟨some p, handshake.key.length⟩
  /-- The message is not chunked. -/
  whole : isChunked (handshake.bytes ++ behind) hm = false
  /-- The key is in the request. -/
  inside : p + handshake.key.length ≤ handshake.bytes.length
  /-- It is the key. -/
  place : MgStr.slice handshake.bytes ⟨some p, handshake.key.length⟩ = handshake.key

/-- The length of the block of a whole request, and the message in which its key was found. -/
theorem Valid.parse (valid : handshake.Valid)
    (small : (handshake.bytes ++ behind).length ≤ intMax) :
    (mgParseHttp platform (handshake.bytes ++ behind)
        (toInt (handshake.bytes ++ behind).length) true).1 = handshake.bytes.length ∧
      ∃ p, handshake.Describes behind p (mgParseHttp platform (handshake.bytes ++ behind)
        (toInt (handshake.bytes ++ behind).length) true).2 := by
  have word : IsWord (ascii "GET") := ⟨by decide, by decide⟩
  obtain ⟨first, others, shape⟩ := handshake.fields_cons
  have plain := valid.fields_plain
  have room := valid.room
  have text : handshake.bytes = requestBlock (ascii "GET") handshake.path (first :: others) := by
    rw [bytes, shape]
  rw [shape] at plain room
  have split : handshake.bytes ++ behind ++ [] =
      requestBlock (ascii "GET") handshake.path (first :: others) ++ behind := by
    rw [List.append_nil, text]
  have long : (requestBlock (ascii "GET") handshake.path (first :: others)).length ≤
      (handshake.bytes ++ behind).length := by
    rw [← text, List.length_append]
    omega
  have block := take_request split long
  have headers := headersOf_request word valid.path plain room block
  have lines := (parseRequestLine_request word valid.path plain block {}).2.2
  obtain ⟨length, describes, line⟩ := @parse_request platform _ _ _ _ _ _ _ word valid.path plain
    split small long
  rw [← text] at block headers lines length describes
  refine ⟨length, ?_⟩
  generalize (mgParseHttp platform (handshake.bytes ++ behind)
    (toInt (handshake.bytes ++ behind).length) true).2 = hm at describes line
  rw [← shape, fields] at headers lines plain
  have frontOther : ∀ field ∈ handshake.before,
      field.name.map tolower ≠ (ascii "Sec-WebSocket-Key").map tolower := by
    have known : ∀ name ∈ [ascii "Upgrade", ascii "Connection", ascii "Authorization",
        ascii "Sec-WebSocket-Version"],
        name.map tolower ≠ (ascii "Sec-WebSocket-Key").map tolower := by
      decide
    intro field member
    exact known field.name (before_field member).2
  obtain ⟨p, more, found, place⟩ := findHeader_field plain
    (show 0 ∉ ascii "Sec-WebSocket-Key" by decide) lines frontOther rfl
  have key : mgGetHttpHeader (handshake.bytes ++ behind) hm (ascii "Sec-WebSocket-Key") =
      some ⟨some p, handshake.key.length⟩ := by
    rw [describes.getHeader, headers, found]
  have whole : isChunked (handshake.bytes ++ behind) hm = false := by
    have unchunked := valid.unchunked
    rw [fields] at unchunked
    rw [isChunked, describes.getHeader, headers,
      findHeader_absent plain (by decide) lines unchunked]
  rw [block] at place
  have lengths := congrArg List.length place
  simp only [List.length_drop, List.length_append, List.length_cons] at lengths
  refine ⟨p, line, key, whole, by omega, ?_⟩
  show (handshake.bytes.drop p).take handshake.key.length = handshake.key
  rw [place, List.take_left]

/-- A whole request is accepted, and what is behind it is left. -/
theorem Valid.handleRecv_whole (valid : handshake.Valid)
    (small : (handshake.bytes ++ behind).length ≤ intMax) :
    handleRecv platform true (waiting (handshake.bytes ++ behind)) =
      { waiting behind with status := .websocket } := by
  obtain ⟨length, p, describes⟩ := @Valid.parse handshake platform behind valid small
  have positive : 0 < handshake.bytes.length := requestBlock_pos _ _ _
  have removed : mbufRemove (handshake.bytes ++ behind) handshake.bytes.length = behind := by
    rw [mbufRemove, if_pos ⟨positive, by simp⟩, List.drop_left]
  rw [handleRecv_waiting, length]
  generalize (mgParseHttp platform (handshake.bytes ++ behind)
    (toInt (handshake.bytes ++ behind).length) true).2 = hm at describes
  have upgrade : (mgGetHttpHeader (handshake.bytes ++ behind) hm (upgradeHeader true)).isSome := by
    show (mgGetHttpHeader (handshake.bytes ++ behind) hm (ascii "Sec-WebSocket-Key")).isSome
    rw [describes.key]
    rfl
  have buffer : (waiting (handshake.bytes ++ behind)).recvMbuf = handshake.bytes ++ behind := rfl
  unfold Mongoose.handleParsed
  rw [buffer, describes.whole, if_neg fun both => absurd both.2 (by simp)]
  simp only [dispatch, buffer]
  rw [if_neg (by omega), if_neg (by omega), if_pos upgrade, Int.toNat_natCast, removed]
  rfl

end WsHandshake

end CppCode.Mongoose
