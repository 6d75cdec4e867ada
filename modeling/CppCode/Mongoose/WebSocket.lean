import CppCode.Library.Records
import CppCode.Library.Words
import CppCode.Mongoose.Memory
import CppCode.Mongoose.Send

/-!
# WebSocket frames

`http_websocket.c`. A sender writes a header and the payload, which a client masks.
`mg_deliver_websocket_data` works in the block of the receive buffer itself: it unmasks in place,
and the fragments of a message are moved together behind a size word that is kept in the first
bytes of the block. The block is therefore modelled as memory with a length, including the bytes
behind the length, because the code looks at them. What `realloc` leaves there, and whether it
enlarges a block where it is, moves it while `mg_deliver_websocket_data` holds a pointer into it or
finds no memory, is an argument. The target is little-endian with 64-bit `size_t`.
-/

namespace CppCode.Mongoose

open Library

/-! ## Sending -/

/-- `WEBSOCKET_DONT_FIN`. -/
def websocketDontFin : Nat := 0x100
/-- `WEBSOCKET_OP_CLOSE`. -/
def websocketOpClose : Nat := 8

/-- `mg_send` of `len` bytes, a `size_t` that becomes the `int` of its argument. -/
def mgSendInt (out buf : Bytes) : Bytes := mgSend out (buf.take (toInt buf.length).toNat)

/-- The bytes that `mg_send_ws_header` writes first, without the masking flag. -/
def wsHeaderBytes (op len : Nat) : Bytes :=
  let flags := UInt8.ofNat ((if op &&& websocketDontFin ≠ 0 then 0 else 0x80) + (op &&& 0x0f))
  if len < 126 then [flags, UInt8.ofNat len]
  else if len < 65535 then flags :: 126 :: beBytes 2 len
  else flags :: 127 :: (beBytes 4 (len / 0x100000000) ++ beBytes 4 len)

/-- `mg_send_ws_header`, with the random mask for a connection without a listener: what has been
sent, and the `pos` of the mask context. -/
def mgSendWsHeader (out : Bytes) (mask : Option Bytes) (op len : Nat) : Bytes × Nat :=
  match mask with
  | some mask =>
    let header := (wsHeaderBytes op len).modify 1 (· ||| 0x80)
    let out := mgSend (mgSend out header) mask
    (out, out.length)
  | none => (mgSend out (wsHeaderBytes op len), 0)

/-- Exclusive or with a mask of four bytes. -/
def wsMask (mask data : Bytes) : Bytes := data.mapIdx fun i byte => byte ^^^ mask.getD (i % 4) 0

/-- `mg_ws_mask_frame`. -/
def mgWsMaskFrame (mbuf mask : Bytes) (pos : Nat) : Bytes :=
  if pos = 0 then mbuf else mbuf.take pos ++ wsMask mask (mbuf.drop pos)

/-- `mg_send_websocket_frame`: what has been sent, and whether `MG_F_SEND_AND_CLOSE` is set. -/
def mgSendWebsocketFrame (out : Bytes) (mask : Option Bytes) (op : Nat) (data : Bytes) :
    Bytes × Bool :=
  let (out, pos) := mgSendWsHeader out mask op data.length
  let out := mgSendInt out data
  (mgWsMaskFrame out (mask.getD []) pos, op == websocketOpClose)

/-- `mg_send_websocket_framev`, whose length is an `int` that becomes a `size_t`. -/
def mgSendWebsocketFramev (out : Bytes) (mask : Option Bytes) (op : Nat) (strv : List Bytes) :
    Bytes × Bool :=
  let len := amd64.toSize (strv.foldl (fun len str => toInt (amd64.toSize (len + str.length))) 0)
  let (out, pos) := mgSendWsHeader out mask op len
  let out := strv.foldl mgSendInt out
  (mgWsMaskFrame out (mask.getD []) pos, op == websocketOpClose)

/-! ## Receiving -/

/-- The events of a connection that uses WebSocket. -/
inductive WsEvent
  /-- `MG_EV_WEBSOCKET_FRAME`. -/
  | frame
  /-- `MG_EV_WEBSOCKET_CONTROL_FRAME`. -/
  | controlFrame
  deriving DecidableEq, Repr

/-- `struct websocket_message`. -/
structure WsMessage where
  /-- First byte of the frame. -/
  flags : UInt8
  /-- Length of the data. -/
  size : Nat
  /-- The bytes of the block that the data are, fewer than `size` when it reaches past its end. -/
  data : Bytes
  deriving DecidableEq, Repr

/-- A connection, as far as `mg_ws_handler` uses it when bytes arrive. -/
structure WsConn where
  /-- `recv_mbuf`. -/
  recvMbuf : Mbuf := {}
  /-- `MG_F_WEBSOCKET_NO_DEFRAG`. -/
  noDefrag : Bool := false
  /-- `MG_F_SEND_AND_CLOSE`. -/
  sendAndClose : Bool := false
  /-- The calls of the event handler so far. -/
  shown : List (WsEvent × WsMessage) := []
  deriving DecidableEq, Repr

/-- `mg_is_ws_fragment`. -/
def mgIsWsFragment (flags : UInt8) : Bool := flags &&& 0x80 == 0 || flags &&& 0x0f == 0

/-- `mg_is_ws_first_fragment`. -/
def mgIsWsFirstFragment (flags : UInt8) : Bool := flags &&& 0x80 == 0 && flags &&& 0x0f != 0

/-- `mg_handle_incoming_websocket_frame`. -/
def mgHandleIncomingWebsocketFrame (nc : WsConn) (wsm : WsMessage) : WsConn :=
  let event := if wsm.flags &&& 0x8 ≠ 0 then WsEvent.controlFrame else WsEvent.frame
  { nc with shown := nc.shown ++ [(event, wsm)] }

/-- The lengths that `mg_deliver_websocket_data` reads off a header. -/
structure WsLengths where
  /-- `mask_len`. -/
  maskLen : Nat := 0
  /-- `header_len`. -/
  headerLen : Nat := 0
  /-- `data_len`. -/
  dataLen : Nat := 0
  deriving DecidableEq, Repr

/-- The lengths of the frame at the front of some bytes, zero while the header is incomplete. -/
def wsLengths (buf : Bytes) : WsLengths :=
  if buf.length < 2 then {}
  else
    let len := (buf.getD 1 0 &&& 127).toNat
    let maskLen := if buf.getD 1 0 &&& 128 ≠ 0 then 4 else 0
    if len < 126 ∧ maskLen ≤ buf.length then ⟨maskLen, 2 + maskLen, len⟩
    else if len = 126 ∧ 4 + maskLen ≤ buf.length then
      ⟨maskLen, 4 + maskLen, beValue ((buf.drop 2).take 2)⟩
    else if 10 + maskLen ≤ buf.length then
      ⟨maskLen, 10 + maskLen,
        beValue ((buf.drop 2).take 4) * 0x100000000 + beValue ((buf.drop 6).take 4)⟩
    else ⟨maskLen, 0, 0⟩

/-- `frame_len`, a sum of 64-bit numbers. -/
def WsLengths.frameLen (lengths : WsLengths) : Nat :=
  (lengths.headerLen + lengths.dataLen) % 0x10000000000000000

/-- `*sizep`. -/
def sizeWord (buf : Bytes) : Nat := leValue ((buf.drop 1).take 4)

/-- The offset of `buf` from `p`: behind the reassembled data if there are any. -/
def wsOffset (nc : WsConn) : Nat :=
  let flags := nc.recvMbuf.buf.headD 0
  let len := nc.recvMbuf.len
  let size := sizeWord nc.recvMbuf.buf
  if mgIsWsFragment flags ∧ nc.noDefrag = false ∧ ¬mgIsWsFirstFragment flags ∧
      5 ≤ len ∧ 5 + size ≤ len then 5 + size
  else 0

/-- Append the data of a fragment, which begin at `src`, to the reassembled data, which end at
`dst`. The last fragment shows them and removes them. -/
def appendFragment (nc : WsConn) (buf : Bytes) (dst src : Nat) (flags : UInt8) (dataLen : Nat) :
    WsConn :=
  let len := nc.recvMbuf.len
  let buf := memmove buf dst src (len - src)
  let size := (sizeWord buf + dataLen) % 0x100000000
  let buf := store buf 1 (leBytes 4 size)
  let mbuf : Mbuf := ⟨buf, len + dst - src⟩
  if flags &&& 0x80 ≠ 0 then
    let nc := mgHandleIncomingWebsocketFrame nc ⟨flags, size, (buf.drop 5).take size⟩
    { nc with recvMbuf := mbuf.remove (5 + size) }
  else { nc with recvMbuf := mbuf }

/-- "If client closes, close too": the test of the byte that `buf` points to by then. -/
def closeToo (nc : WsConn) (offset : Nat) : WsConn :=
  if (nc.recvMbuf.buf.getD offset 0 &&& 0x0f).toNat = websocketOpClose then
    { nc with sendAndClose := true }
  else nc

/-- What `mg_deliver_websocket_data` does with a whole frame at an offset in the unmasked
block. -/
def takeFrame (realloc : Realloc) (nc : WsConn) (buf : Bytes) (offset : Nat)
    (lengths : WsLengths) : Option WsConn :=
  let flags := buf.getD offset 0
  let src := offset + lengths.headerLen
  if mgIsWsFragment (buf.headD 0) ∧ nc.noDefrag = false then
    if mgIsWsFirstFragment flags then
      -- `p` still points to the block that was to be enlarged
      match (realloc.resize nc.recvMbuf).block buf with
      | none => none
      | some buf =>
        if buf.length < 6 ∨ buf.length < 5 + (nc.recvMbuf.len - src) then none
        else
          let buf := store (store buf 0 [buf.headD 0 &&& 0xf0]) 1 [0, 0, 0, 0]
          some (closeToo (appendFragment nc buf 5 src flags lengths.dataLen) 5)
    else if buf.length < 5 then none
    else some (closeToo (appendFragment nc buf offset src flags lengths.dataLen) offset)
  else
    let wsm : WsMessage := ⟨flags, lengths.dataLen, (buf.drop src).take lengths.dataLen⟩
    let nc := mgHandleIncomingWebsocketFrame { nc with recvMbuf := ⟨buf, nc.recvMbuf.len⟩ } wsm
    some (closeToo { nc with recvMbuf := nc.recvMbuf.remove lengths.frameLen } offset)

/-- `mg_deliver_websocket_data`: whether there was a frame, and the connection afterwards; `none`
when it uses memory outside of the block. -/
def mgDeliverWebsocketData (realloc : Realloc) (nc : WsConn) : Option (Bool × WsConn) :=
  let offset := wsOffset nc
  let lengths := wsLengths (nc.recvMbuf.used.drop offset)
  let buf := nc.recvMbuf.buf
  let data := offset + lengths.headerLen
  if lengths.frameLen = 0 ∨ nc.recvMbuf.len - offset < lengths.frameLen then some (false, nc)
  else if lengths.maskLen = 0 then
    (takeFrame realloc nc buf offset lengths).map fun next => (true, next)
  else if buf.length < data + lengths.dataLen then none
  else
    let mask := (buf.drop (data - 4)).take 4
    let buf := store buf data (wsMask mask ((buf.drop data).take lengths.dataLen))
    (takeFrame realloc nc buf offset lengths).map fun next => (true, next)

/-- `mg_recv_common`, which takes the block over when the buffer is empty, as far as the buffer. -/
def mgRecvCommon (realloc : Realloc) (nc : WsConn) (segment : Bytes) : WsConn :=
  if nc.recvMbuf.len = 0 then { nc with recvMbuf := ⟨segment, segment.length⟩ }
  else { nc with recvMbuf := nc.recvMbuf.append realloc segment }

/-- A connection as a receiver of frames: `mg_recv_common` and the loop of `mg_ws_handler` at
`MG_EV_RECV`, which ends after this many calls at most. -/
def mgWsHandler (realloc : Realloc) : Intake WsConn UInt8 where
  push := mgRecvCommon realloc
  take := mgDeliverWebsocketData realloc
  fuel nc := nc.recvMbuf.len + 5

end CppCode.Mongoose
