import CppCode.Library.Memory
import CppCode.MultiThread.Steps
import CppCode.Mongoose.HttpHandler

/-!
# The receive buffers under the workers

The multi-threaded server with the receive buffers of its connections as blocks of memory. What
`ev_handler` sends to a worker is a shallow copy of the parsed message, whose pointers lead into
the block that `recv_mbuf.buf` pointed to. The IO thread goes on using that block when the handler
has returned: it removes the message from it, appends to it, reallocates it, adopts another block
instead or frees it with the connection.

A step of the process is a step of the server, if there is one, and an effect on the memory, which
is returned as data (`Move`). A segment is appended by `mg_recv_common` and handled by
`mg_http_handler` in one step; when it hands a request to `ev_handler`, the removal of the message
is a step of its own that is taken when the record has been sent, and so is the release of the
buffer of a connection whose last request was handed over on its close. The frames of a connection
that was upgraded are not parsed; `mg_ws_handler` may leave whatever it likes in the block. There is
no next state when the assertion of `mg_handle_chunked` stops a Debug build, or when a Release build
reads on to a chunk that stands behind the buffer; it goes on when there is none.

Without the buffers a run is one of the server (`server_run`), and without the memory a segment is
handled as on a single connection (`recv_refines`).
-/

namespace CppCode.MultiThread.Buffers

open Library Mongoose

/-- `recv_mbuf` of a connection and the state of its protocol handler. The size of the buffer is
that of its block. -/
structure Receiver where
  /-- `recv_mbuf.buf`. -/
  buf : Option Nat := none
  /-- `recv_mbuf.len`. -/
  len : Nat := 0
  /-- `chunk.body_len` of the protocol data. -/
  chunkBodyLen : Nat := 0
  /-- What the connection is used for. -/
  status : Status := .http
  /-- `MG_F_CLOSE_IMMEDIATELY`. -/
  closeImmediately : Bool := false

/-- The request of a record when it was handed to `ev_handler`, and the block that the pointers of
its message lead into. -/
structure Handed where
  /-- The block. -/
  block : Nat
  /-- The URI. -/
  uri : Bytes
  /-- The method. -/
  method : Bytes

/-- What the IO thread does when `ev_handler` has returned. -/
inductive Returning
  /-- `mbuf_remove` in `mg_http_handler`. -/
  | mbufRemove (serial n : Nat)
  /-- `mg_destroy_conn` in `mg_close_conn`. -/
  | destroy (serial : Nat)

/-- The state of the process. -/
structure Process where
  /-- The server without the buffers. -/
  server : Server
  /-- The blocks of the receive buffers. -/
  memory : Memory Bytes
  /-- The receive buffers of the connections, by accept number. -/
  receivers : Nat → Receiver
  /-- The requests that were handed to `ev_handler`, by their number. -/
  handed : Nat → Handed
  /-- What the IO thread does when `ev_handler` has returned. -/
  returning : Option Returning

/-- The state in which `MultiThreadStart` enters its loop. -/
def start : Process where
  server := MultiThread.start
  memory := .empty
  receivers := fun _ => {}
  handed := fun _ => ⟨0, [], []⟩
  returning := none

/-- The bytes of the block of a buffer. -/
def Receiver.bytes (r : Receiver) (memory : Memory Bytes) : Bytes :=
  match r.buf with
  | none => []
  | some block => (memory.blocks block).getD []

/-- The contents of a buffer. -/
def Receiver.contents (r : Receiver) (memory : Memory Bytes) : Bytes :=
  (r.bytes memory).take r.len

/-- The connection as its protocol handler sees it, with the contents of its buffer. -/
def Receiver.conn (r : Receiver) (io : Bytes) : HttpConn :=
  { recvMbuf := io
    chunkBodyLen := r.chunkBodyLen
    status := r.status
    closeImmediately := r.closeImmediately }

/-! ## Receiving -/

/-- Where the contents of a buffer stand. -/
inductive Place
  /-- In the block where they stood before. -/
  | same (block : Nat)
  /-- In a new block, with the old one freed. -/
  | fresh (old : Option Nat)

/-- The block. -/
def Place.block (memory : Memory Bytes) : Place → Nat
  | .same block => block
  | .fresh _ => memory.next

/-- What is done to the memory when the block gets its bytes. -/
def Place.effect (bytes : Bytes) : Place → Effect Bytes
  | .same block => .write block bytes
  | .fresh old => .replace old bytes

/-- A buffer after bytes were appended to it. -/
structure Stored where
  /-- Where it stands. -/
  place : Place
  /-- The bytes of its block. -/
  bytes : Bytes
  /-- Its length. -/
  len : Nat

/-- `mg_recv_common` with a buffer of its own: an empty `recv_mbuf` adopts it, else it is appended,
in place when it fits and otherwise after `realloc`, which may move the block. The bytes that
`realloc` adds are not initialised; they are zeros here. -/
def mgRecvCommon (platform : Platform) (memory : Memory Bytes) (r : Receiver) (buf : Bytes)
    (moved : Bool) : Stored :=
  match r.buf with
  | none => ⟨.fresh none, buf, buf.length⟩
  | some block =>
    let bytes := r.bytes memory
    let len := r.len + buf.length
    if r.len = 0 then ⟨.fresh (some block), buf, buf.length⟩
    else if platform.heap < len then ⟨.same block, bytes, r.len⟩
    else if len ≤ bytes.length then
      ⟨.same block, bytes.take r.len ++ buf ++ bytes.drop len, len⟩
    else
      ⟨if moved then .fresh (some block) else .same block,
        bytes.take r.len ++ buf ++ List.replicate (len * 3 / 2 - len) 0, len⟩

/-- What `mg_http_handler` has done: the contents after a chunked body was reassembled, and the
connection at the end. -/
structure Handled where
  /-- The contents after `mg_handle_chunked`. -/
  reassembled : Bytes
  /-- The connection at the end. -/
  nc : HttpConn

/-- `mg_http_handler` after the buffer was parsed, `none` when the program stops in
`mg_handle_chunked`. -/
def httpParsed (platform : Platform) (nc : HttpConn) (reqLen : Int) (hm : HttpMessage) :
    Option Handled :=
  if reqLen > 0 ∧ isChunked nc.recvMbuf hm = true then
    (mgHandleChunked platform (nc.stray platform) nc.recvMbuf reqLen.toNat nc.chunkBodyLen hm).map
      fun (recvMbuf, chunkBodyLen, hm) =>
        ⟨recvMbuf, dispatch true { nc with recvMbuf, chunkBodyLen } reqLen hm⟩
  else some ⟨nc.recvMbuf, dispatch true nc reqLen hm⟩

/-- `mg_http_handler` for `MG_EV_RECV`. -/
def httpRecv (platform : Platform) (nc : HttpConn) : Option Handled :=
  let parsed := mgParseHttp platform nc.recvMbuf (toInt nc.recvMbuf.length) true
  httpParsed platform nc parsed.1 parsed.2

/-- The bytes that `mg_http_handler` leaves in the block: `mg_handle_chunked` clears what its
shift has vacated, and the `mbuf_remove` of an upgrade does not. -/
def leftBehind (bytes : Bytes) (len : Nat) (handled : Handled) : Bytes :=
  let shifted := handled.reassembled ++
    List.replicate (len - handled.reassembled.length) 0 ++ bytes.drop len
  handled.nc.recvMbuf ++ shifted.drop handled.nc.recvMbuf.length

/-- The strings of a message that is handed to `ev_handler`. -/
def handedAt (block : Nat) (io : Bytes) (hm : HttpMessage) : Handed :=
  ⟨block, hm.uri.slice io, hm.method.slice io⟩

/-! ## The steps -/

/-- One step of one thread. -/
inductive Action
  /-- The IO thread receives a segment; a growing buffer moves or not. -/
  | recv (serial : Nat) (buf : Bytes) (moved : Bool)
  /-- `ev_handler` returns from a request. -/
  | returns
  /-- The IO thread closes a connection. -/
  | close (serial : Nat)
  /-- `mg_ws_handler` leaves bytes in the block of an upgraded connection, and a length. -/
  | frames (serial : Nat) (bytes : Bytes) (len : Nat)
  /-- Any other step of the server. -/
  | other (action : MultiThread.Action)

/-- What a step does besides checking its guard. -/
structure Move where
  /-- The step of the server. -/
  action : Option MultiThread.Action := none
  /-- What is done to the memory. -/
  effect : Effect Bytes := .keep
  /-- The receive buffers after it. -/
  receivers : Nat → Receiver
  /-- The request that is handed to `ev_handler`. -/
  handed : Option Handed := none
  /-- What the IO thread has to do when `ev_handler` has returned. -/
  returning : Option Returning := none

/-- The IO thread is in `mg_mgr_poll` and in no callback. -/
def Process.Polling (p : Process) : Prop :=
  p.server.Polling ∧ p.returning.isNone = true

instance (p : Process) : Decidable p.Polling :=
  inferInstanceAs (Decidable (_ ∧ _))

/-- `mg_recv_common` and the protocol handler behind it. -/
def recvMove (platform : Platform) (p : Process) (serial : Nat) (buf : Bytes) (moved : Bool) :
    Option Move :=
  let r := p.receivers serial
  let stored := mgRecvCommon platform p.memory r buf moved
  let block := stored.place.block p.memory
  if r.closeImmediately then some { receivers := p.receivers }
  else
    match r.status with
    | .websocket =>
      some {
        effect := stored.place.effect stored.bytes
        receivers := Function.update p.receivers serial
          { r with buf := some block, len := stored.len } }
    | .http =>
      (httpRecv platform (r.conn (stored.bytes.take stored.len))).map fun handled =>
        let nc := handled.nc
        let delivered := nc.delivered.head?.map Delivery.hm
        { action := delivered.map (.request serial)
          effect := stored.place.effect (leftBehind stored.bytes stored.len handled)
          receivers := Function.update p.receivers serial
            ⟨some block, nc.recvMbuf.length, nc.chunkBodyLen, nc.status, nc.closeImmediately⟩
          handed := delivered.map (handedAt block nc.recvMbuf)
          returning := delivered.map fun hm => .mbufRemove serial hm.message.len }
    | .closed | .stopped => none

/-- The rest of `mg_http_handler` or of `mg_close_conn`. -/
def returnMove (p : Process) : Returning → Move
  | .mbufRemove serial n =>
    let r := p.receivers serial
    let io := mbufRemove (r.contents p.memory) n
    { effect :=
        match r.buf with
        | none => .keep
        | some block => .write block (io ++ (r.bytes p.memory).drop io.length)
      receivers := Function.update p.receivers serial { r with len := io.length } }
  | .destroy serial =>
    { effect := .free (p.receivers serial).buf
      receivers := Function.update p.receivers serial { status := .closed } }

/-- The request that `mg_http_handler` finds in the buffer when the connection is closed. -/
def leftover (platform : Platform) (r : Receiver) (io : Bytes) : Option HttpMessage :=
  match r.status with
  | .http => (handleClose platform true (r.conn io)).delivered.head?.map Delivery.hm
  | .websocket | .closed | .stopped => none

/-- `mg_close_conn`, up to the call of `ev_handler` when a request is left. -/
def closeMove (platform : Platform) (p : Process) (serial : Nat) : Move :=
  let r := p.receivers serial
  let io := r.contents p.memory
  match leftover platform r io with
  | none =>
    { action := some (.close serial none)
      effect := .free r.buf
      receivers := Function.update p.receivers serial { status := .closed } }
  | some hm =>
    { action := some (.close serial (some hm))
      receivers := Function.update p.receivers serial { r with status := .closed }
      handed := some (handedAt (r.buf.getD 0) io hm)
      returning := some (.destroy serial) }

/-- What an action does, `none` when it is not enabled by what the server does not see. -/
def plan (platform : Platform) (p : Process) : Action → Option Move
  | .recv serial buf moved =>
    if p.Polling ∧ serial ≠ 0 ∧ (p.server.find? serial).isSome = true ∧ buf ≠ [] then
      recvMove platform p serial buf moved
    else none
  | .returns => if p.server.sending.isNone then p.returning.map (returnMove p) else none
  | .close serial => if p.returning.isNone then some (closeMove platform p serial) else none
  | .frames serial bytes len =>
    let r := p.receivers serial
    match r.buf with
    | none => none
    | some block =>
      if p.Polling ∧ (p.server.find? serial).isSome = true ∧ r.status = .websocket ∧
          bytes.length = (r.bytes p.memory).length ∧ len ≤ bytes.length then
        some {
          effect := .write block bytes
          receivers := Function.update p.receivers serial { r with len } }
      else none
  | .other action =>
    let move : Move :=
      { action := some action, receivers := p.receivers, returning := p.returning }
    match action with
    | .request _ _ | .close _ _ => none
    | .accept | .handleCtl | .advance => if p.returning.isNone then some move else none
    | .write | .signal | .test _ | .read _ | .readFail _ | .sleep _ _ | .broadcast _ | .sendCtl _
    | .unblock _ => some move

/-- The process after a move, `none` when the server cannot take its step. -/
def perform (capacity : Nat) (p : Process) (move : Move) : Option Process :=
  let server :=
    match move.action with
    | none => some p.server
    | some action => MultiThread.step capacity p.server action
  server.map fun server =>
    { server
      memory := p.memory.after move.effect
      receivers := move.receivers
      handed :=
        match move.handed with
        | none => p.handed
        | some handed => Function.update p.handed p.server.dispatched handed
      returning := move.returning }

/-- The effect of an action, `none` when it is not enabled. -/
def step (capacity : Nat) (platform : Platform) (p : Process) (action : Action) :
    Option Process :=
  (plan platform p action).bind (perform capacity p)

/-- A run of the process from the start of the loop. -/
def Reaches (capacity : Nat) (platform : Platform) (actions : List Action) (p : Process) : Prop :=
  run (step capacity platform) start actions = some p

/-! ## What is refined -/

variable {capacity : Nat} {platform : Platform}

/-- The step that the server takes in a step of the process, if it takes one. -/
def ServerStep (capacity : Nat) (s : Server) : Option MultiThread.Action → Server → Prop
  | none, next => next = s
  | some action, next => MultiThread.step capacity s action = some next

/-- The process after a move. -/
structure Moved (capacity : Nat) (p : Process) (move : Move) (next : Process) : Prop where
  /-- The server has taken its step. -/
  server : ServerStep capacity p.server move.action next.server
  /-- The memory has been changed. -/
  memory : next.memory = p.memory.after move.effect
  /-- The receive buffers are those of the move. -/
  receivers : next.receivers = move.receivers
  /-- The request that was handed over is kept under its number. -/
  handed : next.handed = move.handed.elim p.handed (Function.update p.handed p.server.dispatched)

/-- A step of the process is a move that was planned. -/
theorem step_moved {p next : Process} {action : Action}
    (taken : step capacity platform p action = some next) :
    ∃ move, plan platform p action = some move ∧ Moved capacity p move next := by
  obtain ⟨move, planned, performed⟩ := Option.bind_eq_some_iff.mp taken
  refine ⟨move, planned, ?_⟩
  obtain ⟨server, stepped, rfl⟩ := Option.map_eq_some_iff.mp performed
  refine ⟨?_, rfl, rfl, ?_⟩
  · cases kind : move.action with
    | none =>
      rw [kind] at stepped
      exact (Option.some.inj stepped).symm
    | some action =>
      rw [kind] at stepped
      exact stepped
  · cases move.handed <;> rfl

/-- Every run of the process is one of the server, with the buffers left out. -/
theorem server_run {p : Process} {actions : List Action}
    (reached : Reaches capacity platform actions p) :
    ∃ taken, MultiThread.Reaches capacity taken p.server := by
  have preserved (state : Process) (action : Action) (next : Process)
      (earlier : ∃ taken, MultiThread.Reaches capacity taken state.server)
      (taken : step capacity platform state action = some next) :
      ∃ taken, MultiThread.Reaches capacity taken next.server := by
    obtain ⟨before, ran⟩ := earlier
    obtain ⟨move, -, moved⟩ := step_moved taken
    have server := moved.server
    cases kind : move.action with
    | none =>
      rw [kind] at server
      exact ⟨before, server ▸ ran⟩
    | some other =>
      rw [kind] at server
      exact ⟨before ++ [other], (run_concat other ran).trans server⟩
  have idle : ∃ taken, MultiThread.Reaches capacity taken start.server := ⟨[], rfl⟩
  exact run_invariant preserved idle reached

/-- What `mg_http_handler` does here after parsing is what it does to a connection on its own. -/
theorem httpParsed_handleParsed (nc : HttpConn) (reqLen : Int) (hm : HttpMessage) :
    handleParsed platform true nc reqLen hm =
      (httpParsed platform nc reqLen hm).elim { nc with status := .stopped } Handled.nc := by
  unfold handleParsed httpParsed
  split_ifs with chunked
  · cases mgHandleChunked platform (nc.stray platform) nc.recvMbuf reqLen.toNat nc.chunkBodyLen hm
      <;> rfl
  · rfl

/-- So is what it does when it receives. -/
theorem httpRecv_handleRecv (nc : HttpConn) :
    handleRecv platform true nc =
      (httpRecv platform nc).elim { nc with status := .stopped } Handled.nc :=
  httpParsed_handleParsed nc _ _

/-- The contents of a buffer after a segment are the old ones with the bytes appended. -/
theorem mgRecvCommon_contents {memory : Memory Bytes} {r : Receiver} {buf : Bytes} (moved : Bool)
    (within : r.len ≤ (r.bytes memory).length) (heap : buf.length ≤ platform.heap) :
    (mgRecvCommon platform memory r buf moved).bytes.take
        (mgRecvCommon platform memory r buf moved).len =
      mbufAppend platform (r.contents memory) buf := by
  have length : (r.contents memory).length = r.len := List.length_take_of_le within
  -- an appended buffer, whatever stands behind it in the block
  have appended (rest : Bytes) :
      (r.contents memory ++ buf ++ rest).take (r.len + buf.length) = r.contents memory ++ buf := by
    have size : (r.contents memory ++ buf).length = r.len + buf.length := by
      rw [List.length_append, length]
    rw [← size, List.take_left]
  have adopted (empty : r.len = 0) :
      buf.take buf.length = mbufAppend platform (r.contents memory) buf := by
    have nothing : r.contents memory = [] := List.eq_nil_of_length_eq_zero (by omega)
    rw [mbufAppend, nothing, if_pos (by rw [List.length_nil]; omega), List.take_length,
      List.nil_append]
  unfold mgRecvCommon
  cases buffer : r.buf with
  | none =>
    apply adopted
    have none : (r.bytes memory).length = 0 := by simp [Receiver.bytes, buffer]
    omega
  | some block =>
    simp only
    by_cases empty : r.len = 0
    · rw [if_pos empty]
      exact adopted empty
    · rw [if_neg empty, mbufAppend, length]
      by_cases full : platform.heap < r.len + buf.length
      · rw [if_pos full, if_neg (by omega)]
        rfl
      · have room : r.len + buf.length ≤ platform.heap := Nat.le_of_not_lt full
        rw [if_neg full, if_pos room]
        by_cases fits : r.len + buf.length ≤ (r.bytes memory).length
        · rw [if_pos fits]
          exact appended _
        · rw [if_neg fits]
          exact appended _

/-- A segment is handled as on a connection without memory. -/
theorem recv_refines {memory : Memory Bytes} {r : Receiver} {buf : Bytes} (moved : Bool)
    (within : r.len ≤ (r.bytes memory).length) (heap : buf.length ≤ platform.heap)
    (http : r.status = .http) (accepted : r.closeImmediately = false) :
    Mongoose.step platform true (r.conn (r.contents memory)) (.recv buf) =
      some ((httpRecv platform (r.conn
        ((mgRecvCommon platform memory r buf moved).bytes.take
          (mgRecvCommon platform memory r buf moved).len))).elim
        { r.conn (mbufAppend platform (r.contents memory) buf) with status := .stopped }
        Handled.nc) := by
  rw [mgRecvCommon_contents moved within heap]
  have handled := @httpRecv_handleRecv platform
    (r.conn (mbufAppend platform (r.contents memory) buf))
  rw [← handled]
  simp only [Mongoose.step, Receiver.conn, http, accepted]
  rfl

end CppCode.MultiThread.Buffers
