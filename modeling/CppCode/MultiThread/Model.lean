import Mathlib.Logic.Function.Basic
import CppCode.Library.Run
import CppCode.Mongoose.HttpMessage
import CppCode.Mongoose.Send

/-!
# The multi-threaded server

The IO thread and the five workers of `MultiThreadStart` as one interleaved system, in the
Windows build with whole records on the socket pair `sock`. An action is one step of one
thread, and `step` executes it when it is enabled. The request channel holds at most
`capacity` records; `sendto` blocks the IO thread inside `ev_handler` while it is full,
`recvfrom` blocks a worker while it is empty, and `mg_broadcast` blocks its worker until the
IO thread has read the message inside `mg_mgr_poll`. There is no lock around the call of
`mg_broadcast` and the send in it, so they are steps of their own. Shutdown is modelled as well: the
signal, the last poll and the closing of connections in `mg_mgr_free`, and the closing of `sock`.

Three things are recorded that the program does not store. A connection keeps the number of
its accept, because its address may be reused; a record keeps the connection it came from and
its own number; and `written` lists the records that `ev_handler` has put on the channel. No
step depends on them, except to name the connection that an event is about.
-/

namespace CppCode.MultiThread

open Library Mongoose

/-- `s_num_worker_threads`. -/
def numWorkerThreads : Nat := 5

instance : NeZero numWorkerThreads := ⟨by decide⟩

/-- `struct work_request`. -/
structure WorkRequest where
  /-- Identity of the connection, `user_data` as an `unsigned long`. -/
  connId : UInt32
  /-- The shallow copy of the message. -/
  message : HttpMessage

/-- `struct work_result`. -/
structure WorkResult where
  /-- Identity of the connection. -/
  connId : UInt32
  /-- Seconds that the worker slept. -/
  sleepTime : Nat

/-- A record on its way from `ev_handler` to a response. -/
structure Dispatch where
  /-- Accept number of the connection that received the request. -/
  serial : Nat
  /-- Number of the request among all that were handed to `ev_handler`. -/
  number : Nat
  /-- The record itself. -/
  request : WorkRequest

/-- What the server reads and writes of a `struct mg_connection` in the active list. -/
structure Connection where
  /-- Accept number; 0 is the listener. -/
  serial : Nat
  /-- `user_data`, where 0 is `NULL`. -/
  userData : UInt32
  /-- Bytes scheduled for sending. -/
  sendMbuf : Bytes

/-- `struct ctl_msg` with the callback `on_work_complete`, and the worker that waits for it. -/
structure CtlMsg where
  /-- The worker blocked in `mg_broadcast`. -/
  worker : Fin numWorkerThreads
  /-- The record that the result was computed from. -/
  origin : Dispatch
  /-- The message. -/
  result : WorkResult

/-- Where a worker is in `worker_thread_proc`. -/
inductive Worker
  /-- At the test of `s_received_signal`. -/
  | top
  /-- Blocked in `recvfrom`. -/
  | reading
  /-- Printing the record it has copied. -/
  | holding (dispatch : Dispatch)
  /-- Asleep for the given number of seconds. -/
  | sleeping (dispatch : Dispatch) (seconds : Nat)
  /-- In `mg_broadcast`, before its `MG_SEND_FUNC`. -/
  | calling (dispatch : Dispatch) (seconds : Nat)
  /-- Blocked in `mg_broadcast`, in its `MG_RECV_FUNC`. -/
  | broadcasting (dispatch : Dispatch) (seconds : Nat)
  /-- Returned. -/
  | exited
  /-- Constructing a string from the `NULL` of a zeroed record. -/
  | faulted

/-- Where the IO thread is in `MultiThreadStart`, outside of `ev_handler`. -/
inductive Stage
  /-- In the `mg_mgr_poll` of the loop. -/
  | loop
  /-- In the last `mg_mgr_poll` of `mg_mgr_free`. -/
  | lastPoll
  /-- Closing the connections in `mg_mgr_free`; the control sockets are closed. -/
  | freeing
  /-- After `mg_mgr_free`. -/
  | freed
  /-- After closing `sock[0]`. -/
  | closed0
  /-- After closing `sock[1]`. -/
  | closed1
  /-- `MultiThreadStart` has returned. -/
  | returned
  deriving DecidableEq

/-- Whether the control sockets of the manager are open. -/
def Stage.ctlOpen : Stage → Bool
  | .loop | .lastPoll => true
  | _ => false

/-- Whether `sock[1]` is open, so that the records in it can still be read. -/
def Stage.readsRecords : Stage → Bool
  | .closed1 | .returned => false
  | _ => true

/-- Whether a read of `sock[1]` returns without a record. -/
def Stage.readsFail : Stage → Bool
  | .closed0 | .closed1 | .returned => true
  | _ => false

/-- The state of the process. -/
structure Server where
  /-- `s_received_signal != 0`. -/
  signalled : Bool
  /-- Position of the IO thread. -/
  stage : Stage
  /-- The record that the IO thread is sending inside `ev_handler`. -/
  sending : Option Dispatch
  /-- `mgr.active_connections`, newest first. -/
  active : List Connection
  /-- `s_next_id`. -/
  nextId : UInt32
  /-- Number of accepts so far. -/
  accepts : Nat
  /-- Number of requests handed to `ev_handler` so far. -/
  dispatched : Nat
  /-- Records in `sock`, oldest first. -/
  channel : List Dispatch
  /-- Records that `ev_handler` has written so far. -/
  written : List Dispatch
  /-- The workers. -/
  workers : Fin numWorkerThreads → Worker
  /-- Messages in the control socket, oldest first. -/
  ctl : List CtlMsg
  /-- A worker has called `mg_broadcast` on `mgr` after `MultiThreadStart` returned. -/
  usedAfterReturn : Bool

/-- The listening connection that `mg_bind` adds. -/
def listener : Connection := ⟨0, 0, []⟩

/-- The state in which `MultiThreadStart` enters its loop. -/
def start : Server where
  signalled := false
  stage := .loop
  sending := none
  active := [listener]
  nextId := 0
  accepts := 0
  dispatched := 0
  channel := []
  written := []
  workers := fun _ => .top
  ctl := []
  usedAfterReturn := false

/-! ## The functions of the program -/

/-- The text that `on_work_complete` formats with `sprintf`. -/
def responseText (res : WorkResult) : Bytes :=
  ascii "conn_id:" ++ decimal res.connId.toNat ++ ascii " sleep:" ++ decimal res.sleepTime

/-- The head and the body that `on_work_complete` writes to a connection. -/
def respond (c : Connection) (res : WorkResult) : Connection :=
  let head := mgSendHead c.sendMbuf 200 (responseText res).length
    (ascii "Content-Type: text/plain")
  { c with sendMbuf := mgPrintf head (responseText res) }

/-- `on_work_complete`, which scans the connections of the manager. -/
def onWorkComplete (active : List Connection) (res : WorkResult) : List Connection :=
  active.map fun c =>
    if c.userData ≠ 0 then if c.userData = res.connId then respond c res else c else c

/-- The loop of `mg_mgr_handle_ctl_sock`, which calls the callback for each connection. -/
def mgMgrHandleCtlSock (active : List Connection) (res : WorkResult) : List Connection :=
  active.foldl (fun current _ => onWorkComplete current res) active

/-- `mg_if_accept_new_conn`, which copies the `user_data` of the listener, followed by the
accept event, in which `ev_handler` replaces it by the next identity. -/
def acceptConn (s : Server) : Server :=
  let nextId := s.nextId + 1
  { s with
    nextId
    accepts := s.accepts + 1
    active := ⟨s.accepts + 1, nextId, []⟩ :: s.active }

/-- `ev_handler` for a request, up to its `sendto`. -/
def evHandlerRequest (s : Server) (c : Connection) (message : HttpMessage) : Server :=
  { s with
    sending := some ⟨c.serial, s.dispatched, ⟨c.userData, message⟩⟩
    dispatched := s.dispatched + 1 }

/-- `mg_close_conn`: a request that is still buffered is handed to `ev_handler` before the
close event, when the connection has left the list but still has its `user_data`. -/
def closeConn (s : Server) (c : Connection) (leftover : Option HttpMessage) : Server :=
  let s := { s with active := s.active.filter fun other => other.serial ≠ c.serial }
  match leftover with
  | none => s
  | some message => evHandlerRequest s c message

/-- Move one worker. -/
def Server.setWorker (s : Server) (i : Fin numWorkerThreads) (worker : Worker) : Server :=
  { s with workers := Function.update s.workers i worker }

/-- `mg_broadcast` up to its test of the control socket; a closed one makes it return. -/
def mgBroadcast (s : Server) (i : Fin numWorkerThreads) (origin : Dispatch) (seconds : Nat) :
    Server :=
  { s.setWorker i (if s.stage.ctlOpen then .calling origin seconds else .top) with
    usedAfterReturn := s.usedAfterReturn || decide (s.stage = Stage.returned) }

/-- The `MG_SEND_FUNC` of `mg_broadcast`, which waits for the answer then. When the control socket
has been closed since the test, neither of the two succeeds and `mg_broadcast` returns. -/
def mgSendFunc (s : Server) (i : Fin numWorkerThreads) (origin : Dispatch) (seconds : Nat) :
    Server :=
  let result : WorkResult := ⟨origin.request.connId, seconds⟩
  { s.setWorker i (if s.stage.ctlOpen then .broadcasting origin seconds else .top) with
    ctl := if s.stage.ctlOpen then s.ctl ++ [CtlMsg.mk i origin result] else s.ctl }

/-- The open connection with an accept number. -/
def Server.find? (s : Server) (serial : Nat) : Option Connection :=
  s.active.find? fun c => c.serial = serial

/-- The IO thread is in `mg_mgr_poll` and in no callback. -/
def Server.Polling (s : Server) : Prop := s.stage.ctlOpen = true ∧ s.sending.isNone = true

instance (s : Server) : Decidable s.Polling :=
  inferInstanceAs (Decidable (_ ∧ _))

/-! ## The steps -/

/-- One step of one thread. -/
inductive Action
  /-- The IO thread accepts a connection. -/
  | accept
  /-- The IO thread hands a request of a connection to `ev_handler`. -/
  | request (serial : Nat) (message : HttpMessage)
  /-- The `sendto` of the IO thread completes. -/
  | write
  /-- The IO thread closes a connection, whose buffer may still hold a request. -/
  | close (serial : Nat) (leftover : Option HttpMessage)
  /-- The IO thread reads one message from the control socket and runs its callback. -/
  | handleCtl
  /-- A signal arrives. -/
  | signal
  /-- The IO thread leaves its loop or takes the next step of the shutdown. -/
  | advance
  /-- A worker tests `s_received_signal`. -/
  | test (i : Fin numWorkerThreads)
  /-- A worker receives a record. -/
  | read (i : Fin numWorkerThreads)
  /-- A worker's `recvfrom` ends without a record. -/
  | readFail (i : Fin numWorkerThreads)
  /-- A worker goes to sleep. -/
  | sleep (i : Fin numWorkerThreads) (seconds : Nat)
  /-- A worker wakes up and calls `mg_broadcast`. -/
  | broadcast (i : Fin numWorkerThreads)
  /-- A worker sends its result in `mg_broadcast`. -/
  | sendCtl (i : Fin numWorkerThreads)
  /-- A worker leaves `mg_broadcast` because the control sockets were closed. -/
  | unblock (i : Fin numWorkerThreads)

/-- The next stage of the IO thread. -/
def Stage.next : Stage → Stage
  | .loop => .lastPoll
  | .lastPoll => .freeing
  | .freeing => .freed
  | .freed => .closed0
  | .closed0 => .closed1
  | .closed1 => .returned
  | .returned => .returned

/-- Whether the IO thread may take its next stage. -/
def Server.MayAdvance (s : Server) : Prop :=
  s.sending.isNone = true ∧
    match s.stage with
    | .loop => s.signalled = true
    | .freeing => s.active.isEmpty = true
    | .returned => False
    | _ => True

instance (s : Server) : Decidable s.MayAdvance := by
  unfold Server.MayAdvance
  cases s.stage <;> infer_instance

/-- Whether the IO thread may close a connection: the poll closes accepted connections, and
`mg_mgr_free` closes the head of the list until it is empty. -/
def Server.MayClose (s : Server) (serial : Nat) (leftover : Option HttpMessage) : Prop :=
  (s.Polling ∧ serial ≠ 0) ∨
    (s.stage = .freeing ∧ s.sending.isNone = true ∧
      s.active.head?.map Connection.serial = some serial ∧ (serial = 0 → leftover.isNone = true))

instance (s : Server) (serial : Nat) (leftover : Option HttpMessage) :
    Decidable (s.MayClose serial leftover) :=
  inferInstanceAs (Decidable (_ ∨ _))

/-- The effect of an action, `none` when it is not enabled. -/
def step (capacity : Nat) (s : Server) : Action → Option Server
  | .accept => if s.Polling then some (acceptConn s) else none
  | .request serial message =>
    if s.Polling ∧ serial ≠ 0 then
      (s.find? serial).map fun c => evHandlerRequest s c message
    else none
  | .write =>
    match s.sending with
    | none => none
    | some dispatch =>
      if s.channel.length < capacity then
        some { s with
          sending := none
          channel := s.channel ++ [dispatch]
          written := s.written ++ [dispatch] }
      else none
  | .close serial leftover =>
    if s.MayClose serial leftover then
      (s.find? serial).map fun c => closeConn s c leftover
    else none
  | .handleCtl =>
    match s.ctl with
    | [] => none
    | msg :: rest =>
      if s.Polling then
        some { s.setWorker msg.worker .top with
          ctl := rest
          active := mgMgrHandleCtlSock s.active msg.result }
      else none
  | .signal => some { s with signalled := true }
  | .advance =>
    if s.MayAdvance then
      some { s with
        stage := s.stage.next
        ctl := if s.stage.next.ctlOpen then s.ctl else [] }
    else none
  | .test i =>
    match s.workers i with
    | .top => some (s.setWorker i (if s.signalled then .exited else .reading))
    | _ => none
  | .read i =>
    match s.workers i, s.channel with
    | .reading, dispatch :: rest =>
      if s.stage.readsRecords then
        some { s.setWorker i (.holding dispatch) with channel := rest }
      else none
    | _, _ => none
  | .readFail i =>
    match s.workers i with
    | .reading => if s.stage.readsFail then some (s.setWorker i .faulted) else none
    | _ => none
  | .sleep i seconds =>
    match s.workers i with
    | .holding dispatch =>
      if seconds < 10 then some (s.setWorker i (.sleeping dispatch seconds)) else none
    | _ => none
  | .broadcast i =>
    match s.workers i with
    | .sleeping dispatch seconds => some (mgBroadcast s i dispatch seconds)
    | _ => none
  | .sendCtl i =>
    match s.workers i with
    | .calling dispatch seconds => some (mgSendFunc s i dispatch seconds)
    | _ => none
  | .unblock i =>
    match s.workers i with
    | .broadcasting _ _ => if s.stage.ctlOpen then none else some (s.setWorker i .top)
    | _ => none

/-- A run of the server from the start of its loop. -/
def Reaches (capacity : Nat) (actions : List Action) (s : Server) : Prop :=
  run (step capacity) start actions = some s

/-- The message of a `GET /` request on a 32-bit target, which the example runs send. -/
def getRequest : HttpMessage :=
  let windows : Platform := ⟨32, 2 ^ 31, true, fun _ _ _ => false, by decide, by decide⟩
  (mgParseHttp windows (ascii "GET / HTTP/1.1\r\n\r\n") 18 true).2

end CppCode.MultiThread
