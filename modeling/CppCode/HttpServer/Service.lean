import CppCode.Library.Run
import CppCode.Mongoose.Manager

/-!
# Stopping the server

The event loop of the two overloads of `startHttpService` together with `HttpServer::Close`. The
plain overload serves a local manager that shadows the static one; the TLS overload serves the
static one. `ev_handler` always passes the static manager to `Close`, which takes it by value and
calls `mg_mgr_free` on the copy, inside the callback: the last poll of `mg_mgr_free` goes through
the shared interfaces and may deliver further events, then the connections of the list are closed
one by one, and closing the connection whose request is being handled delivers that request once
more, because it is still in the receive buffer.

The calls of `mg_mgr_free` in progress are a stack of frames. The log holds what stopping is
about, in order: the requests delivered to `ev_handler` and the polls of the loop.
-/

namespace CppCode.HttpServer

open Library Mongoose

/-- The overloads of `startHttpService`. -/
inductive Overload
  /-- Without arguments. -/
  | plain
  /-- With certificate and key. -/
  | tls
  deriving DecidableEq

/-- A connection: the listener is 0, and accepted connections count up. -/
abbrev listener : Nat := 0

/-- `struri == "close" || struri == "/close"`. -/
def isClose (uri : Bytes) : Bool := uri = ascii "close" || uri = ascii "/close"

/-- Where a call of `mg_mgr_free` inside `Close` is. -/
inductive Phase
  /-- In its last poll. -/
  | lastPoll
  /-- Closing the connections, with the next one to close. -/
  | closing (conn : Option Nat)
  deriving DecidableEq

/-- A call of `Close` in progress. -/
structure Frame where
  /-- The manager passed by value. -/
  copy : MgMgr
  /-- Progress of `mg_mgr_free`. -/
  phase : Phase
  /-- The connection in whose receive event `ev_handler` was called and the URI of the request,
  which is still in its receive buffer. -/
  origin : Option (Nat × Bytes)
  deriving DecidableEq

/-- What the log records. -/
inductive Observation
  /-- `ev_handler` is called with `MG_EV_HTTP_REQUEST` for a URI. -/
  | request (uri : Bytes)
  /-- The loop calls `mg_mgr_poll` on a manager whose interface array was released, or not. -/
  | poll (released : Bool)
  deriving DecidableEq

/-- The state of the process. -/
structure Service where
  /-- `HttpServer::mgr`. -/
  static : MgMgr
  /-- The manager of the plain overload. -/
  shadow : MgMgr
  /-- The heap. -/
  heap : Heap
  /-- Number of accepts. -/
  accepts : Nat
  /-- Calls of `Close` in progress, innermost first. -/
  stack : List Frame
  /-- What happened, oldest first. -/
  log : List Observation
  deriving DecidableEq

/-- The manager that the loop polls. -/
def Service.served (overload : Overload) (s : Service) : MgMgr :=
  match overload with
  | .plain => s.shadow
  | .tls => s.static

/-- Replace the list of connections of the manager that the loop polls. -/
def Service.setActive (overload : Overload) (s : Service) (active : List Nat) : Service :=
  match overload with
  | .plain => { s with shadow := { s.shadow with active } }
  | .tls => { s with static := { s.static with active } }

/-- The service when `startHttpService` enters its loop. -/
def start (overload : Overload) : Service :=
  let (mgr, heap) := mgMgrInit {}
  let mgr := { mgr with active := [listener] }
  match overload with
  | .plain => ⟨{}, mgr, heap, 0, [], []⟩
  | .tls => ⟨mgr, {}, heap, 0, [], []⟩

/-- `ev_handler` for a request: `Close` is called with the static manager, or the request is
answered, which does not concern the managers. -/
def evHandler (s : Service) (uri : Bytes) (origin : Option (Nat × Bytes)) : Service :=
  let s := { s with log := s.log ++ [.request uri] }
  if isClose uri then { s with stack := ⟨s.static, .lastPoll, origin⟩ :: s.stack } else s

/-- The request that is in the receive buffer of a connection while it is being handled. -/
def Service.pending (s : Service) (conn : Nat) : Option Bytes :=
  s.stack.findSome? fun frame =>
    match frame.origin with
    | some (nc, uri) => if nc = conn then some uri else none
    | none => none

/-- Whether a closing connection may hold this request, if any, in its receive buffer. -/
def Service.MayHold (s : Service) (conn : Nat) (leftover : Option Bytes) : Prop :=
  if conn = listener then leftover = none
  else (s.pending conn).isSome → leftover = s.pending conn

instance (s : Service) (conn : Nat) (leftover : Option Bytes) :
    Decidable (s.MayHold conn leftover) := by
  unfold Service.MayHold
  infer_instance

/-- `mg_close_conn`: the connection leaves the list of its manager, and a request in its receive
buffer is delivered. -/
def mgCloseConn (overload : Overload) (s : Service) (conn : Nat) (leftover : Option Bytes) :
    Service :=
  let s := s.setActive overload ((s.served overload).active.filter (· ≠ conn))
  match leftover with
  | none => s
  | some uri => evHandler s uri none

/-- The connections of the served manager handle events: in the poll of the loop, or in the last
poll of an `mg_mgr_free` whose copy has interfaces. -/
def Service.Polling (s : Service) : Prop :=
  match s.stack with
  | [] => True
  | frame :: _ => frame.phase = .lastPoll ∧ frame.copy.numIfaces ≠ 0

instance (s : Service) : Decidable s.Polling := by
  unfold Service.Polling
  cases s.stack <;> infer_instance

/-- `conn->next`, in the list of the served manager. -/
def Service.mgNext (overload : Overload) (s : Service) (conn : Nat) : Option Nat :=
  ((s.served overload).active.dropWhile (· ≠ conn)).tail.head?

/-- The next step of the innermost `mg_mgr_free`; a connection that it closes may hold a
request. -/
def unwind (overload : Overload) (s : Service) (leftover : Option Bytes) : Option Service :=
  match s.stack with
  | [] => none
  | frame :: frames =>
    match frame.phase with
    | .lastPoll =>
      some { s with
        heap := mgMgrPoll frame.copy s.heap
        stack := { frame with phase := .closing frame.copy.active.head? } :: frames }
    | .closing (some conn) =>
      if conn ∈ (s.served overload).active then
        if s.MayHold conn leftover then
          -- `tmp_conn` is read before the connection is closed
          some (mgCloseConn overload
            { s with stack := { frame with phase := .closing (s.mgNext overload conn) } :: frames }
            conn leftover)
        else none
      else
        some { s with
          heap := { s.heap with faults := .readDestroyed conn :: s.heap.faults }
          stack := { frame with phase := .closing none } :: frames }
    | .closing none =>
      some { s with heap := freeIfaces frame.copy s.heap, stack := frames }

/-- One step of the service. -/
inductive Action
  /-- The loop calls `mg_mgr_poll`. -/
  | loop
  /-- The listener accepts a connection. -/
  | accept
  /-- A connection receives data; the request at the front of its receive buffer is delivered. -/
  | request (conn : Nat) (uri : Bytes)
  /-- A connection is closed by a poll, with a request left in its receive buffer or not. -/
  | close (conn : Nat) (leftover : Option Bytes)
  /-- The innermost `mg_mgr_free` goes on. -/
  | unwind (leftover : Option Bytes)
  deriving DecidableEq

/-- The effect of an action, `none` when it is not enabled. -/
def step (overload : Overload) (s : Service) : Action → Option Service
  | .loop =>
    if s.stack = [] then
      let m := s.served overload
      some { s with
        heap := mgMgrPoll m s.heap
        log := s.log ++ [.poll (m.numIfaces ≠ 0 && s.heap.isReleased m.ifaces)] }
    else none
  | .accept =>
    if s.Polling ∧ listener ∈ (s.served overload).active then
      some { s.setActive overload ((s.accepts + 1) :: (s.served overload).active) with
        accepts := s.accepts + 1 }
    else none
  | .request conn uri =>
    if s.Polling ∧ conn ≠ listener ∧ conn ∈ (s.served overload).active ∧
        s.MayHold conn (some uri) then
      some (evHandler s uri (some (conn, uri)))
    else none
  | .close conn leftover =>
    if s.Polling ∧ conn ≠ listener ∧ conn ∈ (s.served overload).active ∧
        s.MayHold conn leftover then
      some (mgCloseConn overload s conn leftover)
    else none
  | .unwind leftover => unwind overload s leftover

/-- A run of the service from the start of its loop. -/
def Reaches (overload : Overload) (actions : List Action) (s : Service) : Prop :=
  run (step overload) (start overload) actions = some s

/-! ## What the log is to show -/

/-- After a request to close, no further request is delivered to `ev_handler`, and the loop does
not poll a manager whose interface array was released. -/
def Stops (log : List Observation) : Prop :=
  ∀ before observation after, log = before ++ observation :: after →
    (∃ uri, isClose uri = true ∧ .request uri ∈ before) →
    (∀ uri, observation ≠ .request uri) ∧ observation ≠ .poll true

/-- No request to close is in a log. -/
def Quiet (log : List Observation) : Prop := ∀ uri, .request uri ∈ log → isClose uri = false

/-- A client does not ask the server to close: a request to close is delivered only when it is
already being handled. -/
def Unasked (s : Service) : Action → Prop
  | .request conn uri => isClose uri = true → s.pending conn = some uri
  | .close conn (some uri) => isClose uri = true → s.pending conn = some uri
  | .unwind (some uri) => isClose uri = true → ∃ conn, s.pending conn = some uri
  | _ => True

end CppCode.HttpServer
