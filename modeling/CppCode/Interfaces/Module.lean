import CppCode.Interfaces.Strings
import CppCode.Library.Run
import CppCode.Mongoose.Manager

/-!
# The state of the exported interface

The static variables of `HttpInterfaces.cpp` and the calls that change them: `Bind`,
`StartListen` and `Close`, in any order. `m_bind_opts` is cleared only when a certificate is
given, `m_port` is replaced without being released and stays set after its release, and
`mg_mgr_init` overwrites the manager of an earlier `Bind`. What the sockets and the TLS library
answer to a bind is an argument of it. Connections other than the listeners come and go in
`mg_mgr_poll` and do not touch these variables.
-/

namespace CppCode.Interfaces

open Library Mongoose

/-- The fields of `struct mg_bind_opts` that the module sets; the buffers they point to are never
changed or released. The other fields stay zero. -/
structure MgBindOpts where
  /-- `ssl_cert`. -/
  sslCert : Option Bytes := none
  /-- `ssl_key`. -/
  sslKey : Option Bytes := none
  deriving DecidableEq, Repr

/-- The static variables of the module. -/
structure Module where
  /-- `m_mgr`. -/
  mgr : MgMgr := {}
  /-- `m_bind_opts`. -/
  bindOpts : MgBindOpts := {}
  /-- `m_port`. -/
  port : Option Nat := none
  /-- Heap buffers: the interface arrays and the copies of ports. -/
  heap : Heap := {}
  /-- Number of listeners created so far. -/
  listeners : Nat := 0
  deriving DecidableEq, Repr

/-- The arguments of `Bind`, apart from its handler and its error buffer; `none` is `NULL`. -/
structure BindArgs where
  /-- `port`. -/
  port : Option CText
  /-- `certName`. -/
  certName : Option CText
  /-- `keyName`. -/
  keyName : Option CText

/-- What a call of `mg_bind_opt` meets. -/
structure BindEnv where
  /-- Whether a tunnel is opened, for an address that names one. -/
  tunnel : Option Bool := none
  /-- `mg_parse_address` accepts the address. -/
  parses : Bool := true
  /-- The address is of a datagram socket. -/
  udp : Bool := false
  /-- `mg_create_connection` succeeds. -/
  creates : Bool := true
  /-- The message of `mg_ssl_if_conn_init`, when it rejects the certificate or the key. -/
  sslError : Option Bytes := none
  /-- The socket can be opened. -/
  listens : Bool := true

/-- `mg_bind_opt`: the manager with the new listener, or the description of the failure, which
is stored nowhere because `error_string` is `NULL`. -/
def mgBindOpt (m : MgMgr) (listener : Nat) (opts : MgBindOpts) (env : BindEnv) :
    Except Bytes MgMgr :=
  let opened := Except.ok { m with active := listener :: m.active }
  let listen := if env.listens then opened else .error (ascii "failed to open listener")
  match env.tunnel with
  | some opens => if opens then opened else .error (ascii "failed to init connection")
  | none =>
    if !env.parses then .error (ascii "cannot parse address")
    else if !env.creates then .error (ascii "failed to init connection")
    else if opts.sslCert.isSome then
      if env.udp then .error (ascii "SSL for UDP is not supported")
      else
        match env.sslError with
        | some message => .error message
        | none => listen
    else listen

/-- What a call of `Bind` does besides changing the module. -/
structure BindResult where
  /-- The value returned, `none` when an allocation throws. -/
  code : Option Int
  /-- The options handed to `mg_bind_opt`, if it is called. -/
  handed : Option MgBindOpts := none
  /-- The bytes written to the error buffer of the caller, if any. -/
  errorMsg : Option Bytes := none

/-- Whether a string argument is given: it is not `NULL` and not empty. -/
def given (name : Option CText) : Option CText := name.filter fun text => text.bytes ≠ []

/-- The copy of a given argument: `none` when the allocation throws, `some none` when nothing is
given. -/
def copyGiven (name : Option CText) : Option (Option Bytes) :=
  match given name with
  | none => some none
  | some text => (newCopy (cString text.bytes)).map some

/-- The options after the certificate is stored: the structure is cleared when one is given. -/
def storeCert (opts : MgBindOpts) (cert : Option Bytes) : MgBindOpts :=
  match cert with
  | none => opts
  | some buffer => { sslCert := some buffer }

/-- The options after the key is stored. -/
def storeKey (opts : MgBindOpts) (key : Option Bytes) : MgBindOpts :=
  match key with
  | none => opts
  | some buffer => { opts with sslKey := some buffer }

/-- The end of `Bind`, with the options complete. -/
def bindListener (s : Module) (env : BindEnv) : Module × BindResult :=
  match mgBindOpt s.mgr s.listeners s.bindOpts env with
  | .error _ => (s, { code := some (-1), handed := some s.bindOpts })
  | .ok mgr =>
    ({ s with mgr, listeners := s.listeners + 1 }, { code := some 0, handed := some s.bindOpts })

/-- `Bind` on a fresh manager, with the copies that it makes in this order; `none` is an
allocation that throws. A certificate that cannot be copied throws after the structure was
cleared. -/
def bindCopies (s : Module) (port : Option Bytes) (cert key : Option (Option Bytes))
    (env : BindEnv) : Module × BindResult :=
  match port with
  | none => (s, { code := none })
  | some _ =>
    let (buffer, heap) := s.heap.malloc
    let s := { s with port := some buffer, heap }
    match cert with
    | none => ({ s with bindOpts := {} }, { code := none })
    | some cert =>
      let s := { s with bindOpts := storeCert s.bindOpts cert }
      match key with
      | none => (s, { code := none })
      | some key => bindListener { s with bindOpts := storeKey s.bindOpts key } env

/-- `Bind`. -/
def bind (s : Module) (args : BindArgs) (env : BindEnv) : Module × BindResult :=
  match given args.port with
  | none => (s, { code := some (-1), errorMsg := some (ascii "parameters Invalid") })
  | some port =>
    let (mgr, heap) := mgMgrInit s.heap
    bindCopies { s with mgr, heap } (newCopy (cString port.bytes)) (copyGiven args.certName)
      (copyGiven args.keyName) env

/-- `Close`: the last poll, the closing of the listeners, and the releases of `mg_mgr_free`, then
the release of the port, whose pointer stays set. -/
def close (s : Module) : Module :=
  let heap := mgMgrPoll s.mgr s.heap
  let mgr := { s.mgr with active := [] }
  let heap := freeIfaces mgr heap
  { s with mgr, heap := heap.free s.port }

/-- `StartListen`. -/
def startListen (s : Module) : Module := { s with heap := mgMgrPoll s.mgr s.heap }

/-- A call of the interface. -/
inductive Call
  /-- `Bind`. -/
  | bind (args : BindArgs) (env : BindEnv)
  /-- `StartListen`. -/
  | startListen
  /-- `Close`. -/
  | close

/-- The module after a call. -/
def exec (s : Module) : Call → Module
  | .bind args env => (bind s args env).1
  | .startListen => startListen s
  | .close => close s

/-- The module after a history of calls from the start of the program. -/
def after (history : List Call) : Module := history.foldl exec {}

end CppCode.Interfaces
