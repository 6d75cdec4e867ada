import CppCode.Interfaces.LifeCycle
import CppCode.Interfaces.Options

/-!
# Calls of `Bind` that fail

`Bind` returns -1 at two places. Without a port it returns before it changes anything, and copies
its message to the buffer of the caller without the `NUL` behind it. When `mg_bind_opt` fails it
has already initialised the manager and replaced the port and the options, and the description
of the failure is lost: `error_string` is `NULL`, and what is assigned is the parameter
`errormsg` itself. `failedBind_iff` says for which calls a failure is all-or-nothing and
reported.
-/

namespace CppCode.Interfaces

open Library Mongoose

/-- The buffer of a caller that `*errormsg` points to. -/
structure MsgBuffer where
  /-- Its bytes before the call. -/
  bytes : Bytes
  /-- It has room for the only text that `Bind` writes and a `NUL`. -/
  room : (ascii "parameters Invalid").length < bytes.length

/-- The buffer after a call, which writes its text over the front of it. -/
def MsgBuffer.after (buffer : MsgBuffer) (result : BindResult) : Bytes :=
  match result.errorMsg with
  | none => buffer.bytes
  | some text => text ++ buffer.bytes.drop text.length

/-- The description of the failure of a call: that of `mg_bind_opt` when it was called. -/
def failureText (s : Module) (args : BindArgs) (env : BindEnv) : Option Bytes :=
  match (bind s args env).2.handed with
  | none => some (ascii "parameters Invalid")
  | some opts =>
    match mgBindOpt s.mgr s.listeners opts env with
    | .error message => some message
    | .ok _ => none

/-- If the call fails, it has changed neither the listeners that the manager lists nor the port
nor the options, and the buffer of the caller holds the description of the failure. -/
def AllOrNothing (s : Module) (args : BindArgs) (env : BindEnv) (buffer : MsgBuffer) : Prop :=
  let outcome := bind s args env
  outcome.2.code = some (-1) →
    ((∀ listener, listener ∈ outcome.1.mgr.active ↔ listener ∈ s.mgr.active) ∧
      outcome.1.port = s.port ∧ outcome.1.bindOpts = s.bindOpts) ∧
    ∃ text, failureText s args env = some text ∧ text ≠ [] ∧
      readCString (buffer.after outcome.2) = some text

/-- `mg_bind_opt` fails, with a certificate or without: the tunnel is not opened, or the address
does not parse, the connection is not created, TLS is not possible, or the socket is not opened. -/
def Refused (tls : Bool) (env : BindEnv) : Prop :=
  match env.tunnel with
  | some opens => opens = false
  | none =>
    env.parses = false ∨ env.creates = false ∨
      (tls = true ∧ (env.udp = true ∨ env.sslError.isSome = true)) ∨ env.listens = false

/-- A certificate is handed to `mg_bind_opt`: one is given, or left from an earlier call. -/
def usesTls (s : Module) (args : BindArgs) : Bool :=
  (given args.certName).isSome || s.bindOpts.sslCert.isSome

/-! ## The two failures -/

/-- When `mg_bind_opt` fails. -/
theorem mgBindOpt_error_iff (m : MgMgr) (listener : Nat) (opts : MgBindOpts) (env : BindEnv) :
    (∃ message, mgBindOpt m listener opts env = .error message) ↔
      Refused opts.sslCert.isSome env := by
  obtain ⟨tunnel, parses, udp, creates, sslError, listens⟩ := env
  cases tunnel with
  | some opens => cases opens <;> simp [mgBindOpt, Refused]
  | none =>
    cases parses with
    | false => simp [mgBindOpt, Refused]
    | true =>
      cases creates with
      | false => simp [mgBindOpt, Refused]
      | true =>
        cases stored : opts.sslCert with
        | none => cases listens <;> simp [mgBindOpt, Refused, stored]
        | some cert =>
          cases udp with
          | true => simp [mgBindOpt, Refused, stored]
          | false => cases sslError <;> cases listens <;> simp [mgBindOpt, Refused, stored]

/-- The end of `Bind` returns -1 when `mg_bind_opt` fails, and 0 when it does not; its failure
writes nothing to the buffer and adds no listener. -/
theorem bindListener_cases (s : Module) (env : BindEnv) :
    (Refused s.bindOpts.sslCert.isSome env ∧
        bindListener s env = (s, { code := some (-1), handed := some s.bindOpts })) ∨
      (¬Refused s.bindOpts.sslCert.isSome env ∧ (bindListener s env).2.code = some 0) := by
  rw [← mgBindOpt_error_iff s.mgr s.listeners]
  unfold bindListener
  cases mgBindOpt s.mgr s.listeners s.bindOpts env with
  | error message => exact .inl ⟨⟨message, rfl⟩, rfl⟩
  | ok mgr => exact .inr ⟨by simp, rfl⟩

/-- The options that `Bind` hands over use TLS when a certificate is given or left. -/
theorem storeKey_usesTls {s : Module} {args : BindArgs} {cert key : Option Bytes}
    (copied : copyGiven args.certName = some cert) :
    (storeKey (storeCert s.bindOpts cert) key).sslCert.isSome = usesTls s args := by
  rw [usesTls, ← copyGiven_isSome copied]
  cases cert <;> cases key <;> rfl

/-- A call that `mg_bind_opt` makes fail: the manager lists no listener, the port is a new copy,
the options are replaced, and nothing is written to the buffer of the caller. -/
structure Overwritten (s : Module) (args : BindArgs) (env : BindEnv) : Prop where
  /-- It fails. -/
  code : (bind s args env).2.code = some (-1)
  /-- The listeners are gone. -/
  active : (bind s args env).1.mgr.active = []
  /-- The port. -/
  port : (bind s args env).1.port = some (s.heap.next + 1)
  /-- The buffer. -/
  silent : (bind s args env).2.errorMsg = none

/-- A call that hands its options to `mg_bind_opt` fails exactly when that fails, and then has
overwritten the module. -/
theorem bind_handed_cases {s : Module} {args : BindArgs} (env : BindEnv)
    (handed : ¬NotHanded args) :
    (Refused (usesTls s args) env ∧ Overwritten s args env) ∨
      (¬Refused (usesTls s args) env ∧ (bind s args env).2.code = some 0) := by
  obtain ⟨port, buffer, cert, key, portGiven, portCopied, certCopied, keyCopied⟩ :=
    copies_of_handed handed
  -- the module when `mg_bind_opt` is called
  let complete : Module :=
    { s with
      mgr := (mgMgrInit s.heap).1
      heap := (mgMgrInit s.heap).2.malloc.2
      port := some (s.heap.next + 1)
      bindOpts := storeKey (storeCert s.bindOpts cert) key }
  have shape : bind s args env = bindListener complete env := by
    simp only [bind, portGiven, portCopied, certCopied, keyCopied]
    rfl
  have tls : complete.bindOpts.sslCert.isSome = usesTls s args := storeKey_usesTls certCopied
  have ends := bindListener_cases complete env
  rw [tls, ← shape] at ends
  rcases ends with ⟨refused, failed⟩ | ⟨accepted, success⟩
  · refine .inl ⟨refused, ?_⟩
    constructor <;> rw [failed]
    rfl
  · exact .inr ⟨accepted, success⟩

/-- A call that hands nothing over fails exactly when no port is given. -/
theorem bind_unhanded_code {s : Module} {args : BindArgs} (env : BindEnv)
    (unhanded : NotHanded args) :
    (bind s args env).2.code = some (-1) ↔ given args.port = none := by
  cases portGiven : given args.port with
  | none => simp [bind, portGiven]
  | some port =>
    have nothing := bind_unhanded (s := s) env unhanded
    simp only [bind, portGiven] at nothing ⊢
    generalize newCopy (cString port.bytes) = copy at nothing ⊢
    cases copy with
    | none => simp [bindCopies]
    | some buffer =>
      generalize copyGiven args.certName = cert at nothing ⊢
      cases cert with
      | none => simp [bindCopies]
      | some cert =>
        generalize copyGiven args.keyName = key at nothing ⊢
        cases key with
        | none => simp [bindCopies]
        | some key => simp [bindCopies, bindListener_handed] at nothing

/-! ## What the caller reads -/

/-- A text that is written over the front of a buffer is read back exactly when a `NUL` follows
it there. -/
theorem readCString_front {text buffer : Bytes} (plain : 0 ∉ text) :
    readCString (text ++ buffer.drop text.length) = some text ↔
      buffer[text.length]? = some 0 := by
  have front : (text ++ buffer.drop text.length).takeWhile (· != 0) =
      text ++ (buffer.drop text.length).takeWhile (· != 0) :=
    List.takeWhile_append_of_pos (ne_zero_of_plain plain)
  rw [← List.head?_drop, readCString, front]
  cases buffer.drop text.length with
  | nil => simp [plain]
  | cons byte rest =>
    by_cases terminated : byte = 0
    · simp [terminated]
    · simp [terminated]

/-- After any history of calls, a `Bind` that fails leaves the module as it was and the
description of the failure in the buffer of the caller, exactly when it does not fail in
`mg_bind_opt` and, without a port, the buffer has a `NUL` behind the text already. -/
theorem failedBind_iff (history : List Call) (args : BindArgs) (env : BindEnv)
    (buffer : MsgBuffer) :
    AllOrNothing (after history) args env buffer ↔
      (NotHanded args ∨ ¬Refused (usesTls (after history) args) env) ∧
        (given args.port = none →
          buffer.bytes[(ascii "parameters Invalid").length]? = some 0) := by
  have owned := owned_after history
  generalize after history = s at owned ⊢
  by_cases unhanded : NotHanded args
  · simp only [unhanded, true_or, true_and, AllOrNothing, bind_unhanded_code env unhanded]
    refine forall_congr' fun absent => ?_
    have text : failureText s args env = some (ascii "parameters Invalid") := by
      rw [failureText, bind_unhanded env unhanded]
    have written : buffer.after (bind s args env).2 = ascii "parameters Invalid" ++
        buffer.bytes.drop (ascii "parameters Invalid").length := by
      simp only [MsgBuffer.after, bind, absent]
    rw [bind_no_port s env absent, text, written]
    simp only [Option.some.injEq, exists_eq_left', implies_true, and_self, true_and]
    rw [readCString_front (by decide)]
    simp only [and_iff_right_iff_imp]
    exact fun _ => by decide
  · have portGiven : given args.port ≠ none := fun absent =>
      unhanded (.inl fun port present => by simp [absent] at present)
    simp only [unhanded, false_or, portGiven, false_implies, and_true]
    rcases bind_handed_cases (s := s) env unhanded with
      ⟨refused, overwritten⟩ | ⟨accepted, success⟩
    · refine iff_of_false (fun nothing => ?_) (not_not_intro refused)
      obtain ⟨⟨-, port, -⟩, -⟩ := nothing overwritten.code
      rw [overwritten.port] at port
      exact absurd (owned.port _ port.symm) (by omega)
    · refine iff_of_true (fun failed => ?_) accepted
      rw [success] at failed
      exact absurd failed (by decide)

/-- A buffer of zeros. -/
def zeroBuffer : MsgBuffer := ⟨List.replicate 64 0, by decide⟩

/-- A second `Bind`, whose socket cannot be opened: it returns -1, the listener of the first one
is no longer listed, the port is another copy, and the buffer holds the empty string. -/
theorem refusedBind_overwrites :
    ¬AllOrNothing (after [.bind httpArgs {}]) httpArgs { listens := false } zeroBuffer ∧
      (bind (after [.bind httpArgs {}]) httpArgs { listens := false }).2.code = some (-1) ∧
      (after [.bind httpArgs {}]).mgr.active = [0] ∧
      (bind (after [.bind httpArgs {}]) httpArgs { listens := false }).1.mgr.active = [] ∧
      readCString (zeroBuffer.after
        (bind (after [.bind httpArgs {}]) httpArgs { listens := false }).2) = some [] := by
  have code : (bind (after [.bind httpArgs {}]) httpArgs { listens := false }).2.code =
      some (-1) := by decide +kernel
  have listed : (after [.bind httpArgs {}]).mgr.active = [0] := by decide +kernel
  have lost : (bind (after [.bind httpArgs {}]) httpArgs { listens := false }).1.mgr.active =
      [] := by decide +kernel
  refine ⟨fun nothing => ?_, code, listed, lost, by decide +kernel⟩
  have same := (nothing code).1.1 0
  rw [listed, lost] at same
  exact absurd (same.mpr (by simp)) (by simp)

end CppCode.Interfaces
