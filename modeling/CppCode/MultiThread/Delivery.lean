import CppCode.MultiThread.Identity

/-!
# Delivery of results

What handling a broadcast appends to the connections. `mg_mgr_handle_ctl_sock` calls the
callback once for each connection of the manager and `on_work_complete` scans them all again,
so the connection that a result belongs to receives one response for every open connection,
and no other connection receives any. The first half is `handleCtl_delivers`, the second
`response_origin`; both rest on `mgMgrHandleCtlSock_eq`, which unrolls the two loops.
-/

namespace CppCode.MultiThread

open Library Mongoose

variable {capacity : Nat} {s next : Server} {action : Action} {actions : List Action}

/-- One HTTP response of `on_work_complete`: a head and its body. -/
def response (res : WorkResult) : Bytes :=
  blockOf (headLines [ascii "Content-Type: text/plain"] (responseText res).length) ++
    responseText res

/-- A number of responses in a row. -/
def responses (res : WorkResult) (count : Nat) : Bytes :=
  (List.replicate count (response res)).flatten

/-- Whether `on_work_complete` answers a connection. -/
def Connection.Matches (c : Connection) (res : WorkResult) : Prop :=
  c.userData ≠ 0 ∧ c.userData = res.connId

instance (c : Connection) (res : WorkResult) : Decidable (c.Matches res) :=
  inferInstanceAs (Decidable (_ ∧ _))

/-- The text of a result is not empty. -/
theorem responseText_ne_nil (res : WorkResult) : responseText res ≠ [] := by
  simp [responseText, decimal_ne_nil]

/-- A response is not empty. -/
theorem response_pos (res : WorkResult) : 0 < (response res).length := by
  simp only [response, List.length_append]
  have text := List.length_pos_iff.mpr (responseText_ne_nil res)
  omega

/-- The length of a number of responses. -/
theorem responses_length (res : WorkResult) (count : Nat) :
    (responses res count).length = count * (response res).length := by
  simp [responses]

/-- The two writes of `on_work_complete` append one response. -/
theorem respond_eq (c : Connection) (res : WorkResult) :
    respond c res = { c with sendMbuf := c.sendMbuf ++ response res } := by
  have header : ascii "Content-Type: text/plain" ++ crlf =
      [ascii "Content-Type: text/plain"].flatMap fun line => line ++ crlf := by simp
  simp only [respond, response]
  rw [mgSendHead_length_known c.sendMbuf _ _ _ header (by decide),
    mgPrintf_of_ne_nil (responseText_ne_nil res), List.append_assoc]

/-- One call of the callback answers every matching connection once. -/
theorem onWorkComplete_eq (active : List Connection) (res : WorkResult) :
    onWorkComplete active res =
      active.map fun c =>
        if c.Matches res then { c with sendMbuf := c.sendMbuf ++ response res } else c := by
  apply List.map_congr_left
  intro c _
  by_cases identified : c.userData ≠ 0
  · simp only [respond_eq, Connection.Matches, identified, true_and, ne_eq, not_false_eq_true,
      if_true]
  · simp only [Connection.Matches, identified, false_and, if_false]

/-- The loops of `mg_mgr_handle_ctl_sock` and `on_work_complete` together append as many
responses to a matching connection as there are connections. -/
theorem mgMgrHandleCtlSock_eq (active : List Connection) (res : WorkResult) :
    mgMgrHandleCtlSock active res =
      active.map fun c =>
        if c.Matches res then { c with sendMbuf := c.sendMbuf ++ responses res active.length }
        else c := by
  have loop : ∀ (calls current : List Connection),
      calls.foldl (fun current _ => onWorkComplete current res) current =
        current.map fun c =>
          if c.Matches res then { c with sendMbuf := c.sendMbuf ++ responses res calls.length }
          else c := by
    intro calls
    induction calls with
    | nil =>
      intro current
      symm
      apply List.map_id''
      intro c
      simp [responses]
    | cons call rest ih =>
      intro current
      rw [List.foldl_cons, ih, onWorkComplete_eq, List.map_map]
      apply List.map_congr_left
      intro c _
      by_cases matching : c.Matches res
      · have still : Connection.Matches { c with sendMbuf := c.sendMbuf ++ response res } res :=
          matching
        simp only [Function.comp_apply, if_pos matching, if_pos still, List.append_assoc]
        simp only [responses, List.length_cons, List.replicate_succ, List.flatten_cons]
      · simp only [Function.comp_apply, if_neg matching]
  exact loop active active

/-- A connection matches a result in the control socket exactly when the result was computed
from a request that it received. -/
theorem matches_iff (inv : Identified s) (bounded : s.accepts < 2 ^ 32) {msg : CtlMsg}
    (queued : msg ∈ s.ctl) {c : Connection} (member : c ∈ s.active) :
    c.Matches msg.result ↔ c.serial = msg.origin.serial := by
  have named := inv.written msg.origin (inv.flying _ (.inr (.inr ⟨msg, queued, rfl⟩)))
  have identity := inv.userData c member
  have carried := inv.results msg queued
  constructor
  · rintro ⟨-, same⟩
    exact serial_of_identity identity.1 named.1 identity.2 named.2.2 bounded
      (same.trans carried)
  · intro same
    have equal : c.userData = msg.result.connId := by
      rw [carried, ← UInt32.toNat_inj, identity.1, named.1, same]
    refine ⟨?_, equal⟩
    intro zero
    have vanishes : c.serial % 2 ^ 32 = 0 := by rw [← identity.1, zero]; rfl
    have accepted := named.2.1
    have counted := named.2.2
    omega

/-! ## How many responses -/

/-- Handling a message appends a number of responses to the connection that its request came
from. -/
def Delivers (s next : Server) (msg : CtlMsg) (count : Nat) : Prop :=
  ∃ c ∈ s.active, ∃ answered ∈ next.active,
    c.serial = msg.origin.serial ∧ answered.serial = msg.origin.serial ∧
      answered.sendMbuf = c.sendMbuf ++ responses msg.result count

/-- Listed connections with the same accept number are the same. -/
theorem Identified.unique (inv : Identified s) {c other : Connection} (member : c ∈ s.active)
    (listed : other ∈ s.active) (same : c.serial = other.serial) : c = other :=
  List.inj_on_of_nodup_map inv.distinct member listed same

section
variable {msg : CtlMsg} {rest : List CtlMsg}

/-- A connection that matches a handled result receives as many responses as there are open
connections. -/
theorem delivers_of_matches (queued : s.ctl = msg :: rest)
    (taken : step capacity s .handleCtl = some next) {c : Connection} (member : c ∈ s.active)
    (origin : c.serial = msg.origin.serial) (matching : c.Matches msg.result) :
    Delivers s next msg s.active.length := by
  cases step_sound taken with
  | handleCtl polling handled =>
    obtain ⟨rfl, -⟩ := List.cons.inj (queued.symm.trans handled)
    refine ⟨c, member, { c with sendMbuf := c.sendMbuf ++ responses msg.result s.active.length },
      ?_, origin, origin, rfl⟩
    change _ ∈ mgMgrHandleCtlSock s.active msg.result
    rw [mgMgrHandleCtlSock_eq]
    exact List.mem_map.mpr ⟨c, member, if_pos matching⟩

/-- The connection that a handled result belongs to receives as many responses as there are
open connections. -/
theorem delivers_active (inv : Identified s) (bounded : s.accepts < 2 ^ 32)
    (queued : s.ctl = msg :: rest) (taken : step capacity s .handleCtl = some next)
    (opened : ∃ c ∈ s.active, c.serial = msg.origin.serial) :
    Delivers s next msg s.active.length := by
  obtain ⟨c, member, origin⟩ := opened
  have first : msg ∈ s.ctl := queued ▸ List.mem_cons_self
  exact delivers_of_matches queued taken member origin
    ((matches_iff inv bounded first member).mpr origin)

/-- While broadcasts are handled, the listener is open next to the connection of a request. -/
theorem two_active (inv : Identified s) (queued : s.ctl = msg :: rest)
    (taken : step capacity s .handleCtl = some next)
    (opened : ∃ c ∈ s.active, c.serial = msg.origin.serial) : 2 ≤ s.active.length := by
  obtain ⟨c, member, origin⟩ := opened
  have first : msg ∈ s.ctl := queued ▸ List.mem_cons_self
  have named := inv.written msg.origin (inv.flying _ (.inr (.inr ⟨msg, first, rfl⟩)))
  have polling : s.stage.ctlOpen = true := by
    cases step_sound taken with
    | handleCtl polling handled => exact polling.1
  obtain ⟨listening, inside, zero⟩ := List.mem_map.mp (inv.listening polling)
  have different : listening ≠ c := by
    rintro rfl
    exact named.2.1 (origin.symm.trans zero)
  match shape : s.active with
  | [] => simp [shape] at inside
  | [only] =>
    rw [shape, List.mem_singleton] at inside member
    exact absurd (inside.trans member.symm) different
  | _ :: _ :: _ => simp

/-- A message is delivered in one number only. -/
theorem delivers_unique (inv : Identified s) (after : Identified next) {first second : Nat}
    (once : Delivers s next msg first) (again : Delivers s next msg second) :
    first = second := by
  obtain ⟨c, member, answered, inside, origin, answeredOrigin, appended⟩ := once
  obtain ⟨other, listed, reply, present, otherOrigin, replyOrigin, repeated⟩ := again
  obtain rfl := inv.unique member listed (origin.trans otherOrigin.symm)
  obtain rfl := after.unique inside present (answeredOrigin.trans replyOrigin.symm)
  have lengths := congrArg List.length (List.append_cancel_left (appended.symm.trans repeated))
  rw [responses_length, responses_length] at lengths
  exact Nat.eq_of_mul_eq_mul_right (response_pos msg.result) lengths

/-- When the connection of a handled result is open, it receives as many responses as there are
open connections, which are at least two with the listener, so it never receives exactly one. -/
theorem handleCtl_delivers (reached : Reaches capacity actions s) (bounded : s.accepts < 2 ^ 32)
    (queued : s.ctl = msg :: rest) (taken : step capacity s .handleCtl = some next)
    (opened : ∃ c ∈ s.active, c.serial = msg.origin.serial) :
    Delivers s next msg s.active.length ∧ 2 ≤ s.active.length ∧ ¬Delivers s next msg 1 := by
  have inv := identified_run reached
  have many := delivers_active inv bounded queued taken opened
  have several := two_active inv queued taken opened
  refine ⟨many, several, fun once => ?_⟩
  have single := delivers_unique inv (identified_step inv taken) many once
  omega

end

/-- One client connects and asks once; a worker sleeps for three seconds and answers. -/
def oneClient : List Action :=
  [.accept, .request 1 getRequest, .write, .test 0, .read 0, .sleep 0 3, .broadcast 0, .sendCtl 0]

/-- The state after `oneClient`. -/
def oneClientState : Server := (run (step 1) start oneClient).getD start

/-- The broadcast that is pending after `oneClient`. -/
def oneClientMsg : CtlMsg := ⟨0, ⟨1, 0, ⟨1, getRequest⟩⟩, ⟨1, 3⟩⟩

/-- The single client of `oneClient` is still open and receives two responses. -/
theorem oneClient_twice : ∃ next,
    Reaches 1 oneClient oneClientState ∧ oneClientState.accepts < 2 ^ 32 ∧
      oneClientState.ctl = [oneClientMsg] ∧ step 1 oneClientState .handleCtl = some next ∧
      (∃ c ∈ oneClientState.active, c.serial = oneClientMsg.origin.serial) ∧
      Delivers oneClientState next oneClientMsg 2 ∧
      ¬Delivers oneClientState next oneClientMsg 1 := by
  have reached : Reaches 1 oneClient oneClientState := rfl
  have listed : oneClientState.active = [⟨1, 1, []⟩, listener] := rfl
  have queued : oneClientState.ctl = [oneClientMsg] := rfl
  have opened : ∃ c ∈ oneClientState.active, c.serial = oneClientMsg.origin.serial :=
    ⟨⟨1, 1, []⟩, by simp [listed], rfl⟩
  have inv := identified_run reached
  obtain ⟨next, taken⟩ : ∃ next, step 1 oneClientState .handleCtl = some next := ⟨_, rfl⟩
  have twice : Delivers oneClientState next oneClientMsg 2 :=
    delivers_active inv (by decide) queued taken opened
  refine ⟨next, reached, by decide, queued, taken, opened, twice, fun once => ?_⟩
  have single := delivers_unique inv (identified_step inv taken) twice once
  contradiction

/-- The hypotheses of `handleCtl_delivers` hold of `oneClient`. -/
theorem oneClient_delivers : ∃ next, Delivers oneClientState next oneClientMsg 2 := by
  obtain ⟨next, taken⟩ : ∃ next, step 1 oneClientState .handleCtl = some next := ⟨_, rfl⟩
  exact ⟨next, (handleCtl_delivers (rfl : Reaches 1 oneClient oneClientState) (by decide)
    (rfl : oneClientState.ctl = [oneClientMsg]) taken ⟨⟨1, 1, []⟩, List.mem_cons_self, rfl⟩).1⟩

/-! ## Whose responses -/

/-- The bytes for a connection change only in the handling of a broadcast that it matches. -/
theorem sendMbuf_step (inv : Identified s) (taken : step capacity s action = some next)
    {c after : Connection} (member : c ∈ s.active) (present : after ∈ next.active)
    (same : after.serial = c.serial) (appended : after.sendMbuf ≠ c.sendMbuf) :
    action = .handleCtl ∧ ∃ msg rest, s.ctl = msg :: rest ∧ c.Matches msg.result := by
  have distinct := (identified_step inv taken).distinct
  cases touched : action.touchesConnections with
  | false =>
    rw [active_of_untouched taken touched] at present
    obtain rfl := inv.unique present member same
    contradiction
  | true =>
    cases step_sound taken with
    | accept =>
      rcases List.mem_cons.mp present with rfl | old
      · have counted := (inv.userData c member).2
        dsimp only at same
        omega
      · obtain rfl := inv.unique old member same
        contradiction
    | close may found =>
      rw [(closeConn_frame ..).1] at present
      obtain rfl := inv.unique (List.mem_of_mem_filter present) member same
      contradiction
    | @handleCtl msg rest polling queued =>
      refine ⟨rfl, msg, rest, queued, ?_⟩
      change after ∈ mgMgrHandleCtlSock s.active msg.result at present
      rw [mgMgrHandleCtlSock_eq] at present
      obtain ⟨old, inside, rfl⟩ := List.mem_map.mp present
      split at same
      · rename_i matching
        obtain rfl := inv.unique inside member same
        exact matching
      · rename_i missing
        obtain rfl := inv.unique inside member same
        exact absurd (by rw [if_neg missing]) appended
    | _ => contradiction

/-- A connection that a step adds has nothing scheduled for sending. -/
theorem sendMbuf_new (taken : step capacity s action = some next) {c : Connection}
    (present : c ∈ next.active) (new : ∀ old ∈ s.active, old.serial ≠ c.serial) :
    c.sendMbuf = [] := by
  cases touched : action.touchesConnections with
  | false =>
    rw [active_of_untouched taken touched] at present
    exact absurd rfl (new c present)
  | true =>
    cases step_sound taken with
    | accept =>
      rcases List.mem_cons.mp present with rfl | old
      · rfl
      · exact absurd rfl (new c old)
    | close may found =>
      rw [(closeConn_frame ..).1] at present
      exact absurd rfl (new c (List.mem_of_mem_filter present))
    | @handleCtl msg rest polling queued =>
      change c ∈ mgMgrHandleCtlSock s.active msg.result at present
      rw [mgMgrHandleCtlSock_eq] at present
      obtain ⟨old, inside, rfl⟩ := List.mem_map.mp present
      exact absurd (by split <;> rfl) (new old inside)
    | _ => contradiction

/-- A result whose connection is closed is appended to no connection. -/
theorem handleCtl_closed (inv : Identified s) (bounded : s.accepts < 2 ^ 32) {msg : CtlMsg}
    {rest : List CtlMsg} (queued : s.ctl = msg :: rest)
    (taken : step capacity s .handleCtl = some next)
    (closed : ∀ c ∈ s.active, c.serial ≠ msg.origin.serial) : next.active = s.active := by
  have first : msg ∈ s.ctl := queued ▸ List.mem_cons_self
  cases step_sound taken with
  | handleCtl polling handled =>
    obtain ⟨rfl, -⟩ := List.cons.inj (queued.symm.trans handled)
    change mgMgrHandleCtlSock s.active msg.result = s.active
    rw [mgMgrHandleCtlSock_eq]
    calc
      _ = s.active.map id := by
        apply List.map_congr_left
        intro c member
        exact if_neg fun matching =>
          closed c member ((matches_iff inv bounded first member).mp matching)
      _ = s.active := List.map_id _

/-- Responses go to the connection that the request came from. In any step of any run, bytes
are appended to a connection only when a broadcast is handled; its result was computed by a
worker from a record that `ev_handler` wrote for a request received on that very connection,
which is not the listener. A result whose connection has closed changes no connection, and a
new connection starts with nothing to send. -/
theorem response_origin (reached : Reaches capacity actions s) (bounded : s.accepts < 2 ^ 32)
    (taken : step capacity s action = some next) :
    (∀ c ∈ s.active, ∀ after ∈ next.active, after.serial = c.serial →
      after.sendMbuf ≠ c.sendMbuf →
        action = .handleCtl ∧ c.serial ≠ 0 ∧ ∃ msg rest, s.ctl = msg :: rest ∧
          msg.origin.serial = c.serial ∧ msg.origin ∈ s.written ∧
          Received capacity actions msg.origin ∧ Computed capacity actions msg) ∧
      (∀ msg rest, action = .handleCtl → s.ctl = msg :: rest →
        (∀ c ∈ s.active, c.serial ≠ msg.origin.serial) → next.active = s.active) ∧
      ∀ c ∈ next.active, (∀ old ∈ s.active, old.serial ≠ c.serial) → c.sendMbuf = [] := by
  have inv := identified_run reached
  refine ⟨?_, ?_, fun c => sendMbuf_new taken⟩
  · intro c member after present same appended
    obtain ⟨handled, msg, rest, queued, matching⟩ := sendMbuf_step inv taken member present same
      appended
    have first : msg ∈ s.ctl := queued ▸ List.mem_cons_self
    have origin := (matches_iff inv bounded first member).mp matching
    have written := inv.flying msg.origin (.inr (.inr ⟨msg, first, rfl⟩))
    refine ⟨handled, ?_, msg, rest, queued, origin.symm, written,
      received_run reached msg.origin written, computed_run reached msg first⟩
    rw [origin]
    exact (inv.written msg.origin written).2.1
  · rintro msg rest rfl queued closed
    exact handleCtl_closed inv bounded queued taken closed

/-- The hypotheses of `response_origin` hold of `oneClient`, whose client is answered. -/
theorem oneClient_origin : ∃ next, step 1 oneClientState .handleCtl = some next ∧
    Received 1 oneClient oneClientMsg.origin ∧ Computed 1 oneClient oneClientMsg := by
  have reached : Reaches 1 oneClient oneClientState := rfl
  have queued : oneClientState.ctl = [oneClientMsg] := rfl
  obtain ⟨next, taken⟩ : ∃ next, step 1 oneClientState .handleCtl = some next := ⟨_, rfl⟩
  obtain ⟨c, member, after, present, origin, answered, appended⟩ :=
    delivers_active (identified_run reached) (by decide) queued taken
      ⟨⟨1, 1, []⟩, List.mem_cons_self, rfl⟩
  have changed : after.sendMbuf ≠ c.sendMbuf := by
    rw [appended]
    intro same
    have lengths := congrArg List.length same
    have positive := response_pos oneClientMsg.result
    have two : oneClientState.active.length = 2 := rfl
    rw [List.length_append, responses_length, two] at lengths
    omega
  obtain ⟨-, -, msg, rest, handled, -, -, received, computed⟩ :=
    (response_origin reached (by decide) taken).1 c member after present
      (answered.trans origin.symm) changed
  obtain ⟨rfl, -⟩ := List.cons.inj (queued.symm.trans handled)
  exact ⟨next, taken, received, computed⟩

end CppCode.MultiThread
