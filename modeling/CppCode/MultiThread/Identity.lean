import CppCode.MultiThread.Steps

/-!
# Identities of connections

The server numbers its connections with `s_next_id` and stores the number in `user_data`, from
where it travels through the request record, the worker and the broadcast back to
`on_work_complete`. `Identified` ties every copy of a number to the accept it came from, modulo
the width of `unsigned long`; a run of fewer accepts than that keeps the numbers of different
connections apart. `Received` and `Computed` are the other end of the chain: the moments of the
run at which a written record was handed to `ev_handler`, and at which a worker computed a
result from it.
-/

namespace CppCode.MultiThread

open Library Mongoose

variable {capacity : Nat} {s next : Server} {action : Action} {actions : List Action}

/-- The identity in a record is that of an accepted connection. -/
def Dispatch.Named (dispatch : Dispatch) (accepts : Nat) : Prop :=
  dispatch.request.connId.toNat = dispatch.serial % 2 ^ 32 ∧
    dispatch.serial ≠ 0 ∧ dispatch.serial ≤ accepts

/-- Every copy of an identity is the number of an accept, modulo `2 ^ 32`. -/
structure Identified (s : Server) : Prop where
  /-- `s_next_id` counts the accepts. -/
  counter : s.nextId.toNat = s.accepts % 2 ^ 32
  /-- `user_data` holds the number of the accept. -/
  userData : ∀ c ∈ s.active, c.userData.toNat = c.serial % 2 ^ 32 ∧ c.serial ≤ s.accepts
  /-- No connection is listed twice. -/
  distinct : (s.active.map Connection.serial).Nodup
  /-- The listener is open until `mg_mgr_free` closes it. -/
  listening : s.stage.ctlOpen = true → 0 ∈ s.active.map Connection.serial
  /-- The record being sent names its connection. -/
  sending : ∀ dispatch, s.sending = some dispatch → dispatch.Named s.accepts
  /-- Written records name their connections. -/
  written : ∀ dispatch ∈ s.written, dispatch.Named s.accepts
  /-- Only written records are on their way. -/
  flying : ∀ dispatch, s.InFlight dispatch → dispatch ∈ s.written
  /-- A result carries the identity of the record it was computed from. -/
  results : ∀ msg ∈ s.ctl, msg.result.connId = msg.origin.request.connId

/-- A named record stays named when more connections are accepted. -/
theorem Dispatch.Named.mono {dispatch : Dispatch} {few many : Nat} (named : dispatch.Named few)
    (grown : few ≤ many) : dispatch.Named many :=
  ⟨named.1, named.2.1, le_trans named.2.2 grown⟩

/-- Counting in `unsigned long`. -/
theorem nextId_toNat {id : UInt32} {count : Nat} (counted : id.toNat = count % 2 ^ 32) :
    (id + 1).toNat = (count + 1) % 2 ^ 32 := by
  rw [UInt32.toNat_add, counted]
  change (count % 2 ^ 32 + 1) % 2 ^ 32 = (count + 1) % 2 ^ 32
  omega

/-- The server starts with the listener alone. -/
theorem identified_start : Identified start where
  counter := rfl
  userData := by simp [start, listener]
  distinct := by simp [start]
  listening := by simp [start, listener]
  sending := by simp [start]
  written := by simp [start]
  flying := by
    rintro dispatch (queued | ⟨i, held⟩ | ⟨msg, inside, -⟩)
    · contradiction
    · contradiction
    · contradiction
  results := by simp [start]

/-! ## One step -/

/-- A new connection gets the next identity. -/
theorem identified_accept (inv : Identified s) : Identified (acceptConn s) where
  counter := nextId_toNat inv.counter
  userData := by
    intro c member
    rcases List.mem_cons.mp member with rfl | old
    · exact ⟨nextId_toNat inv.counter, le_refl _⟩
    · exact ⟨(inv.userData c old).1, Nat.le_succ_of_le (inv.userData c old).2⟩
  distinct := by
    simp only [acceptConn, List.map_cons, List.nodup_cons]
    refine ⟨?_, inv.distinct⟩
    intro repeated
    obtain ⟨c, member, same⟩ := List.mem_map.mp repeated
    have bound := (inv.userData c member).2
    omega
  listening opened := List.mem_cons_of_mem _ (inv.listening opened)
  sending dispatch sends := (inv.sending dispatch sends).mono (Nat.le_succ _)
  written dispatch member := (inv.written dispatch member).mono (Nat.le_succ _)
  flying := inv.flying
  results := inv.results

/-- A request record carries the identity of the connection that received it. -/
theorem identified_request (inv : Identified s) {c : Connection} (message : HttpMessage)
    (named : c.userData.toNat = c.serial % 2 ^ 32 ∧ c.serial ≤ s.accepts)
    (accepted : c.serial ≠ 0) : Identified (evHandlerRequest s c message) where
  counter := inv.counter
  userData := inv.userData
  distinct := inv.distinct
  listening := inv.listening
  sending := by
    intro dispatch sends
    obtain rfl := Option.some.inj sends
    exact ⟨named.1, accepted, named.2⟩
  written := inv.written
  flying := inv.flying
  results := inv.results

/-- Removing a connection other than the listener keeps the identities of the rest. -/
theorem identified_remove (inv : Identified s) {serial : Nat}
    (kept : serial ≠ 0 ∨ s.stage.ctlOpen = false) :
    Identified { s with active := s.active.filter fun other => other.serial ≠ serial } where
  counter := inv.counter
  userData c member := inv.userData c (List.mem_of_mem_filter member)
  distinct := inv.distinct.sublist (List.filter_sublist.map _)
  listening := by
    intro opened
    obtain ⟨c, member, zero⟩ := List.mem_map.mp (inv.listening opened)
    refine List.mem_map.mpr ⟨c, List.mem_filter.mpr ⟨member, ?_⟩, zero⟩
    rcases kept with accepted | closed
    · simpa [zero] using Ne.symm accepted
    · rw [closed] at opened
      contradiction
  sending := inv.sending
  written := inv.written
  flying := inv.flying
  results := inv.results

/-- Closing a connection keeps the identities, whether or not a request was left in it. -/
theorem identified_close (inv : Identified s) {serial : Nat} {leftover : Option HttpMessage}
    {c : Connection} (may : s.MayClose serial leftover) (found : s.find? serial = some c) :
    Identified (closeConn s c leftover) := by
  obtain ⟨member, rfl⟩ := find?_spec found
  have kept : c.serial ≠ 0 ∨ s.stage.ctlOpen = false := by
    rcases may with ⟨-, accepted⟩ | ⟨stage, -⟩
    · exact .inl accepted
    · right
      rw [stage]
      rfl
  cases leftover with
  | none => exact identified_remove inv kept
  | some message =>
    apply identified_request (identified_remove inv kept) message (inv.userData c member)
    rcases may with ⟨-, accepted⟩ | ⟨-, -, -, empty⟩
    · exact accepted
    · intro zero
      exact absurd (empty zero) (by simp)

/-- Writing a record keeps its name. -/
theorem identified_write (inv : Identified s) {dispatch : Dispatch}
    (sends : s.sending = some dispatch) (flying : ∀ other,
      Server.InFlight { s with
        sending := none
        channel := s.channel ++ [dispatch]
        written := s.written ++ [dispatch] } other → s.InFlight other ∨ other = dispatch) :
    Identified { s with
      sending := none
      channel := s.channel ++ [dispatch]
      written := s.written ++ [dispatch] } where
  counter := inv.counter
  userData := inv.userData
  distinct := inv.distinct
  listening := inv.listening
  sending := by simp
  written := by
    intro other member
    rcases List.mem_append.mp member with old | new
    · exact inv.written other old
    · obtain rfl := List.mem_singleton.mp new
      exact inv.sending other sends
  flying := by
    intro other carried
    rcases flying other carried with old | rfl
    · exact List.mem_append_left _ (inv.flying other old)
    · exact List.mem_append_right _ List.mem_cons_self
  results := inv.results

/-- Answering a result keeps the identities of the connections. -/
theorem identified_handleCtl (inv : Identified s) {msg : CtlMsg} {rest : List CtlMsg}
    (queued : s.ctl = msg :: rest) (flying : ∀ dispatch,
      Server.InFlight { s.setWorker msg.worker .top with
        ctl := rest
        active := mgMgrHandleCtlSock s.active msg.result } dispatch → dispatch ∈ s.written) :
    Identified { s.setWorker msg.worker .top with
      ctl := rest
      active := mgMgrHandleCtlSock s.active msg.result } := by
  have identity := mgMgrHandleCtlSock_identity s.active msg.result
  have serials : (mgMgrHandleCtlSock s.active msg.result).map Connection.serial =
      s.active.map Connection.serial := by
    simpa only [List.map_map, Function.comp_def] using congrArg (List.map Prod.fst) identity
  constructor
  case userData =>
    intro c member
    have listed : (c.serial, c.userData) ∈ s.active.map fun c => (c.serial, c.userData) := by
      rw [← identity]
      exact List.mem_map.mpr ⟨c, member, rfl⟩
    obtain ⟨old, inside, same⟩ := List.mem_map.mp listed
    obtain ⟨serial, userData⟩ := Prod.mk.inj same
    rw [← serial, ← userData]
    exact inv.userData old inside
  case distinct => exact serials ▸ inv.distinct
  case listening => exact fun opened => serials ▸ inv.listening opened
  case results =>
    intro other member
    exact inv.results other (queued ▸ List.mem_cons_of_mem msg member)
  case flying => exact flying
  case counter => exact inv.counter
  case sending => exact inv.sending
  case written => exact inv.written

/-- The result of a record carries its identity. -/
theorem identified_sendCtl (inv : Identified s) {i : Fin numWorkerThreads} {record : Dispatch}
    {seconds : Nat} (flying : ∀ dispatch,
      (mgSendFunc s i record seconds).InFlight dispatch → dispatch ∈ s.written) :
    Identified (mgSendFunc s i record seconds) where
  counter := inv.counter
  userData := inv.userData
  distinct := inv.distinct
  listening := inv.listening
  sending := inv.sending
  written := inv.written
  flying := flying
  results := by
    intro msg member
    rcases mem_ctl_mgSendFunc member with old | rfl
    · exact inv.results msg old
    · rfl

/-- Every step keeps the identities. -/
theorem identified_step (inv : Identified s) (taken : step capacity s action = some next) :
    Identified next := by
  have carried : ∀ dispatch, next.InFlight dispatch →
      s.InFlight dispatch ∨ (action = .write ∧ s.sending = some dispatch) :=
    fun dispatch => inFlight_step taken
  -- only the write puts a record on its way
  have flying : action ≠ .write → ∀ dispatch, next.InFlight dispatch → dispatch ∈ s.written := by
    intro other dispatch flies
    rcases carried dispatch flies with old | ⟨write, -⟩
    · exact inv.flying dispatch old
    · exact absurd write other
  cases step_sound taken with
  | accept => exact identified_accept inv
  | request polling accepted found =>
    obtain ⟨member, rfl⟩ := find?_spec found
    exact identified_request inv _ (inv.userData _ member) accepted
  | write sends =>
    apply identified_write inv sends
    intro other flies
    rcases carried other flies with old | ⟨-, same⟩
    · exact .inl old
    · exact .inr (Option.some.inj (same.symm.trans sends))
  | close may found => exact identified_close inv may found
  | handleCtl polling queued => exact identified_handleCtl inv queued (flying (by simp))
  | sendCtl calling => exact identified_sendCtl inv (flying (by simp))
  | advance may =>
    constructor
    case listening => exact fun later => inv.listening (s.stage.ctlOpen_of_next later)
    case results =>
      intro msg member
      dsimp only at member
      split at member
      · exact inv.results msg member
      · contradiction
    case flying => exact flying (by simp)
    case counter => exact inv.counter
    case userData => exact inv.userData
    case distinct => exact inv.distinct
    case sending => exact inv.sending
    case written => exact inv.written
  | signal | test | read | readFail | sleep | broadcast | unblock =>
    exact ⟨inv.counter, inv.userData, inv.distinct, inv.listening, inv.sending, inv.written,
      flying (by simp), inv.results⟩

/-- Identities are in order after every run. -/
theorem identified_run (reached : Reaches capacity actions s) : Identified s :=
  run_invariant (fun _ _ _ => identified_step) identified_start reached

/-- Two identities of fewer than `2 ^ 32` accepts are equal only for the same accept. -/
theorem serial_of_identity {left right : UInt32} {first second bound : Nat}
    (leftId : left.toNat = first % 2 ^ 32) (rightId : right.toNat = second % 2 ^ 32)
    (firstBound : first ≤ bound) (secondBound : second ≤ bound) (bounded : bound < 2 ^ 32)
    (same : left = right) : first = second := by
  rw [same, rightId] at leftId
  omega

/-! ## Where a record comes from -/

/-- The run hands this record to `ev_handler`, as a request or as the last request of a closing
connection, when the connection of that number is listed. -/
def Received (capacity : Nat) (actions : List Action) (dispatch : Dispatch) : Prop :=
  ∃ before action after middle,
    actions = before ++ action :: after ∧ Reaches capacity before middle ∧
      (action = .request dispatch.serial dispatch.request.message ∨
        action = .close dispatch.serial (some dispatch.request.message)) ∧
      (∃ c ∈ middle.active, c.serial = dispatch.serial) ∧
      middle.dispatched = dispatch.number

/-- A record that was received is still received when the run goes on. -/
theorem Received.append {dispatch : Dispatch} (received : Received capacity actions dispatch)
    (action : Action) : Received capacity (actions ++ [action]) dispatch := by
  obtain ⟨before, taken, after, middle, rfl, reached, handed⟩ := received
  exact ⟨before, taken, after ++ [action], middle, by simp, reached, handed⟩

/-- A step writes only the record being sent, and starts sending only what it receives. -/
theorem sending_step (reached : Reaches capacity actions s)
    (taken : step capacity s action = some next) :
    (∀ dispatch ∈ next.written, dispatch ∈ s.written ∨ s.sending = some dispatch) ∧
      ∀ dispatch, next.sending = some dispatch →
        s.sending = some dispatch ∨ Received capacity (actions ++ [action]) dispatch := by
  cases step_sound taken with
  | @request serial message c polling accepted found =>
    obtain ⟨member, rfl⟩ := find?_spec found
    refine ⟨fun dispatch => .inl, fun dispatch sends => .inr ?_⟩
    obtain rfl := Option.some.inj sends
    exact ⟨actions, _, [], s, rfl, reached, .inl rfl, ⟨c, member, rfl⟩, rfl⟩
  | @close serial leftover c may found =>
    obtain ⟨member, rfl⟩ := find?_spec found
    cases leftover with
    | none => exact ⟨fun dispatch => .inl, fun dispatch => .inl⟩
    | some message =>
      refine ⟨fun dispatch => .inl, fun dispatch sends => .inr ?_⟩
      obtain rfl := Option.some.inj sends
      exact ⟨actions, _, [], s, rfl, reached, .inr rfl, ⟨c, member, rfl⟩, rfl⟩
  | @write record sends =>
    refine ⟨fun dispatch member => ?_, fun dispatch sent => by contradiction⟩
    rcases List.mem_append.mp member with old | new
    · exact .inl old
    · exact .inr (by rw [sends, List.mem_singleton.mp new])
  | _ => exact ⟨fun dispatch => .inl, fun dispatch => .inl⟩

/-- Every record that `ev_handler` has written was received on the connection it names. -/
theorem received_run (reached : Reaches capacity actions s) :
    ∀ dispatch ∈ s.written, Received capacity actions dispatch := by
  let traced : List Action → Server → Prop := fun before state =>
    ∀ dispatch, dispatch ∈ state.written ∨ state.sending = some dispatch →
      Received capacity before dispatch
  have all : traced actions s := by
    refine @run_invariant_history _ _ _ _ traced ?_ (by simp [traced, start]) _ _ reached
    intro before state taken after earlier history stepped dispatch present
    obtain ⟨written, sending⟩ := sending_step earlier stepped
    rcases present with member | sends
    · exact (history dispatch (written dispatch member)).append taken
    · rcases sending dispatch sends with old | new
      · exact (history dispatch (.inr old)).append taken
      · exact new
  exact fun dispatch member => all dispatch (.inl member)

/-- In the run, a worker that holds the record of the message wakes up and broadcasts it. -/
def Computed (capacity : Nat) (actions : List Action) (msg : CtlMsg) : Prop :=
  ∃ before after middle,
    actions = before ++ Action.broadcast msg.worker :: after ∧ Reaches capacity before middle ∧
      middle.workers msg.worker = .sleeping msg.origin msg.result.sleepTime ∧
      msg.origin ∈ middle.written

/-- What was computed is still computed when the run goes on. -/
theorem Computed.append {msg : CtlMsg} (computed : Computed capacity actions msg)
    (action : Action) : Computed capacity (actions ++ [action]) msg := by
  obtain ⟨before, after, middle, rfl, held⟩ := computed
  exact ⟨before, after ++ [action], middle, by simp, held⟩

/-- The message that a worker in `mg_broadcast` is about to send. -/
def CtlMsg.IsDue (msg : CtlMsg) (s : Server) : Prop :=
  s.workers msg.worker = .calling msg.origin msg.result.sleepTime

/-- Moving a worker to a place before or after its send makes no message due. -/
theorem isDue_setWorker {i : Fin numWorkerThreads} {worker : Worker} {msg : CtlMsg}
    (elsewhere : ∀ record seconds, worker ≠ .calling record seconds)
    (due : msg.IsDue (s.setWorker i worker)) : msg.IsDue s := by
  unfold CtlMsg.IsDue at due
  by_cases own : msg.worker = i
  · rw [own, setWorker_self] at due
    exact absurd due (elsewhere _ _)
  · rwa [setWorker_of_ne worker own] at due

/-- A message becomes due in a step in which its worker computes it. -/
theorem isDue_step (reached : Reaches capacity actions s)
    (taken : step capacity s action = some next) {msg : CtlMsg} (due : msg.IsDue next) :
    msg.IsDue s ∨ Computed capacity (actions ++ [action]) msg := by
  cases step_sound taken with
  | @broadcast i record seconds sleeping =>
    change msg.IsDue (s.setWorker i _) at due
    by_cases own : msg.worker = i
    · obtain ⟨worker, origin, result⟩ := msg
      subst own
      right
      rw [CtlMsg.IsDue, setWorker_self] at due
      split at due
      · obtain ⟨rfl, rfl⟩ := Worker.calling.inj due
        have flying : s.InFlight record := .inr (.inl ⟨worker, by rw [sleeping]; rfl⟩)
        exact ⟨actions, [], s, rfl, reached, sleeping,
          (identified_run reached).flying record flying⟩
      · contradiction
    · left
      rwa [CtlMsg.IsDue, setWorker_of_ne _ own] at due
  | test | sendCtl => exact .inl (isDue_setWorker (by intros; split <;> simp) due)
  | handleCtl | read | readFail | sleep | unblock => exact .inl (isDue_setWorker (by simp) due)
  | close =>
    obtain ⟨-, -, -, -, -, workers, -⟩ := @closeConn_frame s ..
    left
    rwa [CtlMsg.IsDue, workers] at due
  | _ => exact .inl due

/-- A step adds to the control socket only a message that is due. -/
theorem ctl_step (taken : step capacity s action = some next) {msg : CtlMsg}
    (member : msg ∈ next.ctl) : msg ∈ s.ctl ∨ msg.IsDue s := by
  cases step_sound taken with
  | @handleCtl head rest polling queued =>
    exact .inl (queued ▸ List.mem_cons_of_mem head member)
  | advance =>
    dsimp only at member
    split at member
    · exact .inl member
    · contradiction
  | close =>
    obtain ⟨-, -, -, -, -, -, ctl, -⟩ := @closeConn_frame s ..
    exact .inl (ctl ▸ member)
  | sendCtl calling =>
    rcases mem_ctl_mgSendFunc member with old | rfl
    · exact .inl old
    · exact .inr calling
  | _ => exact .inl member

/-- Every message in the control socket was computed by its worker. -/
theorem computed_run (reached : Reaches capacity actions s) :
    ∀ msg ∈ s.ctl, Computed capacity actions msg := by
  let traced : List Action → Server → Prop := fun before state =>
    ∀ msg, msg ∈ state.ctl ∨ CtlMsg.IsDue msg state → Computed capacity before msg
  have all : traced actions s := by
    refine @run_invariant_history _ _ _ _ traced ?_ ?_ _ _ reached
    · intro before state taken after earlier history stepped msg present
      rcases present with member | due
      · exact (history msg (ctl_step stepped member)).append taken
      · rcases isDue_step earlier stepped due with old | new
        · exact (history msg (.inr old)).append taken
        · exact new
    · rintro msg (member | due)
      · simp [start] at member
      · simp [CtlMsg.IsDue, start] at due
  exact fun msg member => all msg (.inl member)

end CppCode.MultiThread
