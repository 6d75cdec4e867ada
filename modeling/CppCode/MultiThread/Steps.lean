import CppCode.MultiThread.Model

/-!
# What a step can do

`Step` lists the effect of every action with its guard, and `step_sound` says that the
executable step function does nothing else, so an invariant is proved by one case for each
action and never by unfolding `step`. The lemmas after it answer the questions that several
invariants ask of all the actions at once: which connections exist after a step, and which
records are on their way.
-/

namespace CppCode.MultiThread

open Library Mongoose

variable {capacity : Nat} {s next : Server} {action : Action}

/-- Whether an action is a step of a worker. -/
def Action.ofWorker : Action → Bool
  | .test _ | .read _ | .readFail _ | .sleep _ _ | .broadcast _ | .sendCtl _ | .unblock _ => true
  | _ => false

/-- The effect of each action, with its guard. -/
inductive Step (capacity : Nat) (s : Server) : Action → Server → Prop
  | accept (polling : s.Polling) : Step capacity s .accept (acceptConn s)
  | request {serial : Nat} {message : HttpMessage} {c : Connection} (polling : s.Polling)
      (accepted : serial ≠ 0) (found : s.find? serial = some c) :
      Step capacity s (.request serial message) (evHandlerRequest s c message)
  | write {dispatch : Dispatch} (sending : s.sending = some dispatch)
      (room : s.channel.length < capacity) :
      Step capacity s .write { s with
        sending := none
        channel := s.channel ++ [dispatch]
        written := s.written ++ [dispatch] }
  | close {serial : Nat} {leftover : Option HttpMessage} {c : Connection}
      (may : s.MayClose serial leftover) (found : s.find? serial = some c) :
      Step capacity s (.close serial leftover) (closeConn s c leftover)
  | handleCtl {msg : CtlMsg} {rest : List CtlMsg} (polling : s.Polling)
      (queued : s.ctl = msg :: rest) :
      Step capacity s .handleCtl { s.setWorker msg.worker .top with
        ctl := rest
        active := mgMgrHandleCtlSock s.active msg.result }
  | signal : Step capacity s .signal { s with signalled := true }
  | advance (may : s.MayAdvance) : Step capacity s .advance { s with
      stage := s.stage.next
      ctl := if s.stage.next.ctlOpen then s.ctl else [] }
  | test {i : Fin numWorkerThreads} (top : s.workers i = .top) :
      Step capacity s (.test i) (s.setWorker i (if s.signalled then .exited else .reading))
  | read {i : Fin numWorkerThreads} {dispatch : Dispatch} {rest : List Dispatch}
      (reading : s.workers i = .reading) (queued : s.channel = dispatch :: rest)
      (opened : s.stage.readsRecords = true) :
      Step capacity s (.read i) { s.setWorker i (.holding dispatch) with channel := rest }
  | readFail {i : Fin numWorkerThreads} (reading : s.workers i = .reading)
      (fails : s.stage.readsFail = true) :
      Step capacity s (.readFail i) (s.setWorker i .faulted)
  | sleep {i : Fin numWorkerThreads} {dispatch : Dispatch} {seconds : Nat}
      (holding : s.workers i = .holding dispatch) (short : seconds < 10) :
      Step capacity s (.sleep i seconds) (s.setWorker i (.sleeping dispatch seconds))
  | broadcast {i : Fin numWorkerThreads} {dispatch : Dispatch} {seconds : Nat}
      (sleeping : s.workers i = .sleeping dispatch seconds) :
      Step capacity s (.broadcast i) (mgBroadcast s i dispatch seconds)
  | sendCtl {i : Fin numWorkerThreads} {dispatch : Dispatch} {seconds : Nat}
      (calling : s.workers i = .calling dispatch seconds) :
      Step capacity s (.sendCtl i) (mgSendFunc s i dispatch seconds)
  | unblock {i : Fin numWorkerThreads} {dispatch : Dispatch} {seconds : Nat}
      (broadcasting : s.workers i = .broadcasting dispatch seconds)
      (closed : s.stage.ctlOpen = false) :
      Step capacity s (.unblock i) (s.setWorker i .top)

/-- The step function only takes the listed steps. -/
theorem step_sound (taken : step capacity s action = some next) :
    Step capacity s action next := by
  cases action with
  | accept =>
    simp only [step, Option.ite_none_right_eq_some, Option.some.injEq] at taken
    obtain ⟨polling, rfl⟩ := taken
    exact .accept polling
  | request serial message =>
    simp only [step, Option.ite_none_right_eq_some, Option.map_eq_some_iff] at taken
    obtain ⟨⟨polling, accepted⟩, c, found, rfl⟩ := taken
    exact .request polling accepted found
  | write =>
    simp only [step] at taken
    split at taken
    · contradiction
    · rename_i dispatch sending
      simp only [Option.ite_none_right_eq_some, Option.some.injEq] at taken
      obtain ⟨room, rfl⟩ := taken
      exact .write sending room
  | close serial leftover =>
    simp only [step, Option.ite_none_right_eq_some, Option.map_eq_some_iff] at taken
    obtain ⟨may, c, found, rfl⟩ := taken
    exact .close may found
  | handleCtl =>
    simp only [step] at taken
    split at taken
    · contradiction
    · rename_i msg rest queued
      simp only [Option.ite_none_right_eq_some, Option.some.injEq] at taken
      obtain ⟨polling, rfl⟩ := taken
      exact .handleCtl polling queued
  | signal =>
    obtain rfl := Option.some.inj taken
    exact .signal
  | advance =>
    simp only [step, Option.ite_none_right_eq_some, Option.some.injEq] at taken
    obtain ⟨may, rfl⟩ := taken
    exact .advance may
  | test i =>
    simp only [step] at taken
    split at taken
    · rename_i top
      obtain rfl := Option.some.inj taken
      exact .test top
    · contradiction
  | read i =>
    simp only [step] at taken
    split at taken
    · rename_i dispatch rest reading queued
      simp only [Option.ite_none_right_eq_some, Option.some.injEq] at taken
      obtain ⟨opened, rfl⟩ := taken
      exact .read reading queued opened
    · contradiction
  | readFail i =>
    simp only [step] at taken
    split at taken
    · rename_i reading
      simp only [Option.ite_none_right_eq_some, Option.some.injEq] at taken
      obtain ⟨fails, rfl⟩ := taken
      exact .readFail reading fails
    · contradiction
  | sleep i seconds =>
    simp only [step] at taken
    split at taken
    · rename_i dispatch holding
      simp only [Option.ite_none_right_eq_some, Option.some.injEq] at taken
      obtain ⟨short, rfl⟩ := taken
      exact .sleep holding short
    · contradiction
  | broadcast i =>
    simp only [step] at taken
    split at taken
    · rename_i dispatch seconds sleeping
      obtain rfl := Option.some.inj taken
      exact .broadcast sleeping
    · contradiction
  | sendCtl i =>
    simp only [step] at taken
    split at taken
    · rename_i dispatch seconds calling
      obtain rfl := Option.some.inj taken
      exact .sendCtl calling
    · contradiction
  | unblock i =>
    simp only [step] at taken
    split at taken
    · rename_i dispatch seconds broadcasting
      split at taken
      · contradiction
      · rename_i closed
        obtain rfl := Option.some.inj taken
        exact .unblock broadcasting (by simpa using closed)
    · contradiction

/-! ## Frames of the functions -/

@[simp] theorem setWorker_self (i : Fin numWorkerThreads) (worker : Worker) :
    (s.setWorker i worker).workers i = worker := by
  simp [Server.setWorker]

/-- Moving a worker leaves the others where they are. -/
theorem setWorker_of_ne {i j : Fin numWorkerThreads} (worker : Worker) (other : j ≠ i) :
    (s.setWorker i worker).workers j = s.workers j := by
  simp [Server.setWorker, Function.update_of_ne other]

@[simp] theorem setWorker_active (i : Fin numWorkerThreads) (worker : Worker) :
    (s.setWorker i worker).active = s.active := rfl

@[simp] theorem setWorker_channel (i : Fin numWorkerThreads) (worker : Worker) :
    (s.setWorker i worker).channel = s.channel := rfl

@[simp] theorem setWorker_ctl (i : Fin numWorkerThreads) (worker : Worker) :
    (s.setWorker i worker).ctl = s.ctl := rfl

/-- The control sockets stay closed. -/
theorem Stage.ctlOpen_of_next (stage : Stage) :
    stage.next.ctlOpen = true → stage.ctlOpen = true := by
  cases stage <;> decide

/-- A send adds its message to the control socket at most. -/
theorem mem_ctl_mgSendFunc {i : Fin numWorkerThreads} {origin : Dispatch} {seconds : Nat}
    {msg : CtlMsg} (member : msg ∈ (mgSendFunc s i origin seconds).ctl) :
    msg ∈ s.ctl ∨ msg = ⟨i, origin, ⟨origin.request.connId, seconds⟩⟩ := by
  simp only [mgSendFunc] at member
  split at member
  · exact (List.mem_append.mp member).imp_right List.mem_singleton.mp
  · exact .inl member

/-- Closing a connection removes it and may leave one record to be sent. -/
theorem closeConn_frame (c : Connection) (leftover : Option HttpMessage) :
    (closeConn s c leftover).active = s.active.filter (fun other => other.serial ≠ c.serial) ∧
      (closeConn s c leftover).nextId = s.nextId ∧
      (closeConn s c leftover).accepts = s.accepts ∧
      (closeConn s c leftover).channel = s.channel ∧
      (closeConn s c leftover).written = s.written ∧
      (closeConn s c leftover).workers = s.workers ∧
      (closeConn s c leftover).ctl = s.ctl ∧
      (closeConn s c leftover).stage = s.stage ∧
      (closeConn s c leftover).signalled = s.signalled := by
  cases leftover <;> simp [closeConn, evHandlerRequest]

/-- A connection that is found is in the list and has the accept number. -/
theorem find?_spec {serial : Nat} {c : Connection} (found : s.find? serial = some c) :
    c ∈ s.active ∧ c.serial = serial := by
  have satisfied := List.find?_some found
  exact ⟨List.mem_of_find?_eq_some found, by simpa using satisfied⟩

/-! ## Connections after a step -/

/-- Whether an action can change the connections. -/
def Action.touchesConnections : Action → Bool
  | .accept | .close _ _ | .handleCtl => true
  | _ => false

/-- The connections change only when one is accepted or closed or a broadcast is handled. -/
theorem active_of_untouched (taken : step capacity s action = some next)
    (untouched : action.touchesConnections = false) : next.active = s.active := by
  cases step_sound taken with
  | accept | close | handleCtl => contradiction
  | _ => rfl

/-- `on_work_complete` keeps the identity of every connection. -/
theorem onWorkComplete_identity (active : List Connection) (res : WorkResult) :
    (onWorkComplete active res).map (fun c => (c.serial, c.userData)) =
      active.map fun c => (c.serial, c.userData) := by
  simp only [onWorkComplete, List.map_map]
  apply List.map_congr_left
  intro c _
  dsimp only [Function.comp_apply, respond]
  split
  · split <;> rfl
  · rfl

/-- Handling a broadcast keeps the identity of every connection. -/
theorem mgMgrHandleCtlSock_identity (active : List Connection) (res : WorkResult) :
    (mgMgrHandleCtlSock active res).map (fun c => (c.serial, c.userData)) =
      active.map fun c => (c.serial, c.userData) := by
  have loop : ∀ (calls current : List Connection),
      (calls.foldl (fun current _ => onWorkComplete current res) current).map
          (fun c => (c.serial, c.userData)) =
        current.map fun c => (c.serial, c.userData) := by
    intro calls
    induction calls with
    | nil => intro current; rfl
    | cons call rest ih =>
      intro current
      rw [List.foldl_cons, ih, onWorkComplete_identity]
  exact loop active active

/-! ## Records on their way -/

/-- The record that a worker has read and not yet finished with. -/
def Worker.dispatch? : Worker → Option Dispatch
  | .holding dispatch | .sleeping dispatch _ | .calling dispatch _ | .broadcasting dispatch _ =>
    some dispatch
  | _ => none

/-- A record that was written and whose response has not been produced: on the channel, with
a worker, or in the control socket. -/
def Server.InFlight (s : Server) (dispatch : Dispatch) : Prop :=
  dispatch ∈ s.channel ∨ (∃ i, (s.workers i).dispatch? = some dispatch) ∨
    ∃ msg ∈ s.ctl, msg.origin = dispatch

/-- Moving a worker to a position without a record takes none on its way. -/
theorem inFlight_setWorker {i : Fin numWorkerThreads} {worker : Worker} {dispatch : Dispatch}
    (carried : worker.dispatch? = none ∨ worker.dispatch? = (s.workers i).dispatch?)
    (flying : (s.setWorker i worker).InFlight dispatch) : s.InFlight dispatch := by
  rcases flying with queued | ⟨j, held⟩ | sent
  · exact .inl queued
  · by_cases same : j = i
    · subst same
      rw [setWorker_self] at held
      rcases carried with empty | kept
      · rw [empty] at held
        contradiction
      · exact .inr (.inl ⟨j, kept ▸ held⟩)
    · exact .inr (.inl ⟨j, by rwa [setWorker_of_ne worker same] at held⟩)
  · exact .inr (.inr sent)

/-- The only record that a step sends on its way is the one that `sendto` writes. -/
theorem inFlight_step (taken : step capacity s action = some next) {dispatch : Dispatch}
    (flying : next.InFlight dispatch) :
    s.InFlight dispatch ∨ (action = .write ∧ s.sending = some dispatch) := by
  cases step_sound taken with
  | accept | request | signal => exact .inl flying
  | write sending =>
    rcases flying with queued | rest
    · rcases List.mem_append.mp queued with old | new
      · exact .inl (.inl old)
      · exact .inr ⟨rfl, by rw [sending, List.mem_singleton.mp new]⟩
    · exact .inl (.inr rest)
  | close =>
    obtain ⟨-, -, -, channel, -, workers, ctl, -⟩ := @closeConn_frame s ..
    left
    unfold Server.InFlight at flying
    rwa [channel, workers, ctl] at flying
  | @handleCtl msg rest polling queued =>
    left
    have moved : (s.setWorker msg.worker .top).InFlight dispatch := by
      rcases flying with onChannel | held | ⟨other, inside, same⟩
      · exact .inl onChannel
      · exact .inr (.inl held)
      · refine .inr (.inr ⟨other, ?_, same⟩)
        rw [setWorker_ctl, queued]
        exact List.mem_cons_of_mem msg inside
    exact inFlight_setWorker (.inl rfl) moved
  | advance =>
    left
    rcases flying with onChannel | held | ⟨msg, inside, same⟩
    · exact .inl onChannel
    · exact .inr (.inl held)
    · refine .inr (.inr ⟨msg, ?_, same⟩)
      dsimp only at inside
      split at inside
      · exact inside
      · contradiction
  | test => exact .inl (inFlight_setWorker (.inl (by split <;> rfl)) flying)
  | @read i record rest reading queued =>
    left
    rcases flying with onChannel | ⟨j, held⟩ | sent
    · exact .inl (by rw [queued]; exact List.mem_cons_of_mem record onChannel)
    · by_cases same : j = i
      · subst same
        have own := (@setWorker_self s j (.holding record)) ▸ held
        obtain rfl := Option.some.inj own
        exact .inl (by rw [queued]; exact List.mem_cons_self)
      · exact .inr (.inl ⟨j, by
          have kept := @setWorker_of_ne s _ _ (.holding record) same
          dsimp only at held
          rwa [kept] at held⟩)
    · exact .inr (.inr sent)
  | readFail => exact .inl (inFlight_setWorker (.inl rfl) flying)
  | sleep holding => exact .inl (inFlight_setWorker (.inr (by rw [holding]; rfl)) flying)
  | @broadcast i record seconds sleeping =>
    have moved : (s.setWorker i
        (if s.stage.ctlOpen then .calling record seconds else .top)).InFlight dispatch := flying
    refine .inl (inFlight_setWorker ?_ moved)
    split
    · exact .inr (by rw [sleeping]; rfl)
    · exact .inl rfl
  | @sendCtl i record seconds calling =>
    left
    have held : (s.workers i).dispatch? = some record := by rw [calling]; rfl
    cases opened : s.stage.ctlOpen with
    | true =>
      simp only [mgSendFunc, opened, if_true] at flying
      rcases flying with onChannel | ⟨j, carried⟩ | ⟨msg, inside, same⟩
      · exact .inl onChannel
      · have moved : (s.setWorker i (.broadcasting record seconds)).InFlight dispatch :=
          .inr (.inl ⟨j, carried⟩)
        exact inFlight_setWorker (.inr (by rw [held]; rfl)) moved
      · rcases List.mem_append.mp inside with old | new
        · exact .inr (.inr ⟨msg, old, same⟩)
        · obtain rfl := List.mem_singleton.mp new
          subst same
          exact .inr (.inl ⟨i, held⟩)
    | false =>
      simp only [mgSendFunc, opened, Bool.false_eq_true, if_false] at flying
      have moved : (s.setWorker i .top).InFlight dispatch := flying
      exact inFlight_setWorker (.inl rfl) moved
  | unblock => exact .inl (inFlight_setWorker (.inl rfl) flying)

end CppCode.MultiThread
