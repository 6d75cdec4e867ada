import Mathlib.Data.Multiset.AddSub
import CppCode.MultiThread.Deadlock
import CppCode.MultiThread.Identity

/-!
# The ledger of records

What happens to the records of a run between `ev_handler` and the handling of their results.
Requests are numbered as they are handed over (`numbered_run`). A record that is written is on
the channel, with a worker that has yet to leave the test or the send of `mg_broadcast`, or past
them, and it passes them once only (`conserved_run`, `sent_nodup`). The control socket is a queue:
while it is open, the results that were handled and those that wait in it are, in this order, those
that were sent (`fifo_run`).
-/

namespace CppCode.MultiThread

open Library Mongoose

variable {capacity : Nat} {s next : Server} {action : Action} {actions : List Action}

/-! ## Requests that were handed over -/

/-- The requests that were handed to `ev_handler` so far, oldest first. -/
def Server.handed (s : Server) : List Dispatch := s.written ++ s.sending.toList

/-- Requests are numbered in the order in which they are handed over. -/
def Numbered (s : Server) : Prop := s.handed.map Dispatch.number = List.range s.dispatched

/-- While the IO thread is in no callback, all requests are written. -/
theorem handed_of_idle (idle : s.sending.isNone = true) : s.handed = s.written := by
  rw [Server.handed, Option.isNone_iff_eq_none.mp idle, Option.toList_none, List.append_nil]

/-- A request gets the next number. -/
theorem numbered_request (numbered : Numbered s) (idle : s.sending.isNone = true)
    (c : Connection) (message : HttpMessage) : Numbered (evHandlerRequest s c message) := by
  rw [Numbered, handed_of_idle idle] at numbered
  simp [Numbered, Server.handed, evHandlerRequest, List.range_succ, numbered]

/-- Every step keeps the numbers in order. -/
theorem numbered_step (numbered : Numbered s) (taken : step capacity s action = some next) :
    Numbered next := by
  cases step_sound taken with
  | request polling => exact numbered_request numbered polling.2 _ _
  | @close serial leftover c may =>
    have idle : s.sending.isNone = true := by
      rcases may with ⟨polling, -⟩ | ⟨-, idle, -⟩
      · exact polling.2
      · exact idle
    cases leftover with
    | none => exact numbered
    | some message =>
      have closed : Numbered
          { s with active := s.active.filter fun other => other.serial ≠ c.serial } := numbered
      exact numbered_request closed idle c message
  | @write dispatch sends =>
    unfold Numbered Server.handed at numbered ⊢
    rw [sends] at numbered
    simpa using numbered
  | _ => exact numbered

/-- The numbers are in order after every run. -/
theorem numbered_run (reached : Reaches capacity actions s) : Numbered s :=
  run_invariant (fun _ _ _ => numbered_step) (rfl : Numbered start) reached

/-- No record is written twice. -/
theorem written_nodup (reached : Reaches capacity actions s) : s.written.Nodup := by
  have numbers : (s.handed.map Dispatch.number).Nodup := by
    rw [numbered_run reached]
    exact List.nodup_range
  exact (List.nodup_append.mp (List.Nodup.of_map _ numbers)).1

/-! ## Broadcasts that wait for the IO thread -/

/-- The worker of every message in the control socket waits for it, and for no other. -/
structure Waiters (s : Server) : Prop where
  /-- The worker waits for the answer to the message. -/
  blocked : ∀ msg ∈ s.ctl, ∃ seconds, s.workers msg.worker = .broadcasting msg.origin seconds
  /-- No worker waits for two messages. -/
  single : (s.ctl.map CtlMsg.worker).Nodup
  /-- A closed control socket is empty. -/
  closed : s.stage.ctlOpen = false → s.ctl = []

/-- Moving a worker that does not wait keeps the others waiting. -/
theorem Waiters.setWorker (waiters : Waiters s) {i : Fin numWorkerThreads}
    (free : (s.workers i).isBroadcasting = false) (worker : Worker) :
    Waiters (s.setWorker i worker) where
  blocked := by
    intro msg member
    obtain ⟨seconds, place⟩ := waiters.blocked msg member
    have other : msg.worker ≠ i := by
      rintro rfl
      rw [place] at free
      contradiction
    exact ⟨seconds, (setWorker_of_ne worker other).trans place⟩
  single := waiters.single
  closed := waiters.closed

/-- Handling a message leaves the others with their workers. -/
theorem waiters_handleCtl (waiters : Waiters s) {msg : CtlMsg} {rest : List CtlMsg}
    (polling : s.Polling) (queued : s.ctl = msg :: rest) :
    Waiters { s.setWorker msg.worker .top with
      ctl := rest
      active := mgMgrHandleCtlSock s.active msg.result } := by
  have blocked := waiters.blocked
  have single := waiters.single
  rw [queued] at blocked single
  simp only [List.map_cons, List.nodup_cons] at single
  constructor
  case blocked =>
    intro other member
    obtain ⟨seconds, place⟩ := blocked other (List.mem_cons_of_mem msg member)
    have apart : other.worker ≠ msg.worker := by
      intro same
      exact single.1 (same ▸ List.mem_map_of_mem member)
    exact ⟨seconds, (setWorker_of_ne .top apart).trans place⟩
  case single => exact single.2
  case closed =>
    intro closed
    have opened : s.stage.ctlOpen = true := polling.1
    change s.stage.ctlOpen = false at closed
    rw [opened] at closed
    contradiction

/-- A worker waits for the message that it has sent to be handled, or goes on when no one listens.
-/
theorem waiters_sendCtl (waiters : Waiters s) {i : Fin numWorkerThreads} {record : Dispatch}
    {seconds : Nat} (calling : s.workers i = .calling record seconds) :
    Waiters (mgSendFunc s i record seconds) := by
  have free : (s.workers i).isBroadcasting = false := by rw [calling]; rfl
  cases opened : s.stage.ctlOpen with
  | true =>
    simp only [mgSendFunc, opened, if_true]
    have moved := waiters.setWorker free (.broadcasting record seconds)
    constructor
    case blocked =>
      intro msg member
      rcases List.mem_append.mp member with old | new
      · exact moved.blocked msg old
      · obtain rfl := List.mem_singleton.mp new
        exact ⟨seconds, setWorker_self i _⟩
    case single =>
      rw [List.map_append, List.nodup_append]
      refine ⟨waiters.single, List.nodup_singleton _, ?_⟩
      intro worker waits other new same
      obtain ⟨msg, member, rfl⟩ := List.mem_map.mp waits
      obtain ⟨longer, place⟩ := waiters.blocked msg member
      rw [same, List.mem_singleton.mp new, calling] at place
      contradiction
    case closed =>
      intro closed
      change s.stage.ctlOpen = false at closed
      rw [closed] at opened
      contradiction
  | false =>
    simp only [mgSendFunc, opened, Bool.false_eq_true, if_false]
    exact waiters.setWorker free .top

/-- Every step keeps the workers of the messages waiting. -/
theorem waiters_step (waiters : Waiters s) (taken : step capacity s action = some next) :
    Waiters next := by
  cases step_sound taken with
  | handleCtl polling queued => exact waiters_handleCtl waiters polling queued
  | sendCtl calling => exact waiters_sendCtl waiters calling
  | advance may =>
    constructor
    case blocked =>
      intro msg member
      dsimp only at member
      split at member
      · exact waiters.blocked msg member
      · contradiction
    case single =>
      dsimp only
      split
      · exact waiters.single
      · exact List.nodup_nil
    case closed =>
      intro closed
      change s.stage.next.ctlOpen = false at closed
      simp [closed]
  | @unblock i record seconds broadcasting closed =>
    have empty := waiters.closed closed
    constructor
    case blocked =>
      intro msg member
      rw [setWorker_ctl, empty] at member
      contradiction
    case single => exact waiters.single
    case closed => exact waiters.closed
  | test top => exact waiters.setWorker (by rw [top]; rfl) _
  | @read i dispatch rest reading =>
    have moved := waiters.setWorker (by rw [reading]; rfl) (.holding dispatch)
    exact ⟨moved.blocked, moved.single, moved.closed⟩
  | readFail reading => exact waiters.setWorker (by rw [reading]; rfl) _
  | sleep holding => exact waiters.setWorker (by rw [holding]; rfl) _
  | @broadcast i record seconds sleeping =>
    have moved := waiters.setWorker (by rw [sleeping]; rfl)
      (if s.stage.ctlOpen then .calling record seconds else .top)
    exact ⟨moved.blocked, moved.single, moved.closed⟩
  | @close serial leftover =>
    cases leftover <;> exact ⟨waiters.blocked, waiters.single, waiters.closed⟩
  | accept | request | write | signal =>
    exact ⟨waiters.blocked, waiters.single, waiters.closed⟩

/-- The workers of the messages wait after every run. -/
theorem waiters_run (reached : Reaches capacity actions s) : Waiters s := by
  have first : Waiters start := ⟨by simp [start], by simp [start], fun _ => rfl⟩
  exact run_invariant (fun _ _ _ => waiters_step) first reached

/-! ## What becomes of a record -/

/-- The record whose result an action sends in `mg_broadcast`. -/
def sentOf (s : Server) : Action → List Dispatch
  | .sendCtl i =>
    match s.workers i with
    | .calling dispatch _ => [dispatch]
    | _ => []
  | _ => []

/-- The record whose result an action handles. -/
def handledOf (s : Server) : Action → List Dispatch
  | .handleCtl => (s.ctl.map CtlMsg.origin).take 1
  | _ => []

/-- The records of a run in the order in which workers send their results in `mg_broadcast`. -/
def sent (capacity : Nat) (actions : List Action) : List Dispatch :=
  trace (step capacity) sentOf start actions

/-- The records of a run in the order in which the IO thread handles their results. -/
def handled (capacity : Nat) (actions : List Action) : List Dispatch :=
  trace (step capacity) handledOf start actions

/-- The record whose result a worker has yet to send. -/
def Worker.owed : Worker → Multiset Dispatch
  | .holding dispatch | .sleeping dispatch _ | .calling dispatch _ => {dispatch}
  | _ => 0

/-- The records whose results the workers have yet to send. -/
def Server.owed (s : Server) : Multiset Dispatch := poolSum Worker.owed s.workers

/-- Moving a worker exchanges what it owes. -/
theorem owed_setWorker (i : Fin numWorkerThreads) (worker : Worker) :
    (s.setWorker i worker).owed + (s.workers i).owed = s.owed + worker.owed :=
  pool_move Worker.owed s.workers i worker

/-- Moving a worker to a place where it owes the same. -/
theorem owed_same {i : Fin numWorkerThreads} {worker : Worker}
    (same : worker.owed = (s.workers i).owed) : (s.setWorker i worker).owed = s.owed := by
  have moved := @owed_setWorker s i worker
  rw [same] at moved
  exact add_right_cancel moved

/-- While the control socket is open, a record that is written is on the channel, with a worker that
has yet to send its result, or past the send, and only one of these. -/
def Conserved (capacity : Nat) (actions : List Action) (s : Server) : Prop :=
  s.stage.ctlOpen = true →
    (s.written : Multiset Dispatch) = s.channel + s.owed + sent capacity actions

/-- A step that sends nothing keeps the records when it keeps what is under way. -/
theorem Conserved.same (conserved : Conserved capacity actions s)
    (reached : Reaches capacity actions s) (quiet : sentOf s action = [])
    (opened : next.stage.ctlOpen = true → s.stage.ctlOpen = true)
    (written : next.written = s.written) (channel : next.channel = s.channel)
    (owed : next.owed = s.owed) : Conserved capacity (actions ++ [action]) next := by
  intro later
  rw [sent, trace_concat action reached, quiet, List.append_nil, written, channel, owed]
  exact conserved (opened later)

/-- Every step conserves the records. -/
theorem conserved_step (reached : Reaches capacity actions s)
    (conserved : Conserved capacity actions s) (taken : step capacity s action = some next) :
    Conserved capacity (actions ++ [action]) next := by
  cases step_sound taken with
  | accept | request | signal => exact conserved.same reached rfl id rfl rfl rfl
  | advance => exact conserved.same reached rfl s.stage.ctlOpen_of_next rfl rfl rfl
  | @close serial leftover =>
    cases leftover <;> exact conserved.same reached rfl id rfl rfl rfl
  | @handleCtl msg rest polling queued =>
    refine conserved.same reached rfl id rfl rfl ?_
    obtain ⟨seconds, place⟩ := (waiters_run reached).blocked msg (queued ▸ List.mem_cons_self)
    exact @owed_same s msg.worker .top (by rw [place]; rfl)
  | @test i top =>
    refine conserved.same reached rfl id rfl rfl (owed_same ?_)
    rw [top]
    split <;> rfl
  | readFail place | unblock place | sleep place =>
    exact conserved.same reached rfl id rfl rfl (owed_same (by rw [place]; rfl))
  | @broadcast i record seconds sleeping =>
    intro opened
    have kept : (mgBroadcast s i record seconds).owed = s.owed := by
      apply @owed_same s i _
      rw [sleeping, if_pos (show s.stage.ctlOpen = true from opened)]
      rfl
    exact conserved.same reached rfl id rfl rfl kept opened
  | @write dispatch sends =>
    intro opened
    rw [sent, trace_concat .write reached]
    change ((s.written ++ [dispatch] : List Dispatch) : Multiset Dispatch) =
      ((s.channel ++ [dispatch] : List Dispatch) : Multiset Dispatch) + s.owed +
        ((sent capacity actions ++ [] : List Dispatch) : Multiset Dispatch)
    rw [List.append_nil, ← Multiset.coe_add, ← Multiset.coe_add, conserved opened]
    ac_rfl
  | @read i dispatch rest reading queued =>
    intro opened
    rw [sent, trace_concat (.read i) reached]
    have moved := @owed_setWorker s i (.holding dispatch)
    rw [reading] at moved
    change (s.written : Multiset Dispatch) =
      (rest : Multiset Dispatch) + (s.setWorker i (.holding dispatch)).owed +
        ((sent capacity actions ++ [] : List Dispatch) : Multiset Dispatch)
    have gained : (s.setWorker i (.holding dispatch)).owed = s.owed + {dispatch} := by
      simpa [Worker.owed] using moved
    rw [List.append_nil, gained, conserved opened, queued, ← Multiset.cons_coe,
      ← Multiset.singleton_add]
    ac_rfl
  | @sendCtl i record seconds calling =>
    intro opened
    rw [sent, trace_concat (.sendCtl i) reached]
    have shown : sentOf s (.sendCtl i) = [record] := by simp only [sentOf, calling]
    have waits : (mgSendFunc s i record seconds).owed =
        (s.setWorker i (.broadcasting record seconds)).owed := by
      simp only [Server.owed, mgSendFunc, if_pos (show s.stage.ctlOpen = true from opened)]
    have paid : (mgSendFunc s i record seconds).owed + {record} = s.owed := by
      have moved := @owed_setWorker s i (.broadcasting record seconds)
      rw [calling] at moved
      simpa [waits, Worker.owed] using moved
    change (s.written : Multiset Dispatch) =
      (s.channel : Multiset Dispatch) + (mgSendFunc s i record seconds).owed +
        ((sent capacity actions ++ sentOf s (.sendCtl i) : List Dispatch) : Multiset Dispatch)
    rw [shown, conserved opened, ← paid, ← Multiset.coe_add, Multiset.coe_singleton]
    ac_rfl

/-- Records are conserved in every run. -/
theorem conserved_run (reached : Reaches capacity actions s) : Conserved capacity actions s := by
  refine @run_invariant_history _ _ _ _ (Conserved capacity) ?_ ?_ _ _ reached
  · intro before state taken after earlier conserved stepped
    exact conserved_step earlier conserved stepped
  · have idle : start.owed = 0 := by simp [Server.owed, poolSum, start, Worker.owed]
    intro _
    rw [idle]
    rfl

/-- While the control socket is open, no result is sent twice. -/
theorem sent_nodup (reached : Reaches capacity actions s) (opened : s.stage.ctlOpen = true) :
    (sent capacity actions).Nodup := by
  have written := Multiset.coe_nodup.mpr (written_nodup reached)
  rw [conserved_run reached opened] at written
  exact Multiset.coe_nodup.mp (Multiset.nodup_of_le (Multiset.le_add_left _ _) written)

/-- While the control socket is open, what was sent was handled or is in the socket, in this
order. -/
def Fifo (capacity : Nat) (actions : List Action) (s : Server) : Prop :=
  s.stage.ctlOpen = true →
    sent capacity actions = handled capacity actions ++ s.ctl.map CtlMsg.origin

/-- A step that neither sends nor handles a result keeps the queue. -/
theorem Fifo.same (fifo : Fifo capacity actions s) (reached : Reaches capacity actions s)
    (silent : sentOf s action = []) (unhandled : handledOf s action = [])
    (opened : next.stage.ctlOpen = true → s.stage.ctlOpen = true)
    (ctl : next.stage.ctlOpen = true → next.ctl = s.ctl) :
    Fifo capacity (actions ++ [action]) next := by
  intro later
  rw [sent, handled, trace_concat action reached, trace_concat action reached, silent,
    unhandled, List.append_nil, List.append_nil, ctl later]
  exact fifo (opened later)

/-- Every step keeps the order of the queue. -/
theorem fifo_step (reached : Reaches capacity actions s) (fifo : Fifo capacity actions s)
    (taken : step capacity s action = some next) : Fifo capacity (actions ++ [action]) next := by
  cases step_sound taken with
  | advance may =>
    exact fifo.same reached rfl rfl s.stage.ctlOpen_of_next fun later => if_pos later
  | @close serial leftover =>
    cases leftover <;> exact fifo.same reached rfl rfl id fun _ => rfl
  | @handleCtl msg rest polling queued =>
    intro _
    have shown : handledOf s .handleCtl = [msg.origin] := by simp [handledOf, queued]
    have before := fifo polling.1
    rw [queued, List.map_cons] at before
    rw [sent, handled, trace_concat .handleCtl reached, trace_concat .handleCtl reached,
      shown, List.append_assoc]
    change sent capacity actions ++ [] = handled capacity actions ++ _
    rw [List.append_nil, before]
    rfl
  | @sendCtl i record seconds calling =>
    have shown : sentOf s (.sendCtl i) = [record] := by simp only [sentOf, calling]
    intro opened
    change s.stage.ctlOpen = true at opened
    rw [sent, handled, trace_concat (.sendCtl i) reached, trace_concat (.sendCtl i) reached,
      shown]
    change sent capacity actions ++ [record] = (handled capacity actions ++ []) ++ _
    rw [fifo opened, List.append_nil, List.append_assoc]
    simp only [mgSendFunc, opened, if_true, List.map_append, List.map_cons, List.map_nil]
  | _ => exact fifo.same reached rfl rfl id fun _ => rfl

/-- The control socket is a queue in every run. -/
theorem fifo_run (reached : Reaches capacity actions s) : Fifo capacity actions s := by
  refine @run_invariant_history _ _ _ _ (Fifo capacity) ?_ (fun _ => rfl) _ _ reached
  intro before state taken after earlier fifo stepped
  exact fifo_step earlier fifo stepped

end CppCode.MultiThread
