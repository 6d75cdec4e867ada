import CppCode.MultiThread.Delivery
import CppCode.MultiThread.Ledger

/-!
# The order of responses

Several requests of one connection can be with different workers at once, and nothing keeps
their results in order: a response is appended when the IO thread handles the broadcast of its
worker, and broadcasts are handled in the order in which the workers have sent them into the control
socket. A worker can be preempted between its call of `mg_broadcast` and the send in it, so the
order of the calls does not matter. `response_order_iff` says that the order of the sends decides,
for any two requests of a connection, which response comes first.
-/

namespace CppCode.MultiThread

open Library Mongoose

variable {capacity : Nat} {s next : Server} {action : Action} {actions : List Action}

/-- After these actions, the IO thread handles the result of a request, and this appends a
response to the connection that the request came from. -/
def Answered (capacity : Nat) (actions : List Action) (dispatch : Dispatch) : Prop :=
  ∃ s next msg rest count, Reaches capacity actions s ∧
    step capacity s .handleCtl = some next ∧ s.ctl = msg :: rest ∧ msg.origin = dispatch ∧
    0 < count ∧ Delivers s next msg count

/-- At an earlier moment of the run a response to the request was appended. -/
def AnsweredBefore (capacity : Nat) (actions : List Action) (dispatch : Dispatch) : Prop :=
  ∃ before after, actions = before ++ .handleCtl :: after ∧ Answered capacity before dispatch

/-- No response of the run to a request comes before the first response to an earlier request of
the same connection. -/
def InOrder (capacity : Nat) (actions : List Action) : Prop :=
  ∀ before after s late, actions = before ++ .handleCtl :: after → Reaches capacity before s →
    Answered capacity before late → ∀ early ∈ s.handed, early.serial = late.serial →
      early.number < late.number → AnsweredBefore capacity before early

/-- In the run, `mg_broadcast` sends the result for one record into the control socket before it
sends that for another. -/
def SentBefore (capacity : Nat) (actions : List Action) (early late : Dispatch) : Prop :=
  ∃ first last, sent capacity actions = first ++ late :: last ∧ early ∈ first

/-- A connection that is open after a step and was accepted before it was open before it, with
the same identity. -/
theorem older_step (taken : step capacity s action = some next) {c : Connection}
    (member : c ∈ next.active) (old : c.serial ≤ s.accepts) :
    ∃ before ∈ s.active, before.serial = c.serial ∧ before.userData = c.userData := by
  cases touched : action.touchesConnections with
  | false =>
    rw [active_of_untouched taken touched] at member
    exact ⟨c, member, rfl, rfl⟩
  | true =>
    cases step_sound taken with
    | accept =>
      rcases List.mem_cons.mp member with rfl | kept
      · exact absurd old (Nat.not_succ_le_self s.accepts)
      · exact ⟨c, kept, rfl, rfl⟩
    | @close serial leftover =>
      rw [(closeConn_frame ..).1] at member
      exact ⟨c, List.mem_of_mem_filter member, rfl, rfl⟩
    | @handleCtl msg =>
      have listed : (c.serial, c.userData) ∈ s.active.map fun c => (c.serial, c.userData) := by
        rw [← mgMgrHandleCtlSock_identity s.active msg.result]
        exact List.mem_map.mpr ⟨c, member, rfl⟩
      obtain ⟨before, inside, same⟩ := List.mem_map.mp listed
      exact ⟨before, inside, congrArg Prod.fst same, congrArg Prod.snd same⟩
    | _ => contradiction

/-- A step never takes accepts back. -/
theorem accepts_step (taken : step capacity s action = some next) : s.accepts ≤ next.accepts := by
  cases step_sound taken with
  | accept => exact Nat.le_succ s.accepts
  | close => exact le_of_eq (closeConn_frame ..).2.2.1.symm
  | _ => exact le_refl _

/-- A connection that is open after a run and was accepted before it was open before it, with
the same identity. -/
theorem older_run {final : Server} (reached : run (step capacity) s actions = some final)
    {c : Connection} (member : c ∈ final.active) (old : c.serial ≤ s.accepts) :
    ∃ before ∈ s.active, before.serial = c.serial ∧ before.userData = c.userData := by
  let kept : Server → Prop := fun state => s.accepts ≤ state.accepts ∧
    ∀ c ∈ state.active, c.serial ≤ s.accepts →
      ∃ before ∈ s.active, before.serial = c.serial ∧ before.userData = c.userData
  have all : kept final := by
    refine @run_invariant _ _ _ kept ?_ _ _ _
      ⟨le_refl _, fun c member _ => ⟨c, member, rfl, rfl⟩⟩ reached
    rintro state taken after ⟨grown, earlier⟩ stepped
    refine ⟨le_trans grown (accepts_step stepped), fun c member old => ?_⟩
    obtain ⟨middle, inside, serial, userData⟩ := older_step stepped member (le_trans old grown)
    obtain ⟨before, present, same, id⟩ := earlier middle inside (serial ▸ old)
    exact ⟨before, present, same.trans serial, id.trans userData⟩
  exact all.2 c member old

/-- When a response is appended, the connection is open and matches the result. -/
theorem Answered.opened {dispatch : Dispatch} (answered : Answered capacity actions dispatch) :
    ∃ s msg rest c, Reaches capacity actions s ∧ s.stage.ctlOpen = true ∧ s.ctl = msg :: rest ∧
      msg.origin = dispatch ∧ c ∈ s.active ∧ c.serial = dispatch.serial ∧ c.userData ≠ 0 := by
  obtain ⟨s, next, msg, rest, count, reached, taken, queued, origin, positive, c, member, after,
    present, serial, same, appended⟩ := answered
  have opened : s.stage.ctlOpen = true := by
    cases step_sound taken with
    | handleCtl polling => exact polling.1
  have changed : after.sendMbuf ≠ c.sendMbuf := by
    intro equal
    have lengths := congrArg List.length (equal.symm.trans appended)
    have bytes := Nat.mul_pos positive (response_pos msg.result)
    rw [List.length_append, responses_length] at lengths
    omega
  obtain ⟨-, other, others, -, matching⟩ := sendMbuf_step (identified_run reached) taken member
    present (same.trans serial.symm) changed
  exact ⟨s, msg, rest, c, reached, opened, queued, origin, member, serial.trans (by rw [origin]),
    matching.1⟩

/-- When the result of a request is handled while a connection is open that still is when a later
request of it is answered, a response is appended. -/
theorem answered_of_handled {before after : List Action} {middle : Server} {dispatch : Dispatch}
    {c : Connection} (earlier : Reaches capacity before middle)
    (later : run (step capacity) middle (.handleCtl :: after) = some s)
    (shown : dispatch ∈ handledOf middle .handleCtl) (member : c ∈ s.active)
    (serial : c.serial = dispatch.serial) (identified : c.userData ≠ 0) :
    Answered capacity before dispatch := by
  cases queued : middle.ctl with
  | nil => simp [handledOf, queued] at shown
  | cons msg rest =>
    simp only [handledOf, queued, List.map_cons, List.take_succ_cons, List.take_zero,
      List.mem_singleton] at shown
    obtain ⟨next, taken, -⟩ := run_cons_iff.mp later
    have inv := identified_run earlier
    have first : msg ∈ middle.ctl := queued ▸ List.mem_cons_self
    have named := inv.written msg.origin (inv.flying _ (.inr (.inr ⟨msg, first, rfl⟩)))
    have old : c.serial ≤ middle.accepts := by
      rw [serial, shown]
      exact named.2.2
    obtain ⟨listed, inside, same, id⟩ := older_run later member old
    have origin : listed.serial = msg.origin.serial := by rw [same, serial, shown]
    have matching : listed.Matches msg.result := by
      refine ⟨id ▸ identified, ?_⟩
      rw [inv.results msg first, ← UInt32.toNat_inj, (inv.userData listed inside).1, named.1,
        origin]
    exact ⟨middle, next, msg, rest, middle.active.length, earlier, taken, queued, shown.symm,
      List.length_pos_of_mem inside, delivers_of_matches queued taken inside origin matching⟩

/-- Responses follow the order of the sends: when a response to a request is appended, a response to
another request of the same connection was appended before exactly when the worker of the other
request sent its result into the control socket before. -/
theorem response_order_iff {early late : Dispatch} (answered : Answered capacity actions late)
    (same : early.serial = late.serial) :
    AnsweredBefore capacity actions early ↔ SentBefore capacity actions early late := by
  obtain ⟨s, msg, rest, c, reached, opened, queued, origin, member, serial, identified⟩ :=
    answered.opened
  have split : sent capacity actions =
      handled capacity actions ++ late :: rest.map CtlMsg.origin := by
    rw [fifo_run reached opened, queued, List.map_cons, origin]
  have single := sent_nodup reached opened
  have decided : SentBefore capacity actions early late ↔
      early ∈ handled capacity actions := by
    constructor
    · rintro ⟨first, last, broken, member⟩
      have apart := single
      rw [broken] at apart
      rw [split] at broken single
      have absent : late ∉ first ∧ late ∉ last := by
        have parts := List.nodup_append.mp apart
        exact ⟨fun inside => parts.2.2 late inside late List.mem_cons_self rfl,
          (List.nodup_cons.mp parts.2.1).1⟩
      obtain ⟨front, -, -⟩ := (List.append_cons_inj_of_notMem absent.1 absent.2).mp broken.symm
      exact front ▸ member
    · exact fun member => ⟨_, _, split, member⟩
  rw [decided, handled, mem_trace_iff]
  constructor
  · rintro ⟨before, after, rfl, now⟩
    obtain ⟨middle, first, others, -, earlier, -, waits, source, -⟩ := now.opened
    refine ⟨before, .handleCtl, after, middle, rfl, earlier, ?_⟩
    simp [handledOf, waits, source]
  · rintro ⟨before, action, after, middle, rfl, earlier, shown⟩
    obtain ⟨between, first, later⟩ := run_append_iff.mp reached
    obtain rfl := Option.some.inj (earlier.symm.trans first)
    cases action with
    | handleCtl =>
      exact ⟨before, after, rfl,
        answered_of_handled earlier later shown member (serial.trans same.symm) identified⟩
    | _ => simp [handledOf] at shown

/-- One client asks twice; two workers read a request each, and the one with the second request
is done first. -/
def overtaking : List Action :=
  [.accept, .request 1 getRequest, .write, .request 1 getRequest, .write, .test 0, .read 0,
    .test 1, .read 1, .sleep 1 0, .broadcast 1, .sendCtl 1]

/-- The state after `overtaking`. -/
def overtakingState : Server := (run (step 2) start overtaking).getD start

/-- The first request of `overtaking`. -/
def firstRequest : Dispatch := ⟨1, 0, ⟨1, getRequest⟩⟩

/-- The second request of `overtaking`. -/
def secondRequest : Dispatch := ⟨1, 1, ⟨1, getRequest⟩⟩

theorem overtaking_answers : Answered 2 overtaking secondRequest := by
  have reached : Reaches 2 overtaking overtakingState := rfl
  have queued : overtakingState.ctl = [⟨1, secondRequest, ⟨1, 0⟩⟩] := rfl
  obtain ⟨next, taken⟩ : ∃ next, step 2 overtakingState .handleCtl = some next := ⟨_, rfl⟩
  exact ⟨overtakingState, next, _, [], 2, reached, taken, queued, rfl, by decide,
    delivers_active (identified_run reached) (by decide) queued taken
      ⟨⟨1, 1, []⟩, List.mem_cons_self, rfl⟩⟩

/-- The second request of `overtaking` is answered before the first. -/
theorem overtaking_not_inOrder : Reaches 2 overtaking overtakingState ∧
    overtakingState.handed = [firstRequest, secondRequest] ∧
    ¬InOrder 2 (overtaking ++ [.handleCtl]) := by
  have reached : Reaches 2 overtaking overtakingState := rfl
  have handed : overtakingState.handed = [firstRequest, secondRequest] := rfl
  refine ⟨reached, handed, fun ordered => ?_⟩
  obtain ⟨before, after, split, -⟩ := ordered overtaking [] overtakingState secondRequest rfl
    reached overtaking_answers firstRequest (by simp [handed]) rfl (by decide)
  have handles : Action.handleCtl ∈ overtaking := by rw [split]; simp
  simp [overtaking] at handles

/-- The hypotheses of `response_order_iff` hold of `overtaking`, whose result for the first
request has not been sent when the second is answered. -/
theorem overtaking_order : ¬AnsweredBefore 2 overtaking firstRequest := by
  rw [response_order_iff overtaking_answers
    (rfl : firstRequest.serial = secondRequest.serial)]
  rintro ⟨first, last, shown, member⟩
  have single : sent 2 overtaking = [secondRequest] := rfl
  have listed : firstRequest ∈ sent 2 overtaking := by
    rw [shown]
    exact List.mem_append_left _ member
  rw [single, List.mem_singleton] at listed
  exact absurd (congrArg Dispatch.number listed) (by decide)

end CppCode.MultiThread
