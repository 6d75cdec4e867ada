import CppCode.MultiThread.Steps

/-!
# The end of `MultiThreadStart`

The workers are detached and test `s_received_signal` only at the top of their loop, and nothing
waits for them when `MultiThreadStart` returns, whose local variable the manager is. A worker
that holds a record or sleeps at that moment goes on to call `mg_broadcast` on it; every other
worker returns, has called `mg_broadcast` before and leaves it, or gets no record from the closed
socket any more.
`lateUse_iff` says that this is the only way in which a worker uses the manager too late.
-/

namespace CppCode.MultiThread

open Library

variable {capacity : Nat} {s next : Server} {action : Action} {actions : List Action}

/-- A worker has a record and has yet to call `mg_broadcast` for it. -/
def Worker.owesBroadcast : Worker → Bool
  | .holding _ | .sleeping _ _ => true
  | _ => false

/-- `MultiThreadStart` returns only while no worker has yet to call `mg_broadcast`. -/
def QuietReturn (s : Server) (action : Action) : Prop :=
  action = .advance → s.stage = .closed1 → ∀ i, (s.workers i).owesBroadcast = false

/-- No worker has used the manager after the return, and none is on the way to. -/
structure Quiet (s : Server) : Prop where
  /-- The manager has not been used too late. -/
  unused : s.usedAfterReturn = false
  /-- After the return no worker is on the way to `mg_broadcast`. -/
  done : s.stage = .returned → ∀ i, (s.workers i).owesBroadcast = false

/-- Moving a worker to a place from which it does not broadcast keeps the end quiet. -/
theorem Quiet.setWorker (quiet : Quiet s) (i : Fin numWorkerThreads) {worker : Worker}
    (idle : worker.owesBroadcast = false) : Quiet (s.setWorker i worker) where
  unused := quiet.unused
  done := by
    intro stage j
    by_cases same : j = i
    · subst same
      rwa [setWorker_self]
    · rw [setWorker_of_ne worker same]
      exact quiet.done stage j

/-- A poll is over when `MultiThreadStart` returns. -/
theorem Server.Polling.not_returned (polling : s.Polling) : s.stage ≠ .returned := by
  intro stage
  have opened := polling.1
  rw [stage] at opened
  contradiction

/-- The IO thread has left `mg_mgr_free` when `MultiThreadStart` returns. -/
theorem Server.MayClose.not_returned {serial : Nat} {leftover : Option Mongoose.HttpMessage}
    (may : s.MayClose serial leftover) : s.stage ≠ .returned := by
  rcases may with ⟨polling, -⟩ | ⟨freeing, -⟩
  · exact polling.not_returned
  · rw [freeing]
    decide

/-- A step keeps the end quiet when it does not return too early. -/
theorem quiet_step (quiet : Quiet s) (early : QuietReturn s action)
    (taken : step capacity s action = some next) : Quiet next := by
  cases step_sound taken with
  | accept polling => exact ⟨quiet.unused, fun stage => absurd stage polling.not_returned⟩
  | request polling => exact ⟨quiet.unused, fun stage => absurd stage polling.not_returned⟩
  | write | signal => exact ⟨quiet.unused, quiet.done⟩
  | @close serial leftover c may =>
    cases leftover <;>
      exact ⟨quiet.unused, fun stage => absurd stage may.not_returned⟩
  | handleCtl polling => exact ⟨quiet.unused, fun stage => absurd stage polling.not_returned⟩
  | advance may =>
    refine ⟨quiet.unused, fun stage => ?_⟩
    -- Only closing `sock[1]` comes before the return.
    have last : s.stage = .closed1 := by
      cases place : s.stage <;> simp_all [Server.MayAdvance, Stage.next]
    exact early rfl last
  | @test i top =>
    apply quiet.setWorker i
    split <;> rfl
  | read reading queued opened =>
    refine ⟨quiet.unused, fun stage => ?_⟩
    have returned : s.stage = .returned := stage
    rw [returned] at opened
    contradiction
  | @readFail i reading fails => exact quiet.setWorker i rfl
  | @sleep i record seconds holding short =>
    refine ⟨quiet.unused, fun stage => ?_⟩
    have busy := quiet.done stage i
    rw [holding] at busy
    contradiction
  | @broadcast i record seconds sleeping =>
    have running : s.stage ≠ .returned := by
      intro stage
      have busy := quiet.done stage i
      rw [sleeping] at busy
      contradiction
    refine ⟨?_, fun returned => absurd returned running⟩
    change (s.usedAfterReturn || decide (s.stage = Stage.returned)) = false
    rw [quiet.unused, Bool.false_or, decide_eq_false running]
  | @sendCtl i record seconds calling =>
    have moved : Quiet (s.setWorker i
        (if s.stage.ctlOpen then .broadcasting record seconds else .top)) := by
      apply quiet.setWorker i
      split <;> rfl
    exact ⟨moved.unused, moved.done⟩
  | @unblock i record seconds broadcasting closed => exact quiet.setWorker i rfl

/-- No worker uses the manager too late in a run in which the return is quiet. -/
theorem quiet_run (along : Along (step capacity) QuietReturn start actions)
    (reached : Reaches capacity actions s) : Quiet s :=
  run_invariant_along (fun _ _ _ => quiet_step) ⟨rfl, fun stage => by contradiction⟩ along reached

/-- A worker that is on the way to `mg_broadcast` calls it, whatever stage the IO thread is in. -/
theorem lateUse_of_owes {i : Fin numWorkerThreads} (stage : s.stage = .returned)
    (owes : (s.workers i).owesBroadcast = true) :
    ∃ more final, (∀ action ∈ more, action.ofWorker = true) ∧
      run (step capacity) s more = some final ∧ final.usedAfterReturn = true := by
  have late : ∀ (state : Server) (record : Dispatch) (seconds : Nat),
      state.stage = .returned → (mgBroadcast state i record seconds).usedAfterReturn = true := by
    intro state record seconds returned
    change (state.usedAfterReturn || decide (state.stage = Stage.returned)) = true
    rw [decide_eq_true returned, Bool.or_true]
  cases place : s.workers i with
  | holding record =>
    have slept : step capacity s (.sleep i 0) =
        some (s.setWorker i (.sleeping record 0)) := by
      simp only [step, place]
      rfl
    have called : step capacity (s.setWorker i (.sleeping record 0)) (.broadcast i) =
        some (mgBroadcast (s.setWorker i (.sleeping record 0)) i record 0) := by
      simp only [step, setWorker_self]
    refine ⟨[.sleep i 0, .broadcast i], _, ?_,
      run_cons_iff.mpr ⟨_, slept, run_cons_iff.mpr ⟨_, called, rfl⟩⟩, late _ _ _ stage⟩
    simp [Action.ofWorker]
  | sleeping record seconds =>
    have called : step capacity s (.broadcast i) = some (mgBroadcast s i record seconds) := by
      simp only [step, place]
    refine ⟨[.broadcast i], _, ?_, run_cons_iff.mpr ⟨_, called, rfl⟩, late _ _ _ stage⟩
    simp [Action.ofWorker]
  | top | reading | calling | broadcasting | exited | faulted =>
    rw [place] at owes
    contradiction

/-- At no moment of a run, and whatever the workers do next, has a worker called `mg_broadcast`
after `MultiThreadStart` returned, exactly when it returns while no worker has yet to call it. -/
theorem lateUse_iff (reached : Reaches capacity actions s) :
    Along (step capacity) QuietReturn start actions ↔
      ∀ before after more final, actions = before ++ after →
        (∀ action ∈ more, action.ofWorker = true) →
        Reaches capacity (before ++ more) final → final.usedAfterReturn = false := by
  constructor
  · rintro along before after more final rfl ofWorker ran
    refine (quiet_run (along_append.mpr ⟨(along_append.mp along).1, ?_⟩) ran).unused
    intro middle _
    refine along_of_forall ?_ middle
    rintro action member state rfl
    have worker := ofWorker _ member
    contradiction
  · intro unused
    rw [along_iff]
    rintro before _ after middle rfl earlier rfl stage i
    by_contra owes
    obtain ⟨between, first, later⟩ := run_append_iff.mp reached
    obtain rfl := Option.some.inj (earlier.symm.trans first)
    obtain ⟨next, taken, -⟩ := run_cons_iff.mp later
    have returned : next.stage = .returned ∧ next.workers = middle.workers := by
      cases step_sound taken with
      | advance may => exact ⟨by rw [stage]; rfl, rfl⟩
    obtain ⟨more, final, ofWorker, ran, used⟩ :=
      @lateUse_of_owes capacity next i returned.1 (by simpa [returned.2] using owes)
    have clear := unused (before ++ [.advance]) after more final (by simp) ofWorker
      (run_append_iff.mpr ⟨next, (run_concat .advance earlier).trans taken, ran⟩)
    rw [clear] at used
    contradiction

/-- A worker holds a record when the signal arrives, and `MultiThreadStart` returns. -/
def lateWorker : List Action :=
  [.accept, .request 1 getRequest, .write, .test 0, .read 0, .signal, .advance, .advance,
    .close 1 none, .close 0 none, .advance, .advance, .advance, .advance]

/-- The state after `lateWorker`. -/
def lateWorkerState : Server := (run (step 1) start lateWorker).getD start

/-- The worker then goes to sleep, wakes up and calls `mg_broadcast` on the manager. -/
def lateBroadcast : List Action := lateWorker ++ [.sleep 0 3, .broadcast 0]

/-- The state after `lateBroadcast`. -/
def lateBroadcastState : Server := (run (step 1) start lateBroadcast).getD start

/-- The manager is used after `MultiThreadStart` has returned. -/
theorem lateBroadcast_used : Reaches 1 lateBroadcast lateBroadcastState ∧
    lateBroadcastState.stage = .returned ∧ lateBroadcastState.usedAfterReturn = true :=
  ⟨rfl, rfl, rfl⟩

/-- The hypothesis of `lateUse_iff` holds of `lateWorker`, which does not return quietly. -/
theorem lateWorker_early : ¬Along (step 1) QuietReturn start lateWorker := by
  intro along
  have unused := (lateUse_iff (rfl : Reaches 1 lateWorker lateWorkerState)).mp along lateWorker []
    [.sleep 0 3, .broadcast 0] lateBroadcastState (by simp) (by simp [Action.ofWorker]) rfl
  have used := lateBroadcast_used.2.2
  rw [unused] at used
  contradiction

end CppCode.MultiThread
