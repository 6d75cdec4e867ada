import CppCode.Library.Pool
import CppCode.MultiThread.Steps

/-!
# The cycle between `ev_handler` and `mg_broadcast`

The IO thread waits in `sendto` for a worker to read, and a worker waits in `mg_broadcast` for
the IO thread to be back in `mg_mgr_poll`. The server is stuck for good once the channel is full
and all workers wait. Whether it gets there is decided when a request is handed to
`ev_handler`: the record can still be written only while fewer than `capacity + 5` earlier
records are on the channel or with a worker. `deadlockFree_iff` says that a run stays clear of
the deadlock, whatever its workers do next, exactly when all its requests come in that room.
-/

namespace CppCode.MultiThread

open Library

variable {capacity : Nat} {s next : Server} {action : Action} {actions : List Action}

/-- Whether a worker is busy with a record, as a number. -/
def Worker.load (worker : Worker) : Nat := if worker.dispatch?.isSome then 1 else 0

/-- How many workers are busy with a record. -/
def Server.busy (s : Server) : Nat := poolSum Worker.load s.workers

/-- The records that are on the channel or with a worker. -/
def Server.outstanding (s : Server) : Nat := s.channel.length + s.busy

/-- A worker is blocked in `mg_broadcast`. -/
def Worker.isBroadcasting : Worker → Bool
  | .broadcasting _ _ => true
  | _ => false

/-- The IO thread is blocked in the `sendto` of `ev_handler` and all workers in
`mg_broadcast`. -/
def Deadlocked (capacity : Nat) (s : Server) : Prop :=
  s.sending.isSome = true ∧ capacity ≤ s.channel.length ∧
    ∀ i, (s.workers i).isBroadcasting = true

instance : Decidable (Deadlocked capacity s) :=
  inferInstanceAs (Decidable (_ ∧ _ ∧ _))

/-- Whether an action hands a request to `ev_handler`. -/
def Action.hands : Action → Bool
  | .request _ _ | .close _ (some _) => true
  | _ => false

/-- A request is handed over only while its record can still be written: the channel and the
workers have room for it. -/
def Roomy (capacity : Nat) (s : Server) (action : Action) : Prop :=
  action.hands = true → s.outstanding < capacity + numWorkerThreads

/-! ## Counting records -/

/-- A worker has at most one record. -/
theorem Worker.load_le (worker : Worker) : worker.load ≤ 1 := by
  unfold Worker.load
  split <;> omega

/-- There are no more busy workers than workers. -/
theorem busy_le : s.busy ≤ numWorkerThreads := by
  calc
    s.busy ≤ Fintype.card (Fin numWorkerThreads) := pool_count_le Worker.load_le s.workers
    _ = numWorkerThreads := Fintype.card_fin _

/-- All workers are busy exactly when their number is that of the workers. -/
theorem busy_full : s.busy = numWorkerThreads ↔ ∀ i, (s.workers i).dispatch?.isSome = true := by
  have full := pool_count_full Worker.load_le s.workers
  rw [Fintype.card_fin] at full
  refine full.trans (forall_congr' fun i => ?_)
  simp only [Worker.load, ite_eq_left_iff, zero_ne_one, imp_false, not_not]

/-- Moving a worker exchanges its load. -/
theorem busy_setWorker (i : Fin numWorkerThreads) (worker : Worker) :
    (s.setWorker i worker).busy + (s.workers i).load = s.busy + worker.load :=
  pool_move Worker.load s.workers i worker

/-- A worker that is busy with a record goes on with no more than that. -/
theorem busy_le_setWorker {i : Fin numWorkerThreads} (loaded : (s.workers i).load = 1)
    (worker : Worker) : (s.setWorker i worker).busy ≤ s.busy := by
  have moved := @busy_setWorker s i worker
  have most := worker.load_le
  omega

/-! ## Room is enough -/

/-- While `sendto` is in progress, fewer than `capacity + 5` records are outstanding. -/
def Writable (capacity : Nat) (s : Server) : Prop :=
  s.sending.isSome = true → s.outstanding < capacity + numWorkerThreads

/-- A step that hands over no request and does not let the IO thread continue adds no record. -/
theorem outstanding_step (taken : step capacity s action = some next)
    (sends : s.sending.isSome = true) (continues : next.sending.isSome = true) :
    next.outstanding ≤ s.outstanding := by
  have callback : ¬s.Polling := by
    rintro ⟨-, idle⟩
    rw [Option.isNone_iff_eq_none.mp idle] at sends
    contradiction
  cases step_sound taken with
  | accept polling => exact absurd polling callback
  | request polling => exact absurd polling callback
  | handleCtl polling => exact absurd polling callback
  | write => contradiction
  | close may =>
    rcases may with ⟨polling, -⟩ | ⟨-, idle, -⟩
    · exact absurd polling callback
    · rw [Option.isNone_iff_eq_none.mp idle] at sends
      contradiction
  | signal => exact le_refl _
  | advance may => exact le_refl _
  | @test i top =>
    have moved := @busy_setWorker s i (if s.signalled then .exited else .reading)
    have : Worker.load (if s.signalled then .exited else .reading) = 0 := by split <;> rfl
    simp only [Server.outstanding, setWorker_channel]
    omega
  | @read i record rest reading queued =>
    have moved := @busy_setWorker s i (.holding record)
    have before : (s.workers i).load = 0 := by rw [reading]; rfl
    have after : (Worker.holding record).load = 1 := rfl
    have shorter : s.channel.length = rest.length + 1 := by rw [queued]; rfl
    change rest.length + (s.setWorker i (.holding record)).busy ≤ s.channel.length + s.busy
    omega
  | @readFail i =>
    have moved := @busy_setWorker s i .faulted
    have : Worker.faulted.load = 0 := rfl
    simp only [Server.outstanding, setWorker_channel]
    omega
  | sleep place | broadcast place | sendCtl place =>
    exact Nat.add_le_add_left (busy_le_setWorker (by rw [place]; rfl) _) _
  | @unblock i =>
    have moved := @busy_setWorker s i .top
    have : Worker.top.load = 0 := rfl
    simp only [Server.outstanding, setWorker_channel]
    omega

/-- Only an action that hands over a request makes the IO thread send. -/
theorem sending_of_hands (taken : step capacity s action = some next)
    (sends : next.sending.isSome = true) : s.sending.isSome = true ∨
      (action.hands = true ∧ next.outstanding = s.outstanding) := by
  cases step_sound taken with
  | request => exact .inr ⟨rfl, rfl⟩
  | @close serial leftover c =>
    cases leftover with
    | none => exact .inl sends
    | some message => exact .inr ⟨rfl, rfl⟩
  | write => contradiction
  | _ => exact .inl sends

/-- A step with room keeps the record being sent writable. -/
theorem writable_step (writable : Writable capacity s) (roomy : Roomy capacity s action)
    (taken : step capacity s action = some next) : Writable capacity next := by
  intro sends
  rcases sending_of_hands taken sends with before | ⟨hands, same⟩
  · exact lt_of_le_of_lt (outstanding_step taken before sends) (writable before)
  · rw [same]
    exact roomy hands

/-- In a deadlock, the channel and the workers are full. -/
theorem outstanding_of_deadlocked (stuck : Deadlocked capacity s) :
    capacity + numWorkerThreads ≤ s.outstanding := by
  obtain ⟨-, full, waiting⟩ := stuck
  have busy : s.busy = numWorkerThreads := busy_full.mpr fun i => by
    have blocked := waiting i
    cases place : s.workers i with
    | broadcasting => rfl
    | _ =>
      rw [place] at blocked
      contradiction
  unfold Server.outstanding
  omega

/-- A run whose requests all come in room reaches no deadlock. -/
theorem not_deadlocked_of_roomy (reached : Reaches capacity actions s)
    (along : Along (step capacity) (Roomy capacity) start actions) :
    ¬Deadlocked capacity s := by
  have writable : Writable capacity s :=
    run_invariant_along (fun _ _ _ => writable_step) (by intro sends; contradiction) along reached
  intro stuck
  have room := writable stuck.1
  have full := outstanding_of_deadlocked stuck
  omega

/-! ## Room is necessary -/

/-- The channel never holds more than its capacity. -/
theorem channel_run (reached : Reaches capacity actions s) : s.channel.length ≤ capacity := by
  let bounded : Server → Prop := fun state => state.channel.length ≤ capacity
  refine @run_invariant _ _ _ bounded ?_ start _ _ (Nat.zero_le capacity) reached
  intro state taken after bounded stepped
  change after.channel.length ≤ capacity
  change state.channel.length ≤ capacity at bounded
  cases step_sound stepped with
  | write sends room =>
    simp only [List.length_append, List.length_singleton]
    omega
  | read reading queued =>
    rw [queued] at bounded
    exact le_trans (Nat.le_succ _) bounded
  | close =>
    obtain ⟨-, -, -, channel, -⟩ := @closeConn_frame state ..
    rwa [channel]
  | _ => exact bounded

/-- Before any signal the IO thread is in its loop. -/
theorem loop_run (reached : Reaches capacity actions s) (unsignalled : .signal ∉ actions) :
    s.stage = .loop ∧ s.signalled = false := by
  have quiet : Along (step capacity) (fun _ action => action ≠ .signal) start actions := by
    rw [along_iff]
    rintro before action after middle rfl - rfl
    exact unsignalled (by simp)
  let running : Server → Prop := fun state => state.stage = .loop ∧ state.signalled = false
  refine @run_invariant_along _ _ _ running _ ?_ _ _ _ ⟨rfl, rfl⟩ quiet reached
  rintro state taken after ⟨looping, silent⟩ other stepped
  cases step_sound stepped with
  | signal => contradiction
  | advance may =>
    obtain ⟨-, leaves⟩ := may
    rw [looping] at leaves
    rw [silent] at leaves
    contradiction
  | close =>
    obtain ⟨-, -, -, -, -, -, -, stage, signalled⟩ := @closeConn_frame state ..
    exact ⟨stage.trans looping, signalled.trans silent⟩
  | _ => exact ⟨looping, silent⟩

/-- The steps that take a busy worker to the wait in `mg_broadcast`. -/
def Worker.finish (i : Fin numWorkerThreads) : Worker → List Action
  | .holding _ => [.sleep i 0, .broadcast i, .sendCtl i]
  | .sleeping _ _ => [.broadcast i, .sendCtl i]
  | .calling _ _ => [.sendCtl i]
  | _ => []

/-- What the steps of one worker leave as it was. -/
structure SameElsewhere (i : Fin numWorkerThreads) (s next : Server) : Prop where
  /-- The IO thread is where it was. -/
  stage : next.stage = s.stage
  /-- It sends the same record. -/
  sending : next.sending = s.sending
  /-- The channel holds the same records. -/
  channel : next.channel = s.channel
  /-- The other workers have not moved. -/
  workers : ∀ j, j ≠ i → next.workers j = s.workers j

/-- What the steps of one worker leave, more steps of it leave. -/
theorem SameElsewhere.trans {i : Fin numWorkerThreads} {middle : Server}
    (first : SameElsewhere i s middle) (second : SameElsewhere i middle next) :
    SameElsewhere i s next where
  stage := second.stage.trans first.stage
  sending := second.sending.trans first.sending
  channel := second.channel.trans first.channel
  workers j other := (second.workers j other).trans (first.workers j other)

/-- A worker in `mg_broadcast` is blocked by its send while the control sockets are open. -/
theorem send_blocks (opened : s.stage.ctlOpen = true) {i : Fin numWorkerThreads}
    {record : Dispatch} {seconds : Nat} (calling : s.workers i = .calling record seconds) :
    ∃ next, run (step capacity) s [.sendCtl i] = some next ∧ SameElsewhere i s next ∧
      (next.workers i).isBroadcasting = true := by
  have sent : step capacity s (.sendCtl i) = some (mgSendFunc s i record seconds) := by
    simp only [step, calling]
  refine ⟨_, run_cons_iff.mpr ⟨_, sent, rfl⟩,
    ⟨rfl, rfl, rfl, fun j other => setWorker_of_ne _ other⟩, ?_⟩
  simp [mgSendFunc, opened, Server.setWorker, Worker.isBroadcasting]

/-- A waking worker is blocked in `mg_broadcast` while the control sockets are open. -/
theorem broadcast_blocks (opened : s.stage.ctlOpen = true) {i : Fin numWorkerThreads}
    {record : Dispatch} {seconds : Nat} (sleeping : s.workers i = .sleeping record seconds) :
    ∃ next, run (step capacity) s [.broadcast i, .sendCtl i] = some next ∧
      SameElsewhere i s next ∧ (next.workers i).isBroadcasting = true := by
  have called : step capacity s (.broadcast i) = some (mgBroadcast s i record seconds) := by
    simp only [step, sleeping]
  have calling : (mgBroadcast s i record seconds).workers i = .calling record seconds := by
    simp [mgBroadcast, opened, Server.setWorker]
  obtain ⟨next, sent, same, blocked⟩ :=
    @send_blocks capacity (mgBroadcast s i record seconds) opened _ _ _ calling
  have first : SameElsewhere i s (mgBroadcast s i record seconds) :=
    ⟨rfl, rfl, rfl, fun j other => setWorker_of_ne _ other⟩
  exact ⟨next, run_cons_iff.mpr ⟨_, called, sent⟩, first.trans same, blocked⟩

/-- A busy worker comes to wait in `mg_broadcast` on its own. -/
theorem finish_run (opened : s.stage.ctlOpen = true) {i : Fin numWorkerThreads}
    (busy : (s.workers i).dispatch?.isSome = true) :
    ∃ next, run (step capacity) s ((s.workers i).finish i) = some next ∧
      SameElsewhere i s next ∧ (next.workers i).isBroadcasting = true := by
  cases place : s.workers i with
  | holding record =>
    let asleep := s.setWorker i (.sleeping record 0)
    have slept : step capacity s (.sleep i 0) = some asleep := by
      simp only [step, place]
      rfl
    have first : SameElsewhere i s asleep :=
      ⟨rfl, rfl, rfl, fun j other => setWorker_of_ne _ other⟩
    obtain ⟨next, reached, same, blocked⟩ :=
      @broadcast_blocks capacity asleep opened _ _ _ (setWorker_self i _)
    exact ⟨next, run_cons_iff.mpr ⟨asleep, slept, reached⟩, first.trans same, blocked⟩
  | sleeping record seconds => exact broadcast_blocks opened place
  | calling record seconds => exact send_blocks opened place
  | broadcasting record seconds =>
    exact ⟨s, rfl, ⟨rfl, rfl, rfl, fun _ _ => rfl⟩, by rw [place]; rfl⟩
  | top | reading | exited | faulted =>
    rw [place] at busy
    contradiction

/-- When all workers are busy, the steps of the workers lead to a state in which any chosen ones
are blocked in `mg_broadcast`, and the IO thread and the channel are as before. -/
theorem drain_run (chosen : List (Fin numWorkerThreads)) (opened : s.stage.ctlOpen = true)
    (busy : ∀ i, (s.workers i).dispatch?.isSome = true) :
    ∃ more next, (∀ action ∈ more, action.ofWorker = true) ∧
      run (step capacity) s more = some next ∧ next.stage = s.stage ∧
      next.sending = s.sending ∧ next.channel = s.channel ∧
      (∀ i, (next.workers i).dispatch?.isSome = true) ∧
      ∀ i ∈ chosen, (next.workers i).isBroadcasting = true := by
  induction chosen with
  | nil => exact ⟨[], s, by simp, rfl, rfl, rfl, rfl, busy, by simp⟩
  | cons i rest ih =>
    obtain ⟨more, middle, ofWorker, reached, stage, sending, channel, occupied, blocked⟩ := ih
    obtain ⟨next, finished, same, waiting⟩ :=
      @finish_run capacity middle (by rw [stage]; exact opened) _ (occupied i)
    have mine : ∀ action ∈ (middle.workers i).finish i, action.ofWorker = true := by
      cases middle.workers i <;> simp [Worker.finish, Action.ofWorker]
    refine ⟨more ++ (middle.workers i).finish i, next, ?_, run_append_iff.mpr
      ⟨middle, reached, finished⟩, same.stage.trans stage, same.sending.trans sending,
      same.channel.trans channel, ?_, ?_⟩
    · intro action member
      exact (List.mem_append.mp member).elim (ofWorker action) (mine action)
    · intro j
      by_cases here : j = i
      · subst here
        cases place : next.workers j with
        | broadcasting => rfl
        | _ =>
          rw [place] at waiting
          contradiction
      · rw [same.workers j here]
        exact occupied j
    · intro j member
      by_cases here : j = i
      · exact here ▸ waiting
      · rw [same.workers j here]
        exact blocked j ((List.mem_cons.mp member).resolve_left here)

/-- A request that is handed over without room leads to the deadlock by steps of the workers
alone. -/
theorem deadlock_of_not_roomy (reached : Reaches capacity actions s)
    (unsignalled : .signal ∉ actions) (taken : step capacity s action = some next)
    (crowded : ¬Roomy capacity s action) :
    ∃ more final, (∀ action ∈ more, action.ofWorker = true) ∧
      run (step capacity) next more = some final ∧ Deadlocked capacity final := by
  obtain ⟨hands, full⟩ := Classical.not_imp.mp crowded
  have bounded := channel_run reached
  have most := @busy_le s
  have frame : next.sending.isSome = true ∧ next.channel = s.channel ∧
      next.workers = s.workers ∧ next.stage = s.stage := by
    cases step_sound taken with
    | request => exact ⟨rfl, rfl, rfl, rfl⟩
    | @close serial leftover c =>
      cases leftover with
      | none => contradiction
      | some message => exact ⟨rfl, rfl, rfl, rfl⟩
    | _ => contradiction
  obtain ⟨sends, channel, workers, stage⟩ := frame
  unfold Server.outstanding at full
  have occupied : ∀ i, (next.workers i).dispatch?.isSome = true := by
    rw [workers]
    exact busy_full.mp (by omega)
  have opened : next.stage.ctlOpen = true := by
    rw [stage, (loop_run reached unsignalled).1]
    rfl
  obtain ⟨more, final, ofWorker, ran, -, sending, queue, -, blocked⟩ :=
    @drain_run capacity next (List.finRange numWorkerThreads) opened occupied
  refine ⟨more, final, ofWorker, ran, by rw [sending]; exact sends, ?_, ?_⟩
  · rw [queue, channel]
    omega
  · exact fun i => blocked i (List.mem_finRange i)

/-- A run without a signal stays clear of the deadlock, at every moment and whatever the workers
do next, exactly when each of its requests is handed to `ev_handler` while fewer than
`capacity + 5` earlier records are on the channel or with a worker. -/
theorem deadlockFree_iff (reached : Reaches capacity actions s) (unsignalled : .signal ∉ actions) :
    Along (step capacity) (Roomy capacity) start actions ↔
      ∀ before after more final, actions = before ++ after →
        (∀ action ∈ more, action.ofWorker = true) →
        Reaches capacity (before ++ more) final → ¬Deadlocked capacity final := by
  constructor
  · rintro along before after more final rfl ofWorker ran
    refine not_deadlocked_of_roomy ran (along_append.mpr ⟨(along_append.mp along).1, ?_⟩)
    intro middle _
    refine along_of_forall ?_ middle
    intro action member state hands
    have worker := ofWorker action member
    cases action <;> contradiction
  · intro clear
    rw [along_iff]
    rintro before action after middle rfl earlier
    by_contra crowded
    obtain ⟨between, first, later⟩ := run_append_iff.mp reached
    obtain rfl := Option.some.inj (earlier.symm.trans first)
    obtain ⟨next, taken, -⟩ := run_cons_iff.mp later
    have quiet : .signal ∉ before := fun member => unsignalled (List.mem_append_left _ member)
    obtain ⟨more, final, ofWorker, ran, stuck⟩ :=
      deadlock_of_not_roomy earlier quiet taken crowded
    refine clear (before ++ [action]) after more final (by simp) ofWorker ?_ stuck
    exact run_append_iff.mpr ⟨next, (run_concat action earlier).trans taken, ran⟩

/-- Nothing but the arrival of a signal can happen in a deadlock, and the server stays in it. -/
theorem deadlocked_final (stuck : Deadlocked capacity s) (opened : s.stage.ctlOpen = true)
    (taken : step capacity s action = some next) :
    action = .signal ∧ Deadlocked capacity next ∧ next.stage = s.stage := by
  obtain ⟨sends, full, waiting⟩ := stuck
  have callback : ¬s.sending.isNone = true := by
    cases place : s.sending <;> simp_all
  have blocked : ∀ i worker, s.workers i = worker → worker.isBroadcasting = true := by
    rintro i worker rfl
    exact waiting i
  cases step_sound taken with
  | signal => exact ⟨rfl, ⟨sends, full, waiting⟩, rfl⟩
  | accept polling | request polling | handleCtl polling => exact absurd polling.2 callback
  | write _ room => omega
  | close may =>
    rcases may with ⟨polling, -⟩ | ⟨-, idle, -⟩
    · exact absurd polling.2 callback
    · exact absurd idle callback
  | advance may => exact absurd may.1 callback
  | test place | read place | readFail place | sleep place | broadcast place | sendCtl place =>
    exact absurd (blocked _ _ place) (by simp [Worker.isBroadcasting])
  | unblock _ closed =>
    rw [closed] at opened
    contradiction

/-- One client sends seven requests at once over a channel of one record: five are read by the
workers, one is on the channel, and the last is being sent while the workers wake up and send
their results. -/
def burst : List Action :=
  .accept :: (List.finRange numWorkerThreads).flatMap (fun i =>
      [.request 1 getRequest, .write, .test i, .read i, .sleep i 0]) ++
    [.request 1 getRequest, .write, .request 1 getRequest] ++
    (List.finRange numWorkerThreads).flatMap fun i => [.broadcast i, .sendCtl i]

/-- The state after the burst. -/
def burstState : Server := (run (step 1) start burst).getD start

theorem burst_unsignalled : .signal ∉ burst := by
  simp [burst]

theorem burstState_deadlocked : Deadlocked 1 burstState := by
  decide

/-- The burst runs into the deadlock before any signal. -/
theorem burst_deadlocks :
    .signal ∉ burst ∧ Reaches 1 burst burstState ∧ Deadlocked 1 burstState :=
  ⟨burst_unsignalled, rfl, burstState_deadlocked⟩

/-- The hypotheses of `deadlockFree_iff` hold of the burst, whose last request has no room. -/
theorem burst_crowded : ¬Along (step 1) (Roomy 1) start burst := by
  intro along
  exact (deadlockFree_iff (rfl : Reaches 1 burst burstState) burst_unsignalled).mp along burst []
    [] burstState (by simp) (by simp) rfl burstState_deadlocked

end CppCode.MultiThread
