import CppCode.Library.Words
import CppCode.MultiThread.Stream

/-!
# The request channel in its two builds

`ev_handler` and `worker_thread_proc` stage a record differently under `#ifdef _WIN32` and
elsewhere: the Windows build sends a block of 4096 bytes and receives it in `recvBuf`, the POSIX
build writes the record itself and reads it into `req`. The `memcpy` from `recvBuf` to `req` stands
behind the `#endif`, so it belongs to both builds, and in the POSIX build it replaces the record
that was just read by the zeros of `recvBuf`. Every write and every read transfers a whole record
here. `platforms_iff` says in which runs the workers hold the records that `ev_handler` sent.
-/

namespace CppCode.MultiThread.Platforms

open Library Mongoose MultiThread.Stream

variable {layout : Layout}

/-- The two branches of `#ifdef _WIN32`. -/
inductive Build
  /-- The Windows build. -/
  | windows
  /-- The POSIX build. -/
  | posix
  deriving DecidableEq

/-- Where the members of a `struct work_request` are on a target. -/
structure Members (layout : Layout) where
  /-- `sizeof(unsigned long)`, the size of `conn_id`. -/
  connIdSize : Nat
  /-- Offset of `message`, which is the last member. -/
  messageAt : Nat
  /-- `conn_id` is in front of `message`. -/
  ordered : connIdSize ≤ messageAt

/-- A 32-bit target, with Windows or without. -/
def ilp32 : Members win32 := ⟨4, 4, by decide⟩

/-- `conn_id` of a record, on a little-endian target. -/
def Members.connId (members : Members layout) (record : Record layout) : Nat :=
  leValue (record.bytes.take members.connIdSize)

/-- `message` of a record, the bytes of its `struct http_message`. -/
def Members.message (members : Members layout) (record : Record layout) : Bytes :=
  record.bytes.drop members.messageAt

/-- The bytes of an object after a read stores what it received at its front. -/
def store (object received : Bytes) : Bytes :=
  (received ++ object.drop received.length).take object.length

/-- Storing keeps the size of an object. -/
theorem length_store (object received : Bytes) :
    (store object received).length = object.length := by
  simp only [store, List.length_take, List.length_append, List.length_drop]
  omega

/-- The locals `req` and `recvBuf` of `worker_thread_proc`. -/
structure Locals (layout : Layout) where
  /-- `req`. -/
  req : Record layout
  /-- `recvBuf`. -/
  recvBuf : Bytes
  /-- `recvBuf` is an array of 4096 bytes. -/
  sized : recvBuf.length = blockSize

/-- The locals after the two calls of `memset`. -/
def zeroed (layout : Layout) : Locals layout where
  req := ⟨List.replicate layout.size 0, by simp⟩
  recvBuf := List.replicate blockSize 0
  sized := by simp

/-- The write of `ev_handler`: the whole `sendBuf`, or the record. -/
def evHandlerWrite (build : Build) (req : Record layout) : Bytes :=
  match build with
  | .windows => sendBuf req
  | .posix => req.bytes

/-- The read inside the `#ifdef` of `worker_thread_proc`. -/
def readSock (build : Build) (received : Bytes) (locals : Locals layout) : Locals layout :=
  match build with
  | .windows => { locals with
      recvBuf := store locals.recvBuf received
      sized := (length_store _ _).trans locals.sized }
  | .posix => { locals with
      req := ⟨store locals.req.bytes received, (length_store _ _).trans locals.req.sized⟩ }

/-- The `memcpy` behind the `#endif`. -/
def copyRecvBuf (locals : Locals layout) : Locals layout :=
  { locals with req := memcpyRequest layout locals.recvBuf }

/-- `req` of a worker that has received the bytes of one write. -/
def workerRequest (build : Build) (received : Bytes) : Record layout :=
  (copyRecvBuf (readSock build received (zeroed layout))).req

/-- Where a worker is in its loop, with the record that `ev_handler` sent and the `req` that the
worker holds for it. -/
inductive Worker (layout : Layout)
  /-- At the read. -/
  | reading
  /-- Printing `req`. -/
  | holding (given req : Record layout)
  /-- Asleep before the broadcast. -/
  | asleep (given req : Record layout)
  /-- In `mg_broadcast`. -/
  | waiting

/-- The record that a worker was sent, and its `req`. -/
def Worker.held : Worker layout → Option (Record layout × Record layout)
  | .holding given req | .asleep given req => some (given, req)
  | .reading | .waiting => none

/-- The channel and the workers. -/
structure State (layout : Layout) where
  /-- The records in `sock`, oldest first, with the bytes that were written for each. -/
  channel : List (Record layout × Bytes)
  /-- The workers. -/
  workers : Fin numWorkerThreads → Worker layout
  /-- `conn_id` of each `work_result` that was broadcast, with the record that was sent for it. -/
  results : List (Record layout × Nat)
  /-- The process has ended in a worker. -/
  crashed : Bool

/-- Nothing sent, and all workers reading. -/
def start (layout : Layout) : State layout := ⟨[], fun _ => .reading, [], false⟩

/-- One step of the IO thread or of a worker. -/
inductive Action (layout : Layout)
  /-- `ev_handler` sends a record. -/
  | send (req : Record layout)
  /-- A worker reads the next record. -/
  | read (i : Fin numWorkerThreads)
  /-- A worker constructs and prints the strings of its `req`. -/
  | print (i : Fin numWorkerThreads)
  /-- A worker dereferences a `NULL` or dangling pointer of its `req`. -/
  | fault (i : Fin numWorkerThreads)
  /-- A worker broadcasts its result. -/
  | broadcast (i : Fin numWorkerThreads)
  /-- The IO thread has handled the broadcast of a worker. -/
  | handled (i : Fin numWorkerThreads)

/-- Move one worker. -/
def State.setWorker (s : State layout) (i : Fin numWorkerThreads) (worker : Worker layout) :
    State layout :=
  { s with workers := Function.update s.workers i worker }

/-- The effect of an action in a build, `none` when it is not enabled. -/
def step (build : Build) (members : Members layout) (s : State layout) (action : Action layout) :
    Option (State layout) :=
  if s.crashed then none
  else
    match action with
    | .send req => some { s with channel := s.channel ++ [(req, evHandlerWrite build req)] }
    | .read i =>
      match s.workers i, s.channel with
      | .reading, (given, received) :: rest =>
        some { s.setWorker i (.holding given (workerRequest build received)) with channel := rest }
      | _, _ => none
    | .print i =>
      match s.workers i with
      | .holding given req =>
        if req.isNull layout.uriP ∨ req.isNull layout.methodP then none
        else some (s.setWorker i (.asleep given req))
      | _ => none
    | .fault i =>
      match s.workers i with
      | .holding _ _ => some { s with crashed := true }
      | _ => none
    | .broadcast i =>
      match s.workers i with
      | .asleep given req =>
        some { s.setWorker i .waiting with results := s.results ++ [(given, members.connId req)] }
      | _ => none
    | .handled i =>
      match s.workers i with
      | .waiting => some (s.setWorker i .reading)
      | _ => none

/-- Two records have the same `conn_id` and the same `message`. -/
def Same (members : Members layout) (given req : Record layout) : Prop :=
  members.connId req = members.connId given ∧ members.message req = members.message given

/-- Every worker holds the `conn_id` and the `message` that `ev_handler` sent it, and every result
has the `conn_id` of the record that was sent for it. -/
structure Agrees (members : Members layout) (s : State layout) : Prop where
  /-- What the workers hold. -/
  held : ∀ i given req, (s.workers i).held = some (given, req) → Same members given req
  /-- What they have broadcast. -/
  results : ∀ result ∈ s.results, result.2 = members.connId result.1

/-- `conn_id` is 0 and `message` is all zeros. -/
def IsZero (members : Members layout) (record : Record layout) : Prop :=
  members.connId record = 0 ∧ ∀ byte ∈ members.message record, byte = 0

instance (members : Members layout) (record : Record layout) :
    Decidable (IsZero members record) :=
  inferInstanceAs (Decidable (_ ∧ _))

/-- A read is made in the Windows build, or it is of a record that is zero. -/
def ReadsBack (build : Build) (members : Members layout) (s : State layout) :
    Action layout → Prop
  | .read _ => build = .windows ∨ ∀ sent ∈ s.channel.head?, IsZero members sent.1
  | _ => True

instance (build : Build) (members : Members layout) (s : State layout) :
    ∀ action, Decidable (ReadsBack build members s action)
  | .read _ => inferInstanceAs (Decidable (_ ∨ ∀ sent ∈ s.channel.head?, _))
  | .send _ | .print _ | .fault _ | .broadcast _ | .handled _ => isTrue trivial

/-! ## One record -/

/-- The Windows build copies the record out of the block that it was sent in. -/
theorem workerRequest_windows (req : Record layout) :
    workerRequest .windows (evHandlerWrite .windows req) = req := by
  have length := sendBuf_length req
  have filled : store (List.replicate blockSize 0) (sendBuf req) = sendBuf req := by
    rw [store, List.drop_eq_nil_of_le (by simp [length]), List.append_nil,
      List.take_of_length_le (by simp [length])]
  have whole := memcpyRequest_sendBuf req [] layout.fits
  rw [List.append_nil, ← length, List.take_length] at whole
  simp only [workerRequest, copyRecvBuf, readSock, evHandlerWrite, zeroed, filled, whole]

/-- The POSIX build copies zeros over whatever it has read. -/
theorem workerRequest_posix (received : Bytes) :
    (workerRequest .posix received : Record layout).bytes = List.replicate layout.size 0 := by
  simp only [workerRequest, copyRecvBuf, readSock, zeroed, memcpyRequest]
  rw [List.replicate_append_replicate, List.take_replicate]
  congr 1
  omega

/-- A worker of the POSIX build holds the record that it was sent exactly when that is zero. -/
theorem same_posix_iff (members : Members layout) (given : Record layout) (received : Bytes) :
    Same members given (workerRequest .posix received) ↔ IsZero members given := by
  have zeros : (workerRequest .posix received : Record layout).bytes =
      List.replicate layout.size 0 := workerRequest_posix received
  have sized := given.sized
  have connId : members.connId (workerRequest .posix received : Record layout) = 0 := by
    rw [Members.connId, zeros, List.take_replicate, leValue_zeros]
  have message : members.message (workerRequest .posix received : Record layout) =
      List.replicate (members.message given).length 0 := by
    rw [Members.message, zeros, List.drop_replicate, Members.message, List.length_drop, sized]
  rw [Same, connId, message, IsZero, eq_comm]
  refine and_congr_right fun _ => ?_
  rw [eq_comm, List.eq_replicate_iff]
  simp

/-- A read gives a worker what `ev_handler` sent exactly when it reads back. -/
theorem same_read_iff (build : Build) (members : Members layout) (given : Record layout) :
    Same members given (workerRequest build (evHandlerWrite build given)) ↔
      build = .windows ∨ IsZero members given := by
  cases build with
  | windows => simp [workerRequest_windows, Same]
  | posix => simp [same_posix_iff]

/-! ## One step -/

/-- The bytes in the channel are those that `ev_handler` writes for its records. -/
def Sent (build : Build) (s : State layout) : Prop :=
  ∀ sent ∈ s.channel, sent.2 = evHandlerWrite build sent.1

/-- Moving a worker that then holds nothing, or what was sent to it, keeps the agreement. -/
theorem agrees_setWorker {members : Members layout} {s : State layout} (agrees : Agrees members s)
    {i : Fin numWorkerThreads} {worker : Worker layout}
    (moved : ∀ given req, worker.held = some (given, req) → Same members given req) :
    Agrees members (s.setWorker i worker) where
  held := by
    intro j given req held
    change (Function.update s.workers i worker j).held = some (given, req) at held
    by_cases same : j = i
    · obtain rfl := same
      rw [Function.update_self] at held
      exact moved given req held
    · rw [Function.update_of_ne same] at held
      exact agrees.held j given req held
  results := agrees.results

/-- What a step does to the channel, the workers and the results, without the guards that do not
matter here. -/
inductive Taken (build : Build) (members : Members layout) (s : State layout) :
    Action layout → State layout → Prop
  | send (req : Record layout) : Taken build members s (.send req)
      { s with channel := s.channel ++ [(req, evHandlerWrite build req)] }
  | read {i : Fin numWorkerThreads} {given : Record layout} {received : Bytes}
      {rest : List (Record layout × Bytes)} (queued : s.channel = (given, received) :: rest) :
      Taken build members s (.read i)
        { s.setWorker i (.holding given (workerRequest build received)) with channel := rest }
  | print {i : Fin numWorkerThreads} {given req : Record layout}
      (holding : s.workers i = .holding given req) :
      Taken build members s (.print i) (s.setWorker i (.asleep given req))
  | fault {i : Fin numWorkerThreads} : Taken build members s (.fault i) { s with crashed := true }
  | broadcast {i : Fin numWorkerThreads} {given req : Record layout}
      (asleep : s.workers i = .asleep given req) : Taken build members s (.broadcast i)
        { s.setWorker i .waiting with results := s.results ++ [(given, members.connId req)] }
  | handled {i : Fin numWorkerThreads} : Taken build members s (.handled i) (s.setWorker i .reading)

/-- The step function only takes the listed steps. -/
theorem step_taken {build : Build} {members : Members layout} {s next : State layout}
    {action : Action layout} (taken : step build members s action = some next) :
    Taken build members s action next := by
  unfold step at taken
  split at taken
  · contradiction
  · cases action with
    | send req =>
      obtain rfl := Option.some.inj taken
      exact .send req
    | read i =>
      dsimp only at taken
      split at taken
      · rename_i given received rest reading queued
        obtain rfl := Option.some.inj taken
        exact .read queued
      · contradiction
    | print i =>
      dsimp only at taken
      split at taken
      · rename_i given req holding
        simp only [Option.ite_none_left_eq_some, Option.some.injEq] at taken
        obtain ⟨-, rfl⟩ := taken
        exact .print holding
      · contradiction
    | fault i =>
      dsimp only at taken
      split at taken
      · obtain rfl := Option.some.inj taken
        exact .fault
      · contradiction
    | broadcast i =>
      dsimp only at taken
      split at taken
      · rename_i given req asleep
        obtain rfl := Option.some.inj taken
        exact .broadcast asleep
      · contradiction
    | handled i =>
      dsimp only at taken
      split at taken
      · obtain rfl := Option.some.inj taken
        exact .handled
      · contradiction

/-- A step keeps what is known of the channel. -/
theorem sent_step {build : Build} {members : Members layout} {s next : State layout}
    {action : Action layout} (sent : Sent build s)
    (taken : step build members s action = some next) : Sent build next := by
  cases step_taken taken with
  | send req =>
    intro entry inside
    rcases List.mem_append.mp inside with earlier | new
    · exact sent entry earlier
    · rw [List.mem_singleton.mp new]
  | read queued => exact fun entry inside => sent entry (queued ▸ List.mem_cons_of_mem _ inside)
  | print | fault | broadcast | handled => exact sent

/-- From a state in which the workers hold what they were sent, a step leads to such a state
exactly when it is no read or one that reads back. -/
theorem agrees_step_iff {build : Build} {members : Members layout} {s next : State layout}
    {action : Action layout} (sent : Sent build s) (agrees : Agrees members s)
    (taken : step build members s action = some next) :
    Agrees members next ↔ ReadsBack build members s action := by
  cases step_taken taken with
  | send | fault => exact iff_of_true ⟨agrees.held, agrees.results⟩ trivial
  | @read i given received rest queued =>
    have written : received = evHandlerWrite build given :=
      sent (given, received) (by rw [queued]; exact List.mem_cons_self)
    have back : ReadsBack build members s (.read i) ↔
        Same members given (workerRequest build received) := by
      rw [written, same_read_iff]
      simp [ReadsBack, queued]
    rw [back]
    constructor
    · intro after
      exact after.held i given _ (by simp [State.setWorker, Worker.held])
    · intro same
      have moved : Agrees members
          (s.setWorker i (.holding given (workerRequest build received))) :=
        agrees_setWorker agrees fun sender req held => by
          obtain ⟨rfl, rfl⟩ := Prod.mk.inj (Option.some.inj held)
          exact same
      exact ⟨moved.held, moved.results⟩
  | @print i given req holding =>
    refine iff_of_true (agrees_setWorker agrees fun sender printed held => ?_) trivial
    exact agrees.held i sender printed (by rw [holding]; exact held)
  | @broadcast i given req asleep =>
    have same : Same members given req := agrees.held i given req (by rw [asleep]; rfl)
    have moved : Agrees members (s.setWorker i .waiting) :=
      agrees_setWorker agrees fun sender held none => by simp [Worker.held] at none
    refine iff_of_true ⟨moved.held, ?_⟩ trivial
    intro result inside
    rcases List.mem_append.mp inside with earlier | new
    · exact agrees.results result earlier
    · rw [List.mem_singleton.mp new]
      exact same.1
  | handled =>
    exact iff_of_true
      (agrees_setWorker agrees fun sender held none => by simp [Worker.held] at none) trivial

/-! ## All runs -/

/-- At the start no worker holds anything. -/
theorem agrees_start (members : Members layout) : Agrees members (start layout) where
  held := by simp [start, Worker.held]
  results := by simp [start]

/-- In a run of a build, the workers hold and answer the records that `ev_handler` sent them, in
every state, exactly when each read is made in the Windows build or is of a record that is
zero. -/
theorem platforms_iff {build : Build} {members : Members layout} {actions : List (Action layout)}
    {s : State layout} (reached : run (step build members) (start layout) actions = some s) :
    Always (step build members) (Agrees members) (start layout) actions ↔
      Along (step build members) (ReadsBack build members) (start layout) actions :=
  always_iff_along (fun _ _ _ => sent_step) (fun _ _ _ => agrees_step_iff)
    (fun _ none => absurd none List.not_mem_nil) (agrees_start members) reached

/-- A client sends a request, and a worker reads its record. -/
def oneRequest : List (Action win32) := [.send (getRecord 1 4096), .read 0]

/-- The state after `oneRequest` in a build. -/
def oneRequestState (build : Build) : State win32 :=
  (run (step build ilp32) (start win32) oneRequest).getD (start win32)

/-- In the POSIX build the worker of `oneRequest` holds a record with `conn_id` 0 and no URI, and
not the one that was sent. -/
theorem oneRequest_posix :
    run (step .posix ilp32) (start win32) oneRequest = some (oneRequestState .posix) ∧
      ¬Agrees ilp32 (oneRequestState .posix) := by
  have evaluated : (run (step .posix ilp32) (start win32) oneRequest).isSome = true ∧
      ((oneRequestState .posix).workers 0).held.map (fun pair => ilp32.connId pair.2) = some 0 ∧
      ((oneRequestState .posix).workers 0).held.map (fun pair => ilp32.connId pair.1) =
        some 1 := by decide +kernel
  obtain ⟨possible, held, given⟩ := evaluated
  refine ⟨run_getD _ possible, fun agrees => ?_⟩
  obtain ⟨⟨sender, req⟩, holds, zero⟩ := Option.map_eq_some_iff.mp held
  rw [holds, Option.map_some, Option.some.injEq] at given
  have same := (agrees.held 0 sender req holds).1
  rw [given, zero] at same
  exact absurd same (by decide)

/-- In the Windows build the hypothesis of `platforms_iff` holds of `oneRequest`, and the worker
holds what it was sent. -/
theorem oneRequest_windows :
    Always (step .windows ilp32) (Agrees ilp32) (start win32) oneRequest ∧
      ((oneRequestState .windows).workers 0).held.isSome = true := by
  have evaluated : (run (step .windows ilp32) (start win32) oneRequest).isSome = true ∧
      Along (step .windows ilp32) (ReadsBack .windows ilp32) (start win32) oneRequest ∧
      ((oneRequestState .windows).workers 0).held.isSome = true := by decide +kernel
  obtain ⟨possible, along, held⟩ := evaluated
  exact ⟨(platforms_iff (run_getD (start win32) possible)).mpr along, held⟩

end CppCode.MultiThread.Platforms
