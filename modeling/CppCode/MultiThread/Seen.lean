import CppCode.MultiThread.Handover

/-!
# What a worker reads

A record is unread from the moment `ev_handler` has it to the moment its worker has printed it. The
pointers of an unread record show the URI and the method that the request had, exactly as long as
no step frees their block or writes over the two strings (`intact_iff`). The IO thread does so with
every further step on the connection: `mbuf_remove` shifts the bytes behind the message to the
front, the next segment is adopted in place of the block, and the close frees it. So the workers
read what was requested in the runs in which nothing follows a request in its buffer, and its
connection neither receives nor closes before a worker has printed it (`readsRequests_of_quiet`).
-/

namespace CppCode.MultiThread.Buffers

open Library Mongoose

variable {capacity : Nat} {platform : Platform}

/-! ## Reading a record -/

/-- The pointers of a record show the URI and the method of the request that was handed over. -/
def Sees (p : Process) (d : Dispatch) : Prop :=
  p.memory.Shows (p.handed d.number).block (strings d.request.message)
    (some (p.handed d.number).uri, some (p.handed d.number).method)

instance (p : Process) (d : Dispatch) : Decidable (Sees p d) :=
  inferInstanceAs (Decidable (Memory.Shows ..))

/-- The record that a worker is printing. -/
def printing : Worker → List Dispatch
  | .holding d => [d]
  | _ => []

/-- The records on their way to the console: being sent, in the socket pair, being printed. -/
def unread (s : Server) : List Dispatch :=
  s.sending.toList ++ s.channel ++
    (List.finRange numWorkerThreads).flatMap fun i => printing (s.workers i)

/-- Every worker that prints a record reads the URI and the method that its request had. -/
def ReadsRequests (p : Process) : Prop :=
  ∀ i, ∀ d ∈ printing (p.server.workers i), Sees p d

instance (p : Process) : Decidable (ReadsRequests p) :=
  inferInstanceAs (Decidable (∀ i, ∀ d ∈ printing (p.server.workers i), Sees p d))

/-- The pointers of every unread record show what they have to. -/
def Intact (p : Process) : Prop :=
  ∀ d ∈ unread p.server, Sees p d

/-- The block of a request is left alone by a step: the step is not on the connection whose buffer
it is, or removes the request when nothing follows it. -/
def Spares (p : Process) (block : Nat) : Action → Prop
  | .recv serial _ _ =>
    (p.receivers serial).closeImmediately = true ∨ (p.receivers serial).buf ≠ some block
  | .close serial | .frames serial _ _ => (p.receivers serial).buf ≠ some block
  | .returns =>
    match p.returning with
    | none => True
    | some (.mbufRemove serial n) =>
      (p.receivers serial).buf = some block → (p.receivers serial).len ≤ n
    | some (.destroy serial) => (p.receivers serial).buf ≠ some block
  | .other _ => True

instance (p : Process) (block : Nat) (action : Action) : Decidable (Spares p block action) := by
  cases action with
  | returns =>
    unfold Spares
    cases p.returning with
    | none => infer_instance
    | some returning => cases returning <;> infer_instance
  | _ => unfold Spares; infer_instance

/-- A step leaves the blocks of all unread records alone. -/
def Quiet (p : Process) (action : Action) : Prop :=
  ∀ d ∈ unread p.server, Spares p (p.handed d.number).block action

instance (p : Process) (action : Action) : Decidable (Quiet p action) :=
  inferInstanceAs (Decidable (∀ d ∈ unread p.server, _))

/-- What a step does to the memory. -/
def effectOf (platform : Platform) (p : Process) (action : Action) : Effect Bytes :=
  ((plan platform p action).map Move.effect).getD .keep

/-- What a step does to the memory leaves the strings of all unread records as they are. -/
def Careful (platform : Platform) (p : Process) (action : Action) : Prop :=
  ∀ d ∈ unread p.server, (effectOf platform p action).Keeps (p.handed d.number).block
    (strings d.request.message) (some (p.handed d.number).uri, some (p.handed d.number).method)

/-! ## The unread records -/

/-- Where an unread record may be. -/
theorem mem_unread {s : Server} {d : Dispatch} :
    d ∈ unread s ↔
      s.sending = some d ∨ d ∈ s.channel ∨ ∃ i, d ∈ printing (s.workers i) := by
  simp only [unread, List.mem_append, Option.mem_toList, List.mem_flatMap,
    List.mem_finRange, true_and, or_assoc]

/-- Moving a worker adds at most the record that it prints then. -/
theorem printing_setWorker {s : Server} {i j : Fin numWorkerThreads} {worker : MultiThread.Worker}
    {d : Dispatch} (member : d ∈ printing ((s.setWorker i worker).workers j)) :
    d ∈ printing worker ∨ d ∈ printing (s.workers j) := by
  by_cases same : j = i
  · subst same
    rw [setWorker_self] at member
    exact .inl member
  · rw [setWorker_of_ne worker same] at member
    exact .inr member

/-- Handing over a request adds its record, with the next number. -/
theorem unread_request {s : Server} {c : Connection} {message : HttpMessage} {d : Dispatch}
    (member : d ∈ unread (evHandlerRequest s c message)) :
    d ∈ unread s ∨ (d.number = s.dispatched ∧ d.request.message = message) := by
  rcases mem_unread.mp member with sending | queued | held
  · obtain rfl := Option.some.inj sending
    exact .inr ⟨rfl, rfl⟩
  · exact .inl (mem_unread.mpr (.inr (.inl queued)))
  · exact .inl (mem_unread.mpr (.inr (.inr held)))

/-- A step of a worker that starts no reading leaves no new record unread. -/
theorem unread_setWorker {s : Server} {i : Fin numWorkerThreads} {worker : MultiThread.Worker}
    {d : Dispatch} (empty : printing worker = []) (member : d ∈ unread (s.setWorker i worker)) :
    d ∈ unread s := by
  rcases mem_unread.mp member with sending | queued | ⟨j, held⟩
  · exact mem_unread.mpr (.inl sending)
  · exact mem_unread.mpr (.inr (.inl queued))
  · rcases printing_setWorker held with new | old
    · rw [empty] at new
      contradiction
    · exact mem_unread.mpr (.inr (.inr ⟨j, old⟩))

/-- The only record that becomes unread in a step is that of the request handed over in it. -/
theorem unread_step {s next : Server} {action : MultiThread.Action} {d : Dispatch}
    (taken : MultiThread.step capacity s action = some next) (member : d ∈ unread next) :
    d ∈ unread s ∨
      (d.number = s.dispatched ∧ handedMessage action = some d.request.message) := by
  cases step_sound taken with
  | accept | signal | advance => exact .inl member
  | handleCtl => exact .inl (unread_setWorker rfl member)
  | request =>
    rcases unread_request member with old | ⟨number, message⟩
    · exact .inl old
    · exact .inr ⟨number, congrArg some message.symm⟩
  | write sending =>
    left
    rcases mem_unread.mp member with absurd | queued | held
    · contradiction
    · rcases List.mem_append.mp queued with old | new
      · exact mem_unread.mpr (.inr (.inl old))
      · rw [List.mem_singleton.mp new]
        exact mem_unread.mpr (.inl sending)
    · exact mem_unread.mpr (.inr (.inr held))
  | @close serial leftover c =>
    cases leftover with
    | none => exact .inl member
    | some message =>
      rcases unread_request member with old | ⟨number, same⟩
      · exact .inl old
      · exact .inr ⟨number, congrArg some same.symm⟩
  | test => exact .inl (unread_setWorker (by split <;> rfl) member)
  | @read i record rest reading queued =>
    left
    have inChannel : ∀ other ∈ record :: rest, other ∈ unread s := fun other inside =>
      mem_unread.mpr (.inr (.inl (queued ▸ inside)))
    rcases mem_unread.mp member with sending | left | ⟨j, held⟩
    · exact mem_unread.mpr (.inl sending)
    · exact inChannel d (List.mem_cons_of_mem record left)
    · rcases printing_setWorker held with new | old
      · rw [List.mem_singleton.mp new]
        exact inChannel record List.mem_cons_self
      · exact mem_unread.mpr (.inr (.inr ⟨j, old⟩))
  | readFail | sleep | unblock => exact .inl (unread_setWorker rfl member)
  | broadcast | sendCtl => exact .inl (unread_setWorker (by split <;> rfl) member)

/-- Requests are counted. -/
theorem dispatched_step {s next : Server} {action : MultiThread.Action}
    (taken : MultiThread.step capacity s action = some next) :
    next.dispatched = s.dispatched + (handedMessage action).toList.length := by
  cases step_sound taken with
  | @close serial leftover => cases leftover <;> rfl
  | _ => rfl

/-- Such a step is taken when nothing is being sent, so every unread record stays unread. -/
theorem unread_kept {s next : Server} {action : MultiThread.Action} {d : Dispatch}
    (taken : MultiThread.step capacity s action = some next) (handler : onConnection action = true)
    (member : d ∈ unread s) : d ∈ unread next := by
  have later (idle : s.sending.isNone = true) (channel : next.channel = s.channel)
      (workers : next.workers = s.workers) : d ∈ unread next := by
    rcases mem_unread.mp member with sending | queued | ⟨i, held⟩
    · rw [sending] at idle
      contradiction
    · exact mem_unread.mpr (.inr (.inl (channel ▸ queued)))
    · exact mem_unread.mpr (.inr (.inr ⟨i, workers ▸ held⟩))
  cases step_sound taken with
  | request polling => exact later polling.2 rfl rfl
  | @close serial leftover c may =>
    obtain ⟨-, -, -, channel, -, workers, -⟩ := closeConn_frame (s := s) c leftover
    have idle : s.sending.isNone = true := by
      rcases may with ⟨polling, -⟩ | ⟨-, idle, -⟩
      · exact polling.2
      · exact idle
    exact later idle channel workers
  | _ => contradiction

/-! ## One step -/

/-- The unread records have numbers that were given, and their blocks and the buffers were
allocated. -/
structure Numbered (p : Process) : Prop where
  /-- The buffers. -/
  receivers : Allocated p.receivers p.memory.next
  /-- The numbers. -/
  number : ∀ d ∈ unread p.server, d.number < p.server.dispatched
  /-- The blocks. -/
  block : ∀ d ∈ unread p.server, (p.handed d.number).block < p.memory.next

/-- A record that is unread after a move was so before, or is the one of the request that was
handed over. -/
theorem unread_moved {p next : Process} {move : Move} {d : Dispatch}
    (moved : Moved capacity p move next) (member : d ∈ unread next.server) :
    d ∈ unread p.server ∨ (d.number = p.server.dispatched ∧
      ∃ action ∈ move.action, handedMessage action = some d.request.message) := by
  have server := moved.server
  cases kind : move.action with
  | none =>
    rw [kind] at server
    exact .inl (server ▸ member)
  | some action =>
    rw [kind] at server
    rcases unread_step server member with old | ⟨number, message⟩
    · exact .inl old
    · exact .inr ⟨number, action, rfl, message⟩

/-- A move counts the request that is handed over. -/
theorem dispatched_moved {p next : Process} {move : Move} (moved : Moved capacity p move next) :
    p.server.dispatched ≤ next.server.dispatched ∧
      ∀ action ∈ move.action, ∀ message ∈ handedMessage action,
        p.server.dispatched < next.server.dispatched := by
  have server := moved.server
  cases kind : move.action with
  | none =>
    rw [kind] at server
    exact ⟨Nat.le_of_eq (congrArg Server.dispatched server.symm), fun action none => by
      contradiction⟩
  | some action =>
    rw [kind] at server
    rw [dispatched_step server]
    refine ⟨Nat.le_add_right _ _, fun other same message given => ?_⟩
    obtain rfl := Option.some.inj same
    rw [given]
    exact Nat.lt_succ_self _

/-- The requests that were handed over before are kept under their numbers. -/
theorem handed_kept {p next : Process} {move : Move} (moved : Moved capacity p move next)
    {number : Nat} (given : number < p.server.dispatched) :
    next.handed number = p.handed number := by
  rw [moved.handed]
  cases move.handed with
  | none => rfl
  | some request => exact Function.update_of_ne (Nat.ne_of_lt given) _ _

/-- The pointers of a new record show its request. -/
theorem sees_new {p next : Process} {move : Move} (moved : Moved capacity p move next)
    (sound : move.Sound p) {d : Dispatch} (number : d.number = p.server.dispatched)
    {action : MultiThread.Action} (taken : action ∈ move.action)
    (message : handedMessage action = some d.request.message) :
    (next.handed d.number).block < next.memory.next ∧ Sees next d := by
  obtain ⟨request, handed, allocated, shows⟩ :=
    sound.handed action taken d.request.message message
  have entry : next.handed d.number = request := by
    rw [moved.handed, handed, number]
    exact Function.update_self ..
  rw [Sees, entry, moved.memory]
  exact ⟨allocated, shows⟩

/-- A step keeps the numbers. -/
theorem numbered_step {p next : Process} {action : Action} (numbered : Numbered p)
    (taken : step capacity platform p action = some next) : Numbered next := by
  obtain ⟨move, planned, moved⟩ := step_moved taken
  have sound := plan_sound numbered.receivers planned
  obtain ⟨grows, counted⟩ := dispatched_moved moved
  refine ⟨?_, ?_, ?_⟩
  · rw [moved.receivers, moved.memory]
    exact sound.receivers
  · intro d member
    rcases unread_moved moved member with old | ⟨number, action, handed, message⟩
    · exact Nat.lt_of_lt_of_le (numbered.number d old) grows
    · rw [number]
      exact counted action handed d.request.message message
  · intro d member
    rcases unread_moved moved member with old | ⟨number, action, handed, message⟩
    · rw [handed_kept moved (numbered.number d old), moved.memory]
      exact Nat.lt_of_lt_of_le (numbered.block d old) (next_le_after _ _)
    · exact (sees_new moved sound number handed message).1

/-- What an unread record shows after a move, it shows exactly when the memory keeps it. -/
theorem sees_moved_iff {p next : Process} {move : Move} (moved : Moved capacity p move next)
    (numbered : Numbered p) {d : Dispatch} (member : d ∈ unread p.server) (sees : Sees p d) :
    Sees next d ↔ move.effect.Keeps (p.handed d.number).block (strings d.request.message)
      (some (p.handed d.number).uri, some (p.handed d.number).method) := by
  rw [Sees, handed_kept moved (numbered.number d member), moved.memory]
  exact shows_after_iff (numbered.block d member) sees move.effect

/-- A step keeps what all unread records show exactly when it is careful. -/
theorem intact_step_iff {p next : Process} {action : Action} (numbered : Numbered p)
    (intact : Intact p) (taken : step capacity platform p action = some next) :
    Intact next ↔ Careful platform p action := by
  obtain ⟨move, planned, moved⟩ := step_moved taken
  have sound := plan_sound numbered.receivers planned
  have effect : effectOf platform p action = move.effect := by
    rw [effectOf, planned, Option.map_some, Option.getD_some]
  rw [Careful, effect]
  constructor
  · intro after d member
    rcases sound.effect with keep | handler
    · rw [keep]
      trivial
    · have stays : d ∈ unread next.server := by
        have server := moved.server
        cases kind : move.action with
        | none =>
          rw [kind] at server
          exact server ▸ member
        | some action =>
          rw [kind] at server
          exact unread_kept server (handler action kind) member
      exact (sees_moved_iff moved numbered member (intact d member)).mp (after d stays)
  · intro careful d member
    rcases unread_moved moved member with old | ⟨number, action, handed, message⟩
    · exact (sees_moved_iff moved numbered old (intact d old)).mpr (careful d old)
    · exact (sees_new moved sound number handed message).2

/-! ## Quiet steps -/

/-- Removing a message that nothing follows leaves the bytes of the block as they are. -/
theorem mbufRemove_whole {memory : Memory Bytes} {r : Receiver} {n : Nat} (whole : r.len ≤ n) :
    mbufRemove (r.contents memory) n ++
        (r.bytes memory).drop (mbufRemove (r.contents memory) n).length = r.bytes memory := by
  have length : (r.contents memory).length = min r.len (r.bytes memory).length :=
    List.length_take ..
  unfold mbufRemove
  split_ifs with removed
  · rw [List.drop_of_length_le (by omega)]
    rfl
  · rw [length]
    unfold Receiver.contents
    by_cases short : r.len ≤ (r.bytes memory).length
    · rw [Nat.min_eq_left short, List.take_append_drop]
    · rw [List.take_of_length_le (by omega), List.drop_of_length_le (by omega), List.append_nil]

/-- Receiving on a connection with another buffer, or discarding, keeps what a block shows. -/
theorem recvMove_keeps {γ : Type} {p : Process} {serial : Nat} {buf : Bytes} {moved : Bool}
    {move : Move} {block : Nat} {view : Bytes → γ} {value : γ}
    (planned : recvMove platform p serial buf moved = some move)
    (spares : Spares p block (.recv serial buf moved)) : move.effect.Keeps block view value := by
  rcases recvMove_cases planned with ⟨-, rfl⟩ | ⟨place, content, received⟩
  · trivial
  · have other : (p.receivers serial).buf ≠ some block := spares.resolve_left received.accepted
    rw [received.effect]
    rcases received.located with ⟨own, buffer, same⟩ | fresh
    · rw [same]
      intro equal
      exact absurd (equal ▸ buffer) other
    · rw [fresh]
      exact other

/-- Removing a message that nothing follows keeps what the block shows. -/
theorem mbufRemove_keeps {γ : Type} {p : Process} {serial n block : Nat} {view : Bytes → γ}
    {value : γ} (shows : p.memory.Shows block view value)
    (whole : (p.receivers serial).buf = some block → (p.receivers serial).len ≤ n) :
    (returnMove p (.mbufRemove serial n)).effect.Keeps block view value := by
  simp only [returnMove]
  cases buffer : (p.receivers serial).buf with
  | none => trivial
  | some own =>
    intro equal
    subst equal
    have same := @mbufRemove_whole p.memory _ _ (whole buffer)
    rw [Memory.Shows, Option.map_eq_some_iff] at shows
    obtain ⟨bytes, content, shown⟩ := shows
    rw [same]
    simp only [Receiver.bytes, buffer, content, Option.getD_some, shown]

/-- A step that spares a block keeps what a pointer into it shows. -/
theorem keeps_of_spares {γ : Type} {p : Process} {action : Action} {move : Move} {block : Nat}
    {view : Bytes → γ} {value : γ} (planned : plan platform p action = some move)
    (shows : p.memory.Shows block view value) (spares : Spares p block action) :
    move.effect.Keeps block view value := by
  cases action with
  | recv serial buf moved =>
    simp only [plan, Option.ite_none_right_eq_some] at planned
    exact recvMove_keeps planned.2 spares
  | returns =>
    simp only [plan, Option.ite_none_right_eq_some, Option.map_eq_some_iff] at planned
    obtain ⟨-, returning, waits, rfl⟩ := planned
    simp only [Spares, waits] at spares
    cases returning with
    | destroy serial => exact spares
    | mbufRemove serial n => exact mbufRemove_keeps shows spares
  | close serial =>
    simp only [plan, Option.ite_none_right_eq_some, Option.some.injEq] at planned
    obtain ⟨-, rfl⟩ := planned
    simp only [closeMove]
    cases leftover platform (p.receivers serial) ((p.receivers serial).contents p.memory) with
    | none => exact spares
    | some hm => trivial
  | frames serial bytes len =>
    obtain ⟨own, buffer, rfl⟩ := plan_frames planned
    intro equal
    exact absurd (equal ▸ buffer) spares
  | other action =>
    obtain ⟨-, rfl⟩ := plan_other planned
    trivial

/-- A quiet step is careful. -/
theorem careful_of_quiet {p : Process} {action : Action} (intact : Intact p)
    (quiet : Quiet p action) : Careful platform p action := by
  intro d member
  unfold effectOf
  cases planned : plan platform p action with
  | none => trivial
  | some move => exact keeps_of_spares planned (intact d member) (quiet d member)

/-! ## Runs -/

/-- At the start nothing is numbered and nothing is unread. -/
theorem numbered_start : Numbered start where
  receivers := fun serial block buffer => by contradiction
  number := by simp [show unread start.server = [] by decide]
  block := by simp [show unread start.server = [] by decide]

/-- At the start there is nothing to show. -/
theorem intact_start : Intact start := by
  simp [Intact, show unread start.server = [] by decide]

/-- In every state of a run the pointers of all unread records show the URI and the method of their
requests, exactly when no step frees or changes what they show. -/
theorem intact_iff {p : Process} {actions : List Action}
    (reached : Reaches capacity platform actions p) :
    Always (step capacity platform) Intact start actions ↔
      Along (step capacity platform) (Careful platform) start actions :=
  always_iff_along (fun _ _ _ numbered => numbered_step numbered)
    (fun _ _ _ numbered intact => intact_step_iff numbered intact) numbered_start intact_start
    reached

/-- What a worker prints was unread. -/
theorem Intact.readsRequests {p : Process} (intact : Intact p) : ReadsRequests p :=
  fun i d member => intact d (mem_unread.mpr (.inr (.inr ⟨i, member⟩)))

/-- Along a run in which no step touches the block of an unread request, the workers read the URI
and the method of the requests that they were given. -/
theorem readsRequests_of_quiet {actions : List Action}
    (quiet : Along (step capacity platform) Quiet start actions) :
    Always (step capacity platform) ReadsRequests start actions := by
  rintro before after middle rfl ran
  have along := (along_append.mp quiet).1
  have preserved (state : Process) (action : Action) (next : Process)
      (earlier : Numbered state ∧ Intact state) (calm : Quiet state action)
      (taken : step capacity platform state action = some next) :
      Numbered next ∧ Intact next := by
    obtain ⟨numbered, intact⟩ := earlier
    have careful : Careful platform state action := careful_of_quiet intact calm
    exact ⟨numbered_step numbered taken, (intact_step_iff numbered intact taken).mpr careful⟩
  have reached := run_invariant_along preserved ⟨numbered_start, intact_start⟩ along ran
  exact reached.2.readsRequests

/-- Two connections, each with a request that a worker prints before anything else happens on its
connection; the first one sends another request afterwards. -/
def quietRun : List Action :=
  [.other .accept, .recv 1 (ascii "GET /a HTTP/1.1\r\n\r\n") false, .other .write, .returns,
    .other .accept, .recv 2 (ascii "GET /b HTTP/1.1\r\n\r\n") false, .other .write, .returns,
    .other (.test 0), .other (.read 0), .other (.test 1), .other (.read 1),
    .other (.sleep 0 3), .recv 1 (ascii "GET /c HTTP/1.1\r\n\r\n") false, .other .write, .returns]

/-- The workers of the run read what was requested. -/
theorem quietRun_reads : (run (step 4 amd64) start quietRun).isSome = true ∧
    Always (step 4 amd64) ReadsRequests start quietRun :=
  ⟨by decide +kernel, readsRequests_of_quiet (by decide +kernel)⟩

/-- A segment with two requests: when `ev_handler` has sent the first, the second is moved over it,
and a worker reads the first record. -/
def pipelined : List Action :=
  [.other .accept,
    .recv 1 (ascii "GET /a HTTP/1.1\r\n\r\nGET /b HTTP/1.1\r\n\r\n") false,
    .other .write, .returns, .other (.test 0), .other (.read 0)]

/-- The state after it. -/
def pipelinedState : Process := (run (step 1 amd64) start pipelined).getD start

/-- One request, whose connection is closed while a worker prints it. -/
def closedEarly : List Action :=
  [.other .accept, .recv 1 (ascii "GET /a HTTP/1.1\r\n\r\n") false, .other .write, .returns,
    .other (.test 0), .other (.read 0), .close 1]

/-- The state after it. -/
def closedEarlyState : Process := (run (step 1 amd64) start closedEarly).getD start

/-- In the first run the worker prints the URI of the second request in place of that of the first;
in the second run its pointers lead into a block that was freed. -/
theorem pipelined_misread :
    (¬Always (step 1 amd64) ReadsRequests start pipelined ∧
      (printing (pipelinedState.server.workers 0)).map (fun d =>
        ((pipelinedState.handed d.number).uri,
          (pipelinedState.memory.blocks (pipelinedState.handed d.number).block).map
            (strings d.request.message))) =
        [(ascii "/a", some (some (ascii "/b"), some (ascii "GET")))]) ∧
      ¬Always (step 1 amd64) ReadsRequests start closedEarly ∧
        (printing (closedEarlyState.server.workers 0)).map (fun d =>
          closedEarlyState.memory.blocks (closedEarlyState.handed d.number).block) = [none] := by
  have breaks {actions : List Action} {last : Process}
      (reached : run (step 1 amd64) start actions = some last) (wrong : ¬ReadsRequests last) :
      ¬Always (step 1 amd64) ReadsRequests start actions := fun always =>
    wrong (always actions [] last (List.append_nil _).symm reached)
  have first : run (step 1 amd64) start pipelined = some pipelinedState :=
    run_getD start (by decide +kernel)
  have second : run (step 1 amd64) start closedEarly = some closedEarlyState :=
    run_getD start (by decide +kernel)
  exact ⟨⟨breaks first (by decide +kernel), by decide +kernel⟩, breaks second (by decide +kernel),
    by decide +kernel⟩

end CppCode.MultiThread.Buffers
