import CppCode.HttpServer.Service

/-!
# Close does not stop the server

Whether a run keeps the promise of `Stops` is decided by its requests to close: `stops_iff` says
that it keeps it, whatever happens next, exactly when no such request was delivered. After one,
the calls of `Close` can always be taken to their end (`unwind_run`). In the TLS overload they
have then released the interface array that the loop polls next, unless a request was delivered
again on the way; in the plain overload they have freed a zeroed copy of the wrong manager, and
the next client is served.
-/

namespace CppCode.HttpServer

open Library Mongoose

variable {overload : Overload} {s next : Service} {action : Action} {actions : List Action}

/-! ## Logs -/

/-- A log without a request to close asks for nothing. -/
theorem stops_of_quiet {log : List Observation} (quiet : Quiet log) : Stops log := by
  rintro before observation after rfl ⟨uri, close, member⟩
  have other := quiet uri (List.mem_append_left _ member)
  rw [close] at other
  contradiction

/-- After a request to close, a request or a poll on a released array breaks the promise. -/
theorem not_stops_append {log : List Observation} (asked : ¬Quiet log)
    {observation : Observation}
    (forbidden : (∃ uri, observation = .request uri) ∨ observation = .poll true) :
    ¬Stops (log ++ [observation]) := by
  intro stops
  simp only [Quiet, not_forall, Bool.not_eq_false] at asked
  obtain ⟨uri, member, close⟩ := asked
  obtain ⟨noRequest, noPoll⟩ := stops log observation [] rfl ⟨uri, close, member⟩
  rcases forbidden with ⟨other, same⟩ | same
  · exact noRequest other same
  · exact noPoll same

/-- A quiet log stays quiet with a request that is not to close. -/
theorem quiet_append {log : List Observation} (quiet : Quiet log) {uri : Bytes}
    (open_ : isClose uri = false) : Quiet (log ++ [.request uri]) := by
  intro other member
  rcases List.mem_append.mp member with old | new
  · exact quiet other old
  · obtain rfl := Observation.request.inj (List.mem_singleton.mp new)
    exact open_

/-- A poll does not change what was asked. -/
theorem quiet_poll {log : List Observation} {released : Bool} :
    Quiet (log ++ [.poll released]) ↔ Quiet log := by
  constructor
  · exact fun quiet uri member => quiet uri (List.mem_append_left _ member)
  · intro quiet uri member
    rcases List.mem_append.mp member with old | new
    · exact quiet uri old
    · exact absurd (List.mem_singleton.mp new) (by simp)

/-! ## Steps -/

/-- What a step can do. -/
inductive Taken (overload : Overload) (s : Service) : Action → Service → Prop
  /-- The loop polls its manager. -/
  | polled (idle : s.stack = []) :
    Taken overload s .loop { s with
      heap := mgMgrPoll (s.served overload) s.heap
      log := s.log ++ [.poll ((s.served overload).numIfaces ≠ 0 &&
        s.heap.isReleased (s.served overload).ifaces)] }
  /-- A connection is accepted. -/
  | accepted (listening : listener ∈ (s.served overload).active) :
    Taken overload s .accept
      { s.setActive overload ((s.accepts + 1) :: (s.served overload).active) with
        accepts := s.accepts + 1 }
  /-- A request is delivered. -/
  | requested (conn : Nat) (uri : Bytes) :
    Taken overload s (.request conn uri) (evHandler s uri (some (conn, uri)))
  /-- A poll closes an accepted connection. -/
  | closed (conn : Nat) (leftover : Option Bytes) (accepted : conn ≠ listener) :
    Taken overload s (.close conn leftover) (mgCloseConn overload s conn leftover)
  /-- The innermost `mg_mgr_free` goes on. -/
  | unwound (leftover : Option Bytes) (next : Service)
      (taken : unwind overload s leftover = some next) :
    Taken overload s (.unwind leftover) next

/-- A step does one of these. -/
theorem step_taken (taken : step overload s action = some next) :
    Taken overload s action next := by
  cases action with
  | loop =>
    simp only [step, Option.ite_none_right_eq_some, Option.some.injEq] at taken
    obtain ⟨idle, rfl⟩ := taken
    exact .polled idle
  | accept =>
    simp only [step, Option.ite_none_right_eq_some, Option.some.injEq] at taken
    obtain ⟨⟨-, listening⟩, rfl⟩ := taken
    exact .accepted listening
  | request conn uri =>
    simp only [step, Option.ite_none_right_eq_some, Option.some.injEq] at taken
    obtain ⟨-, rfl⟩ := taken
    exact .requested conn uri
  | close conn leftover =>
    simp only [step, Option.ite_none_right_eq_some, Option.some.injEq] at taken
    obtain ⟨⟨-, accepted, -⟩, rfl⟩ := taken
    exact .closed conn leftover accepted
  | unwind leftover => exact .unwound leftover next taken

/-! ## The invariant -/

/-- What the managers and the calls of `Close` look like in every reachable state. -/
structure Sound (overload : Overload) (s : Service) : Prop where
  /-- Without a request to close, `Close` is not running. -/
  idle : Quiet s.log → s.stack = []
  /-- The plain overload leaves the static manager zeroed, and its copies with it. -/
  plain : overload = .plain → s.static = {} ∧ listener ∈ s.shadow.active ∧
    ∀ frame ∈ s.stack, frame.phase = .lastPoll ∧ frame.copy = {} ∨ frame.phase = .closing none
  /-- In the TLS overload all copies share the interface array of the static manager. -/
  tls : overload = .tls → s.static.numIfaces = mgNumIfaces ∧ s.static.ifaces = some 0 ∧
    ∀ frame ∈ s.stack, frame.copy.ifaces = some 0
  /-- When the calls of `Close` are over, the array is released. -/
  released : overload = .tls → ¬Quiet s.log → s.stack = [] → 0 ∈ s.heap.released

/-- While `Close` is running, a request to close was delivered. -/
theorem Sound.asked (sound : Sound overload s) {frame : Frame} {frames : List Frame}
    (top : s.stack = frame :: frames) : ¬Quiet s.log := by
  intro quiet
  have idle := sound.idle quiet
  rw [top] at idle
  contradiction

/-- The service is sound when its loop starts. -/
theorem sound_start : Sound overload (start overload) := by
  cases overload with
  | plain =>
    refine ⟨fun _ => rfl, fun _ => ⟨rfl, List.mem_cons_self, ?_⟩, ?_, ?_⟩
    · intro frame member
      contradiction
    · intro other
      contradiction
    · intro other
      contradiction
  | tls =>
    refine ⟨fun _ => rfl, ?_, fun _ => ⟨rfl, rfl, ?_⟩, ?_⟩
    · intro other
      contradiction
    · intro frame member
      contradiction
    · intro _ asked
      exact absurd (fun uri member => by contradiction) asked

/-- Delivering a request keeps the service sound: the copy that `Close` gets is the static
manager. -/
theorem sound_evHandler (sound : Sound overload s) (uri : Bytes)
    (origin : Option (Nat × Bytes)) : Sound overload (evHandler s uri origin) := by
  cases close : isClose uri with
  | false =>
    simp only [evHandler, close, Bool.false_eq_true, if_false]
    refine ⟨?_, sound.plain, sound.tls, ?_⟩
    · exact fun quiet => sound.idle fun other member => quiet other (List.mem_append_left _ member)
    · exact fun tls asked => sound.released tls fun quiet => asked (quiet_append quiet close)
  | true =>
    simp only [evHandler, close, if_true]
    refine ⟨?_, ?_, ?_, ?_⟩
    · intro quiet
      have other := quiet uri (List.mem_append_right _ List.mem_cons_self)
      rw [close] at other
      contradiction
    · intro plain
      obtain ⟨zeroed, listening, frames⟩ := sound.plain plain
      refine ⟨zeroed, listening, ?_⟩
      intro frame member
      rcases List.mem_cons.mp member with rfl | old
      · exact .inl ⟨rfl, zeroed⟩
      · exact frames frame old
    · intro tls
      obtain ⟨count, array, frames⟩ := sound.tls tls
      refine ⟨count, array, ?_⟩
      intro frame member
      rcases List.mem_cons.mp member with rfl | old
      · exact array
      · exact frames frame old
    · intro _ _ empty
      contradiction

/-- Changing the list of the served manager keeps the service sound while the listener of the
plain overload stays. -/
theorem sound_setActive (sound : Sound overload s) {active : List Nat}
    (kept : overload = .plain → listener ∈ active) :
    Sound overload (s.setActive overload active) := by
  cases overload with
  | plain =>
    refine ⟨sound.idle, ?_, ?_, ?_⟩
    · intro plain
      obtain ⟨zeroed, -, frames⟩ := sound.plain plain
      exact ⟨zeroed, kept plain, frames⟩
    · intro other
      contradiction
    · intro other
      contradiction
  | tls =>
    refine ⟨sound.idle, ?_, sound.tls, sound.released⟩
    intro other
    contradiction

/-- Closing a connection keeps the service sound. -/
theorem sound_mgCloseConn (sound : Sound overload s) {conn : Nat} (leftover : Option Bytes)
    (kept : overload = .plain → conn ≠ listener) :
    Sound overload (mgCloseConn overload s conn leftover) := by
  have removed : Sound overload
      (s.setActive overload ((s.served overload).active.filter (· ≠ conn))) := by
    refine sound_setActive sound fun plain => ?_
    have listening := (sound.plain plain).2.1
    subst plain
    exact List.mem_filter.mpr ⟨listening, by simpa using (kept rfl).symm⟩
  cases leftover with
  | none => exact removed
  | some uri => exact sound_evHandler removed uri none

/-- Advancing the innermost `mg_mgr_free` within its frame keeps the service sound. -/
theorem sound_phase (sound : Sound overload s) {frame : Frame} {frames : List Frame}
    (top : s.stack = frame :: frames) (heap : Heap) {phase : Phase}
    (kept : overload = .plain → phase = .closing none) :
    Sound overload { s with heap, stack := { frame with phase } :: frames } where
  idle quiet := absurd quiet (sound.asked top)
  plain plain := by
    obtain ⟨zeroed, listening, shapes⟩ := sound.plain plain
    refine ⟨zeroed, listening, ?_⟩
    intro other member
    rcases List.mem_cons.mp member with rfl | old
    · exact .inr (kept plain)
    · exact shapes other (top ▸ List.mem_cons_of_mem frame old)
  tls tls := by
    obtain ⟨count, array, shapes⟩ := sound.tls tls
    refine ⟨count, array, ?_⟩
    intro other member
    rcases List.mem_cons.mp member with rfl | old
    · exact shapes frame (top ▸ List.mem_cons_self)
    · exact shapes other (top ▸ List.mem_cons_of_mem frame old)
  released _ _ empty := by contradiction

/-- The end of a `mg_mgr_free` keeps the service sound: in the TLS overload it has released the
array of the static manager. -/
theorem sound_pop (sound : Sound overload s) {frame : Frame} {frames : List Frame}
    (top : s.stack = frame :: frames) :
    Sound overload { s with heap := freeIfaces frame.copy s.heap, stack := frames } where
  idle quiet := absurd quiet (sound.asked top)
  plain plain := by
    obtain ⟨zeroed, listening, shapes⟩ := sound.plain plain
    exact ⟨zeroed, listening, fun other old => shapes other (top ▸ List.mem_cons_of_mem frame old)⟩
  tls tls := by
    obtain ⟨count, array, shapes⟩ := sound.tls tls
    exact ⟨count, array, fun other old => shapes other (top ▸ List.mem_cons_of_mem frame old)⟩
  released tls _ _ := by
    obtain ⟨-, -, shapes⟩ := sound.tls tls
    have shared := shapes frame (top ▸ List.mem_cons_self)
    change 0 ∈ ((mgMgrPoll frame.copy s.heap).free frame.copy.ifaces).released
    rw [shared]
    exact of_decide_eq_true (Heap.isReleased_free (mgMgrPoll frame.copy s.heap) 0)

/-- A step of `mg_mgr_free` keeps the service sound. -/
theorem sound_unwind (sound : Sound overload s) {leftover : Option Bytes}
    (taken : unwind overload s leftover = some next) : Sound overload next := by
  unfold unwind at taken
  split at taken
  · contradiction
  · rename_i frame frames top
    split at taken
    · rename_i polling
      obtain rfl := Option.some.inj taken
      refine sound_phase sound top _ fun plain => ?_
      rcases (sound.plain plain).2.2 frame (top ▸ List.mem_cons_self) with ⟨-, zeroed⟩ | ended
      · rw [zeroed]
        rfl
      · rw [polling] at ended
        contradiction
    · rename_i conn closing
      have served : overload ≠ .plain := by
        intro plain
        rcases (sound.plain plain).2.2 frame (top ▸ List.mem_cons_self) with ⟨other, -⟩ | other
        · exact absurd (closing.symm.trans other) (by simp)
        · exact absurd (closing.symm.trans other) (by simp)
      split at taken
      · simp only [Option.ite_none_right_eq_some, Option.some.injEq] at taken
        obtain ⟨-, rfl⟩ := taken
        refine sound_mgCloseConn ?_ leftover fun plain => absurd plain served
        exact sound_phase sound top s.heap fun plain => absurd plain served
      · obtain rfl := Option.some.inj taken
        exact sound_phase sound top _ fun _ => rfl
    · obtain rfl := Option.some.inj taken
      exact sound_pop sound top

/-- Every step keeps the service sound. -/
theorem sound_step (sound : Sound overload s) (taken : step overload s action = some next) :
    Sound overload next := by
  cases step_taken taken with
  | polled idle =>
    refine ⟨fun quiet => sound.idle (quiet_poll.mp quiet), sound.plain, sound.tls, ?_⟩
    intro tls asked empty
    rw [mgMgrPoll_released]
    exact sound.released tls (fun quiet => asked (quiet_poll.mpr quiet)) empty
  | accepted listening =>
    have added : Sound overload
        (s.setActive overload ((s.accepts + 1) :: (s.served overload).active)) :=
      sound_setActive sound fun _ => List.mem_cons_of_mem _ listening
    exact ⟨added.idle, added.plain, added.tls, added.released⟩
  | requested conn uri => exact sound_evHandler sound uri _
  | closed conn leftover accepted => exact sound_mgCloseConn sound leftover fun _ => accepted
  | unwound leftover _ taken => exact sound_unwind sound taken

/-- The service is sound in every run. -/
theorem sound_run (reached : Reaches overload actions s) : Sound overload s :=
  run_invariant (fun _ _ _ => sound_step) sound_start reached

/-! ## Without a request to close -/

/-- While no client asks the server to close, no request to close is delivered. -/
theorem quiet_step (sound : Sound overload s) (quiet : Quiet s.log) (unasked : Unasked s action)
    (taken : step overload s action = some next) : Quiet next.log := by
  have idle := sound.idle quiet
  have nothing (conn : Nat) : s.pending conn = none := by
    simp [Service.pending, idle]
  have other {conn : Nat} {uri : Bytes} (asked : isClose uri = true → s.pending conn = some uri) :
      isClose uri = false := by
    by_contra close
    have pending := asked (Bool.not_eq_false _ ▸ close)
    rw [nothing] at pending
    contradiction
  have delivered (state : Service) {uri : Bytes} (origin : Option (Nat × Bytes))
      (same : state.log = s.log) (open_ : isClose uri = false) :
      Quiet (evHandler state uri origin).log := by
    simp only [evHandler, open_, Bool.false_eq_true, if_false, same]
    exact quiet_append quiet open_
  cases step_taken taken with
  | polled => exact quiet_poll.mpr quiet
  | accepted => cases overload <;> exact quiet
  | requested conn uri => exact delivered s _ rfl (other unasked)
  | closed conn leftover =>
    cases leftover with
    | none => cases overload <;> exact quiet
    | some uri => exact delivered _ none (by cases overload <;> rfl) (other unasked)
  | unwound leftover _ taken => simp [unwind, idle] at taken

/-! ## After a request to close -/

/-- How many steps of `mg_mgr_free` a phase is away from its end, apart from the connections that
it closes. -/
def Phase.weight : Phase → Nat
  | .lastPoll => 3
  | .closing (some _) => 2
  | .closing none => 1

/-- A bound on the steps that the calls of `Close` in progress can take without delivering a
request. -/
def Service.remaining (overload : Overload) (s : Service) : Nat :=
  (s.served overload).active.length + (s.stack.map fun frame => frame.phase.weight).sum

/-- Closing connections takes at most two steps that close none. -/
theorem closing_weight (conn : Option Nat) : (Phase.closing conn).weight ≤ 2 := by
  cases conn <;> simp [Phase.weight]

/-- The served manager is not affected by the heap and the calls in progress. -/
theorem served_stack (heap : Heap) (stack : List Frame) :
    Service.served overload { s with heap, stack } = s.served overload := by
  cases overload <;> rfl

section
variable {frame : Frame} {frames : List Frame} {conn : Nat}

/-- The last poll ends. -/
theorem unwind_lastPoll (top : s.stack = frame :: frames) (at_ : frame.phase = .lastPoll) :
    unwind overload s none = some { s with
      heap := mgMgrPoll frame.copy s.heap
      stack := { frame with phase := .closing frame.copy.active.head? } :: frames } := by
  simp only [unwind, top, at_]

/-- A connection of the list is closed. -/
theorem unwind_listed (top : s.stack = frame :: frames) (at_ : frame.phase = .closing (some conn))
    (listed : conn ∈ (s.served overload).active) {leftover : Option Bytes}
    (may : s.MayHold conn leftover) :
    unwind overload s leftover = some (mgCloseConn overload
      { s with stack := { frame with phase := .closing (s.mgNext overload conn) } :: frames }
      conn leftover) := by
  simp only [unwind, top, at_, if_pos listed, if_pos may]

/-- A connection that was closed before is read. -/
theorem unwind_destroyed (top : s.stack = frame :: frames)
    (at_ : frame.phase = .closing (some conn)) (gone : conn ∉ (s.served overload).active) :
    unwind overload s none = some { s with
      heap := { s.heap with faults := .readDestroyed conn :: s.heap.faults }
      stack := { frame with phase := .closing none } :: frames } := by
  simp only [unwind, top, at_, if_neg gone]

/-- The interfaces are released. -/
theorem unwind_pop (top : s.stack = frame :: frames) (at_ : frame.phase = .closing none) :
    unwind overload s none = some { s with
      heap := freeIfaces frame.copy s.heap, stack := frames } := by
  simp only [unwind, top, at_]

/-- What remains is counted from the innermost frame. -/
theorem remaining_cons (top : s.stack = frame :: frames) :
    s.remaining overload = (s.served overload).active.length +
      (frame.phase.weight + (frames.map fun frame => frame.phase.weight).sum) := by
  simp [Service.remaining, top]

/-- Closing a connection that holds no request brings the end closer. -/
theorem remaining_close (top : s.stack = frame :: frames)
    (at_ : frame.phase = .closing (some conn)) (listed : conn ∈ (s.served overload).active) :
    Service.remaining overload (mgCloseConn overload
      { s with stack := { frame with phase := .closing (s.mgNext overload conn) } :: frames }
      conn none) < s.remaining overload := by
  have fewer : ((s.served overload).active.filter (· ≠ conn)).length <
      (s.served overload).active.length := by
    refine lt_of_le_of_ne (List.length_filter_le _ _) fun same => ?_
    have all := List.length_filter_eq_length_iff.mp same conn listed
    simp at all
  have weight := closing_weight (s.mgNext overload conn)
  rw [remaining_cons top, at_]
  cases overload with
  | plain =>
    simp only [Service.remaining, mgCloseConn, Service.setActive, Service.served, List.map_cons,
      List.sum_cons] at fewer ⊢
    change _ < _ + (2 + _)
    omega
  | tls =>
    simp only [Service.remaining, mgCloseConn, Service.setActive, Service.served, List.map_cons,
      List.sum_cons] at fewer ⊢
    change _ < _ + (2 + _)
    omega

end

/-- While `Close` is running, a next step of `mg_mgr_free` is possible that no client asked for;
it gets closer to the end, or it delivers a request. -/
theorem unwind_progress (running : s.stack ≠ []) : ∃ leftover next,
    step overload s (.unwind leftover) = some next ∧ Unasked s (.unwind leftover) ∧
      ((next.log = s.log ∧ next.remaining overload < s.remaining overload) ∨
        ∃ uri, next.log = s.log ++ [.request uri]) := by
  obtain ⟨frame, frames, top⟩ := List.exists_cons_of_ne_nil running
  cases at_ : frame.phase with
  | lastPoll =>
    refine ⟨none, _, unwind_lastPoll top at_, trivial, .inl ⟨rfl, ?_⟩⟩
    have weight := closing_weight frame.copy.active.head?
    rw [remaining_cons top, remaining_cons rfl, served_stack, at_]
    change _ + ((Phase.closing _).weight + _) < _ + (3 + _)
    omega
  | closing conn =>
    cases conn with
    | none =>
      refine ⟨none, _, unwind_pop top at_, trivial, .inl ⟨rfl, ?_⟩⟩
      rw [remaining_cons top, Service.remaining, served_stack, at_]
      change _ + (frames.map fun frame => frame.phase.weight).sum < _ + (1 + _)
      omega
    | some conn =>
      by_cases listed : conn ∈ (s.served overload).active
      · by_cases holds : conn ≠ listener ∧ (s.pending conn).isSome = true
        · obtain ⟨uri, pending⟩ := Option.isSome_iff_exists.mp holds.2
          have may : s.MayHold conn (some uri) := by
            rw [Service.MayHold, if_neg holds.1]
            exact fun _ => pending.symm
          refine ⟨some uri, _, unwind_listed top at_ listed may, fun _ => ⟨conn, pending⟩,
            .inr ⟨uri, ?_⟩⟩
          cases overload <;> simp only [mgCloseConn, evHandler] <;> split <;> rfl
        · have may : s.MayHold conn none := by
            unfold Service.MayHold
            split
            · rfl
            · rename_i accepted
              exact fun pending => absurd ⟨accepted, pending⟩ holds
          refine ⟨none, _, unwind_listed top at_ listed may, trivial, .inl ⟨?_, ?_⟩⟩
          · cases overload <;> rfl
          · exact remaining_close top at_ listed
      · refine ⟨none, _, unwind_destroyed top at_ listed, trivial, .inl ⟨rfl, ?_⟩⟩
        rw [remaining_cons top, remaining_cons rfl, served_stack, at_]
        change _ + (1 + _) < _ + (2 + _)
        omega

/-- From every state after a request to close, the calls of `Close` can be taken to their end, or
a request is delivered on the way. -/
theorem unwind_run (asked : ¬Quiet s.log) : ∃ more final,
    run (step overload) s more = some final ∧ Along (step overload) Unasked s more ∧
      ((final.stack = [] ∧ ¬Quiet final.log) ∨ ¬Stops final.log) := by
  induction bound : s.remaining overload using Nat.strongRecOn generalizing s with
  | ind count ih =>
    by_cases ended : s.stack = []
    · exact ⟨[], s, rfl, trivial, .inl ⟨ended, asked⟩⟩
    · obtain ⟨leftover, next, taken, unasked, outcome⟩ :=
        @unwind_progress overload s ended
      rcases outcome with ⟨same, closer⟩ | ⟨uri, delivered⟩
      · obtain ⟨more, final, ran, along, reached⟩ :=
          @ih _ (bound ▸ closer) next (by rwa [same]) rfl
        refine ⟨.unwind leftover :: more, final, run_cons_iff.mpr ⟨next, taken, ran⟩,
          ⟨unasked, ?_⟩, reached⟩
        intro other again
        obtain rfl := Option.some.inj (taken.symm.trans again)
        exact along
      · refine ⟨[.unwind leftover], next, run_cons_iff.mpr ⟨next, taken, rfl⟩,
          ⟨unasked, fun _ _ => trivial⟩, .inr ?_⟩
        rw [delivered]
        exact not_stops_append asked (.inl ⟨uri, rfl⟩)

/-- When the calls of `Close` are over, the loop polls a released array, or the next client is
served. -/
theorem continues (sound : Sound overload s) (asked : ¬Quiet s.log) (ended : s.stack = []) :
    ∃ more final, run (step overload) s more = some final ∧
      Along (step overload) Unasked s more ∧ ¬Stops final.log := by
  cases overload with
  | plain =>
    obtain ⟨-, listening, -⟩ := sound.plain rfl
    have polling : ∀ state : Service, state.stack = [] → state.Polling := by
      intro state empty
      simp [Service.Polling, empty]
    let accepted : Service := { s.setActive .plain ((s.accepts + 1) :: s.shadow.active) with
      accepts := s.accepts + 1 }
    have accept : step .plain s .accept = some accepted :=
      if_pos ⟨polling s ended, listening⟩
    have may : accepted.MayHold (s.accepts + 1) (some (ascii "/")) := by
      rw [Service.MayHold, if_neg (Nat.succ_ne_zero _)]
      intro pending
      have empty : accepted.stack = [] := ended
      simp [Service.pending, empty] at pending
    have request : step .plain accepted (.request (s.accepts + 1) (ascii "/")) =
        some (evHandler accepted (ascii "/") (some (s.accepts + 1, ascii "/"))) :=
      if_pos ⟨polling accepted ended, Nat.succ_ne_zero _, List.mem_cons_self, may⟩
    refine ⟨[.accept, .request (s.accepts + 1) (ascii "/")], _, run_cons_iff.mpr ⟨_, accept,
      run_cons_iff.mpr ⟨_, request, rfl⟩⟩, ⟨trivial, fun _ _ => ⟨?_, fun _ _ => trivial⟩⟩, ?_⟩
    · exact fun close => absurd close (by decide)
    · exact not_stops_append asked (.inl ⟨ascii "/", rfl⟩)
  | tls =>
    obtain ⟨count, array, -⟩ := sound.tls rfl
    have released := sound.released rfl asked ended
    have poll : (s.static.numIfaces ≠ 0 && s.heap.isReleased s.static.ifaces) = true := by
      rw [count, array]
      exact decide_eq_true released
    refine ⟨[.loop], _, run_cons_iff.mpr ⟨_, if_pos ended, rfl⟩, ⟨trivial, fun _ _ => trivial⟩, ?_⟩
    change ¬Stops (s.log ++ [.poll (s.static.numIfaces ≠ 0 && s.heap.isReleased s.static.ifaces)])
    rw [poll]
    exact not_stops_append asked (.inr rfl)

/-- A run keeps the promise, whatever happens next without a client asking to close, exactly when
no request to close was delivered in it. -/
theorem stops_iff (reached : Reaches overload actions s) :
    (∀ more final, run (step overload) s more = some final →
      Along (step overload) Unasked s more → Stops final.log) ↔ Quiet s.log := by
  have sound := sound_run reached
  constructor
  · intro promised
    by_contra asked
    obtain ⟨more, middle, ran, along, outcome⟩ := @unwind_run overload s asked
    rcases outcome with ⟨ended, still⟩ | broken
    · have later : Sound overload middle := run_invariant (fun _ _ _ => sound_step) sound ran
      obtain ⟨rest, final, went, unasked, broken⟩ := continues later still ended
      refine broken (promised (more ++ rest) final (run_append_iff.mpr ⟨middle, ran, went⟩) ?_)
      refine along_append.mpr ⟨along, fun other again => ?_⟩
      obtain rfl := Option.some.inj (ran.symm.trans again)
      exact unasked
    · exact broken (promised more middle ran along)
  · intro quiet more final ran along
    let promise : Service → Prop := fun state => Sound overload state ∧ Quiet state.log
    have preserved (state : Service) (action : Action) (next : Service) (inv : promise state)
        (unasked : Unasked state action) (taken : step overload state action = some next) :
        promise next := ⟨sound_step inv.1 taken, quiet_step inv.1 inv.2 unasked taken⟩
    have kept : promise final := run_invariant_along preserved ⟨sound, quiet⟩ along ran
    exact stops_of_quiet kept.2

/-- A client of the plain overload asks to close, and the next client is served. -/
def plainRun : List Action :=
  [.loop, .accept, .request 1 (ascii "/close"), .unwind none, .unwind none, .accept,
    .request 2 (ascii "/")]

/-- A client of the TLS overload asks to close. Its request is delivered again while its
connection is closed, the array is released twice, and the loop polls it. -/
def tlsRun : List Action :=
  [.loop, .accept, .request 1 (ascii "/close"), .unwind none, .unwind (some (ascii "/close")),
    .unwind none, .unwind none, .unwind none, .unwind none, .unwind none, .loop]

/-- Neither overload keeps the promise. -/
theorem runs_not_stop : ∃ plain tls,
    Reaches .plain plainRun plain ∧ ¬Stops plain.log ∧
      plain.log = [.poll false, .request (ascii "/close"), .request (ascii "/")] ∧
    Reaches .tls tlsRun tls ∧ ¬Stops tls.log ∧
      tls.log =
        [.poll false, .request (ascii "/close"), .request (ascii "/close"), .poll true] := by
  have asked : ¬Quiet [.poll false, .request (ascii "/close")] := by
    intro quiet
    exact absurd (quiet (ascii "/close") (by simp)) (by decide)
  have again : ¬Quiet [.poll false, .request (ascii "/close"), .request (ascii "/close")] := by
    intro quiet
    exact absurd (quiet (ascii "/close") (by simp)) (by decide)
  refine ⟨_, _, run_getD (start .plain) (by decide), ?_, by decide,
    run_getD (start .tls) (by decide), ?_, by decide⟩
  · exact not_stops_append asked (.inl ⟨ascii "/", rfl⟩)
  · exact not_stops_append again (.inr rfl)

/-- The hypothesis of `stops_iff` holds of a run of the plain overload with a request to close. -/
theorem plainRun_not_stop : ∃ s, Reaches .plain (plainRun.take 3) s ∧
    ¬∀ more final, run (step .plain) s more = some final →
      Along (step .plain) Unasked s more → Stops final.log := by
  have reached : Reaches .plain (plainRun.take 3) _ := run_getD (start .plain) (by decide)
  refine ⟨_, reached, fun promised => ?_⟩
  exact absurd ((stops_iff reached).mp promised (ascii "/close") (by decide)) (by decide)

end CppCode.HttpServer
