import CppCode.HttpClient.Stream

/-!
# How often the callback is invoked

A reply sets `MG_F_SEND_AND_CLOSE` but leaves the handler on the connection, so what the server
sends after its first reply is still parsed: by segments that arrive before the connection is
closed, and once more by the close, which delivers whatever complete header block the buffer begins
with. `oneReply_iff` says of the bytes that the server sends, cut into any segments and closed at
any point, when no second reply comes of them.
-/

namespace CppCode.HttpClient

open Library Mongoose

variable {platform : Platform} {nc next : HttpConn}

/-- What reaches the connection of a request. -/
inductive Arrival
  /-- A segment. -/
  | segment (bytes : Bytes)
  /-- The close, by the poll or by `mg_mgr_free`. -/
  | close
  deriving DecidableEq, Repr

/-- An arrival is handled and `OnHttpEvent` returns. A reply whose body is not in the receive
buffer ends the run before the callback: `std::string` cannot be constructed from it. -/
def arrive (platform : Platform) (nc : HttpConn) (arrival : Arrival) : Option HttpConn :=
  let handled := match arrival with
    | .segment bytes => receive platform nc bytes
    | .close => Mongoose.step platform false nc .close
  handled.filter fun next => ∀ delivery ∈ next.delivered, delivery.InRange platform

/-- The segments of a server, and the close when the connection has been closed. -/
def arrivals (segments : List Bytes) (closed : Bool) : List Arrival :=
  segments.map .segment ++ if closed then [.close] else []

/-- The callback has been invoked at most once for this connection. -/
def AtMostOnce (nc : HttpConn) : Prop :=
  ∀ static, ((events nc).foldl onHttpEvent static).received.length ≤ static.received.length + 1

/-- A close finds a complete header block in the bytes that wait and in those that came after them,
and the connection still speaks HTTP. -/
def LeavesBlock (platform : Platform) (c : Nat) (waiting : Bytes) (segments : List Bytes) : Prop :=
  let p := pending platform 1 c waiting segments
  segments = [] ∧ p.HasBlock ∨
    segments ≠ [] ∧ ¬p.Ignored ∧ (⟨p.bytes, compact platform 1 c p⟩ : Pending).HasBlock

/-- What the server sends behind its first reply completes no other reply, with any of the segments,
and does not begin with a complete header block when the connection is closed. The length that was
reassembled of the first reply counts for the chunks of the next one. -/
def NoFurtherReply (platform : Platform) (segments : List Bytes) (closed : Bool) : Prop :=
  ∀ first later r, segments = first ++ later → Answered platform 0 0 [] first r →
    Unanswered platform 1 r.bodyLen (r.bytes.drop r.message) later ∧
      (closed = true → ¬LeavesBlock platform r.bodyLen (r.bytes.drop r.message) later)

/-! ## Deliveries -/

/-- The callback is invoked once for each delivery. -/
theorem atMostOnce_iff (nc : HttpConn) : AtMostOnce nc ↔ nc.delivered.length ≤ 1 := by
  simp only [AtMostOnce, received_events, List.length_append, List.length_map,
    add_le_add_iff_left]
  exact ⟨fun once => once {}, fun once _ => once⟩

/-- The close delivers what begins with a complete block. -/
theorem close_delivered (closed : Mongoose.step platform false nc .close = some next) :
    next.delivered.length = nc.delivered.length +
      if nc.status = .http ∧ nc.pending.HasBlock then 1 else 0 := by
  cases http : nc.status with
  | http =>
    simp only [Mongoose.step, http, Option.some.injEq] at closed
    subst closed
    by_cases block : nc.pending.HasBlock
    · have inside := (HttpConn.pending_block block).2
      have whole : nc.recvMbuf.length > 0 ∧
          (mgParseHttp platform nc.recvMbuf (toInt nc.recvMbuf.length) false).1 > 0 :=
        ⟨lt_of_lt_of_le block.1 inside, mgParseHttp_pos_iff.mpr block⟩
      simp only [handleClose, if_pos whole, List.length_append, List.length_singleton]
      rw [if_pos ⟨trivial, block⟩]
    · have none : ¬(nc.recvMbuf.length > 0 ∧
          (mgParseHttp platform nc.recvMbuf (toInt nc.recvMbuf.length) false).1 > 0) := fun whole =>
        block (mgParseHttp_pos_iff.mp whole.2)
      simp only [handleClose, if_neg none]
      rw [if_neg fun both => block both.2, Nat.add_zero]
  | websocket =>
    simp only [Mongoose.step, http, Option.some.injEq] at closed
    subst closed
    simp
  | closed | stopped => simp [Mongoose.step, http] at closed

/-- What arrives is handled. -/
theorem arrive_handled {arrival : Arrival} (arrived : arrive platform nc arrival = some next) :
    match arrival with
    | .segment bytes => receive platform nc bytes = some next
    | .close => Mongoose.step platform false nc .close = some next :=
  match arrival, (Option.filter_eq_some_iff.mp arrived).1 with
  | .segment _, handled => handled
  | .close, handled => handled

/-- A step takes no delivery back. -/
theorem step_grows {action : Mongoose.Action}
    (taken : Mongoose.step platform false nc action = some next) (holds : nc.Holds platform) :
    nc.delivered.length ≤ next.delivered.length := by
  cases step_taken taken with
  | handled buf http alive =>
    have delivers := @handleRecv_delivers platform false
      { nc with recvMbuf := mbufAppend platform nc.recvMbuf buf } (mbufAppend_le holds buf)
    cases delivers with
    | nothing same => rw [same]
    | body delivery one => rw [one]; simp
  | ignored => exact le_refl _
  | returned => exact le_refl _
  | closed =>
    cases handleClose_delivers holds with
    | nothing same => rw [same]
    | body delivery one => rw [one]; simp
  | dropped => exact le_refl _

/-- An arrival takes no delivery back, and keeps the buffer in the heap. -/
theorem arrive_grows {arrival : Arrival} (holds : nc.Holds platform)
    (arrived : arrive platform nc arrival = some next) :
    next.Holds platform ∧ nc.delivered.length ≤ next.delivered.length := by
  have handled := arrive_handled arrived
  cases arrival with
  | segment bytes =>
    refine ⟨receive_holds holds handled, ?_⟩
    obtain ⟨middle, taken, after⟩ := Option.bind_eq_some_iff.mp handled
    have first := step_grows taken holds
    cases pending : middle.removals with
    | nil =>
      rw [pending] at after
      rwa [← Option.some.inj after]
    | cons length rest =>
      rw [pending] at after
      exact le_trans first (step_grows after (step_holds holds taken))
  | close => exact ⟨step_holds holds handled, step_grows handled holds⟩

/-- No run takes a delivery back. -/
theorem run_grows {list : List Arrival} (holds : nc.Holds platform)
    (reached : run (arrive platform) nc list = some next) :
    nc.delivered.length ≤ next.delivered.length :=
  (@run_invariant _ _ _
    (fun state => state.Holds platform ∧ nc.delivered.length ≤ state.delivered.length)
    (fun _ _ _ inv taken => ⟨(arrive_grows inv.1 taken).1,
      le_trans inv.2 (arrive_grows inv.1 taken).2⟩) _ _ _ ⟨holds, le_refl _⟩ reached).2

/-- The callback is invoked at most once at every moment when it is at the end. -/
theorem always_iff_last {list : List Arrival} (holds : nc.Holds platform)
    (reached : run (arrive platform) nc list = some next) :
    Always (arrive platform) AtMostOnce nc list ↔ next.delivered.length ≤ 1 := by
  constructor
  · intro always
    exact (atMostOnce_iff next).mp (always list [] next (List.append_nil _).symm reached)
  · intro once first later middle split ran
    subst split
    obtain ⟨other, same, rest⟩ := run_append_iff.mp reached
    obtain rfl := Option.some.inj (ran.symm.trans same)
    have kept := run_invariant (fun _ _ _ holds taken => (arrive_grows holds taken).1) holds ran
    exact (atMostOnce_iff middle).mpr (le_trans (run_grows kept rest) once)

/-! ## The bytes of the server -/

section
variable {count c : Nat} {waiting : Bytes} {segments : List Bytes}

/-- Segments that complete a reply do so first with one of them. -/
theorem exists_answered (complete : ¬Unanswered platform count c waiting segments) :
    ∃ first later r, segments = first ++ later ∧ Answered platform count c waiting first r := by
  induction segments using List.reverseRecOn with
  | nil =>
    refine absurd (fun part inside nonempty => ?_) complete
    exact absurd (List.prefix_nil.mp inside) nonempty
  | append_singleton segments segment ih =>
    by_cases earlier : Unanswered platform count c waiting segments
    · simp only [Unanswered, not_forall, not_not] at complete
      obtain ⟨part, inside, nonempty, complete⟩ := complete
      rcases List.prefix_concat_iff.mp inside with rfl | before
      · obtain ⟨block, plain, r, found, whole⟩ := complete
        exact ⟨_, [], r, (List.append_nil _).symm,
          ⟨nonempty, by rwa [List.dropLast_concat], ⟨block, plain, r, found, whole⟩, found⟩⟩
      · exact absurd complete (earlier part before nonempty)
    · obtain ⟨first, later, r, rfl, answered⟩ := ih earlier
      exact ⟨first, later ++ [segment], r, List.append_assoc _ _ _, answered⟩

/-- They do so with one segment only. -/
theorem answered_unique {first later other rest : List Bytes} {r again : Reassembled}
    (split : first ++ later = other ++ rest) (answered : Answered platform count c waiting first r)
    (also : Answered platform count c waiting other again) :
    first = other ∧ later = rest ∧ r = again := by
  have shorter : ∀ {part whole : List Bytes} {r again : Reassembled}, part <+: whole →
      Answered platform count c waiting part r → Answered platform count c waiting whole again →
        part = whole := by
    intro part whole r again inside answered also
    by_contra proper
    obtain ⟨left, rfl⟩ := inside
    have more : left ≠ [] := by
      rintro rfl
      exact proper (List.append_nil _).symm
    refine also.earlier part ?_ answered.nonempty answered.complete
    rw [List.dropLast_append_of_ne_nil more]
    exact List.prefix_append _ _
  have same : first = other := by
    rcases List.prefix_or_prefix_of_prefix ⟨later, split⟩ ⟨rest, rfl⟩ with inside | inside
    · exact shorter inside answered also
    · exact (shorter inside also answered).symm
  subst same
  refine ⟨rfl, List.append_cancel_left split, ?_⟩
  exact Option.some.inj (answered.found.symm.trans also.found)

/-- A run of segments at the connection of a request. -/
theorem run_segments (reached : run (arrive platform) nc (segments.map .segment) = some next) :
    run (receive platform) nc segments = some next := by
  induction segments generalizing nc with
  | nil => exact reached
  | cons segment segments ih =>
    obtain ⟨middle, taken, rest⟩ := run_cons_iff.mp reached
    exact run_cons_iff.mpr ⟨middle, arrive_handled taken, ih rest⟩

/-- Whether the close finds a block in what a connection has looked at. -/
theorem leavesBlock_iff {one : HttpConn} (fresh : Fresh platform c waiting one)
    (first : one.delivered.length = 1)
    (looked : segments = [] ∧ next = one ∨ segments ≠ [] ∧ next.delivered = one.delivered ∧
      Looked platform one.delivered.length c
        (pending platform one.delivered.length c waiting segments) next)
    (running : next.status ≠ .stopped) :
    next.status = .http ∧ next.pending.HasBlock ↔ LeavesBlock platform c waiting segments := by
  rw [first] at looked
  rcases looked with ⟨rfl, rfl⟩ | ⟨nonempty, -, looked⟩
  · have same : next.pending = ⟨waiting, waiting.length⟩ := by rw [HttpConn.pending, fresh.buffer]
    simp only [LeavesBlock, pending, same, fresh.listens.http, true_and, ne_eq, not_true_eq_false,
      false_and, or_false]
  · simp only [LeavesBlock, nonempty, false_and, false_or, ne_eq, not_false_eq_true, true_and]
    cases looked with
    | waits more listens =>
      have alike :=
        listens.reads.alike (compact platform 1 c (pending platform 1 c waiting segments))
      have size := listens.size
      simp only at alike size
      rw [← size] at alike ⊢
      simp only [listens.http, true_and, more, not_false_eq_true]
      exact alike.hasBlock
    | closing ignored _ _ _ absent =>
      exact iff_of_false (fun both => absent both.2) fun both => both.1 ignored
    | upgraded ignored _ websocket =>
      refine iff_of_false (fun both => ?_) fun both => both.1 ignored
      rw [websocket] at both
      exact absurd both.1 (by simp)
    | stopped _ stopped => exact absurd stopped running

end

/-- What the close adds to the deliveries of the segments. -/
theorem arrivals_delivered {segments : List Bytes} {closed : Bool} {one : HttpConn}
    (reached : run (arrive platform) one (arrivals segments closed) = some nc) :
    ∃ middle, run (receive platform) one segments = some middle ∧
      (closed = false → nc = middle) ∧ (closed = true → middle.status ≠ .stopped ∧
        nc.delivered.length = middle.delivered.length +
          if middle.status = .http ∧ middle.pending.HasBlock then 1 else 0) := by
  obtain ⟨middle, ran, last⟩ := run_append_iff.mp reached
  refine ⟨middle, run_segments ran, ?_, ?_⟩
  · rintro rfl
    exact (Option.some.inj last).symm
  · rintro rfl
    obtain ⟨final, taken, rest⟩ := run_cons_iff.mp last
    obtain rfl := Option.some.inj rest
    have handled := arrive_handled taken
    refine ⟨fun stopped => ?_, close_delivered handled⟩
    simp [Mongoose.step, stopped] at handled

/-- Segments that complete no reply deliver nothing. -/
theorem delivered_of_unanswered {c : Nat} {waiting : Bytes} {segments : List Bytes} {one : HttpConn}
    (fresh : Fresh platform c waiting one)
    (unanswered : Unanswered platform one.delivered.length c waiting segments)
    (ran : run (receive platform) one segments = some nc) :
    nc.delivered.length = one.delivered.length := by
  rcases (run_unanswered fresh unanswered ran).2 with ⟨-, rfl⟩ | ⟨-, same, -⟩
  · rfl
  · rw [same]

/-- Behind the first reply, what is left of its last segment waits with the segments that follow. -/
theorem noFurtherReply_iff {first later : List Bytes} {r : Reassembled} {closed : Bool}
    (answered : Answered platform 0 0 [] first r) :
    NoFurtherReply platform (first ++ later) closed ↔
      Unanswered platform 1 r.bodyLen (r.bytes.drop r.message) later ∧
        (closed = true → ¬LeavesBlock platform r.bodyLen (r.bytes.drop r.message) later) := by
  refine ⟨fun further => further first later r rfl answered, fun both => ?_⟩
  intro other rest again split also
  obtain ⟨rfl, rfl, rfl⟩ := answered_unique split answered also
  exact both

/-- A second reply is delivered when the segments behind the first one complete it. -/
theorem delivered_further {c : Nat} {waiting : Bytes} {segments : List Bytes} {closed : Bool}
    {one : HttpConn} (fresh : Fresh platform c waiting one)
    (further : ¬Unanswered platform one.delivered.length c waiting segments)
    (reached : run (arrive platform) one (arrivals segments closed) = some nc) :
    one.delivered.length < nc.delivered.length := by
  obtain ⟨second, rest, other, rfl, answered⟩ := exists_answered further
  have split : arrivals (second ++ rest) closed =
      second.map .segment ++ arrivals rest closed := by
    simp only [arrivals, List.map_append, List.append_assoc]
  rw [split] at reached
  obtain ⟨two, again, remaining⟩ := run_append_iff.mp reached
  obtain ⟨more, left⟩ := run_answered fresh answered (run_segments again)
  have grown := run_grows left.holds remaining
  omega

/-- Over every stream of bytes that a server sends, cut into any segments and closed at any
point, the callback of a request is invoked at most once at every moment, exactly when the bytes
behind the first reply complete no other one and leave the close no complete header block. -/
theorem oneReply_iff {segments : List Bytes} {closed : Bool}
    (reached : run (arrive platform) {} (arrivals segments closed) = some nc) :
    Always (arrive platform) AtMostOnce {} (arrivals segments closed) ↔
      NoFurtherReply platform segments closed := by
  have start : Fresh platform 0 [] ({} : HttpConn) :=
    ⟨⟨rfl, rfl, rfl, .same, rfl⟩, rfl, Nat.zero_le _⟩
  obtain ⟨middle, ran, opened, close⟩ := arrivals_delivered reached
  rw [always_iff_last start.holds reached]
  by_cases unanswered : Unanswered platform 0 0 [] segments
  · -- without a first reply there is only what the close delivers
    have none : middle.delivered.length = 0 := delivered_of_unanswered start unanswered ran
    refine iff_of_true ?_ fun first later r split answered => ?_
    · cases closed with
      | false => rw [opened rfl, none]; exact Nat.zero_le 1
      | true =>
        rw [(close rfl).2, none]
        split_ifs <;> omega
    · exact absurd answered.complete (unanswered first ⟨later, split.symm⟩ answered.nonempty)
  · obtain ⟨first, later, r, rfl, answered⟩ := exists_answered unanswered
    obtain ⟨one, before, after⟩ := run_append_iff.mp ran
    obtain ⟨count, fresh⟩ := run_answered start answered before
    have single : one.delivered.length = 1 := count
    rw [noFurtherReply_iff answered]
    by_cases further : Unanswered platform 1 r.bodyLen (r.bytes.drop r.message) later
    · rw [← single] at further
      obtain ⟨-, looked⟩ := run_unanswered fresh further after
      have kept := (delivered_of_unanswered fresh further after).trans single
      rw [single] at further
      simp only [further, true_and]
      cases closed with
      | false => simp [opened rfl, kept]
      | true =>
        obtain ⟨running, last⟩ := close rfl
        have leaves := leavesBlock_iff fresh single looked running
        rw [last, kept]
        simp only [← leaves, true_implies]
        split_ifs with block <;> simp [block]
    · refine iff_of_false ?_ fun both => further both.1
      have split : arrivals (first ++ later) closed =
          first.map .segment ++ arrivals later closed := by
        simp only [arrivals, List.map_append, List.append_assoc]
      rw [split] at reached
      obtain ⟨_, begun, goesOn⟩ := run_append_iff.mp reached
      obtain rfl := Option.some.inj (before.symm.trans (run_segments begun))
      rw [← single] at further
      have twice := delivered_further fresh further goesOn
      omega

/-- A server sends two replies in one segment. -/
def twoReplies : List Bytes :=
  [ascii "HTTP/1.1 200 OK\r\nContent-Length: 2\r\n\r\nokHTTP/1.1 200 OK\r\n\r\nno"]

/-- The connection after `twoReplies` and the close. -/
def twoRepliesConn : HttpConn := (run (arrive amd64) {} (arrivals twoReplies true)).getD {}

/-- The second reply of `twoReplies` is delivered by the close. -/
theorem twoReplies_twice : run (arrive amd64) {} (arrivals twoReplies true) = some twoRepliesConn ∧
    (∀ static, ((events twoRepliesConn).foldl onHttpEvent static).received =
      static.received ++ [ascii "ok", ascii "no"]) ∧ ¬AtMostOnce twoRepliesConn := by
  have bodies : twoRepliesConn.delivered.map
      (fun delivery => delivery.hm.body.slice delivery.held) = [ascii "ok", ascii "no"] := by
    decide +kernel
  have count := congrArg List.length bodies
  refine ⟨run_getD {} (by decide +kernel), fun static => by rw [received_events, bodies], ?_⟩
  rw [atMostOnce_iff]
  rw [List.length_map] at count
  exact fun once => absurd (count ▸ once) (by decide)

/-- The hypothesis of `oneReply_iff` holds of `twoReplies`, which brings a further reply. -/
theorem twoReplies_further : ¬NoFurtherReply amd64 twoReplies true := by
  obtain ⟨reached, -, twice⟩ := twoReplies_twice
  intro none
  exact twice ((oneReply_iff reached).mpr none _ [] _ (List.append_nil _).symm reached)

end CppCode.HttpClient
