import CppCode.HttpClient.RoundTrip
import CppCode.Mongoose.Pending

/-!
# What a server has sent

The bytes that are pending at the connection of a request, from the segments that arrived alone.
`grow` says what a further segment adds: nothing when the bytes are ignored from now on, and nothing
when the buffer cannot grow. `Listens.receive` and `Looked.receive` connect this to the handler, one
segment at a time: while no reply is complete the connection is as the bytes say, and the segment
that completes one delivers it and leaves what is behind it.
-/

namespace CppCode.HttpClient

open Library Mongoose

/-! ## Bytes -/

/-- How many bytes the buffer holds once the complete chunks are collapsed. -/
def compact (platform : Platform) (count c : Nat) (p : Pending) : Nat :=
  if p.HasBlock then
    ((p.reassembled platform count c).map fun r => r.bytes.length).getD p.held
  else p.held

/-- A segment is appended when the buffer can grow. -/
def addSegment (platform : Platform) (p : Pending) (segment : Bytes) : Pending :=
  if p.held + segment.length ≤ platform.heap then
    ⟨p.bytes ++ segment, p.held + segment.length⟩
  else p

/-- A further segment, unless nothing more is looked at. -/
def grow (platform : Platform) (count c : Nat) (p : Pending) (segment : Bytes) : Pending :=
  if p.Ignored then p else addSegment platform ⟨p.bytes, compact platform count c p⟩ segment

/-- What is pending after some segments, when other bytes wait already. These are not looked at
before the first segment. -/
def pending (platform : Platform) (count c : Nat) (waiting : Bytes) : List Bytes → Pending
  | [] => ⟨waiting, waiting.length⟩
  | segment :: rest =>
    rest.foldl (grow platform count c) (addSegment platform ⟨waiting, waiting.length⟩ segment)

/-- A further segment is added to what is pending. -/
theorem pending_concat {platform : Platform} {count c : Nat} {waiting : Bytes}
    {segments : List Bytes} (some : segments ≠ []) (segment : Bytes) :
    pending platform count c waiting (segments ++ [segment]) =
      grow platform count c (pending platform count c waiting segments) segment := by
  obtain ⟨first, rest, rfl⟩ := List.exists_cons_of_ne_nil some
  rw [List.cons_append, pending, pending, List.foldl_append, List.foldl_cons, List.foldl_nil]

/-- Bytes that are ignored are no complete reply. -/
theorem not_complete_of_ignored {platform : Platform} {count c : Nat} {p : Pending}
    (ignored : p.Ignored) : ¬p.Complete platform count c := by
  rintro ⟨block, plain, -⟩
  rcases ignored with ⟨-, accepts⟩ | ⟨absent, -⟩
  · exact plain accepts
  · exact absent block

/-! ## The connection -/

section
variable {platform : Platform} {count c : Nat} {p : Pending} {nc next : HttpConn}

/-- The connection listens, and its buffer is read as some bytes are. -/
structure Listens (platform : Platform) (c : Nat) (p : Pending) (nc : HttpConn) : Prop where
  /-- HTTP is spoken. -/
  http : nc.status = .http
  /-- The connection stays open. -/
  stays : nc.closeImmediately = false
  /-- No callback runs. -/
  idle : nc.removals = []
  /-- The buffer is read as the bytes are. -/
  reads : Reads platform p.bytes c nc.recvMbuf nc.chunkBodyLen
  /-- It holds as many bytes as they say. -/
  size : nc.recvMbuf.length = p.held

/-- The connection has looked at some bytes, and found no complete reply. -/
inductive Looked (platform : Platform) (count c : Nat) (p : Pending) (nc : HttpConn) : Prop
  /-- It listens for more of them. -/
  | waits (more : ¬p.Ignored)
    (listens : Listens platform c ⟨p.bytes, compact platform count c p⟩ nc)
  /-- It will be closed: there is no block. -/
  | closing (ignored : p.Ignored) (http : nc.status = .http) (idle : nc.removals = [])
    (closes : nc.closeImmediately = true) (absent : ¬nc.pending.HasBlock)
  /-- It speaks WebSocket. -/
  | upgraded (ignored : p.Ignored) (idle : nc.removals = []) (websocket : nc.status = .websocket)
  /-- The program has stopped. -/
  | stopped (idle : nc.removals = []) (stopped : nc.status = .stopped)

/-- No callback runs while nothing is delivered. -/
theorem Looked.idle (looked : Looked platform count c p nc) : nc.removals = [] := by
  cases looked with
  | waits _ listens => exact listens.idle
  | closing _ _ idle => exact idle
  | upgraded _ idle => exact idle
  | stopped idle => exact idle

/-- The connection after a complete reply was handled. -/
def answered (nc : HttpConn) (r : Reassembled) (hm : HttpMessage) : HttpConn :=
  { nc with
    recvMbuf := r.bytes
    chunkBodyLen := r.bodyLen
    removals := [r.message]
    delivered := nc.delivered ++ [⟨r.bytes, hm⟩] }

/-- What a segment does to a connection, by the bytes that are then pending. -/
inductive Handles (platform : Platform) (c : Nat) (p : Pending) (nc : HttpConn)
    (result : Reassembled → HttpMessage → HttpConn) (next : HttpConn) : Prop
  /-- There is no complete reply. -/
  | looked (unfinished : ¬p.Complete platform nc.delivered.length c)
    (looked : Looked platform nc.delivered.length c p next) (same : next.delivered = nc.delivered)
  /-- There is one, and it is delivered. -/
  | answered {r : Reassembled} {hm : HttpMessage}
    (complete : p.Complete platform nc.delivered.length c)
    (found : p.reassembled platform nc.delivered.length c = some r)
    (inside : r.message ≤ r.bytes.length)
    (ready : nc.status = .http ∧ nc.closeImmediately = false ∧ nc.removals = [])
    (same : next = result r hm)

/-- A complete reply is one that was reassembled and is in the buffer. -/
theorem complete_iff (block : p.HasBlock) (plain : ¬Upgrades p.bytes p.block false)
    {r : Reassembled}
    (found : p.reassembled platform count c = some r) :
    p.Complete platform count c ↔ r.message ≤ r.bytes.length := by
  constructor
  · rintro ⟨-, -, other, same, inside⟩
    obtain rfl := Option.some.inj (found.symm.trans same)
    exact inside
  · exact fun inside => ⟨block, plain, r, found, inside⟩

/-- The handler does with the buffer what the bytes say. -/
theorem handleRecv_handles (listens : Listens platform c p nc)
    (heap : nc.recvMbuf.length ≤ platform.heap) :
    Handles platform c p nc (answered nc) (handleRecv platform false nc) := by
  obtain ⟨bytes, held⟩ := p
  obtain ⟨http, stays, idle, reads, size⟩ := listens
  simp only at reads size
  subst size
  obtain ⟨length, hasBlock, upgrades, reassembled⟩ := reads.alike nc.recvMbuf.length
  by_cases block : nc.pending.HasBlock
  · have its := hasBlock.mp block
    have same := reassembled its nc.delivered.length
    obtain ⟨stops, goesOn⟩ := handleRecv_block heap block
    cases found : nc.pending.reassembled platform nc.delivered.length nc.chunkBodyLen with
    | none =>
      rw [stops found]
      refine .looked ?_ (.stopped idle rfl) rfl
      rintro ⟨-, -, r, some, -⟩
      rw [← same, found] at some
      exact Option.not_mem_none r some
    | some r =>
      obtain ⟨hm, handled⟩ := goesOn r found
      rw [handled]
      by_cases accepts : Upgrades nc.recvMbuf nc.pending.block false
      · rw [if_pos accepts]
        have ignored : (⟨bytes, nc.recvMbuf.length⟩ : Pending).Ignored :=
          .inl ⟨its, (upgrades its).mp accepts⟩
        exact .looked (not_complete_of_ignored ignored) (.upgraded ignored idle rfl) rfl
      · have plain := mt (upgrades its).mpr accepts
        have complete := complete_iff its plain (same.symm.trans found)
        rw [if_neg accepts]
        by_cases inside : r.message ≤ r.bytes.length
        · have settled : nc.settle r hm = answered nc r hm := by
            rw [HttpConn.settle, if_pos inside, idle]
            rfl
          exact .answered (complete.mpr inside) (same.symm.trans found) inside
            ⟨http, stays, idle⟩ settled
        · have whole : compact platform nc.delivered.length c ⟨bytes, nc.recvMbuf.length⟩ =
              r.bytes.length := by
            rw [compact, if_pos its, ← same, found]
            rfl
          rw [HttpConn.settle, if_neg inside]
          refine .looked (mt complete.mp inside) (.waits ?_ ⟨http, stays, idle, ?_, ?_⟩) rfl
          · rintro (⟨-, other⟩ | ⟨absent, -⟩)
            · exact plain other
            · exact absent its
          · exact reads.trans (Pending.reassembled_reads block found (not_le.mp inside))
          · rw [whole]
  · have absent := mt hasBlock.mpr block
    have unfinished :
        ¬(⟨bytes, nc.recvMbuf.length⟩ : Pending).Complete platform nc.delivered.length c :=
      fun complete => absent complete.1
    have same : nc.pending.Ignored ↔ (⟨bytes, nc.recvMbuf.length⟩ : Pending).Ignored := by
      simp only [Pending.Ignored, block, absent, length, false_and, not_false_eq_true, true_and]
    rw [handleRecv_ignored block]
    by_cases ignored : nc.pending.Ignored
    · rw [if_pos ignored]
      exact .looked unfinished (.closing (same.mp ignored) http idle rfl block) rfl
    · rw [if_neg ignored]
      refine .looked unfinished (.waits (mt same.mpr ignored) ⟨http, stays, idle, reads, ?_⟩) rfl
      rw [compact, if_neg absent]

/-- The connection when the callback has returned. -/
def replied (nc : HttpConn) (r : Reassembled) (hm : HttpMessage) : HttpConn :=
  { nc with
    recvMbuf := r.bytes.drop r.message
    chunkBodyLen := r.bodyLen
    delivered := nc.delivered ++ [⟨r.bytes, hm⟩] }

/-- Appending a segment to the buffer is appending it to the bytes. -/
theorem Listens.added (listens : Listens platform c p nc) (segment : Bytes) :
    Listens platform c (addSegment platform p segment)
      { nc with recvMbuf := mbufAppend platform nc.recvMbuf segment } := by
  obtain ⟨http, stays, idle, reads, size⟩ := listens
  unfold addSegment mbufAppend
  rw [size]
  split_ifs with grows
  · exact ⟨http, stays, idle, reads.append segment, by simp only [List.length_append, size]⟩
  · exact ⟨http, stays, idle, reads, size⟩

/-- A segment that arrives at a connection that listens. -/
theorem Listens.receive (listens : Listens platform c p nc) (holds : nc.Holds platform)
    (segment : Bytes) : ∃ next, receive platform nc segment = some next ∧
      Handles platform c (addSegment platform p segment) nc (replied nc) next := by
  have http := listens.http
  have stays := listens.stays
  have idle := listens.idle
  have taken : Mongoose.step platform false nc (.recv segment) = some (handleRecv platform false
      { nc with recvMbuf := mbufAppend platform nc.recvMbuf segment }) := by
    simp only [Mongoose.step, http, stays, Bool.false_eq_true, if_false]
  have handles := handleRecv_handles (listens.added segment) (mbufAppend_le holds segment)
  rw [HttpClient.receive, recvSegment, taken, Option.bind_some]
  generalize handleRecv platform false
    { nc with recvMbuf := mbufAppend platform nc.recvMbuf segment } = middle at handles
  cases handles with
  | looked unfinished looked same =>
    dsimp only at unfinished looked same
    rw [looked.idle]
    exact ⟨middle, rfl, .looked unfinished looked same⟩
  | @answered r hm complete found inside ready same =>
    dsimp only at complete found
    subst same
    refine ⟨replied nc r hm, ?_, .answered complete found inside ready rfl⟩
    have removed : mbufRemove r.bytes r.message = r.bytes.drop r.message := by
      unfold mbufRemove
      split_ifs with valid
      · rfl
      · obtain zero : r.message = 0 := by omega
        rw [zero, List.drop_zero]
    simp only [answered, Mongoose.step, http, removed, replied, idle]

/-- A segment that arrives at a connection that has looked at some bytes. -/
theorem Looked.receive (looked : Looked platform nc.delivered.length c p nc)
    (holds : nc.Holds platform) {segment : Bytes}
    (received : receive platform nc segment = some next) :
    Handles platform c (grow platform nc.delivered.length c p segment) nc (replied nc) next := by
  have idle := looked.idle
  cases looked with
  | waits more listens =>
    obtain ⟨other, same, handles⟩ := listens.receive holds segment
    obtain rfl := Option.some.inj (same.symm.trans received)
    rw [grow, if_neg more]
    exact handles
  | closing ignored http _ closes absent =>
    have same : HttpClient.receive platform nc segment = some nc := by
      simp only [HttpClient.receive, recvSegment, Mongoose.step, http, closes, if_true,
        Option.bind_some, idle]
    obtain rfl := Option.some.inj (same.symm.trans received)
    rw [grow, if_pos ignored]
    exact .looked (not_complete_of_ignored ignored) (.closing ignored http idle closes absent) rfl
  | upgraded ignored _ websocket =>
    have same : HttpClient.receive platform nc segment = some nc := by
      simp only [HttpClient.receive, recvSegment, Mongoose.step, websocket, Option.bind_some, idle]
    obtain rfl := Option.some.inj (same.symm.trans received)
    rw [grow, if_pos ignored]
    exact .looked (not_complete_of_ignored ignored) (.upgraded ignored idle websocket) rfl
  | stopped _ stopped => simp [HttpClient.receive, recvSegment, Mongoose.step, stopped] at received

/-- A segment keeps the buffer in the heap. -/
theorem receive_holds {segment : Bytes} (holds : nc.Holds platform)
    (received : receive platform nc segment = some next) : next.Holds platform := by
  obtain ⟨middle, taken, after⟩ := Option.bind_eq_some_iff.mp received
  have kept := step_holds holds taken
  cases pending : middle.removals with
  | nil =>
    rw [pending] at after
    rwa [← Option.some.inj after]
  | cons length rest =>
    rw [pending] at after
    exact step_holds kept after

/-! ## Runs of segments -/

/-- A connection that begins to listen with some bytes in its buffer. -/
structure Fresh (platform : Platform) (c : Nat) (waiting : Bytes) (nc : HttpConn) : Prop where
  /-- It listens. -/
  listens : Listens platform c ⟨waiting, waiting.length⟩ nc
  /-- The bytes are those in its buffer. -/
  buffer : nc.recvMbuf = waiting
  /-- They fit in the heap. -/
  holds : nc.Holds platform

/-- None of the segments completes a reply. -/
def Unanswered (platform : Platform) (count c : Nat) (waiting : Bytes) (segments : List Bytes) :
    Prop :=
  ∀ part, part <+: segments → part ≠ [] →
    ¬(pending platform count c waiting part).Complete platform count c

/-- The last of the segments completes a reply, and none of the others does. -/
structure Answered (platform : Platform) (count c : Nat) (waiting : Bytes) (segments : List Bytes)
    (r : Reassembled) : Prop where
  /-- There are segments. -/
  nonempty : segments ≠ []
  /-- Before the last there is no complete reply. -/
  earlier : Unanswered platform count c waiting segments.dropLast
  /-- With the last there is one. -/
  complete : (pending platform count c waiting segments).Complete platform count c
  /-- Its bytes. -/
  found : (pending platform count c waiting segments).reassembled platform count c = some r

variable {waiting : Bytes} {segments : List Bytes}

/-- A further segment, when none of those before completes a reply. -/
theorem run_handles {segment : Bytes} (fresh : Fresh platform c waiting nc)
    (looked : segments = [] ∧ next = nc ∨ segments ≠ [] ∧ next.delivered = nc.delivered ∧
      Looked platform nc.delivered.length c
        (pending platform nc.delivered.length c waiting segments) next)
    (holds : next.Holds platform) {last : HttpConn}
    (received : receive platform next segment = some last) :
    Handles platform c (pending platform nc.delivered.length c waiting (segments ++ [segment])) next
      (replied next) last := by
  rcases looked with ⟨rfl, rfl⟩ | ⟨some, same, looked⟩
  · obtain ⟨other, taken, handles⟩ := fresh.listens.receive fresh.holds segment
    obtain rfl := Option.some.inj (taken.symm.trans received)
    exact handles
  · rw [pending_concat some, ← same]
    rw [← same] at looked
    exact looked.receive holds received

/-- While no reply is complete nothing is delivered, and the connection is as the bytes say. -/
theorem run_unanswered (fresh : Fresh platform c waiting nc)
    (unanswered : Unanswered platform nc.delivered.length c waiting segments)
    (ran : run (receive platform) nc segments = some next) :
    next.Holds platform ∧ (segments = [] ∧ next = nc ∨
      segments ≠ [] ∧ next.delivered = nc.delivered ∧
        Looked platform nc.delivered.length c
          (pending platform nc.delivered.length c waiting segments) next) := by
  induction segments using List.reverseRecOn generalizing next with
  | nil =>
    obtain rfl := Option.some.inj ran
    exact ⟨fresh.holds, .inl ⟨rfl, rfl⟩⟩
  | append_singleton segments segment ih =>
    obtain ⟨middle, before, -⟩ := run_append_iff.mp ran
    rw [run_concat segment before] at ran
    obtain ⟨holds, looked⟩ := ih (fun part inside => unanswered part
      (inside.trans (List.prefix_append _ _))) before
    have same : middle.delivered = nc.delivered := by
      rcases looked with ⟨-, rfl⟩ | ⟨-, same, -⟩
      · rfl
      · exact same
    refine ⟨receive_holds holds ran, .inr ⟨by simp, ?_⟩⟩
    have handles := run_handles fresh looked holds ran
    have unfinished := unanswered _ List.prefix_rfl (by simp)
    cases handles with
    | looked _ looked kept => exact ⟨kept.trans same, by rwa [same] at looked⟩
    | answered complete =>
      rw [same] at complete
      exact absurd complete unfinished

/-- The segment that completes a reply delivers it, and the connection listens for what is behind
it. -/
theorem run_answered (fresh : Fresh platform c waiting nc) {r : Reassembled}
    (done : Answered platform nc.delivered.length c waiting segments r)
    (ran : run (receive platform) nc segments = some next) :
    next.delivered.length = nc.delivered.length + 1 ∧
      Fresh platform r.bodyLen (r.bytes.drop r.message) next := by
  obtain ⟨nonempty, earlier, complete, found⟩ := done
  obtain ⟨first, segment, rfl⟩ := (List.eq_nil_or_concat segments).resolve_left nonempty
  rw [List.concat_eq_append] at ran earlier complete found
  rw [List.dropLast_concat] at earlier
  obtain ⟨middle, before, -⟩ := run_append_iff.mp ran
  rw [run_concat segment before] at ran
  obtain ⟨holds, looked⟩ := run_unanswered fresh earlier before
  have same : middle.delivered = nc.delivered := by
    rcases looked with ⟨-, rfl⟩ | ⟨-, same, -⟩
    · rfl
    · exact same
  have handles := run_handles fresh looked holds ran
  have kept := receive_holds holds ran
  cases handles with
  | looked unfinished =>
    rw [same] at unfinished
    exact absurd complete unfinished
  | @answered other hm _ again inside ready result =>
    rw [same] at again
    obtain rfl := Option.some.inj (found.symm.trans again)
    subst result
    obtain ⟨http, stays, idle⟩ := ready
    refine ⟨?_, ⟨http, stays, idle, .same, rfl⟩, rfl, kept⟩
    rw [replied, List.length_append, same, List.length_singleton]

end

end CppCode.HttpClient
