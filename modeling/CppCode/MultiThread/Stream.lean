import Mathlib.Data.Multiset.AddSub
import CppCode.Library.Blocks
import CppCode.Library.Pool
import CppCode.MultiThread.Model

/-!
# The request channel as a byte stream

`sock` is a stream socket: `ev_handler` writes a record as a block of 4096 bytes, and a
`recvfrom` of a worker returns any non-empty prefix of the bytes that are there, or an error.
The worker copies what it has received over a zeroed buffer and takes its record from there, so
the record is whole only when the read began at a block boundary and returned at least the
size of a record. `processed_subperm` says that runs of such reads process written records, each
at most once, which is what the server model assumes of its channel. After an error, or from
the padding of a block, the record is zero, and constructing a string from its `NULL` URI ends
the process.

A pointer of a record that is not `NULL` may be readable or not, since the buffer of the
connection may be gone; both outcomes are steps. A worker that finds the signal set takes no
further step, and the runs of this system include those in which it does not.
-/

namespace CppCode.MultiThread.Stream

open Library Mongoose

/-- Size of `sendBuf` and `recvBuf`. -/
def blockSize : Nat := 4096

/-- Where a target keeps the fields of a `struct work_request` that a worker dereferences. -/
structure Layout where
  /-- `sizeof(work_request)`. -/
  size : Nat
  /-- Size of a pointer. -/
  pointer : Nat
  /-- Offset of `message.method.p`. -/
  methodP : Nat
  /-- Offset of `message.uri.p`. -/
  uriP : Nat
  /-- A record is copied into a block. -/
  fits : size ≤ blockSize

/-- The 32-bit Windows target. -/
def win32 : Layout := ⟨704, 4, 12, 20, by decide⟩

/-- The bytes of a `struct work_request`. -/
structure Record (layout : Layout) where
  /-- Its representation. -/
  bytes : Bytes
  /-- It has the size of the structure. -/
  sized : bytes.length = layout.size
  deriving DecidableEq

variable {layout : Layout}

/-- The pointer of a record at an offset is `NULL`. -/
def Record.isNull (record : Record layout) (offset : Nat) : Bool :=
  ((record.bytes.drop offset).take layout.pointer).all (· == 0)

/-- The record at the start of a buffer, which `memcpy` copies out of it; a buffer is zero where
nothing was received. -/
def memcpyRequest (layout : Layout) (received : Bytes) : Record layout where
  bytes := (received ++ List.replicate layout.size 0).take layout.size
  sized := by simp

/-- The block that `ev_handler` writes for a record. -/
def sendBuf (record : Record layout) : Bytes :=
  record.bytes ++ List.replicate (blockSize - layout.size) 0

/-- Where a worker is in its loop. -/
inductive Reader (layout : Layout)
  /-- In `recvfrom`. -/
  | reading
  /-- Printing the record. -/
  | holding (record : Record layout)
  /-- Asleep before the broadcast. -/
  | asleep (record : Record layout)
  /-- In `mg_broadcast`. -/
  | waiting

/-- The socket pair and the workers. -/
structure State (layout : Layout) where
  /-- Bytes in the socket. -/
  bytes : Bytes
  /-- Number of bytes received so far. -/
  consumed : Nat
  /-- Records written so far. -/
  written : List (Record layout)
  /-- The workers. -/
  readers : Fin numWorkerThreads → Reader layout
  /-- Records that a result was broadcast for. -/
  processed : List (Record layout)
  /-- The process has ended in a worker. -/
  crashed : Bool

/-- Nothing written, and all workers reading. -/
def start (layout : Layout) : State layout where
  bytes := []
  consumed := 0
  written := []
  readers := fun _ => .reading
  processed := []
  crashed := false

/-- One step of the IO thread or of a worker. -/
inductive Action (layout : Layout)
  /-- `ev_handler` writes a record. -/
  | write (record : Record layout)
  /-- A `recvfrom` returns a number of bytes. -/
  | recv (i : Fin numWorkerThreads) (count : Nat)
  /-- A `recvfrom` returns an error, which the worker reports. -/
  | recvError (i : Fin numWorkerThreads)
  /-- A worker constructs and prints the strings of its record. -/
  | print (i : Fin numWorkerThreads)
  /-- A worker dereferences a `NULL` or dangling pointer of its record. -/
  | fault (i : Fin numWorkerThreads)
  /-- A worker broadcasts its result. -/
  | broadcast (i : Fin numWorkerThreads)
  /-- The IO thread has handled the broadcast of a worker. -/
  | handled (i : Fin numWorkerThreads)

/-- Move one worker. -/
def State.setReader (s : State layout) (i : Fin numWorkerThreads) (reader : Reader layout) :
    State layout :=
  { s with readers := Function.update s.readers i reader }

/-- The effect of an action, `none` when it is not enabled. -/
def step (s : State layout) (action : Action layout) : Option (State layout) :=
  if s.crashed then none
  else
    match action with
    | .write record => some { s with
        bytes := s.bytes ++ sendBuf record
        written := s.written ++ [record] }
    | .recv i count =>
      match s.readers i with
      | .reading =>
        if 0 < count ∧ count ≤ blockSize ∧ count ≤ s.bytes.length then
          some { s.setReader i (.holding (memcpyRequest layout (s.bytes.take count))) with
            bytes := s.bytes.drop count
            consumed := s.consumed + count }
        else none
      | _ => none
    | .recvError i =>
      match s.readers i with
      | .reading => some (s.setReader i (.holding (memcpyRequest layout [])))
      | _ => none
    | .print i =>
      match s.readers i with
      | .holding record =>
        if record.isNull layout.uriP ∨ record.isNull layout.methodP then none
        else some (s.setReader i (.asleep record))
      | _ => none
    | .fault i =>
      match s.readers i with
      | .holding _ => some { s with crashed := true }
      | _ => none
    | .broadcast i =>
      match s.readers i with
      | .asleep record =>
        some { s.setReader i .waiting with processed := s.processed ++ [record] }
      | _ => none
    | .handled i =>
      match s.readers i with
      | .waiting => some (s.setReader i .reading)
      | _ => none

/-- A successful read starts at a block boundary and returns a whole record. -/
def Aligned (s : State layout) : Action layout → Prop
  | .recv _ count => blockSize ∣ s.consumed ∧ layout.size ≤ count
  | _ => True

instance (s : State layout) : ∀ action, Decidable (Aligned s action)
  | .recv _ count => inferInstanceAs (Decidable (blockSize ∣ s.consumed ∧ layout.size ≤ count))
  | .write _ | .recvError _ | .print _ | .fault _ | .broadcast _ | .handled _ => isTrue trivial

/-! ## Blocks and records -/

/-- Every block has the size of the buffer. -/
theorem sendBuf_length (record : Record layout) : (sendBuf record).length = blockSize := by
  have fits := layout.fits
  simp only [sendBuf, List.length_append, record.sized, List.length_replicate]
  omega

/-- A received prefix of a block that covers the record is read as the record. -/
theorem memcpyRequest_sendBuf (record : Record layout) (rest : Bytes) {count : Nat}
    (whole : layout.size ≤ count) :
    memcpyRequest layout ((sendBuf record ++ rest).take count) = record := by
  have front : ((sendBuf record ++ rest).take count).take layout.size = record.bytes := by
    rw [List.take_take, Nat.min_eq_left whole, sendBuf, List.append_assoc, ← record.sized,
      List.take_left]
  have long : layout.size ≤ ((sendBuf record ++ rest).take count).length := by
    have fits := layout.fits
    rw [List.length_take, List.length_append, sendBuf_length]
    omega
  cases record
  simp only [memcpyRequest, Record.mk.injEq]
  rw [List.take_append_of_le_length long]
  exact front

/-- The record of an empty buffer has no URI. -/
theorem isNull_empty (offset : Nat) : (memcpyRequest layout []).isNull offset = true := by
  simp only [Record.isNull, memcpyRequest, List.nil_append, List.take_replicate,
    List.drop_replicate, List.all_replicate]
  simp

/-! ## The invariant of aligned reads -/

/-- The record that a worker holds and can go on to process. -/
def Reader.carried : Reader layout → Multiset (Record layout)
  | .holding record =>
    if record.isNull layout.uriP ∨ record.isNull layout.methodP then 0 else {record}
  | .asleep record => {record}
  | _ => 0

/-- A worker that has received a record holds no other. -/
theorem carried_holding (record : Record layout) : (Reader.holding record).carried ≤ {record} := by
  dsimp only [Reader.carried]
  split
  · exact Multiset.zero_le _
  · exact le_refl _

/-- The number of records that the received bytes belong to. -/
def State.begun (s : State layout) : Nat := (s.consumed + (blockSize - 1)) / blockSize

/-- The channel holds the rest of the written blocks, and what the workers have processed or
hold are different records among those they have begun to receive. -/
structure Intact (s : State layout) : Prop where
  /-- No more was received than written. -/
  bounded : s.consumed ≤ blockSize * s.written.length
  /-- The socket holds what was written and not received. -/
  stream : s.bytes = (s.written.flatMap sendBuf).drop s.consumed
  /-- Each record is processed or held once. -/
  once : (s.processed : Multiset (Record layout)) + poolSum Reader.carried s.readers ≤
    (s.written.take s.begun : List (Record layout))

/-- Received records have been written. -/
theorem Intact.begun_le {s : State layout} (intact : Intact s) : s.begun ≤ s.written.length := by
  have bounded := intact.bounded
  unfold State.begun blockSize at *
  omega

/-- At a block boundary, the socket holds the blocks of the records not yet received. -/
theorem Intact.aligned {s : State layout} (intact : Intact s) (boundary : blockSize ∣ s.consumed) :
    s.bytes = (s.written.drop s.begun).flatMap sendBuf := by
  obtain ⟨count, multiple⟩ := boundary
  have begun : s.begun = count := by
    rw [State.begun, multiple]
    unfold blockSize
    omega
  rw [intact.stream, multiple, drop_blocks sendBuf_length, begun]

/-- Moving a worker that keeps its record, or drops it, keeps the channel intact. -/
theorem intact_setReader {s : State layout} (intact : Intact s) (i : Fin numWorkerThreads)
    (reader : Reader layout) (fewer : reader.carried ≤ (s.readers i).carried) :
    Intact (s.setReader i reader) where
  bounded := intact.bounded
  stream := intact.stream
  once := by
    refine le_trans ?_ intact.once
    have moved := pool_move Reader.carried s.readers i reader
    refine add_le_add_right ?_ _
    apply @le_of_add_le_add_right _ _ _ _ (s.readers i).carried _ _
    calc
      poolSum Reader.carried (Function.update s.readers i reader) + (s.readers i).carried =
          poolSum Reader.carried s.readers + reader.carried := moved
      _ ≤ poolSum Reader.carried s.readers + (s.readers i).carried := by gcongr

/-- A written block extends the channel. -/
theorem intact_write {s : State layout} (intact : Intact s) (record : Record layout) :
    Intact { s with bytes := s.bytes ++ sendBuf record, written := s.written ++ [record] } where
  bounded := by
    have bounded := intact.bounded
    change s.consumed ≤ blockSize * (s.written ++ [record]).length
    rw [List.length_append, Nat.mul_add]
    exact le_trans bounded (Nat.le_add_right _ _)
  stream := by
    have reach : s.consumed ≤ (s.written.flatMap sendBuf).length := by
      rw [length_blocks sendBuf_length]
      exact intact.bounded
    change s.bytes ++ sendBuf record = ((s.written ++ [record]).flatMap sendBuf).drop s.consumed
    rw [List.flatMap_append, List.drop_append_of_le_length reach, ← intact.stream,
      List.flatMap_singleton]
  once := by
    have kept : (s.written ++ [record]).take s.begun = s.written.take s.begun :=
      List.take_append_of_le_length intact.begun_le
    change _ ≤ (↑((s.written ++ [record]).take s.begun) : Multiset (Record layout))
    rw [kept]
    exact intact.once

/-- An aligned read takes the next written record. -/
theorem intact_recv {s : State layout} (intact : Intact s) {i : Fin numWorkerThreads}
    {count : Nat} (reading : s.readers i = .reading) (positive : 0 < count)
    (below : count ≤ blockSize) (available : count ≤ s.bytes.length)
    (boundary : blockSize ∣ s.consumed) (whole : layout.size ≤ count) :
    Intact { s.setReader i (.holding (memcpyRequest layout (s.bytes.take count))) with
      bytes := s.bytes.drop count
      consumed := s.consumed + count } := by
  have queue := intact.aligned boundary
  have nonempty : (s.written.drop s.begun).flatMap sendBuf ≠ [] := by
    intro empty
    rw [queue, empty] at available
    exact absurd available (by simp; omega)
  obtain ⟨record, rest, next⟩ := blocks_cons _ nonempty
  have received : memcpyRequest layout (s.bytes.take count) = record := by
    rw [queue, next, List.flatMap_cons, memcpyRequest_sendBuf record _ whole]
  obtain ⟨number, multiple⟩ := boundary
  have begun : s.begun = number := by
    rw [State.begun, multiple]
    unfold blockSize
    omega
  have later : (s.consumed + count + (blockSize - 1)) / blockSize = s.begun + 1 := by
    rw [begun, multiple]
    unfold blockSize at *
    omega
  have more : s.begun + 1 ≤ s.written.length := by
    have length := congrArg List.length next
    rw [List.length_drop, List.length_cons] at length
    omega
  refine ⟨?_, ?_, ?_⟩
  · change s.consumed + count ≤ blockSize * s.written.length
    have reach := Nat.mul_le_mul_left blockSize more
    rw [multiple, ← begun]
    unfold blockSize at *
    omega
  · change s.bytes.drop count = (s.written.flatMap sendBuf).drop (s.consumed + count)
    rw [intact.stream, List.drop_drop]
  · have taken : s.written.take (s.begun + 1) = s.written.take s.begun ++ [record] := by
      rw [List.take_add, next]
      rfl
    change (s.processed : Multiset (Record layout)) + poolSum Reader.carried
        (Function.update s.readers i (.holding (memcpyRequest layout (s.bytes.take count)))) ≤
      ↑(s.written.take ((s.consumed + count + (blockSize - 1)) / blockSize))
    rw [received, later, taken, ← Multiset.coe_add, Multiset.coe_singleton]
    have moved := pool_move Reader.carried s.readers i (.holding record)
    have idle : (s.readers i).carried = 0 := by rw [reading]; rfl
    rw [idle, add_zero] at moved
    rw [moved, ← add_assoc]
    exact add_le_add intact.once (carried_holding record)

/-- Aligned steps keep the channel intact. -/
theorem intact_step {s next : State layout} {action : Action layout} (intact : Intact s)
    (aligned : Aligned s action) (taken : step s action = some next) : Intact next := by
  unfold step at taken
  split at taken
  · contradiction
  · cases action with
    | write record =>
      obtain rfl := Option.some.inj taken
      exact intact_write intact record
    | recv i count =>
      dsimp only at taken
      split at taken
      · rename_i reading
        simp only [Option.ite_none_right_eq_some, Option.some.injEq] at taken
        obtain ⟨⟨positive, below, available⟩, rfl⟩ := taken
        exact intact_recv intact reading positive below available aligned.1 aligned.2
      · contradiction
    | recvError i =>
      dsimp only at taken
      split at taken
      · rename_i reading
        obtain rfl := Option.some.inj taken
        apply intact_setReader intact i _
        rw [Reader.carried, if_pos (.inl (isNull_empty _))]
        exact Multiset.zero_le _
      · contradiction
    | print i =>
      dsimp only at taken
      split at taken
      · rename_i record holding
        simp only [Option.ite_none_left_eq_some, Option.some.injEq] at taken
        obtain ⟨pointers, rfl⟩ := taken
        refine intact_setReader intact i _ (le_of_eq ?_)
        rw [holding, Reader.carried, Reader.carried, if_neg pointers]
      · contradiction
    | fault i =>
      dsimp only at taken
      split at taken
      · obtain rfl := Option.some.inj taken
        exact ⟨intact.bounded, intact.stream, intact.once⟩
      · contradiction
    | broadcast i =>
      dsimp only at taken
      split at taken
      · rename_i record asleep
        obtain rfl := Option.some.inj taken
        refine ⟨intact.bounded, intact.stream, le_trans (le_of_eq ?_) intact.once⟩
        have moved := pool_move Reader.carried s.readers i .waiting
        have before : (s.readers i).carried = {record} := by rw [asleep]; rfl
        have after : (Reader.waiting : Reader layout).carried = 0 := rfl
        rw [before, after, add_zero] at moved
        change (↑(s.processed ++ [record]) : Multiset (Record layout)) +
          poolSum Reader.carried (Function.update s.readers i .waiting) = _
        rw [← moved, ← Multiset.coe_add, Multiset.coe_singleton]
        ac_rfl
      · contradiction
    | handled i =>
      dsimp only at taken
      split at taken
      · rename_i waiting
        obtain rfl := Option.some.inj taken
        exact intact_setReader intact i _ (Multiset.zero_le _)
      · contradiction

/-- The channel is intact at the start. -/
theorem intact_start : Intact (start layout) where
  bounded := Nat.zero_le _
  stream := rfl
  once := by
    have empty : poolSum Reader.carried (start layout).readers = 0 :=
      Finset.sum_eq_zero fun _ _ => rfl
    rw [empty]
    exact Multiset.zero_le _

/-- In a run in which every successful read starts at a block boundary and returns a whole
record, the records that results are broadcast for are records that `ev_handler` wrote, each at
most as often as it was written. -/
theorem processed_subperm {s : State layout} {actions : List (Action layout)}
    (reached : run step (start layout) actions = some s)
    (along : Along step Aligned (start layout) actions) : s.processed.Subperm s.written := by
  have intact : Intact s :=
    run_invariant_along (fun _ _ _ => intact_step) intact_start along reached
  rw [← Multiset.coe_le]
  calc
    (s.processed : Multiset (Record layout)) ≤
        s.processed + poolSum Reader.carried s.readers := Multiset.le_add_right _ _
    _ ≤ (s.written.take s.begun : List (Record layout)) := intact.once
    _ ≤ (s.written : Multiset (Record layout)) :=
      Multiset.coe_le.mpr (List.take_sublist _ _).subperm

/-- Little-endian bytes of 32-bit words. -/
def wordBytes (words : List Nat) : Bytes :=
  words.flatMap fun word => (List.range 4).map fun i => UInt8.ofNat (word / 256 ^ i)

/-- A word is four bytes long. -/
theorem wordBytes_length (words : List Nat) : (wordBytes words).length = 4 * words.length :=
  length_blocks (fun _ => by simp) words

/-- The 32-bit record for a `GET /` request of 18 bytes that is parsed at an address. -/
def getRecord (connId address : Nat) : Record win32 where
  bytes := wordBytes ([connId, address, 18, address, 3, address + 4, 1, address + 6, 8] ++
    List.replicate 165 0 ++ [address + 18, 0])
  sized := by
    rw [wordBytes_length]
    simp only [List.length_append, List.length_replicate]
    rfl

/-- Two clients send a request each; the first `recvfrom` leaves eight bytes of the first block,
so that the second one reads its record from eight bytes before the second block. -/
def shortRead : List (Action win32) :=
  [.write (getRecord 1 4096), .write (getRecord 2 8192), .recv 0 4088, .print 0, .broadcast 0,
    .recv 1 4096, .print 1, .broadcast 1]

/-- The state after `shortRead`. -/
def shortReadState : State win32 := (run step (start win32) shortRead).getD (start win32)

/-- The second result of `shortRead` is for a record that was never written. -/
theorem shortRead_invents : run step (start win32) shortRead = some shortReadState ∧
    ¬shortReadState.processed.Subperm shortReadState.written := by
  -- one evaluation of the run serves the three facts
  have evaluated : (run step (start win32) shortRead).isSome = true ∧
      memcpyRequest win32 (List.replicate 8 0 ++ (getRecord 2 8192).bytes) ∈
        shortReadState.processed ∧
      memcpyRequest win32 (List.replicate 8 0 ++ (getRecord 2 8192).bytes) ∉
        shortReadState.written := by decide +kernel
  obtain ⟨reached, processed, unwritten⟩ := evaluated
  exact ⟨run_getD _ reached, fun intact => unwritten (intact.subset processed)⟩

/-- Two whole reads, the second of which a worker has finished with. -/
def wholeReads : List (Action win32) :=
  [.write (getRecord 1 4096), .write (getRecord 2 8192), .recv 0 4096, .recv 1 4096, .print 1,
    .broadcast 1]

/-- The hypotheses of `processed_subperm` hold of `wholeReads`, which processes a record. -/
theorem wholeReads_subperm : ∃ s, run step (start win32) wholeReads = some s ∧
    getRecord 2 8192 ∈ s.processed ∧ s.processed.Subperm s.written := by
  have evaluated : (run step (start win32) wholeReads).isSome = true ∧
      getRecord 2 8192 ∈ ((run step (start win32) wholeReads).getD (start win32)).processed ∧
      Along step Aligned (start win32) wholeReads := by decide +kernel
  obtain ⟨finished, processed, along⟩ := evaluated
  have reached := run_getD (start win32) finished
  exact ⟨_, reached, processed, processed_subperm reached along⟩

end CppCode.MultiThread.Stream
