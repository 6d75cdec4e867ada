import CppCode.Mongoose.Slices
import CppCode.MultiThread.Buffers

/-!
# Handing a request over

What the IO thread does to the memory when it receives, returns from `ev_handler` or closes a
connection. The method and the URI of a request that is handed over lie in the header block, which
has no `NUL` in it and which the reassembly of a body does not move, so the pointers of its record
show them at that moment (`plan_sound`).
-/

namespace CppCode.MultiThread.Buffers

open Library Mongoose

variable {platform : Platform}

/-! ## The strings of a request -/

/-- `string(str.p).substr(0, str.len)`, `none` for `NULL`. The constructor copies what stands in
front of the next `NUL`. -/
def readString (bytes : Bytes) (str : MgStr) : Option Bytes :=
  str.p.map fun offset => ((bytes.drop offset).takeWhile (· != 0)).take str.len

/-- The strings that `worker_thread_proc` prints, from the bytes of the block. -/
def strings (message : HttpMessage) (bytes : Bytes) : Option Bytes × Option Bytes :=
  (readString bytes message.uri, readString bytes message.method)

/-- The method and the URI of a message lie in front of an offset, and no `NUL` does. -/
structure Readable (io : Bytes) (hm : HttpMessage) (limit : Nat) : Prop where
  /-- The offset is inside of the bytes. -/
  inside : limit ≤ io.length
  /-- There is no `NUL`. -/
  plain : ∀ byte ∈ io.take limit, byte ≠ 0
  /-- The method. -/
  method : hm.method.Within 0 limit
  /-- The URI. -/
  uri : hm.uri.Within 0 limit

/-- A string without a `NUL` is read as the slice that it is, whatever stands behind the bytes. -/
theorem readString_within {io : Bytes} {limit : Nat} {str : MgStr} (inside : limit ≤ io.length)
    (plain : ∀ byte ∈ io.take limit, byte ≠ 0) (within : str.Within 0 limit) (rest : Bytes) :
    readString (io ++ rest) str = some (str.slice io) := by
  obtain ⟨offset, pointer, -, fits⟩ := within
  have split : (io ++ rest).drop offset = (io.drop offset).take str.len ++
      ((io.drop offset).drop str.len ++ rest) := by
    rw [List.drop_append_of_le_length (by omega), ← List.append_assoc, List.take_append_drop]
  have length : ((io.drop offset).take str.len).length = str.len := by
    rw [List.length_take, List.length_drop]
    omega
  have nonzero : ∀ byte ∈ (io.drop offset).take str.len, (byte != 0) = true := by
    intro byte member
    have front : byte ∈ (io.take limit).drop offset := by
      rw [List.drop_take]
      exact List.take_subset_take_left _ (by omega) member
    simpa using plain byte (List.mem_of_mem_drop front)
  simp only [readString, MgStr.slice, pointer, Option.map_some]
  rw [split, List.takeWhile_append_of_pos nonzero, List.take_append_of_le_length (by omega),
    List.take_of_length_le (by omega)]

/-- What a worker reads of a readable message. -/
theorem strings_readable {io : Bytes} {hm : HttpMessage} {limit : Nat}
    (readable : Readable io hm limit) (rest : Bytes) :
    strings hm (io ++ rest) = (some (hm.uri.slice io), some (hm.method.slice io)) := by
  rw [strings, readString_within readable.inside readable.plain readable.uri,
    readString_within readable.inside readable.plain readable.method]

/-- A request that is parsed is readable. -/
theorem mgParseHttp_readable {io : Bytes} {n : Int}
    (positive : 0 < (mgParseHttp platform io n true).1) :
    Readable io (mgParseHttp platform io n true).2 (mgParseHttp platform io n true).1.toNat := by
  have length := (mgParseHttp_pos positive).1
  have complete : 0 < mgHttpGetRequestLen io n := length ▸ positive
  obtain ⟨method, uri⟩ := mgParseHttp_within positive
  rw [length]
  exact ⟨mgHttpGetRequestLen_le complete, mgHttpGetRequestLen_plain complete, method, uri⟩

/-- Bytes with the same front keep a message readable, as long as it has the same method and
URI. -/
theorem Readable.moved {io other : Bytes} {hm same : HttpMessage} {limit : Nat}
    (readable : Readable io hm limit) (front : other.take limit = io.take limit)
    (inside : limit ≤ other.length) (method : same.method = hm.method) (uri : same.uri = hm.uri) :
    Readable other same limit :=
  ⟨inside, front ▸ readable.plain, method ▸ readable.method, uri ▸ readable.uri⟩

/-- The message of a close is as readable as the one that was parsed. -/
theorem Readable.closing {io : Bytes} {hm : HttpMessage} {limit : Nat}
    (readable : Readable io hm limit) (reqLen : Int) :
    Readable io (closingMessage io reqLen hm) limit :=
  readable.moved rfl readable.inside rfl rfl

/-- What the tests at the end of `mg_http_handler` hand over is the message that was parsed, and
they leave the buffer as it is then. -/
theorem dispatch_hands {nc : HttpConn} {reqLen : Int} {parsed hm : HttpMessage}
    (hands : (dispatch true nc reqLen parsed).delivered.head?.map Delivery.hm = some hm)
    (none : nc.delivered = []) :
    0 < reqLen ∧ hm = parsed ∧ (dispatch true nc reqLen parsed).recvMbuf = nc.recvMbuf := by
  simp only [dispatch] at hands ⊢
  split_ifs at hands ⊢ with bad empty upgrade whole
  · simp [none] at hands
  · simp [none] at hands
  · simp [none] at hands
  · simp only [none, List.nil_append, List.head?_cons, Option.map_some, Option.some.injEq] at hands
    exact ⟨by omega, hands.symm, rfl⟩
  · simp [none] at hands

/-- A message that is handed over after parsing is as readable in the reassembled buffer, which is
the buffer at that moment. -/
theorem httpParsed_hands {nc : HttpConn} {reqLen : Int} {parsed hm : HttpMessage}
    {handled : Handled} (none : nc.delivered = [])
    (readable : 0 < reqLen → Readable nc.recvMbuf parsed reqLen.toNat)
    (ran : httpParsed platform nc reqLen parsed = some handled)
    (hands : handled.nc.delivered.head?.map Delivery.hm = some hm) :
    handled.nc.recvMbuf = handled.reassembled ∧
      Readable handled.reassembled hm reqLen.toNat := by
  unfold httpParsed at ran
  split_ifs at ran with chunked
  · obtain ⟨⟨recvMbuf, chunkBodyLen, reassembled⟩, done, rfl⟩ := Option.map_eq_some_iff.mp ran
    obtain ⟨positive, rfl, same⟩ := dispatch_hands hands none
    have block := readable positive
    obtain ⟨front, inside, method, uri⟩ := mgHandleChunked_front block.inside done
    exact ⟨same, block.moved front inside method uri⟩
  · obtain rfl := Option.some.inj ran
    obtain ⟨positive, rfl, same⟩ := dispatch_hands hands none
    exact ⟨same, readable positive⟩

/-- A request that `mg_http_handler` hands over is readable. -/
theorem httpRecv_hands {nc : HttpConn} {handled : Handled} {hm : HttpMessage}
    (none : nc.delivered = []) (ran : httpRecv platform nc = some handled)
    (hands : handled.nc.delivered.head?.map Delivery.hm = some hm) :
    handled.nc.recvMbuf = handled.reassembled ∧
      ∃ limit, Readable handled.reassembled hm limit := by
  obtain ⟨same, readable⟩ := httpParsed_hands none mgParseHttp_readable ran hands
  exact ⟨same, _, readable⟩

/-- What the IO thread leaves in the block begins with the buffer. -/
theorem leftBehind_front (bytes : Bytes) (len : Nat) (handled : Handled) :
    ∃ rest, leftBehind bytes len handled = handled.nc.recvMbuf ++ rest :=
  ⟨_, rfl⟩

/-- A request that is handed over on a close is readable in the buffer. -/
theorem handleClose_hands {nc : HttpConn} {hm : HttpMessage} (none : nc.delivered = [])
    (hands : (handleClose platform true nc).delivered.head?.map Delivery.hm = some hm) :
    nc.recvMbuf ≠ [] ∧ ∃ limit, Readable nc.recvMbuf hm limit := by
  unfold handleClose at hands
  simp only [none, List.nil_append, gt_iff_lt] at hands
  by_cases parsed : 0 < nc.recvMbuf.length ∧
      0 < (mgParseHttp platform nc.recvMbuf (toInt nc.recvMbuf.length) true).1
  · rw [if_pos parsed, List.head?_cons, Option.map_some] at hands
    obtain ⟨held, positive⟩ := parsed
    have readable := mgParseHttp_readable positive
    obtain rfl := Option.some.inj hands
    exact ⟨List.ne_nil_of_length_pos held, _, readable.closing _⟩
  · rw [if_neg parsed] at hands
    contradiction

/-! ## What a move does -/

/-- The buffers are blocks that were allocated. -/
def Allocated (receivers : Nat → Receiver) (next : Nat) : Prop :=
  ∀ serial block, (receivers serial).buf = some block → block < next

/-- They stay so when more is allocated. -/
theorem Allocated.mono {receivers : Nat → Receiver} {next later : Nat}
    (allocated : Allocated receivers next) (more : next ≤ later) : Allocated receivers later :=
  fun serial block buffer => Nat.lt_of_lt_of_le (allocated serial block buffer) more

/-- They stay so when one of them is replaced by a buffer that is. -/
theorem Allocated.update {receivers : Nat → Receiver} {next : Nat}
    (allocated : Allocated receivers next) (serial : Nat) {r : Receiver}
    (own : ∀ block, r.buf = some block → block < next) :
    Allocated (Function.update receivers serial r) next := by
  intro other block buffer
  by_cases same : other = serial
  · subst same
    rw [Function.update_self] at buffer
    exact own block buffer
  · rw [Function.update_of_ne same] at buffer
    exact allocated other block buffer

/-- The request that a step of the server hands to `ev_handler`. -/
def handedMessage : MultiThread.Action → Option HttpMessage
  | .request _ message => some message
  | .close _ leftover => leftover
  | _ => none

/-- Whether a step of the server is one of `mg_http_handler` or of `mg_close_conn`. -/
def onConnection : MultiThread.Action → Bool
  | .request _ _ | .close _ _ => true
  | _ => false

/-- What a move does to the server, the memory and the buffers fits together. -/
structure Move.Sound (p : Process) (move : Move) : Prop where
  /-- The buffers are blocks that were allocated. -/
  receivers : Allocated move.receivers (p.memory.after move.effect).next
  /-- The pointers of a message that is handed over show its strings. -/
  handed : ∀ action ∈ move.action, ∀ message ∈ handedMessage action, ∃ request ∈ move.handed,
    request.block < (p.memory.after move.effect).next ∧
      (p.memory.after move.effect).Shows request.block (strings message)
        (some request.uri, some request.method)
  /-- The memory is changed by the IO thread on a connection only. -/
  effect : move.effect = .keep ∨ ∀ action ∈ move.action, onConnection action = true

/-- A move without a step of the server only has to keep to its buffers. -/
theorem Move.Sound.silent {p : Process} {move : Move} (nothing : move.action = none)
    (receivers : Allocated move.receivers (p.memory.after move.effect).next) : move.Sound p := by
  refine ⟨receivers, ?_, .inr ?_⟩
  · intro action taken
    rw [nothing] at taken
    contradiction
  · intro action taken
    rw [nothing] at taken
    contradiction

/-- The block of a buffer after bytes were appended is its old one or a new one. -/
theorem mgRecvCommon_place (memory : Memory Bytes) (r : Receiver) (buf : Bytes) (moved : Bool) :
    (∃ block, r.buf = some block ∧
        (mgRecvCommon platform memory r buf moved).place = .same block) ∨
      (mgRecvCommon platform memory r buf moved).place = .fresh r.buf := by
  unfold mgRecvCommon
  cases buffer : r.buf with
  | none => exact .inr rfl
  | some block =>
    simp only
    split_ifs with empty heap room
    · exact .inr rfl
    · exact .inl ⟨block, rfl, rfl⟩
    · exact .inl ⟨block, rfl, rfl⟩
    · exact .inr rfl
    · exact .inl ⟨block, rfl, rfl⟩

/-- Bytes that are stored at a place are in its block, which was allocated. -/
theorem place_shows {γ : Type} {memory : Memory Bytes} {place : Place}
    (old : ∀ block, place = .same block → block < memory.next) (bytes : Bytes)
    (view : Bytes → γ) :
    place.block memory < (memory.after (place.effect bytes)).next ∧
      (memory.after (place.effect bytes)).Shows (place.block memory) view (view bytes) := by
  cases place with
  | same block =>
    refine ⟨old block rfl, ?_⟩
    simp [Place.block, Place.effect, Memory.after, Memory.Shows]
  | fresh freed =>
    refine ⟨Nat.lt_succ_self _, ?_⟩
    simp [Place.block, Place.effect, Memory.after, Memory.Shows]

/-- A move that stores the bytes of a segment at a place, where `mg_http_handler` may have found a
request in them. -/
structure Received (p : Process) (serial : Nat) (place : Place) (content : Bytes) (move : Move) :
    Prop where
  /-- The connection is not about to be closed. -/
  accepted : ¬(p.receivers serial).closeImmediately = true
  /-- The place is the block of the buffer or a new one. -/
  located : (∃ block, (p.receivers serial).buf = some block ∧ place = .same block) ∨
    place = .fresh (p.receivers serial).buf
  /-- The bytes are written there. -/
  effect : move.effect = place.effect content
  /-- The buffer is there. -/
  receivers : ∃ r, r.buf = some (place.block p.memory) ∧
    move.receivers = Function.update p.receivers serial r
  /-- The pointers of a request lead there and to its strings. -/
  handed : ∀ action ∈ move.action, ∃ hm, action = .request serial hm ∧
    ∃ request ∈ move.handed, request.block = place.block p.memory ∧
      strings hm content = (some request.uri, some request.method)

/-- A segment is discarded or stored. -/
theorem recvMove_cases {p : Process} {serial : Nat} {buf : Bytes} {moved : Bool} {move : Move}
    (planned : recvMove platform p serial buf moved = some move) :
    ((p.receivers serial).closeImmediately = true ∧ move = { receivers := p.receivers }) ∨
      ∃ place content, Received p serial place content move := by
  have place := @mgRecvCommon_place platform p.memory (p.receivers serial) buf moved
  simp only [recvMove] at planned
  generalize mgRecvCommon platform p.memory (p.receivers serial) buf moved = stored
    at place planned
  split_ifs at planned with discards
  · exact .inl ⟨discards, (Option.some.inj planned).symm⟩
  · right
    cases status : (p.receivers serial).status with
    | websocket =>
      rw [status] at planned
      obtain rfl := Option.some.inj planned
      exact ⟨stored.place, stored.bytes, discards, place, rfl, ⟨_, rfl, rfl⟩,
        fun action none => by contradiction⟩
    | closed | stopped =>
      rw [status] at planned
      contradiction
    | http =>
      rw [status] at planned
      obtain ⟨handled, ran, rfl⟩ := Option.map_eq_some_iff.mp planned
      refine ⟨stored.place, leftBehind stored.bytes stored.len handled, discards, place, rfl,
        ⟨_, rfl, rfl⟩, ?_⟩
      intro action taken
      obtain ⟨hm, hands, rfl⟩ := Option.map_eq_some_iff.mp taken
      refine ⟨hm, rfl, _, Option.map_eq_some_iff.mpr ⟨hm, hands, rfl⟩, rfl, ?_⟩
      obtain ⟨same, limit, readable⟩ := httpRecv_hands rfl ran hands
      obtain ⟨rest, front⟩ := leftBehind_front stored.bytes stored.len handled
      rw [← same] at readable
      rw [front]
      exact strings_readable readable rest

/-- Receiving is sound. -/
theorem recvMove_sound {p : Process} {serial : Nat} {buf : Bytes} {moved : Bool} {move : Move}
    (allocated : Allocated p.receivers p.memory.next)
    (planned : recvMove platform p serial buf moved = some move) : move.Sound p := by
  rcases recvMove_cases planned with ⟨-, rfl⟩ | ⟨place, content, received⟩
  · exact .silent rfl allocated
  · obtain ⟨r, buffer, receivers⟩ := received.receivers
    have old : ∀ block, place = .same block → block < p.memory.next := by
      intro block same
      rcases received.located with ⟨own, held, place⟩ | place
      · rw [place] at same
        cases same
        exact allocated serial block held
      · rw [place] at same
        contradiction
    refine ⟨?_, ?_, .inr ?_⟩
    · rw [receivers, received.effect]
      apply (allocated.mono (next_le_after _ _)).update
      intro block same
      rw [buffer] at same
      obtain rfl := Option.some.inj same
      exact (place_shows old content id).1
    · intro action taken message given
      obtain ⟨hm, rfl, request, handed, block, shown⟩ := received.handed action taken
      obtain rfl := Option.some.inj given
      refine ⟨request, handed, ?_⟩
      rw [received.effect, block, ← shown]
      exact place_shows old content (strings hm)
    · intro action taken
      obtain ⟨hm, rfl, -⟩ := received.handed action taken
      rfl

/-- What is done after `ev_handler` has returned is sound. -/
theorem returnMove_sound {p : Process} (allocated : Allocated p.receivers p.memory.next)
    (returning : Returning) : (returnMove p returning).Sound p := by
  cases returning with
  | mbufRemove serial n =>
    refine .silent rfl ?_
    exact (allocated.mono (next_le_after _ _)).update serial fun block buffer =>
      Nat.lt_of_lt_of_le (allocated serial block buffer) (next_le_after _ _)
  | destroy serial =>
    refine .silent rfl ?_
    exact (allocated.mono (next_le_after _ _)).update serial fun block buffer => by
      contradiction

/-- A connection with bytes in its buffer has a block. -/
theorem contents_block {memory : Memory Bytes} {r : Receiver} (held : r.contents memory ≠ []) :
    ∃ block bytes, r.buf = some block ∧ memory.blocks block = some bytes ∧
      ∃ rest, bytes = r.contents memory ++ rest := by
  cases buffer : r.buf with
  | none => simp [Receiver.contents, Receiver.bytes, buffer] at held
  | some block =>
    cases content : memory.blocks block with
    | none => simp [Receiver.contents, Receiver.bytes, buffer, content] at held
    | some bytes =>
      refine ⟨block, bytes, rfl, content, bytes.drop r.len, ?_⟩
      simp [Receiver.contents, Receiver.bytes, buffer, content]

/-- A request that is left when the connection is closed is readable in the buffer. -/
theorem leftover_readable {r : Receiver} {io : Bytes} {hm : HttpMessage}
    (left : leftover platform r io = some hm) : io ≠ [] ∧ ∃ limit, Readable io hm limit := by
  unfold leftover at left
  cases status : r.status with
  | http =>
    rw [status] at left
    exact handleClose_hands rfl left
  | websocket | closed | stopped =>
    rw [status] at left
    contradiction

/-- A close is sound. -/
theorem closeMove_sound {p : Process} (allocated : Allocated p.receivers p.memory.next)
    (serial : Nat) : (closeMove platform p serial).Sound p := by
  simp only [closeMove]
  cases left : leftover platform (p.receivers serial) ((p.receivers serial).contents p.memory) with
  | none =>
    refine ⟨?_, ?_, .inr ?_⟩
    · exact (allocated.mono (next_le_after _ _)).update serial fun block buffer => by
        contradiction
    · intro action taken message given
      obtain rfl := Option.some.inj taken
      contradiction
    · intro action taken
      obtain rfl := Option.some.inj taken
      rfl
  | some hm =>
    refine ⟨?_, ?_, .inl rfl⟩
    · exact allocated.update serial (allocated serial)
    · intro action taken message given
      obtain rfl := Option.some.inj taken
      obtain rfl := Option.some.inj given
      refine ⟨_, rfl, ?_⟩
      obtain ⟨held, limit, readable⟩ := leftover_readable left
      obtain ⟨block, bytes, buffer, content, rest, front⟩ := contents_block held
      have shown := strings_readable readable rest
      rw [← front] at shown
      simp only [handedAt, buffer, Option.getD_some]
      refine ⟨allocated serial block buffer, ?_⟩
      rw [Memory.after, Memory.Shows, content, Option.map_some, shown]

/-- The frames of a connection are written to the block of its buffer. -/
theorem plan_frames {p : Process} {serial len : Nat} {bytes : Bytes} {move : Move}
    (planned : plan platform p (.frames serial bytes len) = some move) :
    ∃ block, (p.receivers serial).buf = some block ∧
      move = {
        effect := .write block bytes
        receivers := Function.update p.receivers serial
          { p.receivers serial with buf := some block, len } } := by
  simp only [plan] at planned
  cases buffer : (p.receivers serial).buf with
  | none =>
    rw [buffer] at planned
    contradiction
  | some block =>
    rw [buffer] at planned
    simp only [Option.ite_none_right_eq_some, Option.some.injEq] at planned
    exact ⟨block, rfl, planned.2.symm⟩

/-- Any other step of the server leaves the memory and the buffers as they are. -/
theorem plan_other {p : Process} {action : MultiThread.Action} {move : Move}
    (planned : plan platform p (.other action) = some move) :
    handedMessage action = none ∧
      move = Move.mk (some action) .keep p.receivers none p.returning := by
  cases action with
  | request | close => contradiction
  | accept | handleCtl | advance =>
    simp only [plan, Option.ite_none_right_eq_some] at planned
    exact ⟨rfl, (Option.some.inj planned.2).symm⟩
  | write | signal | test | read | readFail | sleep | broadcast | sendCtl | unblock =>
    exact ⟨rfl, (Option.some.inj planned).symm⟩

/-- What is planned is sound. -/
theorem plan_sound {p : Process} {action : Action} {move : Move}
    (allocated : Allocated p.receivers p.memory.next)
    (planned : plan platform p action = some move) : move.Sound p := by
  cases action with
  | recv serial buf moved =>
    simp only [plan, Option.ite_none_right_eq_some] at planned
    exact recvMove_sound allocated planned.2
  | returns =>
    simp only [plan, Option.ite_none_right_eq_some, Option.map_eq_some_iff] at planned
    obtain ⟨-, returning, -, rfl⟩ := planned
    exact returnMove_sound allocated returning
  | close serial =>
    simp only [plan, Option.ite_none_right_eq_some, Option.some.injEq] at planned
    obtain ⟨-, rfl⟩ := planned
    exact closeMove_sound allocated serial
  | frames serial bytes len =>
    obtain ⟨block, buffer, rfl⟩ := plan_frames planned
    refine .silent rfl ?_
    exact allocated.update serial fun other same => allocated serial other (buffer.trans same)
  | other action =>
    obtain ⟨silent, rfl⟩ := plan_other planned
    refine ⟨allocated, ?_, .inl rfl⟩
    intro taken member message given
    obtain rfl := Option.some.inj member
    rw [silent] at given
    contradiction

end CppCode.MultiThread.Buffers
