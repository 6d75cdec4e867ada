import CppCode.HttpClient.Client
import CppCode.HttpServer.SendData
import CppCode.Library.Run
import CppCode.Mongoose.HttpHandler
import CppCode.Mongoose.Reply

/-!
# From the server to the client

What `HttpServer::SendData` puts on a connection arrives in segments at the connection of a client
request, is parsed by `mg_http_handler` and ends in `OnHttpEvent`. The client gets the string once
and unchanged, however the bytes are cut, as long as the answer with its block fits in an `int`:
`roundTrip_iff`. A longer buffer is handed to `mg_parse_http` with a negative length, no block is
found in it, the connection is closed, and the callback is never invoked.
-/

namespace CppCode.HttpClient

open Library Mongoose HttpServer Interfaces

/-- A segment arrives. When it completes a reply, `OnHttpEvent` returns before anything else
happens on the connection. -/
def receive (platform : Platform) (nc : HttpConn) (segment : Bytes) : Option HttpConn :=
  recvSegment platform false nc segment

/-- The connection of a request that receives these segments and is then closed. -/
def life (platform : Platform) (segments : List Bytes) : Option HttpConn :=
  (run (receive platform) {} segments).bind fun nc => Mongoose.step platform false nc .close

/-- The events of a connection that `OnHttpEvent` reacts to, once it is closed. -/
def events (nc : HttpConn) : List Event :=
  nc.delivered.map (fun delivery => .reply (delivery.hm.body.slice delivery.held)) ++ [.close]

/-- `s_req_callback` is invoked once over the life of the connection, with this string. -/
def RoundTrip (platform : Platform) (segments : List Bytes) (s : Bytes) : Prop :=
  ∃ nc, life platform segments = some nc ∧
    ∀ static, ((events nc).foldl onHttpEvent static).received = static.received ++ [s]

/-! ## Parsing a part of an answer -/

section
variable {platform : Platform} {s buf rest : Bytes}

/-- The bytes of an answer before the end of its block are incomplete. -/
theorem parse_incomplete (split : buf ++ rest = answerBlock s.length ++ s)
    (small : buf.length ≤ intMax) (short : buf.length < (answerBlock s.length).length) :
    (mgParseHttp platform buf (toInt buf.length) false).1 = 0 :=
  parse_unfinished (answerFields_plain s.length) split small short

/-- The length of an answer is declared by its last field. -/
theorem declared_answer {count : Nat} (small : count ≤ intMax) :
    (((answerFields count).filter Field.isContentLength).getLast?).map
      (fun field => to64 field.value) = some (count : Int) := by
  have server : Field.isContentLength ⟨ascii "Server", ascii "Mongoose/6.7"⟩ = false := by decide
  have origin : Field.isContentLength
      ⟨ascii "Access-Control-Allow-Origin", ascii "*"⟩ = false := by decide
  have name : ((ascii "Content-Length").take 14).map tolower = ascii "content-length" := by decide
  have length : Field.isContentLength ⟨ascii "Content-Length", decimal count⟩ = true :=
    decide_eq_true name
  have word : count < 2 ^ (64 - 1) := by
    unfold intMax at small
    omega
  have number : to64 (decimal count) = count := by
    rw [to64, readSigned_decimal, saturate_of_lt word]
  simp only [answerFields, List.filter_cons, server, origin, length, List.filter_nil,
    Bool.false_eq_true, if_false, if_true, List.getLast?_singleton, Option.map_some, number]

/-- There is room for the fields of an answer in the header table. -/
theorem length_answerFields (count : Nat) : (answerFields count).length < mgMaxHttpHeaders := by
  simp [answerFields, mgMaxHttpHeaders]

/-- The bytes of an answer from the end of its block on describe the answer. -/
theorem parse_answer (split : buf ++ rest = answerBlock s.length ++ s)
    (small : buf.length ≤ intMax) (long : (answerBlock s.length).length ≤ buf.length) :
    (mgParseHttp platform buf (toInt buf.length) false).1 = (answerBlock s.length).length ∧
      (mgParseHttp platform buf (toInt buf.length) false).2.Describes platform buf
        (answerBlock s.length).length false :=
  parse_reply (answerFields_plain s.length) split small long

/-- The headers of an answer. -/
theorem headersOf_answer (split : buf ++ rest = answerBlock s.length ++ s)
    (long : (answerBlock s.length).length ≤ buf.length) :
    headersOf buf (answerBlock s.length).length false = fieldSlots 17 (answerFields s.length) :=
  headersOf_reply (answerFields_plain s.length) (length_answerFields s.length) split long

/-- The lengths of an answer. -/
theorem framing_answer (split : buf ++ rest = answerBlock s.length ++ s)
    (long : (answerBlock s.length).length ≤ buf.length)
    (heap : (answerBlock s.length ++ s).length ≤ platform.heap) (text : s.length ≤ intMax) :
    framing platform buf (answerBlock s.length).length false =
      ⟨s.length, (answerBlock s.length).length + s.length⟩ := by
  have fits := platform.fits
  rw [List.length_append] at heap
  have plain := answerFields_plain s.length
  obtain ⟨-, left⟩ := headersStart_ok plain (take_reply split long)
  have declared : declaredLength buf (headersOf buf (answerBlock s.length).length false) =
      some (s.length : Int) := by
    rw [headersOf_answer split long, ← declared_answer text]
    exact declaredLength_fields plain left
  have request : ¬IsBodiless buf (answerBlock s.length).length false := fun bodiless =>
    absurd bodiless.1 (by simp)
  have word : platform.toSize (s.length : Int) = s.length := platform.toSize_of_lt (by omega)
  have sum : platform.add (answerBlock s.length).length s.length =
      (answerBlock s.length).length + s.length := Nat.mod_eq_of_lt (by omega)
  simp only [framing, declared, declaredLengths, word, sum]
  rw [if_neg fun both => request both.2]

/-- An answer is neither chunked nor an upgrade: no field has a name as long as these. -/
theorem getHeader_answer {hm : HttpMessage} {name : Bytes}
    (split : buf ++ rest = answerBlock s.length ++ s)
    (long : (answerBlock s.length).length ≤ buf.length)
    (describes : hm.Describes platform buf (answerBlock s.length).length false)
    (other : name.length ≠ 6 ∧ name.length ≠ 27 ∧ name.length ≠ 14) :
    mgGetHttpHeader buf hm name = none := by
  rw [describes.getHeader, headersOf_answer split long]
  apply findHeader_fields
  have server : (ascii "Server").length = 6 := by decide
  have origin : (ascii "Access-Control-Allow-Origin").length = 27 := by decide
  have length : (ascii "Content-Length").length = 14 := by decide
  intro field member
  simp only [answerFields, List.mem_cons, List.not_mem_nil, or_false] at member
  rcases member with rfl | rfl | rfl
  · exact fun same => other.1 (same.symm.trans server)
  · exact fun same => other.2.1 (same.symm.trans origin)
  · exact fun same => other.2.2 (same.symm.trans length)

/-! ## Receiving -/

/-- The block of an answer to a string in the range of `int` is short. -/
theorem length_answerBlock_le (text : s.length ≤ intMax) : (answerBlock s.length).length ≤ 101 := by
  have digits : (decimal s.length).length ≤ 10 := by
    rw [length_decimal_le_iff (by decide)]
    unfold intMax at text
    omega
  rw [length_answerBlock]
  omega

/-- A complete block of an answer is dispatched on the length of the message alone. -/
theorem handleParsed_answer {nc : HttpConn} {hm : HttpMessage}
    (split : nc.recvMbuf ++ rest = answerBlock s.length ++ s)
    (long : (answerBlock s.length).length ≤ nc.recvMbuf.length)
    (heap : (answerBlock s.length ++ s).length ≤ platform.heap) (text : s.length ≤ intMax)
    (describes : hm.Describes platform nc.recvMbuf (answerBlock s.length).length false) :
    handleParsed platform false nc (answerBlock s.length).length hm =
      if rest = [] then
        { nc with
          removals := hm.message.len :: nc.removals
          delivered := nc.delivered ++ [⟨nc.recvMbuf, hm⟩] }
      else nc := by
  have transfer : mgGetHttpHeader nc.recvMbuf hm (ascii "Transfer-Encoding") = none :=
    getHeader_answer split long describes (by decide)
  have accept : mgGetHttpHeader nc.recvMbuf hm (upgradeHeader false) = none :=
    getHeader_answer split long describes (by decide)
  have plain : isChunked nc.recvMbuf hm = false := by
    rw [isChunked, transfer]
  have block := length_answerBlock s.length
  have length := congrArg List.length split
  rw [List.length_append, List.length_append] at length
  have message : hm.message.len = (answerBlock s.length).length + s.length := by
    rw [describes.spans.message, framing_answer split long heap text]
  have complete : hm.message.len ≤ nc.recvMbuf.length ↔ rest = [] := by
    rw [message, ← List.length_eq_zero_iff]
    omega
  unfold handleParsed
  rw [plain, if_neg fun both => absurd both.2 (by simp)]
  simp only [dispatch, accept]
  rw [if_neg (by omega), if_neg (by omega), if_neg (by simp)]
  simp only [complete]

/-- A part of an answer is kept. -/
theorem handleRecv_incomplete (split : buf ++ rest = answerBlock s.length ++ s) (more : rest ≠ [])
    (small : buf.length ≤ intMax) (heap : (answerBlock s.length ++ s).length ≤ platform.heap)
    (text : s.length ≤ intMax) : handleRecv platform false (waiting buf) = waiting buf := by
  rw [handleRecv_waiting]
  by_cases short : buf.length < (answerBlock s.length).length
  · have bound := length_answerBlock_le text
    rw [parse_incomplete split small short, handleParsed_zero]
    change buf.length < 8192
    omega
  · obtain ⟨length, describes⟩ := @parse_answer platform s buf rest split small (not_lt.mp short)
    rw [length]
    exact (handleParsed_answer split (not_lt.mp short) heap text describes).trans (if_neg more)

/-- A whole answer is delivered with its string as the body. -/
theorem handleRecv_whole (small : (answerBlock s.length ++ s).length ≤ intMax)
    (heap : (answerBlock s.length ++ s).length ≤ platform.heap) :
    ∃ hm, handleRecv platform false (waiting (answerBlock s.length ++ s)) =
        { waiting (answerBlock s.length ++ s) with
          removals := [(answerBlock s.length ++ s).length]
          delivered := [⟨answerBlock s.length ++ s, hm⟩] } ∧
      hm.body.slice (answerBlock s.length ++ s) = s := by
  have split : (answerBlock s.length ++ s) ++ [] = answerBlock s.length ++ s := List.append_nil _
  have long : (answerBlock s.length).length ≤ (answerBlock s.length ++ s).length := by simp
  have text : s.length ≤ intMax := le_trans (by simp) small
  obtain ⟨length, describes⟩ := @parse_answer platform s _ [] split small long
  have framed := framing_answer split long heap text
  have spans := describes.spans
  rw [framed] at spans
  rw [handleRecv_waiting, length]
  generalize (mgParseHttp platform (answerBlock s.length ++ s)
    (toInt (answerBlock s.length ++ s).length) false).2 = hm at describes spans ⊢
  refine ⟨hm, ?_, ?_⟩
  · have message : hm.message.len = (answerBlock s.length ++ s).length := by
      rw [spans.message, List.length_append]
    rw [← message]
    exact (handleParsed_answer split long heap text describes).trans (if_pos rfl)
  · rw [spans.body]
    simp only [MgStr.slice, List.drop_left, List.take_length]

/-- A buffer longer than `INT_MAX` closes the connection. -/
theorem handleRecv_overlong (large : intMax < buf.length) (below : buf.length < 2 ^ 32) :
    handleRecv platform false (waiting buf) = { waiting buf with closeImmediately := true } := by
  rw [handleRecv_waiting]
  rw [parse_overlong large below, handleParsed_overlong]
  change 8192 ≤ buf.length
  unfold intMax at large
  omega

/-! ## Runs of segments -/

/-- A segment that does not complete the answer is added to the bytes that wait. -/
theorem receive_incomplete {segment : Bytes}
    (split : buf ++ segment ++ rest = answerBlock s.length ++ s) (more : rest ≠ [])
    (small : (buf ++ segment).length ≤ intMax)
    (heap : (answerBlock s.length ++ s).length ≤ platform.heap) (text : s.length ≤ intMax) :
    receive platform (waiting buf) segment = some (waiting (buf ++ segment)) := by
  have grows : buf.length + segment.length ≤ platform.heap := by
    have length := congrArg List.length split
    simp only [List.length_append] at length heap
    omega
  exact recvSegment_part grows (handleRecv_incomplete split more small heap text)

/-- The segment that completes the answer delivers it and empties the buffer. -/
theorem receive_whole {segment : Bytes} (split : buf ++ segment = answerBlock s.length ++ s)
    (small : (answerBlock s.length ++ s).length ≤ intMax)
    (heap : (answerBlock s.length ++ s).length ≤ platform.heap) :
    ∃ hm, receive platform (waiting buf) segment =
        some { waiting [] with delivered := [⟨answerBlock s.length ++ s, hm⟩] } ∧
      hm.body.slice (answerBlock s.length ++ s) = s := by
  have grows : buf.length + segment.length ≤ platform.heap := by
    rw [← List.length_append, split]
    exact heap
  obtain ⟨hm, handled, body⟩ := handleRecv_whole small heap
  have present : 0 < (buf ++ segment).length := by
    rw [split, List.length_append, length_answerBlock]
    omega
  rw [← split] at handled
  refine ⟨hm, ?_, body⟩
  rw [← split]
  exact recvSegment_whole grows present handled

/-- A segment that makes the buffer longer than `INT_MAX` closes the connection. -/
theorem receive_overlong {segment : Bytes} (large : intMax < (buf ++ segment).length)
    (below : (buf ++ segment).length < 2 ^ 32)
    (heap : (buf ++ segment).length ≤ platform.heap) :
    receive platform (waiting buf) segment =
      some { waiting (buf ++ segment) with closeImmediately := true } := by
  rw [receive, recvSegment, step_waiting (by rw [← List.length_append]; exact heap),
    handleRecv_overlong large below]
  rfl

/-- A connection that is closing discards what arrives. -/
theorem run_closing (segments : List Bytes) :
    run (receive platform) { waiting buf with closeImmediately := true } segments =
      some { waiting buf with closeImmediately := true } := by
  induction segments with
  | nil => rfl
  | cons segment segments ih => exact ih

/-- An answer in the range of `int` is delivered by its last segment. -/
theorem run_whole {segments : List Bytes} (nonempty : ∀ segment ∈ segments, segment ≠ [])
    (split : buf ++ segments.flatten = answerBlock s.length ++ s) (left : segments ≠ [])
    (small : (answerBlock s.length ++ s).length ≤ intMax)
    (heap : (answerBlock s.length ++ s).length ≤ platform.heap) :
    ∃ hm, run (receive platform) (waiting buf) segments =
        some { waiting [] with delivered := [⟨answerBlock s.length ++ s, hm⟩] } ∧
      hm.body.slice (answerBlock s.length ++ s) = s := by
  induction segments generalizing buf with
  | nil => exact absurd rfl left
  | cons segment segments ih =>
    rw [List.flatten_cons, ← List.append_assoc] at split
    cases segments with
    | nil =>
      rw [List.flatten_nil, List.append_nil] at split
      obtain ⟨hm, received, body⟩ := receive_whole split small heap
      exact ⟨hm, run_cons_iff.mpr ⟨_, received, rfl⟩, body⟩
    | cons next segments =>
      have more : (next :: segments).flatten ≠ [] := by
        simp [nonempty next (by simp)]
      have length := congrArg List.length split
      rw [List.length_append] at length
      obtain ⟨hm, rest, body⟩ :=
        ih (fun other member => nonempty other (List.mem_cons_of_mem segment member)) split
          (by simp)
      have text : s.length ≤ intMax := le_trans (by simp) small
      exact ⟨hm, run_cons_iff.mpr
        ⟨_, receive_incomplete split more (by omega) heap text, rest⟩, body⟩

/-- A longer answer closes the connection before it is complete or when it is. -/
theorem run_overlong {segments : List Bytes}
    (split : buf ++ segments.flatten = answerBlock s.length ++ s) (short : buf.length ≤ intMax)
    (large : intMax < (answerBlock s.length ++ s).length)
    (heap : (answerBlock s.length ++ s).length ≤ platform.heap) (text : s.length ≤ intMax) :
    ∃ io, intMax < io.length ∧ io.length < 2 ^ 32 ∧
      run (receive platform) (waiting buf) segments =
        some { waiting io with closeImmediately := true } := by
  induction segments generalizing buf with
  | nil =>
    rw [List.flatten_nil, List.append_nil] at split
    rw [split] at short
    omega
  | cons segment segments ih =>
    rw [List.flatten_cons, ← List.append_assoc] at split
    have length := congrArg List.length split
    rw [List.length_append] at length
    by_cases small : (buf ++ segment).length ≤ intMax
    · have more : segments.flatten ≠ [] := by
        intro none
        rw [none, List.length_nil] at length
        omega
      obtain ⟨io, long, below, rest⟩ := ih split small
      exact ⟨io, long, below,
        run_cons_iff.mpr ⟨_, receive_incomplete split more small heap text, rest⟩⟩
    · have block := length_answerBlock_le text
      have below : (buf ++ segment).length < 2 ^ 32 := by
        have whole :
            (answerBlock s.length ++ s).length = (answerBlock s.length).length + s.length :=
          List.length_append
        unfold intMax at text
        omega
      exact ⟨buf ++ segment, not_le.mp small, below, run_cons_iff.mpr
        ⟨_, receive_overlong (not_le.mp small) below (by omega), run_closing segments⟩⟩

/-! ## The round trip -/

/-- Closing a connection whose buffer has no complete block delivers nothing more. -/
theorem handleClose_idle {nc : HttpConn} (idle : nc.recvMbuf.length = 0 ∨
    (mgParseHttp platform nc.recvMbuf (toInt nc.recvMbuf.length) false).1 = 0) :
    handleClose platform false nc = { nc with status := .closed } := by
  simp only [handleClose]
  rw [if_neg]
  omega

/-- The strings that the callback gets: the bodies of the deliveries. -/
theorem received_events (nc : HttpConn) (static : Static) :
    ((events nc).foldl onHttpEvent static).received = static.received ++
      nc.delivered.map fun delivery => delivery.hm.body.slice delivery.held := by
  have closing (s : Static) : (onHttpEvent s .close).received = s.received := by
    simp only [onHttpEvent]
    split <;> rfl
  rw [events, List.foldl_append, List.foldl_cons, List.foldl_nil, closing]
  generalize nc.delivered = delivered
  induction delivered generalizing static with
  | nil => simp
  | cons delivery delivered ih =>
    rw [List.map_cons, List.foldl_cons, ih]
    simp [onHttpEvent]

/-- The callback is invoked once, with the string, exactly when one body is delivered, and it is
the string. -/
theorem roundTrip_iff_delivered {segments : List Bytes} {nc : HttpConn}
    (lived : life platform segments = some nc) :
    RoundTrip platform segments s ↔
      nc.delivered.map (fun delivery => delivery.hm.body.slice delivery.held) = [s] := by
  constructor
  · rintro ⟨other, again, once⟩
    obtain rfl := Option.some.inj (lived.symm.trans again)
    have received := once {}
    rw [received_events] at received
    exact List.append_cancel_left received
  · intro one
    exact ⟨nc, lived, fun static => by rw [received_events, one]⟩

/-- A connection that ends without a delivery has no round trip. -/
theorem not_roundTrip_of_none {segments : List Bytes} {nc : HttpConn}
    (lived : life platform segments = some nc) (none : nc.delivered = []) :
    ¬RoundTrip platform segments s := by
  rw [roundTrip_iff_delivered lived, none]
  exact (List.cons_ne_nil s []).symm

/-- An answer in the range of `int` is received once. -/
theorem roundTrip_of_le {segments : List Bytes} (nonempty : ∀ segment ∈ segments, segment ≠ [])
    (split : [] ++ segments.flatten = answerBlock s.length ++ s)
    (small : (answerBlock s.length ++ s).length ≤ intMax)
    (heap : (answerBlock s.length ++ s).length ≤ platform.heap) :
    RoundTrip platform segments s := by
  have left : segments ≠ [] := by
    rintro rfl
    have block := length_answerBlock s.length
    have length := congrArg List.length split
    rw [List.flatten_nil, List.length_append, List.length_append, List.length_nil] at length
    omega
  obtain ⟨hm, received, body⟩ := run_whole nonempty split left small heap
  have lived : life platform segments = some { waiting [] with
      status := .closed, delivered := [⟨answerBlock s.length ++ s, hm⟩] } := by
    change (run (receive platform) (waiting []) segments).bind _ = _
    rw [received]
    exact congrArg some (handleClose_idle (.inl rfl))
  rw [roundTrip_iff_delivered lived]
  change [hm.body.slice _] = [s]
  rw [body]

/-- A longer answer is never received. -/
theorem not_roundTrip {segments : List Bytes}
    (split : [] ++ segments.flatten = answerBlock s.length ++ s)
    (large : intMax < (answerBlock s.length ++ s).length)
    (heap : (answerBlock s.length ++ s).length ≤ platform.heap) (text : s.length ≤ intMax) :
    ¬RoundTrip platform segments s := by
  obtain ⟨io, long, below, received⟩ := run_overlong split (Nat.zero_le _) large heap text
  have lived : life platform segments =
      some { waiting io with status := .closed, closeImmediately := true } := by
    change (run (receive platform) (waiting []) segments).bind _ = _
    rw [received]
    exact congrArg some (handleClose_idle (.inr (parse_overlong long below)))
  exact not_roundTrip_of_none lived rfl

/-- The client gets the string that the server sends, once and unchanged, however its bytes are
cut, exactly when the string leaves room for its block in an `int`. -/
theorem roundTrip_iff {segments : List Bytes} (plain : 0 ∉ s) (present : s ≠ [])
    (text : s.length ≤ intMax) (heap : (sendData [] (cString s)).length ≤ platform.heap)
    (nonempty : ∀ segment ∈ segments, segment ≠ [])
    (split : segments.flatten = sendData [] (cString s)) :
    RoundTrip platform segments s ↔ s.length + 101 ≤ intMax := by
  rw [sendData_eq [] plain present text] at heap split
  have block := length_answerBlock_le text
  have whole : (answerBlock s.length ++ s).length = (answerBlock s.length).length + s.length :=
    List.length_append
  constructor
  · intro once
    by_contra large
    have digits : ¬(decimal s.length).length ≤ 9 := by
      rw [length_decimal_le_iff (by decide)]
      unfold intMax at large
      omega
    have length := length_answerBlock s.length
    exact not_roundTrip split (by omega) heap text once
  · intro small
    exact roundTrip_of_le nonempty split (by omega) heap

end

/-- The bytes of a short answer, cut inside of its blank line. -/
def helloSegments : List Bytes :=
  let sent := sendData [] (cString (ascii "Hello world"))
  [sent.take 92, sent.drop 92]

/-- The answer of the server arrives. -/
theorem hello_roundTrip :
    RoundTrip amd64 helloSegments (ascii "Hello world") ↔
      (ascii "Hello world").length + 101 ≤ intMax :=
  roundTrip_iff (by decide) (by decide) (by decide) (by decide +kernel) (by decide +kernel)
    (by decide +kernel)

/-- The server sends the string, its answer arrives byte by byte, and the callback is not invoked
once with the string. -/
def Lost (platform : Platform) (s : Bytes) : Prop :=
  ∃ segments, 0 ∉ s ∧ s ≠ [] ∧ s.length ≤ intMax ∧
    (sendData [] (cString s)).length ≤ platform.heap ∧
    (∀ segment ∈ segments, segment.length = 1) ∧ segments.flatten = sendData [] (cString s) ∧
    ¬RoundTrip platform segments s

/-- A string as long as `mg_send` takes it is lost on its way. -/
theorem lost_of_longest {s : Bytes} (plain : 0 ∉ s) (longest : s.length = intMax) :
    Lost amd64 s := by
  have text : s.length ≤ intMax := le_of_eq longest
  have present : s ≠ [] := by
    rintro rfl
    rw [List.length_nil] at longest
    unfold intMax at longest
    omega
  have sent := sendData_eq [] plain present text
  have flat : ((sendData [] (cString s)).map fun byte => [byte]).flatten =
      sendData [] (cString s) := by
    rw [← List.flatMap_def, List.flatMap_singleton']
  have block := length_answerBlock s.length
  have short := length_answerBlock_le text
  have whole : (answerBlock s.length ++ s).length = (answerBlock s.length).length + s.length :=
    List.length_append
  have heap : (answerBlock s.length ++ s).length ≤ amd64.heap := by
    unfold intMax at text
    change _ ≤ 2 ^ 40
    omega
  refine ⟨_, plain, present, text, ?_, ?_, flat, not_roundTrip ?_ (by omega) heap text⟩
  · rw [sent]
    exact heap
  · intro segment member
    obtain ⟨byte, -, rfl⟩ := List.mem_map.mp member
    rfl
  · rw [List.nil_append, flat, sent, List.nil_append]

/-- The longest string that `mg_send` takes never reaches the client. -/
theorem longest_not_roundTrip : Lost amd64 (List.replicate intMax 97) :=
  lost_of_longest (fun member => absurd (List.eq_of_mem_replicate member) (by decide))
    List.length_replicate

end CppCode.HttpClient
