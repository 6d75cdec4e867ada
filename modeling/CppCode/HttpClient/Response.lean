import CppCode.HttpClient.RoundTrip
import CppCode.HttpServer.SendResponse
import CppCode.Mongoose.Reassembly

/-!
# Chunked answers at the client

What `HttpServer::SendResponse` puts on a connection arrives in segments at the connection of a
client request. While chunks are missing, the buffer holds the block, the data of the chunks that
are whole and the part behind them, and `chunk.body_len` says how much of that is data; so the
callback gets the data of all chunks, however the bytes are cut (`roundTrip_chunked`). The text in
the data is the JSON that it is meant to be for some strings only (`deliversJson_iff`).
-/

namespace CppCode.HttpClient

open Library JsonText Mongoose HttpServer Interfaces

/-- A connection that has reassembled some data of a chunked answer and holds a part of the next
chunk. -/
def reassembling (body part : Bytes) : HttpConn where
  recvMbuf := chunkedBlock ++ (body ++ part)
  chunkBodyLen := body.length

/-! ## Parsing -/

section
variable {platform : Platform} {got : Bytes}

/-- The block of a chunked answer, and what follows it. -/
theorem parse_chunked (got : Bytes) (small : (chunkedBlock ++ got).length ≤ intMax) :
    (mgParseHttp platform (chunkedBlock ++ got) (toInt (chunkedBlock ++ got).length) false).1 =
        chunkedBlock.length ∧
      (mgParseHttp platform (chunkedBlock ++ got)
        (toInt (chunkedBlock ++ got).length) false).2.Describes platform (chunkedBlock ++ got)
          chunkedBlock.length false := by
  have split : (chunkedBlock ++ got) ++ [] = replyBlock [chunkedField] ++ got := by
    rw [List.append_nil]
    rfl
  exact parse_reply chunkedField_plain split small (by
    rw [List.length_append]
    exact Nat.le_add_right _ _)

/-- The only header of a chunked answer. -/
theorem headersOf_chunked (got : Bytes) :
    headersOf (chunkedBlock ++ got) chunkedBlock.length false = fieldSlots 17 [chunkedField] := by
  have split : (chunkedBlock ++ got) ++ [] = replyBlock [chunkedField] ++ got := by
    rw [List.append_nil]
    rfl
  exact headersOf_reply chunkedField_plain (by decide) split (by
    rw [List.length_append]
    exact Nat.le_add_right _ _)

/-- A chunked answer has no length. -/
theorem framing_chunked (got : Bytes) :
    framing platform (chunkedBlock ++ got) chunkedBlock.length false =
      ⟨platform.maxSize, platform.maxSize⟩ := by
  have start := (headersStart_ok chunkedField_plain (@List.take_left _ chunkedBlock got)).2
  have declared : declaredLength (chunkedBlock ++ got)
      (headersOf (chunkedBlock ++ got) chunkedBlock.length false) = none := by
    rw [headersOf_chunked]
    exact declaredLength_fields chunkedField_plain start
  have request : ¬IsBodiless (chunkedBlock ++ got) chunkedBlock.length false := fun bodiless =>
    absurd bodiless.1 (by simp)
  simp only [framing, declared, declaredLengths]
  rw [if_neg fun both => request both.2]

/-- The body of a chunked answer is chunked. -/
theorem isChunked_chunked {hm : HttpMessage}
    (describes : hm.Describes platform (chunkedBlock ++ got) chunkedBlock.length false) :
    isChunked (chunkedBlock ++ got) hm = true := by
  have place : (chunkedBlock ++ got).drop 17 = chunkedField.line ++ (crlf ++ crlf ++ got) := by
    have block : chunkedBlock.drop 17 = chunkedField.line ++ (crlf ++ crlf) := by decide
    rw [List.drop_append_of_le_length (by decide), block, List.append_assoc]
  have name : ascii "Transfer-Encoding" = chunkedField.name := rfl
  have word : ascii "chunked" = chunkedField.value := rfl
  have header := @findHeader_first (chunkedBlock ++ got) _ 17 chunkedField [] place (by decide)
  rw [← headersOf_chunked got, ← describes.getHeader] at header
  have value := mgVcasecmp_value place (by decide)
  simp only [isChunked, name, header, word, value, decide_true]

/-- A chunked answer is no upgrade. -/
theorem upgrade_chunked {hm : HttpMessage} (buf : Bytes)
    (headers : hm.headers = fieldSlots 17 [chunkedField]) :
    mgGetHttpHeader buf hm (upgradeHeader false) = none := by
  have other : ∀ field ∈ [chunkedField], field.name.length ≠ (upgradeHeader false).length := by
    intro field member
    obtain rfl := List.mem_singleton.mp member
    decide
  have none := @findHeader_fields buf (upgradeHeader false) 17 [chunkedField] other
  rwa [← headers] at none

end

/-! ## Receiving -/

/-- What is left of a chunked answer fits in the receive buffer, and its length in an `int`. -/
structure Fits (platform : Platform) (body : Bytes) (datas : List Bytes) : Prop where
  /-- The length is passed as an `int`. -/
  int : (chunkedBlock ++ (body ++ coded datas)).length ≤ intMax
  /-- The buffer grows in the heap. -/
  heap : (chunkedBlock ++ (body ++ coded datas)).length ≤ platform.heap

section
variable {platform : Platform} {body part : Bytes} {datas : List Bytes}

/-- Collapsing chunks leaves room for the others. -/
theorem Fits.collapse {done : List Bytes} (fits : Fits platform body (done ++ datas)) :
    Fits platform (body ++ done.flatten) datas := by
  have shorter := length_flatten_le_coded done
  obtain ⟨int, heap⟩ := fits
  rw [coded_append] at int heap
  simp only [List.length_append] at int heap
  constructor
  all_goals
    simp only [List.length_append]
    omega

/-- The chunks of an answer that fits are shorter than the address space. -/
theorem Fits.small (fits : Fits platform body datas) :
    (coded datas).length < 2 ^ platform.bits := by
  have heap := fits.heap
  have space := platform.fits
  simp only [List.length_append] at heap
  omega

/-- The bytes that a connection holds are reassembled, and the message is delivered when it is then
in the buffer up to its end. -/
theorem handleRecv_reassembling {got : Bytes}
    (small : (chunkedBlock ++ (body ++ got)).length ≤ intMax) :
    ∃ hm : HttpMessage, hm.message.len = platform.maxSize ∧ hm.body.p = some chunkedBlock.length ∧
      ∀ result count after,
        mgHandleChunked platform ((reassembling body got).stray platform)
            (chunkedBlock ++ (body ++ got)) chunkedBlock.length body.length hm =
              some (result, count, after) → after.headers = hm.headers →
          handleRecv platform false (reassembling body got) =
            if after.message.len ≤ result.length then
              { recvMbuf := result, chunkBodyLen := count, removals := [after.message.len],
                delivered := [⟨result, after⟩] }
            else { recvMbuf := result, chunkBodyLen := count } := by
  obtain ⟨length, describes⟩ := @parse_chunked platform (body ++ got) small
  have spans := describes.spans
  rw [framing_chunked] at spans
  have chunked := isChunked_chunked describes
  have headers := describes.headers
  rw [headersOf_chunked] at headers
  rw [handleRecv_eq]
  simp only [reassembling]
  rw [length]
  generalize (mgParseHttp platform (chunkedBlock ++ (body ++ got))
    (toInt (chunkedBlock ++ (body ++ got)).length) false).2 = hm at spans chunked headers
  have positive : (chunkedBlock.length : Int) > 0 := by
    rw [length_chunkedBlock]
    decide
  refine ⟨hm, by rw [spans.message], by rw [spans.body], fun result count after handled same => ?_⟩
  have accept := upgrade_chunked result (same.trans headers)
  unfold handleParsed
  rw [if_pos ⟨positive, chunked⟩]
  simp only [Int.toNat_natCast, handled, dispatch, accept]
  rw [if_neg (by omega), if_neg (by omega), if_neg (by simp)]
  rfl

/-- Segments before the end of the empty chunk are reassembled as far as their chunks are whole. -/
theorem handleRecv_part {next left : Bytes} {rest : List Bytes}
    (present : ∀ data ∈ datas, data ≠ []) (fits : Fits platform body (datas ++ next :: rest))
    (split : chunkOf next = part ++ left) (missing : left ≠ []) :
    handleRecv platform false (reassembling body (coded datas ++ part)) =
      reassembling (body ++ datas.flatten) part := by
  have small := fits.small
  have int := fits.int
  have heap := fits.heap
  have space := platform.fits
  have chunk := congrArg List.length split
  have shorter := length_flatten_le_coded datas
  simp only [coded_append, coded_cons, List.length_append] at small int heap chunk
  obtain ⟨hm, message, -, handles⟩ :=
    @handleRecv_reassembling platform body (coded datas ++ part) (by
      simp only [List.length_append]
      omega)
  obtain ⟨after, handled, headers, kept⟩ := @mgHandleChunked_part platform _ body datas next part
    left chunkedBlock hm present (by omega) (by omega) split missing
  rw [handles _ _ _ handled headers, kept, message, if_neg]
  · simp only [reassembling, List.append_assoc]
  · simp only [Platform.maxSize, List.length_append]
    omega

/-- With the empty chunk the data of all chunks is delivered. -/
theorem handleRecv_last (present : ∀ data ∈ datas, data ≠ [])
    (fits : Fits platform body (datas ++ [[]])) :
    ∃ hm, handleRecv platform false (reassembling body (coded (datas ++ [[]]))) =
        { reassembling (body ++ datas.flatten) [] with
          removals := [(chunkedBlock ++ (body ++ datas.flatten)).length]
          delivered := [⟨chunkedBlock ++ (body ++ datas.flatten), hm⟩] } ∧
      hm.body.slice (chunkedBlock ++ (body ++ datas.flatten)) = body ++ datas.flatten := by
  obtain ⟨hm, -, place, handles⟩ :=
    @handleRecv_reassembling platform body (coded (datas ++ [[]])) fits.int
  obtain ⟨after, handled, headers, length, range⟩ :=
    @mgHandleChunked_whole platform _ body datas chunkedBlock hm present fits.small
  refine ⟨after, ?_, ?_⟩
  · have whole : (chunkedBlock ++ (body ++ datas.flatten)).length =
        chunkedBlock.length + (body ++ datas.flatten).length := List.length_append
    rw [handles _ _ _ handled headers, length, ← whole, if_pos (le_refl _)]
    simp only [reassembling, List.append_nil]
  · rw [range, place]
    simp only [MgStr.slice, List.drop_left, List.take_length]

/-! ## Runs of segments -/

/-- A segment arrives at a connection that reassembles an answer. -/
theorem step_reassembling {segment : Bytes}
    (heap : (chunkedBlock ++ (body ++ (part ++ segment))).length ≤ platform.heap) :
    Mongoose.step platform false (reassembling body part) (.recv segment) =
      some (handleRecv platform false (reassembling body (part ++ segment))) := by
  have grown : mbufAppend platform (chunkedBlock ++ (body ++ part)) segment =
      chunkedBlock ++ (body ++ (part ++ segment)) := by
    simp only [List.length_append] at heap
    rw [mbufAppend, if_pos (by simp only [List.length_append]; omega)]
    simp only [List.append_assoc]
  change some (handleRecv platform false { reassembling body part with
    recvMbuf := mbufAppend platform (chunkedBlock ++ (body ++ part)) segment }) = _
  rw [grown]
  rfl

/-- A segment that does not complete the answer is reassembled as far as its chunks are whole. -/
theorem receive_part {segment after next left : Bytes} {rest : List Bytes}
    (present : ∀ data ∈ datas, data ≠ []) (fits : Fits platform body (datas ++ next :: rest))
    (arrived : part ++ segment = coded datas ++ after) (split : chunkOf next = after ++ left)
    (missing : left ≠ []) :
    receive platform (reassembling body part) segment =
      some (reassembling (body ++ datas.flatten) after) := by
  have grows : (chunkedBlock ++ (body ++ (part ++ segment))).length ≤ platform.heap := by
    have heap := fits.heap
    have chunk := congrArg List.length split
    rw [arrived]
    simp only [coded_append, coded_cons, List.length_append] at heap chunk ⊢
    omega
  rw [receive, recvSegment, step_reassembling grows, arrived,
    handleRecv_part present fits split missing]
  rfl

/-- The segment that completes the answer delivers it and empties the buffer. -/
theorem receive_last {segment : Bytes} (present : ∀ data ∈ datas, data ≠ [])
    (fits : Fits platform body (datas ++ [[]]))
    (arrived : part ++ segment = coded (datas ++ [[]])) :
    ∃ nc, receive platform (reassembling body part) segment = some nc ∧ nc.recvMbuf = [] ∧
      nc.status = .http ∧ nc.delivered.map (fun delivery => delivery.hm.body.slice delivery.held) =
        [body ++ datas.flatten] := by
  obtain ⟨hm, handled, range⟩ := handleRecv_last present fits
  refine ⟨{ reassembling (body ++ datas.flatten) [] with
      recvMbuf := [], delivered := [⟨chunkedBlock ++ (body ++ datas.flatten), hm⟩] },
    ?_, rfl, rfl, congrArg (· :: []) range⟩
  have removed : mbufRemove (chunkedBlock ++ (body ++ (datas.flatten ++ [])))
      (chunkedBlock ++ (body ++ datas.flatten)).length = [] := by
    have block := length_chunkedBlock
    rw [List.append_nil, mbufRemove, if_pos ⟨by rw [List.length_append]; omega, le_refl _⟩,
      List.drop_length]
  rw [receive, recvSegment, step_reassembling (by rw [arrived]; exact fits.heap), arrived, handled]
  change some { reassembling (body ++ datas.flatten) [] with
    recvMbuf := mbufRemove (chunkedBlock ++ (body ++ datas.flatten ++ []))
      (chunkedBlock ++ (body ++ datas.flatten)).length
    delivered := [⟨chunkedBlock ++ (body ++ datas.flatten), hm⟩] } = _
  rw [List.append_assoc, removed]

/-- However the rest of an answer is cut, its last segment delivers the data of all chunks. -/
theorem run_reassembling {segment : Bytes} {segments : List Bytes}
    (nonempty : ∀ segment ∈ segments, segment ≠ []) (present : ∀ data ∈ datas, data ≠ [])
    (fits : Fits platform body (datas ++ [[]]))
    (arrives : part ++ (segment :: segments).flatten = coded (datas ++ [[]])) :
    ∃ nc, run (receive platform) (reassembling body part) (segment :: segments) = some nc ∧
      nc.recvMbuf = [] ∧ nc.status = .http ∧
      nc.delivered.map (fun delivery => delivery.hm.body.slice delivery.held) =
        [body ++ datas.flatten] := by
  induction segments generalizing body part segment datas with
  | nil =>
    rw [List.flatten_cons, List.flatten_nil, List.append_nil] at arrives
    obtain ⟨nc, received, settled⟩ := receive_last present fits arrives
    exact ⟨nc, run_cons_iff.mpr ⟨nc, received, rfl⟩, settled⟩
  | cons next segments ih =>
    obtain ⟨head, tail⟩ := List.forall_mem_cons.mp nonempty
    rw [List.flatten_cons, ← List.append_assoc] at arrives
    have unfinished : (next :: segments).flatten ≠ [] := by simp [head]
    obtain ⟨done, chunk, rest, after, left, shape, arrived, split, missing, stream⟩ :=
      coded_cut arrives unfinished
    -- the last of the chunks that are not whole is the empty one
    obtain ⟨others, last, same⟩ := List.eq_nil_or_concat (chunk :: rest) |>.resolve_left (by simp)
    rw [List.concat_eq_append] at same
    have parts : datas ++ [[]] = (done ++ others) ++ [last] := by
      rw [shape, same, List.append_assoc]
    obtain ⟨rfl, ended⟩ := List.append_inj' parts rfl
    obtain rfl := (List.cons.inj ended).1
    obtain ⟨whole, missed⟩ := List.forall_mem_append.mp present
    have received := receive_part whole (by rwa [← shape]) arrived split missing
    rw [List.append_assoc] at fits
    rw [same] at stream
    obtain ⟨nc, ran, empty, http, delivered⟩ := ih tail missed fits.collapse stream
    refine ⟨nc, run_cons_iff.mpr ⟨_, received, ran⟩, empty, http, ?_⟩
    rw [delivered, List.flatten_append, List.append_assoc]

/-- A segment that does not complete the block is added to the bytes that wait. -/
theorem receive_block {buf segment rest stream : Bytes}
    (split : buf ++ segment ++ rest = chunkedBlock ++ stream)
    (short : (buf ++ segment).length < chunkedBlock.length)
    (heap : (chunkedBlock ++ stream).length ≤ platform.heap) :
    receive platform (waiting buf) segment = some (waiting (buf ++ segment)) := by
  have block := length_chunkedBlock
  have small : (buf ++ segment).length ≤ intMax := by
    unfold intMax
    omega
  have grows : buf.length + segment.length ≤ platform.heap := by
    have length := congrArg List.length split
    simp only [List.length_append] at length heap
    omega
  have incomplete := @parse_unfinished platform [chunkedField] _ _ _ chunkedField_plain split small
    short
  apply recvSegment_part grows
  rw [handleRecv_waiting, incomplete, handleParsed_zero]
  change (buf ++ segment).length < 8192
  omega

/-- What follows the block in a buffer that holds it. -/
theorem behind_block {buf rest stream : Bytes} (split : buf ++ rest = chunkedBlock ++ stream)
    (long : chunkedBlock.length ≤ buf.length) :
    ∃ got, buf = chunkedBlock ++ got ∧ got ++ rest = stream := by
  have front : chunkedBlock <+: buf :=
    List.prefix_of_prefix_length_le ⟨stream, split.symm⟩ ⟨rest, rfl⟩ long
  obtain ⟨got, rfl⟩ := front
  rw [List.append_assoc] at split
  exact ⟨got, rfl, List.append_cancel_left split⟩

/-- The segment that completes the block brings the first bytes that are reassembled. -/
theorem receive_first {buf segment got : Bytes} (whole : buf ++ segment = chunkedBlock ++ got)
    (heap : (chunkedBlock ++ got).length ≤ platform.heap) :
    receive platform (waiting buf) segment = receive platform (reassembling [] []) got := by
  have grows : buf.length + segment.length ≤ platform.heap := by
    rwa [← List.length_append, whole]
  have first : Mongoose.step platform false (reassembling [] []) (.recv got) =
      some (handleRecv platform false (reassembling [] got)) := step_reassembling heap
  rw [receive, receive, recvSegment, recvSegment, step_waiting grows, whole, first]
  rfl

/-- However a chunked answer is cut, its last segment delivers the data of all chunks. -/
theorem run_chunked {buf : Bytes} {segments : List Bytes}
    (nonempty : ∀ segment ∈ segments, segment ≠ []) (present : ∀ data ∈ datas, data ≠ [])
    (fits : Fits platform [] (datas ++ [[]])) (short : buf.length < chunkedBlock.length)
    (arrives : buf ++ segments.flatten = chunkedBlock ++ coded (datas ++ [[]])) :
    ∃ nc, run (receive platform) (waiting buf) segments = some nc ∧ nc.recvMbuf = [] ∧
      nc.status = .http ∧
      nc.delivered.map (fun delivery => delivery.hm.body.slice delivery.held) =
        [datas.flatten] := by
  induction segments generalizing buf with
  | nil =>
    have length := congrArg List.length arrives
    rw [List.flatten_nil, List.append_nil, List.length_append] at length
    omega
  | cons segment segments ih =>
    obtain ⟨-, tail⟩ := List.forall_mem_cons.mp nonempty
    have heap := fits.heap
    rw [List.nil_append] at heap
    rw [List.flatten_cons, ← List.append_assoc] at arrives
    by_cases partly : (buf ++ segment).length < chunkedBlock.length
    · -- the block is not whole yet
      obtain ⟨nc, ran, settled⟩ := ih tail partly arrives
      exact ⟨nc, run_cons_iff.mpr ⟨_, receive_block arrives partly heap, ran⟩, settled⟩
    · obtain ⟨got, whole, stream⟩ := behind_block arrives (not_lt.mp partly)
      have held : (chunkedBlock ++ got).length ≤ platform.heap := by
        have length := congrArg List.length stream
        simp only [List.length_append] at length heap ⊢
        omega
      obtain ⟨nc, ran, settled⟩ := @run_reassembling platform [] [] datas got segments tail present
        fits stream
      obtain ⟨next, received, rest⟩ := run_cons_iff.mp ran
      exact ⟨nc, run_cons_iff.mpr ⟨next, (receive_first whole held).trans received, rest⟩, settled⟩

/-- The callback gets the data of all chunks of a chunked answer once, however it is cut. -/
theorem roundTrip_chunked {segments : List Bytes} (nonempty : ∀ segment ∈ segments, segment ≠ [])
    (present : ∀ data ∈ datas, data ≠ []) (fits : Fits platform [] (datas ++ [[]]))
    (arrives : segments.flatten = chunkedBlock ++ coded (datas ++ [[]])) :
    RoundTrip platform segments datas.flatten := by
  obtain ⟨nc, ran, empty, http, delivered⟩ :=
    @run_chunked platform datas [] segments nonempty present fits (by decide) arrives
  have lived : life platform segments = some { nc with status := .closed } := by
    have closed : Mongoose.step platform false nc .close =
        some (handleClose platform false nc) := by
      simp only [Mongoose.step, http]
    change (run (receive platform) (waiting []) segments).bind _ = _
    rw [ran, Option.bind_some, closed, handleClose_idle (.inl (by rw [empty]; rfl))]
  rw [roundTrip_iff_delivered lived]
  exact delivered

end

/-! ## The text at the client -/

section
variable {platform : Platform} {rsp : Bytes}

/-- A call of `s_req_callback` over the life of a connection has one string. -/
theorem RoundTrip.unique {segments : List Bytes} {first second : Bytes}
    (left : RoundTrip platform segments first) (right : RoundTrip platform segments second) :
    first = second := by
  obtain ⟨nc, lived, once⟩ := left
  obtain ⟨other, again, same⟩ := right
  obtain rfl := Option.some.inj (lived.symm.trans again)
  exact (List.cons.inj (List.append_cancel_left ((once {}).symm.trans (same {})))).1

/-- Nothing is delivered of an answer that arrives at once and does not fit. -/
theorem fits_of_roundTrip {sent text : Bytes} (below : sent.length < 2 ^ 32)
    (once : RoundTrip platform [sent] text) :
    sent.length ≤ platform.heap ∧ sent.length ≤ intMax := by
  have held : sent.length ≤ platform.heap := by
    by_contra large
    -- the buffer does not grow
    have dropped : mbufAppend platform [] sent = [] :=
      if_neg (by rwa [List.length_nil, Nat.zero_add])
    have idle : (mgParseHttp platform [] (toInt 0) false).1 = 0 := rfl
    have received : receive platform {} sent = some (waiting []) := by
      have step : Mongoose.step platform false {} (.recv sent) =
          some (handleRecv platform false (waiting (mbufAppend platform [] sent))) := rfl
      rw [dropped, handleRecv_waiting, List.length_nil, idle,
        handleParsed_zero _ (by change 0 < 8192; decide)] at step
      rw [receive, recvSegment, step]
      rfl
    have lived : life platform [sent] = some { waiting [] with status := .closed } := by
      rw [life, run, received]
      exact congrArg some (handleClose_idle (.inl rfl))
    exact not_roundTrip_of_none lived rfl once
  refine ⟨held, ?_⟩
  by_contra large
  have received := @receive_overlong platform [] sent (not_le.mp large) below held
  have lived : life platform [sent] =
      some { waiting ([] ++ sent) with status := .closed, closeImmediately := true } := by
    change (run (receive platform) (waiting []) [sent]).bind _ = _
    rw [run, received]
    exact congrArg some (handleClose_idle (.inr (parse_overlong (not_le.mp large) below)))
  exact not_roundTrip_of_none lived rfl once

/-- `SendResponse` delivers its text as JSON: however the bytes that it appends are cut, the
callback is invoked once, with a JSON text for the text. -/
def DeliversJson (platform : Platform) (rsp : Bytes) : Prop :=
  ∀ segments : List Bytes, (∀ segment ∈ segments, segment ≠ []) →
    segments.flatten = (HttpServer.sendResponse {} (cString rsp)).sendMbuf →
    ∃ text, RoundTrip platform segments text ∧ Text Blank text (resultDatum rsp)

/-- The bytes of an answer with its block and the lines of its chunks. -/
def sentLength (rsp : Bytes) : Nat := rsp.length + 71 + (hexadecimal (rsp.length + 15)).length

/-- The bytes that are sent for a text that can be formatted. -/
theorem length_sent (formatted : (resultText rsp).length < intMax) :
    (chunkedBlock ++ coded (resultChunks rsp ++ [[]])).length = sentLength rsp := by
  have chunks : resultChunks rsp = [resultText rsp] := by
    rw [resultChunks, mgAvprintf, if_pos formatted, Option.toList_some]
  have last : (hexadecimal 0).length = 1 := rfl
  have nothing : coded [] = [] := rfl
  have block := length_chunkedBlock
  simp only [chunks, List.cons_append, List.nil_append, coded_cons, nothing, List.append_nil,
    List.length_append, length_chunkOf, length_resultText, List.length_nil, last, block, sentLength]
  omega

/-- What `SendResponse` sends is much shorter than `UINT_MAX`. -/
theorem length_sent_lt (rsp : Bytes) :
    (chunkedBlock ++ coded (resultChunks rsp ++ [[]])).length < 2 ^ 32 := by
  by_cases formatted : (resultText rsp).length < intMax
  · rw [length_sent formatted]
    rw [length_resultText] at formatted
    have digits : (hexadecimal (rsp.length + 15)).length ≤ 8 := by
      rw [length_hexadecimal_le_iff (by decide)]
      unfold intMax at formatted
      omega
    unfold intMax at formatted
    unfold sentLength
    omega
  · rw [resultChunks, mgAvprintf, if_neg formatted, Option.toList_none]
    decide

/-- A text that is delivered as JSON is made of bytes that may stand for themselves, and fits. -/
theorem stands_of_deliversJson (plain : 0 ∉ rsp) (delivers : DeliversJson platform rsp) :
    (∀ byte ∈ rsp, Unescaped byte) ∧ sentLength rsp ≤ intMax ∧
      sentLength rsp ≤ platform.heap := by
  have sent := sendResponse_eq {} plain
  rw [List.nil_append] at sent
  obtain ⟨text, once, json⟩ := delivers [chunkedBlock ++ coded (resultChunks rsp ++ [[]])]
    (by simp [chunkedBlock, replyBlock, blockOf]) (by rw [sent]; simp)
  obtain ⟨heap, int⟩ := fits_of_roundTrip (length_sent_lt rsp) once
  have delivered := @roundTrip_chunked platform (resultChunks rsp)
    [chunkedBlock ++ coded (resultChunks rsp ++ [[]])] (by simp [chunkedBlock, replyBlock, blockOf])
    (resultChunks_ne_nil rsp) ⟨int, heap⟩ (by simp)
  obtain rfl := once.unique delivered
  by_cases formatted : (resultText rsp).length < intMax
  · rw [length_sent formatted] at heap int
    rw [resultChunks, mgAvprintf, if_pos formatted, Option.toList_some, List.flatten_singleton,
      text_resultText_iff] at json
    exact ⟨json, int, heap⟩
  · -- the text could not be formatted, and the empty text is no JSON
    rw [resultChunks, mgAvprintf, if_neg formatted, Option.toList_none, List.flatten_nil] at json
    exact absurd json (not_text_nil _)

/-- A text of bytes that may stand for themselves is delivered as JSON when it fits. -/
theorem deliversJson_of_stands (plain : 0 ∉ rsp) (stands : ∀ byte ∈ rsp, Unescaped byte)
    (int : sentLength rsp ≤ intMax) (heap : sentLength rsp ≤ platform.heap) :
    DeliversJson platform rsp := by
  intro segments nonempty arrives
  rw [sendResponse_eq {} plain, List.nil_append] at arrives
  have formatted : (resultText rsp).length < intMax := by
    rw [length_resultText]
    unfold sentLength at int
    omega
  have chunks : resultChunks rsp = [resultText rsp] := by
    rw [resultChunks, mgAvprintf, if_pos formatted, Option.toList_some]
  have length := length_sent formatted
  have once := roundTrip_chunked nonempty (resultChunks_ne_nil rsp)
    ⟨by rwa [List.nil_append, length], by rwa [List.nil_append, length]⟩ arrives
  rw [chunks, List.flatten_singleton] at once
  exact ⟨_, once, (text_resultText_iff rsp).mpr stands⟩

/-- The text is delivered as JSON, however the answer is cut, exactly when it has no quote, no
backslash and no control byte, and its answer fits in an `int` and in the receive buffer. -/
theorem deliversJson_iff (plain : 0 ∉ rsp) :
    DeliversJson platform rsp ↔
      (∀ byte ∈ rsp, Unescaped byte) ∧ sentLength rsp ≤ intMax ∧
        sentLength rsp ≤ platform.heap := by
  constructor
  · exact stands_of_deliversJson plain
  · rintro ⟨stands, int, heap⟩
    exact deliversJson_of_stands plain stands int heap

end

/-- A word is delivered as JSON. -/
theorem deliversJson_hello : DeliversJson amd64 (ascii "hello") := by
  have stands : (ascii "hello").all (fun byte => decide (Unescaped byte)) = true := by decide
  exact (deliversJson_iff (by decide)).mpr
    ⟨fun byte member => of_decide_eq_true (List.all_eq_true.mp stands byte member),
      by decide +kernel, by decide +kernel⟩

/-- A quoted word is not delivered as JSON. -/
theorem not_deliversJson_quoted :
    0 ∉ ascii "say \"hi\"" ∧ ¬DeliversJson amd64 (ascii "say \"hi\"") := by
  have plain : 0 ∉ ascii "say \"hi\"" := by decide
  refine ⟨plain, fun delivers => ?_⟩
  have stands := (stands_of_deliversJson plain delivers).1 quote (by decide)
  exact stands.2.1 rfl

end CppCode.HttpClient
