import CppCode.Library.Run
import CppCode.Mongoose.Connect
import CppCode.Mongoose.HttpHandler

/-!
# From the client to the server

What `mg_connect_http_opt` sends for a URL arrives in segments at an accepted connection, is parsed
by `mg_http_handler` and ends in one `MG_EV_HTTP_REQUEST`: with the method, the URI and query string
of the URL, its host, the posted data as the body, and credentials that are read back. Until the
last byte is there, nothing is delivered and nothing is lost.
-/

namespace CppCode.Mongoose

open Library

/-! ## The fields of a request -/

/-- Encodings are printable and have neither spaces nor colons. -/
theorem base64_printable (bytes : Bytes) :
    ∀ byte ∈ base64 bytes, isprint byte = true ∧ byte ≠ space ∧ byte ≠ colon := by
  have digits : ∀ v < 64, isprint (base64Digit v) = true ∧ base64Digit v ≠ space ∧
      base64Digit v ≠ colon := by
    decide +kernel
  have group : ∀ a b c : UInt8, ∀ byte ∈ base64Group a b c,
      isprint byte = true ∧ byte ≠ space ∧ byte ≠ colon := by
    intro a b c byte member
    have smallA := a.toNat_lt
    have smallB := b.toNat_lt
    have smallC := c.toNat_lt
    simp only [base64Group, List.mem_cons, List.not_mem_nil, or_false] at member
    obtain rfl | rfl | rfl | rfl := member <;> exact digits _ (by omega)
  have padded : ∀ byte ∈ ascii "=" ++ ascii "==",
      isprint byte = true ∧ byte ≠ space ∧ byte ≠ colon := by decide +kernel
  intro byte member
  induction bytes using base64.induct with
  | case1 => simp [base64] at member
  | case2 a =>
    obtain front | behind := List.mem_append.mp member
    · exact group a 0 0 byte (List.mem_of_mem_take front)
    · exact padded byte (List.mem_append_right _ behind)
  | case3 a b =>
    obtain front | behind := List.mem_append.mp member
    · exact group a b 0 byte (List.mem_of_mem_take front)
    · exact padded byte (List.mem_append_left _ behind)
  | case4 a b c rest ih =>
    obtain front | behind := List.mem_append.mp member
    · exact group a b c byte front
    · exact ih behind

/-- A field whose value is a word that does not begin with a colon. -/
theorem plain_of_word {name value : Bytes} (named : IsPlain name)
    (whole : colon ∉ name ∧ space ∉ name) (word : IsWord value)
    (first : value.head? ≠ some colon) : Field.IsPlain ⟨name, value⟩ where
  name := named
  value := word.plain
  word := whole
  first := ⟨first, fun blank => word.whole (List.mem_of_mem_head? blank)⟩
  last := fun blank => word.whole (List.mem_of_getLast? blank)

/-- A numeral is a word that does not begin with a colon. -/
theorem decimal_word (count : Nat) :
    IsWord (decimal count) ∧ (decimal count).head? ≠ some colon := by
  have digits := decimal_digit count
  refine ⟨⟨⟨decimal_ne_nil count, fun byte inside => isprint_of_isDigit (digits byte inside)⟩, ?_⟩,
    ?_⟩
  · intro inside
    exact absurd (digits space inside) (by decide)
  · intro first
    exact absurd (digits colon (List.mem_of_mem_head? first)) (by decide)

namespace UrlRequest

variable {request : UrlRequest}

/-- The method is a word. -/
theorem method_word (request : UrlRequest) : IsWord request.method := by
  rw [method]
  split_ifs <;> exact ⟨by decide, by decide⟩

/-- The target is a word. -/
theorem Valid.target_word (valid : request.Valid) : IsWord request.target := by
  rw [target]
  obtain none | ⟨word, -⟩ := valid.path
  · rw [if_pos none]
    exact ⟨by decide, by decide⟩
  · rw [if_neg word.plain.nonempty]
    exact word

/-- The credentials are a plain field. -/
theorem authorization_plain (user pass : Bytes) : (authorization user pass).IsPlain := by
  have printable := base64_printable (credentials user pass)
  have scheme : ∀ byte ∈ ascii "Basic ", isprint byte = true := by decide +kernel
  have present : base64 (credentials user pass) ≠ [] := by
    intro none
    have length := length_base64 (credentials user pass)
    have some_bytes : 0 < (credentials user pass).length := by simp [credentials, ascii]
    rw [none, List.length_nil] at length
    omega
  have name : IsPlain (ascii "Authorization") := by decide
  have word : colon ∉ ascii "Authorization" ∧ space ∉ ascii "Authorization" := by decide
  have first : (ascii "Basic " ++ base64 (credentials user pass)).head? = some 66 := by
    rw [List.head?_append_of_ne_nil _ (by decide)]
    decide
  have other : (some 66 : Option UInt8) ≠ some colon ∧ (some 66 : Option UInt8) ≠ some space := by
    decide
  refine ⟨name, ⟨by simp [authorization, ascii], ?_⟩, word, by rwa [authorization, first], ?_⟩
  · intro byte member
    obtain front | behind := List.mem_append.mp member
    · exact scheme byte front
    · exact (printable byte behind).1
  · intro blank
    have last : (base64 (credentials user pass)).getLast? = some space := by
      rwa [authorization, List.getLast?_append_of_ne_nil _ present] at blank
    exact (printable space (List.mem_of_getLast? last)).2.1 rfl

/-- Credentials are the only field for user information. -/
theorem infoFields_member {field : Field} (member : field ∈ request.infoFields) :
    ∃ user pass, field = authorization user pass := by
  rw [infoFields] at member
  cases known : request.userInfo with
  | none => simp [known] at member
  | some pair =>
    simp only [known, List.mem_singleton] at member
    exact ⟨pair.1, pair.2, member⟩

/-- The fields of a request are read as they were written. -/
theorem Valid.fields_plain (valid : request.Valid) : ∀ field ∈ request.fields, field.IsPlain := by
  intro field member
  simp only [fields, others, List.mem_cons, List.mem_append] at member
  obtain rfl | rfl | info | extra := member
  · obtain ⟨word, first⟩ := valid.host
    have present : request.host ≠ [] := word.plain.nonempty
    have port : ∀ byte ∈ request.leftPort, isprint byte = true ∧ byte ≠ space := by
      rw [leftPort]
      split_ifs
      · simp
      · decide +kernel
    have shown : IsWord request.hostField ∧ request.hostField.head? ≠ some colon := by
      rw [hostField]
      refine ⟨⟨⟨by simp [present], ?_⟩, ?_⟩, by rwa [List.head?_append_of_ne_nil _ present]⟩
      · intro byte inside
        obtain front | behind := List.mem_append.mp inside
        · exact word.plain.printable byte front
        · exact (port byte behind).1
      · intro inside
        obtain front | behind := List.mem_append.mp inside
        · exact word.whole front
        · exact (port space behind).2 rfl
    exact plain_of_word (by decide) (by decide) shown.1 shown.2
  · obtain ⟨word, first⟩ := decimal_word request.body.length
    exact plain_of_word (by decide) (by decide) word first
  · obtain ⟨user, pass, rfl⟩ := infoFields_member info
    exact authorization_plain user pass
  · exact valid.extra field extra

/-- Only the field of the length declares a length. -/
theorem Valid.declared (valid : request.Valid) (small : request.body.length ≤ intMax) :
    ((request.fields.filter Field.isContentLength).getLast?).map (fun field => to64 field.value) =
      some (request.body.length : Int) := by
  have hostName : ∀ value, Field.isContentLength ⟨ascii "Host", value⟩ = false := by
    have name : ((ascii "Host").take 14).map tolower ≠ ascii "content-length" := by decide
    exact fun value => decide_eq_false name
  have lengthName : ∀ value, Field.isContentLength ⟨ascii "Content-Length", value⟩ = true := by
    have name : ((ascii "Content-Length").take 14).map tolower = ascii "content-length" := by decide
    exact fun value => decide_eq_true name
  have authName : ∀ user pass, (authorization user pass).isContentLength = false := by
    have name : ((ascii "Authorization").take 14).map tolower ≠ ascii "content-length" := by decide
    exact fun user pass => decide_eq_false name
  have infos : request.infoFields.filter Field.isContentLength = [] := by
    rw [infoFields]
    cases request.userInfo with
    | none => rfl
    | some pair => simp [authName]
  have extras : request.extra.filter Field.isContentLength = [] := by
    apply List.filter_eq_nil_iff.mpr
    intro field member
    simp [(valid.unframed field member).1]
  have word : request.body.length < 2 ^ (64 - 1) := by
    unfold intMax at small
    omega
  have number : to64 (decimal request.body.length) = request.body.length := by
    rw [to64, readSigned_decimal, saturate_of_lt word]
  rw [fields, others, List.filter_cons, hostName, List.filter_cons, lengthName,
    List.filter_append, infos, extras]
  simp [number]

/-- The names of the fields that a request always has, and no others unless they are additional. -/
theorem fields_absent {name : Bytes}
    (other : ∀ known ∈ [ascii "Host", ascii "Content-Length", ascii "Authorization"],
      known.map tolower ≠ name.map tolower)
    (extra : ∀ field ∈ request.extra, field.name.map tolower ≠ name.map tolower) :
    ∀ field ∈ request.fields, field.name.map tolower ≠ name.map tolower := by
  intro field member
  simp only [fields, others, List.mem_cons, List.mem_append] at member
  obtain rfl | rfl | info | added := member
  · exact other _ (by simp)
  · exact other _ (by simp)
  · obtain ⟨user, pass, rfl⟩ := infoFields_member info
    exact other (ascii "Authorization") (by simp)
  · exact extra field added

/-! ## Parsing a part of a request -/

section
variable {platform : Platform} {buf rest : Bytes}

/-- The fields of a request in a buffer that holds its block. -/
theorem Valid.fields_text (valid : request.Valid) (split : buf ++ rest = request.bytes)
    (long : request.block.length ≤ buf.length) :
    headersOf buf request.block.length true =
        fieldSlots (fieldsOffset request.method request.target) request.fields ∧
      (buf.take request.block.length).drop (fieldsOffset request.method request.target) =
        fieldsText request.fields := by
  have block := take_request split long
  have verb := method_word request
  exact ⟨headersOf_request verb valid.target_word valid.fields_plain valid.room block,
    (parseRequestLine_request verb valid.target_word valid.fields_plain block {}).2.2⟩

/-- The lengths of a request. -/
theorem Valid.framing (valid : request.Valid) (split : buf ++ rest = request.bytes)
    (long : request.block.length ≤ buf.length) (heap : request.bytes.length ≤ platform.heap)
    (small : request.body.length ≤ intMax) :
    Mongoose.framing platform buf request.block.length true =
      ⟨request.body.length, request.block.length + request.body.length⟩ := by
  have fits := platform.fits
  rw [bytes, List.length_append] at heap
  obtain ⟨headers, text⟩ := valid.fields_text split long
  have declared : declaredLength buf (headersOf buf request.block.length true) =
      some (request.body.length : Int) := by
    rw [headers, ← valid.declared small]
    exact declaredLength_fields valid.fields_plain text
  have word : platform.toSize (request.body.length : Int) = request.body.length :=
    platform.toSize_of_lt (by omega)
  have sum : platform.add request.block.length request.body.length =
      request.block.length + request.body.length := Nat.mod_eq_of_lt (by omega)
  have known : request.body.length ≠ platform.maxSize := by
    unfold Platform.maxSize
    omega
  simp only [Mongoose.framing, declared, declaredLengths, word, sum]
  rw [if_neg fun both => known both.1]

/-- A request is neither chunked nor an upgrade. -/
theorem Valid.getHeader_absent (valid : request.Valid) {hm : HttpMessage} {name : Bytes}
    (split : buf ++ rest = request.bytes) (long : request.block.length ≤ buf.length)
    (describes : hm.Describes platform buf request.block.length true) (plain : 0 ∉ name)
    (other : ∀ known ∈ [ascii "Host", ascii "Content-Length", ascii "Authorization"],
      known.map tolower ≠ name.map tolower)
    (extra : ∀ field ∈ request.extra, field.name.map tolower ≠ name.map tolower) :
    mgGetHttpHeader buf hm name = none := by
  obtain ⟨headers, text⟩ := valid.fields_text split long
  rw [describes.getHeader, headers]
  exact findHeader_absent valid.fields_plain plain text (fields_absent other extra)

/-! ## Receiving -/

/-- A complete block of a request is dispatched on the length of the message alone. -/
theorem Valid.handleParsed (valid : request.Valid) {hm : HttpMessage}
    (split : buf ++ rest = request.bytes) (long : request.block.length ≤ buf.length)
    (heap : request.bytes.length ≤ platform.heap) (small : request.body.length ≤ intMax)
    (describes : hm.Describes platform buf request.block.length true) :
    Mongoose.handleParsed platform true (waiting buf) request.block.length hm =
      if rest = [] then
        { waiting buf with
          removals := [hm.message.len]
          delivered := [⟨buf, hm⟩] }
      else waiting buf := by
  have transfer : mgGetHttpHeader buf hm (ascii "Transfer-Encoding") = none :=
    valid.getHeader_absent split long describes (by decide) (by decide)
      fun field member => (valid.unframed field member).2
  have upgrade : mgGetHttpHeader buf hm (upgradeHeader true) = none :=
    valid.getHeader_absent split long describes (by decide) (by decide) valid.http
  have plain : isChunked buf hm = false := by
    rw [isChunked, transfer]
  have positive := requestBlock_pos request.method request.target request.fields
  have block : 0 < request.block.length := positive
  have length := congrArg List.length split
  rw [bytes, List.length_append, List.length_append] at length
  have message : hm.message.len = request.block.length + request.body.length := by
    rw [describes.spans.message, valid.framing split long heap small]
  have complete : hm.message.len ≤ buf.length ↔ rest = [] := by
    rw [message, ← List.length_eq_zero_iff]
    omega
  unfold Mongoose.handleParsed
  have buffer : (waiting buf).recvMbuf = buf := rfl
  rw [buffer, plain, if_neg fun both => absurd both.2 (by simp)]
  simp only [dispatch, buffer, upgrade]
  rw [if_neg (by omega), if_neg (by omega), if_neg (by simp)]
  simp only [complete]
  rfl

/-- The bytes of a request from the end of its block on describe the request. -/
theorem Valid.parse (valid : request.Valid) (split : buf ++ rest = request.bytes)
    (small : buf.length ≤ intMax) (long : request.block.length ≤ buf.length) :
    (mgParseHttp platform buf (toInt buf.length) true).1 = request.block.length ∧
      (mgParseHttp platform buf (toInt buf.length) true).2.Describes platform buf
        request.block.length true ∧
      (mgParseHttp platform buf (toInt buf.length) true).2.Requests buf request.method
        request.target :=
  parse_request (method_word request) valid.target_word valid.fields_plain split small long

/-- A part of a request is kept. -/
theorem Valid.handleRecv_part (valid : request.Valid)
    (short : request.block.length ≤ mgMaxHttpRequestSize) (split : buf ++ rest = request.bytes)
    (more : rest ≠ []) (small : request.bytes.length ≤ intMax)
    (heap : request.bytes.length ≤ platform.heap) :
    handleRecv platform true (waiting buf) = waiting buf := by
  have verb := method_word request
  have length := congrArg List.length split
  rw [List.length_append] at length
  have body : request.body.length ≤ request.bytes.length := by simp [bytes]
  have few : buf.length ≤ intMax := by omega
  rw [handleRecv_waiting]
  by_cases inside : buf.length < request.block.length
  · have unfinished := @parse_request_unfinished platform _ _ _ request.body _ _ verb
      valid.target_word valid.fields_plain split few inside
    rw [unfinished]
    exact handleParsed_zero _ (lt_of_lt_of_le inside short)
  · have long := not_lt.mp inside
    obtain ⟨block, describes, -⟩ := @Valid.parse request platform _ _ valid split few long
    rw [block]
    exact (valid.handleParsed split long heap (by omega) describes).trans (if_neg more)

/-- A message that was read as the request that was sent. -/
structure Describes (request : UrlRequest) (hm : HttpMessage) : Prop where
  /-- Its request line. -/
  line : hm.Requests request.bytes request.method request.target
  /-- Its body. -/
  body : hm.body.slice request.bytes = request.body
  /-- Its host, and the default port if it was left behind the host. -/
  host : (mgGetHttpHeader request.bytes hm (ascii "Host")).map (fun value =>
    value.slice request.bytes) = some (request.host ++ request.leftPort)
  /-- Its headers, also the additional ones: a name is answered with the first field that has it. -/
  headers : ∀ name : Bytes, 0 ∉ name →
    (mgGetHttpHeader request.bytes hm name).map (fun value => value.slice request.bytes) =
      (request.fields.find? fun field => field.name.map tolower = name.map tolower).map Field.value
  /-- Its credentials, if they fit and have no separators. -/
  credentials : ∀ user pass, request.userInfo = some (user, pass) →
    0 ∉ Mongoose.credentials user pass → ∀ userLen passLen, 1 < userLen ∧ 1 < passLen →
      (mgGetHttpBasicAuth request.bytes hm userLen passLen = (0, some user, some pass) ↔
        (58 ∉ user ∧ user.length < userLen) ∧ 10 ∉ pass ∧ pass.length < passLen)

/-- The credentials of a request are read from its message, if they fit and have no separators. -/
theorem Valid.credentials_read (valid : request.Valid) {hm : HttpMessage}
    (long : request.block.length ≤ request.bytes.length)
    (describes : hm.Describes platform request.bytes request.block.length true) {user pass : Bytes}
    (known : request.userInfo = some (user, pass)) (plain : 0 ∉ Mongoose.credentials user pass)
    {userLen passLen : Nat} (room : 1 < userLen ∧ 1 < passLen) :
    mgGetHttpBasicAuth request.bytes hm userLen passLen = (0, some user, some pass) ↔
      (58 ∉ user ∧ user.length < userLen) ∧ 10 ∉ pass ∧ pass.length < passLen := by
  obtain ⟨headers, text⟩ := valid.fields_text (List.append_nil request.bytes) long
  obtain ⟨user_present, pass_present, -⟩ := valid.info (user, pass) known
  have fields : request.fields = [⟨ascii "Host", request.hostField⟩,
      ⟨ascii "Content-Length", decimal request.body.length⟩] ++
      authorization user pass :: request.extra := by
    simp [UrlRequest.fields, others, infoFields, known]
  have plains := valid.fields_plain
  rw [fields] at headers text plains
  obtain ⟨p, more, found, place⟩ := findHeader_field plains
    (show 0 ∉ ascii "Authorization" by decide) text (by
      simp only [List.mem_cons, List.not_mem_nil, or_false, forall_eq_or_imp, forall_eq]
      decide) rfl
  obtain ⟨behind, memory⟩ := drop_of_split place
  rw [List.append_assoc, List.cons_append] at memory
  have inside : p ≤ request.bytes.length := by
    by_contra past
    rw [List.drop_eq_nil_of_le (by omega)] at memory
    exact absurd memory.symm (by simp)
  have front : (request.bytes.take p).length = p := List.length_take_of_le inside
  have place : request.bytes = request.bytes.take p ++
      (ascii "Basic " ++ base64 (Mongoose.credentials user pass) ++ cr :: (more ++ behind)) := by
    have whole := List.take_append_drop p request.bytes
    rw [memory] at whole
    exact whole.symm
  have parsed := @parse_credentials request.bytes (request.bytes.take p) (cr :: (more ++ behind))
    user pass userLen passLen plain place (.inr ⟨cr, by simp, by decide⟩)
  have value : (authorization user pass).value.length =
      6 + (base64 (Mongoose.credentials user pass)).length := List.length_append
  rw [front] at parsed
  rw [mgGetHttpBasicAuth, describes.getHeader, headers, found, value]
  dsimp only
  rw [parsed, scanned_iff room]
  exact ⟨fun both => ⟨both.1.2, both.2.2⟩,
    fun both => ⟨⟨user_present, both.1⟩, pass_present, both.2⟩⟩

/-- A whole request is delivered as it was sent. -/
theorem Valid.handleRecv_whole (valid : request.Valid) (small : request.bytes.length ≤ intMax)
    (heap : request.bytes.length ≤ platform.heap) :
    ∃ hm, handleRecv platform true (waiting request.bytes) =
        { waiting request.bytes with
          removals := [request.bytes.length]
          delivered := [⟨request.bytes, hm⟩] } ∧ request.Describes hm := by
  have split : request.bytes ++ [] = request.bytes := List.append_nil _
  have whole : request.bytes.length = request.block.length + request.body.length :=
    List.length_append
  have long : request.block.length ≤ request.bytes.length := by omega
  obtain ⟨block, describes, line⟩ := @Valid.parse request platform _ _ valid split small long
  have framed := valid.framing split long heap (by omega)
  obtain ⟨headers, text⟩ := valid.fields_text split long
  rw [handleRecv_waiting, block]
  generalize (mgParseHttp platform request.bytes (toInt request.bytes.length) true).2 = hm
    at describes line
  have spans := describes.spans
  rw [framed] at spans
  have answered : ∀ name : Bytes, 0 ∉ name →
      (mgGetHttpHeader request.bytes hm name).map (fun value => value.slice request.bytes) =
        (request.fields.find? fun field => field.name.map tolower = name.map tolower).map
          Field.value := by
    intro name plain
    rw [describes.getHeader, headers]
    exact findHeader_value valid.fields_plain plain text
  refine ⟨hm, ?_, line, ?_, answered (ascii "Host") (by decide), answered, ?_⟩
  · have message : hm.message.len = request.bytes.length := by rw [spans.message, whole]
    rw [← message]
    exact (valid.handleParsed split long heap (by omega) describes).trans (if_pos rfl)
  · rw [spans.body]
    show (request.bytes.drop request.block.length).take request.body.length = request.body
    rw [bytes, List.drop_left, List.take_length]
  · intro user pass known plain userLen passLen room
    exact valid.credentials_read long describes known plain room

/-! ## Runs of segments -/

/-- Segments of a part of a request are kept. -/
theorem Valid.serve_part (valid : request.Valid)
    (short : request.block.length ≤ mgMaxHttpRequestSize) (small : request.bytes.length ≤ intMax)
    (heap : request.bytes.length ≤ platform.heap) {segments : List Bytes}
    (split : buf ++ segments.flatten ++ rest = request.bytes) (more : rest ≠ []) :
    run (recvSegment platform true) (waiting buf) segments =
      some (waiting (buf ++ segments.flatten)) := by
  induction segments generalizing buf with
  | nil =>
    rw [List.flatten_nil, List.append_nil]
    rfl
  | cons segment segments ih =>
    rw [List.flatten_cons] at split ⊢
    have length := congrArg List.length split
    simp only [List.length_append] at length
    have whole : buf ++ segment ++ (segments.flatten ++ rest) = request.bytes := by
      rw [← split]
      simp
    have left : segments.flatten ++ rest ≠ [] := by simp [more]
    have kept := valid.handleRecv_part short whole left small heap
    rw [← List.append_assoc] at split ⊢
    exact run_cons_iff.mpr ⟨waiting (buf ++ segment), recvSegment_part (by omega) kept, ih split⟩

/-- What is sent for a URL is delivered once and as it was meant, however its bytes are cut, and
nothing is delivered or lost before the last of them. -/
theorem request_delivered (valid : request.Valid)
    (short : request.block.length ≤ mgMaxHttpRequestSize) (small : request.bytes.length ≤ intMax)
    (heap : request.bytes.length ≤ platform.heap) {garbage : Bytes} (three : garbage.length = 3)
    {sslEnabled : Bool} {extraHeaders : Option Bytes}
    (headers : extraHeaders.getD [] = request.extra.flatMap fun field : Field => field.line ++ crlf)
    {segments : List Bytes} {last : Bytes} (nonempty : last ≠ [])
    (sent : mgConnectHttpOpt garbage sslEnabled request.url extraHeaders request.post =
      .ok (segments.flatten ++ last)) :
    run (recvSegment platform true) {} segments = some { recvMbuf := segments.flatten } ∧
      ∃ hm, run (recvSegment platform true) {} (segments ++ [last]) =
        some { delivered := [⟨request.bytes, hm⟩] } ∧ request.Describes hm := by
  have wire : segments.flatten ++ last = request.bytes := by
    rw [connect_bytes valid three sslEnabled headers] at sent
    exact (Except.ok.inj sent).symm
  have waits := @Valid.serve_part request platform [] last valid short small heap segments wire
    nonempty
  rw [List.nil_append] at waits
  refine ⟨waits, ?_⟩
  obtain ⟨hm, handled, describes⟩ := valid.handleRecv_whole small heap
  refine ⟨hm, ?_, describes⟩
  have grows : segments.flatten.length + last.length ≤ platform.heap := by
    rw [← List.length_append, wire]
    exact heap
  have positive := requestBlock_pos request.method request.target request.fields
  have present : 0 < (segments.flatten ++ last).length := by
    rw [wire, bytes, List.length_append]
    exact Nat.add_pos_left positive _
  rw [← wire] at handled
  apply (run_concat last waits).trans
  rw [← wire]
  exact recvSegment_whole grows present handled

end

/-- A posted request with credentials and a query string. -/
def login : UrlRequest where
  userInfo := some (ascii "admin", ascii "secret")
  host := ascii "127.0.0.1"
  path := ascii "/api/fun1?op1=1"
  extra := [⟨ascii "Accept", ascii "text/html"⟩]
  post := some (ascii "op2=2")

/-- A URL can express it. -/
theorem login_valid : login.Valid where
  host := ⟨⟨by decide, by decide⟩, by decide⟩
  hostEnd := by decide
  path := Or.inr ⟨⟨by decide, by decide⟩, by decide⟩
  info := by decide
  pass := by decide
  extra := fun field member => by
    obtain rfl := List.mem_singleton.mp member
    exact ⟨by decide, by decide, by decide, by decide, by decide⟩
  room := by decide
  unframed := by decide
  http := by decide

/-- The bytes of the request, cut inside of its blank line. -/
theorem login_delivered :
    run (recvSegment amd64 true) {} [login.bytes.take 128] =
        some { recvMbuf := [login.bytes.take 128].flatten } ∧
      ∃ hm, run (recvSegment amd64 true) {} ([login.bytes.take 128] ++ [login.bytes.drop 128]) =
        some { delivered := [⟨login.bytes, hm⟩] } ∧ login.Describes hm :=
  @request_delivered login amd64 login_valid (by decide +kernel) (by decide +kernel)
    (by decide +kernel) [0, 0, 0] (by decide) false (some (ascii "Accept: text/html\r\n"))
    (by decide +kernel) [login.bytes.take 128] (login.bytes.drop 128) (by decide +kernel)
    (by
      have whole : [login.bytes.take 128].flatten ++ login.bytes.drop 128 = login.bytes := by
        rw [List.flatten_singleton, List.take_append_drop]
      rw [whole]
      exact connect_bytes login_valid (by decide) false (by decide +kernel))

end UrlRequest

end CppCode.Mongoose
