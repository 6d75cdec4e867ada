import CppCode.Mongoose.Reply

/-!
# Parsing a part of a request

What `mg_parse_http` makes of the first bytes of a request that was written with care: nothing
before its block is whole, and from then on its method, its URI with the query string split off, and
its fields, whatever follows.
-/

namespace CppCode.Mongoose

open Library

/-- A printable word. -/
structure IsWord (word : Bytes) : Prop where
  /-- The word is not empty and printable. -/
  plain : IsPlain word
  /-- It has no space. -/
  whole : space ∉ word

/-- The request line. -/
def requestLine (method target : Bytes) : Bytes :=
  method ++ ([space] ++ (target ++ ([space] ++ ascii "HTTP/1.1")))

/-- The block of a request. -/
def requestBlock (method target : Bytes) (fields : List Field) : Bytes :=
  blockOf (requestLine method target :: fields.map Field.line)

section
variable {platform : Platform} {method target : Bytes} {field : Field} {fields : List Field}
  {body buf rest : Bytes}

/-- A block is not empty. -/
theorem requestBlock_pos (method target : Bytes) (fields : List Field) :
    0 < (requestBlock method target fields).length := by
  simp [requestBlock, blockOf]

/-- The lines of a request are printable when its words and fields are. -/
theorem requestLines_plain (verb : IsWord method) (place : IsWord target)
    (plain : ∀ member ∈ fields, member.IsPlain) :
    ∀ line ∈ requestLine method target :: fields.map Field.line, IsPlain line := by
  intro line member
  obtain rfl | written := List.mem_cons.mp member
  · refine ⟨by simp [requestLine], fun byte inside => ?_⟩
    have others : ∀ byte ∈ [space] ++ ascii "HTTP/1.1", isprint byte = true := by
      decide +kernel
    simp only [requestLine, List.mem_append] at inside
    obtain first | gap | second | last := inside
    · exact verb.plain.printable byte first
    · exact others byte (List.mem_append_left _ gap)
    · exact place.plain.printable byte second
    · exact others byte (List.mem_append.mpr last)
  · obtain ⟨field, inside, rfl⟩ := List.mem_map.mp written
    exact (plain field inside).line

/-- The block of a request is found as soon as its bytes are there. -/
theorem requestLen_request (verb : IsWord method) (place : IsWord target)
    (plain : ∀ member ∈ fields, member.IsPlain)
    (split : buf ++ rest = requestBlock method target fields ++ body)
    (small : buf.length ≤ intMax) :
    mgHttpGetRequestLen buf (toInt buf.length) =
      if buf.length < (requestBlock method target fields).length then 0
      else (requestBlock method target fields).length := by
  rw [toInt_of_le small]
  exact mgHttpGetRequestLen_prefix (requestLines_plain verb place plain) split

/-- The bytes of a request before the end of its block are incomplete. -/
theorem parse_request_unfinished (verb : IsWord method) (place : IsWord target)
    (plain : ∀ member ∈ fields, member.IsPlain)
    (split : buf ++ rest = requestBlock method target fields ++ body)
    (small : buf.length ≤ intMax)
    (short : buf.length < (requestBlock method target fields).length) :
    (mgParseHttp platform buf (toInt buf.length) true).1 = 0 := by
  have incomplete := requestLen_request verb place plain split small
  rw [if_pos short] at incomplete
  rw [mgParseHttp_short (le_of_eq incomplete)]
  exact incomplete

/-- The block of a request in a buffer that holds it. -/
theorem take_request (split : buf ++ rest = requestBlock method target fields ++ body)
    (long : (requestBlock method target fields).length ≤ buf.length) :
    buf.take (requestBlock method target fields).length = requestBlock method target fields := by
  have front := congrArg (List.take (requestBlock method target fields).length) split
  rwa [List.take_append_of_le_length long, List.take_left] at front

/-- The bytes of a word are not delimiters. -/
theorem isDelim_word {word : Bytes} (isWord : IsWord word) :
    ∀ byte ∈ word, isDelim [space] byte = false := by
  intro byte member
  have other : byte ≠ space := ne_of_mem_of_not_mem member isWord.whole
  have nonzero := (ne_of_isprint (isWord.plain.printable byte member)).2.2
  simp [isDelim, other, nonzero]

/-- The first byte of a word in front of other bytes is not a delimiter. -/
theorem isDelim_word_head {word : Bytes} (isWord : IsWord word) (more : Bytes) :
    ∀ byte ∈ (word ++ more).head?, isDelim [space] byte = false := by
  obtain ⟨head, tail, rfl⟩ := List.exists_cons_of_ne_nil isWord.plain.nonempty
  exact forall_head (isDelim_word isWord head List.mem_cons_self)

/-- Printable bytes other than the space are not white space. -/
theorem isspace_printable {byte : UInt8} (printable : isprint byte = true) (other : byte ≠ space) :
    isspace byte = false := by
  have number : byte.toNat ≠ 32 := fun same => other (UInt8.toNat_inj.mp same)
  simp only [isprint, isspace, Bool.and_eq_true, Bool.or_eq_false_iff, beq_eq_false_iff_ne,
    Bool.and_eq_false_iff, decide_eq_true_eq, decide_eq_false_iff_not, UInt8.le_iff_toNat_le,
    ne_eq, ← UInt8.toNat_inj, UInt8.reduceToNat] at *
  omega

/-- Where the fields of a request begin. -/
def fieldsOffset (method target : Bytes) : Nat := method.length + 1 + target.length + 1 + 8 + 2

/-- The request line sets method, URI, query string and protocol. -/
theorem parseRequestLine_request {limit : Nat} (verb : IsWord method) (place : IsWord target)
    (plain : ∀ member ∈ field :: fields, member.IsPlain)
    (block : buf.take limit = requestBlock method target (field :: fields)) (hm : HttpMessage) :
    startLine buf limit = 0 ∧
      (∃ after, parseRequestLine buf 0 limit hm = some (after, fieldsOffset method target) ∧
        after.method.slice buf = method ∧
        after.uri.slice buf = target.take (target.findIdx (· == 63)) ∧
        (hm.queryString.p = none →
          after.queryString.slice buf = target.drop (target.findIdx (· == 63) + 1))) ∧
      (buf.take limit).drop (fieldsOffset method target) = fieldsText (field :: fields) := by
  have text : (buf.take limit).drop 0 = method ++ ([space] ++ (target ++ ([space] ++
      (ascii "HTTP/1.1" ++ (crlf ++ fieldsText (field :: fields)))))) := by
    rw [List.drop_zero, block]
    simp [requestBlock, requestLine, blockOf, fieldsText]
  have spaces : ∀ byte ∈ [space], isDelim [space] byte = true := by decide +kernel
  have first : mgSkip buf 0 limit [space] = (⟨some 0, method.length⟩, method.length + 1) := by
    have skipped := mgSkip_word text (isDelim_word verb) spaces (by decide)
      (isDelim_word_head place _)
    rwa [Nat.zero_add] at skipped
  have behind : (buf.take limit).drop (method.length + 1) = target ++ ([space] ++
      (ascii "HTTP/1.1" ++ (crlf ++ fieldsText (field :: fields)))) := by
    have dropped := drop_word (drop_word text)
    rwa [Nat.zero_add] at dropped
  have protocolHead : ∀ byte ∈ (ascii "HTTP/1.1" ++ (crlf ++ fieldsText (field :: fields))).head?,
      isDelim [space] byte = false := by
    rw [List.head?_append_of_ne_nil _ (by decide)]
    decide +kernel
  have second := mgSkip_word behind (isDelim_word place) spaces (by decide) protocolHead
  have protocol := drop_word (drop_word behind)
  have third := @mgSkip_word _ _ _ _ crlf _ _ protocol (by decide +kernel)
    (List.all_eq_true.mp (by decide)) (by decide) fun byte member =>
      isDelim_crlf (fieldsText_head plain byte member)
  have line : startLine buf limit = 0 := by
    obtain ⟨head, tail, rfl⟩ := List.exists_cons_of_ne_nil verb.plain.nonempty
    have start : (buf.take limit).drop 0 = [] ++ (head :: _) := text
    have other : head ≠ space := ne_of_mem_of_not_mem List.mem_cons_self verb.whole
    have printable := verb.plain.printable head List.mem_cons_self
    exact scanTo_word start (by simp) (forall_head (by simp [isspace_printable printable other]))
  refine ⟨line, ?_, drop_word (drop_word protocol)⟩
  have verbSlice : MgStr.slice buf ⟨some 0, method.length⟩ = method := slice_word text
  have uriSlice : MgStr.slice buf ⟨some (method.length + 1), target.length⟩ = target :=
    slice_word behind
  obtain ⟨more, memory⟩ := drop_of_split behind
  rw [List.append_assoc] at memory
  rw [parseRequestLine, first]
  dsimp only
  rw [second]
  dsimp only
  rw [third]
  dsimp only
  rw [if_neg (by simp only [Option.getD_some, List.length_singleton]; omega), uriSlice,
    Option.getD_some]
  by_cases query : target.findIdx (· == 63) < target.length
  · rw [if_pos query]
    refine ⟨_, rfl, verbSlice, ?_, fun _ => ?_⟩
    · show (buf.drop (method.length + 1)).take (target.findIdx (· == 63)) = _
      rw [memory, List.take_append_of_le_length (Nat.le_of_lt query)]
    · show (buf.drop (method.length + 1 + target.findIdx (· == 63) + 1)).take
        (target.length - (target.findIdx (· == 63) + 1)) = _
      rw [Nat.add_assoc, ← List.drop_drop, memory, List.drop_append_of_le_length query,
        List.take_append_of_le_length (by rw [List.length_drop]),
        List.take_of_length_le (by rw [List.length_drop])]
  · rw [if_neg query]
    refine ⟨_, rfl, verbSlice, ?_, fun none => ?_⟩
    · show MgStr.slice buf ⟨some (method.length + 1), target.length⟩ = _
      rw [uriSlice, List.take_of_length_le (by omega)]
    · show MgStr.slice buf hm.queryString = _
      rw [List.drop_eq_nil_of_le (by omega), MgStr.slice, none]

/-- The headers of a request begin behind its request line. -/
theorem headersStart_request {limit : Nat} (verb : IsWord method) (place : IsWord target)
    (plain : ∀ member ∈ field :: fields, member.IsPlain)
    (block : buf.take limit = requestBlock method target (field :: fields)) :
    headersStart buf limit true = some (fieldsOffset method target) := by
  obtain ⟨line, ⟨after, parsed, -⟩, -⟩ := parseRequestLine_request verb place plain block {}
  rw [headersStart, if_pos rfl, line, parsed]
  rfl

/-- The headers of a request are the slots of its fields. -/
theorem headersOf_request {limit : Nat} (verb : IsWord method) (place : IsWord target)
    (plain : ∀ member ∈ field :: fields, member.IsPlain)
    (room : (field :: fields).length < mgMaxHttpHeaders)
    (block : buf.take limit = requestBlock method target (field :: fields)) :
    headersOf buf limit true = fieldSlots (fieldsOffset method target) (field :: fields) := by
  obtain ⟨-, -, split⟩ := parseRequestLine_request verb place plain block {}
  simp only [headersOf, headersStart_request verb place plain block]
  exact readHeaders_fields plain split (by omega) (by omega)

/-- The query string survives the header loop. -/
theorem parseHeadersFrom_query (platform : Platform) (buf : Bytes) (limit len fuel i s : Nat)
    (req : HttpMessage) :
    (parseHeadersFrom platform buf limit len fuel i s req).1.queryString = req.queryString := by
  induction fuel generalizing i s req with
  | zero => rfl
  | succ fuel ih =>
    rw [parseHeadersFrom]
    split_ifs
    · simp only
      split_ifs <;> first | rfl | exact ih _ _ _
    · rfl

/-- The request line survives the reset of the body. -/
theorem resetBody_line (platform : Platform) (buf : Bytes) (len : Nat) (isReq : Bool)
    (hm : HttpMessage) :
    (resetBody platform buf len isReq hm).method = hm.method ∧
      (resetBody platform buf len isReq hm).uri = hm.uri ∧
      (resetBody platform buf len isReq hm).queryString = hm.queryString := by
  unfold resetBody
  split <;> exact ⟨rfl, rfl, rfl⟩

/-- A message whose request line was read as it was written. -/
structure HttpMessage.Requests (hm : HttpMessage) (buf method target : Bytes) : Prop where
  /-- The method. -/
  method : hm.method.slice buf = method
  /-- The target up to the question mark. -/
  uri : hm.uri.slice buf = target.take (target.findIdx (· == 63))
  /-- The target behind it. -/
  query : hm.queryString.slice buf = target.drop (target.findIdx (· == 63) + 1)

/-- The bytes of a request from the end of its block on describe the request. -/
theorem parse_request (verb : IsWord method) (place : IsWord target)
    (plain : ∀ member ∈ field :: fields, member.IsPlain)
    (split : buf ++ rest = requestBlock method target (field :: fields) ++ body)
    (small : buf.length ≤ intMax)
    (long : (requestBlock method target (field :: fields)).length ≤ buf.length) :
    (mgParseHttp platform buf (toInt buf.length) true).1 =
        (requestBlock method target (field :: fields)).length ∧
      (mgParseHttp platform buf (toInt buf.length) true).2.Describes platform buf
        (requestBlock method target (field :: fields)).length true ∧
      (mgParseHttp platform buf (toInt buf.length) true).2.Requests buf method target := by
  have complete := requestLen_request verb place plain split small
  rw [if_neg (not_lt.mpr long)] at complete
  have block := take_request split long
  have start := headersStart_request verb place plain block
  have positive := requestBlock_pos method target (field :: fields)
  have pos : 0 < mgHttpGetRequestLen buf (toInt buf.length) := by omega
  have parsed := @mgParseHttp_complete platform buf (toInt buf.length) true
    (fieldsOffset method target)
  obtain ⟨after, read, -, -, shape⟩ := @mgParseHttp_shape platform buf (toInt buf.length) true
    (fieldsOffset method target) pos (by rwa [complete, Int.toNat_natCast])
  rw [complete, Int.toNat_natCast] at parsed read shape
  obtain ⟨length, describes⟩ := parsed (by omega) start
  refine ⟨length, describes, ?_⟩
  obtain ⟨line, ⟨message, again, verbSlice, uriSlice, querySlice⟩, -⟩ := parseRequestLine_request
    verb place plain block
    (clearedMessage platform (requestBlock method target (field :: fields)).length)
  rw [if_pos rfl, line, again] at read
  obtain ⟨rfl, -⟩ := Prod.mk.inj (Option.some.inj read)
  obtain ⟨method_kept, uri_kept⟩ := parseHeadersFrom_line platform buf
    (requestBlock method target (field :: fields)).length
    (requestBlock method target (field :: fields)).length
    ((requestBlock method target (field :: fields)).length + mgMaxHttpHeaders) 0
    (fieldsOffset method target) message
  have query_kept := parseHeadersFrom_query platform buf
    (requestBlock method target (field :: fields)).length
    (requestBlock method target (field :: fields)).length
    ((requestBlock method target (field :: fields)).length + mgMaxHttpHeaders) 0
    (fieldsOffset method target) message
  rw [shape]
  dsimp only
  obtain ⟨method_left, uri_left, query_left⟩ := resetBody_line platform buf
    (requestBlock method target (field :: fields)).length true
    (mgHttpParseHeaders platform buf (fieldsOffset method target)
      (requestBlock method target (field :: fields)).length
      (requestBlock method target (field :: fields)).length message).1
  rw [mgHttpParseHeaders] at *
  exact ⟨by rw [method_left, method_kept, verbSlice], by rw [uri_left, uri_kept, uriSlice],
    by rw [query_left, query_kept, querySlice rfl]⟩

end

/-! ## Finding fields -/

section
variable {buf name : Bytes} {s limit : Nat} {field : Field} {fields : List Field}

/-- What follows the name of the first of some fields. -/
theorem first_field (split : (buf.take limit).drop s = fieldsText (field :: fields)) :
    ∃ more, (buf.take limit).drop s = field.line ++ cr :: more := by
  cases fields with
  | nil =>
    refine ⟨lf :: crlf, ?_⟩
    rw [split]
    simp [fieldsText, blockOf, crlf]
  | cons next fields =>
    refine ⟨lf :: fieldsText (next :: fields), ?_⟩
    rw [split]
    simp [fieldsText, blockOf, crlf]

/-- A field is tested by its name, in any case. -/
theorem slot_matches {more : Bytes} (place : buf.drop s = field.line ++ more) (plain : 0 ∉ name) :
    ((⟨some s, field.name.length⟩ : MgStr).p.isSome &&
      (⟨some s, field.name.length⟩ : MgStr).len == name.length &&
      mgNcasecmp (buf.drop ((⟨some s, field.name.length⟩ : MgStr).p.getD 0)) name name.length == 0)
        = decide (field.name.map tolower = name.map tolower) := by
  rw [Field.line, List.append_assoc] at place
  by_cases same : field.name.length = name.length
  · have compared : mgNcasecmp (buf.drop s) name name.length = 0 ↔
        field.name.map tolower = name.map tolower := by
      rw [mgNcasecmp_eq_zero_iff (le_refl _) plain, place, ← same, List.take_left, same,
        List.take_length]
    simp [same, compared, Bool.beq_eq_decide_eq]
  · have other : field.name.map tolower ≠ name.map tolower := by
      intro equal
      have lengths := congrArg List.length equal
      rw [List.length_map, List.length_map] at lengths
      exact same lengths
    simp [same, other]

/-- A field of another name is passed over. -/
theorem findHeader_other {more : Bytes} (place : buf.drop s = field.line ++ more) (plain : 0 ∉ name)
    (other : field.name.map tolower ≠ name.map tolower) :
    findHeader buf (fieldSlots s (field :: fields)) name =
      findHeader buf (fieldSlots (s + field.line.length + 2) fields) name := by
  rw [findHeader, findHeader, fieldSlots, List.find?_cons, slot_matches place plain,
    decide_eq_false other]

/-- A field of this name is found. -/
theorem findHeader_same {more : Bytes} (place : buf.drop s = field.line ++ more) (plain : 0 ∉ name)
    (same : field.name.map tolower = name.map tolower) :
    findHeader buf (fieldSlots s (field :: fields)) name =
      some ⟨some (s + field.name.length + 2), field.value.length⟩ := by
  rw [findHeader, fieldSlots, List.find?_cons, slot_matches place plain, decide_eq_true same]
  rfl

/-- No field has the name. -/
theorem findHeader_absent (wellFormed : ∀ member ∈ fields, member.IsPlain) (plain : 0 ∉ name)
    (split : (buf.take limit).drop s = fieldsText fields)
    (other : ∀ member ∈ fields, member.name.map tolower ≠ name.map tolower) :
    findHeader buf (fieldSlots s fields) name = none := by
  induction fields generalizing s with
  | nil => rfl
  | cons field fields ih =>
    obtain ⟨more, text⟩ := first_field split
    obtain ⟨behind, place⟩ := drop_of_split text
    rw [List.append_assoc] at place
    obtain ⟨next, -, left, next_eq⟩ := readHeader_field wellFormed split
    rw [findHeader_other place plain (other field List.mem_cons_self)]
    cases fields with
    | nil => rfl
    | cons second fields =>
      rw [← next_eq (by simp)]
      exact ih (fun member inside => wellFormed member (List.mem_cons_of_mem field inside)) left
        fun member inside => other member (List.mem_cons_of_mem field inside)

/-- The first field of a name is found, and its value is in front of the end of its line. -/
theorem findHeader_field {before after : List Field}
    (wellFormed : ∀ member ∈ before ++ field :: after, member.IsPlain) (plain : 0 ∉ name)
    (split : (buf.take limit).drop s = fieldsText (before ++ field :: after))
    (other : ∀ member ∈ before, member.name.map tolower ≠ name.map tolower)
    (same : field.name.map tolower = name.map tolower) :
    ∃ p more, findHeader buf (fieldSlots s (before ++ field :: after)) name =
        some ⟨some p, field.value.length⟩ ∧
      (buf.take limit).drop p = field.value ++ cr :: more := by
  induction before generalizing s with
  | nil =>
    obtain ⟨more, text⟩ := first_field split
    obtain ⟨behind, place⟩ := drop_of_split text
    rw [List.append_assoc] at place
    refine ⟨s + field.name.length + 2, more, findHeader_same place plain same, ?_⟩
    rw [Nat.add_assoc, ← List.drop_drop, text, ← List.drop_drop, Field.line, List.append_assoc,
      List.drop_left]
    rfl
  | cons first before ih =>
    obtain ⟨more, text⟩ := first_field split
    obtain ⟨behind, place⟩ := drop_of_split text
    rw [List.append_assoc] at place
    obtain ⟨next, -, left, next_eq⟩ := readHeader_field wellFormed split
    rw [List.cons_append, findHeader_other place plain (other first List.mem_cons_self),
      ← next_eq (by simp)]
    exact ih (fun member inside => wellFormed member (List.mem_cons_of_mem first inside)) left
      fun member inside => other member (List.mem_cons_of_mem first inside)

/-- A name is answered with the value of the first field that has it. -/
theorem findHeader_value (wellFormed : ∀ member ∈ fields, member.IsPlain) (plain : 0 ∉ name)
    (split : (buf.take limit).drop s = fieldsText fields) :
    (findHeader buf (fieldSlots s fields) name).map (fun value => value.slice buf) =
      (fields.find? fun field => field.name.map tolower = name.map tolower).map Field.value := by
  cases found : fields.find? fun field => field.name.map tolower = name.map tolower with
  | none =>
    have other := List.find?_eq_none.mp found
    rw [findHeader_absent wellFormed plain split fun member inside =>
      of_decide_eq_false (Bool.eq_false_iff.mpr (other member inside))]
    rfl
  | some field =>
    obtain ⟨same, before, after, rfl, other⟩ := List.find?_eq_some_iff_append.mp found
    obtain ⟨p, more, slot, place⟩ := findHeader_field wellFormed plain split
      (fun member inside => by simpa using other member inside) (of_decide_eq_true same)
    rw [slot, Option.map_some, slice_word place]
    rfl

end

end CppCode.Mongoose
