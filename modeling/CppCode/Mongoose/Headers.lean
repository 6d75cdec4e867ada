import CppCode.Mongoose.HttpMessage

/-!
# The header block

What the parser finds in a header block. `readHeaders` is the list of the headers that the loop
of `mg_http_parse_headers` stores, in order: the table of the parsed message is this list
(`parseHeadersFrom_slots`), and the lengths of the message come from the last
`Content-Length` in it (`parseHeadersFrom_spans`), whatever number that header holds. The fuel of
the loop is enough because every round but the last moves past the name that it read. The length
of a block does not change when more bytes follow it.
-/

namespace CppCode.Mongoose

open Library

/-! ## Length of the block -/

/-- A block ends inside of the bytes that it was found in. -/
theorem requestLenFrom_le {bytes : Bytes} {i : Nat} (positive : 0 < requestLenFrom bytes i) :
    requestLenFrom bytes i ≤ i + bytes.length := by
  induction bytes generalizing i with
  | nil => simp [requestLenFrom] at positive
  | cons byte rest ih =>
    rw [requestLenFrom] at positive ⊢
    split_ifs at positive ⊢ with bad short long
    · simp at positive
    · obtain ⟨-, next⟩ := short
      obtain ⟨tail, rfl⟩ := List.head?_eq_some_iff.mp next
      simp only [List.length_cons]
      omega
    · obtain ⟨-, next⟩ := long
      have two := congrArg List.length next
      simp only [List.length_take, List.length_cons, List.length_nil] at two
      simp only [List.length_cons]
      omega
    · have later := ih positive
      simp only [List.length_cons]
      omega

/-- Once the block is complete or malformed, later bytes do not change what was found. -/
theorem requestLenFrom_append {bytes : Bytes} {i : Nat} (found : requestLenFrom bytes i ≠ 0)
    (more : Bytes) : requestLenFrom (bytes ++ more) i = requestLenFrom bytes i := by
  induction bytes generalizing i with
  | nil => simp [requestLenFrom] at found
  | cons byte rest ih =>
    rw [requestLenFrom] at found
    rw [List.cons_append, requestLenFrom, requestLenFrom]
    split_ifs at found with bad short long
    · rw [if_pos bad, if_pos bad]
    · obtain ⟨newline, next⟩ := short
      have still : (rest ++ more).head? = some lf := by
        rw [List.head?_append, next]
        rfl
      rw [if_neg bad, if_neg bad, if_pos ⟨newline, still⟩, if_pos ⟨newline, next⟩]
    · obtain ⟨newline, next⟩ := long
      have length := congrArg List.length next
      simp only [List.length_take, List.length_cons, List.length_nil] at length
      have still : (rest ++ more).take 2 = [cr, lf] := by
        rw [List.take_append_of_le_length (by omega), next]
      have other : ¬(byte = lf ∧ (rest ++ more).head? = some lf) := by
        rintro ⟨-, again⟩
        cases rest with
        | nil => simp at length
        | cons head tail =>
          simp only [List.take_succ_cons, List.cons.injEq] at next
          rw [List.cons_append, List.head?_cons, next.1] at again
          exact absurd again (by decide)
      rw [if_neg bad, if_neg bad, if_neg other, if_neg short, if_pos ⟨newline, still⟩,
        if_pos ⟨newline, next⟩]
    · -- the bytes that follow cannot complete a block whose last byte is this newline
      cases rest with
      | nil => simp [requestLenFrom] at found
      | cons head tail =>
        have other : ¬(byte = lf ∧ (head :: tail ++ more).take 2 = [cr, lf]) := by
          rintro ⟨newline, next⟩
          cases tail with
          | nil =>
            simp only [List.cons_append, List.nil_append, List.take_succ_cons,
              List.cons.injEq] at next
            obtain ⟨rfl, -⟩ := next
            exact found rfl
          | cons second tail => exact long ⟨newline, next⟩
        rw [if_neg bad, if_neg bad, if_neg short, if_neg long, if_neg other,
          if_neg (by exact short), ih found]

/-- A positive block length is within the bytes that were looked at. -/
theorem mgHttpGetRequestLen_le {buf : Bytes} {n : Int}
    (positive : 0 < mgHttpGetRequestLen buf n) :
    (mgHttpGetRequestLen buf n).toNat ≤ buf.length := by
  have bound := requestLenFrom_le positive
  rw [List.length_take] at bound
  unfold mgHttpGetRequestLen
  omega

/-! ## One header -/

/-- Scanning does not go back. -/
theorem le_scanTo (buf : Bytes) (stop : UInt8 → Bool) (s limit : Nat) :
    s ≤ scanTo buf stop s limit := Nat.le_add_right _ _

/-- A string that `mg_skip` returns is followed by the offset that it returns. -/
theorem mgSkip_next (buf delims : Bytes) (s limit : Nat) :
    s + (mgSkip buf s limit delims).1.len ≤ (mgSkip buf s limit delims).2 := by
  have forward := le_scanTo buf (isDelim delims) s limit
  have past := le_scanTo buf (fun byte => !isDelim delims byte)
    (scanTo buf (isDelim delims) s limit) limit
  simp only [mgSkip]
  omega

/-- A round of the header loop moves past the name that it reads. -/
theorem readHeader_next (buf : Bytes) (s limit : Nat) :
    s + (readHeader buf s limit).1.len ≤ (readHeader buf s limit).2.2 := by
  have name := mgSkip_next buf [colon, space] s limit
  have value := mgSkip_next buf crlf (mgSkip buf s limit [colon, space]).2 limit
  simp only [readHeader]
  omega

/-- A name is read from inside of the block. -/
theorem readHeader_inside {buf : Bytes} {s limit : Nat}
    (named : (readHeader buf s limit).1.len ≠ 0) : s < limit := by
  by_contra outside
  apply named
  have none : (buf.take limit).drop s = [] := by
    apply List.drop_eq_nil_of_le
    rw [List.length_take]
    omega
  simp [readHeader, mgSkip, scanTo, none]

/-! ## The loop -/

/-- The headers that the loop stores from offset `s` on, when `room` slots are left. -/
def readHeaders (buf : Bytes) (limit : Nat) : Nat → Nat → Nat → List (MgStr × MgStr)
  | 0, _, _ => []
  | _ + 1, 0, _ => []
  | fuel + 1, room + 1, s =>
    let (name, value, next) := readHeader buf s limit
    if name.len ≠ 0 ∧ value.len = 0 then readHeaders buf limit fuel (room + 1) next
    else if name.len = 0 ∨ value.len = 0 then []
    else (name, value) :: readHeaders buf limit fuel room next

/-- The number of the last `Content-Length` among headers. -/
def declaredLength (buf : Bytes) (headers : List (MgStr × MgStr)) : Option Int :=
  ((headers.filter fun header => isContentLength buf header.1).getLast?).map fun header =>
    headerNumber buf header.2

/-- More fuel than there are bytes left does not change what the loop does. -/
theorem parseHeadersFrom_fuel (platform : Platform) (buf : Bytes) (limit len : Nat)
    {fuel s : Nat} (enough : limit - s < fuel) (i : Nat) (req : HttpMessage) :
    parseHeadersFrom platform buf limit len (fuel + 1) i s req =
      parseHeadersFrom platform buf limit len fuel i s req := by
  induction fuel generalizing s i req with
  | zero => omega
  | succ fuel ih =>
    have past := readHeader_next buf s limit
    have inside := @readHeader_inside buf s limit
    rw [parseHeadersFrom, parseHeadersFrom]
    generalize readHeader buf s limit = header at past inside ⊢
    obtain ⟨name, value, next⟩ := header
    simp only at past inside ⊢
    split_ifs with room empty blank
    · exact ih (by omega) i _
    · rfl
    · exact ih (by omega) (i + 1) _
    · exact ih (by omega) (i + 1) _
    · rfl

/-- The slots of the header table. -/
def HttpMessage.slots (hm : HttpMessage) : List (MgStr × MgStr) :=
  hm.headerNames.toList.zip hm.headerValues.toList

/-- The table of a message that was just cleared. -/
theorem slots_cleared {hm : HttpMessage} (names : hm.headerNames = Vector.replicate _ {})
    (values : hm.headerValues = Vector.replicate _ {}) :
    hm.slots = List.replicate mgMaxHttpHeaders ({}, {}) := by
  simp [HttpMessage.slots, names, values, Vector.toList_replicate]

/-- Writing a slot of the table. -/
theorem slots_setHeader (req : HttpMessage) (i : Nat) (name value : MgStr) :
    (req.setHeader i name value).slots = req.slots.set i (name, value) := by
  apply List.ext_getElem
  · simp [HttpMessage.slots, HttpMessage.setHeader]
  · intro k left right
    simp [HttpMessage.slots, HttpMessage.setHeader, List.getElem_set]
    split <;> rfl

/-- The table holds the stored headers, then the slot that is written next, then empty slots. -/
structure HttpMessage.Stores (hm : HttpMessage) (stored : List (MgStr × MgStr))
    (half : MgStr × MgStr) (room : Nat) : Prop where
  /-- The contents of the table. -/
  slots : hm.slots = stored ++ half :: List.replicate room ({}, {})
  /-- The last slot of the table is never written. -/
  last : room = 0 → half = ({}, {})

/-- Writing the next slot. -/
theorem HttpMessage.Stores.setHeader {hm : HttpMessage} {stored : List (MgStr × MgStr)}
    {half : MgStr × MgStr} {room : Nat} (stores : hm.Stores stored half (room + 1))
    (name value : MgStr) :
    (hm.setHeader stored.length name value).Stores stored (name, value) (room + 1) where
  slots := by
    rw [slots_setHeader, stores.slots, List.set_append_right _ _ (le_refl _), Nat.sub_self,
      List.set_cons_zero]
  last := fun none => absurd none (Nat.succ_ne_zero room)

/-- A written slot becomes stored. -/
theorem HttpMessage.Stores.push {hm : HttpMessage} {stored : List (MgStr × MgStr)}
    {half : MgStr × MgStr} {room : Nat} (stores : hm.Stores stored half (room + 1)) :
    hm.Stores (stored ++ [half]) ({}, {}) room where
  slots := by
    rw [stores.slots, List.replicate_succ, List.append_assoc]
    rfl
  last := fun _ => rfl

/-- The headers that are stored have a name and a value. -/
theorem readHeaders_ne_zero {buf : Bytes} {limit fuel room s : Nat} {header : MgStr × MgStr}
    (stored : header ∈ readHeaders buf limit fuel room s) :
    header.1.len ≠ 0 ∧ header.2.len ≠ 0 := by
  induction fuel generalizing room s with
  | zero => cases stored
  | succ fuel ih =>
    cases room with
    | zero => cases stored
    | succ room =>
      rw [readHeaders] at stored
      generalize readHeader buf s limit = read at stored
      obtain ⟨name, value, next⟩ := read
      simp only at stored
      split_ifs at stored with empty blank
      · exact ih stored
      · cases stored
      · rcases List.mem_cons.mp stored with rfl | later
        · exact ⟨fun none => blank (.inl none), fun none => blank (.inr none)⟩
        · exact ih later

/-- The loop leaves the stored headers in the table, then those that it reads, and the other slots
as they were cleared: a slot that is half-written is written again or cleared. -/
theorem parseHeadersFrom_slots (platform : Platform) (buf : Bytes) (limit len : Nat)
    {fuel s room : Nat} {req : HttpMessage} {stored : List (MgStr × MgStr)}
    {half : MgStr × MgStr} (enough : limit - s < fuel)
    (full : stored.length + room = mgMaxHttpHeaders - 1) (stores : req.Stores stored half room) :
    (parseHeadersFrom platform buf limit len fuel stored.length s req).1.slots =
      stored ++ readHeaders buf limit fuel room s ++ List.replicate (mgMaxHttpHeaders -
        (stored ++ readHeaders buf limit fuel room s).length) (({}, {}) : MgStr × MgStr) := by
  induction fuel generalizing s room req stored half with
  | zero => omega
  | succ fuel ih =>
    have past := readHeader_next buf s limit
    have inside := @readHeader_inside buf s limit
    have total : mgMaxHttpHeaders - stored.length = room + 1 := by
      unfold mgMaxHttpHeaders at *
      omega
    cases room with
    | zero =>
      obtain rfl := stores.last rfl
      rw [parseHeadersFrom, if_neg (by omega), readHeaders, List.append_nil, stores.slots, total]
      rfl
    | succ room =>
      rw [parseHeadersFrom, if_pos (by omega), readHeaders]
      generalize readHeader buf s limit = header at past inside ⊢
      obtain ⟨name, value, next⟩ := header
      simp only at past inside ⊢
      have written := stores.setHeader name value
      -- setting the lengths does not touch the table
      have pushed (req' : HttpMessage) (named : name.len ≠ 0)
          (same : req'.slots = (req.setHeader stored.length name value).slots) :
          (parseHeadersFrom platform buf limit len fuel (stored.length + 1) next req').1.slots =
            stored ++ (name, value) :: readHeaders buf limit fuel room next ++ List.replicate
              (mgMaxHttpHeaders -
                (stored ++ (name, value) :: readHeaders buf limit fuel room next).length)
              (({}, {}) : MgStr × MgStr) := by
        have kept := written.push
        have stores' : req'.Stores (stored ++ [(name, value)]) ({}, {}) room :=
          ⟨same.trans kept.slots, kept.last⟩
        have count : (stored ++ [(name, value)]).length = stored.length + 1 := by simp
        have advanced : limit - next < fuel := by omega
        have rest := ih advanced (by omega) stores'
        rwa [count, List.append_assoc stored, List.singleton_append] at rest
      split_ifs with empty blank number
      · exact ih (by omega) full written
      · rw [List.append_nil, (stores.setHeader {} {}).slots, total]
        rfl
      · exact pushed _ (fun none => blank (.inl none)) rfl
      · exact pushed _ (fun none => blank (.inl none)) rfl

/-- The headers of a table that holds them at its front, and nothing behind them. -/
theorem headers_of_slots {hm : HttpMessage} {stored : List (MgStr × MgStr)} {count : Nat}
    (slots : hm.slots = stored ++ List.replicate count (({}, {}) : MgStr × MgStr))
    (named : ∀ header ∈ stored, header.1.len ≠ 0) : hm.headers = stored := by
  change hm.slots.takeWhile _ = stored
  rw [slots, List.takeWhile_append_of_pos fun header member =>
    decide_eq_true (Nat.pos_of_ne_zero (named header member)), List.takeWhile_replicate]
  simp

/-- The lengths that a header block of a given length declares. -/
structure Lengths where
  /-- Length of the body. -/
  body : Nat
  /-- Length of the message. -/
  message : Nat
  deriving DecidableEq

/-- The lengths for the number of the last `Content-Length` header: everything up to the end of
the connection when there is none. -/
def declaredLengths (platform : Platform) (len : Nat) : Option Int → Lengths
  | none => ⟨platform.maxSize, platform.maxSize⟩
  | some declared => ⟨platform.toSize declared, platform.add len (platform.toSize declared)⟩

/-- The message starts with the buffer, its body follows the block, and these are its lengths. -/
structure HttpMessage.Spans (hm : HttpMessage) (len : Nat) (lengths : Lengths) : Prop where
  /-- The message. -/
  message : hm.message = ⟨some 0, lengths.message⟩
  /-- The body. -/
  body : hm.body = ⟨some len, lengths.body⟩

/-- Of two groups of headers, the later one that has a length declares it. -/
theorem declaredLength_cons (buf : Bytes) (header : MgStr × MgStr)
    (headers : List (MgStr × MgStr)) :
    declaredLength buf (header :: headers) = (declaredLength buf headers).or
      (if isContentLength buf header.1 then some (headerNumber buf header.2) else none) := by
  simp only [declaredLength, List.filter_cons]
  split
  · rw [List.getLast?_cons]
    cases (headers.filter fun header => isContentLength buf header.1).getLast? <;> rfl
  · simp

/-- The loop sets the lengths to those of the last `Content-Length` that it reads. -/
theorem parseHeadersFrom_spans (platform : Platform) (buf : Bytes) (limit len : Nat)
    {fuel s i room : Nat} {req : HttpMessage} {declared : Option Int}
    (full : i + room = mgMaxHttpHeaders - 1)
    (spans : req.Spans len (declaredLengths platform len declared)) :
    (parseHeadersFrom platform buf limit len fuel i s req).1.Spans len (declaredLengths platform
      len ((declaredLength buf (readHeaders buf limit fuel room s)).or declared)) := by
  induction fuel generalizing s i room req declared with
  | zero => exact spans
  | succ fuel ih =>
    cases room with
    | zero =>
      rw [parseHeadersFrom, if_neg (by omega), readHeaders]
      exact spans
    | succ room =>
      rw [parseHeadersFrom, if_pos (by omega), readHeaders]
      generalize readHeader buf s limit = header
      obtain ⟨name, value, next⟩ := header
      simp only
      split_ifs with empty blank number
      · exact ih full ⟨spans.message, spans.body⟩
      · exact ⟨spans.message, spans.body⟩
      · rw [declaredLength_cons, if_pos number, Option.or_assoc, Option.some_or]
        refine ih (by omega) ⟨?_, ?_⟩
        · simp only [HttpMessage.setLengths, HttpMessage.setHeader, spans.message,
            declaredLengths]
        · simp only [HttpMessage.setLengths, HttpMessage.setHeader, spans.body,
            declaredLengths]
      · rw [declaredLength_cons, if_neg number, Option.or_assoc, Option.none_or]
        exact ih (by omega) ⟨spans.message, spans.body⟩

/-! ## The whole block -/

/-- What parsing the start line leaves as it was. -/
structure Untouched (before after : HttpMessage) : Prop where
  /-- The message. -/
  message : after.message = before.message
  /-- The body. -/
  body : after.body = before.body
  /-- The header table. -/
  slots : after.slots = before.slots

/-- The request line sets the method and touches neither lengths nor headers. -/
theorem parseRequestLine_untouched {buf : Bytes} {s limit next : Nat} {hm after : HttpMessage}
    (parsed : parseRequestLine buf s limit hm = some (after, next)) :
    Untouched hm after ∧ after.method = (mgSkip buf s limit [space]).1 := by
  simp only [parseRequestLine] at parsed
  split_ifs at parsed
  all_goals
    obtain ⟨rfl, -⟩ := Prod.mk.inj (Option.some.inj parsed)
    exact ⟨⟨rfl, rfl, rfl⟩, rfl⟩

/-- The status line touches neither lengths nor headers. -/
theorem parseStatusLine_untouched {buf : Bytes} {s limit next : Nat} {hm after : HttpMessage}
    (parsed : parseStatusLine buf s limit hm = some (after, next)) : Untouched hm after := by
  simp only [parseStatusLine] at parsed
  split_ifs at parsed
  obtain ⟨rfl, -⟩ := Prod.mk.inj (Option.some.inj parsed)
  exact ⟨rfl, rfl, rfl⟩

/-- The offset after the request line does not depend on the message that it is stored in. -/
theorem parseRequestLine_next (buf : Bytes) (s limit : Nat) (hm : HttpMessage) :
    (parseRequestLine buf s limit hm).map Prod.snd =
      (parseRequestLine buf s limit {}).map Prod.snd := by
  simp only [parseRequestLine]
  split_ifs <;> rfl

/-- The offset after the status line does not depend on the message that it is stored in. -/
theorem parseStatusLine_next (buf : Bytes) (s limit : Nat) (hm : HttpMessage) :
    (parseStatusLine buf s limit hm).map Prod.snd =
      (parseStatusLine buf s limit {}).map Prod.snd := by
  simp only [parseStatusLine]
  split_ifs <;> rfl

/-- Where the start line begins: white space before it is skipped. -/
def startLine (buf : Bytes) (limit : Nat) : Nat := scanTo buf (fun byte => !isspace byte) 0 limit

/-- Where the headers of a block begin, if its start line is well formed. -/
def headersStart (buf : Bytes) (limit : Nat) (isReq : Bool) : Option Nat :=
  if isReq then (parseRequestLine buf (startLine buf limit) limit {}).map Prod.snd
  else (parseStatusLine buf (startLine buf limit) limit {}).map Prod.snd

/-- The headers of a block. -/
def headersOf (buf : Bytes) (limit : Nat) (isReq : Bool) : List (MgStr × MgStr) :=
  match headersStart buf limit isReq with
  | none => []
  | some s => readHeaders buf limit (limit + mgMaxHttpHeaders) (mgMaxHttpHeaders - 1) s

/-- A request other than PUT and POST. -/
def IsBodiless (buf : Bytes) (limit : Nat) (isReq : Bool) : Prop :=
  isReq = true ∧
    mgVcasecmp buf (mgSkip buf (startLine buf limit) limit [space]).1 (ascii "PUT") ≠ 0 ∧
    mgVcasecmp buf (mgSkip buf (startLine buf limit) limit [space]).1 (ascii "POST") ≠ 0

instance (buf : Bytes) (limit : Nat) (isReq : Bool) : Decidable (IsBodiless buf limit isReq) := by
  unfold IsBodiless
  infer_instance

/-- The lengths of a message, from its block: those of the last `Content-Length`, and no body for
a request other than PUT and POST when that leaves the length of the body unknown. -/
def framing (platform : Platform) (buf : Bytes) (limit : Nat) (isReq : Bool) : Lengths :=
  let declared := declaredLengths platform limit (declaredLength buf (headersOf buf limit isReq))
  if declared.body = platform.maxSize ∧ IsBodiless buf limit isReq then ⟨0, limit⟩ else declared

/-- A well-formed message, as its block describes it. -/
structure HttpMessage.Describes (hm : HttpMessage) (platform : Platform) (buf : Bytes)
    (limit : Nat) (isReq : Bool) : Prop where
  /-- The table holds the headers of the block. -/
  headers : hm.headers = headersOf buf limit isReq
  /-- The lengths are those of the block. -/
  spans : hm.Spans limit (framing platform buf limit isReq)

/-- The start line of a block as `mg_parse_http` reads it. -/
theorem startLine_parsed {buf : Bytes} {limit s : Nat} {isReq : Bool} (hm : HttpMessage)
    (start : headersStart buf limit isReq = some s) :
    ∃ after, (if isReq then parseRequestLine buf (startLine buf limit) limit hm
        else parseStatusLine buf (startLine buf limit) limit hm) = some (after, s) ∧
      Untouched hm after ∧ (isReq = true →
        after.method = (mgSkip buf (startLine buf limit) limit [space]).1) := by
  unfold headersStart at start
  cases isReq with
  | true =>
    simp only [if_true] at start ⊢
    rw [← parseRequestLine_next _ _ _ hm] at start
    obtain ⟨⟨after, next⟩, parsed, rfl⟩ := Option.map_eq_some_iff.mp start
    obtain ⟨kept, method⟩ := parseRequestLine_untouched parsed
    exact ⟨after, parsed, kept, fun _ => method⟩
  | false =>
    simp only [Bool.false_eq_true, if_false] at start ⊢
    rw [← parseStatusLine_next _ _ _ hm] at start
    obtain ⟨⟨after, next⟩, parsed, rfl⟩ := Option.map_eq_some_iff.mp start
    exact ⟨after, parsed, parseStatusLine_untouched parsed, fun false => absurd false (by simp)⟩

/-- The request line survives the header loop. -/
theorem parseHeadersFrom_line (platform : Platform) (buf : Bytes) (limit len fuel i s : Nat)
    (req : HttpMessage) :
    (parseHeadersFrom platform buf limit len fuel i s req).1.method = req.method ∧
      (parseHeadersFrom platform buf limit len fuel i s req).1.uri = req.uri := by
  induction fuel generalizing i s req with
  | zero => exact ⟨rfl, rfl⟩
  | succ fuel ih =>
    rw [parseHeadersFrom]
    split_ifs
    · simp only
      split_ifs <;> first | exact ⟨rfl, rfl⟩ | exact ih _ _ _
    · exact ⟨rfl, rfl⟩

/-- A request without a known length loses its body, and keeps its headers. -/
theorem resetBody_describes {platform : Platform} {buf : Bytes} {limit : Nat} {isReq : Bool}
    {hm : HttpMessage} (headers : hm.headers = headersOf buf limit isReq)
    (spans : hm.Spans limit
      (declaredLengths platform limit (declaredLength buf (headersOf buf limit isReq))))
    (method : isReq = true → hm.method = (mgSkip buf (startLine buf limit) limit [space]).1) :
    (resetBody platform buf limit isReq hm).Describes platform buf limit isReq := by
  have same : (hm.body.len = platform.maxSize ∧ isReq = true ∧
      mgVcasecmp buf hm.method (ascii "PUT") ≠ 0 ∧
      mgVcasecmp buf hm.method (ascii "POST") ≠ 0) ↔
      (declaredLengths platform limit
        (declaredLength buf (headersOf buf limit isReq))).body = platform.maxSize ∧
      IsBodiless buf limit isReq := by
    rw [spans.body]
    constructor
    · rintro ⟨unknown, request, put, post⟩
      rw [method request] at put post
      exact ⟨unknown, request, put, post⟩
    · rintro ⟨unknown, request, put, post⟩
      rw [method request]
      exact ⟨unknown, request, put, post⟩
  unfold resetBody
  split
  · rename_i reset
    refine ⟨headers, ?_, ?_⟩
    · simp only [framing, if_pos (same.mp reset), spans.message]
    · simp only [framing, if_pos (same.mp reset), spans.body]
  · rename_i kept
    refine ⟨headers, ?_⟩
    simp only [framing, if_neg (mt same.mpr kept)]
    exact spans

/-- A block that is incomplete or malformed is reported as such. -/
theorem mgParseHttp_short {platform : Platform} {buf : Bytes} {n : Int} {isReq : Bool}
    (short : mgHttpGetRequestLen buf n ≤ 0) :
    (mgParseHttp platform buf n isReq).1 = mgHttpGetRequestLen buf n := by
  simp only [mgParseHttp, if_pos short]

/-- A complete block with a malformed start line is malformed. -/
theorem mgParseHttp_malformed {platform : Platform} {buf : Bytes} {n : Int} {isReq : Bool}
    (complete : 0 < mgHttpGetRequestLen buf n)
    (start : headersStart buf (mgHttpGetRequestLen buf n).toNat isReq = none) :
    (mgParseHttp platform buf n isReq).1 = -1 := by
  unfold headersStart at start
  simp only [mgParseHttp, if_neg (not_le.mpr complete)]
  split
  · rfl
  · rename_i parsed
    exfalso
    change (if isReq then parseRequestLine buf (startLine buf _) _ _
      else parseStatusLine buf (startLine buf _) _ _) = _ at parsed
    cases isReq with
    | true =>
      simp only [if_true] at start parsed
      rw [← parseRequestLine_next _ _ _ _, parsed] at start
      simp at start
    | false =>
      simp only [Bool.false_eq_true, if_false] at start parsed
      rw [← parseStatusLine_next _ _ _ _, parsed] at start
      simp at start

/-- The message that `mg_parse_http` starts from, for a block of some length. -/
def clearedMessage (platform : Platform) (limit : Nat) : HttpMessage :=
  { message := ⟨some 0, platform.maxSize⟩, body := ⟨some limit, platform.maxSize⟩ }

/-- A complete block with a well-formed start line is parsed by the start line, then by the header
loop. -/
theorem mgParseHttp_shape (platform : Platform) {buf : Bytes} {n : Int} {isReq : Bool} {s : Nat}
    (complete : 0 < mgHttpGetRequestLen buf n)
    (start : headersStart buf (mgHttpGetRequestLen buf n).toNat isReq = some s) :
    ∃ after, (if isReq then parseRequestLine buf
          (startLine buf (mgHttpGetRequestLen buf n).toNat) (mgHttpGetRequestLen buf n).toNat
          (clearedMessage platform (mgHttpGetRequestLen buf n).toNat)
        else parseStatusLine buf
          (startLine buf (mgHttpGetRequestLen buf n).toNat) (mgHttpGetRequestLen buf n).toNat
          (clearedMessage platform (mgHttpGetRequestLen buf n).toNat)) = some (after, s) ∧
      Untouched (clearedMessage platform (mgHttpGetRequestLen buf n).toNat) after ∧
      (isReq = true → after.method = (mgSkip buf
        (startLine buf (mgHttpGetRequestLen buf n).toNat) (mgHttpGetRequestLen buf n).toNat
        [space]).1) ∧
      mgParseHttp platform buf n isReq = (mgHttpGetRequestLen buf n,
        resetBody platform buf (mgHttpGetRequestLen buf n).toNat isReq
          (mgHttpParseHeaders platform buf s (mgHttpGetRequestLen buf n).toNat
            (mgHttpGetRequestLen buf n).toNat after).1) := by
  generalize limits : (mgHttpGetRequestLen buf n).toNat = limit at start ⊢
  obtain ⟨after, parsed, kept, method⟩ :=
    startLine_parsed (clearedMessage platform limit) start
  refine ⟨after, parsed, kept, method, ?_⟩
  unfold startLine clearedMessage at parsed
  simp only [mgParseHttp, if_neg (not_le.mpr complete), limits, parsed]

/-- The table of a message that was parsed: the headers of its block, and cleared slots. -/
theorem mgHttpParseHeaders_slots {platform : Platform} {buf : Bytes} {limit s : Nat}
    {after : HttpMessage} (kept : Untouched (clearedMessage platform limit) after) :
    (mgHttpParseHeaders platform buf s limit limit after).1.slots =
      readHeaders buf limit (limit + mgMaxHttpHeaders) (mgMaxHttpHeaders - 1) s ++
        List.replicate (mgMaxHttpHeaders - (readHeaders buf limit (limit + mgMaxHttpHeaders)
          (mgMaxHttpHeaders - 1) s).length) (({}, {}) : MgStr × MgStr) := by
  have stores : after.Stores [] ({}, {}) (mgMaxHttpHeaders - 1) :=
    ⟨kept.slots.trans (slots_cleared rfl rfl), fun _ => rfl⟩
  have enough : limit - s < limit + mgMaxHttpHeaders := by
    unfold mgMaxHttpHeaders
    omega
  exact parseHeadersFrom_slots platform buf limit limit enough (Nat.zero_add _) stores

/-- A complete block with a well-formed start line is parsed into the message it describes. -/
theorem mgParseHttp_complete {platform : Platform} {buf : Bytes} {n : Int} {isReq : Bool} {s : Nat}
    (complete : 0 < mgHttpGetRequestLen buf n)
    (start : headersStart buf (mgHttpGetRequestLen buf n).toNat isReq = some s) :
    (mgParseHttp platform buf n isReq).1 = mgHttpGetRequestLen buf n ∧
      (mgParseHttp platform buf n isReq).2.Describes platform buf
        (mgHttpGetRequestLen buf n).toNat isReq := by
  obtain ⟨after, -, kept, method, shape⟩ := mgParseHttp_shape platform complete start
  generalize (mgHttpGetRequestLen buf n).toNat = limit at start kept method shape ⊢
  have spans : after.Spans limit (declaredLengths platform limit none) :=
    ⟨kept.message, kept.body⟩
  have found : headersOf buf limit isReq =
      readHeaders buf limit (limit + mgMaxHttpHeaders) (mgMaxHttpHeaders - 1) s := by
    simp only [headersOf, start]
  have lengths : (mgHttpParseHeaders platform buf s limit limit after).1.Spans limit
      (declaredLengths platform limit ((declaredLength buf (readHeaders buf limit
        (limit + mgMaxHttpHeaders) (mgMaxHttpHeaders - 1) s)).or none)) :=
    parseHeadersFrom_spans platform buf limit limit (Nat.zero_add _) spans
  rw [Option.or_none] at lengths
  rw [shape]
  refine ⟨rfl, resetBody_describes ?_ ?_ ?_⟩
  · rw [found]
    exact headers_of_slots (mgHttpParseHeaders_slots kept)
      fun header member => (readHeaders_ne_zero member).1
  · rw [found]
    exact lengths
  · intro request
    exact (parseHeadersFrom_line platform buf limit limit _ 0 s after).1.trans (method request)

/-- A positive length that `mg_parse_http` returns is that of the block, and the message is the
one that the block describes. -/
theorem mgParseHttp_pos {platform : Platform} {buf : Bytes} {n : Int} {isReq : Bool}
    (positive : 0 < (mgParseHttp platform buf n isReq).1) :
    (mgParseHttp platform buf n isReq).1 = mgHttpGetRequestLen buf n ∧
      (mgParseHttp platform buf n isReq).2.Describes platform buf
        (mgHttpGetRequestLen buf n).toNat isReq := by
  have complete : 0 < mgHttpGetRequestLen buf n := by
    by_contra short
    rw [mgParseHttp_short (not_lt.mp short)] at positive
    exact short positive
  cases start : headersStart buf (mgHttpGetRequestLen buf n).toNat isReq with
  | none =>
    rw [mgParseHttp_malformed complete start] at positive
    omega
  | some s => exact mgParseHttp_complete complete start

/-- A message is parsed when its block is complete and its start line is well formed. -/
theorem mgParseHttp_pos_iff {platform : Platform} {buf : Bytes} {n : Int} {isReq : Bool} :
    0 < (mgParseHttp platform buf n isReq).1 ↔ 0 < (mgHttpGetRequestLen buf n).toNat ∧
      headersStart buf (mgHttpGetRequestLen buf n).toNat isReq ≠ none := by
  constructor
  · intro positive
    have complete := (mgParseHttp_pos positive).1 ▸ positive
    refine ⟨by omega, fun malformed => ?_⟩
    rw [mgParseHttp_malformed complete malformed] at positive
    omega
  · rintro ⟨complete, wellFormed⟩
    obtain ⟨s, start⟩ := Option.ne_none_iff_exists'.mp wellFormed
    rw [(mgParseHttp_complete (by omega) start).1]
    omega

/-- The value of the first header with a name. -/
def findHeader (buf : Bytes) (headers : List (MgStr × MgStr)) (name : Bytes) : Option MgStr :=
  (headers.find? fun slot => slot.1.p.isSome && slot.1.len == name.length &&
    mgNcasecmp (buf.drop (slot.1.p.getD 0)) name name.length == 0).map Prod.snd

/-- A message that a block describes has the headers of the block. -/
theorem HttpMessage.Describes.getHeader {hm : HttpMessage} {platform : Platform} {buf : Bytes}
    {limit : Nat} {isReq : Bool} (describes : hm.Describes platform buf limit isReq)
    (name : Bytes) :
    mgGetHttpHeader buf hm name = findHeader buf (headersOf buf limit isReq) name := by
  simp only [mgGetHttpHeader, findHeader, describes.headers]

end CppCode.Mongoose
