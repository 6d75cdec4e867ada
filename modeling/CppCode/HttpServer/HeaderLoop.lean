import CppCode.Mongoose.Slices

/-!
# The header loop of the request handler

`HttpServer::ev_handler` goes through the header table of a request until it meets a slot whose
name or value is `NULL`, and has no bound of its own. Such a slot is always there: the parser
never writes the last slot, and a slot that it has half-written for a header without a value is
written again or cleared before it returns. So the loop visits the headers that were stored, and
no other slot (`headerLoop_parsed`).
-/

namespace CppCode.HttpServer

open Library Mongoose

/-- The `while` loop of `ev_handler` from slot `i` on: the slots that it visits, `none` when it
indexes past the end of the table. -/
def headerLoop (hm : HttpMessage) (i : Nat) : Option (List (MgStr × MgStr)) :=
  if inside : i < mgMaxHttpHeaders then
    let name := hm.headerNames[i]
    let value := hm.headerValues[i]
    if name.p.isSome ∧ value.p.isSome then (headerLoop hm (i + 1)).map ((name, value) :: ·)
    else some []
  else none
termination_by mgMaxHttpHeaders - i

/-- The slots that the parser fills for good: the headers of the block that have a value, up to
the last slot but one. -/
def filledSlots (buf : Bytes) (limit : Nat) : List (MgStr × MgStr) :=
  match headersStart buf limit true with
  | none => []
  | some s =>
    ((rounds buf limit (limit + mgMaxHttpHeaders) s).filter fun header => header.2.len ≠ 0).take
      (mgMaxHttpHeaders - 1)

/-- The slots that the loop visits for a request that was parsed from the first `n` bytes of a
buffer. -/
structure Visits (buf : Bytes) (n : Int) (visited : List (MgStr × MgStr)) : Prop where
  /-- The loop ends at the last slot or before. -/
  few : visited.length ≤ mgMaxHttpHeaders - 1
  /-- They are those that the parser has filled for good. -/
  filled : visited = filledSlots buf (mgHttpGetRequestLen buf n).toNat
  /-- Names and values are not empty. -/
  nonempty : ∀ header ∈ visited, header.1.len ≠ 0 ∧ header.2.len ≠ 0
  /-- They follow each other in the buffer without overlap, inside of its first `n` bytes. -/
  ascends : Ascends 0 (strings visited) (min n.toNat buf.length)

/-! ## The loop on a table -/

/-- A slot of the table. -/
theorem slots_getElem? (hm : HttpMessage) {i : Nat} (inside : i < mgMaxHttpHeaders) :
    hm.slots[i]? = some (hm.headerNames[i], hm.headerValues[i]) := by
  have bound : i < hm.slots.length := by simpa [HttpMessage.slots] using inside
  rw [List.getElem?_eq_getElem bound]
  simp [HttpMessage.slots]

/-- The loop visits the slots up to the first one that is cleared. -/
theorem headerLoop_slots {hm : HttpMessage} {stored : List (MgStr × MgStr)} {count : Nat}
    (slots : hm.slots = stored ++ List.replicate (count + 1) (({}, {}) : MgStr × MgStr))
    (present : ∀ header ∈ stored, header.1.p.isSome = true ∧ header.2.p.isSome = true)
    {i : Nat} (below : i ≤ stored.length) : headerLoop hm i = some (stored.drop i) := by
  have size : mgMaxHttpHeaders = stored.length + (count + 1) := by
    have lengths := congrArg List.length slots
    simpa [HttpMessage.slots] using lengths
  have inside : i < mgMaxHttpHeaders := by omega
  have slot := slots_getElem? hm inside
  rw [slots] at slot
  rw [headerLoop, dif_pos inside]
  simp only
  rcases Nat.lt_or_ge i stored.length with more | done
  · rw [List.getElem?_append_left more, List.getElem?_eq_getElem more, Option.some.injEq] at slot
    have kept := present _ (List.getElem_mem more)
    rw [slot] at kept
    rw [if_pos kept, headerLoop_slots slots present more, Option.map_some, ← slot,
      List.getElem_cons_drop]
  · obtain rfl : i = stored.length := by omega
    rw [List.getElem?_append_right (le_refl _), Nat.sub_self, List.replicate_succ,
      List.getElem?_cons_zero, Option.some.injEq] at slot
    obtain ⟨unnamed, -⟩ := Prod.mk.inj slot
    rw [if_neg (by simp [← unnamed]), List.drop_length]
termination_by stored.length - i

/-! ## The table of a parsed request -/

/-- The headers of a block are the slots that the parser fills for good. -/
theorem headersOf_eq_filledSlots (buf : Bytes) (limit : Nat) :
    headersOf buf limit true = filledSlots buf limit := by
  unfold headersOf filledSlots
  cases headersStart buf limit true with
  | none => rfl
  | some s => exact readHeaders_eq buf limit _ _ s

/-- At most as many headers are stored as there are slots before the last one. -/
theorem filledSlots_length_le (buf : Bytes) (limit : Nat) :
    (filledSlots buf limit).length ≤ mgMaxHttpHeaders - 1 := by
  unfold filledSlots
  cases headersStart buf limit true with
  | none => exact Nat.zero_le _
  | some s => exact List.length_take_le _ _

/-- Names and values of headers are among their strings. -/
theorem mem_strings {headers : List (MgStr × MgStr)} {header : MgStr × MgStr}
    (member : header ∈ headers) : header.1 ∈ strings headers ∧ header.2 ∈ strings headers := by
  constructor <;> exact List.mem_flatMap.mpr ⟨header, member, by simp⟩

/-- Headers whose strings follow each other have both pointers set. -/
theorem present_of_ascends {headers : List (MgStr × MgStr)} {first last : Nat}
    (ascends : Ascends first (strings headers) last) :
    ∀ header ∈ headers, header.1.p.isSome = true ∧ header.2.p.isSome = true := by
  intro header member
  obtain ⟨name, value⟩ := mem_strings member
  exact ⟨(ascends.within name).isSome, (ascends.within value).isSome⟩

/-- For a request that was parsed, the loop ends, inside of the table, and the slots that it visits
are those that the parser filled for good: non-empty slices of the first `n` bytes, in order. -/
theorem headerLoop_parsed {platform : Platform} {buf : Bytes} {n : Int}
    (positive : 0 < (mgParseHttp platform buf n true).1) :
    ∃ visited, headerLoop (mgParseHttp platform buf n true).2 0 = some visited ∧
      Visits buf n visited := by
  have complete := (headersStart_of_pos positive).1
  have inLength := mgHttpGetRequestLen_le_length complete
  have inBuffer := mgHttpGetRequestLen_le complete
  have slots := mgParseHttp_slots positive
  rw [headersOf_eq_filledSlots] at slots
  have few := filledSlots_length_le buf (mgHttpGetRequestLen buf n).toNat
  have nonempty := headersOf_ne_zero buf (mgHttpGetRequestLen buf n).toNat
  have ascends := headersOf_ascends buf (mgHttpGetRequestLen buf n).toNat
  rw [headersOf_eq_filledSlots] at ascends nonempty
  have present := present_of_ascends ascends
  -- the sentinel: behind the headers there is at least the last slot
  have sentinel : mgMaxHttpHeaders -
      (filledSlots buf (mgHttpGetRequestLen buf n).toNat).length =
      mgMaxHttpHeaders - 1 - (filledSlots buf (mgHttpGetRequestLen buf n).toNat).length + 1 := by
    have room : 0 < mgMaxHttpHeaders := by decide
    omega
  rw [sentinel] at slots
  have loop := headerLoop_slots slots present (Nat.zero_le _)
  rw [List.drop_zero] at loop
  exact ⟨_, loop, few, rfl, nonempty, ascends.mono (le_refl 0) (le_min (by omega) inBuffer)⟩

/-- A request with a header that has no value between two that have one. -/
def threeHeaders : Bytes := ascii "GET / HTTP/1.1\r\nHost: a\r\nEmpty:\r\nAge:  7 \r\n\r\n"

/-- The loop visits the two headers that have a value. -/
theorem headerLoop_threeHeaders : 0 < (mgParseHttp amd64 threeHeaders 45 true).1 ∧
    ∃ visited, headerLoop (mgParseHttp amd64 threeHeaders 45 true).2 0 = some visited ∧
      Visits threeHeaders 45 visited :=
  have positive : 0 < (mgParseHttp amd64 threeHeaders 45 true).1 := by decide +kernel
  ⟨positive, headerLoop_parsed positive⟩

end CppCode.HttpServer
