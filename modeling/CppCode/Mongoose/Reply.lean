import CppCode.Mongoose.WellFormed

/-!
# Parsing a part of a reply

What `mg_parse_http` makes of the first bytes of a successful reply: nothing before its block is
whole (`parse_unfinished`), and the fields of the block as they were written from then on
(`parse_reply`), whatever follows. A buffer longer than `INT_MAX` is passed with a negative length
and never has a block.
-/

namespace CppCode.Mongoose

open Library

/-- The block of a successful reply. -/
def replyBlock (fields : List Field) : Bytes := blockOf (okLine :: fields.map Field.line)

/-- A buffer longer than `INT_MAX` has no block. -/
theorem parse_overlong {platform : Platform} {buf : Bytes} (large : intMax < buf.length)
    (below : buf.length < 2 ^ 32) :
    (mgParseHttp platform buf (toInt buf.length) false).1 = 0 := by
  have negative := toInt_neg large below
  have none : mgHttpGetRequestLen buf (toInt buf.length) = 0 := by
    rw [mgHttpGetRequestLen, Int.toNat_of_nonpos (le_of_lt negative)]
    rfl
  rw [mgParseHttp_short (le_of_eq none), none]

section
variable {platform : Platform} {field : Field} {fields : List Field} {body buf rest : Bytes}

/-- A block is not empty. -/
theorem replyBlock_pos (fields : List Field) : 0 < (replyBlock fields).length := by
  simp [replyBlock, blockOf]

/-- The lines of a reply are printable when its fields are. -/
theorem replyLines_plain (plain : ∀ member ∈ fields, member.IsPlain) :
    ∀ line ∈ okLine :: fields.map Field.line, IsPlain line := by
  intro line member
  rcases List.mem_cons.mp member with rfl | written
  · decide
  · obtain ⟨field, inside, rfl⟩ := List.mem_map.mp written
    exact (plain field inside).line

/-- The block of a reply is found as soon as its bytes are there. -/
theorem requestLen_reply (plain : ∀ member ∈ fields, member.IsPlain)
    (split : buf ++ rest = replyBlock fields ++ body) (small : buf.length ≤ intMax) :
    mgHttpGetRequestLen buf (toInt buf.length) =
      if buf.length < (replyBlock fields).length then 0 else (replyBlock fields).length := by
  rw [toInt_of_le small]
  exact mgHttpGetRequestLen_prefix (replyLines_plain plain) split

/-- The bytes of a reply before the end of its block are incomplete. -/
theorem parse_unfinished (plain : ∀ member ∈ fields, member.IsPlain)
    (split : buf ++ rest = replyBlock fields ++ body) (small : buf.length ≤ intMax)
    (short : buf.length < (replyBlock fields).length) :
    (mgParseHttp platform buf (toInt buf.length) false).1 = 0 := by
  have incomplete := requestLen_reply plain split small
  rw [if_pos short] at incomplete
  rw [mgParseHttp_short (le_of_eq incomplete)]
  exact incomplete

/-- The block of a reply in a buffer that holds it. -/
theorem take_reply (split : buf ++ rest = replyBlock fields ++ body)
    (long : (replyBlock fields).length ≤ buf.length) :
    buf.take (replyBlock fields).length = replyBlock fields := by
  have front := congrArg (List.take (replyBlock fields).length) split
  rwa [List.take_append_of_le_length long, List.take_left] at front

/-- The bytes of a reply from the end of its block on describe the reply. -/
theorem parse_reply (plain : ∀ member ∈ field :: fields, member.IsPlain)
    (split : buf ++ rest = replyBlock (field :: fields) ++ body) (small : buf.length ≤ intMax)
    (long : (replyBlock (field :: fields)).length ≤ buf.length) :
    (mgParseHttp platform buf (toInt buf.length) false).1 = (replyBlock (field :: fields)).length ∧
      (mgParseHttp platform buf (toInt buf.length) false).2.Describes platform buf
        (replyBlock (field :: fields)).length false := by
  have complete := requestLen_reply plain split small
  rw [if_neg (not_lt.mpr long)] at complete
  obtain ⟨start, -⟩ := headersStart_ok plain (take_reply split long)
  have parsed := @mgParseHttp_complete platform buf (toInt buf.length) false 17
  have positive := replyBlock_pos (field :: fields)
  rw [complete, Int.toNat_natCast] at parsed
  exact parsed (by omega) start

/-- The headers of a reply are the slots of its fields. -/
theorem headersOf_reply (plain : ∀ member ∈ field :: fields, member.IsPlain)
    (room : (field :: fields).length < mgMaxHttpHeaders)
    (split : buf ++ rest = replyBlock (field :: fields) ++ body)
    (long : (replyBlock (field :: fields)).length ≤ buf.length) :
    headersOf buf (replyBlock (field :: fields)).length false = fieldSlots 17 (field :: fields) :=
  headersOf_ok plain room (take_reply split long)

end

/-! ## Names and values -/

/-- A text compares equal to itself in a buffer. -/
theorem mgNcasecmp_self {buf text more : Bytes} (place : buf = text ++ more) (plain : 0 ∉ text) :
    mgNcasecmp buf text text.length = 0 := by
  rw [mgNcasecmp_eq_zero_iff (le_refl _) plain, place, List.take_left, List.take_length]

/-- The first field is found by its name. -/
theorem findHeader_first {buf more : Bytes} {s : Nat} {field : Field} {fields : List Field}
    (place : buf.drop s = field.line ++ more) (plain : 0 ∉ field.name) :
    findHeader buf (fieldSlots s (field :: fields)) field.name =
      some ⟨some (s + field.name.length + 2), field.value.length⟩ := by
  rw [Field.line, List.append_assoc] at place
  have same := mgNcasecmp_self place plain
  rw [findHeader, fieldSlots, List.find?_cons_of_pos (by simp [same])]
  rfl

/-- The value of a field compares equal to itself. -/
theorem mgVcasecmp_value {buf more : Bytes} {s : Nat} {field : Field}
    (place : buf.drop s = field.line ++ more) (plain : 0 ∉ field.value) :
    mgVcasecmp buf ⟨some (s + field.name.length + 2), field.value.length⟩ field.value = 0 := by
  have value : buf.drop (s + field.name.length + 2) = field.value ++ more := by
    rw [Nat.add_assoc, ← List.drop_drop, place, ← List.drop_drop, Field.line, List.append_assoc,
      List.drop_left]
    rfl
  simp only [mgVcasecmp, Option.getD_some, min_self, mgNcasecmp_self value plain, if_true, sub_self]

end CppCode.Mongoose
