import Mathlib.Data.List.Find
import CppCode.Mongoose.WellFormed

/-!
# The header block alone

What the parser finds in a header block does not depend on the bytes behind it. The helpers do not
stop at the end of the block by themselves: a name is compared and a number is read from where it
begins, with no limit. But a block ends with a line feed, which is no part of a number and of no
name that is looked for, and a number is read only where something other than white space stands,
so they stop in the block. The one exception is a status line with nothing but white space from its
code on, whose block has no headers: its code is read behind the block.
-/

namespace CppCode.Mongoose

open Library

/-! ## The bytes of a block -/

/-- A block that is found ends behind the byte where the search stands, and behind the next one. -/
theorem lt_requestLenFrom {bytes : Bytes} {i : Nat} (positive : 0 < requestLenFrom bytes i) :
    (i + 1 : Int) < requestLenFrom bytes i := by
  induction bytes generalizing i with
  | nil => simp [requestLenFrom] at positive
  | cons byte rest ih =>
    rw [requestLenFrom] at positive ⊢
    split_ifs at positive ⊢ with bad short long
    · simp at positive
    · omega
    · omega
    · have later := ih positive
      omega

/-- White space that is printable or ends a line. -/
theorem isspace_plain {byte : UInt8} (blank : isspace byte = true)
    (plain : ¬(!isprint byte && byte != cr && byte != lf && byte < 128) = true) :
    byte = space ∨ byte = cr ∨ byte = lf := by
  simp only [isspace, isprint, Bool.or_eq_true, Bool.and_eq_true, beq_iff_eq, decide_eq_true_eq,
    UInt8.le_iff_toNat_le, UInt8.lt_iff_toNat_lt, ← UInt8.toNat_inj, Bool.not_eq_true',
    bne_iff_ne, ne_eq, Bool.and_eq_false_iff, decide_eq_false_iff_not, not_and,
    UInt8.reduceToNat, space, cr, lf] at *
  omega

/-- The bytes of a block: it is found in them, they end with a line feed, and white space in them is
a space or belongs to the end of a line. -/
structure IsBlock (block : Bytes) : Prop where
  /-- It is found. -/
  found : requestLenFrom block 0 = block.length
  /-- It ends a line. -/
  last : block.getLast? = some lf
  /-- It has no other white space. -/
  blank : ∀ byte ∈ block, isspace byte = true → byte = space ∨ byte = cr ∨ byte = lf

/-- The bytes up to the end of a block that was found. -/
theorem requestLenFrom_block {bytes : Bytes} {i n : Nat} (positive : 0 < n)
    (found : requestLenFrom bytes i = (i + n : Nat)) :
    requestLenFrom (bytes.take n) i = (i + n : Nat) ∧ (bytes.take n).getLast? = some lf ∧
      ∀ byte ∈ bytes.take n, isspace byte = true → byte = space ∨ byte = cr ∨ byte = lf := by
  induction bytes generalizing i n with
  | nil =>
    simp only [requestLenFrom] at found
    omega
  | cons byte rest ih =>
    obtain ⟨n, rfl⟩ : ∃ before, n = before + 1 := ⟨n - 1, by omega⟩
    rw [requestLenFrom] at found
    split_ifs at found with bad short long
    · obtain ⟨rfl, next⟩ := short
      obtain ⟨tail, rfl⟩ := List.head?_eq_some_iff.mp next
      obtain rfl : n = 1 := by omega
      refine ⟨?_, rfl, by simp⟩
      simp [requestLenFrom, lf, cr]
    · obtain ⟨rfl, next⟩ := long
      obtain rfl : n = 2 := by omega
      rw [List.take_succ_cons, next]
      refine ⟨?_, rfl, by simp⟩
      simp [requestLenFrom, lf, cr]
    · have further := @lt_requestLenFrom rest (i + 1) (by omega)
      have present : 0 < n := by
        rw [found] at further
        omega
      obtain ⟨again, last, blank⟩ := @ih (i + 1) n present (by rw [found]; omega)
      rw [List.take_succ_cons]
      refine ⟨?_, ?_, ?_⟩
      · have shorter : ¬(byte = lf ∧ (rest.take n).head? = some lf) := by
          rintro ⟨newline, next⟩
          rw [List.head?_take, if_neg (by omega)] at next
          exact short ⟨newline, next⟩
        have longer : ¬(byte = lf ∧ (rest.take n).take 2 = [cr, lf]) := by
          rintro ⟨newline, next⟩
          have two := congrArg List.length next
          rw [List.take_take, List.length_take] at two
          rw [List.take_take, Nat.min_eq_left (by simp at two; omega)] at next
          exact long ⟨newline, next⟩
        rw [requestLenFrom, if_neg bad, if_neg shorter, if_neg longer, again]
        omega
      · rw [List.getLast?_cons, last]
        rfl
      · intro other member white
        rcases List.mem_cons.mp member with rfl | inside
        · exact isspace_plain white bad
        · exact blank other inside white

/-- A block that is found in a buffer. -/
theorem isBlock_take {buf : Bytes} {n : Int} {len : Nat} (positive : 0 < len)
    (found : mgHttpGetRequestLen buf n = len) : IsBlock (buf.take len) ∧ len ≤ n.toNat := by
  have within := @requestLenFrom_le (buf.take n.toNat) 0 (by
    change 0 < mgHttpGetRequestLen buf n
    omega)
  have length : len ≤ n.toNat ∧ len ≤ buf.length := by
    change mgHttpGetRequestLen buf n ≤ _ at within
    rw [found, List.length_take] at within
    omega
  obtain ⟨again, last, blank⟩ := requestLenFrom_block (i := 0) positive (by
    rw [Nat.zero_add]
    exact found)
  rw [List.take_take, Nat.min_eq_left length.1] at again last blank
  refine ⟨⟨?_, last, blank⟩, length.1⟩
  rw [again, List.length_take, Nat.min_eq_left length.2, Nat.zero_add]

/-- A buffer begins with one block only. -/
theorem isBlock_unique {buf : Bytes} {len other : Nat} (block : IsBlock (buf.take len))
    (also : IsBlock (buf.take other)) (long : len ≤ buf.length) (inside : other ≤ buf.length) :
    len = other := by
  have least : ∀ {m n : Nat}, IsBlock (buf.take m) → IsBlock (buf.take n) → m ≤ buf.length →
      n ≤ buf.length → m ≤ n → m = n := by
    intro m n first second short within le
    have found := first.found
    rw [List.length_take_of_le short] at found
    have nonempty : m ≠ 0 := by
      rintro rfl
      simpa using first.last
    have split := List.take_append_drop m (buf.take n)
    rw [List.take_take, Nat.min_eq_left le] at split
    have same := second.found
    rw [← split, requestLenFrom_append (by rw [found]; omega), found, split,
      List.length_take_of_le within] at same
    omega
  rcases le_total len other with le | ge
  · exact least block also long inside le
  · exact (least also block inside long ge).symm

/-! ## Reading without a limit -/

/-- A comparison with a text of one line stops at the line feed. -/
theorem mgNcasecmp_line {front right : Bytes} {count : Nat} (line : lf ∉ right) (more : Bytes) :
    mgNcasecmp (front ++ [lf] ++ more) right count = mgNcasecmp (front ++ [lf]) right count := by
  induction front generalizing right count with
  | nil =>
    cases count with
    | zero => rfl
    | succ count =>
      have head : tolower (right.headD 0) ≠ lf := by
        cases right with
        | nil => decide
        | cons byte right =>
          intro newline
          rw [List.headD_cons, tolower_eq_iff (by decide)] at newline
          exact line (newline ▸ List.mem_cons_self)
      have differs : ¬(((tolower lf).toNat : Int) - (tolower (right.headD 0)).toNat = 0) := by
        intro same
        apply head
        rw [← UInt8.toNat_inj]
        have newline : (tolower lf).toNat = lf.toNat := rfl
        omega
      rw [mgNcasecmp, mgNcasecmp, if_neg fun both => differs both.1,
        if_neg fun both => differs both.1]
      rfl
  | cons byte front ih =>
    cases count with
    | zero => rfl
    | succ count =>
      have round (left : Bytes) : mgNcasecmp (byte :: left) right (count + 1) =
          if ((tolower byte).toNat : Int) - (tolower (right.headD 0)).toNat = 0 ∧ byte ≠ 0 then
            mgNcasecmp left right.tail count
          else ((tolower byte).toNat : Int) - (tolower (right.headD 0)).toNat := rfl
      rw [List.cons_append, List.cons_append, round, round,
        ih fun member => line (List.mem_of_mem_tail member)]

/-- A number is read up to the line feed when something other than white space stands before it. -/
theorem readSigned_line {front : Bytes} (present : ∃ byte ∈ front, isspace byte = false)
    (more : Bytes) : readSigned (front ++ [lf] ++ more) = readSigned front := by
  obtain ⟨byte, member, word⟩ := present
  have begins (text : Bytes) :
      readSigned (front.takeWhile isspace ++ text) = readSigned text := by
    have blank : ∀ other ∈ front.takeWhile isspace, isspace other = true := fun other inside =>
      List.mem_takeWhile_imp inside
    simp only [readSigned, List.dropWhile_append_of_pos blank]
  have left : front.dropWhile isspace ≠ [] := by
    intro none
    rw [List.dropWhile_eq_nil_iff] at none
    rw [none byte member] at word
    contradiction
  have first : ∀ other ∈ (front.dropWhile isspace).head?, isspace other = false := by
    intro other head
    have stops := List.head?_dropWhile_not isspace front
    rw [Option.mem_def.mp head] at stops
    simpa using stops
  have shape := @List.takeWhile_append_dropWhile _ isspace front
  conv_lhs => rw [← shape]
  conv_rhs => rw [← shape]
  rw [List.append_assoc, List.append_assoc, begins, begins]
  apply readSigned_append left first
  intro other head
  obtain rfl := Option.some.inj head
  decide

/-! ## Two buffers with one block -/

section
variable {buf other : Bytes} {len : Nat}

/-- Two buffers begin with the same block. -/
structure SameBlock (buf other : Bytes) (len : Nat) : Prop where
  /-- It is a block. -/
  block : IsBlock (buf.take len)
  /-- It is in the buffer. -/
  long : len ≤ buf.length
  /-- The other buffer has it too. -/
  front : other.take len = buf.take len

/-- From an offset in the block on, both hold the same bytes and a line feed. -/
theorem SameBlock.drop (same : SameBlock buf other len) {s : Nat} (inside : s < len) :
    ∃ front more others, (buf.take len).drop s = front ++ [lf] ∧
      buf.drop s = front ++ [lf] ++ more ∧ other.drop s = front ++ [lf] ++ others := by
  obtain ⟨block, long, both⟩ := same
  have length : (buf.take len).length = len := List.length_take_of_le long
  have last : ((buf.take len).drop s).getLast? = some lf := by
    rw [List.getLast?_drop, if_neg (by omega), block.last]
  obtain ⟨front, shape⟩ := List.getLast?_eq_some_iff.mp last
  refine ⟨front, buf.drop len, other.drop len, shape, ?_, ?_⟩
  · conv_lhs => rw [← List.take_append_drop len buf]
    rw [List.drop_append_of_le_length (by omega), shape]
  · conv_lhs => rw [← List.take_append_drop len other]
    rw [both, List.drop_append_of_le_length (by omega), shape]

/-- A comparison from inside of the block on. -/
theorem SameBlock.ncasecmp_eq (same : SameBlock buf other len) {s : Nat} (inside : s < len)
    {right : Bytes} (line : lf ∉ right) (count : Nat) :
    mgNcasecmp (other.drop s) right count = mgNcasecmp (buf.drop s) right count := by
  obtain ⟨front, more, others, -, left, mine⟩ := same.drop inside
  rw [left, mine, mgNcasecmp_line line, mgNcasecmp_line line]

/-- A number from inside of the block on. -/
theorem SameBlock.readSigned_eq (same : SameBlock buf other len) {s : Nat}
    (present : ∃ byte ∈ (buf.take len).drop s, isspace byte = false) :
    readSigned (other.drop s) = readSigned (buf.drop s) := by
  obtain ⟨byte, member, word⟩ := present
  have inside : s < len := by
    have nonempty := List.length_pos_of_mem member
    rw [List.length_drop, List.length_take] at nonempty
    omega
  obtain ⟨front, more, others, shape, left, mine⟩ := same.drop inside
  rw [shape, List.mem_append, List.mem_singleton] at member
  have before : ∃ byte ∈ front, isspace byte = false := by
    rcases member with early | rfl
    · exact ⟨byte, early, word⟩
    · exact absurd word (by decide)
  rw [left, mine, readSigned_line before, readSigned_line before]

/-- Scanning does not look behind its limit. -/
theorem scanTo_front (front : other.take len = buf.take len) (stop : UInt8 → Bool) (s : Nat) :
    scanTo other stop s len = scanTo buf stop s len := by
  simp only [scanTo, front]

/-- Skipping does not look behind its limit. -/
theorem mgSkip_front (front : other.take len = buf.take len) (s : Nat) (delims : Bytes) :
    mgSkip other s len delims = mgSkip buf s len delims := by
  simp only [mgSkip, scanTo_front front]

/-- A string that `mg_skip` returns is in the block. -/
theorem slice_mgSkip (s : Nat) (delims : Bytes) :
    (mgSkip buf s len delims).1.slice buf =
      ((buf.take len).drop s).takeWhile fun byte => !isDelim delims byte := by
  simp only [mgSkip, scanTo, MgStr.slice, Nat.add_sub_cancel_left]
  rw [List.drop_take]
  have short := (List.takeWhile_prefix (l := (buf.drop s).take (len - s))
    fun byte => !isDelim delims byte)
  have within : (((buf.drop s).take (len - s)).takeWhile fun byte =>
      !isDelim delims byte) <+: buf.drop s := short.trans (List.take_prefix _ _)
  exact (List.prefix_iff_eq_take.mp within).symm

/-- A round of the header loop does not look behind its limit. -/
theorem readHeader_front (front : other.take len = buf.take len) (s : Nat) :
    readHeader other s len = readHeader buf s len := by
  have value (t : Nat) :
      (mgSkip buf t len crlf).1.slice other = (mgSkip buf t len crlf).1.slice buf := by
    rw [slice_mgSkip, ← mgSkip_front front, slice_mgSkip, front]
  simp only [readHeader, mgSkip_front front, value]

/-- The header loop does not look behind its limit. -/
theorem readHeaders_front (front : other.take len = buf.take len) (fuel room s : Nat) :
    readHeaders other len fuel room s = readHeaders buf len fuel room s := by
  induction fuel generalizing room s with
  | zero => rfl
  | succ fuel ih =>
    cases room with
    | zero => rfl
    | succ room => simp only [readHeaders, readHeader_front front, ih]

/-- A header that the loop stores was read in one of its rounds. -/
theorem mem_readHeaders {fuel room s : Nat} {header : MgStr × MgStr}
    (member : header ∈ readHeaders buf len fuel room s) :
    ∃ t, s ≤ t ∧ header.1 = (readHeader buf t len).1 ∧ header.2 = (readHeader buf t len).2.1 ∧
      header.1.len ≠ 0 ∧ header.2.len ≠ 0 := by
  induction fuel generalizing room s with
  | zero => simp [readHeaders] at member
  | succ fuel ih =>
    cases room with
    | zero => simp [readHeaders] at member
    | succ room =>
      have past := readHeader_next buf s len
      rw [readHeaders] at member
      cases shape : readHeader buf s len with
      | mk name rest =>
        obtain ⟨value, next⟩ := rest
        rw [shape] at member past
        simp only at member past
        split_ifs at member with empty blank
        · obtain ⟨t, later, read⟩ := ih member
          exact ⟨t, by omega, read⟩
        · simp at member
        · rcases List.mem_cons.mp member with rfl | inside
          · rw [not_or] at blank
            exact ⟨s, le_refl s, by rw [shape], by rw [shape], blank.1, blank.2⟩
          · obtain ⟨t, later, read⟩ := ih inside
            exact ⟨t, by omega, read⟩

/-- A value begins in the block, with something other than white space. -/
theorem readHeader_value {t : Nat} (block : IsBlock (buf.take len))
    (valued : (readHeader buf t len).2.1.len ≠ 0) :
    ∃ s, (readHeader buf t len).2.1.p = some s ∧
      ∃ byte ∈ (buf.take len).drop s, isspace byte = false := by
  refine ⟨(mgSkip buf t len [colon, space]).2, rfl, ?_⟩
  simp only [readHeader, slice_mgSkip, ne_eq, List.length_eq_zero_iff,
    List.rdropWhile_eq_nil_iff, beq_iff_eq, not_forall] at valued
  obtain ⟨byte, member, other⟩ := valued
  have inside := (List.takeWhile_prefix _).subset member
  have within := List.mem_takeWhile_imp member
  refine ⟨byte, inside, Bool.eq_false_iff.mpr fun white => ?_⟩
  rcases block.blank byte (List.mem_of_mem_drop inside) white with rfl | rfl | rfl
  · exact other rfl
  all_goals exact absurd within (by decide)

/-- The headers that are stored begin behind the start of the loop, with a letter or a digit or
whatever else is no white space in their values. -/
theorem readHeaders_word {fuel room s : Nat} {header : MgStr × MgStr}
    (block : IsBlock (buf.take len)) (member : header ∈ readHeaders buf len fuel room s) :
    (∃ t ∈ header.1.p, t < len) ∧ ∃ t ∈ header.2.p, s ≤ t ∧
      ∃ byte ∈ (buf.take len).drop t, isspace byte = false := by
  obtain ⟨t, later, name, value, named, valued⟩ := mem_readHeaders member
  rw [name] at named
  rw [value] at valued
  have inside := readHeader_inside named
  obtain ⟨u, place, word⟩ := readHeader_value block valued
  have behind : t ≤ u := by
    have past := mgSkip_next buf [colon, space] t len
    have same : (mgSkip buf t len [colon, space]).2 = u := Option.some.inj place
    omega
  exact ⟨⟨t, by rw [name]; rfl, inside⟩, u, by rw [value]; exact place, by omega, word⟩

/-- White space only stands in front of what is behind it. -/
theorem drop_word_front {s t : Nat} (before : s ≤ t)
    (word : ∃ byte ∈ (buf.take len).drop t, isspace byte = false) :
    ∃ byte ∈ (buf.take len).drop s, isspace byte = false := by
  obtain ⟨byte, member, other⟩ := word
  refine ⟨byte, ?_, other⟩
  rw [← Nat.sub_add_cancel before, Nat.add_comm, ← List.drop_drop] at member
  exact List.mem_of_mem_drop member

/-- With headers behind it the status line is the same. -/
theorem SameBlock.headersStart_eq (same : SameBlock buf other len)
    (present : headersOf buf len false ≠ []) :
    headersStart other len false = headersStart buf len false := by
  obtain ⟨header, member⟩ := List.exists_mem_of_ne_nil _ present
  simp only [headersOf] at member
  cases found : headersStart buf len false with
  | none => simp [found] at member
  | some s =>
    rw [found] at member
    obtain ⟨-, t, -, later, word⟩ := readHeaders_word same.block member
    have start : startLine other len = startLine buf len := scanTo_front same.front _ 0
    simp only [headersStart, Bool.false_eq_true, if_false, start] at found ⊢
    rw [← found]
    simp only [parseStatusLine, mgSkip_front same.front] at found ⊢
    generalize (mgSkip buf (startLine buf len) len [space]).2 = u at found ⊢
    have past := mgSkip_next buf crlf (u + 4) len
    have inside : ¬(len < u + 4 ∨ buf[u + 3]? ≠ some space) := by
      intro short
      simp [short] at found
    rw [not_or] at inside
    have byte : other[u + 3]? = buf[u + 3]? := by
      rw [← List.getElem?_take_of_lt (by omega : u + 3 < len), same.front,
        List.getElem?_take_of_lt (by omega)]
    rw [byte]
    have number : atoi (other.drop u) = atoi (buf.drop u) := by
      rw [if_neg (not_or.mpr inside)] at found
      have behind : (mgSkip buf (u + 4) len crlf).2 = s := by
        split_ifs at found
        · simp at found
        · simpa using found
      rw [atoi, atoi, same.readSigned_eq (drop_word_front (by omega) word)]
    rw [number]

/-- The headers are the same. -/
theorem SameBlock.headersOf_eq (same : SameBlock buf other len)
    (present : headersOf buf len false ≠ []) :
    headersOf other len false = headersOf buf len false := by
  simp only [headersOf, same.headersStart_eq present]
  cases headersStart buf len false with
  | none => rfl
  | some s => exact readHeaders_front same.front _ _ s

/-- Where the headers of a block are. -/
theorem headersOf_word (block : IsBlock (buf.take len)) {header : MgStr × MgStr}
    (member : header ∈ headersOf buf len false) :
    (∃ t ∈ header.1.p, t < len) ∧ ∃ t ∈ header.2.p,
      ∃ byte ∈ (buf.take len).drop t, isspace byte = false := by
  simp only [headersOf] at member
  cases found : headersStart buf len false with
  | none => simp [found] at member
  | some s =>
    rw [found] at member
    obtain ⟨named, t, place, -, word⟩ := readHeaders_word block member
    exact ⟨named, t, place, word⟩

/-- The value of a header, compared with a text of one line. -/
theorem SameBlock.vcasecmp_eq (same : SameBlock buf other len) {header : MgStr × MgStr}
    (member : header ∈ headersOf buf len false) {text : Bytes}
    (line : lf ∉ text) :
    mgVcasecmp other header.2 text = mgVcasecmp buf header.2 text := by
  obtain ⟨-, t, place, byte, inside, -⟩ := headersOf_word same.block member
  have within : t < len := by
    have nonempty := List.length_pos_of_mem inside
    rw [List.length_drop, List.length_take] at nonempty
    omega
  simp only [mgVcasecmp, Option.mem_def.mp place, Option.getD_some, same.ncasecmp_eq within line]

/-- The header with a name of one line. -/
theorem SameBlock.findHeader_eq (same : SameBlock buf other len) {name : Bytes}
    (line : lf ∉ name) :
    findHeader other (headersOf buf len false) name =
      findHeader buf (headersOf buf len false) name := by
  unfold findHeader
  congr 1
  apply List.find?_congr
  intro header member
  obtain ⟨⟨t, place, inside⟩, -⟩ := headersOf_word same.block member
  rw [Option.mem_def.mp place, Option.getD_some, same.ncasecmp_eq inside line]

/-- The declared length. -/
theorem SameBlock.declaredLength_eq (same : SameBlock buf other len) :
    declaredLength other (headersOf buf len false) =
      declaredLength buf (headersOf buf len false) := by
  have line : lf ∉ ascii "Content-Length" := by decide
  have filtered : (headersOf buf len false).filter (fun header => isContentLength other header.1) =
      (headersOf buf len false).filter fun header => isContentLength buf header.1 := by
    apply List.filter_congr
    intro header member
    obtain ⟨⟨t, place, inside⟩, -⟩ := headersOf_word same.block member
    simp only [isContentLength, Option.mem_def.mp place, Option.getD_some,
      same.ncasecmp_eq inside line]
  simp only [declaredLength, filtered]
  apply Option.map_congr
  intro header last
  have member := List.mem_of_getLast? last
  obtain ⟨-, t, place, word⟩ := headersOf_word same.block (List.mem_of_mem_filter member)
  simp only [headerNumber, to64, Option.mem_def.mp place, Option.getD_some, same.readSigned_eq word]

/-- The lengths of a reply. -/
theorem SameBlock.framing_eq (same : SameBlock buf other len)
    (present : headersOf buf len false ≠ []) (platform : Platform) :
    framing platform other len false = framing platform buf len false := by
  have request (buf : Bytes) : ¬IsBodiless buf len false := fun bodiless =>
    absurd bodiless.1 (by simp)
  simp only [framing, same.headersOf_eq present, same.declaredLength_eq, request, and_false,
    if_false]

end

end CppCode.Mongoose
