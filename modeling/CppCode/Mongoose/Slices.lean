import CppCode.Mongoose.Headers

/-!
# The slices of a parsed request

Where the strings of a parsed message lie. A complete block has no `NUL` in it, `mg_skip` returns a
string that ends at or before the offset that it returns, and no scan leaves the block. So the
method, the URI and the headers are slices of the block, and the slices of the headers ascend
(`readHeaders_ascends`). The headers that the parser keeps are those with a value
(`readHeaders_eq`), and behind them the table is as it was cleared (`mgParseHttp_slots`).
-/

namespace CppCode.Mongoose

open Library

/-! ## Inside of the block -/

/-- The bytes up to the end of a block are not `NUL`. -/
theorem requestLenFrom_plain {bytes : Bytes} {i : Nat} (positive : 0 < requestLenFrom bytes i) :
    ∀ byte ∈ bytes.take ((requestLenFrom bytes i).toNat - i), byte ≠ 0 := by
  induction bytes generalizing i with
  | nil => simp
  | cons byte rest ih =>
    rw [requestLenFrom] at positive ⊢
    split_ifs at positive ⊢ with bad short long
    · simp at positive
    · obtain ⟨rfl, next⟩ := short
      obtain ⟨tail, rfl⟩ := List.head?_eq_some_iff.mp next
      have two : ((i : Int) + 2).toNat - i = 2 := by omega
      rw [two]
      simp [lf]
    · obtain ⟨rfl, next⟩ := long
      have three : ((i : Int) + 3).toNat - i = 2 + 1 := by omega
      rw [three, List.take_succ_cons, next]
      simp [lf, cr]
    · have plain : byte ≠ 0 := by
        rintro rfl
        exact bad (by decide)
      have later := ih positive
      intro other member
      cases count : (requestLenFrom rest (i + 1)).toNat - i with
      | zero => simp [count] at member
      | succ less =>
        rw [count, List.take_succ_cons, List.mem_cons] at member
        rcases member with rfl | member
        · exact plain
        · have same : (requestLenFrom rest (i + 1)).toNat - (i + 1) = less := by omega
          exact later other (same ▸ member)

/-- A complete block has no `NUL` in it. -/
theorem mgHttpGetRequestLen_plain {buf : Bytes} {n : Int}
    (positive : 0 < mgHttpGetRequestLen buf n) :
    ∀ byte ∈ buf.take (mgHttpGetRequestLen buf n).toNat, byte ≠ 0 := by
  have plain := requestLenFrom_plain (i := 0) positive
  have bound := requestLenFrom_le (i := 0) positive
  rw [List.length_take] at bound
  rw [List.take_take, Nat.sub_zero] at plain
  have short : min (requestLenFrom (buf.take n.toNat) 0).toNat n.toNat =
      (mgHttpGetRequestLen buf n).toNat := by
    unfold mgHttpGetRequestLen
    omega
  rwa [short] at plain

/-- A block lies inside of the length that was looked at. -/
theorem mgHttpGetRequestLen_le_length {buf : Bytes} {n : Int}
    (positive : 0 < mgHttpGetRequestLen buf n) :
    ((mgHttpGetRequestLen buf n).toNat : Int) ≤ n := by
  have bound := requestLenFrom_le (i := 0) positive
  rw [List.length_take] at bound
  unfold mgHttpGetRequestLen at *
  omega

/-- Scanning does not leave the block. -/
theorem scanTo_le (buf : Bytes) (stop : UInt8 → Bool) {s limit : Nat} (inside : s ≤ limit) :
    scanTo buf stop s limit ≤ limit := by
  have taken : (((buf.take limit).drop s).takeWhile fun byte => !stop byte).length ≤
      ((buf.take limit).drop s).length := (List.takeWhile_prefix _).length_le
  rw [List.length_drop, List.length_take] at taken
  unfold scanTo
  omega

/-- `mg_skip` does not leave the block. -/
theorem mgSkip_le (buf delims : Bytes) {s limit : Nat} (inside : s ≤ limit) :
    (mgSkip buf s limit delims).2 ≤ limit :=
  scanTo_le buf _ (scanTo_le buf _ inside)

/-- A string lies between two offsets. -/
def MgStr.Within (str : MgStr) (first last : Nat) : Prop :=
  ∃ offset, str.p = some offset ∧ first ≤ offset ∧ offset + str.len ≤ last

/-- `mg_skip` returns a string between the offset that it is given and the one that it returns. -/
theorem mgSkip_within (buf delims : Bytes) (s limit : Nat) :
    (mgSkip buf s limit delims).1.Within s (mgSkip buf s limit delims).2 :=
  ⟨s, rfl, le_refl s, mgSkip_next buf delims s limit⟩

/-- A string that lies in the buffer is not `NULL`. -/
theorem MgStr.Within.isSome {str : MgStr} {first last : Nat} (within : str.Within first last) :
    str.p.isSome = true := by
  obtain ⟨offset, pointer, -⟩ := within
  rw [pointer]
  rfl

/-- A string that lies between two offsets lies between offsets around them. -/
theorem MgStr.Within.mono {str : MgStr} {first last lower upper : Nat}
    (within : str.Within first last) (below : lower ≤ first) (above : last ≤ upper) :
    str.Within lower upper := by
  obtain ⟨offset, pointer, after, before⟩ := within
  exact ⟨offset, pointer, le_trans below after, le_trans before above⟩

/-- Cutting a string at its end keeps it between its offsets. -/
theorem MgStr.Within.cut {str : MgStr} {first last : Nat} (within : str.Within first last)
    {len : Nat} (shorter : len ≤ str.len) : ({ str with len } : MgStr).Within first last := by
  obtain ⟨offset, pointer, after, before⟩ := within
  exact ⟨offset, pointer, after, by simp only; omega⟩

/-! ## The request line -/

/-- The slice of a string is at most as long as the string. -/
theorem MgStr.slice_length_le (buf : Bytes) (str : MgStr) : (str.slice buf).length ≤ str.len := by
  unfold MgStr.slice
  split
  · exact Nat.zero_le _
  · exact List.length_take_le _ _

/-- Method and URI of a request line are slices of the block. -/
theorem parseRequestLine_within {buf : Bytes} {s limit next : Nat} {hm after : HttpMessage}
    (inside : s ≤ limit) (parsed : parseRequestLine buf s limit hm = some (after, next)) :
    after.method.Within 0 limit ∧ after.uri.Within 0 limit ∧ next ≤ limit := by
  have first := mgSkip_le buf [space] inside
  have second := mgSkip_le buf [space] first
  have third := mgSkip_le buf crlf second
  have method := (mgSkip_within buf [space] s limit).mono (Nat.zero_le s) first
  have uri := (mgSkip_within buf [space] (mgSkip buf s limit [space]).2 limit).mono
    (Nat.zero_le _) second
  simp only [parseRequestLine] at parsed
  split_ifs at parsed with _ query
  · obtain ⟨rfl, rfl⟩ := Prod.mk.inj (Option.some.inj parsed)
    have shorter := MgStr.slice_length_le buf
      (mgSkip buf (mgSkip buf s limit [space]).2 limit [space]).1
    exact ⟨method, uri.cut (by omega), third⟩
  · obtain ⟨rfl, rfl⟩ := Prod.mk.inj (Option.some.inj parsed)
    exact ⟨method, uri, third⟩

/-- Giving a message without a known length no body touches neither its request line nor its
headers. -/
theorem resetBody_frame (platform : Platform) (buf : Bytes) (len : Nat) (isReq : Bool)
    (hm : HttpMessage) :
    (resetBody platform buf len isReq hm).method = hm.method ∧
      (resetBody platform buf len isReq hm).uri = hm.uri ∧
      (resetBody platform buf len isReq hm).slots = hm.slots := by
  unfold resetBody
  split <;> exact ⟨rfl, rfl, rfl⟩

/-- A message that is parsed has a start line behind which its headers begin. -/
theorem headersStart_of_pos {platform : Platform} {buf : Bytes} {n : Int} {isReq : Bool}
    (positive : 0 < (mgParseHttp platform buf n isReq).1) :
    0 < mgHttpGetRequestLen buf n ∧
      ∃ s, headersStart buf (mgHttpGetRequestLen buf n).toNat isReq = some s := by
  obtain ⟨complete, wellFormed⟩ := mgParseHttp_pos_iff.mp positive
  exact ⟨by omega, Option.ne_none_iff_exists'.mp wellFormed⟩

/-- Method and URI of a request that is parsed are slices of its block. -/
theorem mgParseHttp_within {platform : Platform} {buf : Bytes} {n : Int}
    (positive : 0 < (mgParseHttp platform buf n true).1) :
    (mgParseHttp platform buf n true).2.method.Within 0 (mgHttpGetRequestLen buf n).toNat ∧
      (mgParseHttp platform buf n true).2.uri.Within 0 (mgHttpGetRequestLen buf n).toNat := by
  obtain ⟨complete, s, start⟩ := headersStart_of_pos positive
  obtain ⟨after, parsed, -, -, shape⟩ := mgParseHttp_shape platform complete start
  rw [if_pos rfl] at parsed
  generalize (mgHttpGetRequestLen buf n).toNat = limit at start parsed shape ⊢
  have inside : startLine buf limit ≤ limit := scanTo_le buf _ (Nat.zero_le limit)
  obtain ⟨method, uri, -⟩ := parseRequestLine_within inside parsed
  obtain ⟨loopMethod, loopUri⟩ :=
    parseHeadersFrom_line platform buf limit limit (limit + mgMaxHttpHeaders) 0 s after
  obtain ⟨sameMethod, sameUri, -⟩ := resetBody_frame platform buf limit true
    (mgHttpParseHeaders platform buf s limit limit after).1
  have keptMethod := sameMethod.trans loopMethod
  have keptUri := sameUri.trans loopUri
  rw [shape]
  exact ⟨keptMethod ▸ method, keptUri ▸ uri⟩

/-- The headers of a block begin inside of it. -/
theorem headersStart_le {buf : Bytes} {limit s : Nat}
    (start : headersStart buf limit true = some s) : s ≤ limit := by
  have inside : startLine buf limit ≤ limit := scanTo_le buf _ (Nat.zero_le limit)
  obtain ⟨after, parsed, -⟩ := startLine_parsed {} start
  rw [if_pos rfl] at parsed
  exact (parseRequestLine_within inside parsed).2.2

/-! ## The headers -/

/-- The table of a message that is parsed holds the headers of its block, and cleared slots. -/
theorem mgParseHttp_slots {platform : Platform} {buf : Bytes} {n : Int} {isReq : Bool}
    (positive : 0 < (mgParseHttp platform buf n isReq).1) :
    (mgParseHttp platform buf n isReq).2.slots =
      headersOf buf (mgHttpGetRequestLen buf n).toNat isReq ++ List.replicate (mgMaxHttpHeaders -
        (headersOf buf (mgHttpGetRequestLen buf n).toNat isReq).length)
        (({}, {}) : MgStr × MgStr) := by
  obtain ⟨complete, s, start⟩ := headersStart_of_pos positive
  obtain ⟨after, -, kept, -, shape⟩ := mgParseHttp_shape platform complete start
  rw [shape]
  simp only [headersOf, start]
  exact (resetBody_frame ..).2.2.trans (mgHttpParseHeaders_slots kept)

/-- Strings follow each other from one offset to another without overlap. -/
inductive Ascends : Nat → List MgStr → Nat → Prop
  | nil {first last : Nat} (ordered : first ≤ last) : Ascends first [] last
  | cons {first last offset : Nat} {str : MgStr} {rest : List MgStr} (pointer : str.p = some offset)
      (after : first ≤ offset) (later : Ascends (offset + str.len) rest last) :
      Ascends first (str :: rest) last

/-- Strings that follow each other do so between offsets around them. -/
theorem Ascends.mono {lower first last upper : Nat} {strs : List MgStr}
    (ascends : Ascends first strs last) (below : lower ≤ first) (above : last ≤ upper) :
    Ascends lower strs upper := by
  induction ascends generalizing lower with
  | nil ordered => exact .nil (le_trans below (le_trans ordered above))
  | cons pointer after _ ih => exact .cons pointer (le_trans below after) (ih (le_refl _) above)

/-- The offsets that strings follow each other between are in order. -/
theorem Ascends.le {first last : Nat} {strs : List MgStr} (ascends : Ascends first strs last) :
    first ≤ last := by
  induction ascends with
  | nil ordered => exact ordered
  | cons _ after _ ih => omega

/-- Strings that follow each other lie between the offsets. -/
theorem Ascends.within {first last : Nat} {strs : List MgStr} (ascends : Ascends first strs last)
    {str : MgStr} (member : str ∈ strs) : str.Within first last := by
  induction ascends with
  | nil => cases member
  | cons pointer after later ih =>
    rcases List.mem_cons.mp member with rfl | inside
    · exact ⟨_, pointer, after, later.le⟩
    · exact (ih inside).mono (by omega) (le_refl _)

/-- Name and value of a header follow each other up to the offset of the next round. -/
theorem readHeader_ascends {buf : Bytes} {s limit : Nat} {rest : List MgStr}
    (later : Ascends (readHeader buf s limit).2.2 rest limit) :
    Ascends s ((readHeader buf s limit).1 :: (readHeader buf s limit).2.1 :: rest) limit := by
  have name := mgSkip_next buf [colon, space] s limit
  have value := mgSkip_next buf crlf (mgSkip buf s limit [colon, space]).2 limit
  have trimmed : (readHeader buf s limit).2.1.len ≤
      (mgSkip buf (mgSkip buf s limit [colon, space]).2 limit crlf).1.len := by
    refine le_trans ?_ (MgStr.slice_length_le buf _)
    exact (List.rdropWhile_prefix (· == space) _).length_le
  have ends : (mgSkip buf s limit [colon, space]).2 + (readHeader buf s limit).2.1.len ≤
      (readHeader buf s limit).2.2 := le_trans (Nat.add_le_add_left trimmed _) value
  exact .cons rfl (le_refl s) (.cons rfl name (later.mono ends (le_refl limit)))

/-- A round does not leave the block. -/
theorem readHeader_le (buf : Bytes) {s limit : Nat} (inside : s ≤ limit) :
    (readHeader buf s limit).2.2 ≤ limit :=
  mgSkip_le buf crlf (mgSkip_le buf [colon, space] inside)

/-- Names and values of headers, in order. -/
def strings (headers : List (MgStr × MgStr)) : List MgStr :=
  headers.flatMap fun header => [header.1, header.2]

/-- The headers that the loop stores follow each other inside of the block. -/
theorem readHeaders_ascends (buf : Bytes) {limit fuel room s : Nat} (inside : s ≤ limit) :
    Ascends s (strings (readHeaders buf limit fuel room s)) limit := by
  induction fuel generalizing room s with
  | zero => exact .nil inside
  | succ fuel ih =>
    cases room with
    | zero => exact .nil inside
    | succ room =>
      have bound := readHeader_le buf inside
      have forward := readHeader_next buf s limit
      rw [readHeaders]
      simp only
      split_ifs with empty blank
      · exact (ih bound).mono (by omega) (le_refl limit)
      · exact .nil inside
      · exact readHeader_ascends (ih bound)

/-- The headers of a block follow each other inside of it. -/
theorem headersOf_ascends (buf : Bytes) (limit : Nat) :
    Ascends 0 (strings (headersOf buf limit true)) limit := by
  unfold headersOf
  cases start : headersStart buf limit true with
  | none => exact .nil (Nat.zero_le limit)
  | some s =>
    exact (readHeaders_ascends buf (headersStart_le start)).mono (Nat.zero_le s) (le_refl limit)

/-- The headers of a block have a name and a value. -/
theorem headersOf_ne_zero (buf : Bytes) (limit : Nat) :
    ∀ header ∈ headersOf buf limit true, header.1.len ≠ 0 ∧ header.2.len ≠ 0 := by
  unfold headersOf
  cases headersStart buf limit true with
  | none => simp
  | some s => exact fun header member => readHeaders_ne_zero member

/-- The headers with a name that a block has from an offset on: the rounds of the loop before the
one that finds no name. -/
def rounds (buf : Bytes) (limit : Nat) : Nat → Nat → List (MgStr × MgStr)
  | 0, _ => []
  | fuel + 1, s =>
    let (name, value, next) := readHeader buf s limit
    if name.len = 0 then [] else (name, value) :: rounds buf limit fuel next

/-- The loop stores the headers of the block that have a value, as many as there are slots. -/
theorem readHeaders_eq (buf : Bytes) (limit fuel room s : Nat) :
    readHeaders buf limit fuel room s =
      ((rounds buf limit fuel s).filter fun header => header.2.len ≠ 0).take room := by
  induction fuel generalizing room s with
  | zero => simp [readHeaders, rounds]
  | succ fuel ih =>
    cases room with
    | zero => simp [readHeaders]
    | succ room =>
      rw [readHeaders, rounds]
      generalize readHeader buf s limit = header
      obtain ⟨name, value, next⟩ := header
      simp only
      by_cases unnamed : name.len = 0
      · simp [unnamed]
      · by_cases empty : value.len = 0
        · simp [unnamed, empty, ih]
        · simp [unnamed, empty, ih]

end CppCode.Mongoose
