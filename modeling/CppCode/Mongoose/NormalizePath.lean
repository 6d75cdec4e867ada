import CppCode.Library.PathResolution
import CppCode.Mongoose.Memory
import CppCode.Mongoose.Slices
import CppCode.Mongoose.WellFormed

/-!
# Normal paths

`mg_serve_http` resolves the dot segments of the path of a request in place, with
`mg_normalize_uri_path`. The code copies segment by segment to the left and goes back to the
previous slash for a parent. It leaves the normal form of the path, which has no dot segments and
stays as it is when it is normalized again (`mgNormalizeUriPath_normal`).
-/

namespace CppCode.Mongoose

open Library

/-! ## The code -/

/-- `parse_uri_component`: the component in front of the separator, and where the next one begins.
-/
def parseUriComponent (buf : Bytes) (p stop : Nat) (sep : UInt8) : MgStr × Nat :=
  let found := scanTo buf (· == sep) p stop
  (⟨some p, found - p⟩, if found < stop then found + 1 else found)

/-- The loop that goes back to the previous slash. -/
def backToSlash (buf : Bytes) (cp : Nat) : Nat → Nat
  | 0 => 0
  | d + 1 => if cp < d + 1 ∧ buf.getD d 0 ≠ 47 then backToSlash buf cp d else d + 1

/-- A component that is parsed ends behind its beginning. -/
theorem lt_parseUriComponent {buf : Bytes} {p stop : Nat} (sep : UInt8) (before : p < stop) :
    p < (parseUriComponent buf p stop sep).2 := by
  have inside := scanTo_le buf (· == sep) (Nat.le_of_lt before)
  have start : p ≤ scanTo buf (· == sep) p stop := Nat.le_add_right p _
  unfold parseUriComponent
  show p < if scanTo buf (· == sep) p stop < stop then _ else _
  split <;> omega

/-- The loop of `mg_normalize_uri_path`. -/
def normalizeLoop (buf : Bytes) (cp se s d : Nat) : Bytes × Nat :=
  if inside : s < se then
    let component := parseUriComponent buf s se 47
    have later : s < component.2 := lt_parseUriComponent 47 inside
    have : se - component.2 < se - s := by omega
    if component.1.slice buf = [46] then normalizeLoop buf cp se component.2 d
    else if component.1.slice buf = [46, 46] then
      normalizeLoop buf cp se component.2
        (backToSlash buf cp (if cp + 1 < d ∧ buf.getD (d - 1) 0 = 47 then d - 1 else d))
    else
      normalizeLoop (memmove buf d s (component.2 - s)) cp se component.2 (d + (component.2 - s))
  else (buf, d)
termination_by se - s

/-- `mg_normalize_uri_path` in place: its result, the buffer and the string. -/
def mgNormalizeUriPath (buf : Bytes) (uri : MgStr) : Int × Bytes × MgStr :=
  let cp := uri.p.getD 0
  if uri.len = 0 ∨ buf.getD cp 0 ≠ 47 then (0, buf, { uri with len := 0 })
  else
    let done := normalizeLoop buf cp (cp + uri.len) cp cp
    if done.2 = cp then (1, store done.1 cp [47], { uri with len := 1 })
    else (1, done.1, { uri with len := done.2 - cp })

/-! ## The segments of a path -/

/-- Segments, each with the slash behind it. -/
def segments (path : List Bytes) : Bytes := path.flatMap (· ++ [47])

theorem segments_concat (path : List Bytes) (name : Bytes) :
    segments (path ++ [name]) = segments path ++ (name ++ [47]) := by
  simp [segments]

/-- The text of segments with the last one open. -/
theorem intercalate_concat (path : List Bytes) (name : Bytes) :
    [47].intercalate (path ++ [name]) = segments path ++ name := by
  induction path with
  | nil => simp [segments]
  | cons first path ih =>
    have some_more : path ++ [name] ≠ [] := by simp
    obtain ⟨second, rest, more⟩ := List.exists_cons_of_ne_nil some_more
    rw [List.cons_append, more, List.intercalate_cons_cons, ← more, ih]
    simp [segments]

/-- What a path begins with ends with a slash. -/
theorem front_slash (before : Bytes) (path : List Bytes) :
    ∃ front, before ++ 47 :: segments path = front ++ [47] ∧ before.length ≤ front.length := by
  rcases List.eq_nil_or_concat path with rfl | ⟨init, name, rfl⟩
  · exact ⟨before, rfl, Nat.le_refl _⟩
  · refine ⟨before ++ 47 :: (segments init ++ name), ?_, by simp⟩
    rw [List.concat_eq_append, segments_concat]
    simp

/-- The byte behind a text. -/
theorem getD_behind (text more : Bytes) (byte : UInt8) :
    (text ++ byte :: more).getD text.length 0 = byte := by
  simp

/-- Going back over a name ends behind the slash in front of it. -/
theorem backToSlash_name {front name : Bytes} (more : Bytes) {cp : Nat} (start : cp ≤ front.length)
    (plain : 47 ∉ name) :
    backToSlash (front ++ [47] ++ name ++ more) cp (front ++ [47] ++ name).length =
      (front ++ [47]).length := by
  induction name using List.reverseRecOn generalizing more with
  | nil =>
    have slash := getD_behind front ([] ++ more) 47
    have here : (front ++ [47] ++ []).length = front.length + 1 := by simp
    rw [here, List.append_nil, List.append_assoc front, backToSlash]
    rw [if_neg (fun halt => absurd slash halt.2)]
    simp
  | append_singleton name byte ih =>
    have last := getD_behind (front ++ [47] ++ name) more byte
    have other : byte ≠ 47 := fun slash => plain (by simp [slash])
    have shorter : 47 ∉ name := fun mem => plain (List.mem_append_left _ mem)
    have here :
        (front ++ [47] ++ (name ++ [byte])).length = (front ++ [47] ++ name).length + 1 := by
      simp [Nat.add_assoc]
    have long : cp < (front ++ [47] ++ name).length + 1 := by
      simp only [List.length_append]
      omega
    have bytes : front ++ [47] ++ (name ++ [byte]) ++ more =
        front ++ [47] ++ name ++ byte :: more := by simp
    rw [here, bytes, backToSlash, if_pos ⟨long, by rw [last]; exact other⟩]
    exact ih (byte :: more) shorter

/-- For a parent the code goes back in front of the last segment, but not in front of the first
slash. -/
theorem backToSlash_parent (before : Bytes) {path : List Bytes} (more : Bytes) {buf : Bytes}
    {d : Nat}
    (plain : ∀ name ∈ path, 47 ∉ name) (whole : buf = before ++ 47 :: segments path ++ more)
    (here : d = (before ++ 47 :: segments path).length) :
    backToSlash buf before.length
        (if before.length + 1 < d ∧ buf.getD (d - 1) 0 = 47 then d - 1 else d) =
      (before ++ 47 :: segments path.dropLast).length := by
  rcases List.eq_nil_or_concat path with rfl | ⟨init, name, rfl⟩
  · have root : d = (before ++ [47] ++ []).length := by rw [here]; simp [segments]
    rw [if_neg (by simp [root]), root, whole]
    have kept := @backToSlash_name before [] more before.length (Nat.le_refl _) List.not_mem_nil
    simpa [segments] using kept
  · obtain ⟨front, ends, start⟩ := front_slash before init
    rw [List.concat_eq_append] at *
    have text : before ++ 47 :: segments (init ++ [name]) = front ++ [47] ++ name ++ [47] := by
      rw [segments_concat, ← ends]
      simp
    have last : d = (front ++ [47] ++ name).length + 1 := by
      rw [here, text]
      simp [Nat.add_assoc]
    have slash : buf.getD (d - 1) 0 = 47 := by
      rw [last, whole, text, Nat.add_sub_cancel, List.append_assoc _ [47]]
      exact getD_behind _ _ _
    have long : before.length + 1 < d := by
      rw [last]
      simp only [List.length_append, List.length_singleton]
      omega
    rw [if_pos ⟨long, slash⟩, last, Nat.add_sub_cancel, whole, text, List.append_assoc _ [47]]
    rw [List.dropLast_concat, ends]
    exact backToSlash_name _ start (plain name (by simp))

/-! ## The loop -/

/-- What a component leaves of the path in front of it. -/
def normalizeStep (before front chunk name : Bytes) (path : List Bytes) : Bytes :=
  if name = [46] then front
  else if name = [46, 46] then before ++ 47 :: segments path.dropLast
  else front ++ chunk

/-- The component at the front of what is left. -/
theorem parseUriComponent_name {front name tail behind buf : Bytes} {s se : Nat}
    (whole : buf = front ++ (name ++ tail) ++ behind) (plain : 47 ∉ name)
    (slash : ∀ byte ∈ tail.head?, byte = 47) (here : s = front.length)
    (stop : se = s + (name ++ tail).length) :
    (parseUriComponent buf s se 47).1 = ⟨some s, name.length⟩ ∧
      (parseUriComponent buf s se 47).1.slice buf = name ∧
      (parseUriComponent buf s se 47).2 = s + (name ++ tail.take 1).length := by
  have split : (buf.take se).drop s = name ++ tail := by
    rw [whole, stop, here, ← List.length_append, List.take_left, List.drop_left]
  have found : scanTo buf (· == 47) s se = s + name.length := by
    refine scanTo_word split (fun byte mem => ?_) fun byte first => by simp [slash byte first]
    simp only [beq_eq_false_iff_ne, ne_eq]
    exact fun sign => plain (sign ▸ mem)
  have component : (parseUriComponent buf s se 47).1 = ⟨some s, name.length⟩ := by
    rw [parseUriComponent, found, Nat.add_sub_cancel_left]
  refine ⟨component, ?_, ?_⟩
  · rw [component]
    exact slice_word split
  · rw [parseUriComponent, found]
    show (if s + name.length < se then s + name.length + 1 else s + name.length) = _
    rw [stop]
    cases tail with
    | nil => simp
    | cons byte tail => simp [Nat.add_assoc]

/-- The parent of a path is a part of it. -/
theorem parent_prefix (before : Bytes) (path : List Bytes) :
    ∃ removed,
      before ++ 47 :: segments path = before ++ 47 :: segments path.dropLast ++ removed := by
  rcases List.eq_nil_or_concat path with rfl | ⟨init, name, rfl⟩
  · exact ⟨[], (List.append_nil _).symm⟩
  · refine ⟨name ++ [47], ?_⟩
    rw [List.concat_eq_append, segments_concat, List.dropLast_concat]
    simp

/-- Moving a part of a block to the left leaves what is behind it. -/
theorem memmove_over (front gap chunk rest : Bytes) :
    memmove (front ++ gap ++ chunk ++ rest) front.length (front.length + gap.length) chunk.length =
      front ++ chunk ++ (gap ++ chunk).drop chunk.length ++ rest := by
  have behind : (front ++ gap ++ chunk ++ rest).drop (front.length + chunk.length) =
      (gap ++ chunk).drop chunk.length ++ rest := by
    rw [List.append_assoc front, List.append_assoc front, ← List.drop_drop, List.drop_left,
      List.drop_append_of_le_length (by simp)]
  rw [memmove_left, behind, ← List.append_assoc]

/-- One pass of the loop. -/
theorem normalizeLoop_step {before front gap name tail behind buf : Bytes} {path : List Bytes}
    {se s d : Nat} (whole : buf = front ++ gap ++ (name ++ tail) ++ behind)
    (start : front = before ++ 47 :: segments path) (inside : ∀ name ∈ path, 47 ∉ name)
    (plain : 47 ∉ name) (slash : ∀ byte ∈ tail.head?, byte = 47) (more : name ++ tail ≠ [])
    (there : d = front.length) (here : s = d + gap.length) (stop : se = s + (name ++ tail).length) :
    ∃ gap', (normalizeStep before front (name ++ tail.take 1) name path ++ gap').length =
        (front ++ gap ++ (name ++ tail.take 1)).length ∧
      normalizeLoop buf before.length se s d =
        normalizeLoop (normalizeStep before front (name ++ tail.take 1) name path ++ gap' ++
          tail.drop 1 ++ behind) before.length se (s + (name ++ tail.take 1).length)
          (normalizeStep before front (name ++ tail.take 1) name path).length := by
  have place : s = (front ++ gap).length := by rw [here, there, List.length_append]
  obtain ⟨-, component, next⟩ := parseUriComponent_name whole plain slash place stop
  have room : s < se := by
    have := List.length_pos_iff.mpr more
    omega
  have chunk : name ++ tail.take 1 ++ tail.drop 1 = name ++ tail := by
    rw [List.append_assoc, List.take_append_drop]
  rw [normalizeLoop, dif_pos room]
  show ∃ gap', _ ∧ (if (parseUriComponent buf s se 47).1.slice buf = [46] then _ else _) = _
  rw [component, next]
  unfold normalizeStep
  by_cases self : name = [46]
  · simp only [if_pos self]
    refine ⟨gap ++ (name ++ tail.take 1), by simp, ?_⟩
    rw [← there, whole, ← chunk]
    simp
  · simp only [if_neg self]
    by_cases parent : name = [46, 46]
    · simp only [if_pos parent]
      obtain ⟨removed, kept⟩ := parent_prefix before path
      have layout : buf = before ++ 47 :: segments path ++ (gap ++ (name ++ tail) ++ behind) := by
        rw [whole, start]
        simp only [List.append_assoc]
      have back := backToSlash_parent before _ inside layout (there.trans (by rw [start]))
      refine ⟨removed ++ gap ++ (name ++ tail.take 1), ?_, ?_⟩
      · rw [start, kept]
        simp only [List.append_assoc]
      · have same : buf = before ++ 47 :: segments path.dropLast ++
            (removed ++ gap ++ (name ++ tail.take 1)) ++ tail.drop 1 ++ behind := by
          rw [whole, start, kept, ← chunk]
          simp only [List.append_assoc]
        rw [back, ← same]
    · simp only [if_neg parent]
      have moved := memmove_over front gap (name ++ tail.take 1) (tail.drop 1 ++ behind)
      refine ⟨(gap ++ (name ++ tail.take 1)).drop (name ++ tail.take 1).length, ?_, ?_⟩
      · simp only [List.length_append, List.length_drop]
        omega
      · have same : buf = front ++ gap ++ (name ++ tail.take 1) ++ (tail.drop 1 ++ behind) := by
          rw [whole, ← chunk]
          simp only [List.append_assoc]
        have length :
            d + (name ++ tail.take 1).length = (front ++ (name ++ tail.take 1)).length := by
          rw [there]
          exact List.length_append.symm
        rw [Nat.add_sub_cancel_left, length, here, there, same, moved]
        simp only [List.append_assoc]

/-- A component in front of a slash is followed. -/
theorem normalizeStep_slash (before name : Bytes) (path : List Bytes) :
    normalizeStep before (before ++ 47 :: segments path) (name ++ [47]) name path =
      before ++ 47 :: segments (resolveName [46] [46, 46] path name) := by
  unfold normalizeStep resolveName
  by_cases self : name = [46]
  · rw [if_pos self, if_pos self]
  · rw [if_neg self, if_neg self]
    by_cases parent : name = [46, 46]
    · rw [if_pos parent, if_pos parent]
    · rw [if_neg parent, if_neg parent, segments_concat]
      simp

/-- The last component leaves the whole path. -/
theorem normalizeStep_last (before name : Bytes) (path : List Bytes) :
    normalizeStep before (before ++ 47 :: segments path) name name path =
      before ++ 47 :: [47].intercalate (normalForm [46] [46, 46] [] path [name]) := by
  have follow : normalForm [46] [46, 46] [] path [name] = resolveName [46] [46, 46] path name ++
      if name = [46] ∨ name = [46, 46] then [[]] else [] := by
    simp [normalForm, resolve]
  rw [follow]
  unfold normalizeStep resolveName
  by_cases self : name = [46]
  · rw [if_pos self, if_pos self, if_pos (.inl self), intercalate_concat, List.append_nil]
  · rw [if_neg self, if_neg self]
    by_cases parent : name = [46, 46]
    · rw [if_pos parent, if_pos parent, if_pos (.inr parent), intercalate_concat, List.append_nil]
    · rw [if_neg parent, if_neg parent, if_neg (by simp [self, parent]), List.append_nil,
        intercalate_concat]
      simp

/-- The loop leaves the path that the segments lead to. -/
theorem normalizeLoop_eq {before gap behind buf : Bytes} {path names : List Bytes} {se s d : Nat}
    (some_name : names ≠ [])
    (whole : buf = before ++ 47 :: segments path ++ gap ++ [47].intercalate names ++ behind)
    (inside : ∀ name ∈ path, 47 ∉ name) (plain : ∀ name ∈ names, 47 ∉ name)
    (there : d = (before ++ 47 :: segments path).length) (here : s = d + gap.length)
    (stop : se = s + ([47].intercalate names).length) :
    ∃ gap', (before ++ 47 :: [47].intercalate (normalForm [46] [46, 46] [] path names) ++ gap' ++
        behind).length = buf.length ∧
      normalizeLoop buf before.length se s d =
        (before ++ 47 :: [47].intercalate (normalForm [46] [46, 46] [] path names) ++ gap' ++
          behind,
          (before ++ 47 :: [47].intercalate (normalForm [46] [46, 46] [] path names)).length) := by
  induction names generalizing path gap buf s d with
  | nil => exact absurd rfl some_name
  | cons name names ih =>
    have free := plain name List.mem_cons_self
    cases names with
    | nil =>
      have text : [47].intercalate [name] = name ++ [] := by simp
      rw [text] at whole stop
      by_cases last : name ++ [] = []
      · have final := normalizeStep_last before name path
        have empty : name = [] := by simpa using last
        rw [empty] at final ⊢
        rw [← final]
        refine ⟨gap, by rw [whole, empty]; simp [normalizeStep], ?_⟩
        rw [normalizeLoop, dif_neg (by rw [stop, last]; simp), whole, empty, there]
        simp [normalizeStep]
      · obtain ⟨gap', length, next⟩ := normalizeLoop_step whole rfl inside free (by simp) last there
          here stop
        rw [List.take_nil, List.drop_nil, List.append_nil, List.append_nil,
          normalizeStep_last] at next
        rw [List.take_nil, List.append_nil, normalizeStep_last] at length
        refine ⟨gap', ?_, ?_⟩
        · rw [List.length_append, length, ← List.length_append, whole, List.append_nil]
        · rw [next, normalizeLoop, dif_neg (by rw [stop]; simp)]
    | cons second names =>
      have text : [47].intercalate (name :: second :: names) =
          name ++ 47 :: [47].intercalate (second :: names) := by
        rw [List.intercalate_cons_cons]
        simp
      rw [text] at whole stop
      obtain ⟨gap', length, next⟩ := normalizeLoop_step whole rfl inside free (by simp) (by simp)
        there here stop
      rw [List.take_succ_cons, List.take_zero, List.drop_succ_cons, List.drop_zero,
        normalizeStep_slash] at next
      rw [List.take_succ_cons, List.take_zero, normalizeStep_slash] at length
      rw [normalForm_cons (by simp), next]
      have followed : ∀ other ∈ resolveName [46] [46, 46] path name, 47 ∉ other := by
        intro other mem
        rcases mem_resolveName mem with before | ⟨rfl, -⟩
        · exact inside other before
        · exact free
      have size : se = s + (name ++ [47]).length + ([47].intercalate (second :: names)).length := by
        rw [stop]
        simp only [List.length_append, List.length_cons, List.length_nil]
        omega
      have place : s + (name ++ [47]).length =
          (before ++ 47 :: segments (resolveName [46] [46, 46] path name)).length +
            gap'.length := by
        rw [← List.length_append, length, here, there]
        simp only [List.length_append]
      obtain ⟨final, same, done⟩ := ih (by simp) rfl followed
        (fun other mem => plain other (List.mem_cons_of_mem name mem)) rfl place size
      refine ⟨final, ?_, done⟩
      rw [same, List.length_append, List.length_append, length, whole]
      simp only [List.length_append, List.length_cons, List.length_nil]
      omega

/-! ## Normal paths -/

/-- The normal form of the path behind its first slash. -/
def normalPath (path : Bytes) : Bytes :=
  [47].intercalate (normalForm [46] [46, 46] [] [] (path.splitOn 47))

/-- The names of a normal path. -/
theorem splitOn_normalPath (path : Bytes) :
    (normalPath path).splitOn 47 = normalForm [46] [46, 46] [] [] (path.splitOn 47) := by
  apply List.splitOn_intercalate
  · intro name mem
    rcases List.mem_append.mp mem with inside | last
    · rcases mem_resolve inside with nothing | ⟨there, -⟩
      · exact absurd nothing List.not_mem_nil
      · exact fun slash => (mem_splitOn there slash).2 rfl
    · split_ifs at last
      · rw [List.mem_singleton.mp last]
        exact List.not_mem_nil
      · exact absurd last List.not_mem_nil
  · exact normalForm_ne_nil (List.splitOn_ne_nil 47 path)

/-- The loop passes over the first slash. -/
theorem normalizeLoop_root (before path behind : Bytes) {se : Nat}
    (stop : se = before.length + (path.length + 1)) :
    normalizeLoop (before ++ 47 :: path ++ behind) before.length se before.length before.length =
      normalizeLoop (before ++ 47 :: path ++ behind) before.length se (before.length + 1)
        (before.length + 1) := by
  have whole : before ++ 47 :: path ++ behind = before ++ ([] ++ 47 :: path) ++ behind := rfl
  obtain ⟨-, component, next⟩ := parseUriComponent_name whole List.not_mem_nil
    (fun byte first => by simpa using first.symm) rfl stop
  have moved : memmove (before ++ 47 :: path ++ behind) before.length before.length 1 =
      before ++ 47 :: path ++ behind := by
    have kept := memmove_over before [] [47] (path ++ behind)
    simpa using kept
  have one : ([] ++ (47 :: path).take 1).length = 1 := rfl
  rw [normalizeLoop, dif_pos (by omega)]
  show (if (parseUriComponent _ _ _ 47).1.slice _ = [46] then _ else _) = _
  rw [component, next, if_neg (by simp), if_neg (by simp), one, Nat.add_sub_cancel_left, moved]

/-- `mg_normalize_uri_path` leaves the normal form of the path, in the bytes of the path. -/
theorem mgNormalizeUriPath_eq (before path behind : Bytes) :
    ∃ gap, (normalPath path ++ gap).length = path.length ∧
      mgNormalizeUriPath (before ++ 47 :: path ++ behind) ⟨some before.length, path.length + 1⟩ =
        (1, before ++ 47 :: normalPath path ++ gap ++ behind,
          ⟨some before.length, (normalPath path).length + 1⟩) := by
  have text : [47].intercalate (path.splitOn 47) = path := List.intercalate_splitOn 47
  have plain : ∀ name ∈ path.splitOn 47, 47 ∉ name :=
    fun name mem slash => (mem_splitOn mem slash).2 rfl
  have whole : before ++ 47 :: path ++ behind =
      before ++ 47 :: segments [] ++ [] ++ [47].intercalate (path.splitOn 47) ++ behind := by
    rw [text]
    simp [segments]
  have stop : before.length + (path.length + 1) =
      before.length + 1 + ([47].intercalate (path.splitOn 47)).length := by
    rw [text]
    omega
  have root : before.length + 1 = (before ++ 47 :: segments []).length := by simp [segments]
  obtain ⟨gap, length, done⟩ := normalizeLoop_eq (List.splitOn_ne_nil 47 path) whole
    (fun name mem => absurd mem List.not_mem_nil) plain root rfl stop
  refine ⟨gap, ?_, ?_⟩
  · simp only [List.length_append, List.length_cons] at length
    show (([47] : Bytes).intercalate (normalForm [46] [46, 46] [] [] (path.splitOn 47)) ++
      gap).length = _
    rw [List.length_append]
    omega
  · have past : (before ++ 47 :: normalPath path).length ≠ before.length := by simp
    have size : (before ++ 47 :: normalPath path).length - before.length =
        (normalPath path).length + 1 := by simp
    have present : ¬(path.length + 1 = 0 ∨
        (before ++ 47 :: path ++ behind).getD before.length 0 ≠ 47) := by simp
    have run : normalizeLoop (before ++ 47 :: path ++ behind) before.length
        (before.length + (path.length + 1)) before.length before.length =
          (before ++ 47 :: normalPath path ++ gap ++ behind,
            (before ++ 47 :: normalPath path).length) :=
      (normalizeLoop_root before path behind rfl).trans done
    simp only [mgNormalizeUriPath, Option.getD_some, if_neg present, run, if_neg past, size]

/-- `mg_normalize_uri_path` leaves the normal form of a path, which has no dot segments, and doing
it again changes nothing. -/
theorem mgNormalizeUriPath_normal (before path behind : Bytes) :
    (∀ name ∈ (normalPath path).splitOn 47, name ≠ [46] ∧ name ≠ [46, 46]) ∧
      ∃ gap, (normalPath path ++ gap).length = path.length ∧
        mgNormalizeUriPath (before ++ 47 :: path ++ behind) ⟨some before.length, path.length + 1⟩ =
          (1, before ++ 47 :: normalPath path ++ gap ++ behind,
            ⟨some before.length, (normalPath path).length + 1⟩) ∧
        mgNormalizeUriPath (before ++ 47 :: normalPath path ++ gap ++ behind)
            ⟨some before.length, (normalPath path).length + 1⟩ =
          (1, before ++ 47 :: normalPath path ++ gap ++ behind,
            ⟨some before.length, (normalPath path).length + 1⟩) := by
  obtain ⟨gap, length, done⟩ := mgNormalizeUriPath_eq before path behind
  obtain ⟨more, none_left, again⟩ := mgNormalizeUriPath_eq before (normalPath path) (gap ++ behind)
  have same : normalPath (normalPath path) = normalPath path := by
    rw [normalPath, splitOn_normalPath, normalForm_normalForm (by decide), ← normalPath]
  have nothing : more = [] := by
    rw [same, List.length_append] at none_left
    exact List.length_eq_zero_iff.mp (by omega)
  refine ⟨?_, gap, length, done, ?_⟩
  · intro name mem
    rw [splitOn_normalPath] at mem
    exact mem_normalForm (by decide) mem
  · rw [same, nothing, List.append_nil, ← List.append_assoc] at again
    exact again

end CppCode.Mongoose
