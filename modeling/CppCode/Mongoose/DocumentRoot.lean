import CppCode.Mongoose.RewriteRules

/-!
# The document root

Whatever a client requests, `mg_uri_to_local_path` stays in its block and finds a path in the
directory that the rules choose: the names that the components of the URI lead to, from the place on
that the rules choose (`mgUriToLocalPath_inside`).
-/

namespace CppCode.Mongoose

open Library

/-! ## Decoding in place -/

/-- A byte is stored in front of what is not read yet. -/
theorem store_next {front out gap taken rest behind buf : Bytes} {j : Nat}
    (whole : buf = front ++ out ++ gap ++ (taken ++ rest) ++ behind) (written : j = out.length)
    (some_byte : gap ++ taken ≠ []) (byte : UInt8) :
    (store buf (front.length + j) [byte]).length = buf.length ∧
      ∃ gap', gap'.length + 1 = gap.length + taken.length ∧
        store buf (front.length + j) [byte] =
          front ++ (out ++ [byte]) ++ gap' ++ rest ++ behind := by
  obtain ⟨old, gap', split⟩ := List.exists_cons_of_ne_nil some_byte
  have count := congrArg List.length split
  rw [List.length_append, List.length_cons] at count
  have bytes : buf = front ++ out ++ [old] ++ (gap' ++ rest ++ behind) := by
    rw [whole]
    have same := congrArg (front ++ out ++ · ++ rest ++ behind) split
    simpa using same
  have stored := @store_middle (front ++ out) [old] [byte] (gap' ++ rest ++ behind) rfl
  rw [written, ← List.length_append, bytes, stored]
  exact ⟨by simp, gap', count.symm, by simp⟩

/-- A byte that is not read yet. -/
theorem getD_rest {front out gap rest behind buf : Bytes} {i j : Nat}
    (whole : buf = front ++ out ++ gap ++ rest ++ behind) (written : j = out.length)
    (read : i = j + gap.length) (k : Nat) :
    buf.getD (front.length + i + k) 0 = (rest ++ behind).getD k 0 := by
  have place : front.length + i + k = (front ++ out ++ gap).length + k := by
    simp only [List.length_append]
    omega
  rw [place, whole, List.append_assoc _ rest, List.getD_eq_getElem?_getD,
    List.getElem?_append_right (Nat.le_add_right _ _), Nat.add_sub_cancel_left,
    ← List.getD_eq_getElem?_getD]

/-- What is decoded of a text behind `out`: the bytes, and a NUL behind them. -/
def DecodedAt (form : Bool) (front out rest : Bytes) (size : Nat) (result : Int × Bytes) : Prop :=
  result.2.length = size ∧ ∃ slack, result =
    (percentDecode form rest).elim (-1, front ++ slack) fun text =>
      (((out ++ text).length : Int), front ++ (out ++ text) ++ 0 :: slack)

/-- Decoding goes on behind the first byte. -/
theorem DecodedAt.cons {form : Bool} {front out rest more : Bytes} {size : Nat} {byte : UInt8}
    {result : Int × Bytes} (decoded : DecodedAt form front (out ++ [byte]) rest size result)
    (first : percentDecode form more = (percentDecode form rest).map (byte :: ·)) :
    DecodedAt form front out more size result := by
  obtain ⟨length, slack, same⟩ := decoded
  refine ⟨length, slack, ?_⟩
  rw [same, first]
  cases percentDecode form rest with
  | none => rfl
  | some text => simp

/-- Decoding in place writes the text in front of what it still reads. -/
theorem urlDecodeAt_spec {form : Bool} {srcLen dstLen i j : Nat}
    {front out gap rest behind buf : Bytes} (whole : buf = front ++ out ++ gap ++ rest ++ behind)
    (written : j = out.length) (read : i = j + gap.length) (size : srcLen = i + rest.length)
    (room : srcLen < dstLen) (spare : behind ≠ []) :
    DecodedAt form front out rest buf.length
      (urlDecodeAt form front.length srcLen dstLen buf i j) := by
  fun_induction urlDecodeAt form front.length srcLen dstLen buf i j generalizing out gap rest with
  | case1 buf i j inside sign digits ih =>
    have here := getD_rest whole written read
    match rest with
    | [] => simp only [List.length_nil] at size; omega
    | [_] => simp only [List.length_cons, List.length_nil] at size; omega
    | [_, _] => simp only [List.length_cons, List.length_nil] at size; omega
    | byte :: first :: second :: rest =>
      have zero : buf.getD (front.length + i) 0 = byte := here 0
      have one : buf.getD (front.length + i + 1) 0 = first := here 1
      have two : buf.getD (front.length + i + 2) 0 = second := here 2
      rw [zero] at sign
      rw [one, two] at digits ih ⊢
      obtain ⟨same, gap', count, stored⟩ := @store_next front out gap [byte, first, second] rest
        behind buf j whole written (by simp)
        (hextoi (tolower first) <<< 4 ||| hextoi (tolower second))
      simp only [List.length_cons, List.length_nil] at size count
      have next := ih stored (by simp [written]) (by omega) (by omega)
      rw [same] at next
      apply next.cons
      rw [sign, percentDecode_digits, if_pos (by simp [digits.2])]
  | case2 buf i j inside sign noDigits =>
    have here := getD_rest whole written read
    refine ⟨rfl, out ++ gap ++ rest ++ behind, ?_⟩
    have bad : percentDecode form rest = none := by
      match rest with
      | [] => simp only [List.length_nil] at size; omega
      | byte :: rest =>
        have zero : buf.getD (front.length + i) 0 = byte := here 0
        rw [zero] at sign
        rw [sign]
        match rest with
        | [] => exact percentDecode_short form Nat.zero_lt_two
        | [_] => exact percentDecode_short form Nat.one_lt_two
        | first :: second :: rest =>
          have one : buf.getD (front.length + i + 1) 0 = first := here 1
          have two : buf.getD (front.length + i + 2) 0 = second := here 2
          simp only [List.length_cons] at size
          rw [percentDecode_digits, if_neg]
          intro digits
          rw [Bool.and_eq_true] at digits
          exact noDigits ⟨by omega, by rw [one]; exact digits.1, by rw [two]; exact digits.2⟩
    rw [bad, whole]
    simp
  | case3 buf i j inside sign plus ih =>
    have here := getD_rest whole written read
    match rest with
    | [] => simp only [List.length_nil] at size; omega
    | byte :: rest =>
      have first : buf.getD (front.length + i) 0 = byte := here 0
      rw [first] at sign plus
      obtain ⟨same, gap', count, stored⟩ := @store_next front out gap [byte] rest behind buf j whole
        written (by simp) 32
      simp only [List.length_cons, List.length_nil] at size count
      have next := ih stored (by simp [written]) (by omega) (by omega)
      rw [same] at next
      apply next.cons
      rw [percentDecode_cons sign, plainValue, if_pos plus]
  | case4 buf i j inside sign plain ih =>
    have here := getD_rest whole written read
    match rest with
    | [] => simp only [List.length_nil] at size; omega
    | byte :: rest =>
      have first : buf.getD (front.length + i) 0 = byte := here 0
      rw [first] at sign plain ih ⊢
      obtain ⟨same, gap', count, stored⟩ := @store_next front out gap [byte] rest behind buf j whole
        written (by simp) byte
      simp only [List.length_cons, List.length_nil] at size count
      have next := ih stored (by simp [written]) (by omega) (by omega)
      rw [same] at next
      apply next.cons
      rw [percentDecode_cons sign, plainValue, if_neg plain]
  | case5 buf i j past =>
    have nothing : rest = [] := List.length_eq_zero_iff.mp (by omega)
    have last : srcLen ≤ i := by
      rw [nothing, List.length_nil] at size
      omega
    obtain ⟨same, slack, count, stored⟩ := @store_next front out gap behind [] [] buf j
      (by rw [whole, nothing]; simp) written (by simp [spare]) 0
    refine ⟨same, slack, ?_⟩
    rw [if_pos last, stored, nothing, written]
    simp [percentDecode]

/-! ## The names of a path -/

/-- The text of names below a directory. -/
def pathText (dirsep : UInt8) (names : List Bytes) : Bytes := names.flatMap (dirsep :: ·)

theorem pathText_concat (dirsep : UInt8) (names : List Bytes) (name : Bytes) :
    pathText dirsep (names ++ [name]) = pathText dirsep names ++ dirsep :: name := by
  simp [pathText]

/-- A name of a file or a directory inside of another. -/
def FileSystem.Inside (fs : FileSystem) (name : Bytes) : Prop :=
  name ≠ [] ∧ name ≠ [46] ∧ name ≠ [46, 46] ∧ ∀ byte ∈ name, fs.allows byte = true

/-- The components of a URI that are not empty. -/
def components (text : Bytes) : List Bytes := (text.splitOn 47).filter (· ≠ [])

/-- The names that the components of a URI lead to, when they are decoded and followed. -/
def Follows (names names' : List Bytes) (text : Bytes) : Prop :=
  ∃ decoded, (components text).mapM (percentDecode false) = some decoded ∧
    names' = resolve [46] [46, 46] names decoded

theorem Follows.nil (names : List Bytes) : Follows names names [] := ⟨[], rfl, rfl⟩

/-- Following goes on behind a slash. -/
theorem Follows.append {names names' names'' : List Bytes} {name rest : Bytes}
    (first : Follows names names' name) (second : Follows names' names'' rest) :
    Follows names names'' (name ++ 47 :: rest) := by
  obtain ⟨decoded, here, rfl⟩ := first
  obtain ⟨more, there, rfl⟩ := second
  refine ⟨decoded ++ more, ?_, ?_⟩
  · rw [components, List.splitOn_append_cons_self, List.filter_append, List.mapM_append]
    rw [components] at here there
    rw [here, there]
    rfl
  · simp [resolve]

/-- An empty component leads nowhere. -/
theorem Follows.of_nil {names names' : List Bytes} (followed : Follows names names' []) :
    names' = names := by
  obtain ⟨decoded, here, rfl⟩ := followed
  obtain rfl : decoded = [] := by simpa [components] using here.symm
  rfl

/-- One component. -/
theorem Follows.single {names : List Bytes} {raw text : Bytes} (present : raw ≠ [])
    (plain : 47 ∉ raw) (decoded : percentDecode false raw = some text) :
    Follows names (resolveName [46] [46, 46] names text) raw := by
  refine ⟨[text], ?_, rfl⟩
  rw [components, List.splitOn_eq_singleton plain]
  simp [present, decoded]

/-! ## The block -/

/-- The block holds the path of these names below a directory. -/
structure Following (fs : FileSystem) (stem lp : Bytes) (p : Nat) (names : List Bytes) : Prop where
  /-- The path is a C string at the front of the block. -/
  memory : ∃ slack, lp = stem ++ pathText fs.dirsep names ++ 0 :: slack
  /-- `p` is at its end. -/
  place : p = (stem ++ pathText fs.dirsep names).length
  /-- The names lead into the directory. -/
  inside : ∀ name ∈ names, fs.Inside name

/-- The separator is no NUL. -/
theorem FileSystem.dirsep_ne (fs : FileSystem) : fs.dirsep ≠ 0 := by
  unfold FileSystem.dirsep
  by_cases windows : fs.wchar.isSome
  · simp [windows]
  · simp [windows]

/-- No name has a NUL. -/
theorem FileSystem.nul_not_mem {fs : FileSystem} {names : List Bytes}
    (inside : ∀ name ∈ names, fs.Inside name) : 0 ∉ pathText fs.dirsep names := by
  intro mem
  obtain ⟨name, there, nul⟩ := List.mem_flatMap.mp mem
  rcases List.mem_cons.mp nul with sep | here
  · exact fs.dirsep_ne sep.symm
  · have allowed := (inside name there).2.2.2 0 here
    simp [FileSystem.allows] at allowed

/-- The path that the system sees. -/
theorem Following.seen {fs : FileSystem} {stem lp : Bytes} {p : Nat} {names : List Bytes}
    (following : Following fs stem lp p names) (plain : 0 ∉ stem) :
    pathString lp = stem ++ pathText fs.dirsep names := by
  obtain ⟨slack, memory⟩ := following.memory
  have free : 0 ∉ stem ++ pathText fs.dirsep names := by
    simp [plain, FileSystem.nul_not_mem following.inside]
  rw [memory, pathString, List.takeWhile_append_of_pos, List.takeWhile_cons_of_neg (by simp),
    List.append_nil]
  intro byte mem
  exact decide_eq_true fun nul => free (nul ▸ mem)

/-- The names do not have a separator. -/
theorem FileSystem.Inside.dirsep {fs : FileSystem} {name : Bytes} (inside : fs.Inside name) :
    fs.dirsep ∉ name := by
  intro mem
  have allowed := inside.2.2.2 _ mem
  simp [FileSystem.allows] at allowed

/-- Going back does not leave the path. -/
theorem backToSep_le (buf : Bytes) (dirsep : UInt8) (ps p : Nat) :
    backToSep buf dirsep ps p ≤ p := by
  induction p with
  | zero => exact Nat.le_refl 0
  | succ p ih =>
    rw [backToSep]
    split
    · omega
    · exact Nat.le_refl _

/-- Going back over the end of a name ends at its separator. -/
theorem backToSep_name {front name : Bytes} {dirsep : UInt8} (more : Bytes) {ps : Nat}
    (start : ps ≤ front.length) (plain : dirsep ∉ name) :
    backToSep (front ++ dirsep :: name ++ more) dirsep ps (front ++ name).length =
      front.length := by
  induction name using List.reverseRecOn generalizing more with
  | nil =>
    rw [List.append_nil]
    cases here : front.length with
    | zero => rfl
    | succ length =>
      have sep := getD_behind front more dirsep
      rw [here] at sep
      rw [backToSep, if_neg]
      intro halt
      exact halt.2 (by simpa using sep)
  | append_singleton name byte ih =>
    have last := getD_behind (front ++ dirsep :: name) more byte
    have other : byte ≠ dirsep := fun sep => plain (by simp [sep])
    have shorter : dirsep ∉ name := fun mem => plain (List.mem_append_left _ mem)
    have here : (front ++ (name ++ [byte])).length = (front ++ name).length + 1 := by
      simp [Nat.add_assoc]
    have place : (front ++ dirsep :: name).length = (front ++ name).length + 1 := by
      simp [Nat.add_assoc]
    have long : ps < (front ++ name).length + 1 := by
      rw [List.length_append]
      omega
    have bytes : front ++ dirsep :: (name ++ [byte]) ++ more =
        front ++ dirsep :: name ++ byte :: more := by simp
    rw [place] at last
    rw [here, bytes, backToSep, if_pos ⟨long, by rw [last]; exact other⟩]
    exact ih (byte :: more) shorter

/-- Going back from a path leads to its parent. -/
theorem Following.parent {fs : FileSystem} {stem lp : Bytes} {p : Nat} {names : List Bytes}
    (following : Following fs stem lp p names) :
    Following fs stem (store lp (backToSep lp fs.dirsep stem.length p) [0])
      (backToSep lp fs.dirsep stem.length p) names.dropLast := by
  obtain ⟨slack, memory⟩ := following.memory
  have place := following.place
  rcases List.eq_nil_or_concat names with rfl | ⟨init, name, rfl⟩
  · have root : p = stem.length := by simpa [pathText] using place
    have stays : backToSep lp fs.dirsep stem.length p = stem.length := by
      rw [root]
      cases stem.length with
      | zero => rfl
      | succ length => rw [backToSep, if_neg (fun halt => absurd halt.1 (Nat.lt_irrefl _))]
    have whole : lp = stem ++ [0] ++ slack := by simpa [pathText] using memory
    have stored := @store_middle stem [0] [0] slack rfl
    refine ⟨⟨slack, ?_⟩, ?_, fun _ mem => absurd mem List.not_mem_nil⟩
    · rw [stays, whole, stored]
      simp [pathText]
    · rw [stays]
      simp [pathText]
  · rw [List.concat_eq_append] at *
    rw [pathText_concat, ← List.append_assoc] at memory place
    have inside := following.inside name (by simp)
    have start : stem.length ≤ (stem ++ pathText fs.dirsep init).length := by simp
    generalize front_eq : stem ++ pathText fs.dirsep init = front at memory place start
    have nul := getD_behind (front ++ fs.dirsep :: name) slack 0
    have length : (front ++ fs.dirsep :: name).length = (front ++ name).length + 1 := by
      simp [Nat.add_assoc]
    have back : backToSep lp fs.dirsep stem.length p = front.length := by
      rw [length] at place nul
      have long : stem.length < (front ++ name).length + 1 := by
        rw [List.length_append]
        omega
      have other : (front ++ fs.dirsep :: name ++ 0 :: slack).getD ((front ++ name).length + 1) 0 ≠
          fs.dirsep := by
        rw [nul]
        exact fs.dirsep_ne.symm
      rw [place, memory, backToSep, if_pos ⟨long, other⟩]
      exact backToSep_name (0 :: slack) start inside.dirsep
    have whole : lp = front ++ [fs.dirsep] ++ (name ++ 0 :: slack) := by
      rw [memory]
      simp
    have stored := @store_middle front [fs.dirsep] [0] (name ++ 0 :: slack) rfl
    rw [List.dropLast_concat]
    refine ⟨⟨name ++ 0 :: slack, ?_⟩, ?_, fun other mem => following.inside other (by simp [mem])⟩
    · rw [back, whole, stored, front_eq]
      simp
    · rw [back, front_eq]

/-- Bytes that are written behind the path leave it. -/
theorem Following.behind {fs : FileSystem} {stem lp : Bytes} {p : Nat} {names : List Bytes}
    (following : Following fs stem lp p names) (bytes : Bytes) :
    lp.take (p + 1) ++ bytes = stem ++ pathText fs.dirsep names ++ 0 :: bytes ∧
      Following fs stem (lp.take (p + 1) ++ bytes) p names := by
  obtain ⟨slack, memory⟩ := following.memory
  have split : lp = stem ++ pathText fs.dirsep names ++ [0] ++ slack := by
    rw [memory]
    simp
  have place : (stem ++ pathText fs.dirsep names ++ [0]).length = p + 1 := by
    rw [following.place, List.length_append]
    rfl
  have path : lp.take (p + 1) = stem ++ pathText fs.dirsep names ++ [0] := by
    rw [split]
    exact List.take_left' place
  have now : lp.take (p + 1) ++ bytes = stem ++ pathText fs.dirsep names ++ 0 :: bytes := by
    rw [path]
    simp
  exact ⟨now, ⟨bytes, now⟩, following.place, following.inside⟩

/-- A component that is copied leads to a child. -/
theorem Following.child {fs : FileSystem} {stem lp text slack : Bytes} {p : Nat}
    {names : List Bytes} (following : Following fs stem lp p names)
    (memory : lp = stem ++ pathText fs.dirsep names ++ 0 :: (text ++ 0 :: slack))
    (inside : fs.Inside text) :
    Following fs stem (store lp p [fs.dirsep]) (p + 1 + text.length) (names ++ [text]) := by
  have stored := @store_middle (stem ++ pathText fs.dirsep names) [0] [fs.dirsep]
    (text ++ 0 :: slack) rfl
  have whole : lp = stem ++ pathText fs.dirsep names ++ [0] ++ (text ++ 0 :: slack) := by
    rw [memory]
    simp
  refine ⟨⟨slack, ?_⟩, ?_, ?_⟩
  · rw [following.place, whole, stored, pathText_concat]
    simp
  · rw [following.place, pathText_concat]
    simp only [List.length_append, List.length_cons]
    omega
  · intro name mem
    rcases List.mem_append.mp mem with before | last
    · exact following.inside name before
    · rw [List.mem_singleton.mp last]
      exact inside

/-! ## The loop -/

/-- A component that is decoded behind the path. -/
theorem decoded_component {lp name : Bytes} {p : Nat} {decoded : Int × Bytes}
    (present : name ≠ []) (room : p + 1 + name.length < lp.length)
    (result : urlDecodeAt false (p + 1) name.length (lp.length - p - 1) (store lp (p + 1) name)
      0 0 = decoded) :
    decoded.2.length = lp.length ∧
      (decoded.1 ≤ 0 ∨ ∃ text slack, percentDecode false name = some text ∧ text ≠ [] ∧
        text.length ≤ name.length ∧ decoded.1 = (text.length : Int) ∧
        decoded.2 = lp.take (p + 1) ++ text ++ 0 :: slack) := by
  have front : (lp.take (p + 1)).length = p + 1 := List.length_take_of_le (by omega)
  have spare : lp.drop (p + 1 + name.length) ≠ [] := by
    intro nothing
    have := congrArg List.length nothing
    rw [List.length_drop, List.length_nil] at this
    omega
  have whole : store lp (p + 1) name =
      lp.take (p + 1) ++ [] ++ [] ++ name ++ lp.drop (p + 1 + name.length) := by
    simp [store]
  have size : (store lp (p + 1) name).length = lp.length := length_store (by omega)
  have done : DecodedAt false (lp.take (p + 1)) [] name (store lp (p + 1) name).length
      (urlDecodeAt false (lp.take (p + 1)).length name.length (lp.length - p - 1)
        (store lp (p + 1) name) 0 0) :=
    urlDecodeAt_spec whole rfl rfl (Nat.zero_add _).symm (by omega) spare
  rw [front, size, result] at done
  obtain ⟨length, slack, same⟩ := done
  refine ⟨length, ?_⟩
  cases decodes : percentDecode false name with
  | none =>
    rw [same, decodes]
    exact .inl (by simp)
  | some text =>
    obtain ⟨byte, rest, split⟩ := List.exists_cons_of_ne_nil present
    have some_byte : text ≠ [] := percentDecode_ne_nil (split ▸ decodes)
    rw [same, decodes]
    exact .inr ⟨text, slack, rfl, some_byte, percentDecode_length_le decodes, rfl, rfl⟩

/-- What a pass does with the component at the front of what is left: the loop stops and fails, or
it goes on, and where it followed names it follows this one. -/
theorem localPathLoop_pass {fs : FileSystem} {uri lp front name tail : Bytes} {ps p u : Nat}
    {exists_ ok : Bool} (whole : uri = front ++ (name ++ tail)) (here : u = front.length)
    (plain : 47 ∉ name) (slash : ∀ byte ∈ tail.head?, byte = 47) (more : name ++ tail ≠ [])
    (room : p + 1 + name.length < lp.length)
    (other : (if exists_ then fs.stat (pathString lp) else none) ≠ some true) :
    (∃ lp', localPathLoop fs uri ps lp p u exists_ ok = some (false, lp', u)) ∨
      ∃ lp' p' exists' ok', localPathLoop fs uri ps lp p u exists_ ok =
          localPathLoop fs uri ps lp' p' (u + (name ++ tail.take 1).length) exists' ok' ∧
        lp'.length = lp.length ∧ p' ≤ p + 1 + name.length ∧
        (ok' = true → ok = true ∧ ∀ stem names, ps = stem.length → Following fs stem lp p names →
          ∃ names', Following fs stem lp' p' names' ∧ Follows names names' name) := by
  have bytes : uri = front ++ (name ++ tail) ++ [] := by rw [whole, List.append_nil]
  have stop : uri.length = u + (name ++ tail).length := by
    rw [whole, here, List.length_append]
  obtain ⟨component, slice, next⟩ := parseUriComponent_name bytes plain slash here stop
  have inside : u < uri.length := by
    have := List.length_pos_iff.mpr more
    omega
  have unfolded := localPathLoop.eq_def fs uri ps lp p u exists_ ok
  rw [dif_pos (Nat.le_of_lt inside)] at unfolded
  dsimp only at unfolded
  rw [if_neg other, dif_pos inside, slice, component, next] at unfolded
  dsimp only at unfolded
  rw [unfolded]
  generalize (if exists_ then fs.stat (pathString lp) else none).isSome = exists'
  by_cases empty : name = []
  · rw [if_neg (by simp [empty])]
    refine .inr ⟨lp, p, exists', ok, rfl, rfl, by omega, fun fine => ⟨fine, ?_⟩⟩
    intro stem names _ following
    rw [empty]
    exact ⟨names, following, .nil names⟩
  · rw [if_pos (List.length_pos_iff.mpr empty), if_neg (by omega)]
    generalize result : urlDecodeAt false (p + 1) name.length (lp.length - p - 1)
      (store lp (p + 1) name) 0 0 = decoded
    obtain ⟨length, bad | ⟨text, slack, decodes, present, shorter, count, memory⟩⟩ :=
      decoded_component empty room result
    · rw [if_pos bad]
      exact .inl ⟨_, rfl⟩
    · have front : (lp.take (p + 1)).length = p + 1 := List.length_take_of_le (by omega)
      have taken : (decoded.2.drop (p + 1)).take decoded.1.toNat = text := by
        rw [memory, count, List.append_assoc, List.drop_left' front]
        simp
      have positive := List.length_pos_iff.mpr present
      -- What is decoded lies behind the path, and the path stays.
      have kept : ∀ stem names, Following fs stem lp p names →
          decoded.2 = stem ++ pathText fs.dirsep names ++ 0 :: (text ++ 0 :: slack) ∧
            Following fs stem decoded.2 p names := by
        intro stem names following
        rw [memory, List.append_assoc]
        exact following.behind (text ++ 0 :: slack)
      have going : ¬decoded.1 ≤ 0 := by omega
      rw [taken, if_neg going]
      clear unfolded
      by_cases self : text = [46]
      · rw [if_pos self]
        refine .inr ⟨_, p, exists', ok, rfl, length, by omega, fun fine => ⟨fine, ?_⟩⟩
        intro stem names _ following
        have followed := @Follows.single names _ _ empty plain decodes
        rw [resolveName, if_pos self] at followed
        exact ⟨names, (kept stem names following).2, followed⟩
      · rw [if_neg self]
        by_cases parent : text = [46, 46]
        · rw [if_pos parent]
          have back := backToSep_le decoded.2 fs.dirsep ps p
          refine .inr ⟨_, _, exists', ok, rfl, ?_, by omega, fun fine => ⟨fine, ?_⟩⟩
          · rw [length_store (by rw [List.length_singleton]; omega), length]
          · rintro stem names rfl following
            have followed := @Follows.single names _ _ empty plain decodes
            rw [resolveName, if_neg self, if_pos parent] at followed
            exact ⟨names.dropLast, (kept stem names following).2.parent, followed⟩
        · rw [if_neg parent]
          by_cases funny : ∃ wchar ∈ fs.wchar, wchar (pathString (decoded.2.drop (p + 1))) = false
          · rw [if_pos funny]
            exact .inl ⟨_, rfl⟩
          · rw [if_neg funny]
            have run := (List.takeWhile_prefix fs.allows (l := text)).length_le
            refine .inr ⟨_, _, exists', _, rfl, ?_, by omega, fun fine => ?_⟩
            · rw [length_store (by rw [List.length_singleton]; omega), length]
            · rw [Bool.and_eq_true] at fine
              refine ⟨fine.1, ?_⟩
              intro stem names _ following
              have allowed : ∀ byte ∈ text, fs.allows byte = true := List.all_eq_true.mp fine.2
              have whole_name : text.takeWhile fs.allows = text :=
                List.takeWhile_eq_self_iff.mpr allowed
              have followed := @Follows.single names _ _ empty plain decodes
              rw [resolveName, if_neg self, if_neg parent] at followed
              obtain ⟨now, same⟩ := kept stem names following
              rw [whole_name]
              exact ⟨names ++ [text], same.child now ⟨present, self, parent, allowed⟩, followed⟩

/-- Where the loop stops when it began with these names at an offset of the URI: it has followed
what it consumed, up to a regular file or the end. A regular file is in front of a slash, or where
the loop began. -/
def Reached (fs : FileSystem) (uri stem : Bytes) (names : List Bytes) (u : Nat) (lp : Bytes)
    (u' : Nat) : Prop :=
  ∃ p names', Following fs stem lp p names' ∧ u ≤ u' + 1 ∧ (u' < u → uri.getD u' 0 = 47) ∧
    Follows names names' ((uri.take u').drop u) ∧
    (u' < uri.length → fs.stat (stem ++ pathText fs.dirsep names') = some true ∧
      (uri.getD u' 0 = 47 ∨ u' = u ∧ uri.getD (u - 1) 0 ≠ 47))

/-- The loop may stop at an offset. -/
theorem Following.reached {fs : FileSystem} {uri stem lp : Bytes} {p u u' : Nat}
    {names : List Bytes} (following : Following fs stem lp p names) (before : u' ≤ u)
    (near : u ≤ u' + 1) (stop : u' < u → uri.getD u' 0 = 47)
    (regular : u' < uri.length → fs.stat (stem ++ pathText fs.dirsep names) = some true ∧
      (uri.getD u' 0 = 47 ∨ u' = u ∧ uri.getD (u - 1) 0 ≠ 47)) :
    Reached fs uri stem names u lp u' := by
  have nothing : (uri.take u').drop u = [] := by
    rw [List.drop_eq_nil_iff, List.length_take]
    omega
  refine ⟨p, names, following, near, stop, ?_, regular⟩
  rw [nothing]
  exact .nil names

/-- What is reached behind the last component. -/
theorem Reached.pass_last {fs : FileSystem} {uri stem lp front name : Bytes}
    {names names' : List Bytes} {u u' : Nat} (whole : uri = front ++ name)
    (here : u = front.length) (plain : 47 ∉ name) (more : name ≠ [])
    (first : Follows names names' name)
    (rest : Reached fs uri stem names' (u + name.length) lp u') :
    Reached fs uri stem names u lp u' := by
  obtain ⟨p, names'', following, near, stop, followed, regular⟩ := rest
  have inside := List.length_pos_iff.mpr more
  have size : uri.length = u + name.length := by rw [whole, List.length_append, here]
  have last : u + name.length ≤ u' := by
    by_contra early
    apply plain
    have slashed := stop (by omega)
    have place : u' = front.length + (name.length - 1) := by omega
    rw [whole, place, List.getD_eq_getElem?_getD,
      List.getElem?_append_right (Nat.le_add_right _ _), Nat.add_sub_cancel_left,
      List.getElem?_eq_getElem (by omega), Option.getD_some] at slashed
    rw [← slashed]
    exact List.getElem_mem _
  have all : uri.take u' = uri := List.take_of_length_le (by omega)
  rw [all, List.drop_eq_nil_of_le (by omega)] at followed
  rw [followed.of_nil] at following regular
  refine ⟨p, names', following, by omega, fun early => absurd early (by omega), ?_,
    fun early => absurd early (by omega)⟩
  rw [all, whole, here, List.drop_left]
  exact first

/-- What is reached behind a component and its slash. -/
theorem Reached.pass_slash {fs : FileSystem} {uri stem lp front name tail : Bytes}
    {names names' : List Bytes} {u u' : Nat} (split : uri = front ++ name ++ 47 :: tail)
    (here : u = front.length) (first : Follows names names' name)
    (rest : Reached fs uri stem names' (u + name.length + 1) lp u') :
    Reached fs uri stem names u lp u' := by
  obtain ⟨p, names'', following, near, stop, followed, regular⟩ := rest
  have length : (front ++ name).length = u + name.length := by rw [List.length_append, here]
  have slashed : uri.getD (u + name.length) 0 = 47 := by
    rw [split, ← length]
    exact getD_behind _ _ _
  have regular' : u' < uri.length → fs.stat (stem ++ pathText fs.dirsep names'') = some true ∧
      (uri.getD u' 0 = 47 ∨ u' = u ∧ uri.getD (u - 1) 0 ≠ 47) := by
    intro early
    obtain ⟨file, slash | ⟨-, other⟩⟩ := regular early
    · exact ⟨file, .inl slash⟩
    · rw [Nat.add_sub_cancel] at other
      exact absurd slashed other
  refine ⟨p, names'', following, by omega, fun early => absurd early (by omega), ?_, regular'⟩
  by_cases early : u' = u + name.length
  · rw [early, List.drop_eq_nil_of_le (by rw [List.length_take]; omega)] at followed
    rw [early, split, List.take_left' length, here, List.drop_left, followed.of_nil]
    exact first
  · obtain ⟨k, rfl⟩ : ∃ k, u' = u + name.length + (k + 1) :=
      ⟨u' - (u + name.length) - 1, by omega⟩
    have taken : uri.take (u + name.length + (k + 1)) = front ++ name ++ 47 :: tail.take k := by
      rw [split, ← length, List.take_append, List.take_of_length_le (by omega),
        Nat.add_sub_cancel_left, List.take_succ_cons]
    have behind : (uri.take (u + name.length + (k + 1))).drop (u + name.length + 1) =
        tail.take k := by
      rw [taken, ← length, ← List.drop_drop, List.drop_left]
      rfl
    rw [behind] at followed
    rw [taken, List.append_assoc, here, List.drop_left]
    exact first.append followed

/-- What is reached behind a component. -/
theorem Reached.pass {fs : FileSystem} {uri stem lp front name tail : Bytes}
    {names names' : List Bytes} {u u' : Nat} (whole : uri = front ++ (name ++ tail))
    (here : u = front.length) (plain : 47 ∉ name) (slash : ∀ byte ∈ tail.head?, byte = 47)
    (more : name ++ tail ≠ []) (first : Follows names names' name)
    (rest : Reached fs uri stem names' (u + (name ++ tail.take 1).length) lp u') :
    Reached fs uri stem names u lp u' := by
  cases tail with
  | nil =>
    rw [List.append_nil] at whole more
    rw [List.take_nil, List.append_nil] at rest
    exact .pass_last whole here plain more first rest
  | cons byte tail =>
    obtain rfl : byte = 47 := slash byte rfl
    have next : u + (name ++ (47 :: tail).take 1).length = u + name.length + 1 := by
      rw [List.take_succ_cons, List.take_zero, List.length_append]
      rfl
    rw [next] at rest
    rw [← List.append_assoc] at whole
    exact .pass_slash whole here first rest

/-- The loop stops where it is at a regular file, in front of the slash that it has just passed. -/
theorem localPathLoop_file {fs : FileSystem} {uri lp : Bytes} {ps p u : Nat} {exists_ ok : Bool}
    (inside : u ≤ uri.length)
    (found : (if exists_ then fs.stat (pathString lp) else none) = some true) :
    ∃ u', localPathLoop fs uri ps lp p u exists_ ok = some (ok, lp, u') ∧
      ∀ stem names, 0 ∉ stem → Following fs stem lp p names →
        Reached fs uri stem names u lp u' := by
  refine ⟨if uri.getD (u - 1) 0 = 47 then u - 1 else u, ?_, ?_⟩
  · rw [localPathLoop, dif_pos inside]
    dsimp only
    rw [if_pos found]
  · intro stem names nul following
    have regular : fs.stat (pathString lp) = some true := by
      cases exists_ with
      | false => exact absurd found (by simp)
      | true => exact found
    rw [following.seen nul] at regular
    by_cases slash : uri.getD (u - 1) 0 = 47
    · rw [if_pos slash]
      exact following.reached (by omega) (by omega) (fun _ => slash)
        fun _ => ⟨regular, .inl slash⟩
    · rw [if_neg slash]
      exact following.reached (Nat.le_refl u) (by omega)
        (fun early => absurd early (Nat.lt_irrefl u)) fun _ => ⟨regular, .inr ⟨rfl, slash⟩⟩

/-- It stops at the end of the URI. -/
theorem localPathLoop_end {fs : FileSystem} {uri lp : Bytes} {ps p u : Nat} {exists_ ok : Bool}
    (past : uri.length ≤ u)
    (other : u ≤ uri.length →
      (if exists_ then fs.stat (pathString lp) else none) ≠ some true) :
    localPathLoop fs uri ps lp p u exists_ ok = some (ok, lp, u) ∧
      ∀ stem names, Following fs stem lp p names → Reached fs uri stem names u lp u := by
  constructor
  · by_cases inside : u ≤ uri.length
    · rw [localPathLoop, dif_pos inside]
      dsimp only
      rw [if_neg (other inside), dif_neg (not_lt.mpr past)]
    · rw [localPathLoop, dif_neg inside]
  · intro stem names following
    exact following.reached (Nat.le_refl u) (by omega)
      (fun early => absurd early (Nat.lt_irrefl u)) fun early => absurd early (not_lt.mpr past)

/-- The loop stays in its block, and when it does not fail it reaches a path. -/
theorem localPathLoop_spec {fs : FileSystem} {uri lp : Bytes} {ps p u rootLen : Nat}
    {exists_ ok : Bool} (size : lp.length = rootLen + uri.length + 1)
    (room : u < uri.length → p + 1 ≤ rootLen + u) :
    ∃ ok' lp' u', localPathLoop fs uri ps lp p u exists_ ok = some (ok', lp', u') ∧
      (ok' = true → ok = true ∧ ∀ stem names, ps = stem.length → 0 ∉ stem →
        Following fs stem lp p names → Reached fs uri stem names u lp' u') := by
  induction remaining : uri.length + 1 - u using Nat.strong_induction_on
    generalizing lp p u exists_ ok with
  | _ _ ih =>
    by_cases file : u ≤ uri.length ∧
        (if exists_ then fs.stat (pathString lp) else none) = some true
    · obtain ⟨u', stops, reached⟩ :=
        @localPathLoop_file fs uri lp ps p u exists_ ok file.1 file.2
      exact ⟨ok, lp, u', stops, fun fine => ⟨fine, fun stem names _ => reached stem names⟩⟩
    · have other (inside : u ≤ uri.length) :
          (if exists_ then fs.stat (pathString lp) else none) ≠ some true := fun found =>
        file ⟨inside, found⟩
      by_cases more : u < uri.length
      · obtain ⟨name, tail, split, plain, slash⟩ := exists_part 47 (uri.drop u)
        have front : (uri.take u).length = u := List.length_take_of_le more.le
        have whole : uri = uri.take u ++ (name ++ tail) := by
          rw [← split, List.take_append_drop]
        have length := congrArg List.length split
        rw [List.length_drop, List.length_append] at length
        have some_byte : name ++ tail ≠ [] := by
          rw [← split]
          exact fun nothing => absurd (List.drop_eq_nil_iff.mp nothing) (by omega)
        have here := room more
        have fits : p + 1 + name.length < lp.length := by omega
        rcases @localPathLoop_pass fs uri lp _ name tail ps p u exists_ ok whole front.symm plain
          slash some_byte fits (other more.le) with
          ⟨lp', failed⟩ | ⟨lp', p', exists', ok', next, same, shorter, fine⟩
        · exact ⟨false, lp', u, failed, fun fine => absurd fine (by simp)⟩
        · have past : (name ++ tail.take 1).length = name.length + min 1 tail.length := by
            rw [List.length_append, List.length_take]
          have longer : 0 < (name ++ tail).length := List.length_pos_iff.mpr some_byte
          rw [List.length_append] at longer
          have room' : u + (name ++ tail.take 1).length < uri.length →
              p' + 1 ≤ rootLen + (u + (name ++ tail.take 1).length) := by
            rw [past]
            omega
          have fewer : uri.length + 1 - (u + (name ++ tail.take 1).length) <
              uri.length + 1 - u := by
            rw [past]
            omega
          rw [remaining] at fewer
          obtain ⟨final, block, stop, done, spec⟩ := ih _ fewer (same.trans size) room' rfl
          refine ⟨final, block, stop, next.trans done, fun good => ?_⟩
          obtain ⟨good', rest⟩ := spec good
          obtain ⟨good'', first⟩ := fine good'
          refine ⟨good'', fun stem names root nul following => ?_⟩
          obtain ⟨names', now, followed⟩ := first stem names root following
          exact .pass whole front.symm plain slash some_byte followed
            (rest stem names' root nul now)
      · obtain ⟨stops, reached⟩ :=
          @localPathLoop_end fs uri lp ps p u exists_ ok (not_lt.mp more) other
        exact ⟨ok, lp, u, stops, fun fine => ⟨fine, fun stem names _ _ => reached stem names⟩⟩

/-! ## The directory -/

/-- A directory without the separator at its end. -/
def FileSystem.directory (fs : FileSystem) (root : Bytes) : Bytes :=
  if root.getLast? = some fs.dirsep then root.dropLast else root

/-- The loop begins at the directory. -/
theorem following_root {fs : FileSystem} {root block lp : Bytes} {count ps : Nat}
    (some_byte : root ≠ []) (size : block.length = root.length + count + 1)
    (copied : lp = store block 0 root)
    (place : ps = if lp.getD (root.length - 1) 0 = fs.dirsep then root.length - 1
      else root.length) :
    ps = (fs.directory root).length ∧ ps ≤ root.length ∧
      (store lp ps [0]).length = block.length ∧
      Following fs (fs.directory root) (store lp ps [0]) ps [] := by
  obtain ⟨init, last, rfl⟩ := (List.eq_nil_or_concat root).resolve_left some_byte
  rw [List.concat_eq_append] at *
  have whole : lp = init ++ last :: block.drop (init ++ [last]).length := by
    rw [copied, store]
    simp
  have byte : lp.getD ((init ++ [last]).length - 1) 0 = last := by
    rw [whole]
    simp
  have same : lp.length = block.length := by
    rw [copied]
    exact length_store (by omega)
  have directory : fs.directory (init ++ [last]) =
      if last = fs.dirsep then init else init ++ [last] := by
    simp [FileSystem.directory]
  have long : (init ++ [last]).length = init.length + 1 := by simp
  rw [byte] at place
  rw [directory]
  by_cases sep : last = fs.dirsep
  · rw [if_pos sep, long] at place
    rw [if_pos sep]
    have stored := @store_middle init [last] [0] (block.drop (init ++ [last]).length) rfl
    have split : lp = init ++ [last] ++ block.drop (init ++ [last]).length := by
      rw [whole]
      simp
    refine ⟨place, by omega, ?_, ⟨block.drop (init ++ [last]).length, ?_⟩, ?_, by simp⟩
    · rw [length_store (by rw [List.length_singleton]; omega), same]
    · rw [place, Nat.add_sub_cancel, split, stored]
      simp [pathText]
    · rw [place]
      simp [pathText]
  · rw [if_neg sep] at place
    rw [if_neg sep]
    have spare : block.drop (init ++ [last]).length ≠ [] := by
      rw [ne_eq, List.drop_eq_nil_iff]
      omega
    obtain ⟨old, slack, behind⟩ := List.exists_cons_of_ne_nil spare
    have stored := @store_middle (init ++ [last]) [old] [0] slack rfl
    have split : lp = init ++ [last] ++ [old] ++ slack := by
      rw [whole, behind]
      simp
    refine ⟨place, by omega, ?_, ⟨slack, ?_⟩, ?_, by simp⟩
    · rw [length_store (by rw [List.length_singleton]; omega), same]
    · rw [place, split, stored]
      simp [pathText]
    · rw [place]
      simp [pathText]

/-- A path for the part of a URI from an offset on: the directory, and the names that the components
in front of another offset lead to. What remains of the URI stands behind a regular file: at a
slash, or at the beginning of a part that does not begin with one. -/
def IsLocalPath (fs : FileSystem) (root uri : Bytes) (start : Nat) (path remainder : Bytes) :
    Prop :=
  ∃ names stop, (∀ name ∈ names, fs.Inside name) ∧
    path = fs.directory root ++ pathText fs.dirsep names ∧
    start ≤ stop ∧ remainder = uri.drop stop ∧
    Follows [] names ((uri.take stop).drop (start + 1)) ∧
    (remainder ≠ [] → fs.stat path = some true ∧
      (uri.getD stop 0 = 47 ∨ stop = start + 1 ∧ uri.getD start 0 ≠ 47))

/-- `mg_uri_to_local_path` stays in its block, and what it finds is a path in the directory that the
rules choose, for the part of the URI from the place on that they choose. -/
theorem mgUriToLocalPath_inside {fs : FileSystem} {opts : ServeHttpOpts} {uriEnd : UInt8}
    {malloc : Nat → Option Bytes} (sound : opts.Sound uriEnd)
    (blocks : ∀ count, ∀ block ∈ malloc count, block.length = count) (host : Option Bytes)
    (uri : Bytes) :
    ∃ result, mgUriToLocalPath fs opts host uri uriEnd malloc = some result ∧
      ∀ path remainder, result = some (path, remainder) → ∃ root ∈ opts.roots, ∃ start ≤ uri.length,
        Chosen opts.documentRoot host uri (listEntries (opts.urlRewrites.getD [])) 0 root start ∧
          IsLocalPath fs root uri start path remainder := by
  obtain ⟨root, start, done, chosen, served, some_byte, nul⟩ :=
    @chooseRoot_spec opts host uri uriEnd sound
  have inside : start ≤ uri.length := chosen.inside (Nat.zero_le _)
  rw [mgUriToLocalPath, done, Option.bind_some]
  cases allocated : malloc (root.length + uri.length + 1) with
  | none => exact ⟨none, rfl, fun path remainder here => absurd here (by simp)⟩
  | some block =>
    have size := blocks _ block allocated
    dsimp only
    generalize chopped : (if (store block 0 root).getD (root.length - 1) 0 = fs.dirsep then
      root.length - 1 else root.length) = ps
    obtain ⟨place, short, same, following⟩ := following_root some_byte size rfl chopped.symm
    obtain ⟨ok, lp, stop, looped, spec⟩ := @localPathLoop_spec fs uri
      (store (store block 0 root) ps [0]) ps ps (start + 1) root.length true true (same.trans size)
      (fun _ => by omega)
    rw [looped]
    refine ⟨_, rfl, fun path remainder here => ?_⟩
    dsimp only at here
    cases ok with
    | false => exact absurd here (by simp)
    | true =>
      rw [if_pos rfl] at here
      obtain ⟨found, rest⟩ := Prod.mk.inj (Option.some.inj here)
      have free : 0 ∉ fs.directory root := by
        unfold FileSystem.directory
        split_ifs
        · exact fun mem => nul (List.dropLast_subset root mem)
        · exact nul
      obtain ⟨p, names, reached, near, -, followed, regular⟩ :=
        (spec rfl).2 _ [] place free following
      rw [reached.seen free] at found
      refine ⟨root, served, start, inside, chosen, names, stop, reached.inside, found.symm,
        by omega, rest.symm, followed, fun more => ?_⟩
      rw [← found]
      apply regular
      by_contra past
      exact more (by rw [← rest, List.drop_eq_nil_of_le (by omega)])

/-- A parent that is written with percent signs does not lead out of the directory. -/
theorem parent_stays :
    ∃ result, mgUriToLocalPath ⟨fun path => some (path == ascii "/srv/www/a b"), none⟩
        ⟨ascii "/srv/www/", none⟩ none (ascii "/x/%2e%2e/../a%20b/info") 32
        (fun count => some (List.replicate count 0)) = some result ∧
      ∀ path remainder, result = some (path, remainder) →
        ∃ root ∈ (⟨ascii "/srv/www/", none⟩ : ServeHttpOpts).roots,
          ∃ start ≤ (ascii "/x/%2e%2e/../a%20b/info").length,
            Chosen (ascii "/srv/www/") none (ascii "/x/%2e%2e/../a%20b/info") (listEntries []) 0
                root start ∧
              IsLocalPath ⟨fun path => some (path == ascii "/srv/www/a b"), none⟩ root
                (ascii "/x/%2e%2e/../a%20b/info") start path remainder :=
  mgUriToLocalPath_inside
    ⟨by decide, by simp [listEntries, mgNextCommaListEntry],
      by simp [listEntries, mgNextCommaListEntry]⟩
    (fun count block here => by
      rw [← Option.some.inj here]
      exact List.length_replicate) none _

end CppCode.Mongoose
