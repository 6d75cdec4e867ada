import CppCode.Library.Glob
import CppCode.Library.PathResolution
import CppCode.Mongoose.Text

/-!
# Patterns of paths

`mg_match_prefix_n` decides which files are scripts, which are hidden and which URIs are rewritten.
Its pattern has alternatives with wildcards. It looks at the byte behind the string, so a string
must not be followed by a byte of the pattern; then it finds what the alternatives match
(`mgMatchPrefixN_found`).
-/

namespace CppCode.Mongoose

open Library

/-! ## The code -/

/-- The loop behind a `*` of `mg_match_prefix_n`. -/
def matchRun (find : Nat → Option (Option Nat)) : Nat → Option (Option Nat)
  | 0 => find 0
  | len + 1 =>
    match find (len + 1) with
    | none => none
    | some (some res) => some (some (len + 1 + res))
    | some none => matchRun find len

/-- `mg_match_prefix_n` for a pattern without `|`, `none` when it compares more of the memory behind
the pattern or the string than these bytes. -/
def matchAlternative (patternEnd strEnd : UInt8) : Bytes → Bytes → Option (Option Nat)
  | [], _ => some (some 0)
  | c :: pattern, str =>
    if c = 63 ∧ str ≠ [] then
      (matchAlternative patternEnd strEnd pattern str.tail).map (Option.map (· + 1))
    else if c = 36 then some (if str = [] then some 0 else none)
    else if c = 42 then
      match pattern with
      | [] =>
        if patternEnd = 42 then none
        else some (some (str.takeWhile (· ≠ 47)).length)
      | second :: rest =>
        if second = 42 then
          if rest = [] then some (some str.length)
          else
            matchRun (fun len => matchAlternative patternEnd strEnd rest (str.drop len)) str.length
        else
          matchRun (fun len => matchAlternative patternEnd strEnd (second :: rest) (str.drop len))
            (str.takeWhile (· ≠ 47)).length
    else
      match str with
      | [] => if tolower c = tolower strEnd then none else some none
      | byte :: str =>
        if tolower c ≠ tolower byte then some none
        else (matchAlternative patternEnd strEnd pattern str).map (Option.map (· + 1))

/-- The recursion of `mg_match_prefix_n` over the parts between the signs `|`. -/
def matchAlternatives (patternEnd strEnd : UInt8) (str : Bytes) : List Bytes → Option (Option Nat)
  | [] => some none
  | [pattern] => matchAlternative patternEnd strEnd pattern str
  | pattern :: patterns =>
    (matchAlternative 124 strEnd pattern str).bind fun res =>
      if 0 < res.getD 0 then some res else matchAlternatives patternEnd strEnd str patterns

/-- `mg_match_prefix_n`, with the bytes behind the pattern and the string, for strings whose length
is in the range of `int`. -/
def mgMatchPrefixN (patternEnd strEnd : UInt8) (pattern str : Bytes) : Option (Option Nat) :=
  matchAlternatives patternEnd strEnd str (pattern.splitOn 124)

/-! ## The meaning -/

/-- The tokens of a pattern. -/
def patternTokens : Bytes → List (Token UInt8)
  | [] => []
  | c :: pattern =>
    if c = 63 then .any :: patternTokens pattern
    else if c = 36 then .last :: patternTokens pattern
    else if c = 42 then
      match pattern with
      | [] => [.within]
      | second :: rest =>
        if second = 42 then .across :: patternTokens rest
        else .within :: patternTokens (second :: rest)
    else .literal c :: patternTokens pattern

/-- A pattern without alternatives matches that many bytes, in any case. -/
def MatchesPath (pattern str : Bytes) (n : Nat) : Prop :=
  Matches (· == 47) (fun a b => tolower a == tolower b) (patternTokens pattern) str n

/-- The search for a match of a pattern. -/
def findPath (pattern str : Bytes) : Option Nat :=
  globMatch (· == 47) (fun a b => tolower a == tolower b) (patternTokens pattern) str

/-- The loop behind a wildcard tries the longest run first. -/
theorem matchRun_eq {find : Nat → Option (Option Nat)} {found : Nat → Option Nat}
    (same : ∀ count, find count = some (found count)) (len : Nat) :
    matchRun find len = some (longest found len) := by
  induction len with
  | zero => exact same 0
  | succ len ih =>
    rw [matchRun, same, longest]
    cases found (len + 1) with
    | none => exact ih
    | some n => rfl

/-- A run of bytes up to a slash. -/
theorem takeWhile_slash (str : Bytes) :
    (str.takeWhile fun byte => !(byte == 47)) = str.takeWhile (· ≠ 47) := by
  congr 1
  funext byte
  by_cases slash : byte = 47
  · simp [slash]
  · simp [slash]

/-- The token of a byte other than the sign of a run. -/
theorem patternTokens_cons {c : UInt8} (pattern : Bytes) (single : c ≠ 42) :
    patternTokens (c :: pattern) =
      (if c = 63 then .any else if c = 36 then .last else .literal c) :: patternTokens pattern := by
  rw [patternTokens.eq_def]
  by_cases any : c = 63
  · simp [any]
  · by_cases last : c = 36
    · simp [last]
    · simp [any, last, single]

/-- The tokens of a run up to a slash. -/
theorem patternTokens_within (c : UInt8) (pattern : Bytes) (single : c ≠ 42) :
    patternTokens (42 :: c :: pattern) = .within :: patternTokens (c :: pattern) := by
  rw [patternTokens.eq_def]
  show (if c = 42 then _ else _) = _
  exact if_neg single

/-- A pattern without alternatives is searched for. -/
theorem matchAlternative_eq {patternEnd strEnd : UInt8} {pattern : Bytes} (star : patternEnd ≠ 42)
    (behind : ∀ byte ∈ pattern, tolower byte ≠ tolower strEnd) (str : Bytes) :
    matchAlternative patternEnd strEnd pattern str = some (findPath pattern str) := by
  fun_induction matchAlternative patternEnd strEnd pattern str with
  | case1 str => simp [findPath, patternTokens, globMatch]
  | case2 c pattern str mark ih =>
    rw [ih (fun byte mem => behind byte (List.mem_cons_of_mem c mem))]
    obtain ⟨rfl, full⟩ := mark
    cases str with
    | nil => exact absurd rfl full
    | cons byte str => simp [findPath, patternTokens_cons, globMatch]
  | case3 pattern str _ =>
    simp [findPath, patternTokens_cons, globMatch]
  | case4 => contradiction
  | case5 str =>
    have found : findPath [42] str = some (str.takeWhile (· ≠ 47)).length := by
      show globMatch _ _ [.within] str = _
      simp only [globMatch, takeWhile_slash]
      exact longest_bound (n := 0) rfl
    rw [found]
  | case6 str =>
    have found : findPath [42, 42] str = some str.length := by
      show globMatch _ _ [.across] str = _
      simp only [globMatch]
      exact longest_bound (n := 0) rfl
    rw [found]
  | case7 str rest _ _ _ ih =>
    show _ = some (globMatch _ _ (.across :: patternTokens rest) str)
    rw [globMatch]
    apply matchRun_eq
    intro len
    exact ih len fun byte mem => behind byte (List.mem_cons_of_mem _ (List.mem_cons_of_mem _ mem))
  | case8 str second rest single _ _ ih =>
    rw [findPath, patternTokens_within second rest single, globMatch, takeWhile_slash]
    apply matchRun_eq
    intro len
    exact ih len fun byte mem => behind byte (List.mem_cons_of_mem _ mem)
  | case9 c pattern _ _ same _ => exact absurd same (behind c List.mem_cons_self)
  | case10 c pattern last wild differs _ =>
    rw [findPath, patternTokens_cons pattern wild]
    by_cases mark : c = 63
    · simp [globMatch, mark]
    · simp [globMatch, mark, last]
  | case11 c pattern last wild byte str differs mark =>
    have literal : c ≠ 63 := fun here => mark ⟨here, by simp⟩
    simp [findPath, patternTokens_cons, globMatch, literal, last, wild, differs]
  | case12 c pattern last wild byte str same mark ih =>
    have literal : c ≠ 63 := fun here => mark ⟨here, by simp⟩
    rw [ih fun byte mem => behind byte (List.mem_cons_of_mem c mem)]
    simp [findPath, patternTokens_cons, globMatch, literal, last, wild, not_not.mp same]

/-! ## The alternatives -/

/-- What the alternatives find is a match of one of them, one that is not empty when there is one.
An empty match counts in the last alternative only. -/
structure FoundPath (patterns : List Bytes) (str : Bytes) (result : Option Nat) : Prop where
  /-- What is found is a match of bytes of the string. -/
  sound : ∀ n, result = some n → n ≤ str.length ∧ ∃ part ∈ patterns, MatchesPath part str n
  /-- A match that is not empty is not missed. -/
  positive : (∃ part ∈ patterns, ∃ n, MatchesPath part str (n + 1)) → ∃ n, result = some (n + 1)
  /-- The last alternative finds empty matches too. -/
  last : (∃ part ∈ patterns.getLast?, ∃ n, MatchesPath part str n) → result.isSome = true
  /-- The others do not. -/
  others : result = some 0 → ∃ part ∈ patterns.getLast?, MatchesPath part str 0

/-- The alternatives are tried in turn. -/
theorem matchAlternatives_found {patternEnd strEnd : UInt8} {patterns : List Bytes} {str : Bytes}
    (star : patternEnd ≠ 42)
    (behind : ∀ part ∈ patterns, ∀ byte ∈ part, tolower byte ≠ tolower strEnd) :
    ∃ result, matchAlternatives patternEnd strEnd str patterns = some result ∧
      FoundPath patterns str result := by
  fun_induction matchAlternatives patternEnd strEnd str patterns with
  | case1 =>
    refine ⟨none, rfl, ?_, ?_, ?_, ?_⟩ <;> simp
  | case2 pattern =>
    refine ⟨findPath pattern str, matchAlternative_eq star (behind pattern List.mem_cons_self) str,
      ?_, ?_, ?_, ?_⟩
    · intro n found
      have matched := globMatch_sound found
      exact ⟨matched.le_length, pattern, List.mem_cons_self, matched⟩
    · rintro ⟨part, here, some_match⟩
      obtain rfl := List.mem_singleton.mp here
      exact globMatch_pos_iff.mpr some_match
    · rintro ⟨part, here, some_match⟩
      obtain rfl : pattern = part := by simpa using here
      exact globMatch_isSome_iff.mpr some_match
    · intro found
      exact ⟨pattern, rfl, globMatch_sound found⟩
  | case3 pattern patterns more ih =>
    have there := @matchAlternative_eq 124 strEnd pattern (by decide)
      (behind pattern List.mem_cons_self) str
    rw [there, Option.bind_some]
    have same : (pattern :: patterns).getLast? = patterns.getLast? :=
      List.getLast?_cons_of_ne_nil more
    by_cases positive : 0 < (findPath pattern str).getD 0
    · rw [if_pos positive]
      obtain ⟨n, found⟩ : ∃ n, findPath pattern str = some (n + 1) := by
        cases found : findPath pattern str with
        | none => simp [found] at positive
        | some n =>
          cases n with
          | zero => simp [found] at positive
          | succ n => exact ⟨n, rfl⟩
      have matched := globMatch_sound found
      refine ⟨_, rfl, ?_, fun _ => ⟨n, found⟩, fun _ => by rw [found]; rfl, ?_⟩
      · intro m here
        obtain rfl : n + 1 = m := by simpa [found] using here
        exact ⟨matched.le_length, pattern, List.mem_cons_self, matched⟩
      · intro empty
        simp [found] at empty
    · rw [if_neg positive]
      obtain ⟨result, later, spec⟩ := ih fun part mem => behind part (List.mem_cons_of_mem _ mem)
      refine ⟨result, later, ?_, ?_, ?_, ?_⟩
      · intro n found
        obtain ⟨bound, part, mem, matched⟩ := spec.sound n found
        exact ⟨bound, part, List.mem_cons_of_mem _ mem, matched⟩
      · rintro ⟨part, mem, some_match⟩
        rcases List.mem_cons.mp mem with rfl | rest
        · obtain ⟨n, found⟩ := globMatch_pos_iff.mpr some_match
          have here : findPath part str = some (n + 1) := found
          simp [here] at positive
        · exact spec.positive ⟨part, rest, some_match⟩
      · rw [same]
        exact spec.last
      · rw [same]
        exact spec.others

/-- What `mg_match_prefix_n` finds in a string, when the bytes behind the pattern and the string are
none that it can take for a part of a match. -/
theorem mgMatchPrefixN_found {patternEnd strEnd : UInt8} {pattern : Bytes} (str : Bytes)
    (star : patternEnd ≠ 42) (behind : ∀ byte ∈ pattern, tolower byte ≠ tolower strEnd) :
    ∃ result, mgMatchPrefixN patternEnd strEnd pattern str = some result ∧
      FoundPath (pattern.splitOn 124) str result :=
  matchAlternatives_found star fun _ here _ mem => behind _ (mem_splitOn here mem).1

/-- A script is found by the second alternative, in any case. -/
theorem script_found :
    ∃ result, mgMatchPrefixN 0 0 (ascii "**.cgi$|**.php$") (ascii "/index.PHP") = some result ∧
      FoundPath ((ascii "**.cgi$|**.php$").splitOn 124) (ascii "/index.PHP") result :=
  mgMatchPrefixN_found (ascii "/index.PHP") (by decide) (by decide +kernel)

end CppCode.Mongoose
