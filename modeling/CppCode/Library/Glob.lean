import Mathlib.Data.List.TakeWhile

/-!
# Patterns with wildcards

A pattern matches prefixes of a text. Its tokens are literals, a wildcard for one element, wildcards
for a run of elements, which may cross separators or not, and the end of the text. `globMatch` tries
the longest run first and goes back to shorter ones. It finds a prefix when there is one, and one
that is not empty when there is one (`globMatch_isSome_iff`, `globMatch_pos_iff`).
-/

namespace CppCode.Library

/-- A token of a pattern. -/
inductive Token (α : Type*)
  /-- An element that is the same as this. -/
  | literal (a : α)
  /-- One element. -/
  | any
  /-- The end of the text; what follows in the pattern does not matter. -/
  | last
  /-- A run of elements other than separators. -/
  | within
  /-- A run of elements. -/
  | across
  deriving DecidableEq

variable {α : Type*}

/-- The pattern matches that many elements at the front of the text. -/
inductive Matches (separator : α → Bool) (same : α → α → Bool) :
    List (Token α) → List α → Nat → Prop
  /-- The empty pattern. -/
  | nil (text : List α) : Matches separator same [] text 0
  /-- An element. -/
  | literal {a b : α} {tokens : List (Token α)} {text : List α} {n : Nat} :
    same a b = true → Matches separator same tokens text n →
      Matches separator same (.literal a :: tokens) (b :: text) (n + 1)
  /-- Any element. -/
  | any {b : α} {tokens : List (Token α)} {text : List α} {n : Nat} :
    Matches separator same tokens text n →
      Matches separator same (.any :: tokens) (b :: text) (n + 1)
  /-- The end. -/
  | last {tokens : List (Token α)} : Matches separator same (.last :: tokens) [] 0
  /-- A run up to a separator at most. -/
  | within {tokens : List (Token α)} {text : List α} {count n : Nat} :
    count ≤ (text.takeWhile fun a => !separator a).length →
      Matches separator same tokens (text.drop count) n →
        Matches separator same (.within :: tokens) text (count + n)
  /-- A run. -/
  | across {tokens : List (Token α)} {text : List α} {count n : Nat} :
    count ≤ text.length → Matches separator same tokens (text.drop count) n →
      Matches separator same (.across :: tokens) text (count + n)

/-- The longest run up to a bound behind which something is found, and what is found there. -/
def longest (find : Nat → Option Nat) : Nat → Option Nat
  | 0 => find 0
  | count + 1 =>
    match find (count + 1) with
    | some n => some (count + 1 + n)
    | none => longest find count

/-- Match a pattern, the longest runs first. -/
def globMatch (separator : α → Bool) (same : α → α → Bool) : List (Token α) → List α → Option Nat
  | [], _ => some 0
  | .literal _ :: _, [] => none
  | .literal a :: tokens, b :: text =>
    if same a b then (globMatch separator same tokens text).map (· + 1) else none
  | .any :: _, [] => none
  | .any :: tokens, _ :: text => (globMatch separator same tokens text).map (· + 1)
  | .last :: _, text => if text.isEmpty then some 0 else none
  | .within :: tokens, text =>
    longest (fun count => globMatch separator same tokens (text.drop count))
      (text.takeWhile fun a => !separator a).length
  | .across :: tokens, text =>
    longest (fun count => globMatch separator same tokens (text.drop count)) text.length

/-- What is found is found behind some run. -/
theorem longest_some {find : Nat → Option Nat} {bound total : Nat}
    (found : longest find bound = some total) :
    ∃ count n, count ≤ bound ∧ find count = some n ∧ total = count + n := by
  induction bound with
  | zero => exact ⟨0, total, Nat.le_refl 0, found, (Nat.zero_add total).symm⟩
  | succ bound ih =>
    rw [longest] at found
    cases here : find (bound + 1) with
    | some n =>
      rw [here] at found
      exact ⟨bound + 1, n, Nat.le_refl _, here, (Option.some.inj found).symm⟩
    | none =>
      rw [here] at found
      obtain ⟨count, n, below, there, sum⟩ := ih found
      exact ⟨count, n, by omega, there, sum⟩

/-- What is found behind the longest run is taken. -/
theorem longest_bound {find : Nat → Option Nat} {bound n : Nat} (found : find bound = some n) :
    longest find bound = some (bound + n) := by
  cases bound with
  | zero => rw [longest, found, Nat.zero_add]
  | succ bound => rw [longest, found]

/-- When something is found behind a run, something is found in all, and nothing at all only when
the run was empty and nothing found behind it. -/
theorem longest_total (find : Nat → Option Nat) {bound count n : Nat} (below : count ≤ bound)
    (there : find count = some n) :
    ∃ total, longest find bound = some total ∧ (total = 0 → count = 0 ∧ n = 0) := by
  induction bound with
  | zero =>
    obtain rfl : count = 0 := by omega
    exact ⟨n, there, fun none => ⟨rfl, none⟩⟩
  | succ bound ih =>
    rw [longest]
    cases here : find (bound + 1) with
    | some more => exact ⟨bound + 1 + more, rfl, fun none => absurd none (by omega)⟩
    | none =>
      have shorter : count ≤ bound := by
        by_contra past
        obtain rfl : count = bound + 1 := by omega
        rw [there] at here
        exact absurd here (by simp)
      exact ih shorter

variable {separator : α → Bool} {same : α → α → Bool} {tokens : List (Token α)} {text : List α}
  {n : Nat}

/-- A pattern does not match more than the text. -/
theorem Matches.le_length (matched : Matches separator same tokens text n) : n ≤ text.length := by
  induction matched with
  | nil text => exact Nat.zero_le _
  | literal _ _ ih => exact Nat.succ_le_succ ih
  | any _ ih => exact Nat.succ_le_succ ih
  | last => exact Nat.zero_le _
  | @within tokens text count n below _ ih =>
    have run := (List.takeWhile_prefix (fun a => !separator a) (l := text)).length_le
    rw [List.length_drop] at ih
    omega
  | @across tokens text count n below _ ih =>
    rw [List.length_drop] at ih
    omega

/-- What is found is a match. -/
theorem globMatch_sound (found : globMatch separator same tokens text = some n) :
    Matches separator same tokens text n := by
  fun_induction globMatch separator same tokens text generalizing n with
  | case1 text =>
    obtain rfl := Option.some.inj found
    exact .nil text
  | case2 => exact absurd found (by simp)
  | case3 a tokens b text equal ih =>
    obtain ⟨m, rest, rfl⟩ := Option.map_eq_some_iff.mp found
    exact .literal equal (ih rest)
  | case4 => exact absurd found (by simp)
  | case5 => exact absurd found (by simp)
  | case6 tokens b text ih =>
    obtain ⟨m, rest, rfl⟩ := Option.map_eq_some_iff.mp found
    exact .any (ih rest)
  | case7 tokens text empty =>
    obtain rfl := Option.some.inj found
    obtain rfl := List.isEmpty_iff.mp empty
    exact .last
  | case8 => exact absurd found (by simp)
  | case9 tokens text ih =>
    obtain ⟨count, m, below, there, rfl⟩ := longest_some found
    exact .within below (ih count there)
  | case10 tokens text ih =>
    obtain ⟨count, m, below, there, rfl⟩ := longest_some found
    exact .across below (ih count there)

/-- A match is found, or another one, which is empty only when all are. -/
theorem globMatch_complete (matched : Matches separator same tokens text n) :
    ∃ m, globMatch separator same tokens text = some m ∧ (m = 0 → n = 0) := by
  induction matched with
  | nil text => exact ⟨0, by rw [globMatch], fun _ => rfl⟩
  | literal equal _ ih =>
    obtain ⟨m, found, -⟩ := ih
    exact ⟨m + 1, by rw [globMatch, if_pos equal, found]; rfl, fun none => absurd none (by simp)⟩
  | any _ ih =>
    obtain ⟨m, found, -⟩ := ih
    exact ⟨m + 1, by rw [globMatch, found]; rfl, fun none => absurd none (by simp)⟩
  | last => exact ⟨0, by rw [globMatch]; rfl, fun _ => rfl⟩
  | @within tokens text count n below _ ih =>
    obtain ⟨m, found, empty⟩ := ih
    obtain ⟨total, whole, nothing⟩ := longest_total
      (fun count => globMatch separator same tokens (text.drop count)) below found
    refine ⟨total, by rw [globMatch, whole], fun none => ?_⟩
    obtain ⟨rfl, zero⟩ := nothing none
    rw [empty zero]
  | @across tokens text count n below _ ih =>
    obtain ⟨m, found, empty⟩ := ih
    obtain ⟨total, whole, nothing⟩ := longest_total
      (fun count => globMatch separator same tokens (text.drop count)) below found
    refine ⟨total, by rw [globMatch, whole], fun none => ?_⟩
    obtain ⟨rfl, zero⟩ := nothing none
    rw [empty zero]

/-- A prefix is found when there is one. -/
theorem globMatch_isSome_iff :
    (globMatch separator same tokens text).isSome ↔ ∃ n, Matches separator same tokens text n := by
  constructor
  · intro found
    obtain ⟨n, there⟩ := Option.isSome_iff_exists.mp found
    exact ⟨n, globMatch_sound there⟩
  · rintro ⟨n, matched⟩
    obtain ⟨m, found, -⟩ := globMatch_complete matched
    rw [found]
    rfl

/-- A prefix that is not empty is found when there is one. -/
theorem globMatch_pos_iff :
    (∃ n, globMatch separator same tokens text = some (n + 1)) ↔
      ∃ n, Matches separator same tokens text (n + 1) := by
  constructor
  · rintro ⟨n, found⟩
    exact ⟨n, globMatch_sound found⟩
  · rintro ⟨n, matched⟩
    obtain ⟨m, found, empty⟩ := globMatch_complete matched
    cases m with
    | zero => exact absurd (empty rfl) (by simp)
    | succ m => exact ⟨m, found⟩

end CppCode.Library
