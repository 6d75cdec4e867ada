import CppCode.Mongoose.LocalPath

/-!
# The rules for directories

Which directory `mg_uri_to_local_path` serves a request from, and where the part of the URI begins
that it looks for there (`Chosen`). A rule is for a host or for URIs. A match that ends inside of a
component does not choose the directory of its rule, but the place where it ended stays, also for
the document root.
-/

namespace CppCode.Mongoose

open Library

/-! ## The list -/

/-- The entries of a list. -/
def listEntries (list : Bytes) : List ListEntry :=
  match next : mgNextCommaListEntry list with
  | none => []
  | some (entry, rest) =>
    have : rest.length < list.length := mgNextCommaListEntry_lt next
    entry :: listEntries rest
termination_by list.length

/-- The entries begin with the next one. -/
theorem listEntries_next {list rest : Bytes} {entry : ListEntry}
    (next : mgNextCommaListEntry list = some (entry, rest)) :
    listEntries list = entry :: listEntries rest := by
  rw [listEntries]
  split
  · rename_i none_left
    rw [none_left] at next
    exact absurd next (by simp)
  · rename_i there
    rw [there] at next
    obtain ⟨rfl, rfl⟩ := Prod.mk.inj (Option.some.inj next)
    rfl

/-- The byte behind an entry is a comma, a sign `=` or the NUL. -/
theorem ListEntry.behind_ne {list rest : Bytes} {entry : ListEntry}
    (next : mgNextCommaListEntry list = some (entry, rest)) : entry.behind ≠ 42 := by
  unfold mgNextCommaListEntry at next
  by_cases empty : list = []
  · simp [empty] at next
  · rw [if_neg empty] at next
    dsimp only at next
    split_ifs at next
    · cases next
      show (61 : UInt8) ≠ 42
      decide
    · cases next
      show list.getD (list.takeWhile (· ≠ 44)).length 0 ≠ 42
      have split : list.takeWhile (· ≠ 44) ++ list.dropWhile (· ≠ 44) = list :=
        List.takeWhile_append_dropWhile
      have halt := List.head?_dropWhile_not (· ≠ 44) list
      cases behind : list.dropWhile (· ≠ 44) with
      | nil =>
        rw [behind, List.append_nil] at split
        rw [split]
        simp
      | cons byte more =>
        rw [behind, List.head?_cons] at halt
        have comma : byte = 44 := by simpa using halt
        rw [behind] at split
        have here := getD_behind (list.takeWhile (· ≠ 44)) more byte
        rw [split] at here
        rw [here, comma]
        decide

/-- Directories have names, and no rule has the byte behind the URI. -/
structure ServeHttpOpts.Sound (opts : ServeHttpOpts) (uriEnd : UInt8) : Prop where
  /-- `document_root` is a name. -/
  root : opts.documentRoot ≠ [] ∧ 0 ∉ opts.documentRoot
  /-- So are the directories of the rules. -/
  roots : ∀ entry ∈ listEntries (opts.urlRewrites.getD []), ∀ root ∈ entry.eqVal,
    root ≠ [] ∧ 0 ∉ root
  /-- A space is the byte behind a URI, or a question mark. -/
  rules : ∀ entry ∈ listEntries (opts.urlRewrites.getD []), ∀ byte ∈ entry.val,
    tolower byte ≠ tolower uriEnd

/-- The directories that are served. -/
def ServeHttpOpts.roots (opts : ServeHttpOpts) : List Bytes :=
  opts.documentRoot :: (listEntries (opts.urlRewrites.getD [])).filterMap ListEntry.eqVal

/-! ## The choice -/

/-- A rule for a host: an at sign and the host. -/
def ListEntry.IsHost (entry : ListEntry) : Prop := 1 < entry.val.length ∧ entry.val.getD 0 0 = 64

/-- The host of a request is that of a rule. -/
def ListEntry.HasHost (entry : ListEntry) (host : Option Bytes) : Prop :=
  ∃ hh ∈ host, hh.length = entry.val.length - 1 ∧
    mgNcasecmp entry.val.tail hh (entry.val.length - 1) = 0

/-- A rule for URIs matches some bytes of a URI, at least one. -/
def ListEntry.MatchesUri (entry : ListEntry) (uri : Bytes) (n : Nat) : Prop :=
  0 < n ∧ ∃ part ∈ entry.val.splitOn 124, MatchesPath part uri n

/-- The directory that the rules choose for a request, and the place in the URI where its part
begins, which was `place` when the rules in front of these were passed over. -/
inductive Chosen (documentRoot : Bytes) (host : Option Bytes) (uri : Bytes) :
    List ListEntry → Nat → Bytes → Nat → Prop
  /-- No rule is left. -/
  | documentRoot (place : Nat) : Chosen documentRoot host uri [] place documentRoot place
  /-- A rule for the host of the request. -/
  | host {entry : ListEntry} {rules : List ListEntry} {place : Nat} (isHost : entry.IsHost)
      (same : entry.HasHost host) :
      Chosen documentRoot host uri (entry :: rules) place (entry.eqVal.getD documentRoot) place
  /-- A rule for another host. -/
  | other {entry : ListEntry} {rules : List ListEntry} {place start : Nat} {root : Bytes}
      (isHost : entry.IsHost) (differs : ¬entry.HasHost host)
      (later : Chosen documentRoot host uri rules place root start) :
      Chosen documentRoot host uri (entry :: rules) place root start
  /-- A match that ends at a slash or at the end of the URI. -/
  | whole {entry : ListEntry} {rules : List ListEntry} {place n : Nat} (isUri : ¬entry.IsHost)
      (matched : entry.MatchesUri uri n) (ends : n = uri.length ∨ uri.getD n 0 = 47) :
      Chosen documentRoot host uri (entry :: rules) place (entry.eqVal.getD documentRoot) n
  /-- A match that ends behind a slash. -/
  | slash {entry : ListEntry} {rules : List ListEntry} {place n : Nat} (isUri : ¬entry.IsHost)
      (matched : entry.MatchesUri uri n) (ends : uri.getD (n - 1) 0 = 47) :
      Chosen documentRoot host uri (entry :: rules) place (entry.eqVal.getD documentRoot) (n - 1)
  /-- A match that ends inside of a component: the rule is passed over, but the place stays. -/
  | part {entry : ListEntry} {rules : List ListEntry} {place n start : Nat} {root : Bytes}
      (isUri : ¬entry.IsHost) (matched : entry.MatchesUri uri n)
      (inside : ¬(n = uri.length ∨ uri.getD n 0 = 47) ∧ uri.getD (n - 1) 0 ≠ 47)
      (later : Chosen documentRoot host uri rules n root start) :
      Chosen documentRoot host uri (entry :: rules) place root start
  /-- A rule that does not match. -/
  | unmatched {entry : ListEntry} {rules : List ListEntry} {place start : Nat} {root : Bytes}
      (isUri : ¬entry.IsHost) (none : ∀ n, ¬entry.MatchesUri uri n)
      (later : Chosen documentRoot host uri rules place root start) :
      Chosen documentRoot host uri (entry :: rules) place root start

section
variable {documentRoot root uri : Bytes} {host : Option Bytes} {rules : List ListEntry}
  {place start : Nat}

/-- A match ends inside of the URI. -/
theorem ListEntry.MatchesUri.le {entry : ListEntry} {n : Nat} (matched : entry.MatchesUri uri n) :
    n ≤ uri.length := by
  obtain ⟨-, part, -, matched⟩ := matched
  exact matched.le_length

/-- The part of the directory begins inside of the URI. -/
theorem Chosen.inside (chosen : Chosen documentRoot host uri rules place root start)
    (before : place ≤ uri.length) : start ≤ uri.length := by
  induction chosen with
  | documentRoot | host => exact before
  | other _ _ _ ih | unmatched _ _ _ ih => exact ih before
  | whole _ matched => exact matched.le
  | slash _ matched => exact le_trans (Nat.sub_le _ _) matched.le
  | part _ matched _ _ ih => exact ih matched.le

/-- The directory is one of a rule, or the document root. -/
theorem Chosen.served (chosen : Chosen documentRoot host uri rules place root start) :
    root = documentRoot ∨ root ∈ rules.filterMap ListEntry.eqVal := by
  have of_entry : ∀ (entry : ListEntry) (rules : List ListEntry),
      entry.eqVal.getD documentRoot = documentRoot ∨
        entry.eqVal.getD documentRoot ∈ (entry :: rules).filterMap ListEntry.eqVal := by
    intro entry rules
    cases value : entry.eqVal with
    | none => exact .inl rfl
    | some directory => exact .inr (List.mem_filterMap.mpr ⟨entry, List.mem_cons_self, value⟩)
  induction chosen with
  | documentRoot => exact .inl rfl
  | host | whole | slash => exact of_entry _ _
  | @other entry _ _ _ _ _ _ _ ih | @part entry _ _ _ _ _ _ _ _ _ ih
  | @unmatched entry _ _ _ _ _ _ _ ih =>
    exact ih.imp id fun mem => ((List.sublist_cons_self entry _).filterMap _).subset mem

end

/-- The loop over the rules chooses a directory. -/
theorem rewriteLoop_spec (documentRoot : Bytes) {host : Option Bytes} {uri rewrites : Bytes}
    {uriEnd : UInt8} {fileUriStart : Nat}
    (rules : ∀ entry ∈ listEntries rewrites, ∀ byte ∈ entry.val, tolower byte ≠ tolower uriEnd) :
    ∃ root start, rewriteLoop host uri uriEnd rewrites fileUriStart = some (root, start) ∧
      Chosen documentRoot host uri (listEntries rewrites) fileUriStart (root.getD documentRoot)
        start := by
  fun_induction rewriteLoop host uri uriEnd rewrites fileUriStart with
  | case1 rewrites start none_left =>
    have empty : listEntries rewrites = [] := by
      rw [listEntries]
      split
      · rfl
      · rename_i there
        rw [none_left] at there
        exact absurd there (by simp)
    rw [empty]
    exact ⟨none, start, rfl, .documentRoot start⟩
  | case2 rewrites start a rest next _ isHost same =>
    rw [listEntries_next next]
    exact ⟨a.eqVal, start, rfl, .host isHost same⟩
  | case3 rewrites start a rest next _ isHost differs ih =>
    rw [listEntries_next next] at rules ⊢
    obtain ⟨root, place, done, chosen⟩ :=
      ih fun entry mem => rules entry (List.mem_cons_of_mem a mem)
    exact ⟨root, place, done, .other isHost differs chosen⟩
  | case4 rewrites start a rest next _ isUri later ih =>
    rw [listEntries_next next] at rules ⊢
    obtain ⟨matchLen, found, spec⟩ := @matchAlternatives_found a.behind uriEnd (a.val.splitOn 124)
      uri (ListEntry.behind_ne next)
      (fun _ here _ mem => rules a List.mem_cons_self _ (mem_splitOn here mem).1)
    have rest_rules := fun entry mem => rules entry (List.mem_cons_of_mem a mem)
    rw [mgMatchPrefixN, found, Option.bind_some]
    dsimp only
    by_cases positive : 0 < matchLen.getD 0
    · have matched : a.MatchesUri uri (matchLen.getD 0) := by
        cases matchLen with
        | none => exact absurd positive (Nat.lt_irrefl 0)
        | some n => exact ⟨positive, (spec.sound n rfl).2⟩
      rw [if_pos positive]
      by_cases whole : matchLen.getD 0 = uri.length ∨ uri.getD (matchLen.getD 0) 0 = 47
      · rw [if_pos whole]
        exact ⟨a.eqVal, _, rfl, .whole isUri matched whole⟩
      · rw [if_neg whole]
        by_cases slash : uri.getD (matchLen.getD 0 - 1) 0 = 47
        · rw [if_pos slash]
          exact ⟨a.eqVal, _, rfl, .slash isUri matched slash⟩
        · rw [if_neg slash]
          obtain ⟨root, place, done, chosen⟩ := later matchLen rest_rules
          exact ⟨root, place, done, .part isUri matched ⟨whole, slash⟩ chosen⟩
    · rw [if_neg positive]
      obtain ⟨root, place, done, chosen⟩ := ih rest_rules
      refine ⟨root, place, done, .unmatched isUri ?_ chosen⟩
      rintro n ⟨some_byte, part, here, matched⟩
      obtain ⟨m, same⟩ := spec.positive ⟨part, here, n - 1, by
        rwa [Nat.sub_add_cancel some_byte]⟩
      rw [same] at positive
      exact positive (Nat.succ_pos m)

/-- A directory is chosen. -/
theorem chooseRoot_spec {opts : ServeHttpOpts} {host : Option Bytes} {uri : Bytes} {uriEnd : UInt8}
    (sound : opts.Sound uriEnd) :
    ∃ root start, chooseRoot opts host uri uriEnd = some (root, start) ∧
      Chosen opts.documentRoot host uri (listEntries (opts.urlRewrites.getD [])) 0 root start ∧
      root ∈ opts.roots ∧ root ≠ [] ∧ 0 ∉ root := by
  obtain ⟨found, start, done, chosen⟩ := @rewriteLoop_spec opts.documentRoot host uri _ uriEnd 0
    sound.rules
  have served : found.getD opts.documentRoot ∈ opts.roots := by
    obtain default | rule := chosen.served
    · rw [default]
      exact List.mem_cons_self
    · exact List.mem_cons_of_mem _ rule
  have name : found.getD opts.documentRoot ≠ [] ∧ 0 ∉ found.getD opts.documentRoot := by
    obtain default | rule := chosen.served
    · rw [default]
      exact sound.root
    · obtain ⟨entry, there, same⟩ := List.mem_filterMap.mp rule
      exact sound.roots entry there _ same
  rw [chooseRoot, done, Option.bind_some]
  exact ⟨_, start, if_neg name.1, chosen, served, name⟩

end CppCode.Mongoose
