import CppCode.Mongoose.MatchPrefix

/-!
# Endpoints

A listener's endpoints have paths and handlers, and `mg_http_get_endpoint_handler` chooses the one
for a request. It is the longest path that the URI begins with, and of two equal ones the one that
was registered last (`mgHttpGetEndpointHandler_longest`).
-/

namespace CppCode.Mongoose

open Library

variable {Handler : Type}

/-! ## The code -/

/-- `struct mg_http_endpoint`, a handler `none` when it is NULL. -/
structure MgHttpEndpoint (Handler : Type) where
  /-- The `name_len` bytes at `name`. -/
  name : Bytes
  /-- `handler`. -/
  handler : Option Handler

/-- `mg_register_http_endpoint` of a C string with these bytes, for a listener with these
`endpoints`, when there is memory for the endpoint and its name. -/
def mgRegisterHttpEndpoint (endpoints : List (MgHttpEndpoint Handler)) (uriPath : Bytes)
    (handler : Option Handler) : List (MgHttpEndpoint Handler) :=
  ⟨uriPath, handler⟩ :: endpoints

/-- The loop of `mg_http_get_endpoint_handler`, with the byte behind the URI. It is `none` when the
match of a name compares more of the memory behind the URI than this byte. -/
def endpointLoop (uriEnd : UInt8) (uri : Bytes) :
    List (MgHttpEndpoint Handler) → Option Handler → Nat → Option (Option Handler)
  | [], ret, _ => some ret
  | ep :: next, ret, matchedMax => do
    match ← mgMatchPrefixN 0 uriEnd ep.name uri with
    | none => endpointLoop uriEnd uri next ret matchedMax
    | some matched =>
      if matchedMax < matched then endpointLoop uriEnd uri next ep.handler matched
      else endpointLoop uriEnd uri next ret matchedMax

/-- `mg_http_get_endpoint_handler` for a connection. -/
def mgHttpGetEndpointHandler (uriEnd : UInt8) (uri : Bytes)
    (endpoints : List (MgHttpEndpoint Handler)) : Option (Option Handler) :=
  endpointLoop uriEnd uri endpoints none 0

/-! ## The meaning -/

/-- The endpoints of a listener after these registrations. -/
def registered (paths : List (Bytes × Option Handler)) : List (MgHttpEndpoint Handler) :=
  paths.foldl (fun endpoints path => mgRegisterHttpEndpoint endpoints path.1 path.2) []

/-- A URI begins with a path, in any case. -/
def BeginsWith (path uri : Bytes) : Prop :=
  path.map tolower <+: uri.map tolower

instance (path uri : Bytes) : Decidable (BeginsWith path uri) :=
  inferInstanceAs (Decidable (path.map tolower <+: uri.map tolower))

/-- A path without signs of a pattern and without the byte behind the URI. -/
def PlainPath (uriEnd : UInt8) (path : Bytes) : Prop :=
  ∀ byte ∈ path, (byte ≠ 63 ∧ byte ≠ 36 ∧ byte ≠ 42 ∧ byte ≠ 124) ∧ tolower byte ≠ tolower uriEnd

instance (uriEnd : UInt8) (path : Bytes) : Decidable (PlainPath uriEnd path) :=
  inferInstanceAs (Decidable (∀ byte ∈ path, _))

/-- The handler that serves a URI, and the length of its path: of the paths that the URI begins with
the last one of those with the greatest length, and none when there are only empty ones. -/
inductive Serves (uri : Bytes) (paths : List (Bytes × Option Handler)) :
    Option Handler → Nat → Prop
  /-- The URI begins with no path that is not empty. -/
  | unserved : (∀ path ∈ paths, BeginsWith path.1 uri → path.1 = []) → Serves uri paths none 0
  /-- The paths before it are no longer, the ones behind it are shorter. -/
  | longest {earlier later path handler} : paths = earlier ++ (path, handler) :: later →
      path ≠ [] → BeginsWith path uri →
      (∀ other ∈ earlier, BeginsWith other.1 uri → other.1.length ≤ path.length) →
      (∀ other ∈ later, BeginsWith other.1 uri → other.1.length < path.length) →
      Serves uri paths handler path.length

/-! ## The search -/

/-- A plain path is compared byte by byte. -/
theorem matchAlternative_plain {uriEnd : UInt8} {path : Bytes} (plain : PlainPath uriEnd path)
    (uri : Bytes) :
    (BeginsWith path uri → matchAlternative 0 uriEnd path uri = some (some path.length)) ∧
      (¬BeginsWith path uri → matchAlternative 0 uriEnd path uri = some none) := by
  induction path generalizing uri with
  | nil =>
    refine ⟨fun _ => by simp [matchAlternative], fun differs => ?_⟩
    exact absurd List.nil_prefix differs
  | cons c path ih =>
    obtain ⟨⟨any, last, run, -⟩, behind⟩ := plain c List.mem_cons_self
    have rest : PlainPath uriEnd path := fun byte mem => plain byte (List.mem_cons_of_mem c mem)
    cases uri with
    | nil =>
      refine ⟨fun begins => ?_, fun _ => ?_⟩
      · simp [BeginsWith] at begins
      · rw [matchAlternative.eq_def]
        simp [last, run, behind]
    | cons byte uri =>
      have begins_cons : BeginsWith (c :: path) (byte :: uri) ↔
          tolower c = tolower byte ∧ BeginsWith path uri := by
        simp [BeginsWith, List.cons_prefix_cons]
      rw [begins_cons]
      by_cases same : tolower c = tolower byte
      · refine ⟨fun begins => ?_, fun differs => ?_⟩
        · rw [matchAlternative.eq_def]
          simp [any, last, run, same, (ih rest uri).1 begins.2]
        · have further : ¬BeginsWith path uri := fun begins => differs ⟨same, begins⟩
          rw [matchAlternative.eq_def]
          simp [any, last, run, same, (ih rest uri).2 further]
      · refine ⟨fun begins => absurd begins.1 same, fun _ => ?_⟩
        rw [matchAlternative.eq_def]
        simp [any, last, run, same]

/-- A plain path is a pattern without alternatives. -/
theorem mgMatchPrefixN_plain {uriEnd : UInt8} {path : Bytes} (plain : PlainPath uriEnd path)
    (uri : Bytes) : mgMatchPrefixN 0 uriEnd path uri = matchAlternative 0 uriEnd path uri := by
  have single : path.splitOn 124 = [path] :=
    List.splitOn_eq_singleton fun bar => (plain 124 bar).1.2.2.2 rfl
  rw [mgMatchPrefixN, single, matchAlternatives]

/-- A path that is no longer than the longest one leaves the choice as it is. -/
theorem endpointLoop_skip {uriEnd : UInt8} {uri : Bytes} {ep : MgHttpEndpoint Handler}
    (plain : PlainPath uriEnd ep.name) {matchedMax : Nat}
    (short : BeginsWith ep.name uri → ep.name.length ≤ matchedMax)
    (next : List (MgHttpEndpoint Handler)) (ret : Option Handler) :
    endpointLoop uriEnd uri (ep :: next) ret matchedMax =
      endpointLoop uriEnd uri next ret matchedMax := by
  rw [endpointLoop, mgMatchPrefixN_plain plain]
  by_cases begins : BeginsWith ep.name uri
  · rw [(matchAlternative_plain plain uri).1 begins]
    exact if_neg (Nat.not_lt.mpr (short begins))
  · rw [(matchAlternative_plain plain uri).2 begins]
    rfl

/-- A longer one is chosen. -/
theorem endpointLoop_take {uriEnd : UInt8} {uri : Bytes} {ep : MgHttpEndpoint Handler}
    (plain : PlainPath uriEnd ep.name) {matchedMax : Nat} (begins : BeginsWith ep.name uri)
    (long : matchedMax < ep.name.length) (next : List (MgHttpEndpoint Handler))
    (ret : Option Handler) :
    endpointLoop uriEnd uri (ep :: next) ret matchedMax =
      endpointLoop uriEnd uri next ep.handler ep.name.length := by
  rw [endpointLoop, mgMatchPrefixN_plain plain, (matchAlternative_plain plain uri).1 begins]
  exact if_pos long

/-! ## The choice -/

/-- No path that the URI begins with is longer. -/
theorem Serves.length_le {uri : Bytes} {paths : List (Bytes × Option Handler)}
    {handler : Option Handler} {length : Nat} (serves : Serves uri paths handler length) :
    ∀ other ∈ paths, BeginsWith other.1 uri → other.1.length ≤ length := by
  intro other mem begins
  cases serves with
  | unserved empty => rw [empty other mem begins, List.length_nil]
  | longest split full _ before behind =>
    rw [split] at mem
    rcases List.mem_append.mp mem with earlier | here
    · exact before other earlier begins
    · rcases List.mem_cons.mp here with rfl | later
      · exact Nat.le_refl _
      · exact Nat.le_of_lt (behind other later begins)

/-- An earlier path that is no longer changes nothing. -/
theorem Serves.skip {uri : Bytes} {paths : List (Bytes × Option Handler)}
    {handler : Option Handler} {length : Nat} (serves : Serves uri paths handler length)
    {first : Bytes × Option Handler} (short : BeginsWith first.1 uri → first.1.length ≤ length) :
    Serves uri (first :: paths) handler length := by
  cases serves with
  | unserved empty =>
    apply Serves.unserved
    intro other mem begins
    rcases List.mem_cons.mp mem with rfl | later
    · exact List.eq_nil_of_length_eq_zero (Nat.le_zero.mp (short begins))
    · exact empty other later begins
  | @longest earlier later path _ split full begins before behind =>
    have front : first :: paths = (first :: earlier) ++ (path, handler) :: later := by
      rw [split, List.cons_append]
    apply Serves.longest front full begins
    · intro other mem
      rcases List.mem_cons.mp mem with rfl | here
      · exact short
      · exact before other here
    · exact behind

/-- An earlier path that is longer serves the URI. -/
theorem Serves.take {uri : Bytes} {paths : List (Bytes × Option Handler)}
    {handler : Option Handler} {length : Nat} (serves : Serves uri paths handler length)
    {first : Bytes × Option Handler} (begins : BeginsWith first.1 uri)
    (long : length < first.1.length) :
    Serves uri (first :: paths) first.2 first.1.length := by
  have front : first :: paths = [] ++ (first.1, first.2) :: paths := rfl
  apply Serves.longest front (List.ne_nil_of_length_pos (by omega)) begins
  · intro other mem
    exact absurd mem List.not_mem_nil
  · intro other mem here
    exact Nat.lt_of_le_of_lt (serves.length_le other mem here) long

/-- Of two choices from one list the first is not in front of the second. -/
theorem eq_of_choices {uri path other : Bytes} {handler second : Option Handler}
    {middle later rest : List (Bytes × Option Handler)}
    (split : (path, handler) :: later = middle ++ (other, second) :: rest)
    (begins : BeginsWith path uri) (further : BeginsWith other uri)
    (before : ∀ entry ∈ middle, BeginsWith entry.1 uri → entry.1.length ≤ other.length)
    (behind : ∀ entry ∈ later, BeginsWith entry.1 uri → entry.1.length < path.length) :
    handler = second := by
  cases middle with
  | nil => simpa using congrArg (fun entries => entries.head?.map Prod.snd) split
  | cons entry middle =>
    rw [List.cons_append, List.cons.injEq] at split
    obtain ⟨rfl, rfl⟩ := split
    have no_longer := before _ List.mem_cons_self begins
    have shorter := behind (other, second) (by simp) further
    exact absurd no_longer (Nat.not_le.mpr shorter)

/-- One handler serves a URI. -/
theorem Serves.unique {uri : Bytes} {paths : List (Bytes × Option Handler)}
    {first second : Option Handler} {m n : Nat} (one : Serves uri paths first m)
    (two : Serves uri paths second n) : first = second := by
  have chosen : ∀ {earlier later path handler}, paths = earlier ++ (path, handler) :: later →
      (path, handler) ∈ paths := fun split => by rw [split]; simp
  cases one with
  | unserved empty =>
    cases two with
    | unserved => rfl
    | longest split full begins => exact absurd (empty _ (chosen split) begins) full
  | longest split full begins before behind =>
    cases two with
    | unserved empty => exact absurd (empty _ (chosen split) begins) full
    | longest again _ further ahead beyond =>
      rw [split] at again
      -- one of the two stands in front of the other
      rcases List.append_eq_append_iff.mp again with ⟨middle, rfl, rest⟩ | ⟨middle, rfl, rest⟩
      · exact eq_of_choices rest begins further
          (fun entry mem => ahead entry (List.mem_append_right _ mem)) behind
      · exact (eq_of_choices rest further begins
          (fun entry mem => before entry (List.mem_append_right _ mem)) beyond).symm

/-- The loop goes on from the choice among the paths that were registered later. -/
theorem endpointLoop_serves {uriEnd : UInt8} {uri : Bytes}
    {earlier later : List (Bytes × Option Handler)} {ret : Option Handler} {matchedMax : Nat}
    (plain : ∀ path ∈ earlier, PlainPath uriEnd path.1) (serves : Serves uri later ret matchedMax) :
    ∃ handler length, endpointLoop uriEnd uri (registered earlier) ret matchedMax = some handler ∧
      Serves uri (earlier ++ later) handler length := by
  -- the list of the endpoints begins with the one that was registered last
  induction earlier using List.reverseRecOn generalizing later ret matchedMax with
  | nil => exact ⟨ret, matchedMax, rfl, serves⟩
  | append_singleton earlier path ih =>
    have rest : ∀ other ∈ earlier, PlainPath uriEnd other.1 :=
      fun other mem => plain other (List.mem_append_left _ mem)
    have here : PlainPath uriEnd path.1 := plain path (by simp)
    have head : registered (earlier ++ [path]) = ⟨path.1, path.2⟩ :: registered earlier := by
      simp [registered, mgRegisterHttpEndpoint]
    rw [head, List.append_assoc, List.singleton_append]
    by_cases longer : BeginsWith path.1 uri ∧ matchedMax < path.1.length
    · rw [endpointLoop_take here longer.1 longer.2]
      exact ih rest (serves.take longer.1 longer.2)
    · have short : BeginsWith path.1 uri → path.1.length ≤ matchedMax :=
        fun begins => Nat.not_lt.mp fun long => longer ⟨begins, long⟩
      rw [endpointLoop_skip here short]
      exact ih rest (serves.skip short)

/-- After any registrations of plain paths a request goes to the longest one that its URI begins
with, and of two of this length to the one that was registered last. -/
theorem mgHttpGetEndpointHandler_longest {uriEnd : UInt8}
    {paths : List (Bytes × Option Handler)} (plain : ∀ path ∈ paths, PlainPath uriEnd path.1)
    (uri : Bytes) (handler : Option Handler) :
    mgHttpGetEndpointHandler uriEnd uri (registered paths) = some handler ↔
      ∃ length, Serves uri paths handler length := by
  have none_yet : Serves uri ([] : List (Bytes × Option Handler)) none 0 :=
    Serves.unserved fun path mem => absurd mem List.not_mem_nil
  obtain ⟨chosen, length, found, serves⟩ := endpointLoop_serves plain none_yet
  rw [List.append_nil] at serves
  have result : mgHttpGetEndpointHandler uriEnd uri (registered paths) = some chosen := found
  rw [result, Option.some.injEq]
  constructor
  · rintro rfl
    exact ⟨length, serves⟩
  · rintro ⟨_, other⟩
    exact serves.unique other

/-- A path that was registered between two shorter ones serves its URIs. -/
theorem item_served :
    mgHttpGetEndpointHandler 32 (ascii "/API/items")
      (registered [(ascii "/", some 1), (ascii "/api", some 2), (ascii "/a", some 3)]) =
        some (some 2) := by
  apply (mgHttpGetEndpointHandler_longest (by decide +kernel) _ _).mpr
  have split : [(ascii "/", some 1), (ascii "/api", some 2), (ascii "/a", some 3)] =
      [(ascii "/", some 1)] ++ (ascii "/api", some 2) :: [(ascii "/a", some 3)] := rfl
  exact ⟨4, Serves.longest split (by decide) (by decide +kernel) (by decide +kernel)
    (by decide +kernel)⟩

end CppCode.Mongoose
