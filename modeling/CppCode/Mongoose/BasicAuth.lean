import CppCode.Mongoose.Base64Coding
import CppCode.Mongoose.HttpMessage

/-!
# Basic authentication

`mg_basic_auth_header` writes the credentials of a client into a header, and
`mg_parse_http_basic_auth` reads them with `sscanf` from the decoded value. The decoder is given the
whole length of the value, although six bytes of it are in front of the encoding; what it finds in
the memory behind the value must stop it.
-/

namespace CppCode.Mongoose

open Library

/-- `mg_basic_auth_header`: the bytes of the buffer after it. -/
def mgBasicAuthHeader (garbage buf user : Bytes) (pass : Option Bytes) : Bytes :=
  let ctx := csBase64Init garbage (buf ++ ascii "Authorization: Basic ")
  let ctx := csBase64Update ctx user
  let ctx :=
    match pass with
    | none => ctx
    | some pass => csBase64Update (csBase64Update ctx (ascii ":")) pass
  (csBase64Finish ctx).out ++ ascii "\r\n"

/-- `mg_strcmp`. -/
def mgStrcmp : Bytes → Bytes → Int
  | [], [] => 0
  | _ :: _, [] => 1
  | [], _ :: _ => -1
  | a :: left, b :: right => if a < b then -1 else if a > b then 1 else mgStrcmp left right

/-- `mg_strncmp`. -/
def mgStrncmp (left right : Bytes) (n : Nat) : Int := mgStrcmp (left.take n) (right.take n)

/-- What a conversion of `sscanf` reads at most; a width of zero is no limit in glibc. -/
def scanWidth (width : Nat) (input : Bytes) : Bytes :=
  if width = 0 then input else input.take width

/-- `sscanf` with `%123[^:]:%321[^\n]`: its result, and the strings that it stores. -/
def sscanfCredentials (input : Bytes) (userWidth passWidth : Nat) :
    Int × Option Bytes × Option Bytes :=
  let user := (scanWidth userWidth input).takeWhile (· ≠ 58)
  if input = [] then (-1, none, none)
  else if user = [] then (0, none, none)
  else
    let behind := input.drop user.length
    if behind.head? = some 58 then
      let pass := (scanWidth passWidth behind.tail).takeWhile (· ≠ 10)
      if pass = [] then (1, some user, none) else (2, some user, some pass)
    else (1, some user, none)

/-- `mg_parse_http_basic_auth`: its result, and the strings that it stores. -/
def mgParseHttpBasicAuth (memory : Bytes) (hdr : MgStr) (userLen passLen : Nat) :
    Int × Option Bytes × Option Bytes :=
  if mgStrncmp (hdr.slice memory) (ascii "Basic ") 6 ≠ 0 then (-1, none, none)
  else
    let buf := (csBase64Decode (memory.drop (hdr.p.getD 0 + 6)) hdr.len).2
    let scanned := sscanfCredentials (buf.takeWhile (· ≠ 0)) (userLen - 1) (passLen - 1)
    (if scanned.1 = 0 then -1 else 0, scanned.2)

/-- `mg_get_http_basic_auth`. -/
def mgGetHttpBasicAuth (memory : Bytes) (hm : HttpMessage) (userLen passLen : Nat) :
    Int × Option Bytes × Option Bytes :=
  match mgGetHttpHeader memory hm (ascii "Authorization") with
  | none => (-1, none, none)
  | some hdr => mgParseHttpBasicAuth memory hdr userLen passLen

/-! ## Writing -/

/-- The value of the header for credentials. -/
def credentials (user pass : Bytes) : Bytes := user ++ ascii ":" ++ pass

/-- The header holds the encoded credentials. -/
theorem mgBasicAuthHeader_eq {garbage : Bytes} (three : garbage.length = 3)
    (buf user pass : Bytes) :
    mgBasicAuthHeader garbage buf user (some pass) =
      buf ++ ascii "Authorization: Basic " ++ base64 (credentials user pass) ++ ascii "\r\n" := by
  have parts := base64Finish_out (base64Updates_represent
    (init_represents three (buf ++ ascii "Authorization: Basic ")) [user, ascii ":", pass])
  have whole : [] ++ [user, ascii ":", pass].flatten = credentials user pass := by
    simp [credentials]
  rw [whole] at parts
  rw [← parts]
  rfl

/-! ## Scanning -/

/-- A scan set takes a word up to the byte that stops it. -/
theorem scanned_word {word rest : Bytes} {width : Nat} {stop : UInt8} (positive : 0 < width)
    (fits : word.length ≤ width) (plain : stop ∉ word) (halt : ∀ byte ∈ rest.head?, byte = stop) :
    (scanWidth width (word ++ rest)).takeWhile (· ≠ stop) = word := by
  have through : ∀ byte ∈ word, decide (byte ≠ stop) = true := by
    intro byte member
    exact decide_eq_true (ne_of_mem_of_not_mem member plain)
  rw [scanWidth, if_neg (Nat.ne_of_gt positive), List.take_append, List.take_of_length_le fits,
    List.takeWhile_append_of_pos through]
  cases rest with
  | nil => simp
  | cons head tail =>
    have here := halt head rfl
    cases width - word.length with
    | zero => simp
    | succ more => simp [here]

/-- What `sscanf` stores is present, has no separator and fits into the widths of its format. -/
theorem sscanf_stored (input : Bytes) {userWidth passWidth : Nat} (userPositive : 0 < userWidth)
    (passPositive : 0 < passWidth) :
    (∀ user ∈ (sscanfCredentials input userWidth passWidth).2.1,
        user ≠ [] ∧ 58 ∉ user ∧ user.length ≤ userWidth) ∧
      ∀ pass ∈ (sscanfCredentials input userWidth passWidth).2.2,
        pass ≠ [] ∧ 10 ∉ pass ∧ pass.length ≤ passWidth := by
  have nothing : ∀ {property : Bytes → Prop}, ∀ text ∈ (none : Option Bytes), property text := by
    intro property text member
    exact absurd member (by simp)
  have scanned : ∀ (input : Bytes) (width : Nat) (stop : UInt8), 0 < width →
      (scanWidth width input).takeWhile (· ≠ stop) ≠ [] →
      ∀ text ∈ some ((scanWidth width input).takeWhile (· ≠ stop)),
        text ≠ [] ∧ stop ∉ text ∧ text.length ≤ width := by
    intro input width stop positive present text member
    obtain rfl := Option.some.inj member
    rw [scanWidth, if_neg (Nat.ne_of_gt positive)] at present ⊢
    refine ⟨present, ?_, ?_⟩
    · intro inside
      have other := List.mem_takeWhile_imp inside
      simp at other
    · exact (List.takeWhile_prefix _).length_le.trans (List.length_take_le _ _)
  unfold sscanfCredentials
  dsimp only
  split_ifs with empty no_user separated no_pass
  · exact ⟨nothing, nothing⟩
  · exact ⟨nothing, nothing⟩
  · exact ⟨scanned _ _ _ userPositive no_user, nothing⟩
  · exact ⟨scanned _ _ _ userPositive no_user, scanned _ _ _ passPositive no_pass⟩
  · exact ⟨scanned _ _ _ userPositive no_user, nothing⟩

/-- `sscanf` reads both strings of credentials when they are present, have no separator and fit. -/
theorem sscanf_credentials {user pass : Bytes} {userWidth passWidth : Nat}
    (positive : 0 < userWidth ∧ 0 < passWidth)
    (user_fine : user ≠ [] ∧ 58 ∉ user ∧ user.length ≤ userWidth)
    (pass_fine : pass ≠ [] ∧ 10 ∉ pass ∧ pass.length ≤ passWidth) :
    sscanfCredentials (credentials user pass) userWidth passWidth = (2, some user, some pass) := by
  have all : credentials user pass = user ++ 58 :: pass := by simp [credentials, ascii]
  have present : credentials user pass ≠ [] := by simp [all]
  have first := @scanned_word user (58 :: pass) userWidth 58 positive.1 user_fine.2.2 user_fine.2.1
    (by simp)
  have second := @scanned_word pass [] passWidth 10 positive.2 pass_fine.2.2 pass_fine.2.1 (by simp)
  rw [List.append_nil] at second
  rw [← all] at first
  have behind : (credentials user pass).drop user.length = 58 :: pass := by
    rw [all, List.drop_left]
  rw [sscanfCredentials, if_neg present, first]
  dsimp only
  rw [if_neg user_fine.1, behind, List.head?_cons, if_pos rfl, List.tail_cons, second,
    if_neg pass_fine.1]

/-- `sscanf` stores both strings exactly when they are present, have no separator and fit. -/
theorem sscanf_credentials_iff {user pass : Bytes} {userWidth passWidth : Nat}
    (positive : 0 < userWidth ∧ 0 < passWidth) :
    (sscanfCredentials (credentials user pass) userWidth passWidth).2 = (some user, some pass) ↔
      (user ≠ [] ∧ 58 ∉ user ∧ user.length ≤ userWidth) ∧
        pass ≠ [] ∧ 10 ∉ pass ∧ pass.length ≤ passWidth := by
  constructor
  · intro stored
    have fine := sscanf_stored (credentials user pass) positive.1 positive.2
    rw [stored] at fine
    exact ⟨fine.1 user rfl, fine.2 pass rfl⟩
  · rintro ⟨user_fine, pass_fine⟩
    rw [sscanf_credentials positive user_fine pass_fine]

/-! ## Reading -/

/-- `mg_strncmp` with a text at the front of the other. -/
theorem mgStrncmp_front (text rest : Bytes) : mgStrncmp (text ++ rest) text text.length = 0 := by
  have same : ∀ text : Bytes, mgStrcmp text text = 0 := by
    intro text
    induction text with
    | nil => rfl
    | cons byte rest ih =>
      have irrefl : ¬byte < byte := UInt8.lt_irrefl byte
      rw [mgStrcmp, if_neg irrefl, if_neg irrefl, ih]
  rw [mgStrncmp, List.take_left, List.take_length, same]

/-- Where credentials are written into a value, they are what is scanned. -/
theorem parse_credentials {memory before after user pass : Bytes} {userLen passLen : Nat}
    (plain : 0 ∉ credentials user pass)
    (place : memory = before ++ (ascii "Basic " ++ base64 (credentials user pass) ++ after))
    (stops : Stops after 6) :
    mgParseHttpBasicAuth memory
        ⟨some before.length, 6 + (base64 (credentials user pass)).length⟩ userLen passLen =
      let scanned := sscanfCredentials (credentials user pass) (userLen - 1) (passLen - 1)
      (if scanned.1 = 0 then -1 else 0, scanned.2) := by
  have value : MgStr.slice memory
      ⟨some before.length, 6 + (base64 (credentials user pass)).length⟩ =
        ascii "Basic " ++ base64 (credentials user pass) := by
    have length : (ascii "Basic " ++ base64 (credentials user pass)).length =
        6 + (base64 (credentials user pass)).length := List.length_append
    rw [MgStr.slice, place]
    dsimp only
    rw [List.drop_left, ← length, List.take_left]
  have scheme :
      mgStrncmp (ascii "Basic " ++ base64 (credentials user pass)) (ascii "Basic ") 6 = 0 :=
    mgStrncmp_front (ascii "Basic ") _
  have encoded : memory.drop (before.length + 6) =
      base64 (credentials user pass) ++ after := by
    rw [place, ← List.drop_drop, List.drop_left, List.append_assoc]
    rfl
  have decoded := @decoded_text (credentials user pass) after
    (6 + (base64 (credentials user pass)).length) (Nat.le_add_left _ _)
    (by rwa [Nat.add_sub_cancel])
  have text : (credentials user pass).takeWhile (· ≠ 0) = credentials user pass := by
    apply List.takeWhile_eq_self_iff.mpr
    intro byte member
    exact decide_eq_true (ne_of_mem_of_not_mem member plain)
  rw [mgParseHttpBasicAuth, value, scheme, if_neg (not_not.mpr rfl)]
  dsimp only
  rw [Option.getD_some, encoded, decoded, text]

/-- Credentials are scanned when the name and the password are there, fit and have no separator. -/
theorem scanned_iff {user pass : Bytes} {userLen passLen : Nat}
    (room : 1 < userLen ∧ 1 < passLen) :
    (let scanned := sscanfCredentials (credentials user pass) (userLen - 1) (passLen - 1)
     ((if scanned.1 = 0 then -1 else 0, scanned.2) : Int × Option Bytes × Option Bytes)) =
        (0, some user, some pass) ↔
      (user ≠ [] ∧ 58 ∉ user ∧ user.length < userLen) ∧
        pass ≠ [] ∧ 10 ∉ pass ∧ pass.length < passLen := by
  have positive : 0 < userLen - 1 ∧ 0 < passLen - 1 := by omega
  rw [Nat.lt_iff_le_pred (by omega), Nat.lt_iff_le_pred (by omega)]
  constructor
  · intro same
    exact (sscanf_credentials_iff positive).mp (congrArg Prod.snd same)
  · rintro ⟨user_fine, pass_fine⟩
    rw [sscanf_credentials positive user_fine pass_fine]
    rfl

/-- Strings that compare equal are equal. -/
theorem eq_of_mgStrcmp {left right : Bytes} (same : mgStrcmp left right = 0) : left = right := by
  induction left generalizing right with
  | nil =>
    cases right with
    | nil => rfl
    | cons b right => simp [mgStrcmp] at same
  | cons a left ih =>
    cases right with
    | nil => simp [mgStrcmp] at same
    | cons b right =>
      rw [mgStrcmp] at same
      by_cases less : a < b
      · rw [if_pos less] at same
        exact absurd same (by decide)
      · rw [if_neg less] at same
        by_cases more : a > b
        · rw [if_pos more] at same
          exact absurd same (by decide)
        · rw [if_neg more] at same
          have equal : a = b := UInt8.le_antisymm (UInt8.not_lt.mp more) (UInt8.not_lt.mp less)
          rw [equal, ih same]

/-- A value with the scheme has its six bytes. -/
theorem six_le_of_scheme {memory : Bytes} {hdr : MgStr}
    (scheme : mgStrncmp (hdr.slice memory) (ascii "Basic ") 6 = 0) : 6 ≤ hdr.len := by
  have front := congrArg List.length (eq_of_mgStrcmp scheme)
  have six : ((ascii "Basic ").take 6).length = 6 := by decide
  have short : (hdr.slice memory).length ≤ hdr.len := by
    unfold MgStr.slice
    split
    · exact Nat.zero_le _
    · exact List.length_take_le _ _
  rw [six, List.length_take] at front
  omega

/-- Memory that agrees up to the byte behind a value, which is not of the alphabet, is decoded
alike. -/
theorem decode_local {memory memory' : Bytes} {first last len : Nat} (order : first ≤ last)
    (inside : last < memory.length) (stops : fromB64 (memory.getD last 0) = 255)
    (same : memory'.take (last + 1) = memory.take (last + 1)) :
    csBase64Decode (memory'.drop first) len = csBase64Decode (memory.drop first) len := by
  have longer : last < memory'.length := by
    have lengths := congrArg List.length same
    rw [List.length_take, List.length_take] at lengths
    omega
  have parts : ∀ {bytes : Bytes}, bytes.take (last + 1) = memory.take (last + 1) →
      bytes.drop first =
        (memory.take last).drop first ++ memory.getD last 0 :: bytes.drop (last + 1) := by
    intro bytes agrees
    have begins : memory.take (last + 1) = memory.take last ++ [memory.getD last 0] := by
      rw [List.take_add_one, List.getD_eq_getElem?_getD, List.getElem?_eq_getElem inside]
      rfl
    have front : first ≤ (memory.take last).length := by
      rw [List.length_take]
      omega
    have whole := List.take_append_drop (last + 1) bytes
    rw [agrees, begins, List.append_assoc] at whole
    conv_lhs => rw [← whole, List.drop_append_of_le_length front]
    rfl
  rw [parts same, parts rfl, csBase64Decode, csBase64Decode,
    base64DecodeLoop_local stops (memory'.drop (last + 1)) (memory.drop (last + 1))]

end CppCode.Mongoose
