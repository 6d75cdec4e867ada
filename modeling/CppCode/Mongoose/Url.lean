import CppCode.Mongoose.Text

/-!
# The URL of a request

`mg_http_common_url_parse` copies the part of a URL in front of its path byte by byte and notes
where it saw a colon and an at sign. It cuts user name and password out of the copy, and appends the
default port of the scheme. It takes for granted that a colon was seen in front of the at sign:
without one, it copies the user name with the length -1 (`urlParse_copies_iff`).
-/

namespace CppCode.Mongoose

open Library

/-- What `mg_http_common_url_parse` gives back. -/
structure UrlParts where
  /-- `*use_ssl`. -/
  useSsl : Bool
  /-- `*user`, `NULL` without user information. -/
  user : Option Bytes
  /-- `*pass`. -/
  pass : Option Bytes
  /-- `*addr`. -/
  addr : Bytes
  /-- `*port_i`, the length of the copy when the default port was appended to it, or -1. -/
  portI : Option Nat
  /-- `*path`. -/
  path : Bytes
  deriving DecidableEq, Repr

/-- How it fails. -/
inductive UrlError
  /-- It returns -1. -/
  | failed
  /-- It copies the user name with the length -1: `memcpy(*user, *addr, user_sep_pos)`. -/
  | copies
  deriving DecidableEq, Repr

/-- The copy of the URL, and the positions in it, of which -1 is `none`. -/
structure UrlScan where
  /-- The bytes copied so far. -/
  addr : Bytes := []
  /-- `auth_sep_pos`. -/
  authSepPos : Option Nat := none
  /-- `user_sep_pos`. -/
  userSepPos : Option Nat := none
  /-- `port_pos`. -/
  portPos : Option Nat := none
  deriving DecidableEq, Repr

/-- Copy a byte. -/
def UrlScan.byte (scan : UrlScan) (byte : UInt8) : UrlScan :=
  let scan :=
    if byte = 64 then
      { scan with authSepPos := scan.addr.length, userSepPos := scan.portPos, portPos := none }
    else scan
  let scan := if byte = 58 then { scan with portPos := scan.addr.length } else scan
  { scan with addr := scan.addr ++ [byte] }

/-- The loop of `mg_http_common_url_parse`: what was copied, and the URL from the path on. -/
def urlLoop (scan : UrlScan) : Bytes → UrlScan × Bytes
  | [] => (scan, [])
  | byte :: url => if byte = 47 then (scan, byte :: url) else urlLoop (scan.byte byte) url

/-- The port that is appended to an address without one. -/
def defaultPort (useSsl : Bool) : Bytes := if useSsl then ascii ":443" else ascii ":80"

/-- `mg_http_common_url_parse` on a C string with a length in `int`, built with or without SSL;
`path` is `*path`, and `wanted` says whether `user` and `pass` are given. -/
def mgHttpCommonUrlParse (sslEnabled : Bool) (url schema schemaTls : Bytes) (wanted : Bool)
    (path : Option Bytes) : Except UrlError UrlParts :=
  let plain := schema.isPrefixOf url
  let useSsl := !plain && schemaTls.isPrefixOf url
  let url :=
    if plain then url.drop schema.length else if useSsl then url.drop schemaTls.length else url
  if useSsl && !sslEnabled then .error .failed
  else
    let (scan, url) := urlLoop {} url
    if scan.addr.length = 0 then .error .failed
    else
      let (portI, addr) :=
        match scan.portPos with
        | none => (some scan.addr.length, scan.addr ++ defaultPort useSsl)
        | some _ => (none, scan.addr)
      let path := path.getD url
      let path := if path = [] then ascii "/" else path
      if wanted then
        match scan.authSepPos, scan.userSepPos with
        | none, _ => .ok ⟨useSsl, none, none, addr, portI, path⟩
        | some _, none => .error .copies
        | some auth, some sep =>
          .ok ⟨useSsl, some (addr.take sep), some ((addr.drop (sep + 1)).take (auth - sep - 1)),
            addr.drop (auth + 1), portI, path⟩
      else .ok ⟨useSsl, none, none, addr, portI, path⟩

/-! ## The loop -/

/-- The loop copies a word up to the path. -/
theorem urlLoop_word {word rest : Bytes} (inside : 47 ∉ word) (scan : UrlScan) :
    urlLoop scan (word ++ rest) = urlLoop (word.foldl UrlScan.byte scan) rest := by
  induction word generalizing scan with
  | nil => rfl
  | cons byte word ih =>
    have other : byte ≠ 47 := fun same => inside (same ▸ List.mem_cons_self)
    rw [List.cons_append, urlLoop, if_neg other,
      ih fun later => inside (List.mem_cons_of_mem _ later)]
    rfl

/-- The loop stops at the path. -/
theorem urlLoop_path {path : Bytes} (starts : ∀ byte ∈ path.head?, byte = 47) (scan : UrlScan) :
    urlLoop scan path = (scan, path) := by
  cases path with
  | nil => rfl
  | cons byte path => rw [urlLoop, if_pos (starts byte rfl)]

/-- Every word is copied. -/
theorem foldl_byte_addr (word : Bytes) (scan : UrlScan) :
    (word.foldl UrlScan.byte scan).addr = scan.addr ++ word := by
  induction word generalizing scan with
  | nil => exact (List.append_nil _).symm
  | cons byte word ih =>
    have one : (scan.byte byte).addr = scan.addr ++ [byte] := by
      rw [UrlScan.byte]
      split_ifs <;> rfl
    rw [List.foldl_cons, ih, one, List.append_assoc]
    rfl

/-- A word without separators leaves the positions as they are. -/
theorem foldl_byte_plain {word : Bytes} (noAt : 64 ∉ word) (noColon : 58 ∉ word) (scan : UrlScan) :
    word.foldl UrlScan.byte scan = { scan with addr := scan.addr ++ word } := by
  induction word generalizing scan with
  | nil => simp
  | cons byte word ih =>
    have other : byte ≠ 64 := fun same => noAt (same ▸ List.mem_cons_self)
    have other' : byte ≠ 58 := fun same => noColon (same ▸ List.mem_cons_self)
    rw [List.foldl_cons, UrlScan.byte, if_neg other, if_neg other',
      ih (fun later => noAt (List.mem_cons_of_mem _ later))
        fun later => noColon (List.mem_cons_of_mem _ later), List.append_assoc]
    rfl

/-- A word without an at sign leaves the user information as it is, and a colon stays unseen in it
when there is none. -/
theorem foldl_byte_noAt {word : Bytes} (noAt : 64 ∉ word) (scan : UrlScan) :
    (word.foldl UrlScan.byte scan).authSepPos = scan.authSepPos ∧
      (word.foldl UrlScan.byte scan).userSepPos = scan.userSepPos ∧
      ((word.foldl UrlScan.byte scan).portPos = none ↔ scan.portPos = none ∧ 58 ∉ word) := by
  induction word generalizing scan with
  | nil => simp
  | cons byte word ih =>
    have other : byte ≠ 64 := fun same => noAt (same ▸ List.mem_cons_self)
    obtain ⟨auth, user, port⟩ := ih (fun later => noAt (List.mem_cons_of_mem _ later))
      (scan.byte byte)
    rw [List.foldl_cons, auth, user, port, UrlScan.byte, if_neg other, List.mem_cons, not_or]
    by_cases colon : byte = 58
    · simp [colon]
    · simp [colon, Ne.symm colon]

/-- The part in front of the last at sign but one, and the at sign. -/
def IsLead (lead : Bytes) : Prop := lead = [] ∨ lead.getLast? = some 64

/-- Behind an at sign no colon was seen. -/
theorem foldl_byte_lead {lead : Bytes} (isLead : IsLead lead) :
    (lead.foldl UrlScan.byte {}).portPos = none := by
  obtain rfl | ends := isLead
  · rfl
  · obtain ⟨front, rfl⟩ := List.getLast?_eq_some_iff.mp ends
    rw [List.foldl_append]
    rfl

/-- The scan of a part with user information: the user name ends at the last colon in front of the
at sign, if there is one behind the at sign before it. -/
theorem foldl_byte_info {lead info host : Bytes} (isLead : IsLead lead) (noAt : 64 ∉ info)
    (noAt' : 64 ∉ host) :
    ((lead ++ info ++ 64 :: host).foldl UrlScan.byte {}).authSepPos =
        some (lead ++ info).length ∧
      (((lead ++ info ++ 64 :: host).foldl UrlScan.byte {}).userSepPos = none ↔ 58 ∉ info) ∧
      (((lead ++ info ++ 64 :: host).foldl UrlScan.byte {}).portPos = none ↔ 58 ∉ host) := by
  have copied := foldl_byte_addr (lead ++ info) {}
  rw [List.nil_append] at copied
  obtain ⟨-, -, port⟩ := foldl_byte_noAt noAt (lead.foldl UrlScan.byte {})
  rw [← List.foldl_append] at port
  rw [List.foldl_append, List.foldl_cons]
  generalize (lead ++ info).foldl UrlScan.byte {} = scan at copied port
  obtain ⟨auth, user, behind⟩ := foldl_byte_noAt noAt' (scan.byte 64)
  rw [auth, user, behind, ← copied]
  refine ⟨rfl, ?_, ?_⟩
  · show scan.portPos = none ↔ _
    rw [port]
    exact and_iff_right (foldl_byte_lead isLead)
  · exact and_iff_right rfl

/-! ## URLs -/

/-- A URL of one of the two schemes, which is the one with TLS only in a build with SSL: what
follows its scheme. -/
def HasScheme (sslEnabled useSsl : Bool) (schema schemaTls url rest : Bytes) : Prop :=
  if useSsl then sslEnabled = true ∧ ¬schema <+: url ∧ url = schemaTls ++ rest
  else url = schema ++ rest

section
variable {schema schemaTls url : Bytes} {sslEnabled useSsl : Bool}

/-- The two tests of the scheme, and what is left of the URL. -/
theorem HasScheme.tests {rest : Bytes}
    (scheme : HasScheme sslEnabled useSsl schema schemaTls url rest) :
    (!schema.isPrefixOf url && schemaTls.isPrefixOf url) = useSsl ∧
      (useSsl && !sslEnabled) = false ∧
      (if schema.isPrefixOf url = true then url.drop schema.length
        else if useSsl = true then url.drop schemaTls.length else url) = rest := by
  cases useSsl with
  | false =>
    obtain rfl : url = schema ++ rest := scheme
    have plain : schema.isPrefixOf (schema ++ rest) = true :=
      List.isPrefixOf_iff_prefix.mpr (List.prefix_append _ _)
    simp [plain]
  | true =>
    obtain ⟨rfl, other, rfl⟩ :
        sslEnabled = true ∧ ¬schema <+: url ∧ url = schemaTls ++ rest := scheme
    have plain : schema.isPrefixOf (schemaTls ++ rest) = false := by
      rw [Bool.eq_false_iff]
      exact fun same => other (List.isPrefixOf_iff_prefix.mp same)
    have tls : schemaTls.isPrefixOf (schemaTls ++ rest) = true :=
      List.isPrefixOf_iff_prefix.mpr (List.prefix_append _ _)
    simp [plain, tls]

/-- A URL, by the scan of its part in front of the path. -/
theorem urlParse_eq {authority path : Bytes}
    (scheme : HasScheme sslEnabled useSsl schema schemaTls url (authority ++ path))
    (inside : 47 ∉ authority) (starts : ∀ byte ∈ path.head?, byte = 47) (present : authority ≠ [])
    (given : Option Bytes) :
    mgHttpCommonUrlParse sslEnabled url schema schemaTls true given =
      let scan := authority.foldl UrlScan.byte {}
      let addr := if scan.portPos = none then authority ++ defaultPort useSsl else authority
      let portI := if scan.portPos = none then some authority.length else none
      let path := if given.getD path = [] then ascii "/" else given.getD path
      match scan.authSepPos, scan.userSepPos with
      | none, _ => .ok ⟨useSsl, none, none, addr, portI, path⟩
      | some _, none => .error .copies
      | some auth, some sep =>
        .ok ⟨useSsl, some (addr.take sep), some ((addr.drop (sep + 1)).take (auth - sep - 1)),
          addr.drop (auth + 1), portI, path⟩ := by
  obtain ⟨tls, built, behind⟩ := scheme.tests
  have copied := foldl_byte_addr authority {}
  rw [List.nil_append] at copied
  have some_bytes : authority.length ≠ 0 := fun none => present (List.length_eq_zero_iff.mp none)
  rw [mgHttpCommonUrlParse]
  simp only [tls, built, behind, Bool.false_eq_true, if_false, if_true, urlLoop_word inside,
    urlLoop_path starts, copied, some_bytes]
  cases (authority.foldl UrlScan.byte {}).portPos with
  | none => simp only [if_true]
  | some port => simp only [reduceCtorEq, if_false]

/-- The last occurrence of a byte. -/
theorem last_split {byte : UInt8} {word : Bytes} (member : byte ∈ word) :
    ∃ front back, word = front ++ byte :: back ∧ byte ∉ back := by
  obtain ⟨back, front, reversed, missing⟩ :=
    List.eq_append_cons_of_mem (List.mem_reverse.mpr member)
  refine ⟨front.reverse, back.reverse, ?_, fun later => missing (List.mem_reverse.mp later)⟩
  rw [← List.reverse_reverse word, reversed]
  simp

/-- User information is between the last at sign and the one before it. -/
theorem info_split {authority : Bytes} (member : 64 ∈ authority) :
    ∃ lead info host, authority = lead ++ info ++ 64 :: host ∧ IsLead lead ∧ 64 ∉ info ∧
      64 ∉ host := by
  obtain ⟨front, host, rfl, noHost⟩ := last_split member
  by_cases more : 64 ∈ front
  · obtain ⟨lead, info, rfl, noInfo⟩ := last_split more
    refine ⟨lead ++ [64], info, host, by simp, Or.inr ?_, noInfo, noHost⟩
    exact List.getLast?_concat
  · exact ⟨[], front, host, rfl, Or.inl rfl, more, noHost⟩

/-- A URL without user information is cut at its path, and gets the default port when it has none.
-/
theorem urlParse_plain {authority path : Bytes}
    (scheme : HasScheme sslEnabled useSsl schema schemaTls url (authority ++ path))
    (inside : 47 ∉ authority) (starts : ∀ byte ∈ path.head?, byte = 47) (present : authority ≠ [])
    (noAt : 64 ∉ authority) :
    mgHttpCommonUrlParse sslEnabled url schema schemaTls true none =
      .ok ⟨useSsl, none, none,
        if 58 ∈ authority then authority else authority ++ defaultPort useSsl,
        if 58 ∈ authority then none else some authority.length,
        if path = [] then ascii "/" else path⟩ := by
  obtain ⟨auth, -, port⟩ := foldl_byte_noAt noAt {}
  have seen : ((authority.foldl UrlScan.byte {}).portPos = none) = ¬58 ∈ authority :=
    propext (port.trans (and_iff_right rfl))
  rw [urlParse_eq scheme inside starts present]
  simp only [auth, seen, ite_not, Option.getD_none]

/-- A URL with user information, whose path the caller may have given. -/
theorem urlParse_userInfo {user pass host path : Bytes}
    (scheme : HasScheme sslEnabled useSsl schema schemaTls url
      (user ++ 58 :: pass ++ 64 :: host ++ path))
    (inside : 47 ∉ user ++ 58 :: pass ++ 64 :: host) (starts : ∀ byte ∈ path.head?, byte = 47)
    (password : 58 ∉ pass ∧ 64 ∉ pass) (noAt : 64 ∉ host) (given : Option Bytes) :
    mgHttpCommonUrlParse sslEnabled url schema schemaTls true given =
      .ok ⟨useSsl, some user, some pass,
        if 58 ∈ host then host else host ++ defaultPort useSsl,
        if 58 ∈ host then none else some (user ++ 58 :: pass ++ 64 :: host).length,
        if given.getD path = [] then ascii "/" else given.getD path⟩ := by
  have copied := foldl_byte_addr user {}
  rw [List.nil_append] at copied
  have before : (user ++ 58 :: pass).foldl UrlScan.byte {} =
      { (user.foldl UrlScan.byte {}).byte 58 with addr := user ++ 58 :: pass } := by
    rw [List.foldl_append, List.foldl_cons, foldl_byte_plain password.2 password.1]
    simp [UrlScan.byte, copied]
  obtain ⟨auth, sep, port⟩ := foldl_byte_noAt noAt
    (((user ++ 58 :: pass).foldl UrlScan.byte {}).byte 64)
  rw [← List.foldl_cons, ← List.foldl_append] at auth sep port
  rw [before] at auth sep port
  have authPos : ((user ++ 58 :: pass ++ 64 :: host).foldl UrlScan.byte {}).authSepPos =
      some (user ++ 58 :: pass).length := auth
  have sepPos : ((user ++ 58 :: pass ++ 64 :: host).foldl UrlScan.byte {}).userSepPos =
      some user.length := by
    have colonPos : ((user.foldl UrlScan.byte {}).byte 58).portPos =
        some (user.foldl UrlScan.byte {}).addr.length := rfl
    rw [copied] at colonPos
    exact sep.trans colonPos
  have seen : (((user ++ 58 :: pass ++ 64 :: host).foldl UrlScan.byte {}).portPos = none) =
      ¬58 ∈ host := propext (port.trans (and_iff_right rfl))
  rw [urlParse_eq scheme inside starts (by simp) given]
  simp only [authPos, sepPos, seen, ite_not]
  have cut : ∀ tail : Bytes, (user ++ 58 :: pass ++ 64 :: host ++ tail).take user.length = user ∧
      ((user ++ 58 :: pass ++ 64 :: host ++ tail).drop (user.length + 1)).take
        ((user ++ 58 :: pass).length - user.length - 1) = pass ∧
      (user ++ 58 :: pass ++ 64 :: host ++ tail).drop ((user ++ 58 :: pass).length + 1) =
        host ++ tail := by
    intro tail
    have length : (user ++ 58 :: pass).length = user.length + (pass.length + 1) :=
      List.length_append
    refine ⟨?_, ?_, ?_⟩
    · rw [List.append_assoc, List.append_assoc, List.take_left]
    · rw [List.append_assoc, List.append_assoc, ← List.drop_drop, List.drop_left, length]
      have count : user.length + (pass.length + 1) - user.length - 1 = pass.length := by omega
      rw [count]
      exact List.take_left
    · rw [List.append_assoc, ← List.drop_drop, List.drop_left]
      rfl
  by_cases colon : 58 ∈ host
  · obtain ⟨first, second, third⟩ := cut []
    simp only [List.append_nil] at first second third
    simp only [colon, if_true, first, second, third]
  · obtain ⟨first, second, third⟩ := cut (defaultPort useSsl)
    simp only [colon, if_false, first, second, third]

/-- User name and password are read from a URL without a slash in front of its path, also a user
name with colons and at signs, when the password has none of them and the host no at sign. The port
is the default one of the scheme when the host has none. -/
theorem urlParse_credentials {user pass host path : Bytes}
    (scheme : HasScheme sslEnabled useSsl schema schemaTls url
      (user ++ 58 :: pass ++ 64 :: host ++ path))
    (inside : 47 ∉ user ++ 58 :: pass ++ 64 :: host) (starts : ∀ byte ∈ path.head?, byte = 47)
    (password : 58 ∉ pass ∧ 64 ∉ pass) (noAt : 64 ∉ host) :
    mgHttpCommonUrlParse sslEnabled url schema schemaTls true none =
      .ok ⟨useSsl, some user, some pass,
        if 58 ∈ host then host else host ++ defaultPort useSsl,
        if 58 ∈ host then none else some (user ++ 58 :: pass ++ 64 :: host).length,
        if path = [] then ascii "/" else path⟩ :=
  urlParse_userInfo scheme inside starts password noAt none

/-- A user name with both separators, and the default port of the scheme with TLS. -/
theorem mail_address_read :
    mgHttpCommonUrlParse true (ascii "https://a:b@c:pass@host/close") (ascii "http://")
        (ascii "https://") true none =
      .ok ⟨true, some (ascii "a:b@c"), some (ascii "pass"),
        if 58 ∈ ascii "host" then ascii "host" else ascii "host" ++ defaultPort true,
        if 58 ∈ ascii "host" then none
        else some (ascii "a:b@c" ++ 58 :: ascii "pass" ++ 64 :: ascii "host").length,
        if ascii "/close" = [] then ascii "/" else ascii "/close"⟩ :=
  urlParse_credentials ⟨rfl, by decide, by decide +kernel⟩ (by decide) (by decide +kernel)
    (by decide) (by decide)

/-- The user name of a URL with user information is copied with the length -1, exactly when no colon
is between its last at sign and the one before it. -/
theorem urlParse_copies_iff {authority path : Bytes}
    (scheme : HasScheme sslEnabled useSsl schema schemaTls url (authority ++ path))
    (inside : 47 ∉ authority) (starts : ∀ byte ∈ path.head?, byte = 47) :
    mgHttpCommonUrlParse sslEnabled url schema schemaTls true none = .error .copies ↔
      ∃ lead info host, authority = lead ++ info ++ 64 :: host ∧ IsLead lead ∧ 64 ∉ info ∧
        64 ∉ host ∧ 58 ∉ info := by
  by_cases present : authority = []
  · subst present
    have failed : mgHttpCommonUrlParse sslEnabled url schema schemaTls true none =
        .error .failed := by
      obtain ⟨tls, built, behind⟩ := scheme.tests
      rw [List.nil_append] at behind
      rw [mgHttpCommonUrlParse]
      simp only [tls, built, behind, urlLoop_path starts, Bool.false_eq_true, if_false]
      rfl
    rw [failed]
    simp
  · rw [urlParse_eq scheme inside starts present]
    by_cases member : 64 ∈ authority
    · constructor
      · intro copies
        obtain ⟨lead, info, host, rfl, isLead, noInfo, noHost⟩ := info_split member
        refine ⟨lead, info, host, rfl, isLead, noInfo, noHost, ?_⟩
        obtain ⟨auth, sep, -⟩ := foldl_byte_info isLead noInfo noHost
        apply sep.mp
        by_contra seen
        obtain ⟨pos, known⟩ := Option.ne_none_iff_exists'.mp seen
        simp only [auth, known] at copies
        cases copies
      · rintro ⟨lead, info, host, rfl, isLead, noInfo, noHost, noColon⟩
        obtain ⟨auth, sep, -⟩ := foldl_byte_info isLead noInfo noHost
        simp only [auth, sep.mpr noColon]
    · obtain ⟨auth, -, -⟩ := foldl_byte_noAt member {}
      simp only [auth]
      constructor
      · intro copies
        cases copies
      · rintro ⟨lead, info, host, rfl, -⟩
        exact absurd (by simp) member

/-- A user name without a password. -/
theorem name_without_password :
    mgHttpCommonUrlParse false (ascii "http://admin@127.0.0.1/") (ascii "http://")
      (ascii "https://") true none = .error .copies :=
  (@urlParse_copies_iff _ _ _ false false (ascii "admin@127.0.0.1") (ascii "/") rfl (by decide)
    (by decide +kernel)).mpr
    ⟨[], ascii "admin", ascii "127.0.0.1", by decide, Or.inl rfl, by decide, by decide, by decide⟩

end

end CppCode.Mongoose
