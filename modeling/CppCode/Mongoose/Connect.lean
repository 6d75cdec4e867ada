import CppCode.Mongoose.BasicAuth
import CppCode.Mongoose.Requests
import CppCode.Mongoose.Send
import CppCode.Mongoose.Url

/-!
# The request of a client

`mg_connect_http_opt` takes a URL apart and prints a request for it. The request has the target and
the host of the URL, the length of the posted data, and the user information as credentials. With
user information and no port, the default port stays in the host: the place where it was appended is
remembered from before the user information was cut away.
-/

namespace CppCode.Mongoose

open Library

/-- The address after `mg_connect_http_base` took away the default port. -/
def UrlParts.host (parts : UrlParts) : Bytes :=
  match parts.portI with
  | none => parts.addr
  | some i => parts.addr.take i

/-- What `mg_connect_http_opt` sends on the connection that `mg_connect_opt` returns. -/
def mgConnectHttpOpt (garbage : Bytes) (sslEnabled : Bool) (url : Bytes)
    (extraHeaders postData : Option Bytes) : Except UrlError Bytes :=
  match mgHttpCommonUrlParse sslEnabled url (ascii "http://") (ascii "https://") true none with
  | .error error => .error error
  | .ok parts =>
    let auth :=
      match parts.user with
      | none => []
      | some user => mgBasicAuthHeader garbage [] user parts.pass
    let method := if postData.isNone then ascii "GET" else ascii "POST"
    .ok (mgPrintf [] (method ++ ascii " " ++ parts.path ++ ascii " HTTP/1.1\r\nHost: " ++
      parts.host ++ ascii "\r\nContent-Length: " ++ decimal (postData.getD []).length ++
      ascii "\r\n" ++ auth ++ extraHeaders.getD [] ++ ascii "\r\n" ++ postData.getD []))

/-! ## Requests -/

/-- A request, as the caller of `mg_connect_http_opt` means it. -/
structure UrlRequest where
  /-- User name and password. -/
  userInfo : Option (Bytes × Bytes)
  /-- Host, and port if it has one. -/
  host : Bytes
  /-- The URL from the path on. -/
  path : Bytes
  /-- Additional headers. -/
  extra : List Field
  /-- Data to post. -/
  post : Option Bytes

namespace UrlRequest

/-- The user information of the URL. -/
def info (request : UrlRequest) : Bytes :=
  match request.userInfo with
  | none => []
  | some (user, pass) => user ++ 58 :: pass ++ [64]

/-- The URL. -/
def url (request : UrlRequest) : Bytes :=
  ascii "http://" ++ (request.info ++ request.host ++ request.path)

/-- The method. -/
def method (request : UrlRequest) : Bytes :=
  if request.post.isNone then ascii "GET" else ascii "POST"

/-- The target. -/
def target (request : UrlRequest) : Bytes := if request.path = [] then ascii "/" else request.path

/-- The body. -/
def body (request : UrlRequest) : Bytes := request.post.getD []

/-- What stays behind the host: the default port, which was appended to find the address, when there
is user information in front of the host and the host has no port of its own. -/
def leftPort (request : UrlRequest) : Bytes :=
  if request.userInfo.isNone ∨ 58 ∈ request.host then [] else ascii ":80"

/-- The host as it is sent. -/
def hostField (request : UrlRequest) : Bytes := request.host ++ request.leftPort

/-- The field of the credentials. -/
def authorization (user pass : Bytes) : Field :=
  ⟨ascii "Authorization", ascii "Basic " ++ base64 (credentials user pass)⟩

/-- The field of the credentials, if there are any. -/
def infoFields (request : UrlRequest) : List Field :=
  match request.userInfo with
  | none => []
  | some (user, pass) => [authorization user pass]

/-- The fields behind the host. -/
def others (request : UrlRequest) : List Field :=
  ⟨ascii "Content-Length", decimal request.body.length⟩ :: (request.infoFields ++ request.extra)

/-- The fields. -/
def fields (request : UrlRequest) : List Field :=
  ⟨ascii "Host", request.hostField⟩ :: request.others

/-- The block. -/
def block (request : UrlRequest) : Bytes :=
  requestBlock request.method request.target request.fields

/-- The bytes. -/
def bytes (request : UrlRequest) : Bytes := request.block ++ request.body

/-- A request that a URL can express: its parts have no separators that end them, and the additional
headers do not change its framing. -/
structure Valid (request : UrlRequest) : Prop where
  /-- The host is a word that does not begin with a colon. -/
  host : IsWord request.host ∧ request.host.head? ≠ some colon
  /-- It has neither slash nor at sign. -/
  hostEnd : 47 ∉ request.host ∧ 64 ∉ request.host
  /-- The path begins with a slash, if there is one. -/
  path : request.path = [] ∨ IsWord request.path ∧ request.path.head? = some 47
  /-- User name and password are there and without a slash. -/
  info : ∀ info ∈ request.userInfo, info.1 ≠ [] ∧ info.2 ≠ [] ∧ 47 ∉ info.1 ∧ 47 ∉ info.2
  /-- The password has neither colon nor at sign. -/
  pass : ∀ info ∈ request.userInfo, 58 ∉ info.2 ∧ 64 ∉ info.2
  /-- The additional headers are plain. -/
  extra : ∀ field ∈ request.extra, field.IsPlain
  /-- The table has room for the fields. -/
  room : request.fields.length < mgMaxHttpHeaders
  /-- No additional header declares a length. -/
  unframed : ∀ field ∈ request.extra, field.isContentLength = false ∧
    field.name.map tolower ≠ (ascii "Transfer-Encoding").map tolower
  /-- No additional header asks for an upgrade. -/
  http : ∀ field ∈ request.extra,
    field.name.map tolower ≠ (ascii "Sec-WebSocket-Key").map tolower

/-- What the URL is taken apart into. -/
theorem parse_url {request : UrlRequest} (valid : request.Valid) (sslEnabled : Bool) :
    ∃ parts, mgHttpCommonUrlParse sslEnabled request.url (ascii "http://") (ascii "https://") true
        none = .ok parts ∧ parts.user = request.userInfo.map Prod.fst ∧
      parts.pass = request.userInfo.map Prod.snd ∧ parts.host = request.hostField ∧
      parts.path = request.target := by
  have starts : ∀ byte ∈ request.path.head?, byte = 47 := by
    intro byte member
    obtain none | ⟨-, first⟩ := valid.path
    · rw [none] at member
      exact absurd member (by simp)
    · rw [first] at member
      exact (Option.some.inj member).symm
  have inside := valid.hostEnd.1
  have noAt := valid.hostEnd.2
  have infos := valid.info
  have passes := valid.pass
  rw [url, info, hostField, leftPort, target]
  cases known : request.userInfo with
  | none =>
    have parsed := @urlParse_plain (ascii "http://") (ascii "https://") _ sslEnabled false _ _ rfl
      inside starts valid.host.1.plain.nonempty noAt
    refine ⟨_, parsed, rfl, rfl, ?_, rfl⟩
    by_cases colon : 58 ∈ request.host
    · simp [UrlParts.host, colon]
    · simp [UrlParts.host, colon]
  | some info =>
    obtain ⟨user, pass⟩ := info
    obtain ⟨named, secret, noSlash, noSlash'⟩ := infos (user, pass) known
    have authority : 47 ∉ user ++ 58 :: pass ++ 64 :: request.host := by
      simp only [List.mem_append, List.mem_cons, not_or]
      exact ⟨⟨noSlash, by decide, noSlash'⟩, by decide, inside⟩
    have parsed := @urlParse_userInfo (ascii "http://") (ascii "https://") _ sslEnabled false user
      pass request.host request.path rfl authority starts (passes (user, pass) known) noAt none
    have same : user ++ 58 :: pass ++ [64] ++ request.host ++ request.path =
        user ++ 58 :: pass ++ 64 :: request.host ++ request.path := by simp
    dsimp only
    rw [same]
    refine ⟨_, parsed, rfl, rfl, ?_, rfl⟩
    by_cases colon : 58 ∈ request.host
    · simp [UrlParts.host, colon]
    · have names : 0 < user.length := List.length_pos_iff.mpr named
      have secrets : 0 < pass.length := List.length_pos_iff.mpr secret
      simp only [UrlParts.host, colon, if_false, Option.isNone_some, Bool.false_eq_true, or_self]
      apply List.take_of_length_le
      have port : (defaultPort false).length = 3 := by decide
      simp only [List.length_append, List.length_cons, port]
      omega

/-- What `mg_connect_http_opt` sends are the bytes of the request. -/
theorem connect_bytes {request : UrlRequest} (valid : request.Valid) {garbage : Bytes}
    (three : garbage.length = 3) (sslEnabled : Bool) {extraHeaders : Option Bytes}
    (headers : extraHeaders.getD [] =
      request.extra.flatMap fun field : Field => field.line ++ crlf) :
    mgConnectHttpOpt garbage sslEnabled request.url extraHeaders request.post =
      .ok request.bytes := by
  obtain ⟨parts, parsed, user, pass, host, path⟩ := parse_url valid sslEnabled
  have auth : (match parts.user with
      | none => []
      | some user => mgBasicAuthHeader garbage [] user parts.pass) =
      request.infoFields.flatMap fun field : Field => field.line ++ crlf := by
    have name : ascii "Authorization: Basic " =
        ascii "Authorization" ++ ([colon, space] ++ ascii "Basic ") := by decide
    have newline : ascii "\r\n" = crlf := by decide
    rw [user, pass, infoFields]
    cases request.userInfo with
    | none => rfl
    | some info =>
      have written := mgBasicAuthHeader_eq three [] info.1 info.2
      rw [name, newline] at written
      simpa [authorization, Field.line] using written
  have hostText : ascii " HTTP/1.1\r\nHost: " =
      [space] ++ (ascii "HTTP/1.1" ++ (crlf ++ (ascii "Host" ++ [colon, space]))) := by decide
  have lengthText : ascii "\r\nContent-Length: " =
      crlf ++ (ascii "Content-Length" ++ [colon, space]) := by decide
  have newline : ascii "\r\n" = crlf := by decide
  have blank : ascii " " = [space] := by decide
  have printed : ∀ text : Bytes, mgPrintf [] text = text := by
    intro text
    cases text with
    | nil => rfl
    | cons byte text => rfl
  rw [mgConnectHttpOpt, parsed]
  dsimp only
  rw [auth, path, host, headers, printed, hostText, lengthText, newline, blank]
  simp [bytes, block, requestBlock, blockOf, requestLine, fields, others, Field.line, method, body,
    List.flatMap_map]

end UrlRequest

end CppCode.Mongoose
