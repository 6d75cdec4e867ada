import Mathlib.Data.List.DropRight
import CppCode.Mongoose.Text

/-!
# Parsing HTTP messages

`mg_parse_http` and the functions under it, on a receive buffer. A parsed message holds
offsets into the buffer it was parsed from; its lengths are `size_t` values, so the sum of the
header length and a declared content length wraps. The header loop reuses a slot whose value
turned out to be empty and stops one slot before the end of the table; its fuel is the number
of rounds it can make, which `parseHeadersFrom_fuel` shows to be enough.
-/

namespace CppCode.Mongoose

open Library

/-- `MG_MAX_HTTP_HEADERS` of the Windows and Unix targets. -/
def mgMaxHttpHeaders : Nat := 40

/-- `struct http_message`, with every pointer an offset into the parsed buffer. -/
structure HttpMessage where
  /-- Whole message: request line, headers and body. -/
  message : MgStr := {}
  /-- Request method. -/
  method : MgStr := {}
  /-- Request target, without its query string. -/
  uri : MgStr := {}
  /-- Protocol, for requests and responses. -/
  proto : MgStr := {}
  /-- Status code of a response. -/
  respCode : Int := 0
  /-- Status message of a response. -/
  respStatusMsg : MgStr := {}
  /-- Part of the request target after the first question mark. -/
  queryString : MgStr := {}
  /-- Header names; the first empty slot ends the table. -/
  headerNames : Vector MgStr mgMaxHttpHeaders := Vector.replicate _ {}
  /-- Header values, in the slots of their names. -/
  headerValues : Vector MgStr mgMaxHttpHeaders := Vector.replicate _ {}
  /-- Message body. -/
  body : MgStr := {}
  deriving DecidableEq, Repr

/-- The loop of `mg_http_get_request_len` from index `i`, on the bytes from there on. -/
def requestLenFrom : Bytes → Nat → Int
  | [], _ => 0
  | byte :: rest, i =>
    if !isprint byte && byte != cr && byte != lf && byte < 128 then -1
    else if byte = lf ∧ rest.head? = some lf then i + 2
    else if byte = lf ∧ rest.take 2 = [cr, lf] then i + 3
    else requestLenFrom rest (i + 1)

/-- `mg_http_get_request_len`: the length of a complete header block, 0 for an incomplete and
-1 for a malformed one. -/
def mgHttpGetRequestLen (buf : Bytes) (bufLen : Int) : Int :=
  requestLenFrom (buf.take bufLen.toNat) 0

/-- Write one slot of the header table. -/
def HttpMessage.setHeader (req : HttpMessage) (i : Nat) (name value : MgStr) : HttpMessage :=
  { req with
    headerNames := req.headerNames.setIfInBounds i name
    headerValues := req.headerValues.setIfInBounds i value }

/-- The two `mg_skip` calls of one round of the header loop and the trimming of the value:
name, value and the offset of the next round. -/
def readHeader (buf : Bytes) (s limit : Nat) : MgStr × MgStr × Nat :=
  let (name, s) := mgSkip buf s limit [colon, space]
  let (value, s) := mgSkip buf s limit crlf
  (name, { value with len := ((value.slice buf).rdropWhile (· == space)).length }, s)

/-- Whether the bytes at a header name start with `Content-Length`, in any case. -/
def isContentLength (buf : Bytes) (name : MgStr) : Bool :=
  mgNcasecmp (buf.drop (name.p.getD 0)) (ascii "Content-Length") 14 = 0

/-- The lengths that a `Content-Length` header sets. -/
def HttpMessage.setLengths (req : HttpMessage) (platform : Platform) (len : Nat)
    (declared : Int) : HttpMessage :=
  let bodyLen := platform.toSize declared
  { req with
    body := { req.body with len := bodyLen }
    message := { req.message with len := platform.add len bodyLen } }

/-- The number that a header value denotes to `to64`. -/
def headerNumber (buf : Bytes) (value : MgStr) : Int := to64 (buf.drop (value.p.getD 0))

/-- The loop of `mg_http_parse_headers` at slot `i` and offset `s`. -/
def parseHeadersFrom (platform : Platform) (buf : Bytes) (limit len : Nat) :
    Nat → Nat → Nat → HttpMessage → HttpMessage × Nat
  | 0, _, s, req => (req, s)
  | fuel + 1, i, s, req =>
    if i < mgMaxHttpHeaders - 1 then
      let (name, value, next) := readHeader buf s limit
      if name.len ≠ 0 ∧ value.len = 0 then
        -- the slot stays half-written until a later round overwrites or clears it
        parseHeadersFrom platform buf limit len fuel i next (req.setHeader i name value)
      else if name.len = 0 ∨ value.len = 0 then (req.setHeader i {} {}, next)
      else
        let req := req.setHeader i name value
        let req :=
          if isContentLength buf name then
            req.setLengths platform len (headerNumber buf value)
          else req
        parseHeadersFrom platform buf limit len fuel (i + 1) next req
    else (req, s)

/-- `mg_http_parse_headers`, from offset `s` of a header block of length `len`. -/
def mgHttpParseHeaders (platform : Platform) (buf : Bytes) (s limit len : Nat)
    (req : HttpMessage) : HttpMessage × Nat :=
  parseHeadersFrom platform buf limit len (limit + mgMaxHttpHeaders) 0 s req

/-- The request line: method, URI with its query string split off, and protocol. -/
def parseRequestLine (buf : Bytes) (s limit : Nat) (hm : HttpMessage) :
    Option (HttpMessage × Nat) :=
  let (method, s) := mgSkip buf s limit [space]
  let (uri, s) := mgSkip buf s limit [space]
  let (proto, s) := mgSkip buf s limit crlf
  if uri.p.getD 0 ≤ method.p.getD 0 ∨ proto.p.getD 0 ≤ uri.p.getD 0 then none
  else
    let hm := { hm with method, uri, proto }
    let mark := (uri.slice buf).findIdx (· == 63)
    if mark < (uri.slice buf).length then
      some ({ hm with
        uri := { uri with len := mark }
        queryString := ⟨some (uri.p.getD 0 + mark + 1), uri.len - (mark + 1)⟩ }, s)
    else some (hm, s)

/-- The status line: protocol, a three-digit code between 100 and 599, and the message. -/
def parseStatusLine (buf : Bytes) (s limit : Nat) (hm : HttpMessage) :
    Option (HttpMessage × Nat) :=
  let (proto, s) := mgSkip buf s limit [space]
  if limit < s + 4 ∨ buf[s + 3]? ≠ some space then none
  else
    let respCode := atoi (buf.drop s)
    if respCode < 100 ∨ respCode ≥ 600 then none
    else
      let (respStatusMsg, s) := mgSkip buf (s + 4) limit crlf
      some ({ hm with proto, respCode, respStatusMsg }, s)

/-- A request other than PUT and POST whose length is unknown has no body. -/
def resetBody (platform : Platform) (buf : Bytes) (len : Nat) (isReq : Bool)
    (hm : HttpMessage) : HttpMessage :=
  if hm.body.len = platform.maxSize ∧ isReq = true ∧
      mgVcasecmp buf hm.method (ascii "PUT") ≠ 0 ∧
      mgVcasecmp buf hm.method (ascii "POST") ≠ 0 then
    { hm with
      body := { hm.body with len := 0 }
      message := { hm.message with len := len } }
  else hm

/-- `mg_parse_http`: the length of the header block and the message, or a length that is not
positive when the block is incomplete or malformed. -/
def mgParseHttp (platform : Platform) (buf : Bytes) (n : Int) (isReq : Bool) :
    Int × HttpMessage :=
  let len := mgHttpGetRequestLen buf n
  if len ≤ 0 then (len, {})
  else
    let limit := len.toNat
    let hm : HttpMessage :=
      { message := ⟨some 0, platform.maxSize⟩, body := ⟨some limit, platform.maxSize⟩ }
    let s := scanTo buf (fun byte => !isspace byte) 0 limit
    let startLine :=
      if isReq then parseRequestLine buf s limit hm else parseStatusLine buf s limit hm
    match startLine with
    | none => (-1, hm)
    | some (hm, s) =>
      let (hm, _) := mgHttpParseHeaders platform buf s limit limit hm
      (len, resetBody platform buf limit isReq hm)

/-- The slots of the header table up to the first empty name. -/
def HttpMessage.headers (hm : HttpMessage) : List (MgStr × MgStr) :=
  (hm.headerNames.toList.zip hm.headerValues.toList).takeWhile fun slot => slot.1.len > 0

/-- `mg_get_http_header`. -/
def mgGetHttpHeader (buf : Bytes) (hm : HttpMessage) (name : Bytes) : Option MgStr :=
  (hm.headers.find? fun slot => slot.1.p.isSome && slot.1.len == name.length &&
    mgNcasecmp (buf.drop (slot.1.p.getD 0)) name name.length == 0).map Prod.snd

end CppCode.Mongoose
