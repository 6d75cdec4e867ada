import CppCode.Library.ChunkedCoding
import CppCode.Mongoose.Text

/-!
# Writing responses

`mg_send` appends to the send buffer of a TCP connection, and `mg_printf` formats into a
buffer that grows until the text fits and sends it when it is not empty;
`mg_printf_http_chunk` sends what it formats as a chunk. A response head is
four such writes: the status line with the server name, the extra headers when there are any,
the length, and the blank line. `mgSendHead_length_known` is the one description of the bytes
of a head that later modules use.
-/

namespace CppCode.Mongoose

open Library

/-- `mg_send` on a TCP connection, which is `mbuf_append` to its send buffer. -/
def mgSend (out buf : Bytes) : Bytes := out ++ buf

/-- `mg_printf` of an already formatted text. -/
def mgPrintf (out text : Bytes) : Bytes := if text.length > 0 then mgSend out text else out

/-- `%d` and `%I64d`. -/
def decimalInt (value : Int) : Bytes :=
  if value < 0 then 45 :: decimal value.natAbs else decimal value.natAbs

/-- `mg_version_header`. -/
def mgVersionHeader : Bytes := ascii "Mongoose/6.7"

/-- `mg_status_message`, built without `MG_ENABLE_EXTRA_ERRORS_DESC`. -/
def mgStatusMessage (statusCode : Int) : Bytes :=
  match statusCode with
  | 206 => ascii "Partial Content"
  | 301 => ascii "Moved"
  | 302 => ascii "Found"
  | 400 => ascii "Bad Request"
  | 401 => ascii "Unauthorized"
  | 403 => ascii "Forbidden"
  | 404 => ascii "Not Found"
  | 416 => ascii "Requested Range Not Satisfiable"
  | 418 => ascii "I'm a teapot"
  | 500 => ascii "Internal Server Error"
  | 502 => ascii "Bad Gateway"
  | 503 => ascii "Service Unavailable"
  | _ => ascii "OK"

/-- `mg_send_response_line`. -/
def mgSendResponseLine (out : Bytes) (statusCode : Int) (extraHeaders : Bytes) : Bytes :=
  let out := mgPrintf out (ascii "HTTP/1.1 " ++ decimalInt statusCode ++ ascii " " ++
    mgStatusMessage statusCode ++ ascii "\r\nServer: " ++ mgVersionHeader ++ ascii "\r\n")
  if extraHeaders.length > 0 then mgPrintf out (extraHeaders ++ ascii "\r\n") else out

/-- `mg_send_head`. -/
def mgSendHead (out : Bytes) (statusCode contentLength : Int) (extraHeaders : Bytes) : Bytes :=
  let out := mgSendResponseLine out statusCode extraHeaders
  let out :=
    if contentLength < 0 then mgPrintf out (ascii "Transfer-Encoding: chunked\r\n")
    else mgPrintf out (ascii "Content-Length: " ++ decimalInt contentLength ++ ascii "\r\n")
  mgSend out (ascii "\r\n")

/-- `mg_http_send_error`, with its reason; the connection is closed once it is flushed. -/
def mgHttpSendError (out : Bytes) (code : Int) (reason : Option Bytes) : Bytes :=
  let reason := reason.getD (mgStatusMessage code)
  let out := mgSendHead out code reason.length
    (ascii "Content-Type: text/plain\r\nConnection: close")
  mgSend out reason

/-- `mg_send_http_chunk`. The length of the data is converted to the `int` that `mg_send` takes. -/
def mgSendHttpChunk (out buf : Bytes) : Bytes :=
  let out := mgSend out (hexadecimal buf.length ++ ascii "\r\n")
  let out := mgSend out (buf.take (toInt buf.length).toNat)
  mgSend out (ascii "\r\n")

/-- `mg_avprintf` of a text. When its length is not in the range of `int`, `vsnprintf` fails in
every buffer that can be allocated, and for `INT_MAX` the length of the buffer overflows. -/
def mgAvprintf (text : Bytes) : Option Bytes := if text.length < intMax then some text else none

/-- `mg_printf_http_chunk` of a text, which sends nothing when the text cannot be formatted. -/
def mgPrintfHttpChunk (out text : Bytes) : Bytes :=
  match mgAvprintf text with
  | none => out
  | some buf => mgSendHttpChunk out buf

/-- The lines of a response head with a length: status line, server, extra headers, length. -/
def headLines (extraHeaders : List Bytes) (contentLength : Nat) : List Bytes :=
  [ascii "HTTP/1.1 200 OK", ascii "Server: Mongoose/6.7"] ++ extraHeaders ++
    [ascii "Content-Length: " ++ decimal contentLength]

/-- A text that is not empty is sent whole. -/
theorem mgPrintf_of_ne_nil {out text : Bytes} (present : text ≠ []) :
    mgPrintf out text = out ++ text := by
  simp [mgPrintf, mgSend, List.length_pos_iff.mpr present]

/-- Data in the range of `int` is sent as one chunk. -/
theorem mgSendHttpChunk_eq {out buf : Bytes} (small : buf.length ≤ intMax) :
    mgSendHttpChunk out buf = out ++ chunkOf buf := by
  have ending : ascii "\r\n" = crlf := by decide
  have all : buf.take (toInt buf.length).toNat = buf := by
    rw [toInt_of_le small, Int.toNat_natCast, List.take_length]
  simp only [mgSendHttpChunk, mgSend, ending, all, chunkOf, List.append_assoc]

/-- A text is sent as one chunk if it can be formatted. -/
theorem mgPrintfHttpChunk_eq (out text : Bytes) :
    mgPrintfHttpChunk out text = out ++ coded (mgAvprintf text).toList := by
  unfold mgPrintfHttpChunk mgAvprintf
  split_ifs with small
  · change mgSendHttpChunk out text = out ++ (chunkOf text ++ [])
    rw [mgSendHttpChunk_eq (le_of_lt small), List.append_nil]
  · exact (List.append_nil out).symm

/-- The head of a 200 response of known length, with its extra headers on one or more lines,
is the block of its lines. -/
theorem mgSendHead_length_known (out : Bytes) (contentLength : Nat) (extraHeaders : List Bytes)
    (text : Bytes) (joined : text ++ crlf = extraHeaders.flatMap fun line => line ++ crlf)
    (present : text ≠ []) :
    mgSendHead out 200 contentLength text =
      out ++ blockOf (headLines extraHeaders contentLength) := by
  have positive : text.length > 0 := List.length_pos_iff.mpr present
  have known : ¬(contentLength : Int) < 0 := by omega
  have numeral : decimalInt contentLength = decimal contentLength := by
    simp [decimalInt]
  have statusLine : ascii "HTTP/1.1 " ++ decimalInt 200 ++ ascii " " ++ mgStatusMessage 200 ++
      ascii "\r\nServer: " ++ mgVersionHeader ++ crlf =
      ascii "HTTP/1.1 200 OK" ++ crlf ++ ascii "Server: Mongoose/6.7" ++ crlf := by decide
  have ending : ascii "\r\n" = crlf := by decide
  simp only [mgSendHead, mgSendResponseLine, if_pos positive, if_neg known, ending]
  rw [statusLine, numeral, joined, mgPrintf_of_ne_nil (by simp),
    mgPrintf_of_ne_nil (by rw [← joined]; simp), mgPrintf_of_ne_nil (by simp)]
  simp [mgSend, blockOf, headLines, List.append_assoc]

end CppCode.Mongoose
