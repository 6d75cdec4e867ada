import CppCode.Interfaces.Strings
import CppCode.Library.JsonText
import CppCode.Mongoose.Reply
import CppCode.Mongoose.Send

/-!
# Chunked answers of the server

`HttpServer::SendResponse` on a TCP connection. The text is put between the quotes of a JSON
template as it is, and the result is sent as the one chunk of a coded body
(`sendResponse_eq`), unless it is too long for `mg_printf_http_chunk`: then only the empty chunk
at the end is sent.
-/

namespace CppCode.HttpServer

open Library JsonText Mongoose Interfaces

/-- A connection that is answered. -/
structure AnsweredConn where
  /-- `send_mbuf`. -/
  sendMbuf : Bytes := []
  /-- `MG_F_SEND_AND_CLOSE`. -/
  sendAndClose : Bool := false
  deriving DecidableEq, Repr

/-- The text that `SendResponse` formats. -/
def resultText (rsp : Bytes) : Bytes :=
  ascii "\x7b \"result\":\"" ++ rsp ++ ascii "\" \x7d"

/-- `SendResponse`. -/
def sendResponse (nc : AnsweredConn) (rsp : Bytes) : AnsweredConn :=
  let out := mgPrintf nc.sendMbuf
    (ascii "HTTP/1.1 200 OK\r\nTransfer-Encoding: chunked\r\n\r\n")
  let out := mgPrintfHttpChunk out (resultText (rsp.take (strlen rsp)))
  { sendMbuf := mgSendHttpChunk out [], sendAndClose := true }

/-- The field of a chunked answer. -/
def chunkedField : Field := ⟨ascii "Transfer-Encoding", ascii "chunked"⟩

/-- The block of a chunked answer. -/
def chunkedBlock : Bytes := replyBlock [chunkedField]

/-- The chunks of a chunked answer before the empty one. -/
def resultChunks (rsp : Bytes) : List Bytes := (mgAvprintf (resultText rsp)).toList

/-- The block, the chunk of the text, and the empty chunk are sent. -/
theorem sendResponse_eq (nc : AnsweredConn) {rsp : Bytes} (plain : 0 ∉ rsp) :
    (sendResponse nc (cString rsp)).sendMbuf =
      nc.sendMbuf ++ (chunkedBlock ++ coded (resultChunks rsp ++ [[]])) := by
  have text : (cString rsp).take (strlen (cString rsp)) = rsp := by
    rw [strlen_cString plain, cString, List.take_left]
  have head : ascii "HTTP/1.1 200 OK\r\nTransfer-Encoding: chunked\r\n\r\n" = chunkedBlock := by
    decide
  have last : coded [[]] = chunkOf [] := List.append_nil _
  simp only [sendResponse, text, head, resultChunks]
  rw [mgPrintf_of_ne_nil (by decide), mgPrintfHttpChunk_eq, mgSendHttpChunk_eq (by simp),
    coded_append, last]
  simp only [List.append_assoc]

/-- The field of a chunked answer is read as it was written. -/
theorem chunkedField_plain : ∀ field ∈ [chunkedField], field.IsPlain := by
  intro field member
  obtain rfl := List.mem_singleton.mp member
  exact ⟨by decide, by decide, by decide, by decide, by decide⟩

/-- The length of the block of a chunked answer. -/
theorem length_chunkedBlock : chunkedBlock.length = 47 := by decide

/-- The length of the text. -/
theorem length_resultText (rsp : Bytes) : (resultText rsp).length = rsp.length + 15 := by
  have front : (ascii "\x7b \"result\":\"").length = 12 := by decide
  have back : (ascii "\" \x7d").length = 3 := by decide
  simp only [resultText, List.length_append, front, back]
  omega

/-- The text is not empty. -/
theorem resultChunks_ne_nil (rsp : Bytes) : ∀ data ∈ resultChunks rsp, data ≠ [] := by
  intro data member
  obtain ⟨-, rfl⟩ : (resultText rsp).length < intMax ∧ resultText rsp = data := by
    simpa [resultChunks, mgAvprintf] using member
  have length := length_resultText rsp
  rintro empty
  rw [empty, List.length_nil] at length
  omega

/-! ## The text as JSON -/

/-- The datum that a response is meant to be: an object whose only member is the string. -/
def resultDatum (rsp : Bytes) : Datum := .object [(ascii "result", .string rsp)]

/-- The bytes of the text. -/
theorem resultText_eq (rsp : Bytes) : resultText rsp = openObject :: space :: quote ::
    (ascii "result" ++ quote :: colon :: quote :: (rsp ++ [quote, space, closeObject])) := by
  have front : ascii "\x7b \"result\":\"" =
      openObject :: space :: quote :: (ascii "result" ++ [quote, colon, quote]) := by decide
  have back : ascii "\" \x7d" = [quote, space, closeObject] := by decide
  simp only [resultText, front, back, List.cons_append, List.append_assoc, List.nil_append]

/-- Only blanks are blank. -/
theorem not_blank_token : ¬Blank [openObject] ∧ ¬Blank [quote] ∧ ¬Blank [colon] := by
  refine ⟨fun blank => ?_, fun blank => ?_, fun blank => ?_⟩
  all_goals exact absurd (blank _ (List.mem_singleton.mpr rfl)) (by decide)

/-- A content with the rest of a template behind it is all of what stands in the template, when it
denotes that. -/
theorem content_of_template {rsp content last after : Bytes} (chars : Chars content rsp)
    (split : content ++ quote :: (last ++ closeObject :: after) =
      rsp ++ [quote, space, closeObject]) : ∀ byte ∈ rsp, Unescaped byte := by
  obtain ⟨shorter, stand⟩ := chars.length_le
  have length := congrArg List.length split
  simp only [List.length_append, List.length_cons, List.length_nil] at length
  by_cases same : rsp.length = content.length
  · exact (stand same).2
  · -- the content would end with the quote of the template, and a blank would be its quote
    obtain rfl : last = [] := List.eq_nil_of_length_eq_zero (by omega)
    obtain rfl : after = [] := List.eq_nil_of_length_eq_zero (by omega)
    have ends : content ++ [quote, closeObject] = (rsp ++ [quote]) ++ [space, closeObject] := by
      simpa using split
    exact absurd (List.append_inj' ends rfl).2 (by decide)

/-- The name of the member stands for itself. -/
theorem unescaped_result : ∀ byte ∈ ascii "result", Unescaped byte := by
  have all : (ascii "result").all (fun byte => decide (Unescaped byte)) = true := by decide
  exact fun byte member => of_decide_eq_true (List.all_eq_true.mp all byte member)

/-- The blanks in front of the name are the one blank of the template. -/
theorem blank_space {gap rest after : Bytes} (blank : Blank gap) (noQuote : ¬Blank [quote])
    (split : gap ++ quote :: rest = space :: quote :: after) : rest = after := by
  cases gap with
  | nil => exact absurd (List.cons.inj split).1 (by decide)
  | cons first gap =>
    have tail : Blank gap := fun byte member => blank byte (List.mem_cons_of_mem first member)
    exact (List.cons.inj (tail.eq_nil noQuote (List.cons.inj split).2).2).2

/-- The template has only the one member, and its string denotes the text exactly when all bytes of
the text stand for themselves. -/
theorem text_resultText_iff (rsp : Bytes) :
    Text Blank (resultText rsp) (resultDatum rsp) ↔ ∀ byte ∈ rsp, Unescaped byte := by
  obtain ⟨noObject, noQuote, noColon⟩ := not_blank_token
  rw [resultText_eq]
  constructor
  · rintro ⟨before, _, after, shape, front, denotes, back⟩
    cases denotes with
    | object inside =>
      cases inside with
      | more _ later => cases later
      | last member =>
        cases member with
        | @intro gap name _ behind inner _ last _ blank chars back' start value stop =>
          cases value with
          | @string content _ written =>
            simp only [List.append_assoc, List.cons_append, List.nil_append] at shape
            -- the tokens of the template are met one after the other
            obtain ⟨-, object⟩ := front.eq_nil noObject shape.symm
            have opened := (List.cons.inj object).2
            have named := blank_space blank noQuote opened
            obtain ⟨-, behindName⟩ := chars.ends_at_quote unescaped_result named
            obtain ⟨-, valued⟩ := back'.eq_nil noColon behindName
            obtain ⟨-, quoted⟩ := start.eq_nil noQuote (List.cons.inj valued).2
            exact content_of_template written (List.cons.inj quoted).2
  · intro plain
    have result : Chars (ascii "result") (ascii "result") := chars_of_unescaped unescaped_result
    have one : Blank [space] := fun byte member => .inl (List.mem_singleton.mp member)
    have member := Member.intro one result blank_nil blank_nil
      (Value.string (chars_of_unescaped plain)) one
    refine ⟨[], _, [], ?_, blank_nil, .object (.last member), blank_nil⟩
    simp

end CppCode.HttpServer
