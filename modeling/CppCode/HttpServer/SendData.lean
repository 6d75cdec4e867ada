import CppCode.Interfaces.Strings
import CppCode.Mongoose.Send
import CppCode.Mongoose.WellFormed

/-!
# Answers of the server

`HttpServer::SendData` on the send buffer of a TCP connection. It declares the length of its
string and sends as many bytes, so the bytes of an answer are the block of its fields and the
string (`sendData_eq`). The fields are well formed whatever the length is.
-/

namespace CppCode.HttpServer

open Library Mongoose Interfaces

/-- `SendData`. The length is converted to the `int` that `mg_send` takes. -/
def sendData (out sdata : Bytes) : Bytes :=
  if strlen sdata ≤ 0 then mgHttpSendError out 400 (some (ascii "Error : bad request"))
  else
    mgSend (mgSendHead out 200 (strlen sdata) (ascii "Access-Control-Allow-Origin: *"))
      (sdata.take (toInt (strlen sdata)).toNat)

/-- The fields of an answer of some length. -/
def answerFields (count : Nat) : List Field :=
  [⟨ascii "Server", ascii "Mongoose/6.7"⟩, ⟨ascii "Access-Control-Allow-Origin", ascii "*"⟩,
    ⟨ascii "Content-Length", decimal count⟩]

/-- The lines of an answer. -/
def answerLines (count : Nat) : List Bytes := okLine :: (answerFields count).map Field.line

/-- The block of an answer. -/
def answerBlock (count : Nat) : Bytes := blockOf (answerLines count)

/-- A string that is not empty is sent behind the block of its length. -/
theorem sendData_eq (out : Bytes) {s : Bytes} (plain : 0 ∉ s) (nonempty : s ≠ [])
    (short : s.length ≤ intMax) :
    sendData out (cString s) = out ++ (answerBlock s.length ++ s) := by
  have length := strlen_cString plain
  have positive := List.length_pos_iff.mpr nonempty
  have sent : (cString s).take (toInt s.length).toNat = s := by
    rw [toInt_of_le short, Int.toNat_natCast, cString, List.take_left]
  have lines : headLines [ascii "Access-Control-Allow-Origin: *"] s.length =
      answerLines s.length := by
    have server : ascii "Server: Mongoose/6.7" =
        ascii "Server" ++ ([colon, space] ++ ascii "Mongoose/6.7") := by decide
    have origin : ascii "Access-Control-Allow-Origin: *" =
        ascii "Access-Control-Allow-Origin" ++ ([colon, space] ++ ascii "*") := by decide
    have counted : ascii "Content-Length: " = ascii "Content-Length" ++ [colon, space] := by decide
    simp only [headLines, answerLines, answerFields, List.map_cons, List.map_nil, Field.line,
      server, origin, counted, List.append_assoc]
    rfl
  simp only [sendData, length, if_neg (not_le.mpr positive), sent]
  rw [mgSendHead_length_known out s.length [ascii "Access-Control-Allow-Origin: *"] _
    (by simp) (by decide), lines, mgSend, List.append_assoc]
  rfl

/-- The fields of an answer are read as they were written. -/
theorem answerFields_plain (count : Nat) : ∀ field ∈ answerFields count, field.IsPlain := by
  intro field member
  simp only [answerFields, List.mem_cons, List.not_mem_nil, or_false] at member
  rcases member with rfl | rfl | rfl
  · exact ⟨by decide, by decide, by decide, by decide, by decide⟩
  · exact ⟨by decide, by decide, by decide, by decide, by decide⟩
  · have digits := decimal_digit count
    have name : IsPlain (ascii "Content-Length") := by decide
    have word : colon ∉ ascii "Content-Length" ∧ space ∉ ascii "Content-Length" := by decide
    refine ⟨name, ⟨decimal_ne_nil count, ?_⟩, word, ?_, ?_⟩
    · exact fun byte inside => isprint_of_isDigit (digits byte inside)
    · refine ⟨fun first => ?_, fun first => ?_⟩
      · exact absurd (digits colon (List.mem_of_mem_head? first)) (by decide)
      · exact absurd (digits space (List.mem_of_mem_head? first)) (by decide)
    · intro blank
      exact absurd (digits space (List.mem_of_getLast? blank)) (by decide)

/-- The length of the block of an answer. -/
theorem length_answerBlock (count : Nat) :
    (answerBlock count).length = 91 + (decimal count).length := by
  have okLength : okLine.length = 15 := by decide
  have serverName : (ascii "Server").length = 6 := by decide
  have serverValue : (ascii "Mongoose/6.7").length = 12 := by decide
  have originName : (ascii "Access-Control-Allow-Origin").length = 27 := by decide
  have originValue : (ascii "*").length = 1 := by decide
  have lengthName : (ascii "Content-Length").length = 14 := by decide
  simp only [answerBlock, answerLines, answerFields, blockOf, List.map_cons, List.map_nil,
    List.flatMap_cons, List.flatMap_nil, Field.line, List.length_append, List.length_cons,
    List.length_nil, okLength, serverName, serverValue, originName, originValue, lengthName]
  omega

end CppCode.HttpServer
