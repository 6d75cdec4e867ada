import CppCode.Interfaces.Strings
import CppCode.Mongoose.Send

/-!
# Responses of the exported interface

`SendResponse` and `SendErrorResponse` of the DLL, on the send buffer of a TCP connection. Both
copy the message, declare one byte more than its length and send the terminating `NUL` with it.
The declared length is that of the bytes sent, so a stream of responses still splits into one
message for each call (`sendAll_splits`), but the body of each is the message and a `NUL`
(`faithful_iff`).
-/

namespace CppCode.Interfaces

open Library Mongoose

/-- The copy of a message that the senders make and end with a `NUL`. There is none when the
allocation throws, or when `resp[len]` is before the buffer because the length converts to -1. -/
def copyMessage (memory : Bytes) : Option Bytes :=
  let len := toInt (strlen memory)
  if len < 0 then none else (newCopy memory).map fun resp => resp.set len.toNat 0

/-- The two writes of a sender: the head, and the copy with its terminating `NUL`. -/
def sendCopy (out extraHeaders memory : Bytes) : Option Bytes :=
  (copyMessage memory).map fun resp =>
    mgSend (mgSendHead out 200 (strlen resp + 1 : Nat) extraHeaders) (resp.take (strlen resp + 1))

/-- `SendErrorResponse`, whose error code is only logged. -/
def sendErrorResponse (out : Bytes) (_errCode : Int) (errMsg : Bytes) : Option Bytes :=
  sendCopy out (ascii ("Access-Control-Allow-Origin: *\r\n" ++
    "Content-Type:text/plain;charset=utf-8\r\nConnection: close")) errMsg

/-- `SendResponse`, which answers an empty message with an error. -/
def sendResponse (out respMsg : Bytes) : Option Bytes :=
  if strlen respMsg = 0 then some (mgHttpSendError out 400 (some (ascii "Error : bad request")))
  else sendCopy out (ascii ("Access-Control-Allow-Origin: *\r\n" ++
    "Content-Type:text/plain;charset=utf-8")) respMsg

/-- A message that a caller passes: not empty, without `NUL`, and shorter than `INT_MAX`. -/
structure Text where
  /-- Its bytes before the terminating `NUL`. -/
  bytes : Bytes
  /-- It has a byte. -/
  nonempty : bytes ≠ []
  /-- It ends at its terminating `NUL`. -/
  plain : 0 ∉ bytes
  /-- Its length and one more byte are in the range of `int`. -/
  short : bytes.length < intMax

/-- The memory that a caller passes for a message. -/
def Text.memory (text : Text) : Bytes := cString text.bytes

/-- A call of one of the senders. -/
inductive SendCall
  /-- `SendResponse`. -/
  | response (message : Text)
  /-- `SendErrorResponse`. -/
  | error (errCode : Int) (message : Text)

/-- The message of a call. -/
def SendCall.text : SendCall → Text
  | .response message | .error _ message => message

/-- Execute a call on a send buffer. -/
def SendCall.send (out : Bytes) : SendCall → Option Bytes
  | .response message => sendResponse out message.memory
  | .error errCode message => sendErrorResponse out errCode message.memory

/-- Execute calls in order on one send buffer. -/
def sendAll (out : Bytes) (calls : List SendCall) : Option Bytes := calls.foldlM SendCall.send out

/-- The extra header lines of `SendResponse`. -/
def responseLines : List Bytes :=
  [ascii "Access-Control-Allow-Origin: *", ascii "Content-Type:text/plain;charset=utf-8"]

/-- The extra header lines of `SendErrorResponse`. -/
def errorLines : List Bytes := responseLines ++ [ascii "Connection: close"]

/-- The extra header lines of a call. -/
def SendCall.extraLines : SendCall → List Bytes
  | .response _ => responseLines
  | .error _ _ => errorLines

/-- The message that a call puts on the connection. -/
def SendCall.framed (call : SendCall) : Message where
  head := headLines call.extraLines (call.text.bytes.length + 1)
  body := call.text.bytes ++ [0]

/-! ## One call -/

/-- The length of a message is found from its memory. -/
theorem strlen_memory (text : Text) : strlen text.memory = text.bytes.length := by
  exact strlen_cString text.plain

/-- The copy of a message is its memory. -/
theorem copyMessage_memory (text : Text) : copyMessage text.memory = some text.memory := by
  have short := text.short
  have len : toInt (strlen text.memory) = text.bytes.length := by
    rw [strlen_memory, toInt_of_le (le_of_lt short)]
  have ended : text.memory.set text.bytes.length 0 = text.memory := by
    rw [Text.memory, cString, List.set_append_right _ _ (le_refl _), Nat.sub_self]
    rfl
  have copied : newCopy text.memory = some text.memory := newCopy_short text.plain short
  simp only [copyMessage, len, copied]
  rw [if_neg (by omega), Option.map_some, Int.toNat_natCast, ended]

/-- The writes of a sender append the block of its head, the message and a `NUL`. -/
theorem sendCopy_eq (out : Bytes) (text : Text) {extraHeaders : Bytes} (lines : List Bytes)
    (joined : extraHeaders ++ crlf = lines.flatMap fun line => line ++ crlf)
    (present : extraHeaders ≠ []) :
    sendCopy out extraHeaders text.memory = some (out ++
      (blockOf (headLines lines (text.bytes.length + 1)) ++ (text.bytes ++ [0]))) := by
  have all : text.memory.take (text.bytes.length + 1) = text.bytes ++ [0] := by
    exact List.take_of_length_le (by simp [Text.memory, cString])
  rw [sendCopy, copyMessage_memory, Option.map_some, strlen_memory, all,
    mgSendHead_length_known out _ lines extraHeaders joined present, mgSend, List.append_assoc]

/-- A call appends its message to the send buffer. -/
theorem send_eq (out : Bytes) (call : SendCall) :
    call.send out = some (out ++ call.framed.bytes) := by
  cases call with
  | response text =>
    have present : strlen text.memory ≠ 0 := by
      rw [strlen_memory]
      exact fun empty => text.nonempty (List.length_eq_zero_iff.mp empty)
    rw [SendCall.send, sendResponse, if_neg present]
    exact sendCopy_eq out text responseLines (by decide) (by decide)
  | error errCode text =>
    rw [SendCall.send, sendErrorResponse]
    exact sendCopy_eq out text errorLines (by decide +kernel) (by decide +kernel)

/-- The message of a call is framed: the declared length counts the `NUL` as well. -/
theorem framed_framed (call : SendCall) : call.framed.Framed where
  lines := by
    have extra : ∀ line ∈ call.extraLines, IsLine line := by
      cases call with
      | response => exact (by decide : ∀ line ∈ responseLines, IsLine line)
      | error => exact (by decide : ∀ line ∈ errorLines, IsLine line)
    intro line member
    simp only [SendCall.framed, headLines, List.mem_append, List.mem_cons, List.not_mem_nil,
      or_false] at member
    rcases member with ((rfl | rfl) | inside) | rfl
    · decide
    · decide
    · exact extra line inside
    · exact isLine_length _
  length := by
    have extra : call.extraLines.findSome? lengthField = none := by
      cases call with
      | response => exact (by decide : responseLines.findSome? lengthField = none)
      | error => exact (by decide : errorLines.findSome? lengthField = none)
    have server : lengthField (ascii "Server: Mongoose/6.7") = none := by decide
    have declared : lengthField (ascii "Content-Length: " ++
        decimal (call.text.bytes.length + 1)) = some (call.text.bytes.length + 1) :=
      lengthField_decimal _
    simp only [contentLength, SendCall.framed, headLines, List.cons_append, List.nil_append,
      List.tail_cons, List.findSome?_cons, server, List.findSome?_append, extra, declared,
      List.length_append, List.length_singleton, Option.none_or]

/-! ## Sequences of calls -/

/-- Calls append their messages in order. -/
theorem sendAll_eq (out : Bytes) (calls : List SendCall) :
    sendAll out calls = some (out ++ calls.flatMap fun call => call.framed.bytes) := by
  induction calls generalizing out with
  | nil => simp [sendAll]
  | cons call calls ih =>
    change (call.send out).bind (fun out => sendAll out calls) = _
    rw [send_eq, Option.bind_some, ih]
    simp

/-- What a sequence of calls appends splits into one message for each call, whose body is the
message of the call and a `NUL`. -/
theorem sendAll_splits (calls : List SendCall) :
    Splits (calls.flatMap fun call => call.framed.bytes) (calls.map SendCall.framed) := by
  have split : Splits ((calls.map SendCall.framed).flatMap Message.bytes)
      (calls.map SendCall.framed) := by
    apply splits_flatMap
    intro message member
    obtain ⟨call, -, rfl⟩ := List.mem_map.mp member
    exact framed_framed call
  rwa [List.flatMap_map] at split

/-- The bytes that a sequence of calls appends to a send buffer split into one response for each
call, in order, with the messages as their bodies. -/
def Faithful (out : Bytes) (calls : List SendCall) : Prop :=
  ∃ appended responses, sendAll out calls = some (out ++ appended) ∧
    Splits appended responses ∧
    responses.map Message.body = calls.map fun call => call.text.bytes

/-- Every sequence of calls appends one response for each call, in order and with nothing left
over, whose body is the message of the call followed by a `NUL`; so the bodies are the messages
only when there is no call. -/
theorem faithful_iff (out : Bytes) (calls : List SendCall) :
    (∃ appended responses, sendAll out calls = some (out ++ appended) ∧
      Splits appended responses ∧
      responses.map Message.body = calls.map fun call => call.text.bytes ++ [0]) ∧
    (Faithful out calls ↔ calls = []) := by
  have appends := sendAll_eq out calls
  have splits := sendAll_splits calls
  refine ⟨⟨_, _, appends, splits, by simp [SendCall.framed]⟩, ?_, ?_⟩
  · rintro ⟨appended, responses, sent, split, bodies⟩
    obtain rfl := List.append_cancel_left (Option.some.inj (appends.symm.trans sent))
    obtain rfl := splits.unique split
    cases calls with
    | nil => rfl
    | cons call calls =>
      simp only [List.map_cons, List.cons.injEq, SendCall.framed] at bodies
      have longer := congrArg List.length bodies.1
      simp at longer
  · rintro rfl
    exact ⟨[], [], by simp [sendAll], .nil, rfl⟩

/-- `SendResponse(c, "ok")`. -/
def okCall : SendCall := .response ⟨ascii "ok", by decide, by decide, by decide⟩

/-- The response to a single call does not have the body that was passed. -/
theorem okCall_not_faithful : ¬Faithful [] [okCall] := by
  rintro ⟨appended, responses, sent, split, bodies⟩
  obtain rfl := Option.some.inj ((sendAll_eq [] [okCall]).symm.trans sent)
  obtain rfl := (sendAll_splits [okCall]).unique split
  exact absurd bodies (by decide)

end CppCode.Interfaces
