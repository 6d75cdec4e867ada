import CppCode.Mongoose.WebSocket

/-!
# Frames on the wire

What a sender writes for a frame, `WsFrame.bytes`, and what a receiver reads off any part of it.
The lengths of a header are known as soon as the header is there, and before that the frame has no
length or they are known already (`wsLengths_stream`). Unmasking with the mask of the header
restores the payload (`wsMask_wsMask`).
-/

namespace CppCode.Mongoose

open Library

/-- A frame that can be sent: the payload is not longer than the `int` that `mg_send` takes. -/
structure WsFrame where
  /-- The last or only frame of a message. -/
  fin : Bool
  /-- Operation code, zero for a continuation. -/
  opcode : Fin 16
  /-- The mask of a client. -/
  mask : Option Bytes
  /-- Payload. -/
  data : Bytes
  /-- A mask is a 32-bit word. -/
  four : ∀ word ∈ mask, word.length = 4
  /-- The payload fits into an `int`. -/
  fits : data.length ≤ intMax

namespace WsFrame

/-- The operation argument of the send functions. -/
def op (frame : WsFrame) : Nat :=
  if frame.fin then frame.opcode else websocketDontFin + frame.opcode

/-- First byte. -/
def flags (frame : WsFrame) : UInt8 :=
  UInt8.ofNat ((if frame.fin then 0x80 else 0) + frame.opcode)

/-- The seven bits of the length in the second byte. -/
def code (frame : WsFrame) : Nat :=
  if frame.data.length < 126 then frame.data.length
  else if frame.data.length < 65535 then 126 else 127

/-- Second byte. -/
def lengthByte (frame : WsFrame) : UInt8 :=
  if frame.mask.isSome then UInt8.ofNat frame.code ||| 0x80 else UInt8.ofNat frame.code

/-- The length behind the second byte. -/
def extended (frame : WsFrame) : Bytes :=
  if frame.data.length < 126 then []
  else if frame.data.length < 65535 then beBytes 2 frame.data.length
  else beBytes 4 (frame.data.length / 0x100000000) ++ beBytes 4 frame.data.length

/-- The header with its mask. -/
def header (frame : WsFrame) : Bytes :=
  frame.flags :: frame.lengthByte :: (frame.extended ++ frame.mask.getD [])

/-- The payload as it is sent. -/
def payload (frame : WsFrame) : Bytes :=
  match frame.mask with
  | some mask => wsMask mask frame.data
  | none => frame.data

/-- The whole frame. -/
def bytes (frame : WsFrame) : Bytes := frame.header ++ frame.payload

/-- The lengths in the header. -/
def lengths (frame : WsFrame) : WsLengths :=
  ⟨(frame.mask.getD []).length, frame.header.length, frame.data.length⟩

end WsFrame

@[simp] theorem length_wsMask (mask data : Bytes) : (wsMask mask data).length = data.length := by
  simp [wsMask]

/-- Masking twice restores the data. -/
theorem wsMask_wsMask (mask data : Bytes) : wsMask mask (wsMask mask data) = data := by
  apply List.ext_getElem (by simp)
  intro i inside bound
  simp only [wsMask, List.getElem_mapIdx]
  rw [UInt8.xor_assoc, UInt8.xor_self, UInt8.xor_zero]

@[simp] theorem WsFrame.length_payload (frame : WsFrame) :
    frame.payload.length = frame.data.length := by
  unfold WsFrame.payload
  split <;> simp

/-- The extended length has no bytes, two or eight. -/
theorem WsFrame.length_extended (frame : WsFrame) :
    frame.extended.length =
      if frame.data.length < 126 then 0 else if frame.data.length < 65535 then 2 else 8 := by
  unfold WsFrame.extended
  split
  · rfl
  · split <;> simp

theorem WsFrame.length_mask (frame : WsFrame) :
    (frame.mask.getD []).length = if frame.mask.isSome then 4 else 0 := by
  cases masked : frame.mask with
  | none => rfl
  | some mask => exact frame.four mask (by rw [masked]; rfl)

theorem WsFrame.length_header (frame : WsFrame) :
    frame.header.length = 2 + frame.extended.length + (frame.mask.getD []).length := by
  simp [WsFrame.header]
  omega

theorem WsFrame.length_bytes (frame : WsFrame) :
    frame.bytes.length = frame.header.length + frame.data.length := by
  simp [WsFrame.bytes]

/-- A frame is shorter than the range of the sum of its lengths. -/
theorem WsFrame.bytes_small (frame : WsFrame) : frame.bytes.length < 0x100000000 := by
  have fits := frame.fits
  have extended := frame.length_extended
  have mask := frame.length_mask
  unfold intMax at fits
  rw [frame.length_bytes, frame.length_header]
  split_ifs at extended mask <;> omega

/-- The length of a frame is the sum in its header. -/
theorem WsFrame.frameLen_lengths (frame : WsFrame) :
    frame.lengths.frameLen = frame.bytes.length := by
  have small := frame.bytes_small
  unfold WsLengths.frameLen WsFrame.lengths
  rw [← frame.length_bytes]
  exact Nat.mod_eq_of_lt (by omega)

theorem WsFrame.bytes_ne_nil (frame : WsFrame) : frame.bytes ≠ [] := by
  simp [WsFrame.bytes, WsFrame.header]

/-! ## Sending -/

theorem wsHeaderBytes_op (frame : WsFrame) :
    wsHeaderBytes frame.op frame.data.length =
      frame.flags :: UInt8.ofNat frame.code :: frame.extended := by
  have final : ∀ opcode : Fin 16, opcode.val &&& websocketDontFin = 0 ∧
      opcode.val &&& 0x0f = opcode.val := by decide
  have open_ : ∀ opcode : Fin 16, (websocketDontFin + opcode.val) &&& websocketDontFin ≠ 0 ∧
      (websocketDontFin + opcode.val) &&& 0x0f = opcode.val := by decide
  have first : UInt8.ofNat ((if frame.op &&& websocketDontFin ≠ 0 then 0 else 0x80) +
      (frame.op &&& 0x0f)) = frame.flags := by
    unfold WsFrame.op WsFrame.flags
    cases frame.fin with
    | true => simp [(final frame.opcode).1, (final frame.opcode).2]
    | false => simp [(open_ frame.opcode).1, (open_ frame.opcode).2]
  unfold wsHeaderBytes
  rw [first]
  unfold WsFrame.code WsFrame.extended
  split
  · rfl
  · split <;> rfl

/-- Data in the range of `int` is sent whole. -/
theorem mgSendInt_eq {out data : Bytes} (fits : data.length ≤ intMax) :
    mgSendInt out data = out ++ data := by
  unfold mgSendInt mgSend
  rw [toInt_of_le fits, Int.toNat_natCast, List.take_length]

/-- What was sent behind a header is masked. -/
theorem mgWsMaskFrame_append {out mask data : Bytes} (present : out ≠ []) :
    mgWsMaskFrame (out ++ data) mask out.length = out ++ wsMask mask data := by
  have positive : out.length ≠ 0 := fun none => present (List.eq_nil_of_length_eq_zero none)
  rw [mgWsMaskFrame, if_neg positive, List.take_left, List.drop_left]

/-- A send function appends the bytes of its frame. -/
theorem mgSendWebsocketFrame_eq (out : Bytes) (frame : WsFrame) :
    mgSendWebsocketFrame out frame.mask frame.op frame.data =
      (out ++ frame.bytes, frame.op == websocketOpClose) := by
  unfold mgSendWebsocketFrame mgSendWsHeader
  rw [wsHeaderBytes_op]
  cases masked : frame.mask with
  | none =>
    simp [mgSendInt_eq frame.fits, mgSend, mgWsMaskFrame, WsFrame.bytes, WsFrame.header,
      WsFrame.payload, WsFrame.lengthByte, masked]
  | some mask =>
    simp only [mgSendInt_eq frame.fits, Option.getD_some, mgSend]
    rw [mgWsMaskFrame_append (by simp)]
    simp [WsFrame.bytes, WsFrame.header, WsFrame.payload, WsFrame.lengthByte, masked]

/-- Strings in the range of `int` are sent one behind the other. -/
theorem foldl_mgSendInt {strv : List Bytes} (fits : strv.flatten.length ≤ intMax) (out : Bytes) :
    strv.foldl mgSendInt out = out ++ strv.flatten := by
  induction strv generalizing out with
  | nil => simp
  | cons str strv ih =>
    rw [List.flatten_cons, List.length_append] at fits
    rw [List.foldl_cons, mgSendInt_eq (by omega), ih (by omega), List.flatten_cons,
      List.append_assoc]

/-- The sum of the lengths is computed without overflow. -/
theorem foldl_length {strv : List Bytes} {sum : Nat}
    (fits : sum + strv.flatten.length ≤ intMax) :
    strv.foldl (fun len str => toInt (amd64.toSize (len + str.length))) (sum : Int) =
      (sum + strv.flatten.length : Nat) := by
  induction strv generalizing sum with
  | nil => simp
  | cons str strv ih =>
    rw [List.flatten_cons, List.length_append] at fits
    have word : intMax < 2 ^ amd64.bits := by decide
    have step : toInt (amd64.toSize ((sum : Int) + str.length)) = (sum + str.length : Nat) := by
      rw [← Nat.cast_add, amd64.toSize_of_lt (by omega), toInt_of_le (by omega)]
    rw [List.foldl_cons, step, ih (by omega), List.flatten_cons, List.length_append, Nat.add_assoc]

/-- `mg_send_websocket_framev` sends its strings like `mg_send_websocket_frame` does when they are
joined. -/
theorem mgSendWebsocketFramev_joined (out : Bytes) (mask : Option Bytes) (op : Nat)
    {strv : List Bytes} (fits : strv.flatten.length ≤ intMax) :
    mgSendWebsocketFramev out mask op strv = mgSendWebsocketFrame out mask op strv.flatten := by
  have word : intMax < 2 ^ amd64.bits := by decide
  have len : amd64.toSize
      (strv.foldl (fun len str => toInt (amd64.toSize (len + str.length))) 0) =
      strv.flatten.length := by
    have sum := @foldl_length strv 0 (by omega)
    rw [Nat.cast_zero] at sum
    rw [sum, amd64.toSize_of_lt (by omega), Nat.zero_add]
  have payload : ∀ out : Bytes, strv.foldl mgSendInt out = mgSendInt out strv.flatten := by
    intro out
    rw [foldl_mgSendInt fits, mgSendInt_eq fits]
  simp only [mgSendWebsocketFramev, mgSendWebsocketFrame, len, payload]

/-- Three strings in a masked frame. -/
theorem words_joined : mgSendWebsocketFramev [] (some [1, 2, 3, 4]) 1
      [ascii "a", [], ascii "word"] =
    mgSendWebsocketFrame [] (some [1, 2, 3, 4]) 1 (ascii "aword") :=
  @mgSendWebsocketFramev_joined [] (some [1, 2, 3, 4]) 1 [ascii "a", [], ascii "word"] (by decide)

/-! ## Reading a header -/

/-- The second byte holds the seven bits of the length and the masking flag. -/
theorem lengthByte_spec (frame : WsFrame) :
    (frame.lengthByte &&& 127).toNat = frame.code ∧
      (frame.lengthByte &&& 128 ≠ 0 ↔ frame.mask.isSome) := by
  have small : frame.code < 128 := by
    unfold WsFrame.code
    split_ifs <;> omega
  have bits : ∀ code < 128, (UInt8.ofNat code &&& 127).toNat = code ∧
      UInt8.ofNat code &&& 128 = 0 ∧ ((UInt8.ofNat code ||| 0x80) &&& 127).toNat = code ∧
      (UInt8.ofNat code ||| 0x80) &&& 128 ≠ 0 := by decide
  obtain ⟨plain, clear, masked, set⟩ := bits frame.code small
  unfold WsFrame.lengthByte
  cases frame.mask with
  | none => simp [plain, clear]
  | some mask => simp [masked, set]

section
variable {frame : WsFrame} {buf more rest : Bytes}

/-- The second byte is known when two bytes are there. -/
theorem getD_lengthByte (stream : buf ++ more = frame.bytes ++ rest) (two : 2 ≤ buf.length) :
    buf.getD 1 0 = frame.lengthByte := by
  have held : (buf ++ more)[1]? = some frame.lengthByte := by rw [stream]; rfl
  rw [List.getElem?_append_left (by omega)] at held
  rw [List.getD_eq_getElem?_getD, held, Option.getD_some]

/-- The extended length is known when its last byte is there. -/
theorem take_extended (stream : buf ++ more = frame.bytes ++ rest)
    (there : 2 + frame.extended.length ≤ buf.length) :
    (buf.drop 2).take frame.extended.length = frame.extended := by
  have held : ((buf ++ more).drop 2).take frame.extended.length = frame.extended := by
    rw [stream]
    simp [WsFrame.bytes, WsFrame.header]
  rw [List.drop_append_of_le_length (by omega),
    List.take_append_of_le_length (by rw [List.length_drop]; omega)] at held
  exact held

/-- The number in an extended length. -/
theorem beValue_extended (frame : WsFrame) :
    (¬frame.data.length < 126 → frame.data.length < 65535 →
      beValue frame.extended = frame.data.length) ∧
    (¬frame.data.length < 65535 → beValue (frame.extended.take 4) * 0x100000000 +
      beValue ((frame.extended.drop 4).take 4) = frame.data.length) := by
  have fits := frame.fits
  unfold intMax at fits
  constructor
  · intro large small
    rw [WsFrame.extended, if_neg large, if_pos small]
    exact beValue_beBytes_of_lt (by omega)
  · intro large
    have high : frame.data.length / 0x100000000 = 0 := Nat.div_eq_of_lt (by omega)
    rw [WsFrame.extended, if_neg (by omega), if_neg large, high]
    rw [List.take_left' (by simp), List.drop_left' (by simp),
      List.take_of_length_le (by simp), beValue_beBytes_of_lt (by omega),
      beValue_beBytes_of_lt (by omega), Nat.zero_mul, Nat.zero_add]

/-- The lengths in a header whose extended length has `count` bytes. -/
theorem WsFrame.lengths_eq {count : Nat} (extended : frame.extended.length = count) :
    frame.lengths = ⟨(frame.mask.getD []).length, 2 + count + (frame.mask.getD []).length,
      frame.data.length⟩ := by
  rw [WsFrame.lengths, frame.length_header, extended]

/-- The lengths are known when the header is there, and before that the frame has none or they are
known already. -/
theorem wsLengths_stream (stream : buf ++ more = frame.bytes ++ rest) :
    (frame.header.length ≤ buf.length → wsLengths buf = frame.lengths) ∧
      ((wsLengths buf).frameLen = 0 ∨ wsLengths buf = frame.lengths) := by
  have header := frame.length_header
  have extended := frame.length_extended
  have mask := frame.length_mask
  obtain ⟨code, masked⟩ := lengthByte_spec frame
  obtain ⟨word, long⟩ := beValue_extended frame
  by_cases two : buf.length < 2
  · refine ⟨fun whole => by omega, .inl ?_⟩
    rw [wsLengths, if_pos two]
    rfl
  have second := getD_lengthByte stream (by omega)
  have maskLen : (if frame.lengthByte &&& 128 ≠ 0 then 4 else 0) =
      (frame.mask.getD []).length := by
    rw [mask]
    simp only [masked]
  rw [wsLengths, if_neg two]
  simp only [second, code, maskLen]
  by_cases short : frame.data.length < 126
  · have small : frame.code = frame.data.length := if_pos short
    rw [if_pos short] at extended
    rw [small]
    by_cases room : (frame.mask.getD []).length ≤ buf.length
    · rw [if_pos ⟨short, room⟩]
      have same := WsFrame.lengths_eq extended
      exact ⟨fun _ => same.symm, .inr same.symm⟩
    · rw [if_neg (by omega), if_neg (by omega), if_neg (by omega)]
      exact ⟨fun whole => by omega, .inl rfl⟩
  · rw [if_neg short] at extended
    by_cases middle : frame.data.length < 65535
    · have large : frame.code = 126 := by rw [WsFrame.code, if_neg short, if_pos middle]
      rw [if_pos middle] at extended
      rw [large, if_neg (by omega)]
      by_cases room : 4 + (frame.mask.getD []).length ≤ buf.length
      · have read := take_extended stream (by omega)
        rw [extended] at read
        rw [if_pos ⟨rfl, room⟩, read, word short middle]
        have same := WsFrame.lengths_eq extended
        exact ⟨fun _ => same.symm, .inr same.symm⟩
      · rw [if_neg (by omega), if_neg (by omega)]
        exact ⟨fun whole => by omega, .inl rfl⟩
    · have large : frame.code = 127 := by rw [WsFrame.code, if_neg short, if_neg middle]
      rw [if_neg middle] at extended
      rw [large, if_neg (by omega), if_neg (by omega)]
      by_cases room : 10 + (frame.mask.getD []).length ≤ buf.length
      · have read := take_extended stream (by omega)
        rw [extended] at read
        have high : (buf.drop 2).take 4 = frame.extended.take 4 := by
          rw [← read, List.take_take]
          rfl
        have low : (buf.drop 6).take 4 = (frame.extended.drop 4).take 4 := by
          rw [← read, List.drop_take, List.drop_drop, List.take_take]
          rfl
        rw [if_pos room, high, low, long middle]
        have same := WsFrame.lengths_eq extended
        exact ⟨fun _ => same.symm, .inr same.symm⟩
      · rw [if_neg room]
        exact ⟨fun whole => by omega, .inl rfl⟩

end

end CppCode.Mongoose
