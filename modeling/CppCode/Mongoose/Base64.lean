import CppCode.Library.Base64
import CppCode.Mongoose.Memory

/-!
# Base64 encoding and decoding

`common/base64.c`: an encoder that is given its bytes in parts and emits characters one by one, the
same encoding of a whole buffer, and the decoder, which stops at the first group that has a
character outside of the alphabet.
-/

namespace CppCode.Mongoose

open Library

/-! ## The encoder in parts -/

/-- `struct cs_base64_ctx`, with the characters that `b64_putc` was given. -/
structure Base64Ctx where
  /-- The bytes that wait for a whole group. -/
  chunk : Bytes
  /-- Their number. -/
  chunkSize : Nat := 0
  /-- The characters so far. -/
  out : Bytes := []
  deriving DecidableEq, Repr

/-- `cs_base64_emit_code`. -/
def csBase64EmitCode (ctx : Base64Ctx) (v : Nat) : Base64Ctx :=
  let ch :=
    if v < 26 then v + 65
    else if v < 52 then v - 26 + 97
    else if v < 62 then v - 52 + 48
    else if v - 52 - 10 = 0 then 43 else 47
  { ctx with out := ctx.out ++ [UInt8.ofNat ch] }

/-- `cs_base64_emit_chunk`. -/
def csBase64EmitChunk (ctx : Base64Ctx) : Base64Ctx :=
  let a := (ctx.chunk.getD 0 0).toNat
  let b := (ctx.chunk.getD 1 0).toNat
  let c := (ctx.chunk.getD 2 0).toNat
  let ctx := csBase64EmitCode ctx (a >>> 2)
  let ctx := csBase64EmitCode ctx ((a &&& 3) <<< 4 ||| b >>> 4)
  let ctx := if 1 < ctx.chunkSize then csBase64EmitCode ctx ((b &&& 15) <<< 2 ||| c >>> 6) else ctx
  if 2 < ctx.chunkSize then csBase64EmitCode ctx (c &&& 63) else ctx

/-- `cs_base64_init`, on a context whose chunk has any content. -/
def csBase64Init (garbage out : Bytes) : Base64Ctx := { chunk := garbage, out := out }

/-- The body of the loop of `cs_base64_update`. -/
def csBase64Byte (ctx : Base64Ctx) (byte : UInt8) : Base64Ctx :=
  let ctx := { ctx with chunk := ctx.chunk.set ctx.chunkSize byte, chunkSize := ctx.chunkSize + 1 }
  if ctx.chunkSize = 3 then { csBase64EmitChunk ctx with chunkSize := 0 } else ctx

/-- `cs_base64_update`. -/
def csBase64Update (ctx : Base64Ctx) (str : Bytes) : Base64Ctx := str.foldl csBase64Byte ctx

/-- `cs_base64_finish`. -/
def csBase64Finish (ctx : Base64Ctx) : Base64Ctx :=
  if 0 < ctx.chunkSize then
    let ctx := { ctx with
      chunk := store ctx.chunk ctx.chunkSize (List.replicate (3 - ctx.chunkSize) 0) }
    let ctx := csBase64EmitChunk ctx
    { ctx with out := ctx.out ++ List.replicate (3 - ctx.chunkSize) 61 }
  else ctx

/-! ## The encoder of a buffer -/

/-- The string `b64`. -/
def b64 : Bytes := ascii "ABCDEFGHIJKLMNOPQRSTUVWXYZabcdefghijklmnopqrstuvwxyz0123456789+/"

/-- The first loop of `BASE64_ENCODE_BODY`. -/
def base64EncodeLoop (src : Bytes) (srcLen : Nat) : Nat → Nat → Bytes → Bytes
  | 0, _, dst => dst
  | fuel + 1, i, dst =>
    if i < srcLen then
      let a := (src.getD i 0).toNat
      let b := if i + 1 ≥ srcLen then 0 else (src.getD (i + 1) 0).toNat
      let c := if i + 2 ≥ srcLen then 0 else (src.getD (i + 2) 0).toNat
      let dst := dst ++ [b64.getD (a >>> 2) 0]
      let dst := dst ++ [b64.getD ((a &&& 3) <<< 4 ||| b >>> 4) 0]
      let dst := if i + 1 < srcLen then dst ++ [b64.getD ((b &&& 15) <<< 2 ||| c >>> 6) 0] else dst
      let dst := if i + 2 < srcLen then dst ++ [b64.getD (c &&& 63) 0] else dst
      base64EncodeLoop src srcLen fuel (i + 3) dst
    else dst

/-- Its second loop. -/
def base64PadLoop : Nat → Bytes → Bytes
  | 0, dst => dst
  | fuel + 1, dst => if dst.length % 4 ≠ 0 then base64PadLoop fuel (dst ++ [61]) else dst

/-- `cs_base64_encode`: the bytes that it writes, the terminating NUL among them. -/
def csBase64Encode (src : Bytes) (srcLen : Nat) : Bytes :=
  base64PadLoop 4 (base64EncodeLoop src srcLen srcLen 0 []) ++ [0]

/-! ## The decoder -/

/-- The inverse lookup map. -/
def fromB64Tab : List Nat := [
  255, 255, 255, 255, 255, 255, 255, 255, 255, 255, 255, 255, 255, 255, 255, 255,
  255, 255, 255, 255, 255, 255, 255, 255, 255, 255, 255, 255, 255, 255, 255, 255,
  255, 255, 255, 255, 255, 255, 255, 255, 255, 255, 255, 62, 255, 255, 255, 63,
  52, 53, 54, 55, 56, 57, 58, 59, 60, 61, 255, 255, 255, 200, 255, 255,
  255, 0, 1, 2, 3, 4, 5, 6, 7, 8, 9, 10, 11, 12, 13, 14,
  15, 16, 17, 18, 19, 20, 21, 22, 23, 24, 25, 255, 255, 255, 255, 255,
  255, 26, 27, 28, 29, 30, 31, 32, 33, 34, 35, 36, 37, 38, 39, 40,
  41, 42, 43, 44, 45, 46, 47, 48, 49, 50, 51, 255, 255, 255, 255, 255]

/-- `from_b64`. -/
def fromB64 (ch : UInt8) : Nat := fromB64Tab.getD (ch.toNat &&& 127) 0

/-- The loop of `cs_base64_decode`, on the memory that its pointer points to: the rest of the length
and the bytes that are written. -/
def base64DecodeLoop : Nat → Bytes → Nat → Bytes → Nat × Bytes
  | 0, _, len, dst => (len, dst)
  | fuel + 1, s, len, dst =>
    let a := fromB64 (s.getD 0 0)
    let b := fromB64 (s.getD 1 0)
    let c := fromB64 (s.getD 2 0)
    let d := fromB64 (s.getD 3 0)
    if len ≥ 4 ∧ a ≠ 255 ∧ b ≠ 255 ∧ c ≠ 255 ∧ d ≠ 255 then
      let s := s.drop 4
      let len := len - 4
      if a = 200 ∨ b = 200 then (len, dst)
      else
        let dst := dst ++ [UInt8.ofNat (a <<< 2 ||| b >>> 4)]
        if c = 200 then (len, dst)
        else
          let dst := dst ++ [UInt8.ofNat (b <<< 4 ||| c >>> 2)]
          if d = 200 then (len, dst)
          else base64DecodeLoop fuel s len (dst ++ [UInt8.ofNat (c <<< 6 ||| d)])
    else (len, dst)

/-- `cs_base64_decode`: the number of characters that it read, and the bytes in front of the NUL
that it writes. Each round of its loop takes four characters. -/
def csBase64Decode (s : Bytes) (len : Nat) : Nat × Bytes :=
  let (rest, dst) := base64DecodeLoop (len / 4 + 1) s len []
  (len - rest, dst)

end CppCode.Mongoose
