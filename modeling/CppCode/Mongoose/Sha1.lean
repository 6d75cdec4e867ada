import CppCode.Library.Sha1
import CppCode.Mongoose.Memory

/-!
# SHA-1 in place

`common/sha1.c`. `cs_sha1_transform` keeps sixteen words of the schedule and overwrites them in
turn, and instead of moving the five variables it names them in another order on every line. The
context of a message that arrives in parts holds a block that is filled byte by byte, and the number
of bits so far in two words. The target is little-endian.
-/

namespace CppCode.Mongoose

open Library

/-- The variables of `cs_sha1_transform`. -/
inductive Sha1Reg
  | a | b | c | d | e
  deriving DecidableEq, Repr

/-- The macros `R0` to `R4`. -/
inductive Sha1Macro
  | r0 | r1 | r2 | r3 | r4
  deriving DecidableEq, Repr

/-- A line of `cs_sha1_transform`: a macro and its arguments. -/
structure Sha1Line where
  /-- The macro. -/
  kind : Sha1Macro
  /-- First argument. -/
  v : Sha1Reg
  /-- Second argument, which is rotated. -/
  w : Sha1Reg
  /-- Third argument. -/
  x : Sha1Reg
  /-- Fourth argument. -/
  y : Sha1Reg
  /-- Fifth argument, which is added to. -/
  z : Sha1Reg
  /-- Index of the word. -/
  i : Nat
  deriving DecidableEq, Repr

/-- The lines of `cs_sha1_transform`. -/
def sha1Lines : List Sha1Line := [
  ⟨.r0, .a, .b, .c, .d, .e, 0⟩, ⟨.r0, .e, .a, .b, .c, .d, 1⟩,
  ⟨.r0, .d, .e, .a, .b, .c, 2⟩, ⟨.r0, .c, .d, .e, .a, .b, 3⟩,
  ⟨.r0, .b, .c, .d, .e, .a, 4⟩, ⟨.r0, .a, .b, .c, .d, .e, 5⟩,
  ⟨.r0, .e, .a, .b, .c, .d, 6⟩, ⟨.r0, .d, .e, .a, .b, .c, 7⟩,
  ⟨.r0, .c, .d, .e, .a, .b, 8⟩, ⟨.r0, .b, .c, .d, .e, .a, 9⟩,
  ⟨.r0, .a, .b, .c, .d, .e, 10⟩, ⟨.r0, .e, .a, .b, .c, .d, 11⟩,
  ⟨.r0, .d, .e, .a, .b, .c, 12⟩, ⟨.r0, .c, .d, .e, .a, .b, 13⟩,
  ⟨.r0, .b, .c, .d, .e, .a, 14⟩, ⟨.r0, .a, .b, .c, .d, .e, 15⟩,
  ⟨.r1, .e, .a, .b, .c, .d, 16⟩, ⟨.r1, .d, .e, .a, .b, .c, 17⟩,
  ⟨.r1, .c, .d, .e, .a, .b, 18⟩, ⟨.r1, .b, .c, .d, .e, .a, 19⟩,
  ⟨.r2, .a, .b, .c, .d, .e, 20⟩, ⟨.r2, .e, .a, .b, .c, .d, 21⟩,
  ⟨.r2, .d, .e, .a, .b, .c, 22⟩, ⟨.r2, .c, .d, .e, .a, .b, 23⟩,
  ⟨.r2, .b, .c, .d, .e, .a, 24⟩, ⟨.r2, .a, .b, .c, .d, .e, 25⟩,
  ⟨.r2, .e, .a, .b, .c, .d, 26⟩, ⟨.r2, .d, .e, .a, .b, .c, 27⟩,
  ⟨.r2, .c, .d, .e, .a, .b, 28⟩, ⟨.r2, .b, .c, .d, .e, .a, 29⟩,
  ⟨.r2, .a, .b, .c, .d, .e, 30⟩, ⟨.r2, .e, .a, .b, .c, .d, 31⟩,
  ⟨.r2, .d, .e, .a, .b, .c, 32⟩, ⟨.r2, .c, .d, .e, .a, .b, 33⟩,
  ⟨.r2, .b, .c, .d, .e, .a, 34⟩, ⟨.r2, .a, .b, .c, .d, .e, 35⟩,
  ⟨.r2, .e, .a, .b, .c, .d, 36⟩, ⟨.r2, .d, .e, .a, .b, .c, 37⟩,
  ⟨.r2, .c, .d, .e, .a, .b, 38⟩, ⟨.r2, .b, .c, .d, .e, .a, 39⟩,
  ⟨.r3, .a, .b, .c, .d, .e, 40⟩, ⟨.r3, .e, .a, .b, .c, .d, 41⟩,
  ⟨.r3, .d, .e, .a, .b, .c, 42⟩, ⟨.r3, .c, .d, .e, .a, .b, 43⟩,
  ⟨.r3, .b, .c, .d, .e, .a, 44⟩, ⟨.r3, .a, .b, .c, .d, .e, 45⟩,
  ⟨.r3, .e, .a, .b, .c, .d, 46⟩, ⟨.r3, .d, .e, .a, .b, .c, 47⟩,
  ⟨.r3, .c, .d, .e, .a, .b, 48⟩, ⟨.r3, .b, .c, .d, .e, .a, 49⟩,
  ⟨.r3, .a, .b, .c, .d, .e, 50⟩, ⟨.r3, .e, .a, .b, .c, .d, 51⟩,
  ⟨.r3, .d, .e, .a, .b, .c, 52⟩, ⟨.r3, .c, .d, .e, .a, .b, 53⟩,
  ⟨.r3, .b, .c, .d, .e, .a, 54⟩, ⟨.r3, .a, .b, .c, .d, .e, 55⟩,
  ⟨.r3, .e, .a, .b, .c, .d, 56⟩, ⟨.r3, .d, .e, .a, .b, .c, 57⟩,
  ⟨.r3, .c, .d, .e, .a, .b, 58⟩, ⟨.r3, .b, .c, .d, .e, .a, 59⟩,
  ⟨.r4, .a, .b, .c, .d, .e, 60⟩, ⟨.r4, .e, .a, .b, .c, .d, 61⟩,
  ⟨.r4, .d, .e, .a, .b, .c, 62⟩, ⟨.r4, .c, .d, .e, .a, .b, 63⟩,
  ⟨.r4, .b, .c, .d, .e, .a, 64⟩, ⟨.r4, .a, .b, .c, .d, .e, 65⟩,
  ⟨.r4, .e, .a, .b, .c, .d, 66⟩, ⟨.r4, .d, .e, .a, .b, .c, 67⟩,
  ⟨.r4, .c, .d, .e, .a, .b, 68⟩, ⟨.r4, .b, .c, .d, .e, .a, 69⟩,
  ⟨.r4, .a, .b, .c, .d, .e, 70⟩, ⟨.r4, .e, .a, .b, .c, .d, 71⟩,
  ⟨.r4, .d, .e, .a, .b, .c, 72⟩, ⟨.r4, .c, .d, .e, .a, .b, 73⟩,
  ⟨.r4, .b, .c, .d, .e, .a, 74⟩, ⟨.r4, .a, .b, .c, .d, .e, 75⟩,
  ⟨.r4, .e, .a, .b, .c, .d, 76⟩, ⟨.r4, .d, .e, .a, .b, .c, 77⟩,
  ⟨.r4, .c, .d, .e, .a, .b, 78⟩, ⟨.r4, .b, .c, .d, .e, .a, 79⟩]

/-- `blk0`, which swaps the bytes of a word of the block in place. -/
def blk0 (block : List (BitVec 32)) (i : Nat) : BitVec 32 × List (BitVec 32) :=
  let word := block.getD i 0
  let word := rol word 24 &&& 0xff00ff00 ||| rol word 8 &&& 0x00ff00ff
  (word, block.set i word)

/-- `blk`, which replaces a word of the block by one of the schedule. -/
def blk (block : List (BitVec 32)) (i : Nat) : BitVec 32 × List (BitVec 32) :=
  let word := rol (block.getD ((i + 13) % 16) 0 ^^^ block.getD ((i + 8) % 16) 0 ^^^
    block.getD ((i + 2) % 16) 0 ^^^ block.getD (i % 16) 0) 1
  (word, block.set (i % 16) word)

/-- The logical function of a macro. -/
def Sha1Macro.mix (kind : Sha1Macro) (w x y : BitVec 32) : BitVec 32 :=
  match kind with
  | r0 => w &&& (x ^^^ y) ^^^ y
  | r1 => w &&& (x ^^^ y) ^^^ y
  | r2 => w ^^^ x ^^^ y
  | r3 => (w ||| x) &&& y ||| w &&& x
  | r4 => w ^^^ x ^^^ y

/-- The constant of a macro. -/
def Sha1Macro.key (kind : Sha1Macro) : BitVec 32 :=
  match kind with
  | r0 => 0x5A827999
  | r1 => 0x5A827999
  | r2 => 0x6ED9EBA1
  | r3 => 0x8F1BBCDC
  | r4 => 0xCA62C1D6

/-- The variables and the block of `cs_sha1_transform`. -/
structure Sha1Work where
  /-- The variables. -/
  regs : Sha1Reg → BitVec 32
  /-- The block, as words of memory. -/
  block : List (BitVec 32)

/-- Execute a line. -/
def Sha1Line.exec (line : Sha1Line) (work : Sha1Work) : Sha1Work :=
  let (word, block) := if line.kind = .r0 then blk0 work.block line.i else blk work.block line.i
  let z := work.regs line.z + (line.kind.mix (work.regs line.w) (work.regs line.x)
    (work.regs line.y) + word + line.kind.key + rol (work.regs line.v) 5)
  let regs := Function.update work.regs line.z z
  ⟨Function.update regs line.w (rol (regs line.w) 30), block⟩

/-- The words of a block as they are in memory. -/
def memoryWords (buffer : Bytes) : List (BitVec 32) :=
  (List.range 16).map fun i => BitVec.ofNat 32 (leValue ((buffer.drop (4 * i)).take 4))

/-- The variables before the first line. -/
def startRegs (state : Sha1Words) : Sha1Reg → BitVec 32
  | .a => state.a
  | .b => state.b
  | .c => state.c
  | .d => state.d
  | .e => state.e

/-- `cs_sha1_transform`. -/
def csSha1Transform (state : Sha1Words) (buffer : Bytes) : Sha1Words :=
  let work := sha1Lines.foldl (fun work line => line.exec work)
    ⟨startRegs state, memoryWords buffer⟩
  ⟨state.a + work.regs .a, state.b + work.regs .b, state.c + work.regs .c,
    state.d + work.regs .d, state.e + work.regs .e⟩

/-- `cs_sha1_ctx`. -/
structure Sha1Ctx where
  /-- The hash value so far. -/
  state : Sha1Words
  /-- `count[0]`, the low word of the number of bits. -/
  count0 : Nat := 0
  /-- `count[1]`. -/
  count1 : Nat := 0
  /-- The block that is being filled. -/
  buffer : Bytes
  deriving DecidableEq, Repr

/-- `cs_sha1_init`, on a context whose block has any content. -/
def csSha1Init (buffer : Bytes) : Sha1Ctx where
  state := ⟨0x67452301, 0xEFCDAB89, 0x98BADCFE, 0x10325476, 0xC3D2E1F0⟩
  buffer := buffer

/-- The loop of `cs_sha1_update` over the whole blocks of its data; its sums are 32-bit too. -/
def sha1UpdateLoop (data : Bytes) (len : Nat) : Nat → Sha1Words → Nat → Sha1Words × Nat
  | 0, state, i => (state, i)
  | fuel + 1, state, i =>
    if (i + 63) % 0x100000000 < len then
      sha1UpdateLoop data len fuel (csSha1Transform state ((data.drop i).take 64)) (i + 64)
    else (state, i)

/-- `cs_sha1_update`; its `len` is a 32-bit number, in which the sums are computed. -/
def csSha1Update (context : Sha1Ctx) (data : Bytes) (len : Nat) : Sha1Ctx :=
  let count0 := (context.count0 + len * 8) % 0x100000000
  let count1 := if count0 < context.count0 then context.count1 + 1 else context.count1
  let count1 := (count1 + len / 0x20000000) % 0x100000000
  let j := context.count0 / 8 % 64
  if 63 < (j + len) % 0x100000000 then
    let i := 64 - j
    let buffer := store context.buffer j (data.take i)
    let state := csSha1Transform context.state buffer
    let (state, i) := sha1UpdateLoop data len (len / 64) state i
    ⟨state, count0, count1, store buffer 0 ((data.drop i).take (len - i))⟩
  else ⟨context.state, count0, count1, store context.buffer j (data.take len)⟩

/-- The loop of `cs_sha1_final` that appends zeros until the length has its place. -/
def sha1PadLoop : Nat → Sha1Ctx → Sha1Ctx
  | 0, context => context
  | fuel + 1, context =>
    if context.count0 &&& 504 ≠ 448 then sha1PadLoop fuel (csSha1Update context [0] 1)
    else context

/-- `cs_sha1_final`. -/
def csSha1Final (context : Sha1Ctx) : Bytes :=
  let finalcount := (List.range 8).map fun i =>
    UInt8.ofNat ((if i ≥ 4 then context.count0 else context.count1) >>> ((3 - i % 4) * 8))
  let context := csSha1Update context [0x80] 1
  let context := sha1PadLoop 64 context
  let context := csSha1Update context finalcount 8
  let words := [context.state.a, context.state.b, context.state.c, context.state.d,
    context.state.e]
  (List.range 20).map fun i => UInt8.ofNat ((words.getD (i / 4) 0).toNat >>> ((3 - i % 4) * 8))

/-- `mg_hash_sha1_v`, whose lengths are `size_t` and become 32-bit numbers. -/
def mgHashSha1V (garbage : Bytes) (msgs : List Bytes) : Bytes :=
  csSha1Final (msgs.foldl (fun context msg => csSha1Update context msg (msg.length % 0x100000000))
    (csSha1Init garbage))

/-- `cs_hmac_sha1`. Each `cs_sha1_final` leaves a context of zeros. -/
def csHmacSha1 (garbage key data : Bytes) : Bytes :=
  let wiped : Bytes := List.replicate 64 0
  let (garbage, key) :=
    if key.length > 64 then
      (wiped, csSha1Final (csSha1Update (csSha1Init garbage) key (key.length % 0x100000000)))
    else (garbage, key)
  let buf1 := (store (List.replicate 64 0) 0 key).map (· ^^^ 0x36)
  let buf2 := (store (List.replicate 64 0) 0 key).map (· ^^^ 0x5c)
  let context := csSha1Update (csSha1Init garbage) buf1 64
  let out := csSha1Final (csSha1Update context data (data.length % 0x100000000))
  let context := csSha1Update (csSha1Init wiped) buf2 64
  csSha1Final (csSha1Update context out 20)

end CppCode.Mongoose
