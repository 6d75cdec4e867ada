import CppCode.Mongoose.Bodies
import CppCode.Mongoose.HeaderBlock
import CppCode.Mongoose.Reassembly

/-!
# What is pending of a reply

A description of a reply by the bytes that a server sends, before the handler sees it and after. It
is of the bytes from the end of the last reply on: the header block that they begin with, the
lengths that the block declares, and the data of the chunks behind it. The handler never has all of
these bytes: it collapses the complete chunks with every segment and goes on from there. `Reads`
says that a buffer that was collapsed so is read as the bytes themselves are (`alike`), and `append`
and `trans` that this goes on however the bytes come.
-/

namespace CppCode.Mongoose

open Library

/-- The bytes of a server since its last reply. -/
structure Pending where
  /-- The bytes. -/
  bytes : Bytes
  /-- How many of them stand in the buffer when it is parsed: the lines of the chunks that were
  collapsed before do not. The length is passed to the parser as an `int`. -/
  held : Nat
  deriving DecidableEq, Repr

namespace Pending

/-- What the search for the end of the block finds. -/
def requestLen (p : Pending) : Int := mgHttpGetRequestLen p.bytes (toInt p.held)

/-- Length of the block. -/
def block (p : Pending) : Nat := p.requestLen.toNat

/-- The bytes begin with a complete and well-formed header block of a reply. -/
def HasBlock (p : Pending) : Prop := 0 < p.block ∧ headersStart p.bytes p.block false ≠ none

instance (p : Pending) : Decidable p.HasBlock := inferInstanceAs (Decidable (_ ∧ _))

/-- No more bytes are looked at: the block accepts an upgrade to WebSocket or is malformed, or there
is none in as many bytes as a block may have. -/
def Ignored (p : Pending) : Prop :=
  p.HasBlock ∧ Upgrades p.bytes p.block false ∨
    ¬p.HasBlock ∧ (p.requestLen ≠ 0 ∨ mgMaxHttpRequestSize ≤ p.held)

end Pending

instance (buf : Bytes) (len : Nat) (isReq : Bool) : Decidable (Upgrades buf len isReq) := by
  unfold Upgrades
  infer_instance

instance (p : Pending) : Decidable p.Ignored := by
  unfold Pending.Ignored
  infer_instance

/-- A reply once its complete chunks are collapsed. -/
structure Reassembled where
  /-- The block, the data of the chunks and what follows them. -/
  bytes : Bytes
  /-- Length of the data of the chunks. -/
  bodyLen : Nat
  /-- Length of the whole reply. -/
  message : Nat
  deriving DecidableEq, Repr

instance (buf : Bytes) (len : Nat) (isReq : Bool) : Decidable (Chunked buf len isReq) := by
  unfold Chunked
  infer_instance

/-- The reply that some bytes begin with, when `c` bytes of a chunked body count as data that was
collapsed before, after `count` replies. A message with no end declared is longer than any buffer
until its empty chunk is there, and then it is all that the buffer holds. -/
def Pending.reassembled (platform : Platform) (count c : Nat) (p : Pending) : Option Reassembled :=
  let region := p.bytes.drop p.block
  let declared := (framing platform p.bytes p.block false).message
  if Chunked p.bytes p.block false then
    if region.length < c then
      -- the data is no longer there, and the next chunk is looked for behind the bytes
      if platform.ndebug = false ∨ platform.strayChunk p.bytes c count = true then none
      else some ⟨p.bytes, c, declared⟩
    else
      (unchunk platform ((region.drop c).length + 1) (region.take c) (region.drop c)).map fun r =>
        ⟨p.bytes.take p.block ++ (r.body ++ r.rest), r.body.length,
          if r.last then p.block + (r.body ++ r.rest).length else declared⟩
  else some ⟨p.bytes, c, declared⟩

/-- The bytes begin with a complete reply. -/
def Pending.Complete (platform : Platform) (count c : Nat) (p : Pending) : Prop :=
  p.HasBlock ∧ ¬Upgrades p.bytes p.block false ∧
    ∃ r ∈ p.reassembled platform count c, r.message ≤ r.bytes.length

/-! ## Collapsed buffers -/

/-- The first buffer, with `c` bytes of data collapsed before, is read as the second one is, with
`chunkBodyLen` bytes. -/
inductive Reads (platform : Platform) (bytes : Bytes) (c : Nat) : Bytes → Nat → Prop
  /-- Nothing was collapsed. -/
  | same : Reads platform bytes c bytes c
  /-- Chunks behind the block were collapsed, and what they leave is decoded as all of them. -/
  | collapsed {len : Nat} {body rest : Bytes} (block : IsBlock (bytes.take len))
    (long : len ≤ bytes.length) (chunked : Chunked bytes len false)
    (enough : c ≤ (bytes.drop len).length)
    (shorter : rest.length ≤ ((bytes.drop len).drop c).length)
    (resumes : ∀ more fuel, (((bytes.drop len).drop c) ++ more).length < fuel →
      unchunk platform fuel ((bytes.drop len).take c) (((bytes.drop len).drop c) ++ more) =
        unchunk platform fuel body (rest ++ more)) :
    Reads platform bytes c (bytes.take len ++ (body ++ rest)) body.length

/-- A chunked message has headers. -/
theorem Chunked.present {buf : Bytes} {len : Nat} (chunked : Chunked buf len false) :
    headersOf buf len false ≠ [] := by
  obtain ⟨value, found, -⟩ := chunked
  intro none
  simp [findHeader, none] at found

/-- Whether a block announces a chunked body. -/
theorem SameBlock.chunked {buf other : Bytes} {len : Nat} (same : SameBlock buf other len)
    (chunked : Chunked buf len false) : Chunked other len false := by
  have name : lf ∉ ascii "Transfer-Encoding" := by decide
  have word : lf ∉ ascii "chunked" := by decide
  have present := chunked.present
  obtain ⟨value, found, equal⟩ := chunked
  refine ⟨value, ?_, ?_⟩
  · rw [same.headersOf_eq present, same.findHeader_eq name]
    exact found
  · obtain ⟨header, stored, rfl⟩ := Option.map_eq_some_iff.mp found
    rw [same.vcasecmp_eq (List.mem_of_find?_eq_some stored) word]
    exact equal

/-- Whether a block accepts an upgrade. -/
theorem SameBlock.upgrades {buf other : Bytes} {len : Nat} (same : SameBlock buf other len)
    (present : headersOf buf len false ≠ []) :
    Upgrades other len false ↔ Upgrades buf len false := by
  have name : lf ∉ upgradeHeader false := by decide
  rw [Upgrades, Upgrades, same.headersOf_eq present, same.findHeader_eq name]

/-- The search for the block does not depend on what is behind it. -/
theorem SameBlock.requestLen {buf other : Bytes} {len : Nat} (same : SameBlock buf other len)
    (n : Int) :
    mgHttpGetRequestLen other n = mgHttpGetRequestLen buf n ∧
      (0 < mgHttpGetRequestLen buf n → mgHttpGetRequestLen buf n = len) := by
  obtain ⟨block, long, front⟩ := same
  have length : (buf.take len).length = len := List.length_take_of_le long
  have found := block.found
  rw [length] at found
  have nonempty : len ≠ 0 := by
    rintro rfl
    simpa using block.last
  by_cases whole : len ≤ n.toNat
  · have behind {text : Bytes} (front : text.take len = buf.take len) :
        mgHttpGetRequestLen text n = len := by
      have split := List.take_append_drop len (text.take n.toNat)
      rw [List.take_take, Nat.min_eq_left whole, front] at split
      rw [mgHttpGetRequestLen, ← split, requestLenFrom_append (by rw [found]; omega), found]
    rw [behind front, behind rfl]
    exact ⟨rfl, fun _ => rfl⟩
  · have inside {text : Bytes} (front : text.take len = buf.take len) :
        text.take n.toNat = (buf.take len).take n.toNat := by
      rw [← front, List.take_take, Nat.min_eq_left (by omega)]
    have equal : mgHttpGetRequestLen other n = mgHttpGetRequestLen buf n := by
      rw [mgHttpGetRequestLen, mgHttpGetRequestLen, inside front, inside rfl]
    refine ⟨equal, fun positive => ?_⟩
    -- a block that ends earlier would have been found
    rw [mgHttpGetRequestLen, inside rfl] at positive ⊢
    have earlier := requestLenFrom_append (ne_of_gt positive) ((buf.take len).drop n.toNat)
    rw [List.take_append_drop, found] at earlier
    exact earlier.symm

namespace Reads
variable {platform : Platform} {bytes buf : Bytes} {c chunkBodyLen : Nat}

/-- More bytes are read in the same way. -/
theorem append (reads : Reads platform bytes c buf chunkBodyLen) (more : Bytes) :
    Reads platform (bytes ++ more) c (buf ++ more) chunkBodyLen := by
  cases reads with
  | same => exact .same
  | @collapsed len body rest block long chunked enough shorter resumes =>
    have front : (bytes ++ more).take len = bytes.take len := List.take_append_of_le_length long
    have behind : (bytes ++ more).drop len = bytes.drop len ++ more :=
      List.drop_append_of_le_length long
    have ahead : ((bytes ++ more).drop len).drop c = (bytes.drop len).drop c ++ more := by
      rw [behind, List.drop_append_of_le_length enough]
    have data : ((bytes ++ more).drop len).take c = (bytes.drop len).take c := by
      rw [behind, List.take_append_of_le_length enough]
    rw [List.append_assoc, List.append_assoc, ← front]
    refine .collapsed (by rwa [front]) (by rw [List.length_append]; omega)
      (SameBlock.chunked ⟨block, long, front⟩ chunked) (by rw [behind, List.length_append]; omega)
      (by rw [ahead, List.length_append, List.length_append]; omega) fun further fuel bound => ?_
    rw [ahead, List.append_assoc] at bound
    rw [ahead, data, List.append_assoc, List.append_assoc, resumes (more ++ further) fuel bound]

/-- The buffer is described as the bytes are. -/
structure Alike (platform : Platform) (p q : Pending) (c chunkBodyLen : Nat) : Prop where
  /-- The same block is found. -/
  requestLen : q.requestLen = p.requestLen
  /-- It is as well formed. -/
  hasBlock : q.HasBlock ↔ p.HasBlock
  /-- It accepts an upgrade or not. -/
  upgrades : p.HasBlock → (Upgrades q.bytes q.block false ↔ Upgrades p.bytes p.block false)
  /-- The same reply is reassembled. -/
  reassembled : p.HasBlock → ∀ count,
    q.reassembled platform count chunkBodyLen = p.reassembled platform count c

/-- A buffer that is read as the bytes are is described as they are. -/
theorem alike (reads : Reads platform bytes c buf chunkBodyLen) (held : Nat) :
    Alike platform ⟨bytes, held⟩ ⟨buf, held⟩ c chunkBodyLen := by
  cases reads with
  | same => exact ⟨rfl, Iff.rfl, fun _ => Iff.rfl, fun _ _ => rfl⟩
  | @collapsed len body rest block long chunked enough shorter resumes =>
    have length : (bytes.take len).length = len := List.length_take_of_le long
    have front : (bytes.take len ++ (body ++ rest)).take len = bytes.take len :=
      List.take_left' length
    have behind : (bytes.take len ++ (body ++ rest)).drop len = body ++ rest :=
      List.drop_left' length
    have same : SameBlock bytes (bytes.take len ++ (body ++ rest)) len := ⟨block, long, front⟩
    have present := chunked.present
    obtain ⟨equal, only⟩ := same.requestLen (toInt held)
    by_cases positive : 0 < mgHttpGetRequestLen bytes (toInt held)
    · have whole := only positive
      have mine : (⟨bytes, held⟩ : Pending).block = len := by
        simp only [Pending.block, Pending.requestLen, whole, Int.toNat_natCast]
      have its : (⟨bytes.take len ++ (body ++ rest), held⟩ : Pending).block = len := by
        simp only [Pending.block, Pending.requestLen, equal, whole, Int.toNat_natCast]
      refine ⟨equal, ?_, fun _ => ?_, fun _ count => ?_⟩
      · simp only [Pending.HasBlock, mine, its, same.headersStart_eq present]
      · rw [mine, its]
        exact same.upgrades present
      · have decoded : unchunk platform (rest.length + 1) body rest =
            unchunk platform (((bytes.drop len).drop c).length + 1) ((bytes.drop len).take c)
              ((bytes.drop len).drop c) := by
          have all := resumes [] (((bytes.drop len).drop c).length + 1) (by simp)
          rw [List.append_nil, List.append_nil] at all
          rw [all]
          exact unchunk_enough (by omega) (by omega)
        have held : ¬(body ++ rest).length < body.length := by
          rw [List.length_append]
          omega
        simp only [Pending.reassembled, mine, its, if_pos chunked, if_pos (same.chunked chunked),
          same.framing_eq present, front, behind, List.take_left, List.drop_left, if_neg held,
          if_neg (not_lt.mpr enough), decoded]
    · have none : ¬(⟨bytes, held⟩ : Pending).HasBlock := fun block => positive (by
        have first := block.1
        simp only [Pending.block, Pending.requestLen] at first
        omega)
      refine ⟨equal, iff_of_false (fun block => positive ?_) none, fun block => absurd block none,
        fun block => absurd block none⟩
      have first := block.1
      simp only [Pending.block, Pending.requestLen, equal] at first
      omega

/-- A buffer that was collapsed is collapsed further. -/
theorem trans (reads : Reads platform bytes c buf chunkBodyLen) {other : Bytes} {bodyLen : Nat}
    (further : Reads platform buf chunkBodyLen other bodyLen) :
    Reads platform bytes c other bodyLen := by
  cases reads with
  | same => exact further
  | @collapsed len body rest block long chunked enough shorter resumes =>
    generalize built : bytes.take len ++ (body ++ rest) = middle at further
    have length : (bytes.take len).length = len := List.length_take_of_le long
    have front : middle.take len = bytes.take len := by
      rw [← built]
      exact List.take_left' length
    have behind : middle.drop len = body ++ rest := by
      rw [← built]
      exact List.drop_left' length
    cases further with
    | same =>
      rw [← built]
      exact .collapsed block long chunked enough shorter resumes
    | @collapsed again data left its within _ _ less goesOn =>
      have inside : len ≤ middle.length := by
        rw [← built, List.length_append]
        omega
      obtain rfl : len = again := isBlock_unique (by rwa [front]) its inside within
      rw [front]
      simp only [behind, List.take_left, List.drop_left] at less goesOn
      refine .collapsed block long chunked enough (le_trans less shorter) fun more fuel bound => ?_
      rw [resumes more fuel bound, goesOn more fuel ?_]
      rw [List.length_append] at bound ⊢
      omega

end Reads

/-- Collapsing the complete chunks of a reply leaves a buffer that is read as its bytes, while the
reply is not complete. -/
theorem Pending.reassembled_reads {platform : Platform} {count c : Nat} {p : Pending}
    {r : Reassembled} (block : p.HasBlock) (found : p.reassembled platform count c = some r)
    (unfinished : r.bytes.length < r.message) : Reads platform p.bytes c r.bytes r.bodyLen := by
  have whole : mgHttpGetRequestLen p.bytes (toInt p.held) = p.block := by
    have positive := block.1
    simp only [Pending.block, Pending.requestLen] at positive ⊢
    omega
  have long : p.block ≤ p.bytes.length := by
    have inside := mgHttpGetRequestLen_le (by rw [whole]; exact Int.natCast_pos.mpr block.1)
    rwa [whole, Int.toNat_natCast] at inside
  simp only [Pending.reassembled] at found
  split_ifs at found with chunked short lost
  · obtain rfl := Option.some.inj found
    exact .same
  · obtain ⟨u, decoded, rfl⟩ := Option.map_eq_some_iff.mp found
    have length : (p.bytes.take p.block).length = p.block := List.length_take_of_le long
    have open' : u.last = false := by
      by_contra last
      rw [Bool.not_eq_false] at last
      simp only [last, if_true] at unfinished
      rw [List.length_append, length] at unfinished
      exact lt_irrefl _ unfinished
    refine .collapsed (isBlock_take block.1 whole).1 long chunked (not_lt.mp short)
      (unchunk_shorter decoded) fun more fuel bound => ?_
    exact unchunk_append decoded open' bound
  · obtain rfl := Option.some.inj found
    exact .same

/-! ## The handler -/

/-- The bytes in a receive buffer as what is pending. -/
abbrev HttpConn.pending (nc : HttpConn) : Pending := ⟨nc.recvMbuf, nc.recvMbuf.length⟩

/-- What a connection becomes when its reply was reassembled and is none of an upgrade. -/
def HttpConn.settle (nc : HttpConn) (r : Reassembled) (hm : HttpMessage) : HttpConn :=
  let nc := { nc with recvMbuf := r.bytes, chunkBodyLen := r.bodyLen }
  if r.message ≤ r.bytes.length then
    { nc with removals := r.message :: nc.removals, delivered := nc.delivered ++ [⟨r.bytes, hm⟩] }
  else nc

section
variable {platform : Platform} {nc : HttpConn}

/-- A buffer that begins with a block is parsed as this block. -/
theorem HttpConn.pending_parsed (block : nc.pending.HasBlock) :
    (mgParseHttp platform nc.recvMbuf (toInt nc.recvMbuf.length) false).1 = nc.pending.block ∧
      (mgParseHttp platform nc.recvMbuf (toInt nc.recvMbuf.length) false).2.Describes platform
        nc.recvMbuf nc.pending.block false := by
  obtain ⟨length, describes⟩ := @mgParseHttp_pos platform _ _ _ (mgParseHttp_pos_iff.mpr block)
  refine ⟨length.trans ?_, describes⟩
  have positive := block.1
  simp only [Pending.block, Pending.requestLen] at positive ⊢
  omega

/-- The block of a buffer is in it. -/
theorem HttpConn.pending_block (block : nc.pending.HasBlock) :
    IsBlock (nc.recvMbuf.take nc.pending.block) ∧ nc.pending.block ≤ nc.recvMbuf.length := by
  have whole : mgHttpGetRequestLen nc.recvMbuf (toInt nc.recvMbuf.length) = nc.pending.block := by
    have positive := block.1
    simp only [Pending.block, Pending.requestLen] at positive ⊢
    omega
  have inside := mgHttpGetRequestLen_le (by rw [whole]; exact Int.natCast_pos.mpr block.1)
  rw [whole, Int.toNat_natCast] at inside
  exact ⟨(isBlock_take block.1 whole).1, inside⟩

/-- Without a block the connection waits, or it is closed. -/
theorem handleRecv_ignored (absent : ¬nc.pending.HasBlock) :
    handleRecv platform false nc =
      if nc.pending.Ignored then { nc with closeImmediately := true } else nc := by
  have short : (mgParseHttp platform nc.recvMbuf (toInt nc.recvMbuf.length) false).1 ≤ 0 :=
    not_lt.mp fun positive => absent (mgParseHttp_pos_iff.mp positive)
  have same : (mgParseHttp platform nc.recvMbuf (toInt nc.recvMbuf.length) false).1 = 0 ↔
      nc.pending.requestLen = 0 := by
    by_cases found : mgHttpGetRequestLen nc.recvMbuf (toInt nc.recvMbuf.length) ≤ 0
    · rw [mgParseHttp_short found]
      rfl
    · have malformed : headersStart nc.recvMbuf nc.pending.block false = none := by
        by_contra start
        refine absent ⟨?_, start⟩
        simp only [Pending.block, Pending.requestLen]
        omega
      rw [mgParseHttp_malformed (not_le.mp found) malformed]
      refine iff_of_false (by decide) fun zero => found (le_of_eq zero)
  rw [handleRecv_eq]
  unfold handleParsed
  rw [if_neg fun both => absurd both.1 (not_lt.mpr short)]
  have ignored : nc.pending.Ignored ↔
      nc.pending.requestLen ≠ 0 ∨ mgMaxHttpRequestSize ≤ nc.pending.held := by
    simp only [Pending.Ignored, absent, false_and, false_or, not_false_eq_true, true_and]
  unfold dispatch
  simp only [ignored]
  by_cases zero : nc.pending.requestLen = 0
  · by_cases large : mgMaxHttpRequestSize ≤ nc.recvMbuf.length
    · rw [if_pos (.inr ⟨same.mpr zero, large⟩), if_pos (.inr large)]
    · have waits : ¬(nc.pending.requestLen ≠ 0 ∨ mgMaxHttpRequestSize ≤ nc.pending.held) :=
        not_or.mpr ⟨not_not.mpr zero, large⟩
      have small : ¬((mgParseHttp platform nc.recvMbuf (toInt nc.recvMbuf.length) false).1 < 0 ∨
          (mgParseHttp platform nc.recvMbuf (toInt nc.recvMbuf.length) false).1 = 0 ∧
            nc.recvMbuf.length ≥ mgMaxHttpRequestSize) := by
        rintro (negative | both)
        · exact absurd (same.mpr zero) (ne_of_lt negative)
        · exact large both.2
      rw [if_neg small, if_pos (same.mpr zero), if_neg waits]
  · have negative := lt_of_le_of_ne short (mt same.mp zero)
    rw [if_pos (.inl negative), if_pos (.inl zero)]

/-- The tests at the end of the handler on a reply that was reassembled. -/
theorem dispatch_reassembled {len : Nat} (block : IsBlock (nc.recvMbuf.take len))
    (long : len ≤ nc.recvMbuf.length) {r : Reassembled} {hm : HttpMessage} (positive : 0 < len)
    (front : r.bytes.take len = nc.recvMbuf.take len)
    (headers : hm.headers = headersOf nc.recvMbuf len false)
    (message : hm.message.len = r.message) :
    dispatch false { nc with recvMbuf := r.bytes, chunkBodyLen := r.bodyLen } len hm =
      if Upgrades nc.recvMbuf len false then
        { nc with
          recvMbuf := mbufRemove r.bytes len, chunkBodyLen := r.bodyLen, status := .websocket }
      else nc.settle r hm := by
  have same : SameBlock nc.recvMbuf r.bytes len := ⟨block, long, front⟩
  have name : lf ∉ upgradeHeader false := by decide
  have upgrade : mgGetHttpHeader r.bytes hm (upgradeHeader false) =
      findHeader nc.recvMbuf (headersOf nc.recvMbuf len false) (upgradeHeader false) := by
    rw [← same.findHeader_eq name]
    simp only [mgGetHttpHeader, findHeader, headers]
  unfold dispatch
  rw [if_neg (by omega), if_neg (by omega)]
  by_cases accepts : Upgrades nc.recvMbuf len false
  · rw [if_pos (by rw [upgrade]; exact accepts), if_pos accepts, Int.toNat_natCast]
  · rw [if_neg (by rw [upgrade]; exact accepts), if_neg accepts, message]
    rfl

/-- Nothing is reassembled of a body that is not chunked. -/
theorem HttpConn.reassembled_plain (plain : ¬Chunked nc.recvMbuf nc.pending.block false)
    (count c : Nat) :
    nc.pending.reassembled platform count c =
      some ⟨nc.recvMbuf, c, (framing platform nc.recvMbuf nc.pending.block false).message⟩ := by
  simp only [Pending.reassembled]
  rw [if_neg plain]

/-- `mg_handle_chunked` leaves what is reassembled of the bytes in the buffer, or stops. -/
theorem mgHandleChunked_reassembled (heap : nc.recvMbuf.length ≤ platform.heap)
    (long : nc.pending.block ≤ nc.recvMbuf.length)
    (chunked : Chunked nc.recvMbuf nc.pending.block false) {hm : HttpMessage}
    (declared : hm.message.len = (framing platform nc.recvMbuf nc.pending.block false).message) :
    (nc.pending.reassembled platform nc.delivered.length nc.chunkBodyLen = none →
      mgHandleChunked platform (nc.stray platform) nc.recvMbuf nc.pending.block nc.chunkBodyLen hm =
        none) ∧
      ∀ r, nc.pending.reassembled platform nc.delivered.length nc.chunkBodyLen = some r →
        r.bytes.take nc.pending.block = nc.recvMbuf.take nc.pending.block ∧
          ∃ after, mgHandleChunked platform (nc.stray platform) nc.recvMbuf nc.pending.block
              nc.chunkBodyLen hm = some (r.bytes, r.bodyLen, after) ∧
            after.headers = hm.headers ∧ after.message.len = r.message := by
  simp only [Pending.reassembled]
  -- nothing depends on how the length of the block was found
  obtain ⟨len, found⟩ : ∃ len, nc.pending.block = len := ⟨_, rfl⟩
  rw [found] at long chunked declared ⊢
  rw [if_pos chunked, ← declared]
  by_cases short : (nc.recvMbuf.drop len).length < nc.chunkBodyLen
  · have without : ¬HasChunk platform nc.recvMbuf len nc.chunkBodyLen := fun chunk =>
      chunk.behind short
    rw [if_pos short]
    by_cases lost : platform.ndebug = false ∨ platform.strayChunk nc.recvMbuf nc.chunkBodyLen
        nc.delivered.length = true
    · have stops : Lost platform (nc.stray platform) nc.recvMbuf len nc.chunkBodyLen :=
        ⟨by rwa [← List.length_drop], lost⟩
      rw [mgHandleChunked_lost stops, if_pos lost]
      exact ⟨fun _ => rfl, fun r found => absurd found (Option.some_ne_none r).symm⟩
    · have goes : ¬Lost platform (nc.stray platform) nc.recvMbuf len nc.chunkBodyLen := fun both =>
        lost both.2
      rw [mgHandleChunked_none without goes, if_neg lost]
      refine ⟨fun none => absurd none (Option.some_ne_none _), fun r found => ?_⟩
      obtain rfl := Option.some.inj found
      exact ⟨rfl, hm, rfl, rfl, rfl⟩
  · have split : nc.recvMbuf = nc.recvMbuf.take len ++
        ((nc.recvMbuf.drop len).take nc.chunkBodyLen ++
          (nc.recvMbuf.drop len).drop nc.chunkBodyLen) := by
      rw [List.take_append_drop, List.take_append_drop]
    have front : (nc.recvMbuf.take len).length = len := List.length_take_of_le long
    have data : ((nc.recvMbuf.drop len).take nc.chunkBodyLen).length = nc.chunkBodyLen :=
      List.length_take_of_le (not_lt.mp short)
    have space := platform.fits
    obtain ⟨stops, goesOn⟩ := @mgHandleChunked_unchunk platform (nc.stray platform)
      ((nc.recvMbuf.drop len).take nc.chunkBodyLen) ((nc.recvMbuf.drop len).drop nc.chunkBodyLen)
      (nc.recvMbuf.take len) hm (by
        rw [List.take_append_drop, List.length_drop]
        omega)
    rw [← split, front, data] at stops goesOn
    rw [if_neg short]
    refine ⟨fun none => stops (Option.map_eq_none_iff.mp none), fun r found => ?_⟩
    obtain ⟨u, decoded, rfl⟩ := Option.map_eq_some_iff.mp found
    obtain ⟨after, handled, same, length⟩ := goesOn u decoded
    exact ⟨List.take_left' front, after, handled, same, length⟩

/-- With a block the message is reassembled and tested, or the program stops. -/
theorem handleRecv_block (heap : nc.recvMbuf.length ≤ platform.heap)
    (block : nc.pending.HasBlock) :
    (nc.pending.reassembled platform nc.delivered.length nc.chunkBodyLen = none →
      handleRecv platform false nc = { nc with status := .stopped }) ∧
      ∀ r, nc.pending.reassembled platform nc.delivered.length nc.chunkBodyLen = some r → ∃ hm,
        handleRecv platform false nc =
          if Upgrades nc.recvMbuf nc.pending.block false then
            { nc with
              recvMbuf := mbufRemove r.bytes nc.pending.block
              chunkBodyLen := r.bodyLen
              status := .websocket }
          else nc.settle r hm := by
  obtain ⟨length, describes⟩ := @HttpConn.pending_parsed platform nc block
  obtain ⟨is, long⟩ := HttpConn.pending_block block
  have positive := block.1
  have inChunks := @mgHandleChunked_reassembled platform nc heap long
  have whole : ¬Chunked nc.recvMbuf nc.pending.block false → _ := fun plain =>
    @HttpConn.reassembled_plain platform nc plain nc.delivered.length nc.chunkBodyLen
  rw [handleRecv_eq, length]
  -- nothing depends on how the length of the block was found, or on what else is reassembled
  generalize nc.pending.reassembled platform nc.delivered.length nc.chunkBodyLen = reassembled
    at inChunks whole ⊢
  obtain ⟨len, found⟩ : ∃ len, nc.pending.block = len := ⟨_, rfl⟩
  rw [found] at describes is long positive inChunks whole ⊢
  generalize (mgParseHttp platform nc.recvMbuf (toInt nc.recvMbuf.length) false).2 = hm
    at describes ⊢
  have headers := describes.headers
  have declared : hm.message.len = (framing platform nc.recvMbuf len false).message := by
    rw [describes.spans.message]
  unfold handleParsed
  by_cases chunked : Chunked nc.recvMbuf len false
  · have announced : (len : Int) > 0 ∧ isChunked nc.recvMbuf hm = true :=
      ⟨Int.natCast_pos.mpr positive, (isChunked_iff describes).mpr chunked⟩
    obtain ⟨stops, goesOn⟩ := inChunks chunked declared
    rw [if_pos announced, Int.toNat_natCast]
    refine ⟨fun none => by rw [stops none], fun r found => ?_⟩
    obtain ⟨front, after, handled, same, message⟩ := goesOn r found
    rw [handled]
    exact ⟨after, dispatch_reassembled is long positive front (same.trans headers) message⟩
  · have plain : ¬((len : Int) > 0 ∧ isChunked nc.recvMbuf hm = true) := fun both =>
      chunked ((isChunked_iff describes).mp both.2)
    rw [if_neg plain, whole chunked]
    refine ⟨fun none => absurd none (Option.some_ne_none _), fun r found => ?_⟩
    obtain rfl := Option.some.inj found
    exact ⟨hm, @dispatch_reassembled nc len is long ⟨nc.recvMbuf, nc.chunkBodyLen, _⟩ hm positive
      rfl headers declared⟩

end

end CppCode.Mongoose
