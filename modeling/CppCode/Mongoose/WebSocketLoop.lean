import Mathlib.Data.List.Induction
import CppCode.Mongoose.WebSocket

/-!
# The receive loop on any bytes

`mg_ws_handler` calls `mg_deliver_websocket_data` until it finds no frame. A first fragment may make
the buffer longer, since a size word takes the place of a shorter header, and lengths that a header
claims may wrap, so it is not obvious that the loop ends whatever the peer sends. It does:
`loopWeight` gets smaller with every frame.
-/

namespace CppCode.Mongoose

open Library

/-- A bound on the frames that the loop can take: a buffer that does not begin with fragments may
grow once. -/
def loopWeight (nc : WsConn) : Nat := nc.recvMbuf.len + if wsOffset nc = 0 then 4 else 0

/-- The lengths of a header that is there: two bytes at least, and the data are there as well unless
the sum of the lengths wraps, which takes the longest kind of header. -/
theorem wsLengths_bounds {buf : Bytes} (some_ : (wsLengths buf).frameLen ≠ 0)
    (there : (wsLengths buf).frameLen ≤ buf.length) :
    2 ≤ (wsLengths buf).headerLen ∧ (wsLengths buf).headerLen ≤ buf.length ∧
      ((wsLengths buf).headerLen + (wsLengths buf).dataLen ≤ buf.length ∨
        10 ≤ (wsLengths buf).headerLen) := by
  unfold wsLengths WsLengths.frameLen at *
  by_cases two : buf.length < 2
  · simp [two] at some_
  rw [if_neg two] at some_ there ⊢
  have mask : (if buf.getD 1 0 &&& 128 ≠ 0 then 4 else 0) ≤ 4 := by split <;> omega
  have word := beValue_lt ((buf.drop 2).take 2)
  have short : 256 ^ ((buf.drop 2).take 2).length ≤ 256 ^ 2 :=
    Nat.pow_le_pow_right (by decide) (List.length_take_le _ _)
  generalize (if buf.getD 1 0 &&& 128 ≠ 0 then 4 else 0) = maskLen at *
  generalize (buf.getD 1 0 &&& 127).toNat = len at *
  generalize beValue ((buf.drop 2).take 2) = middle at *
  generalize beValue ((buf.drop 2).take 4) * 0x100000000 + beValue ((buf.drop 6).take 4) = long at *
  by_cases first : len < 126 ∧ maskLen ≤ buf.length
  · rw [if_pos first] at some_ there ⊢
    simp only at some_ there ⊢
    omega
  rw [if_neg first] at some_ there ⊢
  by_cases second : len = 126 ∧ 4 + maskLen ≤ buf.length
  · rw [if_pos second] at some_ there ⊢
    simp only at some_ there ⊢
    omega
  rw [if_neg second] at some_ there ⊢
  by_cases third : 10 + maskLen ≤ buf.length
  · rw [if_pos third] at some_ there ⊢
    simp only at some_ there ⊢
    omega
  rw [if_neg third] at some_
  simp at some_

/-- The header of a masked frame holds the mask. -/
theorem wsLengths_masked {buf : Bytes} (masked : 0 < (wsLengths buf).maskLen)
    (some_ : (wsLengths buf).frameLen ≠ 0) : 6 ≤ (wsLengths buf).headerLen := by
  unfold wsLengths WsLengths.frameLen at *
  by_cases two : buf.length < 2
  · simp [two] at some_
  rw [if_neg two] at some_ masked ⊢
  by_cases flag : buf.getD 1 0 &&& 128 ≠ 0
  · simp only [if_pos flag] at masked some_ ⊢
    split_ifs at some_ ⊢
    · exact Nat.le_refl 6
    · exact Nat.le_add_left 6 2
    · exact Nat.le_add_left 6 8
    · simp at some_
  · simp only [if_neg flag] at masked
    split_ifs at masked <;> simp at masked

/-! ## The front of the block -/

/-- The size word and the byte before it are the first five bytes. -/
theorem first_five (buf : Bytes) :
    buf.headD 0 = (buf.take 5).headD 0 ∧ sizeWord buf = leValue ((buf.take 5).drop 1) := by
  constructor
  · cases buf <;> rfl
  · rw [sizeWord, List.drop_take]

/-- A move behind the first five bytes leaves them. -/
theorem take_memmove {buf : Bytes} {dst : Nat} (src count : Nat) (behind : 5 ≤ dst)
    (inside : dst ≤ buf.length) : (memmove buf dst src count).take 5 = buf.take 5 := by
  have long : 5 ≤ (buf.take dst).length := by rw [List.length_take]; omega
  rw [memmove, List.append_assoc, List.take_append_of_le_length long, List.take_take,
    Nat.min_eq_left behind]

/-- A move behind the first five bytes keeps the first byte and the size word. -/
theorem memmove_front {buf : Bytes} {dst : Nat} (src count : Nat) (behind : 5 ≤ dst)
    (inside : dst ≤ buf.length) : (memmove buf dst src count).headD 0 = buf.headD 0 ∧
      sizeWord (memmove buf dst src count) = sizeWord buf := by
  have five := take_memmove src count behind inside
  constructor
  · rw [(first_five (memmove _ _ _ _)).1, five, ← (first_five buf).1]
  · rw [(first_five (memmove _ _ _ _)).2, five, ← (first_five buf).2]

/-- A block whose size word was stored. -/
theorem store_sizeWord {buf : Bytes} {size : Nat} (room : 5 ≤ buf.length)
    (small : size < 0x100000000) : sizeWord (store buf 1 (leBytes 4 size)) = size ∧
      (store buf 1 (leBytes 4 size)).headD 0 = buf.headD 0 := by
  obtain ⟨byte, rest, rfl⟩ := List.exists_cons_of_length_pos (by omega : 0 < buf.length)
  have shape : store (byte :: rest) 1 (leBytes 4 size) =
      byte :: (leBytes 4 size ++ rest.drop 4) := by
    rw [store, length_leBytes]
    rfl
  rw [shape]
  constructor
  · rw [sizeWord, List.drop_succ_cons, List.drop_zero, List.take_left' (length_leBytes 4 size),
      leValue_leBytes_of_lt (by simpa using small)]
  · rfl

/-- A block that is begun for fragments: its first byte, and a size word of zero. -/
theorem begun_block {buf : Bytes} (byte : UInt8) (room : 5 ≤ buf.length) :
    (store (store buf 0 [byte]) 1 [0, 0, 0, 0]).length = buf.length ∧
      (store (store buf 0 [byte]) 1 [0, 0, 0, 0]).headD 0 = byte ∧
      sizeWord (store (store buf 0 [byte]) 1 [0, 0, 0, 0]) = 0 := by
  have zero : leBytes 4 0 = [0, 0, 0, 0] := rfl
  have length : (store buf 0 [byte]).length = buf.length :=
    length_store (by rw [List.length_singleton]; omega)
  obtain ⟨word, start⟩ := @store_sizeWord (store buf 0 [byte]) 0 (by omega) (by decide)
  rw [← zero]
  refine ⟨?_, start, word⟩
  rw [length_store (by rw [length_leBytes]; omega), length]

/-! ## The weight -/

section
variable {realloc : Realloc} {nc next : WsConn} {buf : Bytes} {flags : UInt8}
  {dst src offset dataLen : Nat} {lengths : WsLengths}

theorem loopWeight_le (nc : WsConn) : loopWeight nc ≤ nc.recvMbuf.len + 4 := by
  unfold loopWeight
  split <;> omega

/-- A buffer that begins with fragments weighs its length. -/
theorem loopWeight_fragments (fragment : mgIsWsFragment (nc.recvMbuf.buf.headD 0))
    (defrag : nc.noDefrag = false) (later : ¬mgIsWsFirstFragment (nc.recvMbuf.buf.headD 0))
    (held : 5 + sizeWord nc.recvMbuf.buf ≤ nc.recvMbuf.len) :
    loopWeight nc = nc.recvMbuf.len := by
  have offset : wsOffset nc = 5 + sizeWord nc.recvMbuf.buf :=
    if_pos ⟨fragment, defrag, later, by omega, held⟩
  rw [loopWeight, if_neg (by omega), Nat.add_zero]

theorem loopWeight_closeToo (nc : WsConn) (offset : Nat) :
    loopWeight (closeToo nc offset) = loopWeight nc ∧
      (closeToo nc offset).recvMbuf = nc.recvMbuf := by
  unfold closeToo
  split <;> exact ⟨rfl, rfl⟩

/-- What `appendFragment` leaves in the buffer. -/
theorem appendFragment_bounds (room : 5 ≤ buf.length) (held : nc.recvMbuf.len ≤ buf.length)
    (inside : src ≤ nc.recvMbuf.len) (fits : dst + (nc.recvMbuf.len - src) ≤ buf.length)
    (flags : UInt8) (dataLen : Nat) :
    let moved := memmove buf dst src (nc.recvMbuf.len - src)
    let size := (sizeWord moved + dataLen) % 0x100000000
    let next := appendFragment nc buf dst src flags dataLen
    next.noDefrag = nc.noDefrag ∧ next.recvMbuf.Sound ∧
      next.recvMbuf.len ≤ nc.recvMbuf.len + dst - src ∧
      (flags &&& 0x80 ≠ 0 → 5 + size ≤ nc.recvMbuf.len + dst - src →
        next.recvMbuf.len + 5 ≤ nc.recvMbuf.len + dst - src) ∧
      (flags &&& 0x80 = 0 → next.recvMbuf.len = nc.recvMbuf.len + dst - src ∧
        sizeWord next.recvMbuf.buf = size ∧ next.recvMbuf.buf.headD 0 = moved.headD 0) := by
  intro moved size next
  have long : moved.length = buf.length := length_memmove (by omega) fits
  have stored : (store moved 1 (leBytes 4 size)).length = buf.length := by
    rw [length_store (by rw [length_leBytes]; omega), long]
  have sound : Mbuf.Sound ⟨store moved 1 (leBytes 4 size), nc.recvMbuf.len + dst - src⟩ := by
    show nc.recvMbuf.len + dst - src ≤ (store moved 1 (leBytes 4 size)).length
    omega
  obtain ⟨kept, shorter, removed⟩ := remove_bounds sound (5 + size)
  obtain ⟨word, first⟩ := @store_sizeWord moved size (by omega) (Nat.mod_lt _ (by decide))
  by_cases final : flags &&& 0x80 ≠ 0
  · have shape : next = { mgHandleIncomingWebsocketFrame nc
        ⟨flags, size, ((store moved 1 (leBytes 4 size)).drop 5).take size⟩ with
        recvMbuf := Mbuf.remove
          ⟨store moved 1 (leBytes 4 size), nc.recvMbuf.len + dst - src⟩ (5 + size) } :=
      if_pos final
    rw [shape]
    refine ⟨rfl, kept, shorter, fun _ whole => ?_, fun open_ => absurd open_ final⟩
    have less := removed (by omega) whole
    show (Mbuf.remove _ _).len + 5 ≤ _
    rw [less]
    show nc.recvMbuf.len + dst - src - (5 + size) + 5 ≤ nc.recvMbuf.len + dst - src
    omega
  · have shape : next = { nc with recvMbuf :=
        ⟨store moved 1 (leBytes 4 size), nc.recvMbuf.len + dst - src⟩ } := if_neg final
    rw [shape]
    exact ⟨rfl, sound, Nat.le_refl _, fun set => absurd set final, fun _ => ⟨rfl, word, first⟩⟩

/-- A whole frame stands in the unmasked block `buf`. -/
structure FrameAt (nc : WsConn) (buf : Bytes) (lengths : WsLengths) : Prop where
  /-- The bytes in use are in the block. -/
  sound : nc.recvMbuf.Sound
  /-- Unmasking does not move the block. -/
  same : buf.length = nc.recvMbuf.buf.length
  /-- It changes neither the first byte nor the size word. -/
  five : buf.take 5 = nc.recvMbuf.buf.take 5
  /-- The frame is not empty. -/
  positive : 0 < lengths.frameLen
  /-- The frame is in use. -/
  whole : wsOffset nc + lengths.frameLen ≤ nc.recvMbuf.len
  /-- The shortest header. -/
  two : 2 ≤ lengths.headerLen
  /-- The header is in use. -/
  header : wsOffset nc + lengths.headerLen ≤ nc.recvMbuf.len
  /-- So are the data, unless the sum of the lengths wraps. -/
  data : wsOffset nc + lengths.headerLen + lengths.dataLen ≤ nc.recvMbuf.len ∨
    10 ≤ lengths.headerLen

/-- The first byte and the size word of the unmasked block are those of the buffer. -/
theorem FrameAt.front (at_ : FrameAt nc buf lengths) :
    buf.headD 0 = nc.recvMbuf.buf.headD 0 ∧ sizeWord buf = sizeWord nc.recvMbuf.buf := by
  rw [(first_five buf).1, (first_five buf).2, (first_five nc.recvMbuf.buf).1,
    (first_five nc.recvMbuf.buf).2, at_.five]
  exact ⟨rfl, rfl⟩

/-- The offset of a buffer that begins with fragments, or none. -/
theorem wsOffset_cases (nc : WsConn) : wsOffset nc = 0 ∨
    wsOffset nc = 5 + sizeWord nc.recvMbuf.buf ∧ mgIsWsFragment (nc.recvMbuf.buf.headD 0) ∧
      ¬mgIsWsFirstFragment (nc.recvMbuf.buf.headD 0) ∧ nc.noDefrag = false := by
  by_cases fragments : mgIsWsFragment (nc.recvMbuf.buf.headD 0) ∧ nc.noDefrag = false ∧
      ¬mgIsWsFirstFragment (nc.recvMbuf.buf.headD 0) ∧ 5 ≤ nc.recvMbuf.len ∧
      5 + sizeWord nc.recvMbuf.buf ≤ nc.recvMbuf.len
  · exact .inr ⟨if_pos fragments, fragments.1, fragments.2.2.1, fragments.2.1⟩
  · exact .inl (if_neg fragments)

/-- A frame that is not reassembled is removed. -/
theorem plain_lighter (at_ : FrameAt nc buf lengths)
    (alone : ¬(mgIsWsFragment (buf.headD 0) ∧ nc.noDefrag = false))
    (taken : takeFrame realloc nc buf (wsOffset nc) lengths = some next) :
    next.recvMbuf.Sound ∧ loopWeight next < loopWeight nc := by
  have idle : wsOffset nc = 0 := by
    rcases wsOffset_cases nc with idle | ⟨-, fragment, -, defrag⟩
    · exact idle
    · exact absurd ⟨at_.front.1 ▸ fragment, defrag⟩ alone
  have held : Mbuf.Sound ⟨buf, nc.recvMbuf.len⟩ := by
    show nc.recvMbuf.len ≤ buf.length
    rw [at_.same]
    exact at_.sound
  obtain ⟨kept, -, removed⟩ := remove_bounds held lengths.frameLen
  have whole := at_.whole
  have less := removed at_.positive (by show lengths.frameLen ≤ nc.recvMbuf.len; omega)
  unfold takeFrame at taken
  rw [if_neg alone, Option.some.injEq] at taken
  obtain rfl := taken
  rw [(loopWeight_closeToo _ _).1, (loopWeight_closeToo _ _).2]
  refine ⟨kept, lt_of_le_of_lt (loopWeight_le _) ?_⟩
  show (Mbuf.remove ⟨buf, nc.recvMbuf.len⟩ lengths.frameLen).len + 4 < loopWeight nc
  rw [less, loopWeight, if_pos idle]
  have positive := at_.positive
  show nc.recvMbuf.len - lengths.frameLen + 4 < nc.recvMbuf.len + 4
  omega

/-- A first fragment may make the buffer longer, which then begins with fragments. -/
theorem first_lighter (at_ : FrameAt nc buf lengths)
    (fragment : mgIsWsFragment (buf.headD 0)) (defrag : nc.noDefrag = false)
    (first : mgIsWsFirstFragment (buf.getD (wsOffset nc) 0))
    (taken : takeFrame realloc nc buf (wsOffset nc) lengths = some next) :
    next.recvMbuf.Sound ∧ loopWeight next < loopWeight nc := by
  unfold takeFrame at taken
  rw [if_pos ⟨fragment, defrag⟩, if_pos first] at taken
  cases grown : (realloc.resize nc.recvMbuf).block buf with
  | none => simp [grown] at taken
  | some longer =>
    simp only [grown] at taken
    by_cases outside : longer.length < 6 ∨
        longer.length < 5 + (nc.recvMbuf.len - (wsOffset nc + lengths.headerLen))
    · simp [outside] at taken
    rw [if_neg outside, Option.some.injEq] at taken
    obtain rfl := taken
    have sound := at_.sound
    have same := at_.same
    have header := at_.header
    have two := at_.two
    unfold Mbuf.Sound at sound
    have noShorter : buf.length ≤ longer.length := by
      cases resized : realloc.resize nc.recvMbuf with
      | inPlace more =>
        rw [resized, Resized.block, Option.some.injEq] at grown
        rw [← grown, List.length_append]
        omega
      | moved => simp [resized, Resized.block] at grown
      | failed =>
        rw [resized, Resized.block, Option.some.injEq] at grown
        exact le_of_eq (congrArg List.length grown)
    have room : 5 ≤ longer.length := by omega
    obtain ⟨bigger, start, word⟩ := begun_block (longer.headD 0 &&& 0xf0) room
    generalize store (store longer 0 [longer.headD 0 &&& 0xf0]) 1 [0, 0, 0, 0] = block at *
    rw [(loopWeight_closeToo _ _).1, (loopWeight_closeToo _ _).2]
    have bounds := @appendFragment_bounds nc block 5 (wsOffset nc + lengths.headerLen)
      (by omega) (by omega) header (by omega) (buf.getD (wsOffset nc) 0) lengths.dataLen
    obtain ⟨mode, kept, -, -, open_⟩ := bounds
    refine ⟨kept, ?_⟩
    have moved := memmove_front (wsOffset nc + lengths.headerLen)
      (nc.recvMbuf.len - (wsOffset nc + lengths.headerLen)) (Nat.le_refl 5)
      (by omega : 5 ≤ block.length)
    rw [start, word] at moved
    have begins : buf.getD (wsOffset nc) 0 &&& 0x80 = 0 := by
      unfold mgIsWsFirstFragment at first
      rw [Bool.and_eq_true, beq_iff_eq] at first
      exact first.1
    obtain ⟨len, size, head⟩ := open_ begins
    rw [moved.1] at head
    rw [moved.2, Nat.zero_add] at size
    generalize appendFragment nc block 5 (wsOffset nc + lengths.headerLen)
      (buf.getD (wsOffset nc) 0) lengths.dataLen = next at *
    have code : (longer.headD 0 &&& 0xf0) &&& 0x0f = 0 := by
      rw [UInt8.and_assoc]
      exact UInt8.and_zero
    have weight : nc.recvMbuf.len + 4 ≤ loopWeight nc + wsOffset nc := by
      unfold loopWeight
      rcases wsOffset_cases nc with idle | ⟨offset, -⟩
      · rw [if_pos idle]
        omega
      · omega
    rcases at_.data with inside | long
    · have small := Nat.mod_le lengths.dataLen 0x100000000
      have fragments : loopWeight next = next.recvMbuf.len := by
        apply loopWeight_fragments
        · rw [head, mgIsWsFragment, code]
          simp
        · exact mode.trans defrag
        · rw [head, mgIsWsFirstFragment, code]
          simp
        · rw [size, len]
          omega
      rw [fragments, len]
      omega
    · have most := loopWeight_le next
      omega

/-- A later fragment is moved over its header. -/
theorem later_lighter (at_ : FrameAt nc buf lengths)
    (fragment : mgIsWsFragment (buf.headD 0)) (defrag : nc.noDefrag = false)
    (later : ¬mgIsWsFirstFragment (buf.getD (wsOffset nc) 0))
    (taken : takeFrame realloc nc buf (wsOffset nc) lengths = some next) :
    next.recvMbuf.Sound ∧ loopWeight next < loopWeight nc := by
  have sound := at_.sound
  have same := at_.same
  have header := at_.header
  have two := at_.two
  unfold Mbuf.Sound at sound
  unfold takeFrame at taken
  rw [if_pos ⟨fragment, defrag⟩, if_neg later] at taken
  by_cases room : buf.length < 5
  · simp [room] at taken
  rw [if_neg room, Option.some.injEq] at taken
  obtain rfl := taken
  rw [(loopWeight_closeToo _ _).1, (loopWeight_closeToo _ _).2]
  have bounds := @appendFragment_bounds nc buf (wsOffset nc) (wsOffset nc + lengths.headerLen)
    (by omega) (by omega) header (by omega) (buf.getD (wsOffset nc) 0) lengths.dataLen
  obtain ⟨mode, kept, longest, final, open_⟩ := bounds
  refine ⟨kept, ?_⟩
  generalize appendFragment nc buf (wsOffset nc) (wsOffset nc + lengths.headerLen)
    (buf.getD (wsOffset nc) 0) lengths.dataLen = next at *
  rcases wsOffset_cases nc with idle | ⟨offset, starts, other, -⟩
  · apply lt_of_le_of_lt (loopWeight_le next)
    rw [loopWeight, if_pos idle]
    omega
  · have weight : loopWeight nc = nc.recvMbuf.len := by
      rw [loopWeight, if_neg (by omega), Nat.add_zero]
    obtain ⟨head, size⟩ := memmove_front (wsOffset nc + lengths.headerLen)
      (nc.recvMbuf.len - (wsOffset nc + lengths.headerLen)) (by omega : 5 ≤ wsOffset nc)
      (by omega : wsOffset nc ≤ buf.length)
    rw [at_.front.1] at head
    rw [at_.front.2] at size
    rw [size] at open_ final
    rw [head] at open_
    rcases at_.data with inside | long
    · by_cases set : buf.getD (wsOffset nc) 0 &&& 0x80 = 0
      · obtain ⟨len, word, first⟩ := open_ set
        rw [weight, loopWeight_fragments (first ▸ starts) (mode.trans defrag) (first ▸ other), len]
        · omega
        · have small := Nat.mod_le (sizeWord nc.recvMbuf.buf + lengths.dataLen) 0x100000000
          rw [word, len]
          omega
      · have small := Nat.mod_le (sizeWord nc.recvMbuf.buf + lengths.dataLen) 0x100000000
        have less := final set (by omega)
        have most := loopWeight_le next
        omega
    · have most := loopWeight_le next
      omega

/-- Every frame that is taken makes the buffer lighter, whatever the bytes are. -/
theorem deliver_lighter (sound : nc.recvMbuf.Sound)
    (taken : mgDeliverWebsocketData realloc nc = some (true, next)) :
    next.recvMbuf.Sound ∧ loopWeight next < loopWeight nc := by
  unfold mgDeliverWebsocketData at taken
  have avail : (nc.recvMbuf.used.drop (wsOffset nc)).length =
      nc.recvMbuf.len - wsOffset nc := by
    unfold Mbuf.Sound at sound
    rw [List.length_drop, Mbuf.used, List.length_take, Nat.min_eq_left sound]
  have bounds := @wsLengths_bounds (nc.recvMbuf.used.drop (wsOffset nc))
  have masked : 0 < (wsLengths (nc.recvMbuf.used.drop (wsOffset nc))).maskLen →
      (wsLengths (nc.recvMbuf.used.drop (wsOffset nc))).frameLen ≠ 0 →
      6 ≤ (wsLengths (nc.recvMbuf.used.drop (wsOffset nc))).headerLen := wsLengths_masked
  simp only at taken
  generalize wsLengths (nc.recvMbuf.used.drop (wsOffset nc)) = lengths at *
  rw [avail] at bounds
  by_cases waits : lengths.frameLen = 0 ∨ nc.recvMbuf.len - wsOffset nc < lengths.frameLen
  · simp [waits] at taken
  rw [if_neg waits] at taken
  have positive : lengths.frameLen ≠ 0 := fun zero => waits (.inl zero)
  have there : lengths.frameLen ≤ nc.recvMbuf.len - wsOffset nc := by omega
  obtain ⟨two, header, data⟩ := bounds positive there
  suffices result : ∃ buf, FrameAt nc buf lengths ∧
      takeFrame realloc nc buf (wsOffset nc) lengths = some next by
    obtain ⟨buf, at_, took⟩ := result
    by_cases fragment : mgIsWsFragment (buf.headD 0) ∧ nc.noDefrag = false
    · by_cases first : mgIsWsFirstFragment (buf.getD (wsOffset nc) 0)
      · exact first_lighter at_ fragment.1 fragment.2 first took
      · exact later_lighter at_ fragment.1 fragment.2 first took
    · exact plain_lighter at_ fragment took
  have frame : ∀ buf : Bytes, buf.length = nc.recvMbuf.buf.length →
      buf.take 5 = nc.recvMbuf.buf.take 5 → FrameAt nc buf lengths := fun buf same five =>
    ⟨sound, same, five, by omega, by omega, two, by omega, by omega⟩
  by_cases plain : lengths.maskLen = 0
  · rw [if_pos plain] at taken
    obtain ⟨last, took, same⟩ := Option.map_eq_some_iff.mp taken
    obtain rfl := (Prod.mk.inj same).2
    exact ⟨nc.recvMbuf.buf, frame _ rfl rfl, took⟩
  · rw [if_neg plain] at taken
    by_cases out : nc.recvMbuf.buf.length < wsOffset nc + lengths.headerLen + lengths.dataLen
    · simp [out] at taken
    rw [if_neg out] at taken
    obtain ⟨last, took, same⟩ := Option.map_eq_some_iff.mp taken
    obtain rfl := (Prod.mk.inj same).2
    have six := masked (by omega) positive
    have size : (wsMask ((nc.recvMbuf.buf.drop (wsOffset nc + lengths.headerLen - 4)).take 4)
        ((nc.recvMbuf.buf.drop (wsOffset nc + lengths.headerLen)).take lengths.dataLen)).length =
        lengths.dataLen := by
      rw [wsMask, List.length_mapIdx, List.length_take, List.length_drop]
      omega
    refine ⟨_, frame _ (length_store (by omega)) ?_, took⟩
    rw [store, List.append_assoc, List.take_append_of_le_length, List.take_take,
      Nat.min_eq_left (by omega)]
    rw [List.length_take]
    omega

end

/-- A call that finds no frame leaves the connection. -/
theorem deliver_waiting {realloc : Realloc} {nc next : WsConn}
    (waits : mgDeliverWebsocketData realloc nc = some (false, next)) : nc = next := by
  unfold mgDeliverWebsocketData at waits
  simp only at waits
  split_ifs at waits
  · simpa using waits
  · simp at waits
  · simp at waits

/-- A segment is added inside the block. -/
theorem recv_sound {realloc : Realloc} {nc : WsConn} (sound : nc.recvMbuf.Sound)
    (segment : Bytes) : (mgRecvCommon realloc nc segment).recvMbuf.Sound := by
  unfold Mbuf.Sound at *
  unfold mgRecvCommon
  split
  · exact Nat.le_refl _
  · unfold Mbuf.append
    split
    · rename_i fits
      show nc.recvMbuf.len + segment.length ≤ (store _ _ _).length
      rw [length_store fits]
      exact fits
    · split
      · exact sound
      · simp only [Mbuf.used, List.length_append, List.length_take]
        omega

/-- Whatever bytes arrive, the loop of the handler ends after every segment, unless a call of
`mg_deliver_websocket_data` uses memory outside of the block. -/
theorem receive_loop_ends (realloc : Realloc) (segments : List Bytes) :
    (∃ final, segments.foldlM (mgWsHandler realloc).receive {} = some final ∧
      final.recvMbuf.Sound) ∨
    ∃ before segment after middle last, segments = before ++ segment :: after ∧
      before.foldlM (mgWsHandler realloc).receive {} = some middle ∧
      Relation.ReflTransGen
        (fun nc next => mgDeliverWebsocketData realloc nc = some (true, next))
        (mgRecvCommon realloc middle segment) last ∧
      mgDeliverWebsocketData realloc last = none := by
  induction segments using List.reverseRecOn with
  | nil => exact .inl ⟨{}, rfl, Nat.le_refl 0⟩
  | append_singleton before segment ih =>
    rcases ih with ⟨middle, reached, sound⟩ | ⟨early, other, after, middle, last, rfl, fails⟩
    · have added := @recv_sound realloc middle sound segment
      have enough : loopWeight (mgRecvCommon realloc middle segment) <
          (mgRecvCommon realloc middle segment).recvMbuf.len + 5 :=
        Nat.lt_succ_of_le (loopWeight_le _)
      obtain ⟨last, steps, kept, ends⟩ := @drain_ends _ (mgDeliverWebsocketData realloc)
        (fun nc => nc.recvMbuf.Sound) loopWeight (fun _ _ => deliver_lighter) _ _ added enough
      have receives : (before ++ [segment]).foldlM (mgWsHandler realloc).receive {} =
          (mgWsHandler realloc).receive middle segment := by
        rw [List.foldlM_append, reached]
        show (mgWsHandler realloc).receive middle segment >>= pure = _
        exact bind_pure _
      rcases ends with ⟨fails, -⟩ | ⟨final, waits, drained⟩
      · exact .inr ⟨before, segment, [], middle, last, rfl, reached, steps, fails⟩
      · obtain rfl := deliver_waiting waits
        exact .inl ⟨last, receives.trans drained, kept⟩
    · exact .inr ⟨early, other, after ++ [segment], middle, last, by simp, fails⟩

end CppCode.Mongoose
