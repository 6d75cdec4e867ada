import CppCode.Mongoose.Text

/-!
# Blocks of memory

`memmove` and stores inside a block, and `struct mbuf`, the growing buffer of `common/mbuf.c`, with
the bytes of its block that are not in use.
-/

namespace CppCode.Mongoose

/-- `memmove` inside a block. -/
def memmove (buf : Bytes) (dst src count : Nat) : Bytes :=
  buf.take dst ++ (buf.drop src).take count ++ buf.drop (dst + count)

/-- Store bytes into a block. -/
def store (buf : Bytes) (offset : Nat) (bytes : Bytes) : Bytes :=
  buf.take offset ++ bytes ++ buf.drop (offset + bytes.length)

/-- Moving a part of a block to the left over a gap. -/
theorem memmove_left (before gap moved behind : Bytes) :
    memmove (before ++ gap ++ moved ++ behind) before.length (before.length + gap.length)
      moved.length =
      before ++ moved ++
        (before ++ gap ++ moved ++ behind).drop (before.length + moved.length) := by
  have from_ : (before ++ gap ++ moved ++ behind).drop (before.length + gap.length) =
      moved ++ behind := by
    rw [← List.length_append, List.append_assoc _ moved, List.drop_left]
  have kept : (before ++ gap ++ moved ++ behind).take before.length = before := by
    rw [List.append_assoc, List.append_assoc, List.take_left]
  rw [memmove, from_, kept, List.take_left]

/-- Storing over bytes in the middle of a block. -/
theorem store_middle {before old new behind : Bytes} (same : old.length = new.length) :
    store (before ++ old ++ behind) before.length new = before ++ new ++ behind := by
  rw [store, ← same, ← List.length_append, List.drop_left, List.append_assoc before,
    List.take_left]

theorem length_memmove {buf : Bytes} {dst src count : Nat} (from_ : src + count ≤ buf.length)
    (to_ : dst + count ≤ buf.length) : (memmove buf dst src count).length = buf.length := by
  simp only [memmove, List.length_append, List.length_take, List.length_drop]
  omega

theorem length_store {buf bytes : Bytes} {offset : Nat}
    (inside : offset + bytes.length ≤ buf.length) :
    (store buf offset bytes).length = buf.length := by
  simp only [store, List.length_append, List.length_take, List.length_drop]
  omega

/-! ## Buffers -/

/-- `struct mbuf`: the block, whose length is its size, and the number of bytes in use. -/
structure Mbuf where
  /-- The whole block. -/
  buf : Bytes := []
  /-- Bytes in use. -/
  len : Nat := 0
  deriving DecidableEq, Repr

/-- The bytes in use. -/
def Mbuf.used (mbuf : Mbuf) : Bytes := mbuf.buf.take mbuf.len

/-- `mbuf_remove`. -/
def Mbuf.remove (mbuf : Mbuf) (n : Nat) : Mbuf :=
  if 0 < n ∧ n ≤ mbuf.len then ⟨memmove mbuf.buf 0 n (mbuf.len - n), mbuf.len - n⟩ else mbuf

/-- What becomes of a block that `mbuf_resize` enlarges. -/
inductive Resized
  /-- It is enlarged where it is, by these bytes. -/
  | inPlace (more : Bytes)
  /-- It is copied to another place and freed. -/
  | moved
  /-- `realloc` returns `NULL`, and the block is kept as it is. -/
  | failed
  deriving DecidableEq, Repr

/-- What a pointer to the block leads to afterwards, `none` when the block was freed. -/
def Resized.block (buf : Bytes) : Resized → Option Bytes
  | .inPlace more => some (buf ++ more)
  | .moved => none
  | .failed => some buf

/-- What `realloc` does with the block of a receive buffer. -/
structure Realloc where
  /-- The bytes behind those in use after `mbuf_append` enlarged the block, if it could. -/
  append : Mbuf → Bytes → Option Bytes
  /-- What becomes of the block in `mbuf_resize`. -/
  resize : Mbuf → Resized
  /-- The block is enlarged by the size of the size word. -/
  four : ∀ mbuf more, resize mbuf = .inPlace more → more.length = 4

/-- `mbuf_append`. -/
def Mbuf.append (realloc : Realloc) (mbuf : Mbuf) (bytes : Bytes) : Mbuf :=
  if mbuf.len + bytes.length ≤ mbuf.buf.length then
    ⟨store mbuf.buf mbuf.len bytes, mbuf.len + bytes.length⟩
  else
    match realloc.append mbuf bytes with
    | none => mbuf
    | some spare => ⟨mbuf.used ++ bytes ++ spare, mbuf.len + bytes.length⟩

/-- There is memory for whatever is asked for. -/
structure Realloc.Suffices (realloc : Realloc) : Prop where
  /-- For `mbuf_append`. -/
  append : ∀ mbuf bytes, (realloc.append mbuf bytes).isSome
  /-- For `mbuf_resize`. -/
  resize : ∀ mbuf, realloc.resize mbuf ≠ .failed

/-- No block is moved by `mbuf_resize`. -/
def Realloc.InPlace (realloc : Realloc) : Prop :=
  ∀ mbuf, ∃ more, realloc.resize mbuf = .inPlace more

/-- The same `realloc`, but where it moves a block in `mbuf_resize` there is room behind the block.
-/
def Realloc.steady (realloc : Realloc) : Realloc where
  append := realloc.append
  resize mbuf :=
    match realloc.resize mbuf with
    | .moved => .inPlace [0, 0, 0, 0]
    | other => other
  four := by
    intro mbuf more enlarged
    split at enlarged
    · obtain rfl := Resized.inPlace.inj enlarged
      rfl
    · exact realloc.four mbuf more enlarged

/-- With memory for all, it moves no block. -/
theorem Realloc.Suffices.inPlace {realloc : Realloc} (memory : realloc.Suffices) :
    realloc.steady.InPlace := by
  intro mbuf
  have found := memory.resize mbuf
  unfold Realloc.steady
  cases enlarged : realloc.resize mbuf with
  | inPlace more => exact ⟨more, by simp only [enlarged]⟩
  | moved => exact ⟨[0, 0, 0, 0], by simp only [enlarged]⟩
  | failed => exact absurd enlarged found

/-- The bytes in use are in the block. -/
def Mbuf.Sound (mbuf : Mbuf) : Prop := mbuf.len ≤ mbuf.buf.length

/-- The bytes in use at the front of a block. -/
theorem used_append (used slack : Bytes) : (⟨used ++ slack, used.length⟩ : Mbuf).used = used :=
  List.take_left

/-- Removing the front of the bytes in use moves the rest to the front of the block. -/
theorem remove_front {gone rest slack : Bytes} (present : gone ≠ []) :
    Mbuf.remove ⟨gone ++ rest ++ slack, (gone ++ rest).length⟩ gone.length =
      ⟨rest ++ (gone ++ rest ++ slack).drop rest.length, rest.length⟩ := by
  have positive : 0 < gone.length := List.length_pos_iff.mpr present
  have moved := memmove_left [] gone rest slack
  simp only [List.nil_append, List.length_nil, Nat.zero_add] at moved
  rw [Mbuf.remove, if_pos ⟨positive, by simp⟩, List.length_append, Nat.add_sub_cancel_left, moved]

/-- `mbuf_remove` makes a buffer no longer, and shorter when it can. -/
theorem remove_bounds {mbuf : Mbuf} (sound : mbuf.Sound) (n : Nat) :
    (mbuf.remove n).Sound ∧ (mbuf.remove n).len ≤ mbuf.len ∧
      (0 < n → n ≤ mbuf.len → (mbuf.remove n).len = mbuf.len - n) := by
  unfold Mbuf.Sound Mbuf.remove at *
  split
  · refine ⟨?_, Nat.sub_le _ _, fun _ _ => rfl⟩
    show mbuf.len - n ≤ (memmove mbuf.buf 0 n (mbuf.len - n)).length
    rw [length_memmove (by omega) (by omega)]
    omega
  · rename_i other
    exact ⟨sound, Nat.le_refl _, fun positive inside => absurd ⟨positive, inside⟩ other⟩

end CppCode.Mongoose
