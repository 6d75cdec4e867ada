import CppCode.Library.HttpFraming

/-!
# Chunked transfer coding

How a sender writes a body whose length it does not declare: chunks in a row, each with its length
in hexadecimal on a line before the data and a line end behind them. An empty chunk ends the body.
Any reader that knows the sixteen digits reads the length of a chunk back
(`foldl_hexadecimal`), and a stream of chunks that is cut anywhere has some chunks whole in front
of the cut and one that is not (`coded_cut`).
-/

namespace CppCode.Library

/-- The byte of a hexadecimal digit, as `%X` writes it. -/
def hexByte (digit : Nat) : UInt8 :=
  if digit < 10 then UInt8.ofNat (48 + digit) else UInt8.ofNat (55 + digit)

/-- The numeral of a natural number in base sixteen. -/
def hexadecimal (value : Nat) : List UInt8 :=
  if value = 0 then [48] else (Nat.digits 16 value).reverse.map hexByte

/-- A chunk: the length of the data, the data, and the line ends behind them. -/
def chunkOf (data : List UInt8) : List UInt8 :=
  hexadecimal data.length ++ crlf ++ data ++ crlf

/-- Chunks in a row. -/
def coded (datas : List (List UInt8)) : List UInt8 := datas.flatMap chunkOf

/-! ## Numerals -/

/-- Every byte of a numeral is the byte of a digit. -/
theorem hexadecimal_digit (value : Nat) :
    ∀ byte ∈ hexadecimal value, ∃ digit < 16, byte = hexByte digit := by
  intro byte member
  unfold hexadecimal at member
  split at member
  · exact ⟨0, by decide, List.mem_singleton.mp member⟩
  · obtain ⟨digit, inside, rfl⟩ := List.mem_map.mp member
    exact ⟨digit, Nat.digits_lt_base (by decide) (List.mem_reverse.mp inside), rfl⟩

/-- A numeral has at least one digit. -/
theorem hexadecimal_ne_nil (value : Nat) : hexadecimal value ≠ [] := by
  unfold hexadecimal
  split
  · simp
  · rename_i nonzero
    simp [Nat.digits_ne_nil_iff_ne_zero.mpr nonzero]

/-- Reading a numeral from its first digit on returns its number, for every reader that knows the
digits. -/
theorem foldl_hexadecimal {read : UInt8 → Nat} (reads : ∀ digit < 16, read (hexByte digit) = digit)
    (value : Nat) :
    (hexadecimal value).foldl (fun number byte => number * 16 + read byte) 0 = value := by
  have digits : ∀ digits : List Nat, (∀ digit ∈ digits, digit < 16) →
      (digits.reverse.map hexByte).foldl (fun number byte => number * 16 + read byte) 0 =
        Nat.ofDigits 16 digits := by
    intro digits small
    induction digits with
    | nil => rfl
    | cons digit rest ih =>
      have tail := ih fun other member => small other (List.mem_cons_of_mem digit member)
      have head := reads digit (small digit List.mem_cons_self)
      simp only [List.reverse_cons, List.map_append, List.map_cons, List.map_nil,
        List.foldl_append, List.foldl_cons, List.foldl_nil, tail, head, Nat.ofDigits_cons]
      omega
  unfold hexadecimal
  split
  · rename_i zero
    subst zero
    exact (Nat.zero_add _).trans (reads 0 (by decide))
  · rw [digits _ fun digit => Nat.digits_lt_base (by decide), Nat.ofDigits_digits]

/-- A numeral has at most as many digits as the power of sixteen above its number. -/
theorem length_hexadecimal_le_iff {value count : Nat} (positive : 0 < count) :
    (hexadecimal value).length ≤ count ↔ value < 16 ^ count := by
  unfold hexadecimal
  split
  · rename_i zero
    subst zero
    simp only [List.length_singleton]
    exact iff_of_true positive (Nat.pow_pos (by decide))
  · rw [List.length_map, List.length_reverse]
    exact Nat.digits_length_le_iff (by decide) value

/-! ## Streams of chunks -/

/-- The length of a chunk. -/
theorem length_chunkOf (data : List UInt8) :
    (chunkOf data).length = (hexadecimal data.length).length + data.length + 4 := by
  simp only [chunkOf, List.length_append, List.length_cons, List.length_nil]
  omega

/-- The first chunk is written in front of the others. -/
theorem coded_cons (data : List UInt8) (datas : List (List UInt8)) :
    coded (data :: datas) = chunkOf data ++ coded datas := List.flatMap_cons

/-- Chunks are written one after the other. -/
theorem coded_append (first second : List (List UInt8)) :
    coded (first ++ second) = coded first ++ coded second := List.flatMap_append

/-- Coding does not make a body shorter. -/
theorem length_flatten_le_coded (datas : List (List UInt8)) :
    datas.flatten.length ≤ (coded datas).length := by
  induction datas with
  | nil => exact le_refl _
  | cons data datas ih =>
    have chunk := length_chunkOf data
    rw [coded_cons, List.flatten_cons, List.length_append, List.length_append]
    omega

/-- There are not more chunks than bytes. -/
theorem length_le_coded (datas : List (List UInt8)) : datas.length ≤ (coded datas).length := by
  induction datas with
  | nil => exact le_refl _
  | cons data datas ih =>
    have chunk := length_chunkOf data
    rw [coded_cons, List.length_cons, List.length_append]
    omega

/-- A stream that is cut before its end has whole chunks before the cut, and a part of the next
one that is not whole. -/
theorem coded_cut {datas : List (List UInt8)} {got more : List UInt8}
    (split : got ++ more = coded datas) (unfinished : more ≠ []) :
    ∃ done next rest part left, datas = done ++ next :: rest ∧ got = coded done ++ part ∧
      chunkOf next = part ++ left ∧ left ≠ [] ∧ part ++ more = coded (next :: rest) := by
  induction datas generalizing got with
  | nil =>
    obtain ⟨-, rfl⟩ := List.append_eq_nil_iff.mp split
    exact absurd rfl unfinished
  | cons data datas ih =>
    -- the cut is inside of the first chunk, or behind it
    have inside : ∀ got', got' ++ more = coded datas → ∃ done next rest part left,
        data :: datas = done ++ next :: rest ∧ chunkOf data ++ got' = coded done ++ part ∧
          chunkOf next = part ++ left ∧ left ≠ [] ∧ part ++ more = coded (next :: rest) := by
      intro got' later
      obtain ⟨done, next, rest, part, left, rfl, rfl, chunk, missing, stream⟩ := ih later
      refine ⟨data :: done, next, rest, part, left, rfl, ?_, chunk, missing, stream⟩
      rw [coded_cons, List.append_assoc]
    rw [coded_cons] at split
    rcases List.append_eq_append_iff.mp split with ⟨left, chunk, rfl⟩ | ⟨got', rfl, later⟩
    · by_cases whole : left = []
      · subst whole
        rw [List.append_nil] at chunk
        have later := inside [] rfl
        rwa [List.append_nil, chunk] at later
      · refine ⟨[], data, datas, got, left, rfl, rfl, chunk, whole, ?_⟩
        rw [coded_cons, chunk, List.append_assoc]
    · exact inside got' later.symm

end CppCode.Library
