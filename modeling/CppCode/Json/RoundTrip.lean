import CppCode.Json.Reread

/-!
# Round trips of values

`Filled` are the values made of `null`, booleans, `Int`s, strings, arrays filled by `append` and
objects filled by assignments. Reading back what was written for one returns an equal value
exactly when no `Int` in it is so close to `minInt` that the reader takes it for a `double`
(`sameValue_iff`): the writer negates as `UInt` and writes the whole range, but the loop over
digits compares with a tenth of the threshold before the last digit and has no exception for it.
-/

namespace CppCode.Json

open Library Mongoose

/-- The most entries that a `std::map` has where `size_t` has 32 bits: `difference_type` counts
them. The project finds its JSON headers in a 32-bit configuration only. -/
def maxSize : Nat := 2147483647

/-! ## Filling arrays and objects -/

section Filling

variable {D : Type}

/-- An array filled from index 0 by `append`. -/
def arrayOf (elements : List (Value D)) : Option (Value D) :=
  elements.foldlM Value.append (.array [])

/-- An object filled by assignments, in their order. -/
def objectOf (members : List (Bytes × Value D)) : Option (Value D) :=
  members.foldlM (fun object member => object.set member.1 member.2) (.object [])

/-- Indexing a list goes on behind a first part. -/
theorem indexed_append {α : Type} (start : Nat) (first second : List α) :
    indexed start (first ++ second) =
      indexed start first ++ indexed (start + first.length) second := by
  induction first generalizing start with
  | nil => rfl
  | cons value first ih =>
    have next : start + (value :: first).length = start + 1 + first.length := by
      rw [List.length_cons]
      omega
    rw [List.cons_append, indexed, indexed, ih, next, List.cons_append]

/-- The values of an indexed list are those of the list. -/
theorem indexed_values {α : Type} (start : Nat) (values : List α) :
    (indexed start values).map Prod.snd = values := by
  induction values generalizing start with
  | nil => rfl
  | cons value values ih => rw [indexed, List.map_cons, ih]

/-- A value of a list has its place as index. -/
theorem mem_indexed_getElem {α : Type} {start place : Nat} {values : List α}
    (inside : place < values.length) :
    (Int32.ofNat (start + place), values[place]) ∈ indexed start values := by
  induction values generalizing start place with
  | nil => cases inside
  | cons value values ih =>
    cases place with
    | zero => exact List.mem_cons_self
    | succ place =>
      have later := @ih (start + 1) place (Nat.lt_of_succ_lt_succ inside)
      rw [Nat.add_assoc, Nat.add_comm 1] at later
      exact List.mem_cons_of_mem _ later

/-- An array with the indices from 0 on has the length of its list as size. -/
theorem arraySize_indexed {α : Type} (values : List α) :
    arraySize (indexed 0 values) = UInt32.ofNat values.length := by
  rcases List.eq_nil_or_concat values with rfl | ⟨front, last, rfl⟩
  · rfl
  · have next : Int32.ofNat front.length + 1 = Int32.ofNat (front.length + 1) := by
      rw [Int32.ofNat_add]
      rfl
    have final : (indexed 0 (front.concat last)).getLast? =
        some (Int32.ofNat front.length, last) := by
      rw [List.concat_eq_append, indexed_append, Nat.zero_add, indexed, indexed,
        List.getLast?_concat]
    simp only [arraySize, final, next, Int32.toUInt32_ofNat', List.length_concat]

/-- The loop over such an array takes its values, when the size is an `int`. -/
theorem elementsOf_indexed {α : Type} {values : List α} (fits : values.length ≤ maxSize)
    (null : α) : elementsOf (indexed 0 values) null = values := by
  have below : values.length < 2 ^ 31 := Nat.lt_of_le_of_lt fits (by decide)
  have count : (arraySize (indexed 0 values)).toInt32.toInt.toNat = values.length := by
    rw [arraySize_indexed, UInt32.toInt32_ofNat', Int32.toInt_ofNat_of_lt below, Int.toNat_natCast]
  refine List.ext_getElem (by simp [elementsOf, count]) fun place first second => ?_
  have ascending : Ascending (indexed 0 values) := ascending_indexed (by omega)
  have found := ascending.lookup_eq_some_iff.mpr (@mem_indexed_getElem α 0 place values second)
  rw [Nat.zero_add] at found
  simp [elementsOf, found]

/-- `append` puts an element behind the last one of an array without holes. -/
theorem append_indexed {values : List (Value D)} (below : values.length < 2 ^ 31)
    (element : Value D) :
    (Value.array (indexed 0 values)).append element =
      some (.array (indexed 0 (values ++ [element]))) := by
  have above : ∀ entry ∈ indexed 0 values, entry.1 < Int32.ofNat values.length := by
    intro entry inside
    obtain ⟨offset, less, index, _⟩ := mem_indexed inside
    rw [index, Nat.zero_add]
    exact ofNat_lt_ofNat less below
  have key : (arraySize (indexed 0 values)).toInt32 = Int32.ofNat values.length := by
    rw [arraySize_indexed, UInt32.toInt32_ofNat']
  rw [Value.append, Value.size, Value.setAt, key, assign_above element above, indexed_append,
    Nat.zero_add]
  rfl

/-- Appending elements one by one gives the array with the indices from 0 on. -/
theorem foldlM_append {before elements : List (Value D)}
    (fits : before.length + elements.length ≤ maxSize) :
    elements.foldlM Value.append (.array (indexed 0 before)) =
      some (.array (indexed 0 (before ++ elements))) := by
  induction elements generalizing before with
  | nil => simp
  | cons element elements ih =>
    rw [List.length_cons] at fits
    have below : before.length < 2 ^ 31 := by
      have top : maxSize < 2 ^ 31 := by decide
      omega
    have rest := @ih (before ++ [element]) (by
      rw [List.length_append, List.length_singleton]
      omega)
    rw [List.append_assoc, List.singleton_append] at rest
    rw [List.foldlM_cons, append_indexed below]
    exact rest

/-- An array is filled with the indices from 0 on. -/
theorem arrayOf_eq {elements : List (Value D)} (fits : elements.length ≤ maxSize) :
    arrayOf elements = some (.array (indexed 0 elements)) :=
  @foldlM_append D [] elements (by simpa using fits)

/-- An object is filled with entries that were assigned, in ascending order. -/
theorem foldlM_set {members : List (Bytes × Value D)} {before : List (Bytes × Value D)}
    (ascending : Ascending before) {object : Value D}
    (filled : members.foldlM (fun object member => object.set member.1 member.2)
      (.object before) = some object) :
    ∃ map, object = .object map ∧ Ascending map ∧
      ∀ entry ∈ map, entry ∈ before ∨ ∃ member ∈ members, entry = (cStr member.1, member.2) := by
  induction members generalizing before with
  | nil =>
    obtain rfl := Option.some.inj filled
    exact ⟨before, rfl, ascending, fun entry inside => .inl inside⟩
  | cons member members ih =>
    obtain ⟨map, rfl, rising, each⟩ := ih (Ascending.assign ascending _ _) filled
    refine ⟨map, rfl, rising, fun entry inside => ?_⟩
    rcases each entry inside with old | ⟨other, later, same⟩
    · rcases mem_of_assign old with rfl | older
      · exact .inr ⟨member, List.mem_cons_self, rfl⟩
      · exact .inl older
    · exact .inr ⟨other, List.mem_cons_of_mem _ later, same⟩

/-- A value made of `null`, booleans, `Int`s, strings without `NUL`, arrays filled from index 0
by `append` and objects filled by assignments. -/
inductive Filled : Value D → Prop
  /-- `null`. -/
  | null : Filled .null
  /-- A boolean. -/
  | boolean (value : Bool) : Filled (.boolean value)
  /-- An `Int`. -/
  | int (value : Int32) : Filled (.int value)
  /-- A string. -/
  | string {text : Bytes} (plain : 0 ∉ text) : Filled (.ofString text)
  /-- An array. -/
  | array {elements : List (Value D)} {value : Value D} (fits : elements.length ≤ maxSize)
      (each : ∀ element ∈ elements, Filled element) (filled : arrayOf elements = some value) :
      Filled value
  /-- An object. -/
  | object {members : List (Bytes × Value D)} {value : Value D}
      (each : ∀ member ∈ members, Filled member.2) (filled : objectOf members = some value) :
      Filled value

/-- No `Int` in the value is `-2147483640` or below. -/
def Value.Kept (value : Value D) : Prop :=
  ∀ part, Part part value → ∀ number, part = .int number → -2147483640 < number.toInt

/-- An `Int` is kept when it is above `-2147483640`. -/
theorem kept_int_iff {number : Int32} :
    (Value.int number : Value D).Kept ↔ -2147483640 < number.toInt := by
  rw [Value.Kept, forall_part_leaf rfl]
  exact ⟨fun each => each number rfl, fun above other same => Value.int.inj same ▸ above⟩

/-- An array is kept when its elements are. -/
theorem kept_indexed_iff {elements : List (Value D)} :
    (Value.array (indexed 0 elements)).Kept ↔ ∀ element ∈ elements, element.Kept := by
  rw [Value.Kept, forall_part_array]
  constructor
  · rintro ⟨_, each⟩ element inside
    rw [← indexed_values 0 elements] at inside
    obtain ⟨entry, member, rfl⟩ := List.mem_map.mp inside
    exact each entry member
  · refine fun each => ⟨(fun _ same => by cases same), fun entry inside => ?_⟩
    obtain ⟨_, _, _, member⟩ := mem_indexed inside
    exact each entry.2 member

/-- An object is kept when its members are. -/
theorem kept_object_iff {map : List (Bytes × Value D)} :
    (Value.object map).Kept ↔ ∀ entry ∈ map, entry.2.Kept := by
  rw [Value.Kept, forall_part_object]
  exact ⟨fun both => both.2, fun each => ⟨(fun _ same => by cases same), each⟩⟩

end Filling

/-! ## Reading back -/

section RoundTrip

variable {D : Type} [CDouble D] {value : Value D}

/-- What is known of a filled value and of reading it back. -/
structure Rereads (value : Value D) : Prop where
  /-- It is well formed. -/
  wellFormed : value.WellFormed
  /-- It has no doubles. -/
  noReals : value.NoReals
  /-- It is read back as it was exactly when it is kept. -/
  same : reread value = .ok value ↔ value.Kept

/-- A `double` is never read back as an `Int`. -/
theorem decodeDouble_ne_int (token : Token) (number : Int32) :
    (decodeDouble token : Except Failure (Value D)) ≠ .ok (.int number) := by
  simp only [decodeDouble]
  split
  · nofun
  · split
    · nofun
    · nofun

/-- An `Int` is read back unless it is `-2147483640` or below. -/
theorem rereads_int (number : Int32) : Rereads (.int number : Value D) where
  wellFormed := (forall_part_leaf rfl).mpr trivial
  noReals := (forall_part_leaf rfl).mpr fun _ same => by cases same
  same := by
    rw [kept_int_iff, reread, decodeNumber_intToString]
    split
    · rename_i low
      exact iff_of_false (decodeDouble_ne_int _ _) (by omega)
    · rename_i high
      exact iff_of_true rfl (by omega)

/-- A leaf that is no number is read back. -/
theorem rereads_leaf {value : Value D} (leaf : value.isLeaf = true) (sound : value.Sound)
    (noReal : ∀ number, value ≠ .real number) (noInt : ∀ number, value ≠ .int number)
    (read : reread value = .ok value) : Rereads value where
  wellFormed := (forall_part_leaf leaf).mpr sound
  noReals := (forall_part_leaf leaf).mpr noReal
  same := iff_of_true read
    ((forall_part_leaf leaf).mpr fun number same => absurd same (noInt number))

/-- An array of values that are read back is read back element by element. -/
theorem rereads_array {elements : List (Value D)} (fits : elements.length ≤ maxSize)
    (each : ∀ element ∈ elements, Rereads element) :
    Rereads (.array (indexed 0 elements)) where
  wellFormed := by
    have ascending : Ascending (indexed 0 elements) := ascending_indexed (by
      have top : maxSize < 2 ^ 31 := by decide
      omega)
    refine forall_part_array.mpr ⟨ascending, fun entry inside => ?_⟩
    obtain ⟨_, _, _, member⟩ := mem_indexed inside
    exact (each entry.2 member).wellFormed
  noReals := by
    refine forall_part_array.mpr ⟨(fun _ same => by cases same), fun entry inside => ?_⟩
    obtain ⟨_, _, _, member⟩ := mem_indexed inside
    exact (each entry.2 member).noReals
  same := by
    have all : reread (.array (indexed 0 elements)) = .ok (.array (indexed 0 elements)) ↔
        ∀ element ∈ elements, reread element = .ok element := by
      have oks : indexed 0 (elements.map Except.ok) =
          (indexed 0 elements).map fun entry => (entry.1, (.ok entry.2 : Except Failure _)) :=
        indexed_map Except.ok 0 elements
      rw [reread_array, elementsOf_indexed fits]
      constructor
      · intro read
        cases found : sequence (indexed 0 (elements.map reread)) with
        | error failure =>
          rw [found] at read
          cases read
        | ok entries =>
          rw [found] at read
          obtain rfl : entries = indexed 0 elements := Value.array.inj (Except.ok.inj read)
          have same := congrArg (List.map Prod.snd) ((eq_of_sequence found).trans oks.symm)
          rw [indexed_values, indexed_values] at same
          exact List.map_inj_left.mp same
      · intro same
        rw [List.map_congr_left same, oks, sequence_ok]
        rfl
    rw [all, kept_indexed_iff]
    exact forall₂_congr fun element inside => (each element inside).same

/-- An object of values that are read back is read back member by member. -/
theorem rereads_object {map : List (Bytes × Value D)} (ascending : Ascending map)
    (plain : ∀ entry ∈ map, 0 ∉ entry.1) (each : ∀ entry ∈ map, Rereads entry.2) :
    Rereads (.object map) where
  wellFormed := forall_part_object.mpr
    ⟨⟨ascending, plain⟩, fun entry inside => (each entry inside).wellFormed⟩
  noReals := forall_part_object.mpr
    ⟨(fun _ same => by cases same), fun entry inside => (each entry inside).noReals⟩
  same := by
    have all : reread (.object map) = .ok (.object map) ↔
        ∀ entry ∈ map, reread entry.2 = .ok entry.2 := by
      rw [reread_object ascending]
      constructor
      · intro read
        cases found : sequence (map.map fun entry => (entry.1, reread entry.2)) with
        | error failure =>
          rw [found] at read
          cases read
        | ok entries =>
          rw [found] at read
          obtain rfl : entries = map := Value.object.inj (Except.ok.inj read)
          have same := List.map_inj_left.mp (eq_of_sequence found)
          exact fun entry inside => (Prod.mk.inj (same entry inside)).2
      · intro same
        have oks : (map.map fun entry => (entry.1, reread entry.2)) =
            map.map fun entry => (entry.1, .ok entry.2) :=
          List.map_congr_left fun entry inside => by rw [same entry inside]
        rw [oks, sequence_ok]
        rfl
    rw [all, kept_object_iff]
    exact forall₂_congr fun entry inside => (each entry inside).same

/-- Filled values are read back as they were exactly when they are kept. -/
theorem Filled.rereads (filled : Filled value) : Rereads value := by
  induction filled with
  | null =>
    exact rereads_leaf rfl trivial (fun _ same => by cases same) (fun _ same => by cases same) rfl
  | boolean value =>
    exact rereads_leaf rfl trivial (fun _ same => by cases same) (fun _ same => by cases same) rfl
  | int number => exact rereads_int number
  | string plain =>
    exact rereads_leaf rfl (cStr_plain _) (fun _ same => by cases same)
      (fun _ same => by cases same) rfl
  | array fits _ filled ih =>
    rw [arrayOf_eq fits] at filled
    obtain rfl := Option.some.inj filled
    exact rereads_array fits ih
  | object _ filled ih =>
    obtain ⟨map, rfl, ascending, assigned⟩ := foldlM_set .nil filled
    have each : ∀ entry ∈ map, 0 ∉ entry.1 ∧ Rereads entry.2 := by
      intro entry inside
      rcases assigned entry inside with none | ⟨member, given, rfl⟩
      · cases none
      · exact ⟨cStr_plain member.1, ih member given⟩
    exact rereads_object ascending (fun entry inside => (each entry inside).1)
      fun entry inside => (each entry inside).2

/-- `JsonStringToObject` of a written value returns what reading it back gives. -/
theorem jsonStringToObject_write (wellFormed : value.WellFormed) (noReals : value.NoReals)
    {back : Value D} (read : reread value = .ok back) :
    jsonStringToObject (jsonObjectToString value) = some back := by
  rw [jsonStringToObject, parse_write wellFormed noReals, read]

/-- Writing and reading back a filled value gives an equal value exactly when no `Int` in it is
`-2147483640` or below. -/
theorem sameValue_iff (filled : Filled value) :
    (∃ back, jsonStringToObject (jsonObjectToString value) = some back ∧
      back.equal value = true) ↔ value.Kept := by
  obtain ⟨wellFormed, noReals, same⟩ := filled.rereads
  rw [← same]
  constructor
  · rintro ⟨back, read, equal⟩
    obtain rfl := (Value.equal_iff noReals back).mp equal
    cases result : reread back with
    | ok found =>
      rw [jsonStringToObject_write wellFormed noReals result] at read
      rw [Option.some.inj read]
    | error failure =>
      -- a failure returns an `Int` zero, which would have been read back
      rw [jsonStringToObject, parse_write wellFormed noReals, result] at read
      cases failure with
      | error info =>
        obtain rfl := Option.some.inj read
        exact result.symm.trans (same.mpr (kept_int_iff.mpr (by decide)))
      | overrun => cases read
      | fuel => cases read
  · intro back
    exact ⟨value, jsonStringToObject_write wellFormed noReals back,
      (Value.equal_iff noReals value).mpr rfl⟩

/-- An array with the least and the greatest `Int` that are kept, and a string with a quote. -/
theorem roundTrip_edges :
    ∃ back : Value Int, jsonStringToObject (jsonObjectToString (.array (indexed 0
        [.int (-2147483639), .int 2147483647, .ofString [34, 10]]) : Value Int)) = some back ∧
      back.equal (.array (indexed 0
        [.int (-2147483639), .int 2147483647, .ofString [34, 10]])) = true := by
  have each : ∀ element ∈ ([.int (-2147483639), .int 2147483647, .ofString [34, 10]] :
      List (Value Int)), Filled element ∧ element.Kept := by
    simp only [List.mem_cons, List.not_mem_nil, or_false]
    rintro element (rfl | rfl | rfl)
    · exact ⟨.int _, kept_int_iff.mpr (by decide)⟩
    · exact ⟨.int _, kept_int_iff.mpr (by decide)⟩
    · exact ⟨.string (by decide), (forall_part_leaf rfl).mpr fun _ same => by cases same⟩
  have filled := Filled.array (by decide) (fun element inside => (each element inside).1)
    (arrayOf_eq (by decide))
  exact (sameValue_iff filled).mpr
    (kept_indexed_iff.mpr fun element inside => (each element inside).2)

/-- `minInt` is read back as a `double`. -/
theorem minInt_not_back :
    Filled (.int minInt : Value Int) ∧ ¬ ∃ back : Value Int,
      jsonStringToObject (jsonObjectToString (.int minInt : Value Int)) = some back ∧
        back.equal (.int minInt) = true := by
  have text : intToString minInt = ascii "-2147483648" := by decide
  have read : reread (.int minInt : Value Int) = .ok (.real (-2147483648)) := by
    have length : toInt (ascii "-2147483648").length = 11 := by decide
    have scanned : (CDouble.sscanf ((ascii "-2147483648").take (Int.toNat 11)) : Option Int) =
        some (-2147483648) := by decide +kernel
    rw [reread, decodeNumber_intToString, if_pos (by decide), text]
    simp only [decodeDouble, length]
    rw [if_neg (by decide), if_pos (by decide), scanned]
  have found := jsonStringToObject_write (rereads_int minInt).wellFormed
    (rereads_int minInt).noReals read
  refine ⟨.int minInt, ?_⟩
  rintro ⟨back, same, equal⟩
  obtain rfl := Option.some.inj (found.symm.trans same)
  cases equal

end RoundTrip

end CppCode.Json
