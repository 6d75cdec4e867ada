import CppCode.Json.RoundTrip

/-!
# `JsonBulid`

A map of strings becomes an array with one object for each entry, in the order of the keys; an
empty map becomes `null`. Written and read back, the array is the same, and its elements are the
entries again (`jsonBulid_roundTrip`): the escapes of the writer are undone by the reader for
every string, and an object with one member has nothing to lose or to merge. What `JsonBulid`
prints on the way is left out.
-/

namespace CppCode.Json

open Library Mongoose

/-- A `std::map<std::string, std::string>`. -/
structure StringMap where
  /-- Its entries, from `begin()` to `end()`. -/
  entries : List (Bytes × Bytes)
  /-- They are ordered by their keys. -/
  ascending : Ascending entries
  /-- There are no more than `max_size()`. -/
  fits : entries.length ≤ maxSize

section Build

variable {D : Type}

/-- The object that `JsonBulid` makes for an entry. -/
def entryObject (entry : Bytes × Bytes) : Option (Value D) :=
  Value.set .null entry.1 (.ofString entry.2)

/-- `JsonBulid`. -/
def jsonBulid (mapValue : StringMap) : Option (Value D) :=
  if mapValue.entries = [] then some .null
  else mapValue.entries.foldlM (fun value entry => (entryObject entry).bind value.append) .null

/-- An element of an array as the name and the string of its only member. -/
def singleMember (element : Value D) : Option (Bytes × Bytes) :=
  match element.getMemberNames with
  | some [name] => do
    let member ← element.get name
    let text ← member.asString
    some (name, text)
  | _ => none

/-- The elements of an array in index order, each as its only member. -/
def readEntries (value : Value D) : Option (List (Bytes × Bytes)) :=
  (List.range value.size.toNat).mapM fun index =>
    (value.at (UInt32.ofNat index)).bind singleMember

/-- What the object of an entry is, for strings without `NUL`. -/
def memberOf (entry : Bytes × Bytes) : Value D := .object [(entry.1, .string entry.2)]

/-- The object of an entry has its key as the only name. -/
theorem entryObject_eq {entry : Bytes × Bytes} (plain : 0 ∉ entry.1 ∧ 0 ∉ entry.2) :
    (entryObject entry : Option (Value D)) = some (memberOf entry) := by
  rw [entryObject, Value.set, Value.ofString, cStr_of_plain plain.1, cStr_of_plain plain.2, assign]
  rfl

/-- The object of an entry is read as the entry. -/
theorem singleMember_memberOf {entry : Bytes × Bytes} (plain : 0 ∉ entry.1) :
    singleMember (memberOf entry : Value D) = some entry := by
  simp [singleMember, memberOf, Value.getMemberNames, Value.get, cStr_of_plain plain,
    Value.asString]

/-- The loop of `JsonBulid` appends the objects of the entries. -/
theorem foldlM_entryObject {entries : List (Bytes × Bytes)}
    (plain : ∀ entry ∈ entries, 0 ∉ entry.1 ∧ 0 ∉ entry.2) (start : Value D) :
    entries.foldlM (fun value entry => (entryObject entry).bind value.append) start =
      (entries.map memberOf).foldlM Value.append start := by
  induction entries generalizing start with
  | nil => rfl
  | cons entry entries ih =>
    obtain ⟨head, tail⟩ := List.forall_mem_cons.mp plain
    rw [List.foldlM_cons, List.map_cons, List.foldlM_cons, entryObject_eq head, Option.bind_some]
    exact Option.bind_congr fun value _ => ih tail value

/-- What `JsonBulid` makes of a map. -/
def builtOf (entries : List (Bytes × Bytes)) : Value D :=
  if entries = [] then .null else .array (indexed 0 (entries.map memberOf))

/-- `JsonBulid` makes an array of the objects of the entries in their order. -/
theorem jsonBulid_eq {mapValue : StringMap}
    (plain : ∀ entry ∈ mapValue.entries, 0 ∉ entry.1 ∧ 0 ∉ entry.2) :
    (jsonBulid mapValue : Option (Value D)) = some (builtOf mapValue.entries) := by
  obtain ⟨entries, ascending, fits⟩ := mapValue
  rw [jsonBulid, builtOf]
  by_cases none : entries = []
  · rw [if_pos none, if_pos none]
  · rw [if_neg none, if_neg none]
    have first : (entries.map memberOf).foldlM Value.append (.null : Value D) =
        (entries.map memberOf).foldlM Value.append (.array []) := by
      obtain ⟨entry, rest, rfl⟩ := List.exists_cons_of_ne_nil none
      rfl
    rw [foldlM_entryObject plain, first]
    exact arrayOf_eq (by rwa [List.length_map])

/-- Values found one by one at the places of a list are the list. -/
theorem mapM_range {α : Type} {find : Nat → Option α} {values : List α}
    (each : ∀ place (inside : place < values.length), find place = some values[place]) :
    (List.range values.length).mapM find = some values := by
  induction values using List.reverseRecOn with
  | nil => rfl
  | append_singleton front last ih =>
    have length : (front ++ [last]).length = front.length + 1 := by simp
    have before := ih fun place inside => by
      rw [each place (by omega), List.getElem_append_left inside]
    have final := each front.length (by omega)
    rw [List.getElem_concat_length rfl] at final
    simp [length, List.range_succ, before, final]

/-- The elements of what `JsonBulid` makes are read as the entries. -/
theorem readEntries_builtOf {entries : List (Bytes × Bytes)} (fits : entries.length ≤ maxSize)
    (plain : ∀ entry ∈ entries, 0 ∉ entry.1) :
    readEntries (builtOf entries : Value D) = some entries := by
  by_cases none : entries = []
  · subst none
    rfl
  · have below : entries.length < 2 ^ 31 := Nat.lt_of_le_of_lt fits (by decide)
    have size : (Value.array (indexed 0 (entries.map memberOf)) : Value D).size.toNat =
        entries.length := by
      rw [Value.size, arraySize_indexed, List.length_map, UInt32.toNat_ofNat',
        Nat.mod_eq_of_lt (by omega)]
    have ascending : Ascending (indexed 0 (entries.map memberOf) : List (Int32 × Value D)) :=
      ascending_indexed (by rw [List.length_map]; omega)
    rw [builtOf, if_neg none, readEntries, size]
    refine mapM_range fun place inside => ?_
    have member := @mem_indexed_getElem (Value D) 0 place (entries.map memberOf)
      (by rwa [List.length_map])
    rw [Nat.zero_add, List.getElem_map] at member
    rw [Value.at, UInt32.toInt32_ofNat', ascending.lookup_eq_some_iff.mpr member,
      Option.getD_some, Option.bind_some]
    exact singleMember_memberOf (plain _ (List.getElem_mem inside))

variable [CDouble D]

/-- The object of an entry is read back as it was. -/
theorem rereads_memberOf {entry : Bytes × Bytes} (plain : 0 ∉ entry.1 ∧ 0 ∉ entry.2) :
    Rereads (memberOf entry : Value D) := by
  have text : Rereads (.string entry.2 : Value D) :=
    rereads_leaf rfl plain.2 (fun _ same => by cases same) (fun _ same => by cases same) rfl
  exact rereads_object (List.pairwise_singleton _ _)
    (fun other inside => List.mem_singleton.mp inside ▸ plain.1)
    fun other inside => List.mem_singleton.mp inside ▸ text

omit [CDouble D] in
/-- The object of an entry has no `Int`. -/
theorem kept_memberOf (entry : Bytes × Bytes) : (memberOf entry : Value D).Kept := by
  refine kept_object_iff.mpr fun other inside => ?_
  obtain rfl := List.mem_singleton.mp inside
  exact (forall_part_leaf rfl).mpr fun _ same => by cases same

/-- What `JsonBulid` makes is read back as it was. -/
theorem reread_builtOf {entries : List (Bytes × Bytes)} (fits : entries.length ≤ maxSize)
    (plain : ∀ entry ∈ entries, 0 ∉ entry.1 ∧ 0 ∉ entry.2) :
    Rereads (builtOf entries : Value D) ∧ (builtOf entries : Value D).Kept := by
  by_cases none : entries = []
  · rw [builtOf, if_pos none]
    exact ⟨rereads_leaf rfl trivial (fun _ same => by cases same) (fun _ same => by cases same) rfl,
      (forall_part_leaf rfl).mpr fun _ same => by cases same⟩
  · rw [builtOf, if_neg none]
    refine ⟨rereads_array (by rwa [List.length_map]) fun element inside => ?_,
      kept_indexed_iff.mpr fun element inside => ?_⟩
    · obtain ⟨entry, member, rfl⟩ := List.mem_map.mp inside
      exact rereads_memberOf (plain entry member)
    · obtain ⟨entry, member, rfl⟩ := List.mem_map.mp inside
      exact kept_memberOf entry

/-- The value that `JsonBulid` makes of a map of strings without `NUL` is returned equal when it
is written and read back, and its elements are the entries of the map in the order of the keys. -/
theorem jsonBulid_roundTrip (mapValue : StringMap)
    (plain : ∀ entry ∈ mapValue.entries, 0 ∉ entry.1 ∧ 0 ∉ entry.2) :
    ∃ value back : Value D, jsonBulid mapValue = some value ∧
      jsonStringToObject (jsonObjectToString value) = some back ∧ back.equal value = true ∧
        readEntries back = some mapValue.entries := by
  obtain ⟨rereads, kept⟩ := @reread_builtOf D _ mapValue.entries mapValue.fits plain
  refine ⟨builtOf mapValue.entries, builtOf mapValue.entries, jsonBulid_eq plain, ?_, ?_, ?_⟩
  · exact jsonStringToObject_write rereads.wellFormed rereads.noReals (rereads.same.mpr kept)
  · exact (Value.equal_iff rereads.noReals _).mpr rfl
  · exact readEntries_builtOf mapValue.fits fun entry inside => (plain entry inside).1

/-- A map with an empty key, quotes, a backslash and control characters. -/
def quotesMap : StringMap :=
  ⟨[([], [34, 92]), ([92, 110], [7, 10])], by decide, by decide⟩

/-- Such a map is read back. -/
theorem jsonBulid_quotes :
    ∃ value back : Value Int, jsonBulid quotesMap = some value ∧
      jsonStringToObject (jsonObjectToString value) = some back ∧ back.equal value = true ∧
        readEntries back = some [([], [34, 92]), ([92, 110], [7, 10])] :=
  jsonBulid_roundTrip quotesMap (by simp [quotesMap])

end Build

end CppCode.Json
