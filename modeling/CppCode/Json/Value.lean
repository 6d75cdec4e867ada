import CppCode.Library.SortedMap
import CppCode.Mongoose.Text

/-!
# `Json::Value`

A value is one of eight types. Arrays and objects are one `std::map` each, from an `int` index or
from a C string to a value, and arrays may have holes: `size` is the last index plus one, and
`operator[]` of an index without an entry is `null`. Indices are converted between `UInt` and
`int`, and `size` wraps when the last index is `INT_MAX`.

Strings are C strings: every constructor copies up to the first `NUL`, or what is copied is read
up to there. The comments of a value are left out. Doubles are a parameter of the development,
with the three operations of the C library and of the language that are applied to them.
-/

namespace CppCode.Json

open Library Mongoose

/-- `double`, with what the sources do to one. -/
class CDouble (D : Type) where
  /-- What `sprintf` writes for it under `"%#.16g"`. -/
  sprintf : D → Bytes
  /-- What `sscanf` stores under `"%lf"`, when it converts anything. -/
  sscanf : Bytes → Option D
  /-- `operator==`. -/
  equal : D → D → Bool

/-- Doubles with an integral value below `10 ^ 15`, for evaluation: `sprintf` writes sixteen
significant digits, and `sscanf` reads a sign and digits. -/
instance wholeDouble : CDouble Int where
  sprintf value :=
    let digits := decimal value.natAbs
    (if value < 0 then [45] else []) ++ digits ++ 46 :: List.replicate (16 - digits.length) 48
  sscanf text :=
    let negative := text.head? == some 45
    let digits := (if negative then text.drop 1 else text).takeWhile isDigit
    if digits = [] then none
    else some (if negative then -(digitsValue digits : Int) else digitsValue digits)
  equal left right := left == right

/-- The C string at the start of a byte string. -/
def cStr (text : Bytes) : Bytes := text.takeWhile (· != 0)

/-- `Json::Value`. -/
inductive Value (D : Type) where
  /-- `nullValue`. -/
  | null
  /-- `intValue`. -/
  | int (value : Int32)
  /-- `uintValue`. -/
  | uint (value : UInt32)
  /-- `realValue`. -/
  | real (value : D)
  /-- `stringValue`, with the bytes before the `NUL`. -/
  | string (text : Bytes)
  /-- `booleanValue`. -/
  | boolean (value : Bool)
  /-- `arrayValue`. -/
  | array (map : List (Int32 × Value D))
  /-- `objectValue`. -/
  | object (map : List (Bytes × Value D))

/-- `Value::minInt`. -/
def minInt : Int32 := -2147483648
/-- `Value::maxInt`. -/
def maxInt : Int32 := 2147483647
/-- `Value::maxUInt`. -/
def maxUInt : UInt32 := 4294967295

section Operations

variable {D : Type}

/-- The constructor from a `std::string`. -/
def Value.ofString (text : Bytes) : Value D := .string (cStr text)

/-- The last index of an array plus one, and 0 if it has none. -/
def arraySize {α : Type} (map : List (Int32 × α)) : UInt32 :=
  match map.getLast? with
  | some last => (last.1 + 1).toUInt32
  | none => 0

/-- `Value::size`. -/
def Value.size : Value D → UInt32
  | .array map => arraySize map
  | .object map => UInt32.ofNat map.length
  | _ => 0

/-- The constant `operator[]` with an index; it asserts that the value is `null` or an array. -/
def Value.at : Value D → UInt32 → Option (Value D)
  | .null, _ => some .null
  | .array map, index => some ((map.lookup index.toInt32).getD .null)
  | _, _ => none

/-- The assignment of an element through `operator[]`, which makes `null` an array and asserts
that other values are one. -/
def Value.setAt : Value D → UInt32 → Value D → Option (Value D)
  | .null, index, element => some (.array (assign [] index.toInt32 element))
  | .array map, index, element => some (.array (assign map index.toInt32 element))
  | _, _, _ => none

/-- `Value::append`. -/
def Value.append (value element : Value D) : Option (Value D) := value.setAt value.size element

/-- The constant `operator[]` with a name; it asserts that the value is `null` or an object. -/
def Value.get : Value D → Bytes → Option (Value D)
  | .null, _ => some .null
  | .object map, name => some ((map.lookup (cStr name)).getD .null)
  | _, _ => none

/-- The assignment of a member through `operator[]`, which makes `null` an object and asserts
that other values are one. -/
def Value.set : Value D → Bytes → Value D → Option (Value D)
  | .null, name, member => some (.object (assign [] (cStr name) member))
  | .object map, name, member => some (.object (assign map (cStr name) member))
  | _, _, _ => none

/-- `Value::getMemberNames`; it asserts that the value is `null` or an object. -/
def Value.getMemberNames : Value D → Option (List Bytes)
  | .null => some []
  | .object map => some (map.map Prod.fst)
  | _ => none

/-- `Value::asString`, which throws for a number, an array or an object. -/
def Value.asString : Value D → Option Bytes
  | .null => some []
  | .string text => some text
  | .boolean value => some (if value then ascii "true" else ascii "false")
  | _ => none

/-- `Value::isNull`. -/
def Value.isNull : Value D → Bool
  | .null => true
  | _ => false

/-- `Value::isArray`. -/
def Value.isArray : Value D → Bool
  | .null | .array _ => true
  | _ => false

/-- `Value::isObject`. -/
def Value.isObject : Value D → Bool
  | .null | .object _ => true
  | _ => false

mutual

variable [CDouble D]

/-- `Value::operator==`. -/
def Value.equal : Value D → Value D → Bool
  | .null, .null => true
  | .int left, .int right => left == right
  | .uint left, .uint right => left == right
  | .real left, .real right => CDouble.equal left right
  | .string left, .string right => left == right
  | .boolean left, .boolean right => left == right
  | .array left, .array right => elementsEqual left right
  | .object left, .object right => membersEqual left right
  | _, _ => false

/-- `operator==` of the maps of two arrays, which have the same size. -/
def elementsEqual : List (Int32 × Value D) → List (Int32 × Value D) → Bool
  | [], [] => true
  | (leftKey, left) :: leftRest, (rightKey, right) :: rightRest =>
    leftKey == rightKey && left.equal right && elementsEqual leftRest rightRest
  | _, _ => false

/-- `operator==` of the maps of two objects, which have the same size. -/
def membersEqual : List (Bytes × Value D) → List (Bytes × Value D) → Bool
  | [], [] => true
  | (leftKey, left) :: leftRest, (rightKey, right) :: rightRest =>
    leftKey == rightKey && left.equal right && membersEqual leftRest rightRest
  | _, _ => false

end

end Operations

section Parts

variable {D : Type}

/-- Induction over a value and the values in it. -/
theorem Value.nested {Holds : Value D → Prop} (null : Holds .null)
    (int : ∀ value, Holds (.int value)) (uint : ∀ value, Holds (.uint value))
    (real : ∀ value, Holds (.real value)) (string : ∀ text, Holds (.string text))
    (boolean : ∀ value, Holds (.boolean value))
    (array : ∀ map : List (Int32 × Value D), (∀ entry ∈ map, Holds entry.2) → Holds (.array map))
    (object : ∀ map : List (Bytes × Value D), (∀ entry ∈ map, Holds entry.2) →
      Holds (.object map)) (value : Value D) : Holds value :=
  @Value.rec D Holds (fun map => ∀ entry ∈ map, Holds entry.2)
    (fun map => ∀ entry ∈ map, Holds entry.2) (fun entry => Holds entry.2)
    (fun entry => Holds entry.2) null int uint real string boolean array object
    (fun _ member => nomatch member) (fun _ _ first rest => List.forall_mem_cons.mpr ⟨first, rest⟩)
    (fun _ member => nomatch member) (fun _ _ first rest => List.forall_mem_cons.mpr ⟨first, rest⟩)
    (fun _ _ holds => holds) (fun _ _ holds => holds) value

/-- A value is a part of another: the value itself, an element, a member, or a part of these. -/
inductive Part : Value D → Value D → Prop
  /-- The value itself. -/
  | self (value : Value D) : Part value value
  /-- A part of an element. -/
  | element {map : List (Int32 × Value D)} {entry : Int32 × Value D} {part : Value D}
      (inside : entry ∈ map) (inner : Part part entry.2) : Part part (.array map)
  /-- A part of a member. -/
  | member {map : List (Bytes × Value D)} {entry : Bytes × Value D} {part : Value D}
      (inside : entry ∈ map) (inner : Part part entry.2) : Part part (.object map)

/-- A part of a part is a part. -/
theorem Part.trans {first second third : Value D} (inner : Part first second)
    (outer : Part second third) : Part first third := by
  induction outer with
  | self => exact inner
  | element inside _ ih => exact .element inside (ih inner)
  | member inside _ ih => exact .member inside (ih inner)

/-- Whether a value is neither an array nor an object. -/
def Value.isLeaf : Value D → Bool
  | .array _ | .object _ => false
  | _ => true

/-- What holds of the parts of a value that is neither an array nor an object. -/
theorem forall_part_leaf {Holds : Value D → Prop} {value : Value D} (leaf : value.isLeaf = true) :
    (∀ part, Part part value → Holds part) ↔ Holds value := by
  refine ⟨fun all => all value (.self value), fun holds part inner => ?_⟩
  cases inner with
  | self => exact holds
  | element => cases leaf
  | member => cases leaf

/-- What holds of the parts of an array. -/
theorem forall_part_array {Holds : Value D → Prop} {map : List (Int32 × Value D)} :
    (∀ part, Part part (.array map) → Holds part) ↔
      Holds (.array map) ∧ ∀ entry ∈ map, ∀ part, Part part entry.2 → Holds part := by
  constructor
  · exact fun all => ⟨all _ (.self _),
      fun entry inside part inner => all part (.element inside inner)⟩
  · rintro ⟨whole, each⟩ part inner
    cases inner with
    | self => exact whole
    | element inside inner => exact each _ inside part inner

/-- What holds of the parts of an object. -/
theorem forall_part_object {Holds : Value D → Prop} {map : List (Bytes × Value D)} :
    (∀ part, Part part (.object map) → Holds part) ↔
      Holds (.object map) ∧ ∀ entry ∈ map, ∀ part, Part part entry.2 → Holds part := by
  constructor
  · exact fun all => ⟨all _ (.self _),
      fun entry inside part inner => all part (.member inside inner)⟩
  · rintro ⟨whole, each⟩ part inner
    cases inner with
    | self => exact whole
    | member inside inner => exact each _ inside part inner

/-- What the types of its members promise of one value: strings end at their `NUL`, and the keys
of a map ascend. -/
def Value.Sound : Value D → Prop
  | .string text => 0 ∉ text
  | .array map => Ascending map
  | .object map => Ascending map ∧ ∀ entry ∈ map, 0 ∉ entry.1
  | _ => True

/-- A value all of whose parts are sound, as every value that the class can make. -/
def Value.WellFormed (value : Value D) : Prop := ∀ part, Part part value → part.Sound

/-- A value without doubles. -/
def Value.NoReals (value : Value D) : Prop :=
  ∀ part, Part part value → ∀ number, part ≠ .real number

/-- A string is well formed when it ends at its `NUL`. -/
theorem wellFormed_string {text : Bytes} (plain : 0 ∉ text) :
    (Value.string text : Value D).WellFormed :=
  (forall_part_leaf rfl).mpr plain

/-- A string is no double. -/
theorem noReals_string (text : Bytes) : (Value.string text : Value D).NoReals :=
  (forall_part_leaf rfl).mpr fun _ same => by cases same

/-- The elements of a well-formed array are well formed. -/
theorem Value.WellFormed.element {map : List (Int32 × Value D)}
    (wellFormed : (Value.array map).WellFormed) {entry : Int32 × Value D} (inside : entry ∈ map) :
    entry.2.WellFormed := (forall_part_array.mp wellFormed).2 entry inside

/-- The members of a well-formed object are well formed. -/
theorem Value.WellFormed.member {map : List (Bytes × Value D)}
    (wellFormed : (Value.object map).WellFormed) {entry : Bytes × Value D} (inside : entry ∈ map) :
    entry.2.WellFormed := (forall_part_object.mp wellFormed).2 entry inside

/-- The elements of an array without doubles have none. -/
theorem Value.NoReals.element {map : List (Int32 × Value D)} (noReals : (Value.array map).NoReals)
    {entry : Int32 × Value D} (inside : entry ∈ map) : entry.2.NoReals :=
  (forall_part_array.mp noReals).2 entry inside

/-- The members of an object without doubles have none. -/
theorem Value.NoReals.member {map : List (Bytes × Value D)} (noReals : (Value.object map).NoReals)
    {entry : Bytes × Value D} (inside : entry ∈ map) : entry.2.NoReals :=
  (forall_part_object.mp noReals).2 entry inside

/-- `append` keeps an array well formed. -/
theorem Value.WellFormed.append {value element after : Value D} (wellFormed : value.WellFormed)
    (inner : element.WellFormed) (appended : value.append element = some after) :
    after.WellFormed := by
  have keep (map : List (Int32 × Value D)) (array : (Value.array map).WellFormed)
      (index : Int32) : (Value.array (assign map index element)).WellFormed := by
    obtain ⟨ascending, each⟩ := forall_part_array.mp array
    refine forall_part_array.mpr ⟨Ascending.assign ascending _ _, fun entry inside => ?_⟩
    rcases mem_of_assign inside with rfl | old
    · exact inner
    · exact each entry old
  cases value with
  | null =>
    obtain rfl := Option.some.inj appended
    exact keep [] (forall_part_array.mpr ⟨.nil, nofun⟩) _
  | array map =>
    obtain rfl := Option.some.inj appended
    exact keep map wellFormed _
  | _ => cases appended

/-- A C string has no `NUL`. -/
theorem cStr_plain (text : Bytes) : 0 ∉ cStr text := fun member => by
  simpa using List.mem_takeWhile_imp member

/-- The assignment of a member keeps an object well formed. -/
theorem Value.WellFormed.set {value member after : Value D} {name : Bytes}
    (wellFormed : value.WellFormed) (inner : member.WellFormed)
    (assigned : value.set name member = some after) : after.WellFormed := by
  have keep (map : List (Bytes × Value D)) (object : (Value.object map).WellFormed) :
      (Value.object (assign map (cStr name) member)).WellFormed := by
    obtain ⟨⟨ascending, names⟩, each⟩ := forall_part_object.mp object
    refine forall_part_object.mpr
      ⟨⟨Ascending.assign ascending _ _, fun entry inside => ?_⟩, fun entry inside => ?_⟩
    · rcases mem_of_assign inside with rfl | old
      · exact cStr_plain name
      · exact names entry old
    · rcases mem_of_assign inside with rfl | old
      · exact inner
      · exact each entry old
  cases value with
  | null =>
    obtain rfl := Option.some.inj assigned
    exact keep [] (forall_part_object.mpr ⟨⟨.nil, nofun⟩, nofun⟩)
  | object map =>
    obtain rfl := Option.some.inj assigned
    exact keep map wellFormed
  | _ => cases assigned

end Parts

section Equal

variable {D : Type} [CDouble D]

/-- Arrays are equal when they are the same, if that holds of their elements. -/
theorem elementsEqual_iff {left right : List (Int32 × Value D)}
    (each : ∀ entry ∈ right, ∀ other : Value D, other.equal entry.2 = true ↔ other = entry.2) :
    elementsEqual left right = true ↔ left = right := by
  induction right generalizing left with
  | nil =>
    cases left with
    | nil => simp [elementsEqual]
    | cons entry left => simp [elementsEqual]
  | cons entry right ih =>
    obtain ⟨head, tail⟩ := List.forall_mem_cons.mp each
    cases left with
    | nil => simp [elementsEqual]
    | cons other left =>
      rw [elementsEqual, Bool.and_eq_true, Bool.and_eq_true, beq_iff_eq, head, ih tail,
        List.cons.injEq, Prod.ext_iff]

/-- Objects are equal when they are the same, if that holds of their members. -/
theorem membersEqual_iff {left right : List (Bytes × Value D)}
    (each : ∀ entry ∈ right, ∀ other : Value D, other.equal entry.2 = true ↔ other = entry.2) :
    membersEqual left right = true ↔ left = right := by
  induction right generalizing left with
  | nil =>
    cases left with
    | nil => simp [membersEqual]
    | cons entry left => simp [membersEqual]
  | cons entry right ih =>
    obtain ⟨head, tail⟩ := List.forall_mem_cons.mp each
    cases left with
    | nil => simp [membersEqual]
    | cons other left =>
      rw [membersEqual, Bool.and_eq_true, Bool.and_eq_true, beq_iff_eq, head, ih tail,
        List.cons.injEq, Prod.ext_iff]

/-- Where the right side has no doubles, `operator==` is equality. -/
theorem Value.equal_iff {right : Value D} (noReals : right.NoReals) (left : Value D) :
    left.equal right = true ↔ left = right := by
  induction right using Value.nested generalizing left with
  | null => cases left <;> simp [Value.equal]
  | int value => cases left <;> simp [Value.equal]
  | uint value => cases left <;> simp [Value.equal]
  | real value => exact absurd rfl (noReals _ (.self _) value)
  | string text => cases left <;> simp [Value.equal]
  | boolean value => cases left <;> simp [Value.equal]
  | array map ih =>
    have each := fun entry inside => ih entry inside (noReals.element inside)
    cases left with
    | array left => rw [Value.equal, elementsEqual_iff each, Value.array.injEq]
    | _ => simp [Value.equal]
  | object map ih =>
    have each := fun entry inside => ih entry inside (noReals.member inside)
    cases left with
    | object left => rw [Value.equal, membersEqual_iff each, Value.object.injEq]
    | _ => simp [Value.equal]

end Equal

end CppCode.Json
