import CppCode.TinyXml.Node

/-!
# What `GetElementValue` prints

The walk of `GetElementValue` prints the elements below its argument that begin with a text, each of
them once and in document order (`getElementValue_lists`). The proof follows the loop: at a
position among siblings the walk prints what the siblings from there on contribute to the list of
everything below their parent, whatever the position is and whatever stands between the elements
(`elementValues_eq`).

A text that does not come first in its element is not looked at. So no value is lost exactly when
each such text is repeated at the beginning of an element with the same name
(`losesNothing_iff`).
-/

namespace CppCode.TinyXml

open Library Mongoose

/-- The children of a node. -/
def XmlNode.children : XmlNode → List XmlNode
  | .element _ children => children
  | .text .. | .comment _ | .declaration _ | .unknown _ => []

/-- Nodes are smaller than lists that they are in. -/
theorem size_lt_sizes {node : XmlNode} {siblings : List XmlNode} (member : node ∈ siblings) :
    node.size < sizes siblings := by
  induction siblings with
  | nil => cases member
  | cons first siblings ih =>
    rw [sizes]
    rcases List.mem_cons.mp member with rfl | later
    · omega
    · have smaller := ih later
      omega

instance : OrderedTree XmlNode where
  children := XmlNode.children
  size := XmlNode.size
  size_lt {child node} member := by
    cases node with
    | element name children =>
      have smaller : child.size < sizes children := size_lt_sizes member
      show child.size < sizes children + 1
      omega
    | text | comment | declaration | unknown => cases member

/-! ## Document order -/

/-- The line for a node: an element that begins with a text has one. -/
def lineOf : XmlNode → Option Line
  | .element name (.text value _ :: _) => some ⟨name, value⟩
  | _ => none

/-- The line that the loop prints for an element itself. -/
theorem lineOf_node (element : XmlElement) :
    lineOf element.node = element.getText.map fun text => ⟨element.name, text⟩ := by
  obtain ⟨name, children⟩ := element
  cases children with
  | nil => rfl
  | cons first children => cases first <;> rfl

/-- A round of the loop. -/
theorem elementValues_some (element : XmlElement) (next : List XmlNode) :
    elementValues (some (element, next)) = (lineOf element.node).toList ++
      getElementValue element ++ elementValues (elementFrom none next) := by
  rw [elementValues, lineOf_node, nextSiblingElement]
  congr 2
  · cases element.getText with
    | none => rfl
    | some text => rfl
  · by_cases empty : element.children = []
    · have noChildren : element.noChildren = true := List.isEmpty_iff.mpr empty
      have nothing : getElementValue element = [] := by
        rw [getElementValue, XmlElement.firstChildElement, empty, elementFrom, elementValues]
      rw [if_pos noChildren, nothing]
    · have some : ¬element.noChildren = true := fun none => empty (List.isEmpty_iff.mp none)
      rw [if_neg some]

/-- The loop passes over a node that is no element, and such a node contributes nothing. -/
theorem passes_over {node : XmlNode} (other : node.toElement = none) (next : List XmlNode) :
    elementFrom none (node :: next) = elementFrom none next ∧ lineOf node = none ∧
      below node = [] := by
  have childless : node.children = [] := by
    cases node with
    | element => cases other
    | text | comment | declaration | unknown => rfl
  have lineless : lineOf node = none := by
    cases node with
    | element => cases other
    | text | comment | declaration | unknown => rfl
  refine ⟨?_, lineless, ?_⟩
  · rw [elementFrom, XmlNode.toElementWithName, other]
  · rw [below_eq]
    exact congrArg (belowFrom 0) childless

/-- The loop prints what the siblings from some position on contribute to what is below their
parent. -/
theorem elementValues_eq (siblings : List XmlNode) (position : Nat) :
    elementValues (elementFrom none siblings) =
      (belowFrom position siblings).filterMap fun entry => lineOf entry.2 := by
  cases siblings with
  | nil => rw [elementFrom, elementValues, belowFrom_nil, List.filterMap_nil]
  | cons node next =>
    have later := elementValues_eq next (position + 1)
    rw [filterMap_belowFrom_cons]
    cases element : node.toElement with
    | none =>
      obtain ⟨passed, lineless, nothing⟩ := passes_over element next
      rw [passed, later, lineless, nothing]
      rfl
    | some found =>
      obtain ⟨same, smaller⟩ : node = found.node ∧ sizes found.children < node.size := by
        cases node with
        | element name children =>
          obtain rfl := Option.some.inj element
          exact ⟨rfl, Nat.lt_succ_self _⟩
        | text | comment | declaration | unknown => cases element
      -- what the recursive call prints
      have inner := elementValues_eq found.children 0
      have inside : getElementValue found =
          (below found.node).filterMap fun entry => lineOf entry.2 := by
        rw [getElementValue, below_eq]
        exact inner
      have first : elementFrom none (found.node :: next) = some (found, next) := rfl
      rw [same, first, elementValues_some, inside, later]
termination_by sizes siblings
decreasing_by
  · rw [sizes]
    omega
  · rw [sizes]
    omega

/-- `GetElementValue` prints the lines of the nodes below the element, in document order. -/
theorem getElementValue_eq (element : XmlElement) :
    getElementValue element = (below element.node).filterMap fun entry => lineOf entry.2 := by
  rw [getElementValue, below_eq]
  exact elementValues_eq element.children 0

/-- `GetElementValue` prints one line for each element below its argument that begins with a text,
and no other line; the elements are in document order. -/
theorem getElementValue_lists (element : XmlElement) :
    ∃ found, Lists element.node (fun node => (lineOf node).isSome = true) found ∧
      (getElementValue element).map some = found.map fun entry => lineOf entry.2 := by
  refine ⟨_, lists_below element.node fun node => (lineOf node).isSome, ?_⟩
  rw [getElementValue_eq]
  generalize below element.node = entries
  induction entries with
  | nil => rfl
  | cons entry entries ih =>
    cases line : lineOf entry.2 with
    | none => simpa [line] using ih
    | some printed => simpa [line] using ih

/-! ## Mixed content -/

/-- An element below a root. -/
def IsBelow (root : XmlElement) (name : Bytes) (children : List XmlNode) : Prop :=
  ∃ address, address ≠ [] ∧ nodeAt root.node address = some (.element name children)

/-- Nodes with a line are the elements that begin with a text. -/
theorem lineOf_eq_some {node : XmlNode} {line : Line} :
    lineOf node = some line ↔
      ∃ isCData rest, node = .element line.name (.text line.text isCData :: rest) := by
  constructor
  · intro same
    unfold lineOf at same
    split at same
    · obtain rfl := Option.some.inj same
      exact ⟨_, _, rfl⟩
    · cases same
  · rintro ⟨isCData, rest, rfl⟩
    rfl

/-- The lines that are printed belong to the elements below that begin with a text. -/
theorem mem_getElementValue {root : XmlElement} {line : Line} :
    line ∈ getElementValue root ↔
      ∃ isCData rest, IsBelow root line.name (.text line.text isCData :: rest) := by
  simp only [getElementValue_eq, List.mem_filterMap, lineOf_eq_some]
  constructor
  · rintro ⟨⟨address, node⟩, member, isCData, rest, rfl⟩
    exact ⟨isCData, rest, address, mem_below.mp member⟩
  · rintro ⟨isCData, rest, address, found⟩
    exact ⟨(address, _), mem_below.mpr found, isCData, rest, rfl⟩

/-- Each text that is not empty and stands in an element below the root is printed on a line with
the name of that element. -/
def LosesNothing (root : XmlElement) : Prop :=
  ∀ name children value isCData, IsBelow root name children →
    XmlNode.text value isCData ∈ children → value ≠ [] → ⟨name, value⟩ ∈ getElementValue root

/-- Each text that is not empty comes first in its element, or an element with the same name begins
with the same text. -/
def TextsComeFirst (root : XmlElement) : Prop :=
  ∀ name before value isCData after,
    IsBelow root name (before ++ XmlNode.text value isCData :: after) → value ≠ [] →
      before = [] ∨ ∃ isCData rest, IsBelow root name (.text value isCData :: rest)

/-- `GetElementValue` loses no value exactly when each text comes first in its element or is
repeated at the beginning of an element with the same name. -/
theorem losesNothing_iff (root : XmlElement) : LosesNothing root ↔ TextsComeFirst root := by
  constructor
  · intro complete name before value isCData after isBelow nonempty
    have printed := complete name _ value isCData isBelow (by simp) nonempty
    exact .inr (mem_getElementValue.mp printed)
  · intro first name children value isCData isBelow member nonempty
    obtain ⟨before, after, rfl⟩ := List.append_of_mem member
    apply mem_getElementValue.mpr
    rcases first name before value isCData after isBelow nonempty with rfl | repeated
    · exact ⟨isCData, after, isBelow⟩
    · exact repeated

/-- An element with a comment in front of its text. -/
def commentFirst : XmlElement :=
  ⟨ascii "d", [.comment (ascii "c"), .text (ascii "v") false]⟩

/-- An element with `commentFirst` as its child. -/
def commented : XmlElement := ⟨ascii "r", [commentFirst.node]⟩

/-- Nothing is printed for `commented`, and the text is lost. -/
theorem commented_losesText : getElementValue commented = [] ∧ ¬LosesNothing commented := by
  have inner : getElementValue commentFirst = [] := by
    rw [getElementValue]
    show elementValues none = []
    rw [elementValues]
  have nothing : getElementValue commented = [] := by
    rw [getElementValue]
    show elementValues (some (commentFirst, [])) = []
    rw [elementValues_some, inner]
    show elementValues none = []
    rw [elementValues]
  refine ⟨nothing, fun complete => ?_⟩
  have printed := complete (ascii "d") commentFirst.children (ascii "v") false
    ⟨[0], by decide, rfl⟩ (by simp [commentFirst]) (by decide)
  rw [nothing] at printed
  cases printed

end CppCode.TinyXml
