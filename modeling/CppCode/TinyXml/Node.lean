import CppCode.Library.OrderedTree
import CppCode.Mongoose.Text

/-!
# The document tree and `GetElementValue`

A node of TinyXML-2 with what is below it, as `GetElementValue` sees it. Only elements have
children. A pointer to an element is the element with the siblings behind it, which are what the
`_next` pointers of the chain lead to. Attributes, the parent and the document are left out, since
nothing here reads them, and values are C strings.
-/

namespace CppCode.TinyXml

open Library Mongoose

/-- `XMLNode`, by the class of the node. -/
inductive XmlNode where
  /-- `XMLElement`. -/
  | element (name : Bytes) (children : List XmlNode)
  /-- `XMLText`, with `_isCData`. -/
  | text (value : Bytes) (isCData : Bool)
  /-- `XMLComment`. -/
  | comment (value : Bytes)
  /-- `XMLDeclaration`. -/
  | declaration (value : Bytes)
  /-- `XMLUnknown`. -/
  | unknown (value : Bytes)

/-- `XMLElement`. -/
structure XmlElement where
  /-- `Name`. -/
  name : Bytes
  /-- The children, from `_firstChild` on. -/
  children : List XmlNode

/-- An element as a node. -/
def XmlElement.node (element : XmlElement) : XmlNode := .element element.name element.children

/-- `XMLNode::Value`. -/
def XmlNode.value : XmlNode → Bytes
  | .element name _ => name
  | .text value _ | .comment value | .declaration value | .unknown value => value

/-- `XMLNode::ToElement`. -/
def XmlNode.toElement : XmlNode → Option XmlElement
  | .element name children => some ⟨name, children⟩
  | _ => none

/-- `XMLNode::ToText`, as a node. -/
def XmlNode.toText : XmlNode → Option XmlNode
  | .text value isCData => some (.text value isCData)
  | _ => none

/-- `XMLNode::ToElementWithName`; without a name every element will do. -/
def XmlNode.toElementWithName (name : Option Bytes) (node : XmlNode) : Option XmlElement :=
  match node.toElement with
  | none => none
  | some found =>
    match name with
    | none => some found
    | some name => if found.name = name then some found else none

/-- The loop of `FirstChildElement` and `NextSiblingElement` along the `_next` pointers: the
element, and the siblings behind it. -/
def elementFrom (name : Option Bytes) : List XmlNode → Option (XmlElement × List XmlNode)
  | [] => none
  | node :: next =>
    match node.toElementWithName name with
    | some element => some (element, next)
    | none => elementFrom name next

/-- `XMLNode::FirstChildElement`. -/
def XmlElement.firstChildElement (element : XmlElement) (name : Option Bytes) :
    Option (XmlElement × List XmlNode) :=
  elementFrom name element.children

/-- `XMLNode::NextSiblingElement`, of an element with siblings behind it. -/
def nextSiblingElement (next : List XmlNode) (name : Option Bytes) :
    Option (XmlElement × List XmlNode) :=
  elementFrom name next

/-- `XMLNode::NoChildren`. -/
def XmlElement.noChildren (element : XmlElement) : Bool := element.children.isEmpty

/-- `XMLElement::GetText`. -/
def XmlElement.getText (element : XmlElement) : Option Bytes :=
  match element.children with
  | [] => none
  | firstChild :: _ => firstChild.toText.map XmlNode.value

/-- A line that is printed: a name, a colon, and a text. -/
structure Line where
  /-- The name. -/
  name : Bytes
  /-- What stands behind the colon. -/
  text : Bytes
  deriving DecidableEq, Repr

mutual

/-- The size of a node. -/
def XmlNode.size : XmlNode → Nat
  | .element _ children => sizes children + 1
  | .text .. | .comment _ | .declaration _ | .unknown _ => 1

/-- The size of nodes. -/
def sizes : List XmlNode → Nat
  | [] => 0
  | node :: next => node.size + sizes next + 1

end

/-- What is left of a loop over siblings: the children of the element, and the siblings behind. -/
def cursorSize : Option (XmlElement × List XmlNode) → Nat
  | none => 0
  | some (element, next) => sizes element.children + sizes next + 1

/-- An element that is found in a node has its children. -/
theorem size_toElementWithName {name : Option Bytes} {node : XmlNode} {found : XmlElement}
    (same : node.toElementWithName name = some found) : sizes found.children + 1 = node.size := by
  cases node with
  | element other children =>
    simp only [XmlNode.toElementWithName, XmlNode.toElement] at same
    split at same
    · obtain rfl := Option.some.inj same
      rfl
    · split_ifs at same
      obtain rfl := Option.some.inj same
      rfl
  | text | comment | declaration | unknown => cases same

/-- An element that is found among siblings is not larger than they are, with those behind it. -/
theorem cursorSize_elementFrom (name : Option Bytes) (siblings : List XmlNode) :
    cursorSize (elementFrom name siblings) ≤ sizes siblings := by
  induction siblings with
  | nil => exact le_rfl
  | cons node next ih =>
    rw [elementFrom, sizes]
    cases found : node.toElementWithName name with
    | none => exact le_trans ih (by omega)
    | some element =>
      have inside := size_toElementWithName found
      show sizes element.children + sizes next + 1 ≤ _
      omega

mutual

/-- `GetElementValue`: the lines that it prints, in order. -/
def getElementValue (element : XmlElement) : List Line :=
  elementValues (element.firstChildElement none)
termination_by 2 * sizes element.children + 1
decreasing_by
  have smaller : cursorSize (element.firstChildElement none) ≤ sizes element.children :=
    cursorSize_elementFrom none element.children
  omega

/-- The loop of `GetElementValue`, from an element on. -/
def elementValues : Option (XmlElement × List XmlNode) → List Line
  | none => []
  | some (curElement, next) =>
    let own :=
      match curElement.getText with
      | none => []
      | some text => [⟨curElement.name, text⟩]
    let inner := if curElement.noChildren then [] else getElementValue curElement
    own ++ inner ++ elementValues (nextSiblingElement next none)
termination_by cursor => 2 * cursorSize cursor
decreasing_by
  · rw [cursorSize]
    omega
  · have smaller : cursorSize (nextSiblingElement next none) ≤ sizes next :=
      cursorSize_elementFrom none next
    show 2 * cursorSize (nextSiblingElement next none) <
      2 * (sizes curElement.children + sizes next + 1)
    omega

end

end CppCode.TinyXml
