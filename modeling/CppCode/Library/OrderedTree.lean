import Mathlib.Data.List.Basic
import Mathlib.Data.List.Sort

/-!
# Trees and document order

A tree is a type of nodes with an ordered list of children and a size that falls from a node to its
children. A node below another one has an address there, which is the list of the positions to
take on the way down. Document order is the lexicographic order of the addresses, in which a node
comes before everything below it. `below` lists what is below a node, each node once and in that
order (`lists_below`), and there is only one list that does (`Lists.unique`).
-/

namespace CppCode.Library

/-- Nodes with ordered children. -/
class OrderedTree (ν : Type) where
  /-- The children of a node. -/
  children : ν → List ν
  /-- The size of a node. -/
  size : ν → Nat
  /-- Children are smaller. -/
  size_lt {child node : ν} (member : child ∈ children node) : size child < size node

section OrderedTree

variable {ν : Type} [OrderedTree ν]

/-- The node at an address. -/
def nodeAt : ν → List Nat → Option ν
  | node, [] => some node
  | node, position :: address =>
    match (OrderedTree.children node)[position]? with
    | none => none
    | some child => nodeAt child address

/-- What is below a node, with the addresses: the children in their order, each of them before what
is below it. -/
def below (node : ν) : List (List Nat × ν) :=
  (OrderedTree.children node).attach.zipIdx.flatMap fun (child, position) =>
    ([position], child.1) ::
      (below child.1).map fun (address, found) => (position :: address, found)
termination_by OrderedTree.size node
decreasing_by exact OrderedTree.size_lt child.2

/-- What siblings from a position on contribute to what is below their parent. -/
def belowFrom (position : Nat) (siblings : List ν) : List (List Nat × ν) :=
  (siblings.zipIdx position).flatMap fun (child, position) =>
    ([position], child) :: (below child).map fun (address, found) => (position :: address, found)

/-- What is below a node is what its children contribute. -/
theorem below_eq (node : ν) : below node = belowFrom 0 (OrderedTree.children node) := by
  rw [below, belowFrom]
  conv_rhs => rw [← List.attach_map_subtype_val (OrderedTree.children node), List.zipIdx_map,
    List.flatMap_map]
  rfl

/-- No siblings contribute nothing. -/
theorem belowFrom_nil (position : Nat) : belowFrom position ([] : List ν) = [] := rfl

/-- The first sibling, what is below it, and the other siblings. -/
theorem belowFrom_cons (position : Nat) (child : ν) (siblings : List ν) :
    belowFrom position (child :: siblings) = ([position], child) ::
      ((below child).map fun entry => (position :: entry.1, entry.2)) ++
        belowFrom (position + 1) siblings := rfl

/-- What is found among siblings by a test of the nodes does not depend on the position, and is
found at the first sibling, below it, and at the others. -/
theorem filterMap_belowFrom_cons {β : Type} (test : ν → Option β) (position : Nat) (child : ν)
    (siblings : List ν) :
    (belowFrom position (child :: siblings)).filterMap (fun entry => test entry.2) =
      (test child).toList ++ (below child).filterMap (fun entry => test entry.2) ++
        (belowFrom (position + 1) siblings).filterMap (fun entry => test entry.2) := by
  rw [belowFrom_cons, List.cons_append, List.filterMap_cons, List.filterMap_append,
    List.filterMap_map]
  cases test child with
  | none => rfl
  | some found => rfl

/-! ## Membership -/

/-- The nodes that siblings contribute stand at or below one of them. -/
theorem mem_belowFrom {position : Nat} {siblings : List ν} {entry : List Nat × ν} :
    entry ∈ belowFrom position siblings ↔ ∃ index child address,
      siblings[index]? = some child ∧ entry.1 = (position + index) :: address ∧
        (address = [] ∧ entry.2 = child ∨ (address, entry.2) ∈ below child) := by
  simp only [belowFrom, List.mem_flatMap, List.mem_cons, List.mem_map]
  constructor
  · rintro ⟨⟨child, place⟩, member, found⟩
    obtain ⟨index, rfl, stands⟩ : ∃ index, place = position + index ∧
        siblings[index]? = some child := by
      have stands := List.mk_mem_zipIdx_iff_le_and_getElem?_sub.mp member
      exact ⟨place - position, by omega, stands.2⟩
    rcases found with rfl | ⟨⟨address, node⟩, inside, rfl⟩
    · exact ⟨index, child, [], stands, rfl, .inl ⟨rfl, rfl⟩⟩
    · exact ⟨index, child, address, stands, rfl, .inr inside⟩
  · rintro ⟨index, child, address, stands, shape, found⟩
    refine ⟨(child, position + index), ?_, ?_⟩
    · apply List.mk_mem_zipIdx_iff_le_and_getElem?_sub.mpr
      exact ⟨Nat.le_add_right _ _, by simpa using stands⟩
    · rcases found with ⟨rfl, same⟩ | inside
      · exact .inl (Prod.ext shape same)
      · exact .inr ⟨(address, entry.2), inside, Prod.ext shape.symm rfl⟩

/-- What is listed below a node are the nodes at the addresses other than its own. -/
theorem mem_below {node found : ν} {address : List Nat} :
    (address, found) ∈ below node ↔ address ≠ [] ∧ nodeAt node address = some found := by
  induction address generalizing node with
  | nil =>
    rw [below_eq, mem_belowFrom]
    simp
  | cons position address ih =>
    rw [below_eq, mem_belowFrom]
    simp only [Nat.zero_add, List.cons.injEq, ne_eq, reduceCtorEq, not_false_eq_true, true_and]
    rw [nodeAt]
    constructor
    · rintro ⟨index, child, later, stands, ⟨rfl, rfl⟩, found⟩
      rw [stands]
      rcases found with ⟨rfl, rfl⟩ | inside
      · rfl
      · exact (ih.mp inside).2
    · intro found
      cases stands : (OrderedTree.children node)[position]? with
      | none =>
        rw [stands] at found
        cases found
      | some child =>
        rw [stands] at found
        refine ⟨position, child, address, stands, ⟨rfl, rfl⟩, ?_⟩
        by_cases here : address = []
        · obtain rfl := here
          exact .inl ⟨rfl, (Option.some.inj found).symm⟩
        · exact .inr (ih.mpr ⟨here, found⟩)

/-! ## Order -/

/-- What siblings contribute has addresses from their position on. -/
theorem le_of_mem_belowFrom {position : Nat} {siblings : List ν} {entry : List Nat × ν}
    (member : entry ∈ belowFrom position siblings) :
    ∃ place address, entry.1 = place :: address ∧ position ≤ place := by
  obtain ⟨index, -, address, -, shape, -⟩ := mem_belowFrom.mp member
  exact ⟨_, address, shape, Nat.le_add_right _ _⟩

/-- If what is below each sibling is in document order, so is what the siblings contribute. -/
theorem belowFrom_sorted {siblings : List ν}
    (each : ∀ child ∈ siblings,
      (below child).Pairwise fun first second => first.1 < second.1) (position : Nat) :
    (belowFrom position siblings).Pairwise fun first second => first.1 < second.1 := by
  induction siblings generalizing position with
  | nil => exact List.Pairwise.nil
  | cons child siblings ih =>
    obtain ⟨first, others⟩ := List.forall_mem_cons.mp each
    rw [belowFrom_cons, List.cons_append, List.pairwise_cons, List.pairwise_append]
    refine ⟨?_, ?_, ih others _, ?_⟩
    · -- the child comes before what is below it and before its siblings
      intro entry member
      rcases List.mem_append.mp member with inside | later
      · obtain ⟨⟨address, found⟩, under, rfl⟩ := List.mem_map.mp inside
        obtain ⟨step, rest, rfl⟩ := List.exists_cons_of_ne_nil (mem_below.mp under).1
        exact List.cons_lt_cons_iff.mpr (.inr ⟨rfl, List.nil_lt_cons _ _⟩)
      · obtain ⟨place, address, shape, after⟩ := le_of_mem_belowFrom later
        rw [shape]
        exact List.cons_lt_cons_iff.mpr (.inl after)
    · rw [List.pairwise_map]
      exact first.imp fun before => List.cons_lt_cons_iff.mpr (.inr ⟨rfl, before⟩)
    · intro entry inside other later
      obtain ⟨⟨address, found⟩, -, rfl⟩ := List.mem_map.mp inside
      obtain ⟨place, rest, shape, after⟩ := le_of_mem_belowFrom later
      rw [shape]
      exact List.cons_lt_cons_iff.mpr (.inl after)

/-- What is below a node is listed in document order. -/
theorem below_sorted (node : ν) :
    (below node).Pairwise fun first second => first.1 < second.1 := by
  rw [below_eq]
  exact belowFrom_sorted (fun child _ => below_sorted child) 0
termination_by OrderedTree.size node
decreasing_by exact OrderedTree.size_lt ‹_›

/-! ## Lists of nodes -/

/-- The nodes below a root that have a property, in document order: the addresses ascend, and the
entries are exactly these nodes with their addresses. -/
structure Lists (root : ν) (property : ν → Prop) (found : List (List Nat × ν)) : Prop where
  /-- The addresses ascend. -/
  ascend : found.Pairwise fun first second => first.1 < second.1
  /-- The entries are the nodes below the root that have the property. -/
  mem_iff : ∀ address node, (address, node) ∈ found ↔
    address ≠ [] ∧ nodeAt root address = some node ∧ property node

/-- What is below a root and passes a test is listed in document order. -/
theorem lists_below (root : ν) (test : ν → Bool) :
    Lists root (fun node => test node = true)
      ((below root).filter fun entry => test entry.2) where
  ascend := (below_sorted root).filter _
  mem_iff := by
    intro address node
    rw [List.mem_filter, mem_below, and_assoc]

/-- There is one list of the nodes with a property in document order. -/
theorem Lists.unique {root : ν} {property : ν → Prop} {first second : List (List Nat × ν)}
    (left : Lists root property first) (right : Lists root property second) : first = second := by
  have irreflexive (address : List Nat) : ¬address < address := List.lt_irrefl address
  have distinct {found : List (List Nat × ν)} (lists : Lists root property found) :
      found.Nodup := by
    refine lists.ascend.imp fun before same => ?_
    rw [same] at before
    exact irreflexive _ before
  have same : first.Perm second := by
    refine (List.perm_ext_iff_of_nodup (distinct left) (distinct right)).mpr fun entry => ?_
    exact (left.mem_iff entry.1 entry.2).trans (right.mem_iff entry.1 entry.2).symm
  refine same.eq_of_pairwise (fun _ _ _ _ before after => ?_) left.ascend right.ascend
  exact absurd (List.lt_trans before after) (irreflexive _)

end OrderedTree

end CppCode.Library
