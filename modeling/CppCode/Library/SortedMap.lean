import Mathlib.Data.List.Basic

/-!
# Ordered maps as ascending lists

An ordered map is the list of its entries in the order of their keys. `assign` walks to the first
entry whose key is not below the new one and replaces it or inserts before it, which keeps the
keys ascending (`Ascending.assign`); a key above all others goes to the end (`assign_above`).
Looking a key up is `List.lookup`, which in an ascending map finds exactly the entries
(`Ascending.lookup_eq_some_iff`).
-/

namespace CppCode.Library

/-- Strictly ascending keys, which an ordered map keeps. -/
def Ascending {κ α : Type} [LT κ] (entries : List (κ × α)) : Prop :=
  entries.Pairwise fun first second => first.1 < second.1

instance {κ α : Type} [LT κ] [DecidableLT κ] (entries : List (κ × α)) :
    Decidable (Ascending entries) :=
  inferInstanceAs (Decidable (entries.Pairwise fun first second => first.1 < second.1))

/-- The reference to the entry of a key, made if there is none, is assigned a value. -/
def assign {κ α : Type} [LT κ] [DecidableLT κ] [DecidableEq κ] :
    List (κ × α) → κ → α → List (κ × α)
  | [], key, value => [(key, value)]
  | (other, old) :: rest, key, value =>
    if other < key then (other, old) :: assign rest key value
    else if other = key then (key, value) :: rest
    else (key, value) :: (other, old) :: rest

section Lookup

variable {κ α β : Type} [BEq κ]

/-- Looking up in mapped values is mapping what is looked up. -/
theorem lookup_map (entries : List (κ × α)) (change : α → β) (key : κ) :
    (entries.map fun entry => (entry.1, change entry.2)).lookup key =
      (entries.lookup key).map change := by
  induction entries with
  | nil => rfl
  | cons entry entries ih =>
    rw [List.map_cons, List.lookup_cons, List.lookup_cons, ih]
    split
    · rfl
    · rfl

variable [LawfulBEq κ]

/-- What is looked up is the value of an entry with that key. -/
theorem mem_of_lookup {entries : List (κ × α)} {key : κ} {value : α}
    (found : entries.lookup key = some value) : (key, value) ∈ entries := by
  induction entries with
  | nil => cases found
  | cons entry entries ih =>
    obtain ⟨other, old⟩ := entry
    rw [List.lookup_cons] at found
    split at found
    · rename_i same
      obtain rfl : key = other := eq_of_beq same
      obtain rfl := Option.some.inj found
      exact List.mem_cons_self
    · exact List.mem_cons_of_mem _ (ih found)

end Lookup

section Keys

variable {κ α β : Type} [LT κ] {entries : List (κ × α)}

/-- The map without entries is ascending. -/
theorem Ascending.nil : Ascending ([] : List (κ × α)) := List.Pairwise.nil

/-- The entries after the first are ascending and have greater keys. -/
theorem ascending_cons {entry : κ × α} :
    Ascending (entry :: entries) ↔ (∀ other ∈ entries, entry.1 < other.1) ∧ Ascending entries :=
  List.pairwise_cons

/-- Whether keys ascend does not depend on the values. -/
theorem ascending_map {change : α → β} :
    Ascending (entries.map fun entry => (entry.1, change entry.2)) ↔ Ascending entries := by
  simp only [Ascending, List.pairwise_map]

end Keys

section Assign

variable {κ α : Type} [LT κ] [DecidableLT κ] [DecidableEq κ]

/-- The entries after an assignment are the assigned one and some of those before. -/
theorem mem_of_assign {entries : List (κ × α)} {key : κ} {value : α} {entry : κ × α}
    (member : entry ∈ assign entries key value) : entry = (key, value) ∨ entry ∈ entries := by
  induction entries with
  | nil => exact .inl (List.mem_singleton.mp member)
  | cons first entries ih =>
    obtain ⟨other, old⟩ := first
    simp only [assign] at member
    split at member
    · rcases List.mem_cons.mp member with here | later
      · exact .inr (here ▸ List.mem_cons_self)
      · exact (ih later).imp id (List.mem_cons_of_mem _)
    · split at member
      · exact (List.mem_cons.mp member).imp id (List.mem_cons_of_mem _)
      · exact List.mem_cons.mp member

/-- A key above all others is assigned at the end. -/
theorem assign_above {entries : List (κ × α)} {key : κ} (value : α)
    (above : ∀ entry ∈ entries, entry.1 < key) :
    Library.assign entries key value = entries ++ [(key, value)] := by
  induction entries with
  | nil => rfl
  | cons first entries ih =>
    obtain ⟨other, old⟩ := first
    have below : other < key := above _ List.mem_cons_self
    have later := ih fun entry member => above entry (List.mem_cons_of_mem _ member)
    rw [Library.assign, if_pos below, later]
    rfl

end Assign

section Order

variable {κ α : Type} [LE κ] [LT κ] [Std.LawfulOrderLT κ]

/-- In an ascending map a key is looked up to a value exactly when they form an entry. -/
theorem Ascending.lookup_eq_some_iff [BEq κ] [LawfulBEq κ] {entries : List (κ × α)}
    (ascending : Ascending entries) {key : κ} {value : α} :
    entries.lookup key = some value ↔ (key, value) ∈ entries := by
  refine ⟨mem_of_lookup, fun member => ?_⟩
  induction entries with
  | nil => cases member
  | cons first entries ih =>
    obtain ⟨other, old⟩ := first
    obtain ⟨above, rest⟩ := ascending_cons.mp ascending
    rw [List.lookup_cons]
    rcases List.mem_cons.mp member with here | later
    · obtain ⟨rfl, rfl⟩ := Prod.mk.inj here
      simp
    · have different : (key == other) = false := by
        refine beq_eq_false_iff_ne.mpr fun same => ?_
        have less : other < key := above _ later
        exact Std.lt_irrefl (same ▸ less)
      rw [different]
      exact ih rest later

variable [Std.IsLinearOrder κ] [DecidableLT κ] [DecidableEq κ]

/-- Assignments keep the keys ascending. -/
theorem Ascending.assign {entries : List (κ × α)} (ascending : Ascending entries) (key : κ)
    (value : α) : Ascending (assign entries key value) := by
  induction entries with
  | nil => exact List.pairwise_singleton _ _
  | cons first entries ih =>
    obtain ⟨other, old⟩ := first
    obtain ⟨above, rest⟩ := ascending_cons.mp ascending
    simp only [Library.assign]
    split
    · rename_i below
      refine ascending_cons.mpr ⟨fun entry member => ?_, ih rest⟩
      rcases mem_of_assign member with rfl | old
      · exact below
      · exact above entry old
    · rename_i notBelow
      split
      · rename_i same
        exact ascending_cons.mpr ⟨fun entry member => same ▸ above entry member, rest⟩
      · rename_i different
        have less : key < other := by
          rcases Std.lt_trichotomy other key with below | same | beyond
          · exact absurd below notBelow
          · exact absurd same different
          · exact beyond
        refine ascending_cons.mpr ⟨fun entry member => ?_, ascending⟩
        rcases List.mem_cons.mp member with rfl | later
        · exact less
        · exact Std.lt_trans less (above entry later)

end Order

end CppCode.Library
