import Mathlib.Data.Set.Lattice

/-!
# Filters that mark positions

A filter that stores items only by marking positions answers a query by whether
every position of the queried item is marked. `Covers` is that answer, for the
items that went in: it has no false negatives, and grows with the items.
-/

namespace Ziftsieve

variable {ι π : Type} (positions : ι → Set π)

def marks (items : Set ι) : Set π := ⋃ x ∈ items, positions x

def Covers (items : Set ι) (x : ι) : Prop := positions x ⊆ marks positions items

variable {positions} {items more : Set ι} {x : ι}

theorem mem_marks {p : π} : p ∈ marks positions items ↔ ∃ x ∈ items, p ∈ positions x := by
  unfold marks; simp

theorem marks_union : marks positions (items ∪ more) = marks positions items ∪ marks positions more :=
  Set.biUnion_union _ _ _

theorem covers_of_mem (h : x ∈ items) : Covers positions items x := Set.subset_biUnion_of_mem h

end Ziftsieve
