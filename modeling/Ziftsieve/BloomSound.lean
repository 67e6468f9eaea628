import Ziftsieve.Coverage
import Ziftsieve.Bloom

/-!
# Soundness of the bloom filter

A filter is the set of its set bits. `insert` adds the item's positions, and
`may_contain` asks whether the item's positions are all there.
-/

namespace Ziftsieve

def bloomPositions (ext : External) (numBits numHashes : Nat) (item : Bytes) : Set Nat :=
  {p | ∃ i < numHashes, nthHash (ext.fnv1a64 item) (hashFnv1aAlt item) i numBits = p}

namespace BloomFilter

def setBits (f : BloomFilter) : Set Nat := {i | f.bits[i]? = some true}

theorem mem_setBits {f : BloomFilter} {i : Nat} : i ∈ f.setBits ↔ f.bits[i]? = some true := Iff.rfl

def positions (ext : External) (f : BloomFilter) : Bytes → Set Nat := bloomPositions ext f.numBits f.numHashes

variable {ext : External}

theorem nthHash_lt_bits (f : BloomFilter) (h1 h2 : UInt64) (n : Nat) : nthHash h1 h2 n f.numBits < f.bits.length :=
  Nat.lt_of_lt_of_le (nthHash_lt h1 h2 n f.numBits_pos) f.numBits_le

theorem setAll_eq_true {g : Nat → Nat} {p : Nat} :
    ∀ (is : List Nat) (bits : List Bool), (∀ i ∈ is, g i < bits.length) →
    ((is.foldl (fun bits i => bits.set (g i) true) bits)[p]? = some true ↔
      bits[p]? = some true ∨ ∃ i ∈ is, g i = p)
  | [], _, _ => by simp
  | i :: is, bits, h => by
    have hi := h i (List.mem_cons_self ..)
    rw [List.foldl_cons, setAll_eq_true is _ (fun j hj => by
      rw [List.length_set]; exact h j (List.mem_cons_of_mem _ hj)), List.getElem?_set]
    by_cases hp : g i = p
    · subst hp; simp [hi]
    · simp [hp]

theorem setBits_insert (f : BloomFilter) (item : Bytes) :
    (f.insert ext item).setBits = f.setBits ∪ f.positions ext item := by
  ext p
  rw [Set.mem_union, mem_setBits, mem_setBits]
  unfold insert
  dsimp only
  rw [setAll_eq_true _ _ fun i _ => nthHash_lt_bits f _ _ i]
  simp only [List.mem_range]
  rfl

@[simp] theorem positions_insert (f : BloomFilter) (item : Bytes) :
    (f.insert ext item).positions ext = f.positions ext :=
  rfl

theorem mayContain_iff (f : BloomFilter) (item : Bytes) :
    f.mayContain ext item = true ↔ f.positions ext item ⊆ f.setBits := by
  have hbit : ∀ p, (f.bits[p]?).getD false = true ↔ p ∈ f.setBits := by
    intro p
    rw [mem_setBits]
    cases f.bits[p]? <;> simp
  unfold mayContain
  simp only [List.all_eq_true, List.mem_range, hbit]
  constructor
  · rintro h p ⟨i, hi, rfl⟩
    exact h i hi
  · exact fun h i hi => h ⟨i, hi, rfl⟩

theorem insertAll (f : BloomFilter) (items : List Bytes) :
    (items.foldl (insert ext) f).positions ext = f.positions ext ∧
      (items.foldl (insert ext) f).setBits = f.setBits ∪ marks (f.positions ext) {x | x ∈ items} := by
  induction items generalizing f with
  | nil => simp [marks]
  | cons x xs ih =>
    obtain ⟨h1, h2⟩ := ih (f.insert ext x)
    refine ⟨by rw [List.foldl_cons, h1, positions_insert], ?_⟩
    rw [List.foldl_cons, h2, setBits_insert, positions_insert, Set.union_assoc]
    congr 1
    ext p
    simp [mem_marks]

theorem setBits_replicate {f : BloomFilter} {n : Nat} (h : f.bits = List.replicate n false) : f.setBits = ∅ := by
  ext p
  rw [mem_setBits, h, List.getElem?_replicate]
  split <;> simp

theorem setBits_withParams (numBits numHashes : Nat) : (withParams numBits numHashes).setBits = ∅ :=
  setBits_replicate rfl

theorem setBits_new (expectedItems : Nat) (rate : Float) : (new expectedItems rate).setBits = ∅ :=
  setBits_replicate rfl

end BloomFilter

end Ziftsieve
