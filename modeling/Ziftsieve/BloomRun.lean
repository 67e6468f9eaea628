import Ziftsieve.BloomSound

/-!
# Histories of a bloom filter

`insert` and `clear` in any order. The set bits are at every moment the
positions of the items inserted since the last `clear`.
-/

namespace Ziftsieve

inductive BloomOp where
  | insert (item : Bytes)
  | clear

namespace BloomFilter

/-- The filters the constructors give. The sizes `new` computes in floating point do
not matter: `sized` is a filter of any size. -/
inductive Fresh : BloomFilter → Prop
  | withParams (numBits numHashes : Nat) : Fresh (.withParams numBits numHashes)
  | new (expectedItems : Nat) (falsePositiveRate : Float) : Fresh (.new expectedItems falsePositiveRate)
  | sized {f : BloomFilter} : f.bits = List.replicate f.numBits false → Fresh f
  | fromBits {bits : List Bool} {numHashes : Nat} {f : BloomFilter} :
      (∀ b ∈ bits, b = false) → BloomFilter.fromBits bits numHashes = .ok f → Fresh f

theorem fromBits_eq_ok {bits : List Bool} {numHashes : Nat} {f : BloomFilter}
    (h : BloomFilter.fromBits bits numHashes = .ok f) : bits = f.bits ∧ f.numBits = f.bits.length := by
  unfold BloomFilter.fromBits at h
  by_cases h0 : bits.length = 0
  · rw [dif_pos h0] at h
    cases h
  · rw [dif_neg h0] at h
    cases h
    exact ⟨rfl, rfl⟩

theorem Fresh.setBits {f : BloomFilter} (h : f.Fresh) : f.setBits = ∅ := by
  cases h with
  | withParams numBits numHashes => exact setBits_withParams _ _
  | new expectedItems falsePositiveRate => exact setBits_new _ _
  | sized hbits => exact setBits_replicate hbits
  | @fromBits bits numHashes f hbits hf =>
    obtain ⟨rfl, -⟩ := fromBits_eq_ok hf
    exact setBits_replicate (List.eq_replicate_iff.mpr ⟨rfl, hbits⟩)

variable {ext : External}

def apply (ext : External) (f : BloomFilter) : BloomOp → BloomFilter
  | .insert item => f.insert ext item
  | .clear => f.clear

def run (ext : External) (f : BloomFilter) (ops : List BloomOp) : BloomFilter := ops.foldl (apply ext) f

/-- The items inserted since the last `clear`, when `items` were there before. -/
def live (items : List Bytes) : List BloomOp → List Bytes
  | [] => items
  | .insert item :: ops => live (items ++ [item]) ops
  | .clear :: ops => live [] ops

theorem live_append (items : List Bytes) (ops : List BloomOp) (op : BloomOp) :
    live items (ops ++ [op]) = live (live items ops) [op] := by
  induction ops generalizing items with
  | nil => rfl
  | cons o ops ih =>
    cases o with
    | insert item => exact ih _
    | clear => exact ih _

theorem setBits_clear (f : BloomFilter) : f.clear.setBits = ∅ := by
  have hbits : f.clear.bits = List.replicate (f.bits.length + f.numBits) false :=
    List.replicate_append_replicate
  exact setBits_replicate hbits

/-- What a step keeps: the set bits are the positions of the live items. -/
def Holds (ext : External) (items : List Bytes) (f : BloomFilter) : Prop :=
  f.setBits = marks (f.positions ext) {x | x ∈ items}

theorem Holds.apply {items : List Bytes} {f : BloomFilter} (h : Holds ext items f) (op : BloomOp) :
    Holds ext (live items [op]) (f.apply ext op) := by
  cases op with
  | insert item =>
    have hitems : {x | x ∈ items ++ [item]} = {x | x ∈ items} ∪ {x | x ∈ [item]} := by
      ext x
      simp [or_comm]
    have hone : marks (f.positions ext) {x | x ∈ [item]} = f.positions ext item := by
      ext p
      simp [mem_marks]
    unfold Holds at h ⊢
    change (f.insert ext item).setBits = marks (f.positions ext) {x | x ∈ items ++ [item]}
    rw [setBits_insert, h, hitems, marks_union, hone]
  | clear =>
    have hnone : marks (f.positions ext) {x | x ∈ ([] : List Bytes)} = ∅ := by
      ext p
      simp [mem_marks]
    exact (setBits_clear f).trans hnone.symm

/-- What every operation keeps of the live items, a run keeps. -/
theorem run_keeps {P : List Bytes → BloomFilter → Prop} (hstep : ∀ {items : List Bytes} {f : BloomFilter}, P items f →
      ∀ op, P (live items [op]) (f.apply ext op)) {f : BloomFilter} (h : P [] f) (ops : List BloomOp) :
    P (live [] ops) (f.run ext ops) := by
  induction ops using List.reverseRecOn with
  | nil => exact h
  | append_singleton ops op ih =>
    unfold BloomFilter.run at ih ⊢
    rw [live_append, List.foldl_append]
    exact hstep ih op

theorem Holds.run {f : BloomFilter} (h : Holds ext [] f) (ops : List BloomOp) :
    Holds ext (live [] ops) (f.run ext ops) := run_keeps Holds.apply h ops

theorem apply_numBits (ext : External) (f : BloomFilter) (op : BloomOp) :
    (f.apply ext op).numBits = f.numBits ∧ (f.apply ext op).numHashes = f.numHashes := by
  cases op with
  | insert item => exact ⟨rfl, rfl⟩
  | clear => exact ⟨rfl, rfl⟩

theorem run_numBits (ext : External) (f : BloomFilter) (ops : List BloomOp) :
    (f.run ext ops).numBits = f.numBits ∧ (f.run ext ops).numHashes = f.numHashes := by
  induction ops generalizing f with
  | nil => exact ⟨rfl, rfl⟩
  | cons op ops ih =>
    obtain ⟨hb, hh⟩ := ih (f.apply ext op)
    obtain ⟨hb', hh'⟩ := apply_numBits ext f op
    exact ⟨hb.trans hb', hh.trans hh'⟩

/-- **A filter's state is the set of the items inserted since the last `clear`.**
No step takes an index out of the bit vector's range. -/
theorem run_exact {f : BloomFilter} (h : f.Fresh) (ops : List BloomOp) :
    (∀ i < f.numBits, (f.run ext ops).bits[i]? = some true ↔
      ∃ x ∈ live [] ops, ∃ n < f.numHashes, nthHash (hashPair ext x).1 (hashPair ext x).2 n f.numBits = i) ∧
    (∀ item, ∀ n < (f.run ext ops).numHashes,
      nthHash (hashPair ext item).1 (hashPair ext item).2 n (f.run ext ops).numBits < (f.run ext ops).bits.length) ∧
    (∀ x ∈ live [] ops, (f.run ext ops).mayContain ext x = true) ∧
    ∀ item, (f.run ext (ops ++ [.clear])).mayContain ext item = false := by
  have hnone : marks (f.positions ext) {x | x ∈ ([] : List Bytes)} = ∅ := by
    ext p
    simp [mem_marks]
  have hholds : Holds ext (live [] ops) (f.run ext ops) := Holds.run (h.setBits.trans hnone.symm) ops
  obtain ⟨hbits, hhashes⟩ := run_numBits ext f ops
  refine ⟨?_, ?_, ?_, ?_⟩
  · intro i _
    rw [← mem_setBits, hholds, mem_marks]
    unfold positions bloomPositions
    rw [hbits, hhashes]
    rfl
  · intro item n _
    exact nthHash_lt_bits _ _ _ n
  · intro x hx
    rw [mayContain_iff, hholds]
    exact covers_of_mem hx
  · intro item
    have hclear : (f.run ext (ops ++ [.clear])).setBits = ∅ := by
      unfold BloomFilter.run
      rw [List.foldl_append]
      exact setBits_clear _
    rw [Bool.eq_false_iff, ne_eq, mayContain_iff, hclear]
    intro hsub
    -- a filter has a hash round, so an item has a position
    exact hsub ⟨0, (f.run ext (ops ++ [.clear])).numHashes_pos, rfl⟩

theorem run_exact_cleared :
    ((withParams 8 2).run .fnvOnly [.insert [1], .clear, .insert [2]]).mayContain .fnvOnly [2] = true ∧
      ((withParams 8 2).run .fnvOnly [.insert [1], .clear, .insert [2], .clear]).mayContain .fnvOnly [2] = false :=
  have h := run_exact (.withParams 8 2) [.insert [1], .clear, .insert [2]]
  ⟨h.2.2.1 [2] (by simp [live]), h.2.2.2 [2]⟩

end BloomFilter

end Ziftsieve
