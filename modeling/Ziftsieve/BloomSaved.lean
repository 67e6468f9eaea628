import Ziftsieve.BloomRun

/-!
# Filters saved and restored

A restored filter takes its modulus from the length of the bits, so a filter is
restored as it was when its vector is as long as it says. `clear` zeroes the
vector and appends to it, and then it is not.
-/

namespace Ziftsieve.BloomFilter

/-- The filters the constructors give; `sized` stands for any sizes that `new` computes. -/
inductive Constructed : BloomFilter → Prop
  | withParams (numBits numHashes : Nat) : Constructed (.withParams numBits numHashes)
  | new (expectedItems : Nat) (falsePositiveRate : Float) : Constructed (.new expectedItems falsePositiveRate)
  | sized {f : BloomFilter} : f.bits = List.replicate f.numBits false → Constructed f
  | fromBits {bits : List Bool} {numHashes : Nat} {f : BloomFilter} :
      BloomFilter.fromBits bits numHashes = .ok f → Constructed f

theorem Constructed.length {f : BloomFilter} (h : f.Constructed) : f.bits.length = f.numBits := by
  cases h with
  | withParams numBits numHashes => exact List.length_replicate
  | new expectedItems falsePositiveRate => exact List.length_replicate
  | sized hbits => rw [hbits, List.length_replicate]
  | @fromBits bits numHashes f hf => exact (fromBits_eq_ok hf).2.symm

section
variable {ext : External} {f : BloomFilter}

/-! ## The vector's length -/

def clears : List BloomOp → Nat
  | [] => 0
  | .insert _ :: ops => clears ops
  | .clear :: ops => clears ops + 1

theorem clears_eq_zero : ∀ {ops : List BloomOp}, clears ops = 0 ↔ .clear ∉ ops
  | [] => by simp [clears]
  | .insert item :: ops => by simp [clears, clears_eq_zero]
  | .clear :: ops => by simp [clears]

theorem length_insert (item : Bytes) : (f.insert ext item).bits.length = f.bits.length := length_setAll _ _ _ _ _

theorem length_clear : f.clear.bits.length = f.bits.length + f.numBits := by
  unfold clear
  rw [List.length_append, List.length_replicate, List.length_replicate]

/-- Every `clear` adds the filter's size to the vector. -/
theorem length_run (ops : List BloomOp) :
    (f.run ext ops).bits.length = f.bits.length + clears ops * f.numBits := by
  induction ops generalizing f with
  | nil => simp [run, clears]
  | cons op ops ih =>
    have ih := ih (f := f.apply ext op)
    rw [(apply_numBits ext f op).1] at ih
    apply Eq.trans ih
    cases op with
    | insert item =>
      rw [apply, length_insert]
      rfl
    | clear =>
      rw [apply, length_clear, clears, Nat.add_mul, Nat.one_mul, Nat.add_right_comm, Nat.add_assoc]

/-! ## The items reported -/

def Reports (ext : External) (items : List Bytes) (f : BloomFilter) : Prop := ∀ x ∈ items, f.mayContain ext x = true

theorem Reports.apply {items : List Bytes} (h : Reports ext items f) (op : BloomOp) :
    Reports ext (live items [op]) (f.apply ext op) := by
  cases op with
  | clear => exact fun x hx => nomatch hx
  | insert item =>
    intro x hx
    change (f.insert ext item).mayContain ext x = true
    rw [mayContain_iff, positions_insert, setBits_insert]
    rcases List.mem_append.mp hx with hx | hx
    · exact Set.subset_union_of_subset_left ((mayContain_iff f x).mp (h x hx)) _
    · rw [List.mem_singleton.mp hx]
      exact Set.subset_union_right

theorem Reports.run (h : Reports ext [] f) (ops : List BloomOp) : Reports ext (live [] ops) (f.run ext ops) :=
  run_keeps Reports.apply h ops

/-! ## The round trip -/

/-- The bits are as many as the filter says, and a filter restored from them answers as
this one, in particular of the items inserted since the last `clear`. -/
structure RoundTrips (ext : External) (items : List Bytes) (f : BloomFilter) : Prop where
  length : f.bits.length = f.numBits
  restored : ∃ g, fromBits f.bits f.numHashes = .ok g ∧ (∀ item, g.mayContain ext item = f.mayContain ext item) ∧
    Reports ext items g

theorem clampNat_of_mem {lo hi x : Nat} (hlo : lo ≤ x) (hhi : x ≤ hi) : clampNat lo hi x = x := by
  unfold clampNat; omega

theorem fromBits_bits (h : f.bits.length = f.numBits) : fromBits f.bits f.numHashes = .ok f := by
  obtain ⟨bits, numHashes, numBits, hpos, hle, hhashes, hmax⟩ := f
  simp only at h ⊢
  subst h
  unfold fromBits
  rw [dif_neg (Nat.ne_of_gt hpos)]
  simp only [clampNat_of_mem hhashes hmax]

/-- **A filter's round trip** through its bits succeeds in exactly the runs without a `clear`. -/
theorem run_roundTrips_iff (h : f.Constructed) (ops : List BloomOp) :
    RoundTrips ext (live [] ops) (f.run ext ops) ↔ .clear ∉ ops := by
  have hlength : (f.run ext ops).bits.length = f.bits.length + clears ops * f.numBits := length_run ops
  obtain ⟨hbits, -⟩ := run_numBits ext f ops
  have hpos := f.numBits_pos
  rw [h.length] at hlength
  rw [← clears_eq_zero]
  constructor
  · intro hround
    have heq := hround.length
    rw [hlength, hbits] at heq
    rcases Nat.eq_zero_or_pos (clears ops) with hzero | hsome
    · exact hzero
    · have := Nat.le_mul_of_pos_left f.numBits hsome
      omega
  · intro hzero
    have heq : (f.run ext ops).bits.length = (f.run ext ops).numBits := by
      rw [hlength, hbits, hzero, Nat.zero_mul, Nat.add_zero]
    refine ⟨heq, f.run ext ops, fromBits_bits heq, fun _ => rfl, ?_⟩
    exact Reports.run (fun x hx => nomatch hx) ops

end

theorem run_roundTrips_inserted :
    RoundTrips .fnvOnly [[1], [2]] ((withParams 8 2).run .fnvOnly [.insert [1], .insert [2]]) :=
  (run_roundTrips_iff (.withParams 8 2) [.insert [1], .insert [2]]).mpr (by simp)

/-- After a `clear` the vector is twice as long, and the item inserted is lost on restoring. -/
theorem run_roundTrips_cleared :
    ¬ RoundTrips .fnvOnly (live [] [.clear, .insert [0]]) ((withParams 8 1).run .fnvOnly [.clear, .insert [0]]) ∧
      ∃ g, fromBits ((withParams 8 1).run .fnvOnly [.clear, .insert [0]]).bits 1 = .ok g ∧
        g.mayContain .fnvOnly [0] = false := by
  refine ⟨fun h => absurd h.length (by decide), ?_⟩
  exact ⟨_, rfl, by decide⟩

end Ziftsieve.BloomFilter
