import Ziftsieve.BitIoSound

/-!
# The reversed reader refines a plain bit string

Any sequence of reads gives the successive windows of the reversed bits, and
what remains is what the source had less what was read, for as long as that
number is one `bits_remaining` can count.
-/

namespace Ziftsieve.Zstd

namespace BitReaderReversed

/-- Reads one after the other: each value, and what remains behind it. -/
def reads : List Nat → BitReaderReversed → Opt (List (Nat × Int))
  | [], _ => pure []
  | n :: ns, r => do
    let (value, r) ← r.getBits n
    let remaining ← r.bitsRemainingIsize
    let rest ← reads ns r
    pure ((value, remaining) :: rest)

end BitReaderReversed

/-- The reads on a plain bit string, from position `p` on. -/
def plainReads (bits : List Bool) : Nat → List Nat → List (Nat × Int)
  | _, [] => []
  | p, n :: ns => (window bits p n, (bits.length : Int) - (p + n : Nat)) :: plainReads bits (p + n) ns

theorem checkedIsize_le {x y : Int} (h : checkedIsize x = .ok y) : -2 ^ 63 ≤ y := by
  unfold checkedIsize at h
  by_cases hx : -2 ^ 63 ≤ x ∧ x < 2 ^ 63
  · rw [if_pos hx] at h
    cases h
    exact hx.1
  · rw [if_neg hx] at h
    cases h

namespace BitReaderReversed

section
variable {source : Bytes} {p : Nat} {r : BitReaderReversed}

theorem Reads.bitsRemainingIsize (h : Reads source p r) (hp : p + 64 < 2 ^ 63 + 8 * source.length) :
    r.bitsRemainingIsize = .ok (8 * source.length - p) := by
  have hleft := h.bitsRemaining
  rw [h.valid.bitsRemainingIsize (by omega), hleft]

theorem Reads.reads {ns : List Nat} (h : Reads source p r) (hns : ∀ n ∈ ns, n ≤ 56)
    (hsum : p + ns.sum + 64 < 2 ^ 63 + 8 * source.length) :
    BitReaderReversed.reads ns r = .ok (plainReads (backward source) p ns) := by
  induction ns generalizing p r with
  | nil => rfl
  | cons n ns ih =>
    rw [List.sum_cons] at hsum
    obtain ⟨hn, hns⟩ := List.forall_mem_cons.mp hns
    obtain ⟨r', hget, hr'⟩ := getBits_reads h (by omega) hn
    have hleft := hr'.bitsRemainingIsize (by omega)
    have hrest := ih hr' hns (by omega)
    unfold BitReaderReversed.reads plainReads
    rw [hget, Run.ok_bind]
    simp only
    rw [hleft, Run.ok_bind, hrest, Run.ok_bind, length_backward]
    simp only [Nat.cast_mul, Nat.cast_ofNat]
    rfl

end

/-- **The reader is the reversed bit string**, as long as the bits of the source and those
read behind its end can be counted. -/
theorem reads_new_eq (source : Bytes) (hlen : source.length * 8 < 2 ^ 63) (ns : List Nat) (hns : ∀ n ∈ ns, n ≤ 56)
    (hsum : ns.sum + 64 < 2 ^ 63 + 8 * source.length) :
    (new source).bitsRemainingIsize = .ok (8 * source.length) ∧
      reads ns (new source) = .ok (plainReads (backward source) 0 ns) := by
  have hnew := reads_new hlen
  constructor
  · have h0 := hnew.bitsRemainingIsize (by omega)
    rwa [Nat.cast_zero, Int.sub_zero] at h0
  · exact hnew.reads hns (by omega)

/-- Two bytes, read beyond their end. -/
theorem reads_new_eq_twoBytes :
    plainReads (backward [0xAA, 0x55]) 0 [1, 1, 1, 4, 4, 4, 4, 4] =
        [(0, 15), (1, 14), (0, 13), (0b1010, 9), (0b1101, 5), (0b0101, 1), (0, -3), (0, -7)] ∧
      (new [0xAA, 0x55]).bitsRemainingIsize = .ok (8 * ([0xAA, 0x55] : Bytes).length) ∧
      reads [1, 1, 1, 4, 4, 4, 4, 4] (new [0xAA, 0x55]) =
        .ok (plainReads (backward [0xAA, 0x55]) 0 [1, 1, 1, 4, 4, 4, 4, 4]) :=
  ⟨by decide, reads_new_eq [0xAA, 0x55] (by decide) [1, 1, 1, 4, 4, 4, 4, 4] (by decide) (by decide)⟩

/-! ## Reads that cannot be counted -/

theorem bitsRemainingIsize_le {r : BitReaderReversed} {x : Int} (h : r.bitsRemainingIsize = .ok x) : -2 ^ 63 ≤ x := by
  unfold BitReaderReversed.bitsRemainingIsize at h
  obtain ⟨_, -, h⟩ := Run.bind_eq_ok.mp h
  obtain ⟨_, -, h⟩ := Run.bind_eq_ok.mp h
  obtain ⟨_, -, h⟩ := Run.bind_eq_ok.mp h
  exact checkedIsize_le h

theorem reads_le {ns : List Nat} {r : BitReaderReversed} {xs : List (Nat × Int)} (h : reads ns r = .ok xs) :
    ∀ x ∈ xs, -2 ^ 63 ≤ x.2 := by
  induction ns generalizing r xs with
  | nil =>
    cases h
    simp
  | cons n ns ih =>
    obtain ⟨⟨value, r'⟩, -, h⟩ := Run.bind_eq_ok.mp h
    obtain ⟨remaining, hleft, h⟩ := Run.bind_eq_ok.mp h
    obtain ⟨rest, hrest, h⟩ := Run.bind_eq_ok.mp h
    cases h
    exact List.forall_mem_cons.mpr ⟨bitsRemainingIsize_le hleft, ih hrest⟩

theorem plainReads_last (bits : List Bool) : ∀ (p : Nat) {ns : List Nat}, ns ≠ [] →
    ∃ value, (value, (bits.length : Int) - (p + ns.sum : Nat)) ∈ plainReads bits p ns
  | p, [n], _ => ⟨_, List.mem_singleton_self _⟩
  | p, n :: m :: ns, _ => by
    obtain ⟨value, hlast⟩ := plainReads_last bits (p + n) (List.cons_ne_nil m ns)
    refine ⟨value, List.mem_cons_of_mem _ ?_⟩
    rwa [List.sum_cons, ← Nat.add_assoc]

/-- Reads that count right are not more than an `isize` counts. -/
theorem sum_le_of_reads {ns : List Nat} {source : Bytes} (hne : ns ≠ [])
    (h : reads ns (new source) = .ok (plainReads (backward source) 0 ns)) : ns.sum ≤ 2 ^ 63 + 8 * source.length := by
  obtain ⟨value, hlast⟩ := plainReads_last (backward source) 0 hne
  have hle := reads_le h _ hlast
  simp only [length_backward, Nat.zero_add] at hle
  omega

/-- Reads of 56 bits each, `2 ^ 58` times, from no bytes: what remains is below every `isize`. -/
theorem reads_new_uncounted : ∃ ns : List Nat, ns = List.replicate (2 ^ 58) 56 ∧ (∀ n ∈ ns, n ≤ 56) ∧
    reads ns (new []) ≠ .ok (plainReads (backward []) 0 ns) := by
  refine ⟨_, rfl, fun n hn => Nat.le_of_eq (List.eq_of_mem_replicate hn), ?_⟩
  generalize hk : 2 ^ 58 = k
  intro h
  have hne : List.replicate k 56 ≠ [] := by
    rw [Ne, List.replicate_eq_nil_iff]
    omega
  have hle := sum_le_of_reads hne h
  rw [List.sum_replicate_nat, List.length_nil] at hle
  omega

end BitReaderReversed

end Ziftsieve.Zstd
