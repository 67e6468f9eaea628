import Ziftsieve.BitIo

/-!
# The Zstd bit readers stay in range

A forward reader's position is within its source, and a read moves it on. A
reversed reader has eight bytes of its source from its index on, except at the
start and at the end; a read takes its bits off what remains, whether it refills
the container or not. The bits of a source fit in an `isize`, and what a reader
counts stays below a machine bound.
-/

namespace Ziftsieve.Zstd

/-! ## Machine arithmetic in range -/

section
variable {w a b n : Nat}

theorem addU_eq (h : a + b < 2 ^ w) : addU w a b = .ok (a + b) := if_pos h

theorem subU_eq (h : b ≤ a) : subU a b = .ok (a - b) := if_pos h

theorem mulU_eq (h : a * b < 2 ^ w) : mulU w a b = .ok (a * b) := if_pos h

theorem mulU_lt {x : Nat} (h : mulU w a b = .ok x) : a * b < 2 ^ w := by
  unfold mulU at h
  by_contra hge
  rw [if_neg hge] at h
  cases h

theorem shlU_eq (h : n < w) : shlU w a n = .ok ((a <<< n) % 2 ^ w) := if_pos h

theorem shlU_one (h : n < w) : shlU w 1 n = .ok (2 ^ n) := by
  rw [shlU_eq h, Nat.one_shiftLeft, Nat.mod_eq_of_lt (Nat.pow_lt_pow_right (by decide) h)]

theorem shrU_eq (h : n < w) : shrU w a n = .ok (a >>> n) := if_pos h

theorem index_eq {α : Type} {xs : List α} {i : Nat} (h : i < xs.length) : (index xs i : Opt α) = .ok xs[i] :=
  index_eq_ok.mpr (List.getElem?_eq_getElem h)

theorem shiftRight_lt {x k m : Nat} (hx : x < 2 ^ m) (hm : k + b = m) : x >>> k < 2 ^ b := by
  rw [Nat.shiftRight_eq_div_pow, Nat.div_lt_iff_lt_mul (Nat.two_pow_pos k), ← Nat.pow_add, Nat.add_comm, hm]
  exact hx

theorem and_mask_lt (x n : Nat) : x &&& (2 ^ n - 1) < 2 ^ n := by
  rw [Nat.and_two_pow_sub_one_eq_mod]
  exact Nat.mod_lt _ (Nat.two_pow_pos n)

end

/-! ## The forward reader -/

namespace BitReader

structure Valid (r : BitReader) : Prop where
  idx : r.idx ≤ r.source.length * 8
  short : r.source.length * 8 < 2 ^ 64

theorem valid_new {source : Bytes} (h : source.length * 8 < 2 ^ 64) : (new source).Valid := ⟨Nat.zero_le _, h⟩

/-- What a read of `n` bits does to the reader. -/
structure Past (r : BitReader) (n : Nat) (r' : BitReader) : Prop where
  source : r'.source = r.source
  idx : r'.idx = r.idx + n
  valid : r'.Valid

/-- No more than a byte is asked for at a time, so no whole byte is read between the
first and the last. -/
theorem getBits_safe {r : BitReader} (h : r.Valid) {n : Nat} (hpos : 0 < n) (hn : n ≤ 8) :
    Safe (r.getBits n) fun v => v.1 < 2 ^ n ∧ r.Past n v.2 := by
  obtain ⟨hidx, hshort⟩ := h
  unfold getBits bitsLeft
  refine Safe.failIf fun _ => ?_
  rw [mulU_eq (by omega), Run.ok_bind, subU_eq hidx, Run.ok_bind]
  refine Safe.failIf fun hleft => ?_
  have hend : r.idx + n ≤ r.source.length * 8 := by omega
  have hbyte : r.idx / 8 < r.source.length := by omega
  rw [index_eq hbyte, Run.ok_bind]
  have hmod : r.idx % 8 < 8 := Nat.mod_lt _ (by decide)
  refine Safe.ite (fun _ => ?_) fun hcross => ?_
  · rw [shlU_one (by omega), Run.ok_bind, subU_eq (Nat.two_pow_pos n), Run.ok_bind, addU_eq (by omega), Run.ok_bind]
    exact Safe.pure ⟨and_mask_lt _ n, rfl, rfl, hend, hshort⟩
  · have hfull : (n - (8 - r.idx % 8)) / 8 = 0 := Nat.div_eq_of_lt (by omega)
    have hfirst : (r.source[r.idx / 8]).toNat >>> (8 - (8 - r.idx % 8)) < 2 ^ n := by
      have hb := (r.source[r.idx / 8]).toNat_lt
      have hpow : 2 ^ (8 - r.idx % 8) ≤ 2 ^ n := Nat.pow_le_pow_right (by decide) (by omega)
      refine Nat.lt_of_lt_of_le (shiftRight_lt hb ?_) hpow
      omega
    rw [addU_eq (by omega), Run.ok_bind]
    simp only [hfull, List.replicate_zero, List.foldlM_nil, Run.pure_eq, Run.ok_bind, Nat.zero_mul, Nat.sub_zero]
    refine Safe.ite (fun hlast => ?_) fun hlast => absurd hlast (by omega)
    have hnext : (r.idx + (8 - r.idx % 8)) / 8 < r.source.length := by omega
    rw [index_eq hnext, Run.ok_bind, shlU_one (by omega), Run.ok_bind, subU_eq (Nat.two_pow_pos _), Run.ok_bind,
      shlU_eq (by omega), Run.ok_bind, addU_eq (by omega), Run.ok_bind]
    refine Safe.pure ⟨Nat.or_lt_two_pow hfirst ?_, rfl, ?_, ?_, hshort⟩
    · apply Nat.lt_of_le_of_lt (Nat.mod_le _ _)
      have hsplit : 2 ^ n = 2 ^ (n - (8 - r.idx % 8)) * 2 ^ (8 - r.idx % 8) := by
        rw [← Nat.pow_add, Nat.sub_add_cancel (by omega)]
      rw [hsplit, Nat.shiftLeft_eq]
      exact Nat.mul_lt_mul_of_pos_right (and_mask_lt _ _) (Nat.two_pow_pos _)
    · simp only
      omega
    · simp only
      omega

theorem getBits_short {r : BitReader} {n : Nat} {v : Nat × BitReader} (h : r.getBits n = .ok v) :
    r.source.length * 8 < 2 ^ 64 := by
  unfold getBits bitsLeft at h
  obtain ⟨_, -, h⟩ := Run.bind_eq_ok.mp h
  obtain ⟨_, hleft, -⟩ := Run.bind_eq_ok.mp h
  obtain ⟨_, hbits, -⟩ := Run.bind_eq_ok.mp hleft
  exact mulU_lt hbits

theorem returnBits_safe {r : BitReader} (h : r.Valid) {n : Nat} (hn : n ≤ r.idx) :
    Safe (r.returnBits n) fun r' => r'.source = r.source ∧ r'.idx = r.idx - n ∧ r'.Valid := by
  unfold returnBits
  rw [subU_eq hn, Run.ok_bind]
  exact Safe.pure ⟨rfl, rfl, Nat.le_trans (Nat.sub_le _ _) h.idx, h.short⟩

end BitReader

/-! ## The reversed reader -/

namespace BitReaderReversed

structure Valid (r : BitReaderReversed) : Prop where
  consumed : r.bitsConsumed ≤ 64
  word : (r.index = r.source.length ∧ r.bitsConsumed = 64) ∨ r.index + 8 ≤ r.source.length ∨ r.index = 0
  short : r.source.length * 8 < 2 ^ 63
  extra : 0 < r.index → r.extraBits = 0

theorem valid_new {source : Bytes} (h : source.length * 8 < 2 ^ 63) : (new source).Valid :=
  ⟨Nat.le_refl _, .inl ⟨rfl, rfl⟩, h, fun _ => rfl⟩

theorem bitsRemaining_new (source : Bytes) : (new source).bitsRemaining = source.length * 8 := by
  unfold bitsRemaining new
  simp

theorem toIsize_eq {n : Nat} (h : n < 2 ^ 63) : toIsize n = n := by
  unfold toIsize
  apply Int.bmod_eq_of_le
  · omega
  · omega

theorem checkedIsize_eq {x : Int} (h : -2 ^ 63 ≤ x ∧ x < 2 ^ 63) : checkedIsize x = .ok x := if_pos h

/-- A reader that is not too far behind its source counts what remains. -/
theorem Valid.bitsRemainingIsize {r : BitReaderReversed} (h : r.Valid) (hbehind : 64 - 2 ^ 63 < r.bitsRemaining) :
    r.bitsRemainingIsize = .ok r.bitsRemaining := by
  obtain ⟨hconsumed, hword, hshort, hnone⟩ := h
  unfold bitsRemaining at hbehind
  have hextra : r.extraBits < 2 ^ 63 := by
    rcases Nat.eq_zero_or_pos r.index with hzero | hleft
    · omega
    · rw [hnone hleft]
      decide
  unfold BitReaderReversed.bitsRemainingIsize
  rw [toIsize_eq (by omega), toIsize_eq (by omega), toIsize_eq hextra, checkedIsize_eq (by omega), Run.ok_bind,
    checkedIsize_eq (by omega), Run.ok_bind, checkedIsize_eq (by omega), Run.ok_bind, checkedIsize_eq (by omega)]
  rfl

/-- Bits shifted out count as extra ones. -/
theorem shiftOut_safe {r : BitReaderReversed} (hindex : r.index = 0) (h : r.bitsConsumed < 64)
    (hextra : r.extraBits + r.bitsConsumed < 2 ^ 64) (hshort : r.source.length * 8 < 2 ^ 63) :
    Safe r.shiftOut fun r' => r'.Valid ∧ r'.bitsConsumed < 8 ∧ r'.bitsRemaining = r.bitsRemaining := by
  unfold shiftOut
  rw [shlU_eq h, Run.ok_bind, addU_eq hextra, Run.ok_bind]
  refine Safe.pure ⟨⟨Nat.zero_le _, .inr (.inr hindex), hshort, ?_⟩, Nat.zero_lt_succ 7, ?_⟩
  · simp only
    omega
  · unfold bitsRemaining
    simp only
    omega

/-- Extra bits are what a reader has given beyond its source, so they are few as
long as it is not far behind the start. -/
theorem Valid.extraBits_lt {r : BitReaderReversed} (h : r.Valid) (hbehind : -2 ^ 16 ≤ r.bitsRemaining) :
    r.extraBits + r.bitsConsumed < 2 ^ 64 := by
  obtain ⟨hconsumed, hword, hshort, -⟩ := h
  unfold bitsRemaining at hbehind
  omega

theorem refill_safe {r : BitReaderReversed} (h : r.Valid) (hbehind : -2 ^ 16 ≤ r.bitsRemaining)
    (hbytes : 8 ≤ r.bitsConsumed) :
    Safe r.refill fun r' => r'.Valid ∧ r'.bitsConsumed < 8 ∧ r'.bitsRemaining = r.bitsRemaining := by
  have hextra := h.extraBits_lt hbehind
  obtain ⟨hconsumed, hword, hshort, hnone⟩ := h
  have hkeep : r.bitsConsumed &&& 7 = r.bitsConsumed % 8 := Nat.and_two_pow_sub_one_eq_mod _ 3
  unfold refill
  simp only
  refine Safe.ite (fun hzero => absurd hzero (by omega)) fun _ => ?_
  refine Safe.bind (Q := fun r' => r'.Valid ∧ r'.bitsConsumed < 8 ∧ r'.bitsRemaining = r.bitsRemaining) ?_
    fun r' hr' => Safe.ite (fun _ => Safe.pure hr') fun hnot => absurd hr'.2.1 hnot
  refine Safe.ite (fun hindex => ?_) fun hindex => Safe.ite (fun hpos => ?_) fun hzero =>
    Safe.ite (fun hlt => ?_) fun hge => ?_
  · -- whole bytes go, and the word moves down
    refine (slice_safe (by omega)).bind fun word _ => Safe.pure ⟨⟨?_, ?_, hshort, ?_⟩, ?_, ?_⟩
    · simp only [hkeep]
      omega
    · exact .inr (.inl (by simp only; omega))
    · exact fun _ => hnone (by omega)
    · simp only [hkeep]
      omega
    · unfold bitsRemaining
      simp only [hkeep]
      omega
  · -- the last word is the source's first eight bytes, or all it has
    have hsmall : r.index < 8 := by omega
    refine Safe.bind (Q := fun _ => True) ?_ fun word _ => ?_
    · refine Safe.ite (fun hlen => (slice_safe (by omega)).imp fun _ _ => trivial) fun _ => Safe.pure trivial
    · have hmod : r.index % 2 ^ 8 = r.index := Nat.mod_eq_of_lt (by omega)
      rw [hmod, mulU_eq (by omega), Run.ok_bind, subU_eq (by omega), Run.ok_bind]
      refine Safe.imp (shiftOut_safe rfl (by simp only; omega) (by simp only; omega) hshort) fun r' hr' =>
        ⟨hr'.1, hr'.2.1, ?_⟩
      rw [hr'.2.2]
      unfold bitsRemaining
      simp only
      omega
  · exact shiftOut_safe (by omega) hlt hextra hshort
  · rw [addU_eq hextra, Run.ok_bind]
    refine Safe.pure ⟨⟨Nat.zero_le _, .inr (.inr (by simp only; omega)), hshort, ?_⟩, Nat.zero_lt_succ 7, ?_⟩
    · exact fun hpos => absurd hpos hzero
    · unfold bitsRemaining
      simp only
      omega

theorem peekBits_safe {r : BitReaderReversed} {n : Nat} (hn : n < 64) (h : r.bitsConsumed + n ≤ 64) :
    Safe (r.peekBits n) fun v => v < 2 ^ n := by
  unfold peekBits
  refine Safe.ite (fun hzero => Safe.pure ?_) fun _ => ?_
  · rw [hzero]
    decide
  rw [shlU_one hn, Run.ok_bind, subU_eq (Nat.two_pow_pos n), Run.ok_bind, subU_eq (by omega), Run.ok_bind,
    subU_eq (by omega), Run.ok_bind, shrU_eq (by omega), Run.ok_bind]
  exact Safe.pure (and_mask_lt _ n)

theorem consume_safe {r : BitReaderReversed} {n : Nat} (h : r.Valid) (hn : r.bitsConsumed + n ≤ 64) :
    Safe (r.consume n) fun r' => r'.Valid ∧ r'.bitsRemaining = r.bitsRemaining - n := by
  obtain ⟨hconsumed, hword, hshort, hnone⟩ := h
  unfold consume
  rw [addU_eq (by omega), Run.ok_bind]
  refine Safe.ite (fun _ => Safe.pure ⟨⟨hn, ?_, hshort, hnone⟩, ?_⟩) fun hover => absurd hn hover
  · rcases hword with ⟨hindex, hfull⟩ | hindex
    · exact .inl ⟨hindex, by simp only; omega⟩
    · exact .inr hindex
  · unfold bitsRemaining
    simp only
    omega

/-- A read takes its bits off what remains. -/
theorem getBits_safe {r : BitReaderReversed} (h : r.Valid) (hbehind : -2 ^ 16 ≤ r.bitsRemaining) {n : Nat} (hn : n ≤ 56) :
    Safe (r.getBits n) fun v => v.1 < 2 ^ n ∧ v.2.Valid ∧ v.2.bitsRemaining = r.bitsRemaining - n := by
  have hconsumed := h.consumed
  unfold getBits
  rw [addU_eq (by omega), Run.ok_bind]
  refine Safe.bind (Q := fun r' => r'.Valid ∧ r'.bitsConsumed + n ≤ 64 ∧ r'.bitsRemaining = r.bitsRemaining) ?_
    fun r' hr' => ?_
  · refine Safe.ite (fun hwanted => ?_) fun hwanted => Safe.pure ⟨h, by omega, rfl⟩
    exact (refill_safe h hbehind (by omega)).imp fun r' hr' => ⟨hr'.1, by omega, hr'.2.2⟩
  · refine (peekBits_safe (by omega) hr'.2.1).bind fun value hvalue => ?_
    refine (consume_safe hr'.1 hr'.2.1).bind fun t ht => Safe.pure ⟨hvalue, ht.1, ?_⟩
    rw [ht.2, hr'.2.2]

end BitReaderReversed

end Ziftsieve.Zstd
