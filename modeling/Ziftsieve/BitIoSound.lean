import Ziftsieve.BitIoSafe
import Ziftsieve.Window

/-!
# What the reversed reader reads

The bits of the source from its last byte's highest to its first byte's lowest,
and zeros from then on. A reader at `p` has given `p` of them; what its container
holds unread are the next.
-/

namespace Ziftsieve.Zstd

/-- The bits of a source in the order in which the reversed reader gives them. -/
def backward (source : Bytes) : List Bool := (bytesBits source).reverse

section
variable {source : Bytes}

@[simp] theorem length_backward (source : Bytes) : (backward source).length = 8 * source.length := by
  rw [backward, List.length_reverse, length_bytesBits]

theorem fromLe_eq_ofBits : ∀ ys : Bytes, fromLe ys = ofBits (bytesBits ys)
  | [] => rfl
  | b :: ys => by
    have hb : ofBits (byteBits b) = b.toNat := ofBits_bitsLe_of_lt b.toNat_lt
    rw [bytesBits_cons, ofBits_append, ← fromLe_eq_ofBits ys, hb, byteBits, length_bitsLe]
    rfl

theorem fromLe_zeros (ys : Bytes) (k : Nat) : fromLe (ys ++ List.replicate k 0) = fromLe ys := by
  induction ys with
  | nil =>
    induction k with
    | zero => rfl
    | succ k ih =>
      rw [List.nil_append] at ih ⊢
      simp only [List.replicate_succ, fromLe, ih]
      rfl
  | cons b ys ih => rw [List.cons_append, fromLe, fromLe, ih]

theorem window_bytes (source : Bytes) (i k : Nat) (h : i + k ≤ source.length) :
    window (backward source) (8 * (source.length - (i + k))) (8 * k) = fromLe ((source.drop i).take k) := by
  have hdrop : (bytesBits source).drop (8 * i) = bytesBits (source.drop i) := (At.bits ⟨by omega, rfl⟩).drop
  have htake : (bytesBits (source.drop i)).take (8 * k) = bytesBits ((source.drop i).take k) := by
    conv_lhs => rw [← List.take_append_drop k (source.drop i), bytesBits_append]
    rw [List.take_left']
    rw [length_bytesBits, List.length_take, List.length_drop]
    omega
  rw [backward, window_reverse _ (by rw [length_bytesBits]; omega), length_bytesBits, fromLe_eq_ofBits, ← htake, ← hdrop]
  congr 3
  omega

theorem word_mod {i consumed : Nat} (h : i + 8 ≤ source.length) (hconsumed : consumed ≤ 64) :
    fromLe ((source.drop i).take 8) % 2 ^ (64 - consumed) =
      window (backward source) (8 * (source.length - (i + 8)) + consumed) (64 - consumed) := by
  have hdown := window_mod (backward source) (8 * (source.length - (i + 8))) consumed (64 - consumed)
  rwa [show consumed + (64 - consumed) = 8 * 8 by omega, window_bytes source i 8 h] at hdown

end

namespace BitReaderReversed

structure Reads (source : Bytes) (p : Nat) (r : BitReaderReversed) : Prop where
  source_eq : r.source = source
  valid : r.Valid
  pos : p + 8 * r.index + 64 = 8 * source.length + r.bitsConsumed + r.extraBits
  word : r.bitContainer % 2 ^ (64 - r.bitsConsumed) = window (backward source) p (64 - r.bitsConsumed)

section
variable {source : Bytes} {p n : Nat} {r : BitReaderReversed}

theorem reads_new (h : source.length * 8 < 2 ^ 63) : Reads source 0 (new source) where
  source_eq := rfl
  valid := valid_new h
  pos := by simp only [new]; omega
  word := rfl

theorem Reads.bitsRemaining (h : Reads source p r) : r.bitsRemaining = 8 * source.length - p := by
  have := h.pos
  unfold BitReaderReversed.bitsRemaining
  omega

/-- Shifting out gives the container zeros from behind the end of the source. -/
theorem shiftOut_reads (hsource : r.source = source) (hindex : r.index = 0) (hshort : source.length * 8 < 2 ^ 63)
    (hlt : r.bitsConsumed < 64) (hpos : p + 64 = 8 * source.length + r.bitsConsumed + r.extraBits)
    (hextra : r.extraBits + 64 < 2 ^ 64)
    (hword : r.bitContainer % 2 ^ (64 - r.bitsConsumed) = window (backward source) p (64 - r.bitsConsumed)) :
    ∃ r', r.shiftOut = .ok r' ∧ Reads source p r' ∧ r'.bitsConsumed < 8 := by
  unfold shiftOut
  rw [shlU_eq hlt, Run.ok_bind, addU_eq (by omega), Run.ok_bind]
  refine ⟨_, rfl, ⟨hsource, ⟨Nat.zero_le _, .inr (.inr hindex), by rw [hsource]; exact hshort, ?_⟩, ?_, ?_⟩,
    Nat.zero_lt_succ 7⟩
  · simp only
    omega
  · simp only
    omega
  · have hsplit : 64 = 64 - r.bitsConsumed + r.bitsConsumed := by omega
    have hzeros : window (backward source) (p + (64 - r.bitsConsumed)) r.bitsConsumed = 0 :=
      window_past (by rw [length_backward]; omega) r.bitsConsumed
    have hmod : (2 : Nat) ^ 64 = 2 ^ (64 - r.bitsConsumed) * 2 ^ r.bitsConsumed := by rw [← Nat.pow_add, ← hsplit]
    simp only [Nat.sub_zero, Nat.mod_mod]
    calc (r.bitContainer <<< r.bitsConsumed) % 2 ^ 64
        = r.bitContainer % 2 ^ (64 - r.bitsConsumed) * 2 ^ r.bitsConsumed := by
          rw [Nat.shiftLeft_eq, hmod, Nat.mul_mod_mul_right]
      _ = window (backward source) p (64 - r.bitsConsumed + r.bitsConsumed) := by
          rw [hword, window_add, hzeros, Nat.add_zero]
      _ = window (backward source) p 64 := by rw [← hsplit]

/-- The last word is the source's first eight bytes, or all it has. -/
theorem Reads.lastWord (h : Reads source p r) (hleft : 0 < r.index) (hlast : r.index < r.bitsConsumed / 8) :
    ∃ word, (if r.source.length ≥ 8 then slice r.source 0 8
        else pure (r.source ++ List.replicate (8 - r.source.length) 0) : Opt Bytes) = .ok word ∧
      fromLe word % 2 ^ (64 - (r.bitsConsumed - 8 * r.index)) =
        window (backward source) p (64 - (r.bitsConsumed - 8 * r.index)) := by
  obtain ⟨hsource, ⟨hconsumed, hword, -, hnone⟩, hpos, -⟩ := h
  have hzero := hnone hleft
  rw [hsource] at hword ⊢
  by_cases hlen : source.length ≥ 8
  · have hmod := word_mod (show 0 + 8 ≤ source.length by omega) (show r.bitsConsumed - 8 * r.index ≤ 64 by omega)
    have hp : 8 * (source.length - (0 + 8)) + (r.bitsConsumed - 8 * r.index) = p := by omega
    rw [hp, List.drop_zero] at hmod
    refine ⟨source.take 8, ?_, hmod⟩
    unfold slice
    rw [if_pos hlen, if_pos ⟨Nat.zero_le _, hlen⟩, List.drop_zero]
  · obtain ⟨hfull, h64⟩ : r.index = source.length ∧ r.bitsConsumed = 64 := by omega
    have hwindow := window_bytes source 0 source.length (by omega)
    have hp : p = 0 := by omega
    rw [Nat.zero_add, Nat.sub_self, List.drop_zero, List.take_length] at hwindow
    refine ⟨source ++ List.replicate (8 - source.length) 0, by rw [if_neg hlen]; rfl, ?_⟩
    rw [h64, hfull, show 64 - (64 - 8 * source.length) = 8 * source.length by omega, fromLe_zeros, ← hwindow, hp,
      Nat.mod_eq_of_lt (window_lt _ _ _)]

/-- Whole bytes go, and the word moves down by them. -/
theorem Reads.slide (h : Reads source p r) (hbytes : 8 ≤ r.bitsConsumed) (hindex : r.bitsConsumed / 8 ≤ r.index) :
    ∃ word, (slice r.source (r.index - r.bitsConsumed / 8) (r.index - r.bitsConsumed / 8 + 8) : Opt Bytes) = .ok word ∧
      Reads source p { r with
        index := r.index - r.bitsConsumed / 8, bitsConsumed := r.bitsConsumed % 8, bitContainer := fromLe word } := by
  obtain ⟨hsource, ⟨hconsumed, hword, hshort, hnone⟩, hpos, -⟩ := h
  have hzero := hnone (by omega)
  rw [hsource] at hword hshort
  have hmod : r.bitsConsumed % 8 < 8 := Nat.mod_lt _ (by decide)
  refine ⟨(source.drop (r.index - r.bitsConsumed / 8)).take 8, ?_, hsource,
    ⟨?_, ?_, by rw [hsource]; exact hshort, fun _ => hzero⟩, ?_, ?_⟩
  · unfold slice
    rw [if_pos (by rw [hsource]; omega), hsource, Nat.add_sub_cancel_left]
  · simp only
    omega
  · exact .inr (.inl (by simp only [hsource]; omega))
  · simp only
    omega
  · have hp : 8 * (source.length - (r.index - r.bitsConsumed / 8 + 8)) + r.bitsConsumed % 8 = p := by omega
    simp only
    rw [word_mod (by omega) (by omega), hp]

theorem refill_reads (h : Reads source p r) (hextra : r.extraBits + 64 < 2 ^ 64) (hbytes : 8 ≤ r.bitsConsumed) :
    ∃ r', r.refill = .ok r' ∧ Reads source p r' ∧ r'.bitsConsumed < 8 := by
  have hread := h
  obtain ⟨hsource, ⟨hconsumed, hword, hshort, hnone⟩, hpos, hbits⟩ := h
  have hkeep : r.bitsConsumed &&& 7 = r.bitsConsumed % 8 := Nat.and_two_pow_sub_one_eq_mod _ 3
  rw [hsource] at hword hshort
  unfold refill
  simp only
  rw [if_neg (by omega)]
  have hchecked : ∀ {x : Opt BitReaderReversed}, (∃ r', x = .ok r' ∧ Reads source p r' ∧ r'.bitsConsumed < 8) →
      ∃ r', (x >>= fun r => if r.bitsConsumed < 8 then pure r else panic) = .ok r' ∧ Reads source p r' ∧
        r'.bitsConsumed < 8 := by
    rintro x ⟨r', hx, hr', hlt⟩
    exact ⟨r', by rw [hx, Run.ok_bind, if_pos hlt]; rfl, hr', hlt⟩
  apply hchecked
  by_cases hindex : r.index ≥ r.bitsConsumed / 8
  · obtain ⟨word, hslice, hslid⟩ := hread.slide hbytes hindex
    rw [if_pos hindex, hslice, Run.ok_bind, hkeep]
    exact ⟨_, rfl, hslid, Nat.mod_lt _ (by decide)⟩
  · rw [if_neg hindex]
    by_cases hleft : r.index > 0
    · have hmod : r.index % 2 ^ 8 = r.index := Nat.mod_eq_of_lt (by omega)
      obtain ⟨word, hlast, hwindow⟩ := hread.lastWord hleft (Nat.lt_of_not_le hindex)
      rw [if_pos hleft, hmod, mulU_eq (by omega), hlast, Run.ok_bind, Run.ok_bind, subU_eq (by omega), Run.ok_bind]
      refine shiftOut_reads
        (r := { r with bitContainer := fromLe word, bitsConsumed := r.bitsConsumed - 8 * r.index, index := 0 })
        hsource rfl hshort ?_ ?_ hextra hwindow
      · simp only
        omega
      · simp only
        omega
    · rw [if_neg hleft]
      by_cases hlt : r.bitsConsumed < 64
      · rw [if_pos hlt]
        exact shiftOut_reads hsource (by omega) hshort hlt (by omega) hextra hbits
      · rw [if_neg hlt, addU_eq (by omega), Run.ok_bind]
        refine ⟨_, rfl, ⟨hsource, ⟨Nat.zero_le _, .inr (.inr (by simp only; omega)), by rw [hsource]; exact hshort,
          ?_⟩, ?_, ?_⟩, Nat.zero_lt_succ 7⟩
        · simp only
          omega
        · simp only
          omega
        · rw [window_past (by rw [length_backward]; omega), Nat.zero_mod]

theorem peekBits_reads (h : Reads source p r) (hn : n < 64) (hfit : r.bitsConsumed + n ≤ 64) :
    r.peekBits n = .ok (window (backward source) p n) := by
  unfold peekBits
  by_cases hzero : n = 0
  · rw [if_pos hzero, hzero]
    rfl
  · have hdiv := window_div (backward source) p n (64 - r.bitsConsumed - n)
    have hsplit : (2 : Nat) ^ (64 - r.bitsConsumed) = 2 ^ (64 - r.bitsConsumed - n) * 2 ^ n := by
      rw [← Nat.pow_add]
      congr 1
      omega
    rw [show n + (64 - r.bitsConsumed - n) = 64 - r.bitsConsumed by omega, ← h.word, hsplit,
      Nat.mod_mul_right_div_self] at hdiv
    rw [if_neg hzero, shlU_one hn, Run.ok_bind, subU_eq (Nat.two_pow_pos n), Run.ok_bind, subU_eq (by omega),
      Run.ok_bind, subU_eq (by omega), Run.ok_bind, shrU_eq (by omega), Run.ok_bind,
      Nat.and_two_pow_sub_one_eq_mod, Nat.shiftRight_eq_div_pow, hdiv]
    rfl

theorem consume_reads (h : Reads source p r) (hfit : r.bitsConsumed + n ≤ 64) :
    ∃ r', r.consume n = .ok r' ∧ Reads source (p + n) r' := by
  obtain ⟨hsource, ⟨hconsumed, hword, hshort, hnone⟩, hpos, hbits⟩ := h
  unfold consume
  rw [addU_eq (by omega), Run.ok_bind, if_pos hfit]
  refine ⟨_, rfl, hsource, ⟨hfit, ?_, hshort, hnone⟩, by simp only; omega, ?_⟩
  · rcases hword with ⟨hindex, hfull⟩ | hindex
    · exact .inl ⟨hindex, by simp only; omega⟩
    · exact .inr hindex
  · have hdown := window_mod (backward source) p n (64 - (r.bitsConsumed + n))
    rw [show n + (64 - (r.bitsConsumed + n)) = 64 - r.bitsConsumed by omega, ← hbits,
      Nat.mod_mod_of_dvd _ (Nat.pow_dvd_pow 2 (by omega))] at hdown
    exact hdown

/-- **A read gives the window before the reader** and moves the reader past it, behind the
end of the source as well. -/
theorem getBits_reads (h : Reads source p r) (hp : p + 128 < 2 ^ 64 + 8 * source.length) (hn : n ≤ 56) :
    ∃ r', r.getBits n = .ok (window (backward source) p n, r') ∧ Reads source (p + n) r' := by
  have hconsumed := h.valid.consumed
  have hextra : r.extraBits + 64 < 2 ^ 64 := by
    have hpos := h.pos
    rcases Nat.eq_zero_or_pos r.index with hzero | hleft
    · omega
    · rw [h.valid.extra hleft]
      decide
  obtain ⟨r', hrefill, hr', hfit⟩ : ∃ r', (if r.bitsConsumed + n > 64 then r.refill else pure r) = .ok r' ∧
      Reads source p r' ∧ r'.bitsConsumed + n ≤ 64 := by
    by_cases hwanted : r.bitsConsumed + n > 64
    · obtain ⟨r', hr, hreads, hlt⟩ := refill_reads h hextra (by omega)
      exact ⟨r', by rw [if_pos hwanted, hr], hreads, by omega⟩
    · exact ⟨r, by rw [if_neg hwanted]; rfl, h, by omega⟩
  obtain ⟨r'', hconsume, hr''⟩ := consume_reads hr' hfit
  unfold getBits
  rw [addU_eq (by omega), Run.ok_bind, hrefill, Run.ok_bind, peekBits_reads hr' (by omega) hfit, Run.ok_bind, hconsume]
  exact ⟨r'', rfl, hr''⟩

end

end BitReaderReversed

end Ziftsieve.Zstd
