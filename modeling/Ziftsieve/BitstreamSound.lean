import Ziftsieve.Bits
import Ziftsieve.Bitstream
import Ziftsieve.Triples

/-!
# The bit reader is sound

A reader stands at a bit position of its data: its buffer holds the next bits,
`nextByteToPull` is the byte after them, and `bytePos` and `bitPos` are the
position divided by eight. Each read gives what stands at the position and
moves past it, at any alignment.
-/

namespace Ziftsieve.Gzip

structure Synced (data : Bytes) (p : Nat) (r : BitReader) : Prop where
  data_eq : r.data = data
  bytePos_eq : r.bytePos = p / 8
  bitPos_eq : r.bitPos = p % 8
  pulled : 8 * r.nextByteToPull = p + r.bitsInBuffer
  pull_le : r.nextByteToPull ≤ data.length
  bits_le : r.bitsInBuffer ≤ 64
  buffer_eq : r.buffer = ofBits (((bytesBits data).drop p).take r.bitsInBuffer)

section
variable {data : Bytes} {p : Nat} {r : BitReader}

theorem Synced.new {i : Nat} (h : i ≤ data.length) : Synced data (8 * i) (BitReader.new data i) where
  data_eq := rfl
  bytePos_eq := by simp only [BitReader.new]; omega
  bitPos_eq := by simp only [BitReader.new]; omega
  pulled := rfl
  pull_le := h
  bits_le := Nat.zero_le _
  buffer_eq := by simp only [BitReader.new, List.take_zero, ofBits]

theorem Synced.bitOffset (h : Synced data p r) : r.bitOffset = p := by
  unfold BitReader.bitOffset
  rw [h.bytePos_eq, h.bitPos_eq]; omega

theorem Synced.remainingBytes {i : Nat} (h : Synced data (8 * i) r) : r.remainingBytes = data.length - i := by
  have hp := h.pulled
  have hl := h.pull_le
  unfold BitReader.remainingBytes
  rw [h.data_eq]; omega

theorem Synced.buffer_lt (h : Synced data p r) : r.buffer < 2 ^ r.bitsInBuffer := by
  have hlt := ofBits_lt (((bytesBits data).drop p).take r.bitsInBuffer)
  rw [← h.buffer_eq] at hlt
  exact Nat.lt_of_lt_of_le hlt (Nat.pow_le_pow_right (by decide) (List.length_take_le _ _))

/-! ## Filling the buffer -/

theorem Synced.pull {b : UInt8} (h : Synced data p r) (hb : data[r.nextByteToPull]? = some b)
    (h56 : r.bitsInBuffer ≤ 56) :
    Synced data p { r with
      buffer := r.buffer ||| (b.toNat <<< r.bitsInBuffer) % 2 ^ 64
      nextByteToPull := r.nextByteToPull + 1
      bitsInBuffer := r.bitsInBuffer + 8 } := by
  obtain ⟨hlt, hget⟩ := List.getElem?_eq_some_iff.mp hb
  have hp := h.pulled
  have hbyte : b.toNat < 2 ^ 8 := b.toNat_lt
  have hshift : (b.toNat <<< r.bitsInBuffer) % 2 ^ 64 = 2 ^ r.bitsInBuffer * b.toNat := by
    rw [Nat.shiftLeft_eq, Nat.mul_comm]
    apply Nat.mod_eq_of_lt
    calc 2 ^ r.bitsInBuffer * b.toNat
        < 2 ^ r.bitsInBuffer * 2 ^ 8 := Nat.mul_lt_mul_of_pos_left hbyte (Nat.two_pow_pos _)
      _ = 2 ^ (r.bitsInBuffer + 8) := (Nat.pow_add _ _ _).symm
      _ ≤ 2 ^ 64 := Nat.pow_le_pow_right (by decide) (by omega)
  have htake : ((bytesBits data).drop p).take (r.bitsInBuffer + 8) =
      ((bytesBits data).drop p).take r.bitsInBuffer ++ byteBits b := by
    have hat : At data r.nextByteToPull (b :: data.drop (r.nextByteToPull + 1)) :=
      ⟨Nat.le_of_lt hlt, by rw [List.drop_eq_getElem_cons hlt, hget]⟩
    have hl : (byteBits b).length = 8 := length_bitsLe 8 _
    rw [List.take_add, List.drop_drop, ← hp, hat.bits.drop, bytesBits_cons, ← hl, List.take_left]
  have hlen : (((bytesBits data).drop p).take r.bitsInBuffer).length = r.bitsInBuffer := by
    rw [List.length_take, List.length_drop, length_bytesBits]; omega
  exact {
    data_eq := h.data_eq
    bytePos_eq := h.bytePos_eq
    bitPos_eq := h.bitPos_eq
    pulled := by simp only; omega
    pull_le := hlt
    bits_le := by simp only; omega
    buffer_eq := by
      simp only
      rw [hshift, htake, ofBits_append, hlen, ← h.buffer_eq, byteBits, ofBits_bitsLe_of_lt hbyte, Nat.or_comm,
        ← Nat.two_pow_add_eq_or_of_lt h.buffer_lt, Nat.add_comm] }

theorem Synced.refillLoop : ∀ {n : Nat} {r : BitReader}, Synced data p r → Synced data p (BitReader.refillLoop n r) ∧
    (56 < (BitReader.refillLoop n r).bitsInBuffer ∨ (BitReader.refillLoop n r).nextByteToPull = data.length ∨
      r.bitsInBuffer + 8 * n ≤ (BitReader.refillLoop n r).bitsInBuffer)
  | 0, _, h => ⟨h, .inr (.inr (Nat.le_refl _))⟩
  | n + 1, r, h => by
    rw [BitReader.refillLoop]
    cases hb : r.data[r.nextByteToPull]? with
    | none =>
      have hle := h.pull_le
      have hge := List.getElem?_eq_none_iff.mp hb
      rw [h.data_eq] at hge
      exact ⟨h, .inr (.inl (Nat.le_antisymm hle hge))⟩
    | some b =>
      by_cases h56 : r.bitsInBuffer ≤ 56
      · simp only [if_pos h56]
        obtain ⟨hs, hc⟩ := Synced.refillLoop (n := n) (h.pull (h.data_eq ▸ hb) h56)
        refine ⟨hs, hc.imp_right (Or.imp_right fun hle => ?_)⟩
        simp only at hle
        omega
      · simp only [if_neg h56]
        exact ⟨h, .inl (by omega)⟩

/-- Eight turns are enough to run the loop to its end. -/
theorem Synced.refill (h : Synced data p r) :
    Synced data p r.refill ∧ (56 < r.refill.bitsInBuffer ∨ r.refill.nextByteToPull = data.length) := by
  obtain ⟨hs, hc⟩ := Synced.refillLoop (n := 8) h
  refine ⟨hs, ?_⟩
  rcases hc with h1 | h1 | h1
  · exact .inl h1
  · exact .inr h1
  · exact .inl (by unfold BitReader.refill; omega)

theorem Synced.full {k : Nat} (h : Synced data p r) (hk : k ≤ 32) (hbits : p + k ≤ 8 * data.length) :
    Synced data p (if r.bitsInBuffer < k then r.refill else r) ∧
      k ≤ (if r.bitsInBuffer < k then r.refill else r).bitsInBuffer := by
  by_cases hlt : r.bitsInBuffer < k
  · simp only [if_pos hlt]
    obtain ⟨hs, hc⟩ := h.refill
    have hp := hs.pulled
    exact ⟨hs, by omega⟩
  · simp only [if_neg hlt]
    exact ⟨h, by omega⟩

theorem Synced.takeBits {k : Nat} (h : Synced data p r) (hk : k ≤ r.bitsInBuffer) :
    (r.takeBits k).1 = ofBits (((bytesBits data).drop p).take k) ∧ Synced data (p + k) (r.takeBits k).2 := by
  have hp := h.pulled
  have hl := h.pull_le
  have h64 := h.bits_le
  have hb := h.bytePos_eq
  have hbp := h.bitPos_eq
  have hlen : k ≤ (((bytesBits data).drop p).take r.bitsInBuffer).length := by
    rw [List.length_take, List.length_drop, length_bytesBits]; omega
  constructor
  · unfold BitReader.takeBits
    simp only
    rw [Nat.one_shiftLeft, Nat.and_two_pow_sub_one_eq_mod, h.buffer_eq, ofBits_mod hlen, List.take_take,
      Nat.min_eq_left hk]
  · exact {
      data_eq := h.data_eq
      bytePos_eq := by simp only [BitReader.takeBits]; omega
      bitPos_eq := by simp only [BitReader.takeBits]; omega
      pulled := by simp only [BitReader.takeBits]; omega
      pull_le := hl
      bits_le := by simp only [BitReader.takeBits]; omega
      buffer_eq := by
        simp only [BitReader.takeBits]
        rw [Nat.shiftRight_eq_div_pow, h.buffer_eq, ofBits_div hlen, List.drop_take, List.drop_drop] }

end

/-! ## Steps -/

section
variable {α : Type} {P Q : BitReader → Prop} {a : α}

theorem yields_lift {x : Run ZiftError α} (h : x = .ok a) : Yields P (lift x) a P := fun r hr => ⟨r, by rw [h]; rfl, hr⟩

theorem yields_withReader {f : BitReader → Read α} (h : ∀ r, P r → Yields P (f r) a Q) : Yields P (withReader f) a Q :=
  fun r hr => h r hr r hr

theorem rejects_withReader {f : BitReader → Read α} (h : ∀ r, P r → Rejects P (f r)) : Rejects P (withReader f) :=
  fun r hr => h r hr r hr

end

section
variable {data : Bytes} {p : Nat} {w rest : List Bool}

theorem readBits_yields (hk : w.length ≤ 32) (h : At (bytesBits data) p (w ++ rest)) :
    Yields (Synced data p) (readBits w.length) (ofBits w) (Synced data (p + w.length)) := by
  intro r hr
  have hl := h.length
  rw [length_bytesBits, List.length_append] at hl
  unfold readBits
  by_cases h0 : w.length = 0
  · rw [if_pos h0, h0, List.length_eq_zero_iff.mp h0]
    exact ⟨r, rfl, hr⟩
  · obtain ⟨hs, hn⟩ := hr.full hk (by omega)
    obtain ⟨hv, ht⟩ := hs.takeBits hn
    rw [if_neg h0, if_neg (by omega), if_neg (by omega)]
    rw [h.drop, List.take_left] at hv
    exact ⟨_, by rw [← hv], ht⟩

theorem readBitsU8_yields (hk : w.length ≤ 8) (h : At (bytesBits data) p (w ++ rest)) :
    Yields (Synced data p) (readBitsU8 w.length) (ofBits w) (Synced data (p + w.length)) := by
  have hlt : ofBits w < 2 ^ 8 := Nat.lt_of_lt_of_le (ofBits_lt w) (Nat.pow_le_pow_right (by decide) hk)
  refine (readBits_yields (by omega) h).bind ?_
  rw [if_neg (by omega)]
  exact Yields.pure

theorem readBit_yields {b : Bool} (h : At (bytesBits data) p (b :: rest)) :
    Yields (Synced data p) readBit b.toNat (Synced data (p + 1)) := by
  have hb := readBitsU8_yields (w := [b]) (Nat.le_of_ble_eq_true rfl) h
  rw [show ofBits [b] = b.toNat from Nat.add_zero _] at hb
  exact hb

theorem alignToByte_yields (hpad : w.length = padTo8 p) (h : At (bytesBits data) p (w ++ rest)) :
    Yields (Synced data p) alignToByte () (Synced data (p + w.length)) := by
  unfold padTo8 at hpad
  refine yields_withReader fun r hr => ?_
  rw [hr.bitPos_eq]
  by_cases h0 : p % 8 = 0
  · have hn : w.length = 0 := by omega
    rw [if_neg (by omega), hn]
    exact Yields.pure
  · have hn : 8 - p % 8 = w.length := by omega
    rw [if_pos h0, hn]
    exact (readBits_yields (by omega) h).bind Yields.pure

/-! ## Whole bytes -/

section
variable {n : Nat} (hp : p % 8 = 0)
include hp

theorem readU8_yields (hn : n < 2 ^ 8) (h : At (bytesBits data) p (bitsLe 8 n ++ rest)) :
    Yields (Synced data p) readU8 n (Synced data (p + 8)) := by
  have hr8 := readBitsU8_yields (by rw [length_bitsLe]) h
  rw [length_bitsLe, ofBits_bitsLe_of_lt hn] at hr8
  refine yields_withReader fun r hr => ?_
  rw [hr.bitPos_eq, if_neg (by omega)]
  exact hr8

theorem peekU8_yields (hn : n < 2 ^ 8) (h : At (bytesBits data) p (bitsLe 8 n ++ rest)) :
    Yields (Synced data p) peekU8 n (Synced data p) := by
  intro r hr
  have hl := h.length
  rw [length_bytesBits, List.length_append, length_bitsLe] at hl
  obtain ⟨hs, hfull⟩ := hr.full (k := 8) (by decide) (by omega)
  have hlen :
      8 ≤ (((bytesBits data).drop p).take (if r.bitsInBuffer < 8 then r.refill else r).bitsInBuffer).length := by
    rw [List.length_take, List.length_drop, length_bytesBits]; omega
  have htake : (bitsLe 8 n ++ rest).take 8 = bitsLe 8 n := List.take_left' (length_bitsLe 8 n)
  unfold peekU8
  rw [if_neg (by rw [hr.bitPos_eq]; omega)]
  simp only
  rw [if_neg (by omega), show (0xFF : Nat) = 2 ^ 8 - 1 from rfl, Nat.and_two_pow_sub_one_eq_mod, hs.buffer_eq,
    ofBits_mod hlen, List.take_take, Nat.min_eq_left hfull, h.drop, htake, ofBits_bitsLe_of_lt hn]
  exact ⟨_, rfl, hs⟩

theorem readU16Le_yields (hn : n < 2 ^ 16) (h : At (bytesBits data) p (bitsLe 16 n ++ rest)) :
    Yields (Synced data p) readU16Le n (Synced data (p + 16)) := by
  rw [show (16 : Nat) = 8 + 8 from rfl, bitsLe_add, ← bitsLe_mod 8 n, List.append_assoc] at h
  have hhi := h.skip
  rw [length_bitsLe] at hhi
  refine (readU8_yields hp (Nat.mod_lt _ (by decide)) h).bind ?_
  refine (readU8_yields (by omega) (by omega) hhi).bind ?_
  rw [show n % 2 ^ 8 + 256 * (n / 2 ^ 8) = n by omega]
  exact Yields.pure

theorem readU32Le_yields (hn : n < 2 ^ 32) (h : At (bytesBits data) p (bitsLe 32 n ++ rest)) :
    Yields (Synced data p) readU32Le n (Synced data (p + 32)) := by
  rw [show (32 : Nat) = 16 + 16 from rfl, bitsLe_add, ← bitsLe_mod 16 n, List.append_assoc] at h
  have hhi := h.skip
  rw [length_bitsLe] at hhi
  have hlo : n % 2 ^ 16 < 2 ^ 16 := Nat.mod_lt _ (by decide)
  refine (readU16Le_yields hp hlo h).bind ?_
  refine (readU16Le_yields (by omega) (by omega) hhi).bind ?_
  rw [or_shiftLeft hlo, Nat.mod_add_div]
  exact Yields.pure

theorem readBytes_yields {ys : Bytes} (h : At (bytesBits data) p (bytesBits ys ++ rest)) :
    Yields (Synced data p) (readBytes ys.length) ys (Synced data (p + 8 * ys.length)) := by
  intro r hr
  have h8 : p = 8 * (p / 8) := by omega
  rw [h8] at h
  obtain ⟨zs, hat⟩ := h.bytes
  have hl := hat.length
  rw [List.length_append] at hl
  have hnew : Synced data (8 * (p / 8 + ys.length)) (BitReader.new data (p / 8 + ys.length)) := Synced.new (by omega)
  unfold readBytes
  rw [if_neg (by rw [hr.bitPos_eq]; omega)]
  simp only [hr.bytePos_eq, hr.data_eq]
  rw [if_neg (by omega), hat.slice rfl]
  refine ⟨_, rfl, ?_⟩
  rw [show p + 8 * ys.length = 8 * (p / 8 + ys.length) by omega]
  exact hnew

theorem skipBytes_yields {ys : Bytes} (h : At (bytesBits data) p (bytesBits ys ++ rest)) :
    Yields (Synced data p) (skipBytes ys.length) () (Synced data (p + 8 * ys.length)) :=
  (readBytes_yields hp h).bind Yields.pure

end

end

end Ziftsieve.Gzip
