import Ziftsieve.BitIoSafe
import Ziftsieve.Bits

/-!
# The forward reader refines a plain bit string

What the reader gathers from a part of a byte, whole bytes and a part of the
last is the next bits of the source, lowest first.
-/

namespace Ziftsieve.Zstd

namespace BitReader

section
variable {source : Bytes} {p : Nat}

/-! ## Bytes -/

theorem toNat_eq_ofBits {i : Nat} (h : i < source.length) :
    source[i].toNat = ofBits (((bytesBits source).drop (8 * i)).take 8) := by
  have hat : At source i (source[i] :: source.drop (i + 1)) := ⟨Nat.le_of_lt h, List.drop_eq_getElem_cons h⟩
  rw [hat.bits.drop, bytesBits_cons, byteBits, List.take_left' (length_bitsLe 8 _), ofBits_bitsLe_of_lt (UInt8.toNat_lt _)]

/-- The rest of the byte that the reader is in. -/
theorem shift_eq_ofBits (h : p / 8 < source.length) :
    source[p / 8].toNat >>> (p % 8) = ofBits (((bytesBits source).drop p).take (8 - p % 8)) := by
  have hmod : p % 8 < 8 := Nat.mod_lt _ (by decide)
  have hlen : (((bytesBits source).drop (8 * (p / 8))).take 8).length = 8 := by
    rw [List.length_take, List.length_drop, length_bytesBits]
    omega
  rw [toNat_eq_ofBits h, Nat.shiftRight_eq_div_pow, ofBits_div (by omega), List.drop_take, List.drop_drop,
    Nat.div_add_mod]

theorem ofBits_take_add {bits : List Bool} {a b : Nat} (h : a ≤ bits.length) :
    ofBits (bits.take (a + b)) = ofBits (bits.take a) ||| ofBits ((bits.drop a).take b) <<< a := by
  have hlen : (bits.take a).length = a := by rw [List.length_take]; omega
  have hlt := ofBits_lt (bits.take a)
  rw [hlen] at hlt
  rw [or_shiftLeft hlt, List.take_add, ofBits_append, hlen]

theorem shiftLeft_ofBits_lt {bits : List Bool} {a b : Nat} (h : a + b ≤ 64) (hb : bits.length ≤ b) :
    ofBits bits <<< a < 2 ^ 64 := by
  have hlt := Nat.lt_of_lt_of_le (ofBits_lt bits) (Nat.pow_le_pow_right (by decide : 0 < 2) hb)
  have hpow : 2 ^ (b + a) ≤ 2 ^ 64 := Nat.pow_le_pow_right (by decide) (by omega)
  rw [Nat.shiftLeft_eq]
  refine Nat.lt_of_lt_of_le ?_ hpow
  rw [Nat.pow_add]
  exact Nat.mul_lt_mul_of_pos_right hlt (Nat.two_pow_pos a)

/-- The whole bytes between the first and the last. -/
theorem fullBytes_eq (p : Nat) (hshort : source.length * 8 < 2 ^ 64) : ∀ (k shift : Nat), (p + shift) % 8 = 0 →
    0 < shift → shift + 8 * k ≤ 64 → p + shift + 8 * k ≤ 8 * source.length →
    (List.replicate k ()).foldlM (fun s _ => fullByte source s)
      (ofBits (((bytesBits source).drop p).take shift), p + shift, shift) =
        .ok (ofBits (((bytesBits source).drop p).take (shift + 8 * k)), p + shift + 8 * k, shift + 8 * k)
  | 0, _, _, _, _, _ => rfl
  | k + 1, shift, haligned, hpos, hshift, hend => by
    have hbyte : (p + shift) / 8 < source.length := by omega
    have hbits := length_bytesBits source
    have hnext : ((bytesBits source).drop p).drop shift = (bytesBits source).drop (8 * ((p + shift) / 8)) := by
      rw [List.drop_drop]
      congr 1
      omega
    have hstep : fullByte source (ofBits (((bytesBits source).drop p).take shift), p + shift, shift) =
        .ok (ofBits (((bytesBits source).drop p).take (shift + 8)), p + shift + 8, shift + 8) := by
      have hlt : ofBits (((bytesBits source).drop (8 * ((p + shift) / 8))).take 8) <<< shift < 2 ^ 64 :=
        shiftLeft_ofBits_lt (b := 8) (by omega) (by rw [List.length_take]; exact Nat.min_le_left _ _)
      unfold fullByte
      simp only
      rw [index_eq hbyte, Run.ok_bind, shlU_eq (by omega), Run.ok_bind, addU_eq (by omega), Run.ok_bind,
        addU_eq (by omega), Run.ok_bind, toNat_eq_ofBits hbyte, Nat.mod_eq_of_lt hlt, ← hnext,
        ← ofBits_take_add (by rw [List.length_drop]; omega)]
      rfl
    rw [List.replicate_succ, List.foldlM_cons, hstep, Run.ok_bind]
    have hrest := fullBytes_eq p hshort k (shift + 8) (by omega) (by omega) (by omega) (by omega)
    rw [Nat.add_assoc p shift 8, hrest, Nat.mul_succ, Nat.add_comm (8 * k) 8, Nat.add_assoc shift, Nat.add_assoc p,
      Nat.add_assoc p, Nat.add_assoc shift]

/-! ## Reads -/

theorem getBits_eq (hshort : source.length * 8 < 2 ^ 64) {n : Nat} (hpos : 0 < n) (hn : n ≤ 64)
    (hend : p + n ≤ 8 * source.length) :
    (⟨p, source⟩ : BitReader).getBits n = .ok (ofBits (((bytesBits source).drop p).take n), ⟨p + n, source⟩) := by
  have hbits := length_bytesBits source
  have hbyte : p / 8 < source.length := by omega
  have hlen : ((bytesBits source).drop p).length = 8 * source.length - p := by rw [List.length_drop, hbits]
  unfold getBits bitsLeft
  simp only
  rw [failIf_false _ (by omega), Run.ok_bind, mulU_eq (by omega), Run.ok_bind, subU_eq (by omega), Run.ok_bind,
    failIf_false _ (by omega), Run.ok_bind, index_eq hbyte, Run.ok_bind, Nat.sub_sub_self (by omega),
    shift_eq_ofBits hbyte]
  by_cases hone : n ≤ 8 - p % 8
  · rw [if_pos hone, shlU_one (by omega), Run.ok_bind, subU_eq (Nat.two_pow_pos n), Run.ok_bind, addU_eq (by omega),
      Run.ok_bind, Nat.and_two_pow_sub_one_eq_mod, ofBits_mod (by rw [List.length_take]; omega), List.take_take,
      Nat.min_eq_left hone]
    rfl
  · obtain ⟨left, hleft⟩ : ∃ left, 8 - p % 8 = left := ⟨_, rfl⟩
    obtain ⟨full, hfull⟩ : ∃ full, (n - left) / 8 = full := ⟨_, rfl⟩
    have hwhole := fullBytes_eq p hshort full left (by omega) (by omega) (by omega) (by omega)
    rw [hleft] at hone
    rw [hleft, if_neg hone, addU_eq (by omega), Run.ok_bind]
    simp only [hfull]
    rw [hwhole, Run.ok_bind]
    simp only
    by_cases hlast : 0 < n - left - full * 8
    · have hnext : (p + left + 8 * full) / 8 < source.length := by omega
      have hdrop : ((bytesBits source).drop p).drop (left + 8 * full) =
          (bytesBits source).drop (8 * ((p + left + 8 * full) / 8)) := by
        rw [List.drop_drop]
        congr 1
        omega
      have hmask : source[(p + left + 8 * full) / 8].toNat &&& (2 ^ (n - left - full * 8) - 1) =
          ofBits ((((bytesBits source).drop p).drop (left + 8 * full)).take (n - left - full * 8)) := by
        rw [Nat.and_two_pow_sub_one_eq_mod, toNat_eq_ofBits hnext, ofBits_mod, List.take_take, hdrop,
          Nat.min_eq_left (by omega)]
        rw [List.length_take, List.length_drop]
        omega
      have hlt : ofBits ((((bytesBits source).drop p).drop (left + 8 * full)).take (n - left - full * 8)) <<<
          (left + 8 * full) < 2 ^ 64 :=
        shiftLeft_ofBits_lt (b := n - left - full * 8) (by omega) (by rw [List.length_take]; exact Nat.min_le_left _ _)
      rw [if_pos hlast, index_eq hnext, Run.ok_bind, shlU_one (by omega), Run.ok_bind, subU_eq (Nat.two_pow_pos _),
        Run.ok_bind, hmask, shlU_eq (by omega), Run.ok_bind, addU_eq (by omega), Run.ok_bind, Nat.mod_eq_of_lt hlt,
        ← ofBits_take_add (by omega), show left + 8 * full + (n - left - full * 8) = n by omega,
        show p + left + 8 * full + (n - left - full * 8) = p + n by omega]
      rfl
    · rw [if_neg hlast, show left + 8 * full = n by omega, show p + left + 8 * full = p + n by omega]
      rfl

theorem getBits_none (hshort : source.length * 8 < 2 ^ 64) (hidx : p ≤ 8 * source.length) {n : Nat}
    (h : 64 < n ∨ 8 * source.length < p + n) : (⟨p, source⟩ : BitReader).getBits n = fail () := by
  unfold getBits bitsLeft
  simp only
  by_cases hn : n > 64
  · rw [failIf_true _ hn]
    rfl
  · rw [failIf_false _ hn, Run.ok_bind, mulU_eq (by omega), Run.ok_bind, subU_eq (by omega), Run.ok_bind,
      failIf_true _ (by omega)]
    rfl

/-- A read of no bits looks at the byte it stands in. -/
theorem getBits_zero (hshort : source.length * 8 < 2 ^ 64) (hidx : p ≤ 8 * source.length) :
    (⟨p, source⟩ : BitReader).getBits 0 = if p = 8 * source.length then panic else .ok (0, ⟨p, source⟩) := by
  unfold getBits bitsLeft
  simp only
  rw [failIf_false _ (by omega), Run.ok_bind, mulU_eq (by omega), Run.ok_bind, subU_eq (by omega), Run.ok_bind,
    failIf_false _ (by omega), Run.ok_bind]
  by_cases hend : p = 8 * source.length
  · have hnone : source[p / 8]? = none := List.getElem?_eq_none (by omega)
    rw [if_pos hend, index, hnone]
    rfl
  · rw [if_neg hend, index_eq (show p / 8 < source.length by omega), Run.ok_bind, if_pos (Nat.zero_le _),
      shlU_one (by decide), Run.ok_bind, subU_eq (by decide), Run.ok_bind, addU_eq (by omega), Run.ok_bind,
      Nat.and_two_pow_sub_one_eq_mod, Nat.pow_zero, Nat.mod_one]
    rfl

end

/-! ## Calls -/

inductive Call where
  | getBits (n : Nat)
  | returnBits (n : Nat)

/-- `get_bits` and the reader behind it: a `None` leaves the reader where it was. -/
def callBits (r : BitReader) (n : Nat) : Opt (Option Nat × BitReader) :=
  match r.getBits n with
  | .ok (value, r) => .ok (some value, r)
  | .error (.err ()) => .ok (none, r)
  | .error stop => .error stop

/-- The calls one after the other: what each read gives, and the bits read in all. -/
def runCalls : List Call → BitReader → Opt (List (Option Nat) × Nat)
  | [], r => pure ([], r.bitsRead)
  | .getBits n :: calls, r => do
    let (value, r) ← r.callBits n
    let (values, read) ← runCalls calls r
    pure (value :: values, read)
  | .returnBits n :: calls, r => do
    let r ← r.returnBits n
    runCalls calls r

end BitReader

/-- The calls on a plain bit string, from position `p` on. -/
def plainCalls (bits : List Bool) : List BitReader.Call → Nat → Opt (List (Option Nat) × Nat)
  | [], p => pure ([], p)
  | .getBits n :: calls, p =>
    if 64 < n ∨ bits.length < p + n then do
      let (values, read) ← plainCalls bits calls p
      pure (none :: values, read)
    else if n = 0 ∧ p = bits.length then panic
    else do
      let (values, read) ← plainCalls bits calls (p + n)
      pure (some (ofBits ((bits.drop p).take n)) :: values, read)
  | .returnBits n :: calls, p => if n ≤ p then plainCalls bits calls (p - n) else panic

namespace BitReader

section
variable {source : Bytes}

theorem runCalls_at (hshort : source.length * 8 < 2 ^ 64) : ∀ (calls : List Call) {p : Nat}, p ≤ 8 * source.length →
    runCalls calls ⟨p, source⟩ = plainCalls (bytesBits source) calls p
  | [], _, _ => rfl
  | .getBits n :: calls, p, hidx => by
    have hbits := length_bytesBits source
    rw [runCalls, plainCalls, hbits]
    by_cases hnone : 64 < n ∨ 8 * source.length < p + n
    · rw [if_pos hnone, callBits, getBits_none hshort hidx hnone, ← runCalls_at hshort calls hidx]
      rfl
    rw [if_neg hnone]
    by_cases hzero : n = 0
    · subst hzero
      rw [callBits, getBits_zero hshort hidx]
      by_cases hend : p = 8 * source.length
      · rw [if_pos hend, if_pos ⟨rfl, hend⟩]
        rfl
      · rw [if_neg hend, if_neg (not_and.mpr fun _ => hend)]
        simp only
        rw [Run.ok_bind]
        simp only
        rw [runCalls_at hshort calls hidx]
        rfl
    · rw [if_neg (not_and.mpr fun h => absurd h hzero), callBits,
        getBits_eq hshort (by omega) (by omega) (by omega)]
      simp only
      rw [Run.ok_bind]
      simp only
      rw [runCalls_at hshort calls (by omega)]
  | .returnBits n :: calls, p, hidx => by
    rw [runCalls, plainCalls, returnBits]
    by_cases hle : n ≤ p
    · rw [if_pos hle, subU_eq hle, Run.ok_bind, Run.pure_eq, Run.ok_bind]
      exact runCalls_at hshort calls (by omega)
    · rw [if_neg hle, subU, if_neg hle]
      rfl

/-- **The reader is the bit string of its source.** Any calls give what they give on the bits: the reads that
are refused, after which the calls go on, and the calls that panic. -/
theorem runCalls_new_eq (source : Bytes) (hshort : source.length * 8 < 2 ^ 64) (calls : List Call) :
    runCalls calls (new source) = plainCalls (bytesBits source) calls 0 := runCalls_at hshort calls (Nat.zero_le _)

/-- Reads within a byte and over bytes, one of them given back in part, and one refused before the last. -/
theorem runCalls_new_eq_twoBytes :
    plainCalls (bytesBits [0xA3, 0x5C]) [.getBits 4, .getBits 7, .returnBits 2, .getBits 8, .getBits 7] 0 =
        .ok ([some 3, some 74, none, some 46], 16) ∧
      runCalls [.getBits 4, .getBits 7, .returnBits 2, .getBits 8, .getBits 7] (new [0xA3, 0x5C]) =
        plainCalls (bytesBits [0xA3, 0x5C]) [.getBits 4, .getBits 7, .returnBits 2, .getBits 8, .getBits 7] 0 :=
  ⟨by decide, runCalls_new_eq [0xA3, 0x5C] (by decide) _⟩

end

end BitReader

end Ziftsieve.Zstd
