import Ziftsieve.Cursor

/-!
# Bit strings

Numbers and bytes as lists of bits, least significant bit first: the order in
which a byte stream holds the fields of a bit-packed format.
-/

namespace Ziftsieve

/-- The `k` low bits of `n`. -/
def bitsLe : Nat → Nat → List Bool
  | 0, _ => []
  | k + 1, n => decide (n % 2 = 1) :: bitsLe k (n / 2)

def ofBits : List Bool → Nat
  | [] => 0
  | b :: bs => b.toNat + 2 * ofBits bs

@[simp] theorem length_bitsLe : ∀ k n : Nat, (bitsLe k n).length = k
  | 0, _ => rfl
  | k + 1, n => by rw [bitsLe, List.length_cons, length_bitsLe k]

theorem ofBits_bitsLe : ∀ k n : Nat, ofBits (bitsLe k n) = n % 2 ^ k
  | 0, n => by rw [Nat.pow_zero, Nat.mod_one]; rfl
  | k + 1, n => by
    have hb : (decide (n % 2 = 1)).toNat = n % 2 := by
      rcases Nat.mod_two_eq_zero_or_one n with h | h <;> simp [h]
    rw [bitsLe, ofBits, ofBits_bitsLe k, hb, Nat.pow_succ, Nat.mul_comm (2 ^ k), Nat.mod_mul]

theorem ofBits_bitsLe_of_lt {k n : Nat} (h : n < 2 ^ k) : ofBits (bitsLe k n) = n := by
  rw [ofBits_bitsLe, Nat.mod_eq_of_lt h]

theorem ofBits_lt : ∀ bs : List Bool, ofBits bs < 2 ^ bs.length
  | [] => by decide
  | b :: bs => by
    have hb : b.toNat < 2 := by cases b <;> decide
    have := ofBits_lt bs
    rw [ofBits, List.length_cons, Nat.pow_succ]; omega

theorem bitsLe_ofBits : ∀ bs : List Bool, bitsLe bs.length (ofBits bs) = bs
  | [] => rfl
  | b :: bs => by
    have hb : b.toNat < 2 := by cases b <;> decide
    have hd : (b.toNat + 2 * ofBits bs) / 2 = ofBits bs := by omega
    have hm : (b.toNat + 2 * ofBits bs) % 2 = b.toNat := by omega
    rw [ofBits, List.length_cons, bitsLe, hd, hm, bitsLe_ofBits bs]
    cases b <;> rfl

theorem ofBits_append : ∀ as bs : List Bool, ofBits (as ++ bs) = ofBits as + 2 ^ as.length * ofBits bs
  | [], bs => by simp [ofBits]
  | a :: as, bs => by
    rw [List.cons_append, ofBits, ofBits, ofBits_append as bs, List.length_cons, Nat.pow_succ, Nat.mul_add,
      Nat.mul_comm (2 ^ as.length) 2, Nat.mul_assoc, Nat.add_assoc]

theorem ofBits_mod {k : Nat} {bs : List Bool} (h : k ≤ bs.length) : ofBits bs % 2 ^ k = ofBits (bs.take k) := by
  have hl : (bs.take k).length = k := by rw [List.length_take]; omega
  have hlt := ofBits_lt (bs.take k)
  rw [hl] at hlt
  conv_lhs => rw [← List.take_append_drop k bs, ofBits_append, hl]
  rw [Nat.add_mul_mod_self_left, Nat.mod_eq_of_lt hlt]

theorem ofBits_div {k : Nat} {bs : List Bool} (h : k ≤ bs.length) : ofBits bs / 2 ^ k = ofBits (bs.drop k) := by
  have hl : (bs.take k).length = k := by rw [List.length_take]; omega
  have hlt := ofBits_lt (bs.take k)
  rw [hl] at hlt
  conv_lhs => rw [← List.take_append_drop k bs, ofBits_append, hl]
  rw [Nat.add_mul_div_left _ _ (Nat.two_pow_pos k), Nat.div_eq_of_lt hlt, Nat.zero_add]

theorem bitsLe_add : ∀ j k n : Nat, bitsLe (j + k) n = bitsLe j n ++ bitsLe k (n / 2 ^ j)
  | 0, k, n => by rw [Nat.zero_add, Nat.pow_zero, Nat.div_one]; rfl
  | j + 1, k, n => by
    rw [Nat.add_right_comm, bitsLe, bitsLe, bitsLe_add j k, Nat.div_div_eq_div_mul, ← Nat.pow_succ', List.cons_append]

theorem bitsLe_succ_right (k n : Nat) : bitsLe (k + 1) n = bitsLe k n ++ [n.testBit k] := by
  rw [bitsLe_add, Nat.testBit_eq_decide_div_mod_eq]; rfl

theorem bitsLe_mod (k n : Nat) : bitsLe k (n % 2 ^ k) = bitsLe k n := by
  have h := bitsLe_ofBits (bitsLe k n)
  rwa [length_bitsLe, ofBits_bitsLe] at h

/-! ## Bytes -/

def byteBits (b : UInt8) : List Bool := bitsLe 8 b.toNat

def bytesBits (bs : Bytes) : List Bool := (bs.map byteBits).flatten

theorem bytesBits_cons (b : UInt8) (bs : Bytes) : bytesBits (b :: bs) = byteBits b ++ bytesBits bs := by
  unfold bytesBits; rw [List.map_cons, List.flatten_cons]

theorem bytesBits_append (as bs : Bytes) : bytesBits (as ++ bs) = bytesBits as ++ bytesBits bs := by
  unfold bytesBits; rw [List.map_append, List.flatten_append]

@[simp] theorem length_bytesBits : ∀ bs : Bytes, (bytesBits bs).length = 8 * bs.length
  | [] => rfl
  | b :: bs => by
    rw [bytesBits_cons, List.length_append, length_bytesBits bs, byteBits, length_bitsLe, List.length_cons]; omega

theorem bytesBits_toLe : ∀ k n : Nat, bytesBits (toLe k n) = bitsLe (8 * k) n
  | 0, _ => rfl
  | k + 1, n => by
    have hb : byteBits (UInt8.ofNat n) = bitsLe 8 n := by
      rw [byteBits, UInt8.toNat_ofNat', bitsLe_mod]
    rw [toLe, bytesBits_cons, bytesBits_toLe k, hb, Nat.mul_succ, Nat.add_comm, bitsLe_add]
    rfl

theorem byteBits_inj {a b : UInt8} (h : byteBits a = byteBits b) : a = b := by
  have hv := congrArg ofBits h
  rw [byteBits, byteBits, ofBits_bitsLe_of_lt a.toNat_lt, ofBits_bitsLe_of_lt b.toNat_lt] at hv
  exact UInt8.toNat_inj.mp hv

theorem bytesBits_inj : ∀ {as bs : Bytes}, bytesBits as = bytesBits bs → as = bs
  | [], bs, h => by
    have hl := congrArg List.length h
    rw [length_bytesBits, length_bytesBits, List.length_nil] at hl
    exact (List.length_eq_zero_iff.mp (by omega)).symm
  | a :: as, [], h => by
    have hl := congrArg List.length h
    rw [length_bytesBits, length_bytesBits, List.length_nil, List.length_cons] at hl; omega
  | a :: as, b :: bs, h => by
    rw [bytesBits_cons, bytesBits_cons] at h
    obtain ⟨hb, hbs⟩ := List.append_inj h (by rw [byteBits, byteBits, length_bitsLe, length_bitsLe])
    rw [byteBits_inj hb, bytesBits_inj hbs]

theorem At.bits {data ys : Bytes} {i : Nat} (h : At data i ys) : At (bytesBits data) (8 * i) (bytesBits ys) := by
  have hle := h.le
  have hsplit : bytesBits data = bytesBits (data.take i) ++ bytesBits ys := by
    rw [← h.drop, ← bytesBits_append, List.take_append_drop]
  have hl : (bytesBits (data.take i)).length = 8 * i := by
    rw [length_bytesBits, List.length_take, Nat.min_eq_left hle]
  rw [hsplit, ← hl]
  exact At.mid _ _

theorem At.bytes {data ys : Bytes} {rest : List Bool} {i : Nat}
    (h : At (bytesBits data) (8 * i) (bytesBits ys ++ rest)) : ∃ zs, At data i (ys ++ zs) := by
  have hl := h.length
  rw [length_bytesBits, List.length_append, length_bytesBits] at hl
  have hat : At data i (data.drop i) := ⟨by omega, rfl⟩
  have hdrop := hat.bits.drop
  rw [h.drop, ← List.take_append_drop ys.length (data.drop i), bytesBits_append] at hdrop
  have htake : bytesBits ys = bytesBits ((data.drop i).take ys.length) := by
    refine (List.append_inj hdrop ?_).1
    rw [length_bytesBits, length_bytesBits, List.length_take, List.length_drop]; omega
  have hsplit := (List.take_append_drop ys.length (data.drop i)).symm
  rw [← bytesBits_inj htake] at hsplit
  exact ⟨(data.drop i).drop ys.length, by omega, hsplit⟩

theorem At.byte {data ys : Bytes} {p : Nat} {rest : List Bool} {b : UInt8}
    (h : At (bytesBits data) p (bytesBits (b :: ys) ++ rest)) :
    At (bytesBits data) p (bitsLe 8 b.toNat ++ (bytesBits ys ++ rest)) := by
  rwa [bytesBits_cons, List.append_assoc] at h

theorem At.afterByte {data ys : Bytes} {p : Nat} {rest : List Bool} {b : UInt8}
    (h : At (bytesBits data) p (bytesBits (b :: ys) ++ rest)) :
    At (bytesBits data) (p + 8) (bytesBits ys ++ rest) := by
  have hs := h.byte.skip
  rwa [length_bitsLe] at hs

theorem At.afterBytes {data xs ys : Bytes} {p : Nat} {rest : List Bool}
    (h : At (bytesBits data) p (bytesBits (xs ++ ys) ++ rest)) :
    At (bytesBits data) (p + 8 * xs.length) (bytesBits ys ++ rest) := by
  rw [bytesBits_append, List.append_assoc] at h
  have hs := h.skip
  rwa [length_bytesBits] at hs

/-! ## Packing -/

def padTo8 (p : Nat) : Nat := (8 - p % 8) % 8

theorem padTo8_add (p : Nat) : (p + padTo8 p) % 8 = 0 := by
  unfold padTo8; omega

/-- Eight bits to a byte; bits short of a byte are dropped. -/
def pack : List Bool → Bytes
  | b0 :: b1 :: b2 :: b3 :: b4 :: b5 :: b6 :: b7 :: bs =>
    UInt8.ofNat (ofBits [b0, b1, b2, b3, b4, b5, b6, b7]) :: pack bs
  | _ => []

theorem bytesBits_pack : ∀ (n : Nat) (bs : List Bool), bs.length = 8 * n → bytesBits (pack bs) = bs
  | 0, bs, h => by rw [List.length_eq_zero_iff.mp h]; rfl
  | n + 1, bs, h => by
    match bs, h with
    | b0 :: b1 :: b2 :: b3 :: b4 :: b5 :: b6 :: b7 :: bs, h =>
      simp only [List.length_cons] at h
      have hlt := ofBits_lt [b0, b1, b2, b3, b4, b5, b6, b7]
      have hbits := bitsLe_ofBits [b0, b1, b2, b3, b4, b5, b6, b7]
      simp only [List.length_cons, List.length_nil] at hlt hbits
      rw [pack, bytesBits_cons, bytesBits_pack n bs (by omega), byteBits, UInt8.toNat_ofNat', Nat.mod_eq_of_lt hlt,
        hbits]
      rfl

end Ziftsieve
