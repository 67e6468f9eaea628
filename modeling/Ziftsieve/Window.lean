import Ziftsieve.Bits

/-!
# Numbers in a string of bits, first bit highest

A format that is read from its end has its codes before the reader from the
highest bit to the lowest. The window of `n` bits at `p` is the number they
spell; behind the end of the string all bits are zero.
-/

namespace Ziftsieve

def window (bits : List Bool) (p : Nat) : Nat → Nat
  | 0 => 0
  | n + 1 => 2 * window bits p n + (bits.getD (p + n) false).toNat

section
variable {bits : List Bool} {p m n : Nat}

theorem window_lt (bits : List Bool) (p n : Nat) : window bits p n < 2 ^ n := by
  induction n with
  | zero => exact Nat.one_pos
  | succ n ih =>
    have := Bool.toNat_lt (bits.getD (p + n) false)
    rw [window, Nat.pow_succ]
    omega

theorem window_add (bits : List Bool) (p m n : Nat) :
    window bits p (m + n) = window bits p m * 2 ^ n + window bits (p + m) n := by
  induction n with
  | zero => rw [Nat.add_zero, Nat.pow_zero, Nat.mul_one, window, Nat.add_zero]
  | succ n ih =>
    rw [← Nat.add_assoc, window, ih, window, Nat.pow_succ, Nat.add_assoc p]
    have : window bits p m * (2 ^ n * 2) = 2 * (window bits p m * 2 ^ n) := by rw [← Nat.mul_assoc, Nat.mul_comm _ 2]
    omega

theorem window_mod (bits : List Bool) (p m n : Nat) : window bits p (m + n) % 2 ^ n = window bits (p + m) n := by
  rw [window_add, Nat.add_comm, Nat.add_mul_mod_self_right, Nat.mod_eq_of_lt (window_lt _ _ _)]

theorem window_div (bits : List Bool) (p m n : Nat) : window bits p (m + n) / 2 ^ n = window bits p m := by
  rw [window_add, Nat.add_comm, Nat.add_mul_div_right _ _ (Nat.two_pow_pos n),
    Nat.div_eq_of_lt (window_lt _ _ _), Nat.zero_add]

/-- The window moves on by `n`: its first `n` bits go, and `n` come after the others. -/
theorem window_slide (bits : List Bool) (p : Nat) (h : n ≤ m) :
    window bits p m % 2 ^ (m - n) * 2 ^ n + window bits (p + m) n = window bits (p + n) m := by
  have hmod := window_mod bits p n (m - n)
  have hadd := window_add bits (p + n) (m - n) n
  rw [show n + (m - n) = m by omega] at hmod
  rw [show m - n + n = m by omega, show p + n + (m - n) = p + m by omega] at hadd
  rw [hmod, hadd]

theorem window_past (h : bits.length ≤ p) (n : Nat) : window bits p n = 0 := by
  induction n with
  | zero => rfl
  | succ n ih =>
    rw [window, ih, List.getD_eq_getElem?_getD, List.getElem?_eq_none (by omega)]
    rfl

theorem window_of_drop (bits : List Bool) (i p n : Nat) : window (bits.drop i) p n = window bits (i + p) n := by
  induction n with
  | zero => rfl
  | succ n ih =>
    rw [window, window, ih, List.getD_eq_getElem?_getD, List.getD_eq_getElem?_getD, List.getElem?_drop, Nat.add_assoc]

/-- Before the end, a window of the reversed string is a slice of the string, lowest bit first. -/
theorem window_reverse (xs : List Bool) : ∀ {n : Nat}, p + n ≤ xs.length →
    window xs.reverse p n = ofBits ((xs.drop (xs.length - (p + n))).take n)
  | 0, _ => rfl
  | n + 1, h => by
    have hlt : xs.length - (p + (n + 1)) < xs.length := by omega
    have hnext : xs.length - (p + (n + 1)) + 1 = xs.length - (p + n) := by omega
    have hbit : xs.reverse.getD (p + n) false = xs[xs.length - (p + (n + 1))] := by
      rw [List.getD_eq_getElem?_getD, List.getElem?_reverse (by omega), List.getElem?_eq_getElem (by omega)]
      simp only [Option.getD_some]
      congr 1
      omega
    rw [window, window_reverse xs (by omega), List.drop_eq_getElem_cons hlt, List.take_succ_cons, hnext, ofBits, hbit]
    omega

theorem window_at {w rest : List Bool} (h : At bits p (w ++ rest)) : window bits p w.length = ofBits w.reverse := by
  have hl := h.length
  rw [List.length_append] at hl
  have hslice : bits.reverse.drop (bits.reverse.length - (p + w.length)) = w.reverse ++ (bits.take p).reverse := by
    have hsplit : bits = bits.take p ++ (w ++ rest) := by rw [← h.drop, List.take_append_drop]
    have hrev : bits.reverse = rest.reverse ++ (w.reverse ++ (bits.take p).reverse) := by
      conv_lhs => rw [hsplit]
      rw [List.reverse_append, List.reverse_append, List.append_assoc]
    rw [List.length_reverse, hrev]
    exact List.drop_left' (by rw [List.length_reverse]; omega)
  have hwindow := window_reverse bits.reverse (show p + w.length ≤ bits.reverse.length by rw [List.length_reverse]; omega)
  rw [List.reverse_reverse, hslice, List.take_left' (List.length_reverse)] at hwindow
  exact hwindow

theorem window_drop (bits : List Bool) (p m : Nat) : ∀ n, n ≤ m →
    window (bits.drop p ++ List.replicate m false) 0 n = window bits p n
  | 0, _ => rfl
  | n + 1, h => by
    have hbit : (bits.drop p ++ List.replicate m false).getD (0 + n) false = bits.getD (p + n) false := by
      rw [Nat.zero_add, List.getD_eq_getElem?_getD, List.getD_eq_getElem?_getD, List.getElem?_append,
        List.getElem?_drop, List.length_drop]
      split
      · rfl
      · rw [List.getElem?_eq_none (l := bits) (by omega), List.getElem?_replicate]
        split <;> rfl
    rw [window, window, hbit, window_drop bits p m n (by omega)]

/-- The bits a window spells are those before it, with zeros behind the end. -/
theorem bitsLe_window (bits : List Bool) {p m n : Nat} (h : n ≤ m) :
    (bitsLe n (window bits p n)).reverse = (bits.drop p ++ List.replicate m false).take n := by
  have hlen : ((bits.drop p ++ List.replicate m false).take n).length = n := by
    rw [List.length_take, List.length_append, List.length_replicate]
    omega
  have hat : At (bits.drop p ++ List.replicate m false) 0 ((bits.drop p ++ List.replicate m false).take n ++
      (bits.drop p ++ List.replicate m false).drop n) := by
    rw [List.take_append_drop]
    exact At.start _
  have hwindow := window_at hat
  rw [hlen, window_drop bits p m n h] at hwindow
  have hbits := bitsLe_ofBits ((bits.drop p ++ List.replicate m false).take n).reverse
  rw [List.length_reverse, hlen, ← hwindow] at hbits
  rw [hbits, List.reverse_reverse]

end

end Ziftsieve
