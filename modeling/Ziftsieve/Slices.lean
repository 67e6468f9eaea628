import Mathlib.Data.Nat.Log
import Mathlib.Tactic.Ring

/-!
# Slices of one width and of twice that

`p` slices share `n` times `w` places, where `n` is from `p` to `2 * p`: `n - p` of
them are twice as wide as the others. The wide ones have the first numbers and the
last places.
-/

namespace Ziftsieve

/-- The first place of the slice `r`. -/
def sliceStart (n p w r : Nat) : Nat :=
  if r < n - p then (p - (n - p)) * w + r * w * 2 else (r - (n - p)) * w

def sliceWidth (n p w r : Nat) : Nat := if r < n - p then 2 * w else w

/-- The slice of a place. -/
def sliceOf (n p w x : Nat) : Nat :=
  if x < (p - (n - p)) * w then n - p + x / w else (x - (p - (n - p)) * w) / (2 * w)

structure InSlice (n p w r x : Nat) : Prop where
  lt : r < p
  ge : sliceStart n p w r ≤ x
  lt_end : x < sliceStart n p w r + sliceWidth n p w r

section
variable {n p w r x : Nat}

theorem exists_single_double (hp : p ≤ n) (hn : n ≤ 2 * p) :
    ∃ s d, p = s + d ∧ n = s + 2 * d ∧ n - p = d ∧ p - (n - p) = s :=
  ⟨p - (n - p), n - p, by omega, by omega, rfl, rfl⟩

theorem InSlice.lt_total (hp : p ≤ n) (hn : n ≤ 2 * p) (h : InSlice n p w r x) : x < n * w := by
  obtain ⟨s, d, hsum, htotal, hd, hs⟩ := exists_single_double hp hn
  obtain ⟨hlt, -, hend⟩ := h
  unfold sliceStart sliceWidth at hend
  rw [hs, hd] at hend
  by_cases hr : r < d
  · rw [if_pos hr, if_pos hr] at hend
    have hmul := Nat.mul_le_mul_right w (show s + 2 * (r + 1) ≤ n by omega)
    have hexpand : (s + 2 * (r + 1)) * w = s * w + r * w * 2 + 2 * w := by ring
    omega
  · rw [if_neg hr, if_neg hr] at hend
    have hmul := Nat.mul_le_mul_right w (show r - d + 1 ≤ n by omega)
    rw [Nat.succ_mul] at hmul
    omega

/-- A place is in no slice but its own. -/
theorem InSlice.eq_sliceOf (hp : p ≤ n) (hn : n ≤ 2 * p) (hw : 0 < w) (h : InSlice n p w r x) : r = sliceOf n p w x := by
  obtain ⟨s, d, hsum, htotal, hd, hs⟩ := exists_single_double hp hn
  obtain ⟨hlt, hge, hend⟩ := h
  unfold sliceStart at hge hend
  unfold sliceWidth at hend
  unfold sliceOf
  rw [hs, hd] at hge hend ⊢
  by_cases hr : r < d
  · rw [if_pos hr] at hge hend
    rw [if_pos hr] at hend
    rw [if_neg (by omega), eq_comm, Nat.div_eq_iff (by omega)]
    have hexpand : r * (2 * w) = r * w * 2 := by ring
    omega
  · rw [if_neg hr] at hge hend
    rw [if_neg hr] at hend
    have hmul := Nat.mul_le_mul_right w (show r - d + 1 ≤ s by omega)
    rw [Nat.succ_mul] at hmul
    have hdiv : x / w = r - d := (Nat.div_eq_iff hw).mpr ⟨hge, by omega⟩
    rw [if_pos (by omega), hdiv]
    omega

/-- **A place is in its own slice.** -/
theorem inSlice_sliceOf (hp : p ≤ n) (hn : n ≤ 2 * p) (hw : 0 < w) (hx : x < n * w) :
    InSlice n p w (sliceOf n p w x) x := by
  obtain ⟨s, d, hsum, htotal, hd, hs⟩ := exists_single_double hp hn
  have hall : n * w = s * w + d * (2 * w) := by rw [htotal]; ring
  obtain ⟨r, hr⟩ : ∃ r, sliceOf n p w x = r := ⟨_, rfl⟩
  rw [hr]
  unfold sliceOf at hr
  rw [hs, hd] at hr
  by_cases hsingle : x < s * w
  · rw [if_pos hsingle] at hr
    have hdiv := Nat.div_mul_le_self x w
    have hmod := Nat.lt_div_mul_add hw (a := x)
    have hlt := Nat.div_lt_of_lt_mul (show x < w * s by rwa [Nat.mul_comm])
    generalize x / w = q at *
    have hback : r - d = q := by omega
    refine ⟨by omega, ?_, ?_⟩
    · unfold sliceStart
      rw [hs, hd, if_neg (by omega), hback]
      exact hdiv
    · unfold sliceStart sliceWidth
      rw [hs, hd, if_neg (by omega), if_neg (by omega), hback]
      exact hmod
  · rw [if_neg hsingle] at hr
    have hdiv := Nat.div_mul_le_self (x - s * w) (2 * w)
    have hmod := Nat.lt_div_mul_add (show 0 < 2 * w by omega) (a := x - s * w)
    have hlt : r < d := by
      rw [← hr]
      exact Nat.div_lt_of_lt_mul (by rw [Nat.mul_comm _ d]; omega)
    have hexpand : r * (2 * w) = r * w * 2 := by ring
    rw [hr] at hdiv hmod
    refine ⟨by omega, ?_, ?_⟩
    · unfold sliceStart
      rw [hs, hd, if_pos hlt]
      omega
    · unfold sliceStart sliceWidth
      rw [hs, hd, if_pos hlt, if_pos hlt]
      omega

theorem InSlice.inj (hp : p ≤ n) (hn : n ≤ 2 * p) (hw : 0 < w) {q : Nat} (hr : InSlice n p w r x)
    (hq : InSlice n p w q x) : r = q := by
  rw [hr.eq_sliceOf hp hn hw, hq.eq_sliceOf hp hn hw]

theorem exists_inSlice (hp : p ≤ n) (hn : n ≤ 2 * p) (hw : 0 < w) (hx : x < n * w) : ∃ r, InSlice n p w r x :=
  ⟨_, inSlice_sliceOf hp hn hw hx⟩

theorem two_pow_clog_le (hpos : 0 < p) : 2 ^ Nat.clog 2 p ≤ 2 * p := by
  rcases Nat.lt_or_ge 1 p with h1 | h1
  · have hpred := Nat.pow_pred_clog_lt_self (by decide : 1 < 2) h1
    have hclog := Nat.clog_pos (by decide : 1 < 2) h1
    have hdouble : 2 ^ Nat.clog 2 p = 2 * 2 ^ (Nat.clog 2 p).pred := by
      rw [← Nat.pow_succ', Nat.succ_pred_eq_of_pos hclog]
    omega
  · rw [Nat.clog_of_right_le_one h1]
    omega

end

end Ziftsieve
