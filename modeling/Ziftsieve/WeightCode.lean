import Ziftsieve.PrefixCode
import Ziftsieve.Window

/-!
# Codes from weights

A symbol of weight `w` has `2 ^ (w - 1)` of the `2 ^ M` words of `M` bits: the
cells. The cells go to the symbols in the order of their weights, and within a
weight in the order of the symbols. Where they are all given out, the words of a
symbol are those that start with its code, a code of `M + 1 - w` bits.
-/

namespace Ziftsieve

def weightShare (w : Nat) : Nat := if w = 0 then 0 else 2 ^ (w - 1)

/-- The cells of the weights up to `k`. -/
def weightStart (ws : List Nat) : Nat → Nat
  | 0 => 0
  | k + 1 => weightStart ws k + ws.count (k + 1) * 2 ^ k

/-- The first cell of the symbol `s`, of weight `w`. -/
def cellOf (ws : List Nat) (s w : Nat) : Nat := weightStart ws (w - 1) + (ws.take s).count w * 2 ^ (w - 1)

structure InCell (ws : List Nat) (s w x : Nat) : Prop where
  get : ws[s]? = some w
  pos : 0 < w
  ge : cellOf ws s w ≤ x
  lt : x < cellOf ws s w + 2 ^ (w - 1)

/-- The weights give out all words of `M` bits, to two symbols or more. -/
structure CompleteWeights (M : Nat) (ws : List Nat) : Prop where
  le : ∀ w ∈ ws, w ≤ M
  full : (ws.map weightShare).sum = 2 ^ M

/-- A symbol's code, its first bit highest. -/
def weightCode (M : Nat) (ws : List Nat) (s : Nat) : List Bool :=
  (bitsLe (M + 1 - ws.getD s 0) (cellOf ws s (ws.getD s 0) / 2 ^ (ws.getD s 0 - 1))).reverse

section
variable {ws : List Nat} {s t v w x k : Nat}

/-! ## Cells -/

theorem weightStart_cons (w : Nat) (ws : List Nat) (k : Nat) :
    weightStart (w :: ws) k = weightStart ws k + if w ≤ k then weightShare w else 0 := by
  induction k with
  | zero =>
    by_cases hw : w ≤ 0
    · rw [if_pos hw, Nat.le_zero.mp hw]; rfl
    · rw [if_neg hw]; rfl
  | succ k ih =>
    rw [weightStart, weightStart, ih, List.count_cons]
    by_cases hw : w = k + 1
    · rw [if_neg (by omega), if_pos (by simp [hw]), if_pos (by omega), weightShare, if_neg (by omega), Nat.add_mul, hw,
        Nat.one_mul, Nat.add_zero, Nat.add_assoc, Nat.add_sub_cancel]
    · have hiff : w ≤ k + 1 ↔ w ≤ k := by omega
      have hne : ¬ ((w == k + 1) = true) := by simpa using hw
      rw [if_neg hne, Nat.add_zero, if_congr hiff rfl rfl]
      omega

theorem weightStart_eq_sum : ∀ {ws : List Nat}, (∀ w ∈ ws, w ≤ k) → weightStart ws k = (ws.map weightShare).sum
  | [], _ => by
    induction k with
    | zero => rfl
    | succ k ih => rw [weightStart, ih (by simp)]; simp
  | w :: ws, h => by
    rw [weightStart_cons, if_pos (h w List.mem_cons_self), List.map_cons, List.sum_cons,
      weightStart_eq_sum fun v hv => h v (List.mem_cons_of_mem _ hv), Nat.add_comm]

theorem weightStart_mono (ws : List Nat) {j k : Nat} (h : j ≤ k) : weightStart ws j ≤ weightStart ws k := by
  induction h with
  | refl => exact Nat.le_refl _
  | step _ ih => exact Nat.le_trans ih (Nat.le_add_right _ _)

theorem cellOf_end_le (hs : ws[s]? = some w) (hw : 0 < w) : cellOf ws s w + 2 ^ (w - 1) ≤ weightStart ws w := by
  obtain ⟨k, rfl⟩ : ∃ k, w = k + 1 := ⟨w - 1, by omega⟩
  have hcount := Nat.mul_le_mul_right (2 ^ k) (Nat.succ_le_of_lt (count_take_lt hs))
  rw [cellOf, weightStart, Nat.add_sub_cancel]
  rw [Nat.succ_mul] at hcount
  omega

theorem InCell.inj (hs : InCell ws s v x) (ht : InCell ws t w x) : s = t := by
  have hlt : ∀ {s t v w}, InCell ws s v x → InCell ws t w x → ¬ v < w := by
    intro s t v w hs ht hvw
    have hend := cellOf_end_le hs.get hs.pos
    have hmono := weightStart_mono ws (show v ≤ w - 1 by omega)
    have hlt := hs.lt
    have hge := ht.ge
    unfold cellOf at hge
    omega
  have hvw : v = w := Nat.le_antisymm (Nat.le_of_not_lt (hlt ht hs)) (Nat.le_of_not_lt (hlt hs ht))
  subst hvw
  have hrank : ∀ {s t}, InCell ws s v x → InCell ws t v x → ¬ (ws.take s).count v < (ws.take t).count v := by
    intro s t hs ht hst
    have hmul := Nat.mul_le_mul_right (2 ^ (v - 1)) (Nat.succ_le_of_lt hst)
    have hlt := hs.lt
    have hge := ht.ge
    unfold cellOf at hlt hge
    rw [Nat.succ_mul] at hmul
    omega
  rcases Nat.lt_trichotomy s t with h | h | h
  · exact absurd (count_take_lt_count_take hs.get h) (hrank hs ht)
  · exact h
  · exact absurd (count_take_lt_count_take ht.get h) (hrank ht hs)

theorem exists_inCell : ∀ {k : Nat}, x < weightStart ws k → ∃ s w, InCell ws s w x
  | 0, h => absurd h (Nat.not_lt_zero _)
  | k + 1, h => by
    by_cases hlt : x < weightStart ws k
    · exact exists_inCell hlt
    · rw [weightStart] at h
      have hrank : (x - weightStart ws k) / 2 ^ k < ws.count (k + 1) :=
        Nat.div_lt_of_lt_mul (by rw [Nat.mul_comm]; omega)
      obtain ⟨s, hs, hcount⟩ := exists_take_count hrank
      have hdiv := Nat.div_add_mod (x - weightStart ws k) (2 ^ k)
      have hmod := Nat.mod_lt (x - weightStart ws k) (Nat.two_pow_pos k)
      rw [Nat.mul_comm] at hdiv
      refine ⟨s, k + 1, hs, Nat.succ_pos k, ?_, ?_⟩
      · rw [cellOf, hcount, Nat.add_sub_cancel]
        omega
      · rw [cellOf, hcount, Nat.add_sub_cancel]
        omega

/-! ## Codes -/

variable {M : Nat}

theorem length_weightCode (hs : ws[s]? = some w) : (weightCode M ws s).length = M + 1 - w := by
  rw [weightCode, List.length_reverse, length_bitsLe, List.getD_eq_getElem?_getD, hs]
  rfl

/-- The weights before the last say what it is, and how long codes are. -/
theorem CompleteWeights.last_unique {N : Nat} (hv : 0 < v) (hw : 0 < w) (hM : CompleteWeights M (ws ++ [v]))
    (hN : CompleteWeights N (ws ++ [w])) : M = N ∧ v = w := by
  have hshare : ∀ {M v}, 0 < v → CompleteWeights M (ws ++ [v]) →
      (ws.map weightShare).sum + 2 ^ (v - 1) = 2 ^ M ∧ 2 ^ M ≤ 2 * (ws.map weightShare).sum := by
    intro M v hv hc
    have hle := hc.le v (by simp)
    have hfull := hc.full
    have hhalf : 2 ^ (v - 1) ≤ 2 ^ (M - 1) := Nat.pow_le_pow_right (by decide) (by omega)
    have hdouble : 2 ^ M = 2 * 2 ^ (M - 1) := by rw [← Nat.pow_succ']; congr 1; omega
    rw [List.map_append, List.sum_append, List.map_singleton, List.sum_singleton, weightShare, if_neg (by omega)] at hfull
    exact ⟨hfull, by omega⟩
  obtain ⟨hsumM, hhalfM⟩ := hshare hv hM
  obtain ⟨hsumN, hhalfN⟩ := hshare hw hN
  have hv0 := Nat.two_pow_pos (v - 1)
  have hw0 := Nat.two_pow_pos (w - 1)
  have hlt : ∀ {M N : Nat}, M < N → 2 * 2 ^ M ≤ 2 ^ N := fun h => by
    rw [← Nat.pow_succ']
    exact Nat.pow_le_pow_right (by decide) h
  obtain rfl : M = N := by
    rcases Nat.lt_trichotomy M N with h | h | h
    · have := hlt h
      omega
    · exact h
    · have := hlt h
      omega
  have hpow := Nat.pow_right_injective (Nat.le_refl 2) (show 2 ^ (v - 1) = 2 ^ (w - 1) by omega)
  exact ⟨rfl, by omega⟩

variable (hc : CompleteWeights M ws)
include hc

theorem CompleteWeights.start_eq : weightStart ws M = 2 ^ M := by rw [weightStart_eq_sum hc.le, hc.full]

theorem CompleteWeights.exists_inCell (hx : x < 2 ^ M) : ∃ s w, InCell ws s w x :=
  Ziftsieve.exists_inCell (by rw [hc.start_eq]; exact hx)

/-- The shorter codes take their cells by wholes of `2 ^ k`, so the longer ones do together. -/
theorem CompleteWeights.dvd_start (hk : k ≤ M) : 2 ^ k ∣ weightStart ws k := by
  induction hk using Nat.decreasingInduction with
  | self => rw [hc.start_eq]
  | of_succ k hk ih =>
    rw [weightStart] at ih
    exact (Nat.dvd_add_left (Nat.dvd_mul_left _ _)).mp (Nat.dvd_trans (Nat.pow_dvd_pow 2 (Nat.le_succ k)) ih)

theorem CompleteWeights.cellOf_eq (hs : ws[s]? = some w) :
    cellOf ws s w / 2 ^ (w - 1) * 2 ^ (w - 1) = cellOf ws s w := by
  have hw := hc.le w (List.mem_of_getElem? hs)
  exact Nat.div_mul_cancel (Nat.dvd_add (hc.dvd_start (by omega)) (Nat.dvd_mul_left _ _))

theorem CompleteWeights.code_lt (hs : ws[s]? = some w) (hw : 0 < w) :
    cellOf ws s w / 2 ^ (w - 1) < 2 ^ (M + 1 - w) := by
  have hle := hc.le w (List.mem_of_getElem? hs)
  have hend := Nat.le_trans (cellOf_end_le hs hw) (weightStart_mono ws hle)
  have hpos := Nat.two_pow_pos (w - 1)
  rw [hc.start_eq] at hend
  rw [Nat.div_lt_iff_lt_mul hpos, ← Nat.pow_add, show M + 1 - w + (w - 1) = M by omega]
  omega

/-- A symbol's words are those that start with its code. -/
theorem CompleteWeights.inCell_iff (hs : ws[s]? = some w) (hw : 0 < w) (bits : List Bool) (p : Nat) :
    InCell ws s w (window bits p M) ↔ window bits p (M + 1 - w) = cellOf ws s w / 2 ^ (w - 1) := by
  have hle := hc.le w (List.mem_of_getElem? hs)
  have hdiv := window_div bits p (M + 1 - w) (w - 1)
  have hcell := hc.cellOf_eq hs
  have hpos := Nat.two_pow_pos (w - 1)
  rw [show M + 1 - w + (w - 1) = M by omega] at hdiv
  rw [← hdiv, Nat.div_eq_iff hpos, hcell]
  constructor
  · rintro ⟨-, -, hge, hlt⟩
    exact ⟨hge, by omega⟩
  · rintro ⟨hge, hlt⟩
    exact ⟨hs, hw, hge, by omega⟩

theorem CompleteWeights.inCell_of_code (hs : ws[s]? = some w) (hw : 0 < w) {bits rest : List Bool} {p : Nat}
    (h : At bits p (weightCode M ws s ++ rest)) : InCell ws s w (window bits p M) := by
  have hwindow := window_at h
  rw [length_weightCode hs, weightCode, List.reverse_reverse, List.getD_eq_getElem?_getD, hs, Option.getD_some,
    ofBits_bitsLe_of_lt (hc.code_lt hs hw)] at hwindow
  exact (hc.inCell_iff hs hw bits p).mpr hwindow

/-- Where the word is a symbol's cell, its code stands, or as much of it as there are bits left. -/
theorem CompleteWeights.code_prefix {bits : List Bool} {p : Nat} (h : InCell ws s w (window bits p M)) :
    weightCode M ws s <+: bits.drop p ++ List.replicate M false := by
  have hw := h.pos
  have hcode := (hc.inCell_iff h.get h.pos bits p).mp h
  rw [weightCode, List.getD_eq_getElem?_getD, h.get, Option.getD_some, ← hcode,
    bitsLe_window bits (m := M) (by omega)]
  exact List.take_prefix _ _

/-- **No code continues another.** -/
theorem CompleteWeights.code_inj (hs : ws[s]? = some v) (hv : 0 < v) (ht : ws[t]? = some w) (hw : 0 < w)
    (h : weightCode M ws s <+: weightCode M ws t) : s = t := by
  obtain ⟨tail, htail⟩ := h
  have hlong := hc.inCell_of_code ht hw (At.start (weightCode M ws t ++ []))
  have hshort := hc.inCell_of_code hs hv (At.start (weightCode M ws s ++ tail))
  rw [List.append_nil, ← htail] at hlong
  exact hshort.inj hlong

end

end Ziftsieve
