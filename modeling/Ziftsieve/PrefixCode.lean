import Mathlib.Data.Nat.ModEq
import Ziftsieve.Bits

/-!
# Canonical prefix codes

A vector of code lengths gives each symbol of non-zero length a code: within a
length the codes count up in the order of the symbols, and a length starts at
twice the end of the length before. Where the Kraft sum is at most one, the
codes fit their lengths and none continues another.

A symbol's code is kept as its bits from the last to the first (`codePath`), so
that a code continues another when it has it as a suffix.
-/

namespace Ziftsieve

/-- The Kraft sum of the lengths up to `b`, in units of `2 ^ -M`. -/
def kraftUpTo (M : Nat) (L : List Nat) (b : Nat) : Nat :=
  (L.map fun l => if 0 < l ∧ l ≤ b then 2 ^ (M - l) else 0).sum

structure Kraft (M : Nat) (L : List Nat) : Prop where
  le : ∀ l ∈ L, l ≤ M
  sum_le : kraftUpTo M L M ≤ 2 ^ M

def firstCode (L : List Nat) : Nat → Nat
  | 0 => 0
  | b + 1 => 2 * (firstCode L b + if b = 0 then 0 else L.count b)

def codeOf (L : List Nat) (s l : Nat) : Nat := firstCode L l + (L.take s).count l

def codePath (L : List Nat) (s l : Nat) : List Bool := bitsLe l (codeOf L s l)

def codeBits (L : List Nat) (s : Nat) : List Bool := (codePath L s (L.getD s 0)).reverse

/-! ## The Kraft sum by length -/

theorem kraftUpTo_zero (M : Nat) (L : List Nat) : kraftUpTo M L 0 = 0 := by
  induction L with
  | nil => rfl
  | cons l L ih =>
    unfold kraftUpTo at ih ⊢
    rw [List.map_cons, List.sum_cons, ih, if_neg (by omega)]

theorem kraftUpTo_succ (M : Nat) (L : List Nat) (b : Nat) :
    kraftUpTo M L (b + 1) = kraftUpTo M L b + L.count (b + 1) * 2 ^ (M - (b + 1)) := by
  induction L with
  | nil => simp [kraftUpTo]
  | cons l L ih =>
    unfold kraftUpTo at ih ⊢
    rw [List.map_cons, List.sum_cons, List.map_cons, List.sum_cons, ih, List.count_cons]
    by_cases h : l = b + 1
    · rw [if_pos (by omega), if_neg (by omega), if_pos (by simp [h]), Nat.add_mul, Nat.one_mul, h]; omega
    · have hne : ¬ ((l == b + 1) = true) := by simp [h]
      rw [if_neg hne, Nat.add_zero, Nat.add_assoc]
      congr 1
      exact if_congr (by omega) rfl rfl

theorem kraftUpTo_mono (M : Nat) (L : List Nat) {b c : Nat} (h : b ≤ c) : kraftUpTo M L b ≤ kraftUpTo M L c := by
  induction c, h using Nat.le_induction with
  | base => exact Nat.le_refl _
  | succ c _ ih => rw [kraftUpTo_succ]; omega

theorem firstCode_kraft (M : Nat) (L : List Nat) : ∀ b, b + 1 ≤ M →
    firstCode L (b + 1) * 2 ^ (M - (b + 1)) = kraftUpTo M L b
  | 0, _ => by rw [kraftUpTo_zero]; simp [firstCode]
  | b + 1, h => by
    have hpow : 2 ^ (M - (b + 1)) = 2 * 2 ^ (M - (b + 1 + 1)) := by
      rw [← Nat.pow_succ']; congr 1; omega
    rw [firstCode, if_neg (by omega), kraftUpTo_succ, ← firstCode_kraft M L b (by omega), ← Nat.add_mul, hpow,
      Nat.mul_comm 2, Nat.mul_assoc]

theorem kraftUpTo_append (M : Nat) (L K : List Nat) (b : Nat) :
    kraftUpTo M (L ++ K) b = kraftUpTo M L b + kraftUpTo M K b := by
  unfold kraftUpTo; rw [List.map_append, List.sum_append]

theorem kraftUpTo_replicate (M n l b : Nat) :
    kraftUpTo M (List.replicate n l) b = n * if 0 < l ∧ l ≤ b then 2 ^ (M - l) else 0 := by
  unfold kraftUpTo; rw [List.map_replicate, List.sum_replicate_nat]

/-- A code of short lengths is one of long lengths, with room to spare. -/
theorem Kraft.mono {M N : Nat} {L : List Nat} (h : Kraft M L) (hMN : M ≤ N) : Kraft N L where
  le l hl := Nat.le_trans (h.le l hl) hMN
  sum_le := by
    have hscale : ∀ K : List Nat, (∀ l ∈ K, l ≤ M) → kraftUpTo N K N = 2 ^ (N - M) * kraftUpTo M K M := by
      intro K hK
      induction K with
      | nil => rfl
      | cons l K ih =>
        have hl := hK l List.mem_cons_self
        have hrest := ih fun k hk => hK k (List.mem_cons_of_mem _ hk)
        unfold kraftUpTo at hrest ⊢
        rw [List.map_cons, List.sum_cons, List.map_cons, List.sum_cons, hrest, Nat.mul_add]
        by_cases h0 : 0 < l
        · rw [if_pos ⟨h0, by omega⟩, if_pos ⟨h0, hl⟩, ← Nat.pow_add]
          congr 2; omega
        · rw [if_neg fun h => h0 h.1, if_neg fun h => h0 h.1, Nat.mul_zero]
    calc kraftUpTo N L N
        = 2 ^ (N - M) * kraftUpTo M L M := hscale L h.le
      _ ≤ 2 ^ (N - M) * 2 ^ M := Nat.mul_le_mul_left _ h.sum_le
      _ = 2 ^ N := by rw [← Nat.pow_add]; congr 1; omega

/-! ## Ranks -/

section
variable {L : List Nat} {s t l k : Nat}

theorem count_take_lt (h : L[s]? = some l) : (L.take s).count l < L.count l := by
  obtain ⟨hlt, hget⟩ := List.getElem?_eq_some_iff.mp h
  conv_rhs => rw [← List.take_append_drop s L, List.drop_eq_getElem_cons hlt, hget]
  rw [List.count_append, List.count_cons_self]; omega

theorem count_take_lt_count_take (hs : L[s]? = some l) (h : s < t) : (L.take s).count l < (L.take t).count l := by
  have hst : (L.take t)[s]? = some l := by rw [List.getElem?_take_of_lt h, hs]
  have hlt := count_take_lt hst
  rwa [List.take_take, Nat.min_eq_left (Nat.le_of_lt h)] at hlt

theorem count_take_inj (hs : L[s]? = some l) (ht : L[t]? = some l) (h : (L.take s).count l = (L.take t).count l) :
    s = t := by
  rcases Nat.lt_trichotomy s t with hlt | heq | hgt
  · have := count_take_lt_count_take hs hlt; omega
  · exact heq
  · have := count_take_lt_count_take ht hgt; omega

theorem codeOf_inj (hs : L[s]? = some l) (ht : L[t]? = some l) (h : codeOf L s l = codeOf L t l) : s = t := by
  unfold codeOf at h
  exact count_take_inj hs ht (by omega)

/-- No two symbols of one length have one path. -/
def Apart (L : List Nat) : Prop :=
  ∀ s t l, L[s]? = some l → L[t]? = some l → 0 < l → codePath L s l = codePath L t l → s = t

theorem exists_take_count : ∀ {L : List Nat} {i : Nat}, i < L.count l → ∃ s, L[s]? = some l ∧ (L.take s).count l = i
  | [], _, h => absurd h (Nat.not_lt_zero _)
  | k :: L, i, h => by
    rw [List.count_cons] at h
    by_cases hk : k = l
    · rcases i with - | i
      · exact ⟨0, by rw [hk]; rfl, rfl⟩
      · rw [if_pos (by simp [hk])] at h
        obtain ⟨s, hs, hi⟩ := exists_take_count (L := L) (i := i) (by omega)
        exact ⟨s + 1, hs, by rw [List.take_succ_cons, List.count_cons, hi, if_pos (by simp [hk])]⟩
    · rw [if_neg (by simp [hk])] at h
      obtain ⟨s, hs, hi⟩ := exists_take_count (L := L) (i := i) (by omega)
      exact ⟨s + 1, hs, by rw [List.take_succ_cons, List.count_cons, hi, if_neg (by simp [hk]), Nat.add_zero]⟩

/-- The codes of a length are apart as long as they do not run around in its bits. -/
theorem apart_iff : Apart L ↔ ∀ l, 0 < l → L.count l ≤ 2 ^ l := by
  constructor
  · intro h l h0
    by_contra hover
    have hpos := Nat.two_pow_pos l
    obtain ⟨s, hs, hsr⟩ := exists_take_count (L := L) (l := l) (i := 0) (by omega)
    obtain ⟨t, ht, htr⟩ := exists_take_count (L := L) (l := l) (i := 2 ^ l) (by omega)
    have hpath : codePath L s l = codePath L t l := by
      rw [codePath, codePath, ← bitsLe_mod l (codeOf L t l), codeOf, codeOf, hsr, htr, Nat.add_mod_right, bitsLe_mod,
        Nat.add_zero]
    rw [h s t l hs ht h0 hpath, htr] at hsr
    omega
  · intro h s t l hs ht h0 he
    have hcount := h l h0
    have hmod := congrArg ofBits he
    have hrs := count_take_lt hs
    have hrt := count_take_lt ht
    rw [codePath, codePath, ofBits_bitsLe, ofBits_bitsLe, codeOf, codeOf] at hmod
    have hrank := Nat.ModEq.add_left_cancel' (firstCode L l) hmod
    rw [Nat.ModEq, Nat.mod_eq_of_lt (by omega), Nat.mod_eq_of_lt (by omega)] at hrank
    exact codeOf_inj hs ht (by rw [codeOf, codeOf, hrank])

/-! ## Codes as intervals -/

variable {M : Nat}

theorem firstCode_count_le (hK : Kraft M L) {b : Nat} (h0 : 0 < b) (hb : b ≤ M) :
    firstCode L b + L.count b ≤ 2 ^ b := by
  obtain ⟨c, rfl⟩ : ∃ c, b = c + 1 := ⟨b - 1, by omega⟩
  apply Nat.le_of_mul_le_mul_right _ (Nat.two_pow_pos (M - (c + 1)))
  calc (firstCode L (c + 1) + L.count (c + 1)) * 2 ^ (M - (c + 1))
      = kraftUpTo M L (c + 1) := by rw [Nat.add_mul, firstCode_kraft M L c hb, kraftUpTo_succ]
    _ ≤ kraftUpTo M L M := kraftUpTo_mono M L hb
    _ ≤ 2 ^ M := hK.sum_le
    _ = 2 ^ (c + 1) * 2 ^ (M - (c + 1)) := by rw [← Nat.pow_add]; congr 1; omega

theorem Kraft.apart (hK : Kraft M L) : Apart L := by
  refine apart_iff.mpr fun l h0 => ?_
  by_cases hl : l ≤ M
  · exact Nat.le_trans (Nat.le_add_left _ _) (firstCode_count_le hK h0 hl)
  · rw [List.count_eq_zero_of_not_mem fun h => hl (hK.le l h)]
    exact Nat.zero_le _

theorem codeOf_lt (hK : Kraft M L) (hs : L[s]? = some l) (h0 : 0 < l) : codeOf L s l < 2 ^ l := by
  have hr := count_take_lt hs
  have hle := firstCode_count_le hK h0 (hK.le l (List.mem_of_getElem? hs))
  unfold codeOf; omega

/-- A code's interval ends within the Kraft sum of the lengths up to its own. -/
theorem codeOf_succ_mul_le (hs : L[s]? = some l) (h0 : 0 < l) (hM : l ≤ M) :
    (codeOf L s l + 1) * 2 ^ (M - l) ≤ kraftUpTo M L l := by
  obtain ⟨c, rfl⟩ : ∃ c, l = c + 1 := ⟨l - 1, by omega⟩
  have hr := count_take_lt hs
  rw [kraftUpTo_succ, ← firstCode_kraft M L c hM, ← Nat.add_mul]
  apply Nat.mul_le_mul_right
  unfold codeOf; omega

theorem kraftUpTo_le_codeOf_mul (h : k < l) (hM : l ≤ M) : kraftUpTo M L k ≤ codeOf L s l * 2 ^ (M - l) := by
  obtain ⟨c, rfl⟩ : ∃ c, l = c + 1 := ⟨l - 1, by omega⟩
  calc kraftUpTo M L k
      ≤ kraftUpTo M L c := kraftUpTo_mono M L (by omega)
    _ = firstCode L (c + 1) * 2 ^ (M - (c + 1)) := (firstCode_kraft M L c hM).symm
    _ ≤ codeOf L s (c + 1) * 2 ^ (M - (c + 1)) := Nat.mul_le_mul_right _ (Nat.le_add_right _ _)

theorem codeOf_div_ne (hs : L[s]? = some k) (ht : L[t]? = some l) (hne : s ≠ t) (h0 : 0 < k) (hkl : k ≤ l)
    (hM : l ≤ M) : codeOf L t l / 2 ^ (l - k) ≠ codeOf L s k := by
  intro he
  rcases Nat.eq_or_lt_of_le hkl with rfl | hlt
  · rw [Nat.sub_self, Nat.pow_zero, Nat.div_one] at he
    exact hne (codeOf_inj hs ht he.symm)
  · have hup : codeOf L t l < (codeOf L s k + 1) * 2 ^ (l - k) := by
      rw [← he]; exact Nat.lt_mul_of_div_lt (Nat.lt_succ_self _) (Nat.two_pow_pos _)
    have hcontra : codeOf L t l * 2 ^ (M - l) < codeOf L t l * 2 ^ (M - l) :=
      calc codeOf L t l * 2 ^ (M - l)
          < (codeOf L s k + 1) * 2 ^ (l - k) * 2 ^ (M - l) := Nat.mul_lt_mul_of_pos_right hup (Nat.two_pow_pos _)
        _ = (codeOf L s k + 1) * 2 ^ (M - k) := by rw [Nat.mul_assoc, ← Nat.pow_add]; congr 2; omega
        _ ≤ kraftUpTo M L k := codeOf_succ_mul_le hs h0 (by omega)
        _ ≤ codeOf L t l * 2 ^ (M - l) := kraftUpTo_le_codeOf_mul hlt hM
    exact absurd hcontra (Nat.lt_irrefl _)

end

/-- The codes of a run of symbols of one length count up. -/
theorem codeBits_run {L pre post : List Nat} {n l s : Nat} (hL : L = pre ++ (List.replicate n l ++ post))
    (hs : pre.length ≤ s) (hn : s < pre.length + n) :
    codeBits L s = (bitsLe l (firstCode L l + (pre.count l + (s - pre.length)))).reverse := by
  obtain ⟨i, rfl⟩ := Nat.exists_eq_add_of_le hs
  have hget : L[pre.length + i]? = some l := by
    rw [hL, List.getElem?_append_right (Nat.le_add_right _ _), Nat.add_sub_cancel_left,
      List.getElem?_append_left (by rw [List.length_replicate]; omega), List.getElem?_replicate, if_pos (by omega)]
  have htake : (L.take (pre.length + i)).count l = pre.count l + i := by
    rw [hL, List.take_length_add_append, List.count_append,
      List.take_append_of_le_length (by rw [List.length_replicate]; omega), List.take_replicate,
      Nat.min_eq_left (by omega),
      List.count_replicate_self]
  rw [codeBits, List.getD_eq_getElem?_getD, hget, Option.getD_some, codePath, codeOf, htake, Nat.add_sub_cancel_left]

/-! ## The prefix property -/

theorem suffix_bitsLe {k l m n : Nat} (h : bitsLe k m <:+ bitsLe l n) (hm : m < 2 ^ k) (hn : n < 2 ^ l) :
    k ≤ l ∧ n / 2 ^ (l - k) = m := by
  have hkl := h.length_le
  rw [length_bitsLe, length_bitsLe] at hkl
  obtain ⟨d, rfl⟩ : ∃ d, l = d + k := ⟨l - k, by omega⟩
  obtain ⟨pre, hpre⟩ := h
  rw [bitsLe_add] at hpre
  have htail := (List.append_inj' hpre (by rw [length_bitsLe, length_bitsLe])).2
  have hd : n / 2 ^ d < 2 ^ k := by
    rw [Nat.div_lt_iff_lt_mul (Nat.two_pow_pos d), ← Nat.pow_add, Nat.add_comm]; exact hn
  rw [Nat.add_sub_cancel]
  refine ⟨hkl, ?_⟩
  rw [← ofBits_bitsLe_of_lt hd, ← htail, ofBits_bitsLe_of_lt hm]

/-- **No code continues another.** -/
theorem codePath_not_suffix {M : Nat} {L : List Nat} {s t k l : Nat} (hK : Kraft M L) (hs : L[s]? = some k)
    (ht : L[t]? = some l) (h0 : 0 < k) (hne : s ≠ t) : ¬ (codePath L s k <:+ codePath L t l) := by
  intro h
  have hM : l ≤ M := hK.le l (List.mem_of_getElem? ht)
  have hl : 0 < l := by
    have := h.length_le
    rw [codePath, codePath, length_bitsLe, length_bitsLe] at this; omega
  obtain ⟨hkl, hdiv⟩ := suffix_bitsLe h (codeOf_lt hK hs h0) (codeOf_lt hK ht hl)
  exact codeOf_div_ne hs ht hne h0 hkl hM hdiv

end Ziftsieve
