import Mathlib.InformationTheory.Coding.KraftMcMillan
import Ziftsieve.PrefixCode

/-!
# Prefix-free codes

Words of which none continues another can be told apart in any concatenation,
and so the Kraft inequality holds of their lengths.
-/

namespace Ziftsieve

section
variable {α : Type} {S : Set (List α)}

/-- No word of the set continues another. -/
def PrefixFree (S : Set (List α)) : Prop := ∀ u ∈ S, ∀ v ∈ S, u <+: v → u = v

theorem PrefixFree.uniquelyDecodable (h : PrefixFree S) (hnil : [] ∉ S) : InformationTheory.UniquelyDecodable S := by
  intro us
  induction us with
  | nil =>
    intro vs _ hvs he
    cases vs with
    | nil => rfl
    | cons v vs =>
      have hv : v = [] := (List.append_eq_nil_iff.mp he.symm).1
      exact absurd (hv ▸ hvs v List.mem_cons_self) hnil
  | cons u us ih =>
    intro vs hus hvs he
    cases vs with
    | nil =>
      have hu : u = [] := (List.append_eq_nil_iff.mp he).1
      exact absurd (hu ▸ hus u List.mem_cons_self) hnil
    | cons v vs =>
      rw [List.flatten_cons, List.flatten_cons] at he
      have hmem := hus u List.mem_cons_self
      have hmem' := hvs v List.mem_cons_self
      -- both words start the same string, so one continues the other
      have huv : u = v := by
        rcases List.prefix_or_prefix_of_prefix (List.prefix_append u us.flatten)
          (he ▸ List.prefix_append v vs.flatten) with hp | hp
        · exact h u hmem v hmem' hp
        · exact (h v hmem' u hmem hp).symm
      rw [huv] at he ⊢
      rw [ih vs (fun w hw => hus w (List.mem_cons_of_mem _ hw)) (fun w hw => hvs w (List.mem_cons_of_mem _ hw))
        (List.append_cancel_left he)]

end

section
variable {M : Nat} {L : List Nat} {code : Nat → List Bool}

theorem kraftUpTo_eq_sum (hle : ∀ l ∈ L, l ≤ M) :
    kraftUpTo M L M = ∑ s : Fin L.length with 0 < L[s.1], 2 ^ (M - L[s.1]) := by
  rw [kraftUpTo, ← Fin.sum_univ_fun_getElem, Finset.sum_filter]
  refine Finset.sum_congr rfl fun s _ => if_congr ?_ rfl rfl
  exact and_iff_left (hle _ (List.getElem_mem s.2))

/-- **The Kraft inequality** for the lengths of a prefix-free code. -/
theorem kraft_of_prefixFree (hle : ∀ l ∈ L, l ≤ M) (hlen : ∀ s l, L[s]? = some l → (code s).length = l)
    (hfree : ∀ s t k l, L[s]? = some k → L[t]? = some l → 0 < k → 0 < l → code s <+: code t → s = t) : Kraft M L := by
  classical
  refine ⟨hle, ?_⟩
  let I : Finset (Fin L.length) := {s | 0 < L[s.1]}
  let word : Fin L.length → List Bool := fun s => code s
  have hget : ∀ s : Fin L.length, L[s.1]? = some L[s.1] := fun s => List.getElem?_eq_getElem s.2
  have hpos : ∀ s ∈ I, 0 < L[s.1] := fun s hs => (Finset.mem_filter.mp hs).2
  have hinj : ∀ s ∈ I, ∀ t ∈ I, word s <+: word t → s = t := fun s hs t ht hp =>
    Fin.ext (hfree s t _ _ (hget s) (hget t) (hpos s hs) (hpos t ht) hp)
  have hdecodable : InformationTheory.UniquelyDecodable (I.image word : Set (List Bool)) := by
    rw [Finset.coe_image]
    refine PrefixFree.uniquelyDecodable ?_ ?_
    · intro u hu v hv hp
      obtain ⟨s, hs, rfl⟩ := hu
      obtain ⟨t, ht, rfl⟩ := hv
      rw [hinj s hs t ht hp]
    · rintro ⟨s, hs, hnil⟩
      have hlt := hpos s hs
      rw [← hlen s _ (hget s)] at hlt
      exact List.length_pos_iff.mp hlt hnil
  have hsum : ∑ s ∈ I, (1 / 2 : ℝ) ^ L[s.1] ≤ 1 := by
    have hkraft := InformationTheory.kraft_mcmillan_inequality hdecodable
    rw [Finset.sum_image fun s hs t ht (he : word s = word t) => hinj s hs t ht (he ▸ List.prefix_refl _)] at hkraft
    simpa only [word, hlen _ _ (hget _), Fintype.card_bool, Nat.cast_ofNat] using hkraft
  have hscale : ∑ s ∈ I, (2 : ℝ) ^ (M - L[s.1]) = 2 ^ M * ∑ s ∈ I, (1 / 2 : ℝ) ^ L[s.1] := by
    rw [Finset.mul_sum]
    refine Finset.sum_congr rfl fun s _ => ?_
    rw [pow_sub₀ _ two_ne_zero (hle _ (List.getElem_mem s.2)), one_div, inv_pow]
  have hreal : (kraftUpTo M L M : ℝ) ≤ 2 ^ M := by
    rw [kraftUpTo_eq_sum hle, Nat.cast_sum]
    simp only [Nat.cast_pow, Nat.cast_ofNat]
    rw [hscale]
    exact mul_le_of_le_one_right (by positivity) hsum
  exact_mod_cast hreal

end

/-! ## Splitting a string into words -/

/-- The words of the symbols in `A`, of which none continues another. -/
structure Coding {σ α : Type} (A : Set σ) (code : σ → List α) : Prop where
  ne_nil : ∀ s ∈ A, code s ≠ []
  inj : ∀ s ∈ A, ∀ t ∈ A, code s <+: code t → s = t

/-- The string, with `k` times `z` behind it, is the words of `xs`; what is put behind does
not make up the last word alone. -/
structure Split {σ α : Type} (code : σ → List α) (z : α) (w : List α) (xs : List σ) (k : Nat) : Prop where
  words : w ++ List.replicate k z = xs.flatMap code
  few : k = 0 ∨ ∃ init s, xs = init ++ [s] ∧ k < (code s).length

section
variable {σ α : Type} {A : Set σ} {code : σ → List α} {z : α} {w : List α}

/-- What a string and letters behind it start with is in the string, or the string with some of the letters. -/
theorem prefix_append_replicate {c : List α} {m : Nat} (h : c <+: w ++ List.replicate m z) :
    c <+: w ∨ w.length < c.length ∧ w ++ List.replicate (c.length - w.length) z = c := by
  by_cases hle : c.length ≤ w.length
  · exact .inl (List.prefix_of_prefix_length_le h (List.prefix_append _ _) hle)
  · have hlt := Nat.lt_of_not_le hle
    have hlen := h.length_le
    have htake := List.prefix_iff_eq_take.mp h
    rw [List.length_append, List.length_replicate] at hlen
    rw [List.take_append, List.take_of_length_le (Nat.le_of_lt hlt), List.take_replicate, Nat.min_eq_left (by omega)] at htake
    exact .inr ⟨hlt, htake.symm⟩

theorem Coding.prefix_of_append (hc : Coding A code) : ∀ {xs ys : List σ} {tail : List α}, (∀ x ∈ xs, x ∈ A) →
    (∀ y ∈ ys, y ∈ A) → xs.flatMap code ++ tail = ys.flatMap code → xs <+: ys
  | [], ys, _, _, _, _ => List.nil_prefix
  | x :: xs, [], _, hxs, _, h => by
    rw [List.flatMap_cons, List.flatMap_nil, List.append_eq_nil_iff, List.append_eq_nil_iff] at h
    exact absurd h.1.1 (hc.ne_nil x (hxs x List.mem_cons_self))
  | x :: xs, y :: ys, tail, hxs, hys, h => by
    rw [List.flatMap_cons, List.flatMap_cons, List.append_assoc] at h
    have hx := hxs x List.mem_cons_self
    have hy := hys y List.mem_cons_self
    -- the first words of both rows start one string
    have hxy : x = y := by
      rcases List.prefix_or_prefix_of_prefix (List.prefix_append (code x) (xs.flatMap code ++ tail))
        (h ▸ List.prefix_append (code y) (ys.flatMap code)) with hp | hp
      · exact hc.inj x hx y hy hp
      · exact (hc.inj y hy x hx hp).symm
    rw [hxy] at h ⊢
    have hrest := hc.prefix_of_append (fun v hv => hxs v (List.mem_cons_of_mem _ hv))
      (fun v hv => hys v (List.mem_cons_of_mem _ hv)) (List.append_cancel_left h)
    exact (List.prefix_cons_inj y).mpr hrest

theorem Split.whole (code : σ → List α) (z : α) (xs : List σ) : Split code z (xs.flatMap code) xs 0 :=
  ⟨List.append_nil _, .inl rfl⟩

theorem Split.cons {s : σ} {xs : List σ} {k : Nat} (h : Split code z w xs k) :
    Split code z (code s ++ w) (s :: xs) k := by
  refine ⟨by rw [List.append_assoc, h.words, List.flatMap_cons], ?_⟩
  rcases h.few with h0 | ⟨init, s', rfl, hlt⟩
  · exact .inl h0
  · exact .inr ⟨s :: init, s', rfl, hlt⟩

theorem Split.last {s : σ} {k : Nat} (hw : w ≠ []) (h : w ++ List.replicate k z = code s) : Split code z w [s] k := by
  refine ⟨by rw [h, List.flatMap_singleton], .inr ⟨[], s, rfl, ?_⟩⟩
  have := List.length_pos_iff.mpr hw
  rw [← h, List.length_append, List.length_replicate]
  omega

theorem Split.unique_of_le (hc : Coding A code) {xs ys : List σ} {j k : Nat} (hxs : ∀ x ∈ xs, x ∈ A)
    (hys : ∀ y ∈ ys, y ∈ A) (h : Split code z w xs j) (h' : Split code z w ys k) (hjk : j ≤ k) : xs = ys ∧ j = k := by
  have hwords : xs.flatMap code ++ List.replicate (k - j) z = ys.flatMap code := by
    rw [← h.words, ← h'.words, List.append_assoc, List.replicate_append_replicate, Nat.add_sub_cancel' hjk]
  obtain ⟨rest, hrest⟩ := hc.prefix_of_append hxs hys hwords
  have hlen : k - j = (rest.flatMap code).length := by
    rw [← hrest, List.flatMap_append] at hwords
    rw [← List.append_cancel_left hwords, List.length_replicate]
  rcases List.eq_nil_or_concat rest with rfl | ⟨init, s, rfl⟩
  · rw [List.flatMap_nil, List.length_nil] at hlen
    exact ⟨by rw [← hrest, List.append_nil], by omega⟩
  · -- a word more than `xs` has would be made of what is put behind
    have hs : s ∈ A := hys s (by rw [← hrest]; simp)
    have hpos := List.length_pos_iff.mpr (hc.ne_nil s hs)
    rw [List.concat_eq_append] at hrest hlen
    rw [List.flatMap_append, List.flatMap_singleton, List.length_append] at hlen
    rcases h'.few with h0 | ⟨init', s', hlast, hlt⟩
    · omega
    · rw [← hrest, ← List.append_assoc] at hlast
      rw [← List.singleton_inj.mp (List.append_inj_right' hlast rfl)] at hlt
      omega

/-- **A string splits in one way.** -/
theorem Split.unique (hc : Coding A code) {xs ys : List σ} {j k : Nat} (hxs : ∀ x ∈ xs, x ∈ A)
    (hys : ∀ y ∈ ys, y ∈ A) (h : Split code z w xs j) (h' : Split code z w ys k) : xs = ys ∧ j = k := by
  rcases Nat.le_total j k with hjk | hkj
  · exact h.unique_of_le hc hxs hys h' hjk
  · obtain ⟨hys', hk⟩ := h'.unique_of_le hc hys hxs h hkj
    exact ⟨hys'.symm, hk.symm⟩

/-- Words, and then no more than the start of one. -/
def BreaksOff (A : Set σ) (code : σ → List α) (w : List α) : Prop :=
  ∃ init : List σ, (∀ x ∈ init, x ∈ A) ∧ ∃ s ∈ A, ∃ part, w = init.flatMap code ++ part ∧
    part ≠ [] ∧ part <+: code s ∧ part ≠ code s

/-- The word of `s` is in the string, behind other words. -/
def Takes (A : Set σ) (code : σ → List α) (w : List α) (s : σ) : Prop :=
  ∃ init : List σ, (∀ x ∈ init, x ∈ A) ∧ ∃ rest, w = init.flatMap code ++ (code s ++ rest)

/-- What is put behind a string that is words is nothing. -/
theorem Split.breaksOff_iff (hc : Coding A code) {xs : List σ} {k : Nat} (hxs : ∀ x ∈ xs, x ∈ A)
    (h : Split code z w xs k) : BreaksOff A code w ↔ 0 < k := by
  constructor
  · rintro ⟨init, hinit, s, hs, part, rfl, hne, ⟨tail, htail⟩, hpart⟩
    have hpos : tail ≠ [] := by
      rintro rfl
      exact hpart (by rw [← htail, List.append_nil])
    by_contra h0
    obtain rfl : k = 0 := by omega
    have hwords := h.words
    rw [List.replicate_zero, List.append_nil] at hwords
    obtain ⟨rest, rfl⟩ := hc.prefix_of_append hinit hxs hwords
    rw [List.flatMap_append] at hwords
    have hrest := List.append_cancel_left hwords
    cases rest with
    | nil => exact hne hrest
    | cons x rest =>
      -- the first word of the rest starts the broken one
      have hx := hxs x (List.mem_append_right _ List.mem_cons_self)
      rw [List.flatMap_cons] at hrest
      have hprefix : code x <+: code s := by
        rw [← htail, hrest, List.append_assoc]
        exact List.prefix_append _ _
      obtain rfl := hc.inj x hx s hs hprefix
      rw [hrest, List.append_assoc] at htail
      exact hpos (List.append_eq_nil_iff.mp (List.append_right_eq_self.mp htail)).2
  · intro hk
    rcases h.few with h0 | ⟨init, s, rfl, hlt⟩
    · omega
    · have hwords := h.words
      rw [List.flatMap_append, List.flatMap_singleton, ← List.take_append_drop ((code s).length - k) (code s),
        ← List.append_assoc] at hwords
      obtain ⟨hw, -⟩ := List.append_inj' hwords (by rw [List.length_replicate, List.length_drop]; omega)
      have hlen : ((code s).take ((code s).length - k)).length = (code s).length - k := by
        rw [List.length_take]
        omega
      refine ⟨init, fun x hx => hxs x (List.mem_append_left _ hx), s, hxs s (by simp), _, hw, ?_, List.take_prefix _ _, ?_⟩
      · exact List.ne_nil_of_length_pos (by omega)
      · intro heq
        rw [heq] at hlen
        omega

/-- The symbols of a string that is words are those whose words are in it. -/
theorem Split.takes_iff (hc : Coding A code) {xs : List σ} {s : σ} (hxs : ∀ x ∈ xs, x ∈ A) (hs : s ∈ A)
    (h : Split code z w xs 0) : Takes A code w s ↔ s ∈ xs := by
  have hwords := h.words
  rw [List.replicate_zero, List.append_nil] at hwords
  constructor
  · rintro ⟨init, hinit, rest, rfl⟩
    have hjoined : (init ++ [s]).flatMap code ++ rest = xs.flatMap code := by
      rw [← hwords, List.flatMap_append, List.flatMap_singleton, List.append_assoc]
    have hprefix : init ++ [s] <+: xs := by
      refine hc.prefix_of_append (fun x hx => ?_) hxs hjoined
      rcases List.mem_append.mp hx with hx | hx
      · exact hinit x hx
      · rw [List.mem_singleton.mp hx]
        exact hs
    exact hprefix.subset (by simp)
  · intro hmem
    obtain ⟨init, rest, rfl⟩ := List.append_of_mem hmem
    refine ⟨init, fun x hx => hxs x (List.mem_append_left _ hx), rest.flatMap code, ?_⟩
    rw [hwords, List.flatMap_append, List.flatMap_cons]

end

end Ziftsieve
