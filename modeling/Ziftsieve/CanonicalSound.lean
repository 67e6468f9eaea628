import Ziftsieve.HuffmanSound

/-!
# Code lengths give a decoder

`fromLengths` counts the lengths, derives the first code of each, hands the
codes out in the order of the symbols and inserts each one. Where the lengths
satisfy the Kraft inequality it succeeds, and the decoder reads every symbol's
canonical code back.
-/

namespace Ziftsieve.Gzip

/-! ## Reversal -/

theorem bitsLe_reverseLoop : ∀ (n v out k : Nat), out < 2 ^ k → k + n ≤ 16 →
    bitsLe (n + k) (reverseLoop n v out) = (bitsLe n v).reverse ++ bitsLe k out
  | 0, v, out, k, _, _ => by rw [Nat.zero_add]; rfl
  | n + 1, v, out, k, hout, hk => by
    have hpow : 2 ^ (k + 1) ≤ 2 ^ 16 := Nat.pow_le_pow_right (by decide) (by omega)
    rw [Nat.pow_succ] at hpow
    have hnext : (out <<< 1) % 2 ^ 16 ||| v &&& 1 = 2 * out + v % 2 := by
      have hlt : v % 2 < 2 ^ 1 := by omega
      rw [Nat.shiftLeft_eq, Nat.mod_eq_of_lt (by omega), Nat.and_one_is_mod, Nat.pow_one, Nat.mul_comm,
        show 2 * out + v % 2 = 2 ^ 1 * out + v % 2 from rfl, Nat.two_pow_add_eq_or_of_lt hlt]
    have hlt : 2 * out + v % 2 < 2 ^ (k + 1) := by rw [Nat.pow_succ]; omega
    have hbits : bitsLe (k + 1) (2 * out + v % 2) = decide (v % 2 = 1) :: bitsLe k out := by
      rw [bitsLe, show (2 * out + v % 2) % 2 = v % 2 by omega, show (2 * out + v % 2) / 2 = out by omega]
    rw [reverseLoop, hnext, Nat.add_assoc, Nat.add_comm 1, bitsLe_reverseLoop n _ _ _ hlt (by omega), hbits, bitsLe,
      List.reverse_cons, List.append_assoc, Nat.shiftRight_one]
    rfl

theorem bitsLe_reverseBits {v len : Nat} (h : len ≤ 16) : (bitsLe len (reverseBits v len)).reverse = bitsLe len v := by
  have hr := bitsLe_reverseLoop len v 0 0 (by decide) (by omega)
  rw [Nat.add_zero] at hr
  rw [reverseBits, hr, bitsLe, List.append_nil, List.reverse_reverse]

/-! ## Counts and first codes -/

/-- The count of the length `b`, where length zero is no code. -/
def lengthCount (L : List Nat) (b : Nat) : Nat := if b = 0 then 0 else L.count b

theorem foldl_max_ge : ∀ {L : List Nat} {a : Nat}, a ≤ L.foldl Nat.max a ∧ ∀ l ∈ L, l ≤ L.foldl Nat.max a
  | [], a => ⟨Nat.le_refl _, fun _ h => nomatch h⟩
  | x :: L, a => by
    obtain ⟨ha, hL⟩ := foldl_max_ge (L := L) (a := Nat.max a x)
    refine ⟨Nat.le_trans (Nat.le_max_left _ _) ha, fun l hl => ?_⟩
    rcases List.mem_cons.mp hl with rfl | hl
    · exact Nat.le_trans (Nat.le_max_right _ _) ha
    · exact hL l hl

theorem foldl_max_le {M : Nat} : ∀ {L : List Nat} {a : Nat}, a ≤ M → (∀ l ∈ L, l ≤ M) → L.foldl Nat.max a ≤ M
  | [], _, ha, _ => ha
  | x :: L, a, ha, h => foldl_max_le (L := L) (a := Nat.max a x) (Nat.max_le.mpr ⟨ha, h x List.mem_cons_self⟩)
      fun l hl => h l (List.mem_cons_of_mem _ hl)

section
variable {max : Nat}

theorem countLength_tab (kind : String) {f : Nat → Nat} {l : Nat} (hl : l ≤ max) (h0 : 0 < l) (hf : f l + 1 < 2 ^ 16) :
    countLength kind (tab (max + 1) f) l = .ok (tab (max + 1) (Function.update f l (f l + 1))) := by
  unfold countLength addU16
  rw [if_pos h0, failIf_false _ (by simp only [tab, List.length_map, List.length_range]; omega), Run.ok_bind,
    index_tab (by omega), Run.ok_bind, if_pos hf, Run.ok_bind, setAt_tab _ (by omega)]

theorem countLengths (kind : String) : ∀ {L : List Nat} {f : Nat → Nat}, (∀ l ∈ L, l ≤ max) →
    (∀ l, f l + L.length < 2 ^ 16) → ∃ g, L.foldlM (countLength kind) (tab (max + 1) f) = .ok (tab (max + 1) g) ∧
      g 0 = f 0 ∧ ∀ b, 0 < b → g b = f b + L.count b
  | [], f, _, _ => ⟨f, rfl, rfl, fun b _ => by rw [List.count_nil, Nat.add_zero]⟩
  | 0 :: L, f, hL, hf => by
    obtain ⟨g, hrun, hg0, hg⟩ := countLengths kind (L := L) (f := f)
      (fun l hl => hL l (List.mem_cons_of_mem _ hl)) fun l => by have := hf l; rw [List.length_cons] at this; omega
    refine ⟨g, hrun, hg0, fun b hb => ?_⟩
    rw [hg b hb, List.count_cons_of_ne (by simp; omega)]
  | (l + 1) :: L, f, hL, hf => by
    have hlen := hf
    simp only [List.length_cons] at hlen
    have hturn := countLength_tab kind (f := f) (hL (l + 1) List.mem_cons_self) (Nat.succ_pos l)
      (by have := hlen (l + 1); omega)
    obtain ⟨g, hrun, hg0, hg⟩ := countLengths kind (L := L) (f := Function.update f (l + 1) (f (l + 1) + 1))
      (fun k hk => hL k (List.mem_cons_of_mem _ hk)) fun k => by
        have := hlen k
        rw [Function.update_apply]
        by_cases h : k = l + 1
        · rw [if_pos h]; rw [h] at this; omega
        · rw [if_neg h]; omega
    refine ⟨g, by rw [List.foldlM_cons, hturn, Run.ok_bind, hrun], ?_, fun b hb => ?_⟩
    · rw [hg0, Function.update_of_ne (by omega)]
    · rw [hg b hb, Function.update_apply, List.count_cons]
      by_cases h : b = l + 1
      · rw [if_pos h, if_pos (by simp [h]), h]; omega
      · rw [if_neg h, if_neg (by simp; omega), Nat.add_zero]

theorem counts_of_length {L : List Nat} (kind : String) (hlen : L.length < 2 ^ 16) :
    ∃ f, L.foldlM (countLength kind) (List.replicate (L.foldl Nat.max 0 + 1) 0) =
      .ok (tab (L.foldl Nat.max 0 + 1) f) ∧ ∀ b, f b = lengthCount L b := by
  obtain ⟨f, hcount, hf0, hf⟩ := countLengths kind (L := L) (f := fun _ => 0) (foldl_max_ge (L := L) (a := 0)).2
    (fun _ => by omega)
  refine ⟨f, by rw [replicate_eq_tab]; exact hcount, fun b => ?_⟩
  unfold lengthCount
  by_cases hb : b = 0
  · rw [if_pos hb, hb, hf0]
  · rw [if_neg hb, hf b (by omega), Nat.zero_add]

end

/-! ## Sums in 16 bits -/

/-- The first code of each length, shifted in 16 bits. -/
def wrappedCode (L : List Nat) : Nat → Nat
  | 0 => 0
  | b + 1 => 2 * (wrappedCode L b + lengthCount L b) % 2 ^ 16

/-- No sum of `calculate_next_codes` leaves 16 bits. -/
def CodesFit (L : List Nat) : Prop := ∀ b < L.foldl Nat.max 0, wrappedCode L b + lengthCount L b < 2 ^ 16

instance (L : List Nat) : Decidable (CodesFit L) := Nat.decidableBallLT _ _

theorem lengthCount_le (L : List Nat) (b : Nat) : lengthCount L b ≤ L.length := by
  unfold lengthCount
  split
  · exact Nat.zero_le _
  · exact List.count_le_length

theorem wrappedCode_le (L : List Nat) : ∀ b, wrappedCode L b + 2 * L.length ≤ L.length * 2 ^ (b + 1)
  | 0 => by rw [wrappedCode]; omega
  | b + 1 => by
    have ih := wrappedCode_le L b
    have hc := lengthCount_le L b
    have hmod := Nat.mod_le (2 * (wrappedCode L b + lengthCount L b)) (2 ^ 16)
    have hpow : L.length * 2 ^ (b + 1 + 1) = 2 * (L.length * 2 ^ (b + 1)) := by
      rw [Nat.pow_succ _ (b + 1), ← Nat.mul_assoc, Nat.mul_comm]
    rw [wrappedCode, hpow]
    omega

theorem codesFit_of_short {L : List Nat} {m : Nat} (hL : ∀ l ∈ L, l ≤ m) (hm : L.length * 2 ^ m ≤ 2 ^ 16) :
    CodesFit L := by
  intro b hb
  have hle := wrappedCode_le L b
  have hc := lengthCount_le L b
  have hbm : b + 1 ≤ m := Nat.lt_of_lt_of_le hb (foldl_max_le (Nat.zero_le _) hL)
  have hpow : L.length * 2 ^ (b + 1) ≤ L.length * 2 ^ m :=
    Nat.mul_le_mul_left _ (Nat.pow_le_pow_right (by decide) hbm)
  by_cases h0 : L.length = 0
  · rw [h0] at hle hc
    omega
  · omega

theorem wrappedCode_mod (L : List Nat) : ∀ b, wrappedCode L b % 2 ^ 16 = firstCode L b % 2 ^ 16
  | 0 => rfl
  | b + 1 => by
    have ih := wrappedCode_mod L b
    rw [wrappedCode, firstCode, ← lengthCount]
    omega

section
variable {max : Nat} {L : List Nat} {f : Nat → Nat}

theorem nextCodeTurn_tab {g : Nat → Nat} {code k : Nat} (hk : k + 1 ≤ max) (hfit : code + f k < 2 ^ 16) :
    nextCodeTurn (tab (max + 1) f) (code, tab (max + 1) g) (1 + k) =
      .ok (2 * (code + f k) % 2 ^ 16, tab (max + 1) (Function.update g (k + 1) (2 * (code + f k) % 2 ^ 16))) := by
  unfold nextCodeTurn addU16
  simp only
  rw [Nat.add_sub_cancel_left, index_tab (by omega), Run.ok_bind, if_pos hfit, Run.ok_bind, Nat.shiftLeft_eq,
    Nat.pow_one, Nat.mul_comm _ 2, setAt_tab _ (by omega), Run.ok_bind, Nat.add_comm 1 k]
  rfl

variable (hf : ∀ b, f b = lengthCount L b)
include hf

theorem nextCodes_fit : ∀ {k : Nat}, k ≤ max → (∀ b < k, wrappedCode L b + lengthCount L b < 2 ^ 16) →
    ∃ g, (List.range' 1 k).foldlM (nextCodeTurn (tab (max + 1) f)) (0, List.replicate (max + 1) 0) =
      .ok (wrappedCode L k, tab (max + 1) g) ∧ ∀ b ≤ k, g b = wrappedCode L b
  | 0, _, _ => by
    refine ⟨fun _ => 0, by rw [replicate_eq_tab]; rfl, fun b hb => ?_⟩
    rw [Nat.le_zero.mp hb]; rfl
  | k + 1, hk, hfit => by
    obtain ⟨g, hrun, hg⟩ := nextCodes_fit (k := k) (by omega) fun b hb => hfit b (by omega)
    have hturn := nextCodeTurn_tab (f := f) (g := g) hk (by rw [hf]; exact hfit k (Nat.lt_succ_self k))
    rw [hf k] at hturn
    refine ⟨Function.update g (k + 1) (wrappedCode L (k + 1)), ?_, fun b hb => ?_⟩
    · rw [List.range'_1_concat, List.foldlM_append, hrun, Run.ok_bind, List.foldlM_cons, hturn]
      rfl
    · rw [Function.update_apply]
      by_cases h : b = k + 1
      · rw [if_pos h, h]
      · rw [if_neg h, hg b (by omega)]

end

/-! ## Inserting the codes -/

/-- The codes of the first `n` symbols. -/
def Coded (L : List Nat) (n : Nat) (u : List Bool) (s : Nat) : Prop :=
  s < n ∧ ∃ l, L[s]? = some l ∧ 0 < l ∧ u = codePath L s l

theorem coded_succ {L : List Nat} {n l : Nat} (hn : L[n]? = some l) {u : List Bool} {s : Nat} :
    Coded L (n + 1) u s ↔ Coded L n u s ∨ (0 < l ∧ u = codePath L n l ∧ s = n) := by
  unfold Coded
  constructor
  · rintro ⟨hs, k, hk, h0, rfl⟩
    by_cases h : s = n
    · rw [h, hn] at hk
      rw [h, ← Option.some.inj hk]
      rw [← Option.some.inj hk] at h0
      exact .inr ⟨h0, rfl, rfl⟩
    · exact .inl ⟨by omega, k, hk, h0, rfl⟩
  · rintro (⟨hs, h⟩ | ⟨h0, rfl, rfl⟩)
    · exact ⟨by omega, h⟩
    · exact ⟨Nat.lt_succ_self _, l, hn, h0, rfl⟩

theorem trie_congr {nodes : List HuffmanNode} {S T : List Bool → Nat → Prop} (hT : Trie nodes S)
    (h : ∀ u s, S u s ↔ T u s) : Trie nodes T := by
  have hST : S = T := funext fun u => funext fun s => propext (h u s)
  rwa [← hST]

section
variable {max : Nat}

/-- The counter for the length `b` when the first `n` symbols have their codes, up to the
wrap of 16 bits. -/
def Counted (L : List Nat) (max n : Nat) (g : Nat → Nat) : Prop :=
  ∀ b, 0 < b → b ≤ max → g b % 2 ^ 16 = (firstCode L b + (L.take n).count b) % 2 ^ 16

theorem Counted.path {L : List Nat} {g : Nat → Nat} {n l : Nat} (hg : Counted L max n g) (h0 : 0 < l) (hl : l ≤ max)
    (hmax : max ≤ 15) : (bitsLe l (reverseBits (g l) l)).reverse = codePath L n l := by
  have hdvd : 2 ^ l ∣ 2 ^ 16 := Nat.pow_dvd_pow 2 (by omega)
  have hlow : g l % 2 ^ l = codeOf L n l % 2 ^ l := by
    rw [← Nat.mod_mod_of_dvd _ hdvd, hg l h0 hl, Nat.mod_mod_of_dvd _ hdvd]
    rfl
  rw [bitsLe_reverseBits (by omega), ← bitsLe_mod, hlow, bitsLe_mod]
  rfl

theorem Counted.update {L : List Nat} {g : Nat → Nat} {n l : Nat} (hg : Counted L max n g) (hn : L[n]? = some l)
    (h0 : 0 < l) (hl : l ≤ max) : Counted L max (n + 1) (Function.update g l ((g l + 1) % 2 ^ 16)) := by
  obtain ⟨hlt, hget⟩ := List.getElem?_eq_some_iff.mp hn
  intro b hb hbm
  rw [Function.update_apply, List.take_succ_eq_append_getElem hlt, hget, List.count_append, List.count_singleton]
  by_cases hbl : b = l
  · have := hg l h0 hl
    rw [if_pos hbl, if_pos (by simp [hbl]), hbl]
    omega
  · rw [if_neg hbl, if_neg (by simp; omega), Nat.add_zero, hg b hb hbm]

theorem Counted.skip {L : List Nat} {g : Nat → Nat} {n : Nat} (hg : Counted L max n g) (hn : L[n]? = some 0) :
    Counted L max (n + 1) g := by
  obtain ⟨hlt, hget⟩ := List.getElem?_eq_some_iff.mp hn
  intro b hb hbm
  rw [List.take_succ_eq_append_getElem hlt, hget, List.count_append, List.count_singleton, if_neg (by simp; omega),
    Nat.add_zero, hg b hb hbm]

theorem populateTurn_coded {nodes : List HuffmanNode} {g : Nat → Nat} {n l : Nat} (h0 : 0 < l)
    (hl : l ≤ max) (hn15 : n ≤ 32767) :
    populateTurn max (nodes, tab (max + 1) g) (l, n) = (do
      let nodes ← insert nodes (reverseBits (g l) l) l n
      pure (nodes, tab (max + 1) (Function.update g l ((g l + 1) % 2 ^ 16)))) := by
  unfold populateTurn
  simp only
  rw [if_neg (by omega), index_tab (by omega), Run.ok_bind, setAt_tab _ (by omega), Run.ok_bind,
    failIf_false _ (by omega), Run.ok_bind]

theorem populateTurn_trie {L : List Nat} {nodes : List HuffmanNode} {g : Nat → Nat} {n l : Nat}
    (hmax : max ≤ 15) (hn : L[n]? = some l) (hl : l ≤ max) (hn15 : n ≤ 32767) (hsize : nodes.length + 15 ≤ 32768)
    (hg : Counted L max n g) (hT : Trie nodes (Coded L n)) (hfree : 0 < l → ∀ s, ¬ Coded L n (codePath L n l) s) :
    ∃ nodes' g', populateTurn max (nodes, tab (max + 1) g) (l, n) = .ok (nodes', tab (max + 1) g') ∧
      Trie nodes' (Coded L (n + 1)) ∧ nodes'.length ≤ nodes.length + 15 ∧ Counted L max (n + 1) g' := by
  rcases Nat.eq_zero_or_pos l with rfl | h0
  · refine ⟨nodes, g, ?_, trie_congr hT fun u s => ?_, Nat.le_add_right _ _, hg.skip hn⟩
    · unfold populateTurn
      simp only
      rw [if_pos (by simp)]
      rfl
    · rw [coded_succ hn]; simp
  · have hpath := hg.path h0 hl hmax
    obtain ⟨nodes', hins, hT', hlen⟩ := insert_trie hT (by omega) hn15
      (show ∀ s, ¬ Coded L n (bitsLe l (reverseBits (g l) l)).reverse s by rw [hpath]; exact hfree h0)
    refine ⟨nodes', _, by rw [populateTurn_coded h0 hl hn15, hins]; rfl, trie_congr hT' fun u s => ?_, by omega,
      hg.update hn h0 hl⟩
    rw [coded_succ hn, hpath]
    exact or_congr Iff.rfl ⟨fun h => ⟨by omega, h⟩, fun h => h.2⟩

theorem populateTurn_taken {L : List Nat} {nodes : List HuffmanNode} {g : Nat → Nat} {n l s : Nat} (hmax : max ≤ 15)
    (hl : l ≤ max) (hn15 : n ≤ 32767) (hsize : nodes.length + 15 ≤ 32768) (hg : Counted L max n g)
    (hT : Trie nodes (Coded L n)) (h0 : 0 < l) (hs : Coded L n (codePath L n l) s) :
    ∃ e, populateTurn max (nodes, tab (max + 1) g) (l, n) = .error e := by
  obtain ⟨e, he⟩ : ∃ e, insert nodes (reverseBits (g l) l) l n = .error e :=
    insert_taken hT (by omega) (by rw [hg.path h0 hl hmax]; exact hs)
  exact ⟨e, by rw [populateTurn_coded h0 hl hn15, he]; rfl⟩

section
variable {L : List Nat} (hmax : max ≤ 15) (hL : ∀ l ∈ L, l ≤ max) (hlen : 15 * L.length < 2 ^ 15)
include hmax hL hlen

/-- By induction on the symbols left: codes on paths of their own all find their place, and
a run that finds a place for all has found their paths free. -/
theorem populate_trie : ∀ (post pre : List Nat) {nodes : List HuffmanNode} {g : Nat → Nat},
      L = pre ++ post → Counted L max pre.length g → Trie nodes (Coded L pre.length) →
      nodes.length ≤ 1 + 15 * pre.length →
      ((∀ n l, pre.length ≤ n → L[n]? = some l → 0 < l → ∀ s, ¬ Coded L n (codePath L n l) s) →
        ∃ nodes' nc, (post.zipIdx pre.length).foldlM (populateTurn max) (nodes, tab (max + 1) g) = .ok (nodes', nc) ∧
          Trie nodes' (Coded L L.length)) ∧
      ∀ r, (post.zipIdx pre.length).foldlM (populateTurn max) (nodes, tab (max + 1) g) = .ok r →
        ∀ n l, pre.length ≤ n → L[n]? = some l → 0 < l → ∀ s, ¬ Coded L n (codePath L n l) s
  | [], pre, nodes, g, h, _, hT, _ => by
    have hall : pre.length = L.length := by rw [h, List.append_nil]
    refine ⟨fun _ => ⟨nodes, _, rfl, hall ▸ hT⟩, fun _ _ n l hn hget => ?_⟩
    have := (List.getElem?_eq_some_iff.mp hget).1
    omega
  | l :: post, pre, nodes, g, h, hg, hT, hsize => by
    have hn : L[pre.length]? = some l := by rw [h, List.getElem?_append_right (Nat.le_refl _), Nat.sub_self]; rfl
    have hlt : pre.length + 1 ≤ L.length := by rw [h]; simp only [List.length_append, List.length_cons]; omega
    have hl := hL l (List.mem_of_getElem? hn)
    have hnext : pre.length + 1 = (pre ++ [l]).length := by simp
    rw [List.zipIdx_cons, List.foldlM_cons]
    by_cases hfree : 0 < l → ∀ s, ¬ Coded L pre.length (codePath L pre.length l) s
    · obtain ⟨nodes₁, g₁, hturn, hT₁, hs₁, hg₁⟩ := populateTurn_trie hmax hn hl (by omega) (by omega) hg hT hfree
      rw [hnext] at hT₁ hg₁
      obtain ⟨hrun, hfound⟩ := populate_trie post (pre ++ [l]) (by rw [h]; simp) hg₁ hT₁ (by rw [← hnext]; omega)
      rw [hturn, Run.ok_bind, hnext]
      refine ⟨fun hall => hrun fun n k hk => hall n k (by omega), fun r hr n k hk hget hk0 => ?_⟩
      rcases Nat.eq_or_lt_of_le hk with rfl | hk
      · rw [hn] at hget
        cases hget
        exact hfree hk0
      · exact hfound r hr n k (by omega) hget hk0
    · push Not at hfree
      obtain ⟨h0, s, hs⟩ := hfree
      obtain ⟨e, he⟩ := populateTurn_taken hmax hl (by omega) (by omega) hg hT h0 hs
      refine ⟨fun hall => absurd hs (hall _ l (Nat.le_refl _) hn h0 s), fun r hr => ?_⟩
      rw [he] at hr
      cases hr

end

end

/-! ## The decoder -/

section
variable {L : List Nat}

/-- Codes are apart when each finds its path free of those before it. -/
theorem apart_iff_free : Apart L ↔ ∀ n l, L[n]? = some l → 0 < l → ∀ s, ¬ Coded L n (codePath L n l) s := by
  constructor
  · rintro hapart n l hn hpos s ⟨hlt, k, hk, -, he⟩
    have hkl : k = l := by
      have := congrArg List.length he
      rwa [codePath, codePath, length_bitsLe, length_bitsLe, eq_comm] at this
    rw [hkl] at hk he
    exact absurd (hapart n s l hn hk hpos he) (by omega)
  · intro hfree s t l hs ht hpos he
    by_contra hne
    rcases Nat.lt_or_gt_of_ne hne with hlt | hlt
    · exact hfree t l ht hpos s ⟨hlt, l, hs, hpos, he.symm⟩
    · exact hfree s l hs hpos t ⟨hlt, l, ht, hpos, he⟩

/-- **`fromLengths` takes the vectors whose sums fit and whose codes have paths of their own**,
and builds the canonical code. -/
theorem fromLengths_apart (h15 : ∀ l ∈ L, l ≤ 15) (hlen : 15 * L.length < 2 ^ 15) (hfit : CodesFit L) (kind : String) :
    (Apart L → ∃ d, HuffmanDecoder.fromLengths L kind = .ok d ∧ (∀ l ∈ L, l ≤ d.maxBits) ∧
      Trie d.nodes (Coded L L.length)) ∧
    ∀ d, HuffmanDecoder.fromLengths L kind = .ok d → Apart L := by
  have hle := (foldl_max_ge (L := L) (a := 0)).2
  have hmax : L.foldl Nat.max 0 ≤ 15 := foldl_max_le (by decide) h15
  obtain ⟨f, hcount, hf⟩ := counts_of_length (L := L) kind (by omega)
  obtain ⟨g, hnext, hg⟩ := nextCodes_fit hf (Nat.le_refl _) hfit
  have hcounted : Counted L (L.foldl Nat.max 0) 0 g := by
    intro b _ hb
    rw [hg b hb, wrappedCode_mod]
    rfl
  have hempty : Trie [HuffmanNode.empty] (Coded L 0) := by
    refine trie_congr Trie.empty fun u s => ⟨False.elim, ?_⟩
    rintro ⟨hs, -⟩
    exact absurd hs (Nat.not_lt_zero _)
  obtain ⟨hpop, hfound⟩ := populate_trie hmax hle hlen L [] rfl hcounted hempty (Nat.le_refl _)
  unfold HuffmanDecoder.fromLengths
  simp only
  rw [if_neg (by unfold deflateMaxBits; omega)]
  by_cases h0 : L.foldl Nat.max 0 = 0
  · rw [if_pos h0]
    rw [h0] at hle
    refine ⟨fun _ => ⟨_, rfl, hle, trie_congr Trie.empty fun u s => ?_⟩, fun _ _ s t l hs _ hpos _ => ?_⟩
    · simp only [false_iff]
      rintro ⟨-, l, hl, hpos, -⟩
      have := hle l (List.mem_of_getElem? hl)
      omega
    · have := hle l (List.mem_of_getElem? hs)
      omega
  · rw [if_neg h0, hcount, Run.ok_bind]
    unfold calculateNextCodes populateNodes
    simp only [hnext, Run.ok_bind, Run.pure_eq]
    constructor
    · intro hapart
      obtain ⟨nodes, nc, hrun, hT⟩ := hpop fun n l _ => apart_iff_free.mp hapart n l
      rw [List.length_nil] at hrun
      rw [hrun]
      exact ⟨_, rfl, hle, hT⟩
    · intro d hd
      obtain ⟨s, hs, -⟩ := Run.bind_eq_ok.mp hd
      obtain ⟨r, hr, -⟩ := Run.bind_eq_ok.mp hs
      exact apart_iff_free.mpr fun n l => hfound r hr n l (Nat.zero_le _)

theorem codesFit_of_kraft (hK : Kraft 15 L) : CodesFit L := by
  have hwrap : ∀ b, b ≤ 15 → wrappedCode L b ≤ firstCode L b := by
    intro b _
    rw [← Nat.mod_eq_of_lt (a := wrappedCode L b) (b := 2 ^ 16), wrappedCode_mod]
    · exact Nat.mod_le _ _
    · cases b with
      | zero => exact Nat.two_pow_pos _
      | succ b => exact Nat.mod_lt _ (Nat.two_pow_pos _)
  intro b hb
  have hmax : L.foldl Nat.max 0 ≤ 15 := foldl_max_le (by decide) hK.le
  have hw := hwrap b (by omega)
  rcases Nat.eq_zero_or_pos b with rfl | h0
  · exact Nat.two_pow_pos _
  · have hsum := firstCode_count_le hK h0 (by omega)
    have hpow : 2 ^ b ≤ 2 ^ 15 := Nat.pow_le_pow_right (by decide) (by omega)
    rw [lengthCount, if_neg (by omega)]
    omega

theorem fromLengths_trie (hK : Kraft 15 L) (hlen : 15 * L.length < 2 ^ 15) (kind : String) :
    ∃ d, HuffmanDecoder.fromLengths L kind = .ok d ∧ (∀ l ∈ L, l ≤ d.maxBits) ∧
      Trie d.nodes (Coded L L.length) :=
  (fromLengths_apart hK.le hlen (codesFit_of_kraft hK) kind).1 hK.apart

end

theorem codeBits_of_get {L : List Nat} {s l : Nat} (h : L[s]? = some l) : codeBits L s = (codePath L s l).reverse := by
  rw [codeBits, List.getD_eq_getElem?_getD, h]; rfl

/-- The decoder reads the code of `s`, wherever it stands. -/
def Decodes (d : HuffmanDecoder) (code : Nat → List Bool) (s : Nat) : Prop :=
  ∀ ⦃data : Bytes⦄ ⦃p : Nat⦄ ⦃rest : List Bool⦄, At (bytesBits data) p (code s ++ rest) →
    Yields (Synced data p) d.decode s (Synced data (p + (code s).length))

/-- **The decoder of a length vector reads back every symbol's code.** -/
theorem fromLengths_sound {L : List Nat} (hK : Kraft 15 L) (hlen : 15 * L.length < 2 ^ 15) (kind : String) :
    ∃ d, HuffmanDecoder.fromLengths L kind = .ok d ∧ ∀ s l, L[s]? = some l → 0 < l → Decodes d (codeBits L) s := by
  obtain ⟨d, hd, hle, hT⟩ := fromLengths_trie hK hlen kind
  refine ⟨d, hd, ?_⟩
  intro s l hs h0 data p rest hat
  have hl := hle l (List.mem_of_getElem? hs)
  have hlt := (List.getElem?_eq_some_iff.mp hs).1
  have hbits : (codeBits L s).length = l := by
    rw [codeBits_of_get hs, List.length_reverse, codePath, length_bitsLe]
  have hrev : (codeBits L s).reverse ++ [] = codePath L s l := by
    rw [codeBits_of_get hs, List.reverse_reverse, List.append_nil]
  have hfree : ∀ v t, Coded L L.length v t → v <:+ codePath L s l → v = codePath L s l := by
    rintro v t ⟨-, k, hk, hk0, rfl⟩ hsuf
    by_cases hst : t = s
    · rw [hst, hs] at hk
      rw [hst, Option.some.inj hk]
    · exact absurd hsuf (codePath_not_suffix hK hk hs hk0 hst)
  unfold HuffmanDecoder.decode
  rw [if_neg (by omega)]
  apply decodeLoop_yields hT (u := [])
  · intro h
    rw [h, List.length_nil] at hbits; omega
  · omega
  · rfl
  · rw [hrev]; exact ⟨hlt, l, hs, h0, rfl⟩
  · rw [hrev]; exact hfree
  · exact hat

theorem fromLengths_coded {L : List Nat} (hK : Kraft 15 L) (hlen : 15 * L.length < 2 ^ 15) (kind : String) :
    ∃ d, HuffmanDecoder.fromLengths L kind = .ok d ∧ ∀ s, L.getD s 0 ≠ 0 → Decodes d (codeBits L) s := by
  obtain ⟨d, hd, hdec⟩ := fromLengths_sound hK hlen kind
  refine ⟨d, hd, fun s hne => ?_⟩
  rw [List.getD_eq_getElem?_getD] at hne
  cases hget : L[s]? with
  | none => rw [hget] at hne; exact absurd rfl hne
  | some l =>
    rw [hget] at hne
    exact hdec s l hget (Nat.pos_of_ne_zero hne)

end Ziftsieve.Gzip
