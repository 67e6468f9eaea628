import Ziftsieve.CanonicalSound

/-!
# What `fromLengths` can do with any vector

The first codes are summed up in 16 bits before the vector is checked. Where
every sum fits, `fromLengths` gives a decoder whose nodes point into its own
list, or an error; where one does not, it panics.
-/

namespace Ziftsieve.Gzip

/-! ## The sums -/

section
variable {max : Nat} {L : List Nat} {f : Nat → Nat}

theorem nextCodeTurn_panic {g : Nat → Nat} {code k : Nat} (hk : k + 1 ≤ max) (hfit : ¬ code + f k < 2 ^ 16) :
    nextCodeTurn (tab (max + 1) f) (code, tab (max + 1) g) (1 + k) = .error .panic := by
  unfold nextCodeTurn addU16
  simp only
  rw [Nat.add_sub_cancel_left, index_tab (by omega), Run.ok_bind, if_neg hfit]
  rfl

variable (hf : ∀ b, f b = lengthCount L b)
include hf

/-- By induction on the lengths summed up: the first sum that does not fit panics. -/
theorem nextCodes_panic : ∀ {k : Nat}, k ≤ max → (¬ ∀ b < k, wrappedCode L b + lengthCount L b < 2 ^ 16) →
    (List.range' 1 k).foldlM (nextCodeTurn (tab (max + 1) f)) (0, List.replicate (max + 1) 0) = .error .panic
  | 0, _, hfit => absurd (fun b hb => absurd hb (Nat.not_lt_zero b)) hfit
  | k + 1, hk, hfit => by
    have hk' : k ≤ max := Nat.le_of_succ_le hk
    rw [List.range'_1_concat, List.foldlM_append]
    by_cases hbelow : ∀ b < k, wrappedCode L b + lengthCount L b < 2 ^ 16
    · obtain ⟨g, hrun, -⟩ := nextCodes_fit hf hk' hbelow
      have hlast : ¬ wrappedCode L k + f k < 2 ^ 16 := by
        intro h
        refine hfit fun b hb => ?_
        rcases Nat.lt_or_eq_of_le (Nat.le_of_lt_succ hb) with h' | rfl
        · exact hbelow b h'
        · rw [← hf]; exact h
      rw [hrun, Run.ok_bind, List.foldlM_cons, nextCodeTurn_panic hk hlast]
      rfl
    · rw [nextCodes_panic hk' hbelow]
      rfl

end

/-! ## The nodes -/

structure WellFormed (nodes : List HuffmanNode) (n : Nat) : Prop where
  root : 0 < nodes.length
  child : ∀ nd ∈ nodes, ∀ b c, nd.child b = some c → c < nodes.length
  symbol : ∀ nd ∈ nodes, ∀ s, nd.symbol = some s → s < n

theorem HuffmanNode.child_empty (b : Bool) : HuffmanNode.empty.child b = none := by
  cases b <;> rfl

section
variable {nodes : List HuffmanNode} {n : Nat}

theorem wellFormed_empty : WellFormed [HuffmanNode.empty] n where
  root := Nat.one_pos
  child nd hnd b c hc := by
    rw [List.mem_singleton.mp hnd, HuffmanNode.child_empty] at hc
    cases hc
  symbol nd hnd s hs := by
    rw [List.mem_singleton.mp hnd] at hs
    cases hs

theorem WellFormed.grow (h : WellFormed nodes n) {node : Nat} {nd : HuffmanNode} (hnd : nodes[node]? = some nd)
    (bit : Bool) : WellFormed ((nodes ++ [HuffmanNode.empty]).set node (nd.setChild bit nodes.length)) n where
  root := by simp
  child x hx b c hc := by
    rw [List.length_set, List.length_append, List.length_singleton]
    rcases List.mem_or_eq_of_mem_set hx with hx | rfl
    · rcases List.mem_append.mp hx with hx | hx
      · exact Nat.lt_succ_of_lt (h.child x hx b c hc)
      · rw [List.mem_singleton.mp hx, HuffmanNode.child_empty] at hc
        cases hc
    · rw [HuffmanNode.child_setChild] at hc
      split at hc
      · rw [← Option.some.inj hc]; exact Nat.lt_succ_self _
      · exact Nat.lt_succ_of_lt (h.child nd (List.mem_of_getElem? hnd) b c hc)
  symbol x hx s hs := by
    rcases List.mem_or_eq_of_mem_set hx with hx | rfl
    · rcases List.mem_append.mp hx with hx | hx
      · exact h.symbol x hx s hs
      · rw [List.mem_singleton.mp hx] at hs
        cases hs
    · rw [HuffmanNode.symbol_setChild] at hs
      exact h.symbol nd (List.mem_of_getElem? hnd) s hs

theorem WellFormed.setSymbol (h : WellFormed nodes n) {node symbol : Nat} {nd : HuffmanNode}
    (hnd : nodes[node]? = some nd) (hs : symbol < n) :
    WellFormed (nodes.set node { nd with symbol := some symbol }) n where
  root := by rw [List.length_set]; exact h.root
  child x hx b c hc := by
    rw [List.length_set]
    rcases List.mem_or_eq_of_mem_set hx with hx | rfl
    · exact h.child x hx b c hc
    · exact h.child nd (List.mem_of_getElem? hnd) b c hc
  symbol x hx s hs' := by
    rcases List.mem_or_eq_of_mem_set hx with hx | rfl
    · exact h.symbol x hx s hs'
    · rw [← Option.some.inj hs']; exact hs

theorem insertBit_safe {code i : Nat} {s : List HuffmanNode × Nat} (h : WellFormed s.1 n ∧ s.2 < s.1.length) :
    Safe (insertBit code s i) fun t => WellFormed t.1 n ∧ t.2 < t.1.length := by
  unfold insertBit
  refine (index_safe h.2).bind fun nd hnd => ?_
  cases hc : nd.child (code.testBit i) with
  | none =>
    refine Safe.failIf fun _ => Safe.pure ⟨h.1.grow hnd _, ?_⟩
    simp
  | some next => exact Safe.pure ⟨h.1, h.1.child nd (List.mem_of_getElem? hnd) _ _ hc⟩

theorem insert_safe {code bits symbol : Nat} (h : WellFormed nodes n) (hs : symbol < n) :
    Safe (insert nodes code bits symbol) fun nodes' => WellFormed nodes' n := by
  unfold insert
  refine (Safe.foldlM (fun s i _ hI => insertBit_safe hI)
    ⟨h, h.root⟩).bind fun s hI => ?_
  refine (index_safe hI.2).bind fun nd hnd => ?_
  refine Safe.failIf fun _ => Safe.failIf fun _ => (setAt_safe hI.2).imp fun ys hys => ?_
  rw [hys]
  exact hI.1.setSymbol hnd hs

theorem populateTurn_safe {max : Nat} {s : List HuffmanNode × List Nat} {entry : Nat × Nat} (hs : entry.2 < n)
    (h : WellFormed s.1 n ∧ s.2.length = max + 1) :
    Safe (populateTurn max s entry) fun t => WellFormed t.1 n ∧ t.2.length = max + 1 := by
  unfold populateTurn
  simp only
  refine Safe.ite (fun _ => Safe.pure h) fun hlen => ?_
  have hlt : entry.1 < s.2.length := by rw [h.2]; omega
  refine (index_safe hlt).bind fun code _ => (setAt_safe hlt).bind fun nextCode hnext => ?_
  refine Safe.failIf fun _ => (insert_safe h.1 hs).bind fun nodes' hn => Safe.pure ⟨hn, ?_⟩
  rw [hnext, List.length_set, h.2]

end

/-! ## Decoders -/

section
variable {L : List Nat}

/-- **Vectors whose sums fit**, oversubscribed ones included: an error, or a decoder
that stays within its nodes. -/
theorem fromLengths_safe (kind : String) (hlen : L.length < 2 ^ 16) (hfit : CodesFit L) :
    Safe (HuffmanDecoder.fromLengths L kind) fun d => WellFormed d.nodes L.length := by
  unfold HuffmanDecoder.fromLengths
  simp only
  refine Safe.ite (fun _ => Safe.fail _) fun _ => Safe.ite (fun _ => Safe.pure wellFormed_empty) fun _ => ?_
  obtain ⟨f, hcount, hf⟩ := counts_of_length kind hlen
  obtain ⟨g, hnext, -⟩ := nextCodes_fit hf (Nat.le_refl _) hfit
  rw [hcount, Run.ok_bind]
  unfold calculateNextCodes populateNodes
  simp only [hnext, Run.ok_bind, Run.pure_eq]
  refine Safe.bind (Q := fun nodes => WellFormed nodes L.length) ?_ fun nodes hn => Safe.pure hn
  refine Safe.bind (Safe.foldlM (I := fun s : List HuffmanNode × List Nat => WellFormed s.1 L.length ∧
    s.2.length = L.foldl Nat.max 0 + 1) (fun s entry he hI => populateTurn_safe ?_ hI) ⟨wellFormed_empty, ?_⟩)
    fun s hs => Safe.pure hs.1
  · obtain ⟨l, i⟩ := entry
    exact (List.mem_zipIdx' he).1
  · rw [tab, List.length_map, List.length_range]

theorem fromLengths_panic (kind : String) (hlen : L.length < 2 ^ 16) (h15 : ∀ l ∈ L, l ≤ 15) (hfit : ¬ CodesFit L) :
    HuffmanDecoder.fromLengths L kind = .error .panic := by
  have hmax : L.foldl Nat.max 0 ≤ 15 := foldl_max_le (by decide) h15
  have hpos : L.foldl Nat.max 0 ≠ 0 := by
    intro h0
    exact hfit fun b hb => absurd hb (by omega)
  obtain ⟨f, hcount, hf⟩ := counts_of_length kind hlen
  have hnext := nextCodes_panic hf (Nat.le_refl _) hfit
  unfold HuffmanDecoder.fromLengths
  simp only
  rw [if_neg (by unfold deflateMaxBits; omega), if_neg hpos, hcount, Run.ok_bind]
  unfold calculateNextCodes
  rw [hnext]
  rfl

theorem fromLengths_graceful_iff (kind : String) (hlen : L.length < 2 ^ 16) (h15 : ∀ l ∈ L, l ≤ 15) :
    Graceful (HuffmanDecoder.fromLengths L kind) ↔ CodesFit L := by
  constructor
  · intro h
    by_contra hfit
    obtain ⟨e, he⟩ := h _ (fromLengths_panic kind hlen h15 hfit)
    cases he
  · exact fun hfit => (fromLengths_safe kind hlen hfit).graceful

end

end Ziftsieve.Gzip
