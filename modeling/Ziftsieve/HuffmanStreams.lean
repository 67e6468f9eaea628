import Ziftsieve.BitIoSound
import Ziftsieve.LiteralsFormat
import Ziftsieve.PrefixFree
import Ziftsieve.ZstdHuffmanSafe

/-!
# Streams of a Huffman code

A stream is read from its end: zeros, the marker bit, and the codes of its
symbols. The decoder's state is the window of a table word; a turn takes the
code the window starts with. What it returns splits the bits behind the marker
into codes, the last one completed by zeros.
-/

namespace Ziftsieve.Zstd

section
variable {source : Bytes} {r : BitReaderReversed}

/-! ## The marker -/

theorem eq_marked_of_getD {bits : List Bool} {k : Nat} (hzeros : ∀ i < k, bits.getD i false = false)
    (hone : bits.getD k false = true) : bits = marked k (bits.drop (k + 1)) := by
  induction k generalizing bits with
  | zero =>
    cases bits with
    | nil => cases hone
    | cons b bits =>
      obtain rfl : b = true := hone
      rfl
  | succ k ih =>
    cases bits with
    | nil => cases hone
    | cons b bits =>
      obtain rfl : b = false := hzeros 0 (Nat.succ_pos k)
      have hrest := ih (fun i hi => hzeros (i + 1) (Nat.succ_lt_succ hi)) hone
      conv_lhs => rw [hrest]
      rfl

theorem getD_marked_lt {k i : Nat} {w : List Bool} (h : i < k) : (marked k w).getD i false = false := by
  rw [marked, List.getD_append _ _ _ _ (by rw [List.length_replicate]; exact h), List.getD_replicate _ h]

theorem getD_marked {k : Nat} {w : List Bool} : (marked k w).getD k false = true := by
  rw [marked, List.getD_append_right _ _ _ _ (by rw [List.length_replicate]), List.length_replicate, Nat.sub_self]
  rfl

theorem marked_inj {j k : Nat} {v w : List Bool} (h : marked j v = marked k w) : j = k ∧ v = w := by
  have hlt : ∀ {j k v w}, marked j v = marked k w → ¬ j < k := by
    intro j k v w h hjk
    have := getD_marked_lt (w := w) hjk
    rw [← h, getD_marked] at this
    cases this
  obtain rfl : j = k := Nat.le_antisymm (Nat.le_of_not_lt (hlt h.symm)) (Nat.le_of_not_lt (hlt h))
  exact ⟨rfl, (List.cons.inj (List.append_cancel_left h)).2⟩

theorem skipTurnPadding_reads {n : Nat} (hn : n ≤ 8) (hr : r.Reads source n) : ∃ r', r'.Reads source (n + 1) ∧
    skipTurnPadding (r, n) = .ok (if (backward source).getD n false = true ∨ n = 8 then .done (r', n + 1)
      else .next (r', n + 1)) := by
  obtain ⟨r', hget, hr'⟩ := BitReaderReversed.getBits_reads hr (by omega) (show 1 ≤ 56 by decide)
  have hbit : window (backward source) n 1 = ((backward source).getD n false).toNat := by
    rw [window, window, Nat.mul_zero, Nat.zero_add, Nat.add_zero]
  have hiff : window (backward source) n 1 = 1 ∨ n + 1 > 8 ↔ (backward source).getD n false = true ∨ n = 8 := by
    rw [hbit]
    cases (backward source).getD n false
    · simp; omega
    · simp
  refine ⟨r', hr', ?_⟩
  unfold skipTurnPadding
  simp only
  rw [hget, Run.ok_bind]
  simp only
  rw [if_congr hiff rfl rfl]
  rfl

/-- Nine bits are read at most, up to the first one. -/
theorem skipLoop_gives : ∀ {m n : Nat} {r : BitReaderReversed}, n + m = 8 → r.Reads source n →
    Gives (loop skipTurnPadding (m + 1) (r, n)) fun s => ∃ k, n ≤ k ∧ k ≤ 8 ∧ s.2 = k + 1 ∧ s.1.Reads source (k + 1) ∧
      (∀ i, n ≤ i → i < k → (backward source).getD i false = false) ∧
        ((backward source).getD k false = true ∨ k = 8)
  | m, n, r, hmn, hr => by
    obtain ⟨r', hr', hturn⟩ := skipTurnPadding_reads (by omega) hr
    by_cases hstop : (backward source).getD n false = true ∨ n = 8
    · rw [if_pos hstop] at hturn
      exact ⟨_, loop_done hturn, n, Nat.le_refl n, by omega, rfl, hr', fun i hi hlt => by omega, hstop⟩
    · obtain ⟨m, rfl⟩ : ∃ m', m = m' + 1 := ⟨m - 1, by omega⟩
      rw [if_neg hstop] at hturn
      obtain ⟨s, hs, k, hle, hk, hskipped, hreads, hzeros, hone⟩ := skipLoop_gives (m := m) (n := n + 1) (by omega) hr'
      refine ⟨s, by rw [loop_next hturn, hs], k, by omega, hk, hskipped, hreads, fun i hi hlt => ?_, hone⟩
      rcases Nat.eq_or_lt_of_le hi with rfl | hlt'
      · exact Bool.eq_false_iff.mpr fun h => hstop (.inl h)
      · exact hzeros i hlt' hlt

theorem skipPadding_marked {k : Nat} {w : List Bool} (hk : k ≤ 7) (h : backward source = marked k w)
    (hr : r.Reads source 0) : Gives (skipPadding r) fun r' => r'.Reads source (k + 1) := by
  obtain ⟨⟨r', skipped⟩, hs, j, -, hj, rfl, hreads, hzeros, hone⟩ := skipLoop_gives (m := 8) rfl hr
  have hjk : j = k := by
    rcases Nat.lt_trichotomy j k with hlt | heq | hgt
    · have := getD_marked_lt (w := w) hlt
      rw [← h] at this
      rw [this] at hone
      rcases hone with hone | h8
      · cases hone
      · omega
    · exact heq
    · have := hzeros k (Nat.zero_le k) hgt
      rw [h, getD_marked] at this
      cases this
  unfold skipPadding
  rw [hs, Run.ok_bind]
  simp only
  rw [failIf_false _ (by omega), Run.ok_bind]
  exact Gives.ok (hjk ▸ hreads)

theorem skipPadding_inv {r' : BitReaderReversed} (hr : r.Reads source 0) (h : skipPadding r = .ok r') :
    ∃ k w, k ≤ 7 ∧ backward source = marked k w := by
  obtain ⟨⟨_, skipped⟩, hs, j, -, hj, rfl, -, hzeros, hone⟩ := skipLoop_gives (m := 8) rfl hr
  unfold skipPadding at h
  rw [hs, Run.ok_bind] at h
  obtain ⟨_, hfew, h⟩ := Run.bind_eq_ok.mp h
  rw [failIf_eq_ok] at hfew
  refine ⟨j, _, by omega, eq_marked_of_getD (fun i hi => hzeros i (Nat.zero_le i) hi) ?_⟩
  rcases hone with hone | h8
  · exact hone
  · omega

end

/-! ## Symbols -/

/-- The symbols that have a code. -/
def codedSymbols (ws : List Nat) : Set Nat := {s | 0 < ws.getD s 0}

theorem mem_codedSymbols {ws : List Nat} {s : Nat} : s ∈ codedSymbols ws ↔ ∃ w, ws[s]? = some w ∧ 0 < w := by
  show 0 < ws.getD s 0 ↔ _
  rw [List.getD_eq_getElem?_getD]
  cases ws[s]? <;> simp

theorem coded_of_inCell {ws : List Nat} {s w x : Nat} (h : InCell ws s w x) : s ∈ codedSymbols ws :=
  mem_codedSymbols.mpr ⟨w, h.get, h.pos⟩

theorem coding_weightCode {M : Nat} {ws : List Nat} (hc : CompleteWeights M ws) :
    Coding (codedSymbols ws) (weightCode M ws) where
  ne_nil s hs hnil := by
    obtain ⟨w, hw, -⟩ := mem_codedSymbols.mp hs
    have hle := hc.le w (List.mem_of_getElem? hw)
    have hlen := length_weightCode (M := M) hw
    rw [hnil, List.length_nil] at hlen
    omega
  inj s hs t ht hp := by
    obtain ⟨v, hv, hv0⟩ := mem_codedSymbols.mp hs
    obtain ⟨w, hw, hw0⟩ := mem_codedSymbols.mp ht
    exact hc.code_inj hv hv0 hw hw0 hp

section
variable {source : Bytes} {r : BitReaderReversed} {t : HuffmanTable} {ws : List Nat} (ht : t.Coded ws)
include ht

theorem HuffmanTable.symbolTurn_coded {q s w : Nat} (hr : r.Reads source (q + t.maxNumBits))
    (hq : q < 8 * source.length) (hcell : InCell ws s w (window (backward source) q t.maxNumBits)) (out : Bytes) :
    Gives (t.symbolTurn ⟨r, window (backward source) q t.maxNumBits, out⟩) fun turn => ∃ r',
      turn = .next ⟨r', window (backward source) (q + (weightCode t.maxNumBits ws s).length) t.maxNumBits,
        out ++ [UInt8.ofNat s]⟩ ∧
      r'.Reads source (q + (weightCode t.maxNumBits ws s).length + t.maxNumBits) := by
  have hmax := ht.max
  have hpos := hcell.pos
  have hle := ht.weights.le w (List.mem_of_getElem? hcell.get)
  have hlen := length_weightCode (M := t.maxNumBits) hcell.get
  have hsize : 2 ^ t.maxNumBits ≤ 2 ^ 11 := Nat.pow_le_pow_right (by decide) hmax
  have hstate := window_lt (backward source) q t.maxNumBits
  have hentry := ht.cell s w _ hcell
  rw [← hlen] at hentry
  generalize (weightCode t.maxNumBits ws s).length = n at *
  have hslide := window_slide (backward source) q (show n ≤ t.maxNumBits by omega)
  have hnew := window_lt (backward source) (q + t.maxNumBits) n
  obtain ⟨r', hget, hr'⟩ := BitReaderReversed.getBits_reads (n := n) hr (by omega) (by omega)
  have hbound : window (backward source) q t.maxNumBits <<< n < 2 ^ 64 := by
    have hn : 2 ^ n ≤ 2 ^ 11 := Nat.pow_le_pow_right (by decide) (by omega)
    rw [Nat.shiftLeft_eq]
    exact Nat.lt_of_le_of_lt (Nat.mul_le_mul (Nat.le_of_lt (Nat.lt_of_lt_of_le hstate hsize)) hn) (by decide)
  have hnext : window (backward source) q t.maxNumBits <<< n &&& (2 ^ t.maxNumBits - 1) |||
      window (backward source) (q + t.maxNumBits) n = window (backward source) (q + n) t.maxNumBits := by
    have hsplit : (2 : Nat) ^ t.maxNumBits = 2 ^ (t.maxNumBits - n) * 2 ^ n := by
      rw [← Nat.pow_add]
      congr 1
      omega
    rw [Nat.and_two_pow_sub_one_eq_mod, Nat.shiftLeft_eq]
    conv_lhs => rw [hsplit]
    rw [Nat.mul_mod_mul_right, ← Nat.shiftLeft_eq, ← Nat.shiftLeft_add_eq_or_of_lt hnew, Nat.shiftLeft_eq, hslide]
  unfold HuffmanTable.symbolTurn
  rw [hr.valid.bitsRemainingIsize (by rw [hr.bitsRemaining]; omega), Run.ok_bind,
    if_pos (by rw [hr.bitsRemaining]; omega), index_eq_ok.mpr hentry, Run.ok_bind]
  simp only
  rw [hget, Run.ok_bind]
  simp only
  rw [shlU_eq (by omega), Run.ok_bind, ht.length, subU_eq (Nat.two_pow_pos _), Run.ok_bind, Nat.mod_eq_of_lt hbound,
    hnext]
  have hsymbol : UInt8.ofNat (s % 2 ^ 8) = UInt8.ofNat s := UInt8.ofNat_mod_size
  refine Gives.ok ⟨r', by rw [hsymbol], ?_⟩
  rwa [show q + n + t.maxNumBits = q + t.maxNumBits + n by omega]

omit ht in
theorem HuffmanTable.symbolTurn_done {q : Nat} (hr : r.Reads source (q + t.maxNumBits)) (hq : 8 * source.length ≤ q)
    (hnear : q + t.maxNumBits ≤ 8 * source.length + 2 ^ 16) (state : Nat) (out : Bytes) :
    t.symbolTurn ⟨r, state, out⟩ = .ok (.done out) := by
  have hremaining := hr.bitsRemaining
  unfold HuffmanTable.symbolTurn
  rw [hr.valid.bitsRemainingIsize (by omega), Run.ok_bind, if_neg (by omega)]
  rfl

theorem HuffmanTable.symbolLoop_split : ∀ {n q : Nat} {r : BitReaderReversed},
    r.Reads source (q + t.maxNumBits) → q ≤ 8 * source.length + t.maxNumBits → 8 * source.length - q < n → ∀ out : Bytes,
    Gives (loop t.symbolTurn n ⟨r, window (backward source) q t.maxNumBits, out⟩) fun out' => ∃ syms k,
      out' = out ++ syms.map UInt8.ofNat ∧ (∀ s ∈ syms, s ∈ codedSymbols ws) ∧
        Split (weightCode t.maxNumBits ws) false ((backward source).drop q) syms k
  | 0, _, _, _, _, hn => absurd hn (Nat.not_lt_zero _)
  | n + 1, q, r, hr, hnear, hn => by
    -- the fuel is more than the bits left, and a code takes one or more of them
    intro out
    have hmax := ht.max
    have hcoding := coding_weightCode ht.weights
    have hlen := length_backward source
    have hend : ∀ {p}, 8 * source.length ≤ p →
        Split (weightCode t.maxNumBits ws) false ((backward source).drop p) [] 0 := by
      intro p hp
      rw [List.drop_eq_nil_of_le (by omega)]
      exact Split.whole _ _ []
    by_cases hq : q < 8 * source.length
    · obtain ⟨s, w, hcell⟩ := ht.weights.exists_inCell (window_lt (backward source) q t.maxNumBits)
      have hcoded := coded_of_inCell hcell
      obtain ⟨turn, hturn, r', rfl, hr'⟩ := HuffmanTable.symbolTurn_coded ht hr hq hcell out
      have hpos := List.length_pos_iff.mpr (hcoding.ne_nil s hcoded)
      have hcode : (weightCode t.maxNumBits ws s).length ≤ t.maxNumBits := by
        have hweight := hcell.pos
        rw [length_weightCode hcell.get]
        omega
      obtain ⟨out', hloop, syms, k, rfl, hsyms, hsplit⟩ := HuffmanTable.symbolLoop_split (n := n) hr' (by omega) (by omega)
        (out ++ [UInt8.ofNat s])
      refine ⟨_, by rw [loop_next hturn, hloop], s :: syms, ?_⟩
      rcases prefix_append_replicate (ht.weights.code_prefix hcell) with ⟨tail, htail⟩ | ⟨hshort, hcode⟩
      · -- the whole code is there
        have hdrop : (backward source).drop (q + (weightCode t.maxNumBits ws s).length) = tail := by
          rw [← List.drop_drop, ← htail, List.drop_left]
        refine ⟨k, by simp, List.forall_mem_cons.mpr ⟨hcoded, hsyms⟩, ?_⟩
        rw [hdrop] at hsplit
        rw [← htail]
        exact hsplit.cons
      · -- the stream breaks off within the code
        rw [List.length_drop, hlen] at hshort
        obtain ⟨rfl, -⟩ := hsplit.unique hcoding hsyms (by simp) (hend (by omega))
        refine ⟨_, by simp, List.forall_mem_singleton.mpr hcoded, Split.last ?_ hcode⟩
        intro hnil
        have := congrArg List.length hnil
        rw [List.length_drop, List.length_nil] at this
        omega
    · have hdone := HuffmanTable.symbolTurn_done hr (Nat.le_of_not_lt hq) (by omega)
        (window (backward source) q t.maxNumBits) out
      exact ⟨out, loop_done hdone, [], 0, by simp, by simp, hend (Nat.le_of_not_lt hq)⟩

/-- **What a stream decodes to** splits the bits behind its marker. -/
theorem decodeStream_split {stream : Bytes} (hne : stream ≠ []) (hshort : stream.length ≤ 2 ^ 17) {k : Nat}
    {w : List Bool} (hk : k ≤ 7) (h : backward stream = marked k w) (out : Bytes) :
    Gives (decodeStream t stream out) fun out' => ∃ syms j, out' = out ++ syms.map UInt8.ofNat ∧
      (∀ s ∈ syms, s ∈ codedSymbols ws) ∧ Split (weightCode t.maxNumBits ws) false w syms j := by
  have hmax := ht.max
  have hlen := List.length_pos_iff.mpr hne
  have hdrop : (backward stream).drop (k + 1) = w := by
    rw [h, marked, ← List.drop_drop, List.drop_left' List.length_replicate]
    rfl
  obtain ⟨r, hskip, hr⟩ := skipPadding_marked hk h (BitReaderReversed.reads_new (by omega))
  obtain ⟨r', hget, hr'⟩ := BitReaderReversed.getBits_reads (n := t.maxNumBits) hr (by omega) (by omega)
  unfold decodeStream
  rw [if_neg hne, hskip, Run.ok_bind, hget, Run.ok_bind]
  have hrun := HuffmanTable.symbolLoop_split ht hr' (n := stream.length * 8 + t.maxNumBits + 2) (by omega)
    (by omega) out
  rwa [hdrop] at hrun

omit ht in
theorem decodeStream_marked {stream out out' : Bytes} (hne : stream ≠ []) (hshort : stream.length ≤ 2 ^ 17)
    (h : decodeStream t stream out = .ok out') : ∃ k w, k ≤ 7 ∧ backward stream = marked k w := by
  unfold decodeStream at h
  rw [if_neg hne] at h
  obtain ⟨r, hskip, -⟩ := Run.bind_eq_ok.mp h
  exact skipPadding_inv (BitReaderReversed.reads_new (by omega)) hskip

end

/-! ## Literals -/

/-- The streams of `decode_literals`, one or four. -/
def decodeStreams (table : HuffmanTable) (numStreams : Nat) (payload : Bytes) : Opt Bytes :=
  if numStreams = 1 then decodeStream table payload []
  else if numStreams = 4 then do
    failIf (payload.length < 6) ()
    let jump1 ← readLe16 payload 0
    let second ← readLe16 payload 2
    let third ← readLe16 payload 4
    let jump2 := jump1 + second
    let jump3 := jump2 + third
    let streamsData ← slice payload 6 payload.length
    failIf (jump3 > streamsData.length) ()
    let s1 ← slice streamsData 0 jump1
    let s2 ← slice streamsData jump1 jump2
    let s3 ← slice streamsData jump2 jump3
    let s4 ← slice streamsData jump3 streamsData.length
    let out ← decodeStream table s1 []
    let out ← decodeStream table s2 out
    let out ← decodeStream table s3 out
    decodeStream table s4 out
  else fail ()

theorem decodeLiterals_eq_ok {data out : Bytes} {numLiterals numStreams : Nat} (hpos : numLiterals ≠ 0) :
    decodeLiterals data numLiterals numStreams = .ok out ↔ numLiterals ≤ 131072 ∧ data.length ≤ 131072 ∧
      ∃ t treeBytes, HuffmanTable.buildDecoder data = .ok (t, treeBytes) ∧ treeBytes < data.length ∧
        decodeStreams t numStreams (data.drop treeBytes) = .ok out ∧ out.length = numLiterals := by
  unfold decodeLiterals
  constructor
  · intro h
    obtain ⟨_, hmany, h⟩ := Run.bind_eq_ok.mp h
    obtain ⟨_, hlong, h⟩ := Run.bind_eq_ok.mp h
    rw [if_neg hpos] at h
    obtain ⟨⟨t, treeBytes⟩, hbuild, h⟩ := Run.bind_eq_ok.mp h
    obtain ⟨_, htree, h⟩ := Run.bind_eq_ok.mp h
    obtain ⟨payload, hpayload, h⟩ := Run.bind_eq_ok.mp h
    obtain ⟨out', hout, h⟩ := Run.bind_eq_ok.mp h
    obtain ⟨_, hcount, h⟩ := Run.bind_eq_ok.mp h
    obtain rfl := Except.ok.inj h
    rw [failIf_eq_ok] at hmany hlong htree hcount
    rw [slice_eq_ok, List.take_of_length_le (by rw [List.length_drop])] at hpayload
    refine ⟨by omega, by omega, t, treeBytes, hbuild, Nat.lt_of_not_le htree, ?_, not_not.mp hcount⟩
    rw [hpayload.2]
    exact hout
  · rintro ⟨hmany, hlong, t, treeBytes, hbuild, htree, hout, hcount⟩
    have hpayload : (slice data treeBytes data.length : Opt Bytes) = .ok (data.drop treeBytes) :=
      slice_eq_ok.mpr ⟨by omega, List.take_of_length_le (by rw [List.length_drop])⟩
    rw [failIf_false _ (by omega), Run.ok_bind, failIf_false _ (by omega), Run.ok_bind, if_neg hpos, hbuild, Run.ok_bind]
    simp only
    rw [failIf_false _ (Nat.not_le.mpr htree), Run.ok_bind, hpayload, Run.ok_bind]
    unfold decodeStreams at hout
    rw [hout, Run.ok_bind, failIf_false _ (not_not.mpr hcount), Run.ok_bind]
    rfl

end Ziftsieve.Zstd
