import Mathlib.Algebra.Order.BigOperators.Group.List
import Ziftsieve.FseSafe
import Ziftsieve.WeightCode
import Ziftsieve.ZstdHuffman

/-!
# Zstd Huffman tables are complete

The bit counts that the weights give fill the table, longest codes first: the
ranges of the ranks follow one another, and together they are the whole table.
So each state of a stream is a cell, and each symbol takes a bit or more of it.
-/

namespace Ziftsieve.Zstd

/-! ## Weights -/

theorem skipPadding_safe {br : BitReaderReversed} (h : br.Valid) (hbehind : -2 ^ 15 ≤ br.bitsRemaining) :
    Safe (skipPadding br) fun br' =>
      br'.Valid ∧ br.bitsRemaining - 9 ≤ br'.bitsRemaining ∧ br'.bitsRemaining ≤ br.bitsRemaining := by
  unfold skipPadding
  refine Safe.bind (Q := fun s => s.1.Valid ∧ s.1.bitsRemaining = br.bitsRemaining - (s.2 : Int) ∧ s.2 ≤ 9) ?_
    fun s hs => Safe.failIf fun _ => Safe.pure ⟨hs.1, by omega, by omega⟩
  refine Safe.loop (I := fun s : BitReaderReversed × Nat =>
      s.1.Valid ∧ s.1.bitsRemaining = br.bitsRemaining - (s.2 : Int) ∧ s.2 ≤ 8)
    (μ := fun s => 8 - s.2) ?_ 9 (br, 0) ⟨h, (Int.sub_zero _).symm, Nat.zero_le _⟩ (Nat.lt_succ_self 8)
  rintro ⟨br', skippedBits⟩ ⟨hvalid, hremaining, hskipped⟩
  simp only at hremaining hskipped
  unfold skipTurnPadding
  refine (BitReaderReversed.getBits_safe hvalid (by simp only; omega) (by decide)).bind fun r hr => Safe.pure ?_
  obtain ⟨val, br''⟩ := r
  obtain ⟨-, hvalid', hremaining'⟩ := hr
  simp only at hvalid' hremaining' ⊢
  by_cases hstop : val = 1 ∨ skippedBits + 1 > 8
  · rw [if_pos hstop]
    exact ⟨hvalid', by simp only; omega, by simp only; omega⟩
  · rw [if_neg hstop]
    exact ⟨⟨hvalid', by simp only; omega, by simp only; omega⟩, by simp only; omega⟩

structure WeightState.Valid (s : WeightState) : Prop where
  br : s.br.Valid
  behind : -2 ^ 10 ≤ s.br.bitsRemaining
  dec1 : s.dec1.InTable
  dec2 : s.dec2.InTable
  few : s.weights.length ≤ 255

theorem weightTurn_safe {s : WeightState} (h : s.Valid) :
    Safe (weightTurn s) (Turn.Holds (fun t => t.Valid ∧ 256 - t.weights.length < 256 - s.weights.length)
      fun weights => weights.length ≤ 258) := by
  obtain ⟨hbr, hbehind, h1, h2, hfew⟩ := h
  unfold weightTurn
  refine (Fse.FSEDecoder.updateState_safe h1 hbr (by omega)).bind fun r hr => ?_
  obtain ⟨dec1, br⟩ := r
  obtain ⟨hdec1, hbr, hbehind1⟩ := hr
  simp only at hbr hbehind1 ⊢
  rw [hbr.bitsRemainingIsize (by omega), Run.ok_bind]
  refine Safe.ite (fun _ => Safe.pure (by simp only [Turn.Holds, List.length_append, List.length_singleton]; omega))
    fun hleft => ?_
  refine (Fse.FSEDecoder.updateState_safe h2 hbr (by omega)).bind fun r hr => ?_
  obtain ⟨dec2, br⟩ := r
  obtain ⟨hdec2, hbr, hbehind2⟩ := hr
  simp only at hbr hbehind2 ⊢
  rw [hbr.bitsRemainingIsize (by omega), Run.ok_bind]
  refine Safe.ite (fun _ => Safe.pure (by simp only [Turn.Holds, List.length_append, List.length_singleton]; omega))
    fun hleft => Safe.failIf fun hmany => Safe.pure ⟨⟨hbr, ?_, hdec1, hdec2, Nat.le_of_not_lt hmany⟩, ?_⟩
  · simp only at hleft ⊢
    omega
  · simp only [List.length_append, List.length_singleton] at hmany ⊢
    omega

theorem readFseWeights_safe {header : Nat} (hheader : header ≤ 127) {fseStream : Bytes}
    (hshort : fseStream.length ≤ 2 ^ 17) : Safe (readFseWeights header fseStream) fun r => r.1.length ≤ 258 := by
  unfold readFseWeights
  refine Safe.failIf fun hlong => ?_
  refine (Fse.FSETable.buildDecoder_safe (t := Fse.FSETable.new 255) (by decide) (by omega)).bind fun r hbuilt => ?_
  obtain ⟨table, bytesUsedByFseHeader⟩ := r
  refine Safe.failIf fun hused => ?_
  have htable := hbuilt.complete
  simp only at hused htable ⊢
  refine (slice_safe (by omega)).bind fun compressedWeights _ => Safe.failIf fun hlength => ?_
  refine (slice_safe (by omega)).bind fun stream hstream => ?_
  have hmod : (bytesUsedByFseHeader + (header - bytesUsedByFseHeader)) % 2 ^ 32 = header := by omega
  have hnew : (BitReaderReversed.new stream).Valid := BitReaderReversed.valid_new (by omega)
  have hstart := BitReaderReversed.bitsRemaining_new stream
  rw [hmod, mulU_eq (by omega), Run.ok_bind, addU_eq (by omega), Run.ok_bind]
  refine (skipPadding_safe hnew (by omega)).bind fun br hbr => ?_
  refine (Fse.FSEDecoder.initState_safe htable hbr.1 (by omega)).bind fun r hr => ?_
  obtain ⟨dec1, br1⟩ := r
  obtain ⟨hdec1, hbr1, hleft1⟩ := hr
  simp only at hbr1 hleft1
  refine (Fse.FSEDecoder.initState_safe htable hbr1 (by omega)).bind fun r hr => ?_
  obtain ⟨dec2, br2⟩ := r
  obtain ⟨hdec2, hbr2, hleft2⟩ := hr
  simp only at hbr2 hleft2
  refine Safe.bind (Q := fun weights => weights.length ≤ 258) ?_ fun weights hweights => Safe.pure hweights
  exact Safe.loop (I := WeightState.Valid) (μ := fun s => 256 - s.weights.length) (fun s hs => weightTurn_safe hs) _ _
    ⟨hbr2, by simp only; omega, hdec1, hdec2, Nat.zero_le _⟩ (by simp)

theorem readDirectWeights_safe (header : Nat) (weightsRaw : Bytes) :
    Safe (readDirectWeights header weightsRaw) fun r => r.1.length = header - 127 := by
  unfold readDirectWeights
  refine Safe.failIf fun hneeded => ?_
  refine Safe.bind (Q := fun weights : List Nat => weights.length = header - 127) ?_ fun weights hweights =>
    Safe.pure hweights
  refine Safe.foldlM_range (I := fun (_ : Nat) (weights : List Nat) => weights.length = header - 127) ?_ (by simp)
  intro idx hidx weights hlength
  unfold directTurn
  have hin : idx / 2 < weightsRaw.length := by
    split at hneeded
    · omega
    · omega
  rw [index_eq hin, Run.ok_bind, setAt_eq (by omega)]
  exact Safe.ok (by rw [List.length_set, hlength])

theorem readWeights_safe {source : Bytes} (hshort : source.length ≤ 2 ^ 17) :
    Safe (readWeights source) fun r => r.1.length ≤ 258 := by
  unfold readWeights
  refine Safe.failIf fun hne => ?_
  have hpos : 0 < source.length := List.length_pos_of_ne_nil hne
  rw [index_eq hpos, Run.ok_bind]
  have hheader := (source[0]).toNat_lt
  refine (slice_safe (by omega)).bind fun rest hrest => ?_
  refine Safe.bind (Q := fun r => r.1.length ≤ 258) ?_ fun r hr => Safe.pure hr
  refine Safe.ite (fun hfse => readFseWeights_safe hfse (by omega)) fun _ => ?_
  exact (readDirectWeights_safe _ rest).imp fun r hr => by omega

/-! ## Ranks -/

/-- The bits of a symbol's code. -/
def weightBits (maxBits w : Nat) : Nat := if w = 0 then 0 else maxBits + 1 - w

theorem weightBits_le (maxBits w : Nat) : weightBits maxBits w ≤ maxBits := by
  unfold weightBits
  split <;> omega

theorem weightShare_le {w : Nat} (h : w ≤ maxMaxNumBits) : weightShare w ≤ 2 ^ 10 := by
  unfold maxMaxNumBits at h
  unfold weightShare
  split
  · exact Nat.zero_le _
  · exact Nat.pow_le_pow_right (by decide) (by omega)

theorem weightSum_le : ∀ {weights : List Nat}, (∀ w ∈ weights, w ≤ maxMaxNumBits) →
    (weights.map weightShare).sum ≤ weights.length * 2 ^ 10
  | [], _ => Nat.zero_le _
  | w :: weights, h => by
    have hshare := weightShare_le (h w List.mem_cons_self)
    have ih := weightSum_le fun v hv => h v (List.mem_cons_of_mem _ hv)
    rw [List.map_cons, List.sum_cons, List.length_cons, Nat.succ_mul]
    omega

theorem addWeight_eq {sum w : Nat} (hw : w ≤ maxMaxNumBits) (hsum : sum < 2 ^ 20) :
    addWeight sum w = .ok (sum + weightShare w) := by
  have hshare := weightShare_le hw
  unfold maxMaxNumBits at hw
  unfold addWeight
  rw [failIf_false _ (by unfold maxMaxNumBits; omega), Run.ok_bind]
  unfold weightShare at hshare ⊢
  by_cases h0 : w = 0
  · rw [if_neg (by omega), if_pos h0, Run.pure_eq, Run.ok_bind, addU_eq (by omega)]
  · rw [if_neg h0] at hshare
    rw [if_pos (by omega), if_neg h0, shlU_one (by omega), Run.ok_bind, addU_eq (by omega)]

theorem weightSum_eq {weights : List Nat} (hfew : weights.length ≤ 258) (hle : ∀ w ∈ weights, w ≤ maxMaxNumBits) :
    weights.foldlM addWeight 0 = .ok (weights.map weightShare).sum := by
  obtain ⟨sum, hsum, rfl⟩ : Gives (weights.foldlM addWeight 0) fun sum => sum = (weights.map weightShare).sum := by
    refine Gives.foldlM_prefix (I := fun pre sum => sum = (pre.map weightShare).sum) ?_ rfl
    rintro pre w hpre sum rfl
    have hlen := hpre.length_le
    have hbound := weightSum_le fun v hv => hle v (hpre.subset (List.mem_append_left _ hv))
    rw [List.length_append, List.length_singleton] at hlen
    rw [addWeight_eq (hle w (hpre.subset (List.mem_append_right _ (List.mem_singleton_self w)))) (by omega)]
    exact Gives.ok (by rw [List.map_append, List.sum_append, List.map_singleton, List.sum_singleton])
  exact hsum

theorem weightSum_safe {weights : List Nat} (hfew : weights.length ≤ 258) :
    Safe (weights.foldlM addWeight 0) fun sum =>
      (∀ w ∈ weights, w ≤ maxMaxNumBits) ∧ sum = (weights.map weightShare).sum := by
  refine Safe.foldlM_prefix (I := fun pre sum => (∀ w ∈ pre, w ≤ maxMaxNumBits) ∧ sum = (pre.map weightShare).sum) ?_
    ⟨by simp, rfl⟩
  rintro pre w hpre sum ⟨hle, rfl⟩
  have hlen := hpre.length_le
  have hbound := weightSum_le hle
  rw [List.length_append, List.length_singleton] at hlen
  by_cases hw : w ≤ maxMaxNumBits
  · rw [addWeight_eq hw (by omega)]
    refine Safe.ok ⟨fun v hv => ?_, by rw [List.map_append, List.sum_append, List.map_singleton, List.sum_singleton]⟩
    rcases List.mem_append.mp hv with hv | hv
    · exact hle v hv
    · rw [List.mem_singleton.mp hv]
      exact hw
  · unfold addWeight
    rw [failIf_true _ (by omega), Run.error_bind]
    exact Safe.fail ()

theorem count_weightBits {maxBits : Nat} {ws : List Nat} (hle : ∀ w ∈ ws, w ≤ maxBits) {k : Nat} (hk : k < maxBits) :
    (ws.map (weightBits maxBits)).count (maxBits - k) = ws.count (k + 1) := by
  rw [List.count_eq_countP, List.countP_map, List.count_eq_countP]
  refine List.countP_congr fun w hw => ?_
  have := hle w hw
  simp only [Function.comp_apply, weightBits, beq_iff_eq]
  split <;> omega

structure RankCounts (maxBits : Nat) (bits bitRanks : List Nat) : Prop where
  length : bitRanks.length = maxBits + 1
  count : ∀ b ≤ maxBits, bitRanks[b]? = some (bits.count b)

/-- The starts of the first ranks, from the longest codes on. -/
structure RankStarts (maxBits : Nat) (ws : List Nat) (i : Nat) (rankIndexes : List Nat) : Prop where
  length : rankIndexes.length = maxBits + 1
  start : ∀ k ≤ i, rankIndexes[maxBits - k]? = some (weightStart ws k)

section
variable {maxBits : Nat} {bits ws : List Nat}

theorem countRanks_gives (hfew : bits.length ≤ 259) (hbits : ∀ b ∈ bits, b ≤ maxBits) :
    Gives (bits.foldlM countRank (List.replicate (maxBits + 1) 0)) (RankCounts maxBits bits) := by
  refine Gives.foldlM_prefix (I := RankCounts maxBits) ?_ ⟨by simp, fun b hb => ?_⟩
  · intro pre a hpre bitRanks hranks
    have hlen := hpre.length_le
    have ha : a ≤ maxBits := hbits a (hpre.subset (List.mem_append.mpr (.inr (List.mem_singleton_self a))))
    have hcount : pre.count a ≤ pre.length := List.count_le_length
    rw [List.length_append, List.length_singleton] at hlen
    unfold countRank
    have hlength := hranks.length
    rw [index_eq_ok.mpr (hranks.count a ha), Run.ok_bind, addU_eq (by omega), Run.ok_bind, setAt_eq (by omega)]
    refine Gives.ok ⟨by rw [List.length_set, hlength], fun b hb => ?_⟩
    rw [List.count_append, List.count_singleton]
    by_cases hab : a = b
    · rw [← hab, List.getElem?_set_self (by omega), if_pos (beq_self_eq_true a)]
    · rw [List.getElem?_set_ne hab, hranks.count b hb, if_neg (by simpa using hab), Nat.add_zero]
  · rw [List.getElem?_replicate, if_pos (Nat.lt_succ_of_le hb)]
    rfl

theorem rankIndexes_gives {bitRanks : List Nat} (hmax : maxBits ≤ 11) (hc : CompleteWeights maxBits ws)
    (hranks : RankCounts maxBits (ws.map (weightBits maxBits)) bitRanks) :
    Gives ((List.range' 1 maxBits).reverse.foldlM (rankTurn maxBits bitRanks) (List.replicate (maxBits + 1) 0))
      (RankStarts maxBits ws maxBits) := by
  rw [List.reverse_range', List.foldlM_map]
  refine Gives.foldlM_range (I := RankStarts maxBits ws) ?_ ⟨by simp, fun k hk => ?_⟩
  · intro i hi rankIndexes hindexes
    have hrank : 1 + maxBits - 1 - i = maxBits - i := by omega
    have hback : maxBits - (maxBits - i) = i := by omega
    have hsize : 2 ^ maxBits ≤ 2 ^ 11 := Nat.pow_le_pow_right (by decide) hmax
    have hcount := hranks.count _ (Nat.sub_le maxBits i)
    have hend := weightStart_mono ws (Nat.succ_le_of_lt hi)
    have hlength := hindexes.length
    rw [count_weightBits hc.le hi] at hcount
    rw [hc.start_eq, weightStart] at hend
    rw [hrank]
    unfold rankTurn
    rw [index_eq_ok.mpr (hindexes.start i (Nat.le_refl i)), Run.ok_bind, index_eq_ok.mpr hcount, Run.ok_bind,
      subU_eq (Nat.sub_le _ _), Run.ok_bind, hback, shlU_one (by omega), Run.ok_bind,
      mulU_eq (by omega), Run.ok_bind, addU_eq (by omega), Run.ok_bind, subU_eq (by omega), Run.ok_bind,
      setAt_eq (by omega)]
    refine Gives.ok ⟨by rw [List.length_set, hlength], fun k hk => ?_⟩
    rcases Nat.lt_or_ge i k with hlt | hge
    · obtain rfl : k = i + 1 := by omega
      rw [Nat.sub_sub, List.getElem?_set_self (by omega)]
      rfl
    · rw [List.getElem?_set_ne (by omega), hindexes.start k hge]
  · rw [Nat.le_zero.mp hk, List.getElem?_replicate, if_pos (by omega)]
    rfl

end

/-! ## Cells -/

theorem fillEntries_gives {base len symbol bits : Nat} {decode : List HuffmanEntry} (hend : base + len ≤ decode.length)
    (hsmall : decode.length ≤ 2 ^ 11) :
    Gives ((List.range len).foldlM (fillEntry base symbol bits) decode) fun d => d.length = decode.length ∧
      (∀ i, i < base ∨ base + len ≤ i → d[i]? = decode[i]?) ∧
        ∀ i, base ≤ i → i < base + len → d[i]? = some ⟨symbol % 2 ^ 8, bits⟩ := by
  refine Gives.foldlM_range (I := fun n d => d.length = decode.length ∧
    (∀ i, i < base ∨ base + n ≤ i → d[i]? = decode[i]?) ∧
      ∀ i, base ≤ i → i < base + n → d[i]? = some ⟨symbol % 2 ^ 8, bits⟩) ?_
    ⟨rfl, fun _ _ => rfl, fun i hge hlt => absurd hge (Nat.not_le_of_lt hlt)⟩
  rintro n hn d ⟨hlen, hkept, hfilled⟩
  unfold fillEntry
  rw [addU_eq (by omega), Run.ok_bind, setAt_eq (by omega)]
  refine Gives.ok ⟨by rw [List.length_set, hlen], fun i hi => ?_, fun i hge hlt => ?_⟩
  · rw [List.getElem?_set_ne (by omega), hkept i (by omega)]
  · by_cases hlast : i = base + n
    · rw [hlast, List.getElem?_set_self (by omega)]
    · rw [List.getElem?_set_ne (by omega), hfilled i hge (by omega)]

/-- The symbols with the weights `done` have their cells, from the starts of their ranks on. -/
structure Filling (maxBits : Nat) (ws done : List Nat) (s : List HuffmanEntry × List Nat) : Prop where
  table : s.1.length = 2 ^ maxBits
  length : s.2.length = maxBits + 1
  next : ∀ k < maxBits, s.2[maxBits - k]? = some (weightStart ws k + done.count (k + 1) * 2 ^ k)
  placed : ∀ n < done.length, ∀ w i, InCell ws n w i → s.1[i]? = some ⟨n % 2 ^ 8, maxBits + 1 - w⟩

section
variable {maxBits : Nat} {ws done : List Nat} {s : List HuffmanEntry × List Nat}

theorem inCell_concat {w n v i : Nat} (hget : ws[done.length]? = some w) (hn : n < (done ++ [w]).length)
    (hcell : InCell ws n v i) : n < done.length ∨ n = done.length ∧ v = w := by
  rw [List.length_append, List.length_singleton] at hn
  rcases Nat.lt_or_eq_of_le (Nat.le_of_lt_succ hn) with h | rfl
  · exact .inl h
  · exact .inr ⟨rfl, Option.some.inj (hcell.get.symm.trans hget)⟩

theorem Filling.uncoded (hs : Filling maxBits ws done s) (hget : ws[done.length]? = some 0) :
    Filling maxBits ws (done ++ [0]) s := by
  refine ⟨hs.table, hs.length, fun j hj => ?_, fun n hn v i hcell => ?_⟩
  · rw [hs.next j hj, List.count_append, List.count_singleton, if_neg (by simp)]
    rfl
  · rcases inCell_concat hget hn hcell with h | ⟨-, rfl⟩
    · exact hs.placed n h v i hcell
    · exact absurd hcell.pos (Nat.lt_irrefl 0)

theorem fillTurn_coded (hmax : maxBits ≤ 11) (hc : CompleteWeights maxBits ws) (hs : Filling maxBits ws done s) {k : Nat}
    (hget : ws[done.length]? = some (k + 1)) (htake : ws.take done.length = done) :
    Gives (fillTurn maxBits s (weightBits maxBits (k + 1), done.length)) (Filling maxBits ws (done ++ [k + 1])) := by
  obtain ⟨decode, rankIndexes⟩ := s
  obtain ⟨htable, hlength, hnext, hplaced⟩ := hs
  simp only at htable hlength hnext hplaced
  have hpos := Nat.zero_lt_succ k
  have hle := hc.le _ (List.mem_of_getElem? hget)
  have hbits : maxBits + 1 - (k + 1) = maxBits - k := by omega
  have hback : maxBits - (maxBits - k) = k := by omega
  have hsize : 2 ^ maxBits ≤ 2 ^ 11 := Nat.pow_le_pow_right (by decide) hmax
  have hbase : weightStart ws k + done.count (k + 1) * 2 ^ k = cellOf ws done.length (k + 1) := by
    rw [cellOf, htake, Nat.add_sub_cancel]
  have hend := Nat.le_trans (cellOf_end_le hget hpos) (weightStart_mono ws hle)
  have hindex := hnext k (by omega)
  rw [hc.start_eq, Nat.add_sub_cancel] at hend
  rw [hbase] at hindex
  unfold fillTurn weightBits
  simp only [Nat.succ_ne_zero, if_false, hbits]
  rw [if_pos (by omega), index_eq_ok.mpr hindex, Run.ok_bind, subU_eq (Nat.sub_le _ _), Run.ok_bind, hback,
    shlU_one (by omega), Run.ok_bind, addU_eq (by omega), Run.ok_bind, setAt_eq (by omega), Run.ok_bind]
  refine (fillEntries_gives (by omega) (by omega)).bind fun d hd => ?_
  obtain ⟨hd, hkept, hnew⟩ := hd
  refine Gives.ok ⟨by simp only; omega, by simp only [List.length_set, hlength], fun j hj => ?_,
    fun n hn v i hcell => ?_⟩
  · simp only
    rw [List.count_append, List.count_singleton]
    by_cases hkj : j = k
    · subst hkj
      rw [List.getElem?_set_self (by omega), if_pos (beq_self_eq_true _), Nat.add_mul, Nat.one_mul, ← Nat.add_assoc,
        hbase]
    · rw [List.getElem?_set_ne (by omega), hnext j hj, if_neg (by simp; omega)]
      rfl
  · have hown : ∀ {x}, cellOf ws done.length (k + 1) ≤ x → x < cellOf ws done.length (k + 1) + 2 ^ k →
        InCell ws done.length (k + 1) x := fun hge hlt => ⟨hget, hpos, hge, by rw [Nat.add_sub_cancel]; exact hlt⟩
    simp only
    rcases inCell_concat hget hn hcell with h | ⟨rfl, rfl⟩
    · -- no cell of this symbol is one of an earlier symbol
      have hout : i < cellOf ws done.length (k + 1) ∨ cellOf ws done.length (k + 1) + 2 ^ k ≤ i := by
        by_contra hin
        have := hcell.inj (hown (by omega) (by omega))
        omega
      rw [hkept i hout, hplaced n h v i hcell]
    · have hlt := hcell.lt
      rw [Nat.add_sub_cancel] at hlt
      rw [hnew i hcell.ge hlt, hbits]

theorem fillTurn_gives (hmax : maxBits ≤ 11) (hc : CompleteWeights maxBits ws) (hs : Filling maxBits ws done s)
    {w : Nat} (hdone : done ++ [w] <+: ws) :
    Gives (fillTurn maxBits s (weightBits maxBits w, done.length)) (Filling maxBits ws (done ++ [w])) := by
  obtain ⟨rest, hws⟩ := hdone
  have htake : ws.take done.length = done := by rw [← hws, List.append_assoc, List.take_left]
  have hget : ws[done.length]? = some w := by rw [← hws]; simp
  cases w with
  | zero => exact Gives.ok (hs.uncoded hget)
  | succ k => exact fillTurn_coded hmax hc hs hget htake

theorem fill_gives (hmax : maxBits ≤ 11) (hc : CompleteWeights maxBits ws) {rankIndexes : List Nat}
    (hstarts : RankStarts maxBits ws maxBits rankIndexes) :
    Gives ((ws.map (weightBits maxBits)).zipIdx.foldlM (fillTurn maxBits)
        (List.replicate (2 ^ maxBits) ⟨0, 0⟩, rankIndexes))
      (Filling maxBits ws ws) := by
  have hfst : ws.zipIdx.map Prod.fst = ws := List.zipIdx_map_fst 0 ws
  rw [List.zipIdx_map, List.foldlM_map]
  refine Gives.imp (Gives.foldlM_prefix (I := fun pre => Filling maxBits ws (pre.map Prod.fst)) ?_ ?_) fun s hs => ?_
  · rintro pre ⟨w, symbol⟩ hpre s hs
    have hdone := hpre.map Prod.fst
    have hsymbol : symbol = (pre.map Prod.fst).length := by
      have hget : (ws.zipIdx)[pre.length]? = some (w, symbol) := by
        obtain ⟨rest, hrest⟩ := hpre
        rw [← hrest]
        simp
      rw [List.getElem?_zipIdx] at hget
      obtain ⟨_, -, heq⟩ := Option.map_eq_some_iff.mp hget
      rw [List.length_map, ← (Prod.mk.inj heq).2, Nat.zero_add]
    rw [List.map_append, List.map_singleton, hfst] at hdone
    rw [List.map_append, List.map_singleton, hsymbol]
    exact fillTurn_gives hmax hc hs hdone
  · refine ⟨by simp, hstarts.length, fun k hk => ?_, fun n hn => absurd hn (Nat.not_lt_zero n)⟩
    rw [hstarts.start k (Nat.le_of_lt hk)]
    simp
  · rwa [hfst] at hs

end

/-! ## The table -/

/-- The table of a code: each word's entry has the symbol the word starts with and the bits of its code. -/
structure HuffmanTable.Coded (t : HuffmanTable) (ws : List Nat) : Prop where
  max : t.maxNumBits ≤ 11
  weights : CompleteWeights t.maxNumBits ws
  length : t.decode.length = 2 ^ t.maxNumBits
  cell : ∀ s w x, InCell ws s w x → t.decode[x]? = some ⟨s % 2 ^ 8, t.maxNumBits + 1 - w⟩

structure HuffmanTable.Complete (t : HuffmanTable) : Prop where
  pos : 0 < t.maxNumBits
  max : t.maxNumBits ≤ 11
  length : t.decode.length = 2 ^ t.maxNumBits
  cells : ∀ e ∈ t.decode, 0 < e.numBits ∧ e.numBits ≤ t.maxNumBits

theorem completeWeights_pos {M : Nat} {ws : List Nat} (hc : CompleteWeights M ws) : 0 < M := by
  by_contra h0
  have hstart := hc.start_eq
  rw [show M = 0 by omega] at hstart
  cases hstart

theorem HuffmanTable.Coded.complete {t : HuffmanTable} {ws : List Nat} (h : t.Coded ws) : t.Complete where
  pos := completeWeights_pos h.weights
  max := h.max
  length := h.length
  cells e he := by
    obtain ⟨i, hi⟩ := List.mem_iff_getElem?.mp he
    have hlt : i < t.decode.length := (List.getElem?_eq_some_iff.mp hi).1
    rw [h.length] at hlt
    obtain ⟨s, w, hcell⟩ := h.weights.exists_inCell hlt
    have hle := h.weights.le w (List.mem_of_getElem? hcell.get)
    have hpos := hcell.pos
    rw [h.cell s w i hcell] at hi
    rw [← Option.some.inj hi]
    simp only
    omega

theorem bitsOfWeight_eq {maxBits w : Nat} (hmax : maxBits ≤ 19) (hw : w ≤ maxBits) :
    bitsOfWeight maxBits w = .ok (weightBits maxBits w) := by
  unfold bitsOfWeight weightBits
  by_cases h0 : w = 0
  · rw [if_neg (by omega), if_pos h0]
    rfl
  · rw [if_pos (by omega), if_neg h0, addU_eq (by omega), Run.ok_bind, subU_eq (by omega)]

/-- What `build_table_from_weights` does once it has the bit counts. -/
def tableOfBits (maxBits : Nat) (bits : List Nat) : Opt HuffmanTable := do
  let ranks ← addU 8 maxBits 1
  let bitRanks ← bits.foldlM countRank (List.replicate ranks 0)
  let tableSize ← shlU 64 1 maxBits
  let decode := List.replicate tableSize (HuffmanEntry.mk 0 0)
  let rankIndexes ← (List.range' 1 maxBits).reverse.foldlM (rankTurn maxBits bitRanks) (List.replicate ranks 0)
  let total ← index rankIndexes 0
  failIf (total ≠ decode.length) ()
  let (decode, _) ← bits.zipIdx.foldlM (fillTurn maxBits) (decode, rankIndexes)
  pure ⟨decode, maxBits⟩

theorem tableOfBits_gives {M : Nat} {ws : List Nat} (hM : M ≤ 11) (hfew : ws.length ≤ 259) (hc : CompleteWeights M ws) :
    Gives (tableOfBits M (ws.map (weightBits M))) fun t => t.maxNumBits = M ∧ t.Coded ws := by
  unfold tableOfBits
  rw [addU_eq (by omega), Run.ok_bind]
  refine (countRanks_gives (by rw [List.length_map]; exact hfew) fun b hb => ?_).bind fun bitRanks hranks => ?_
  · obtain ⟨w, -, rfl⟩ := List.mem_map.mp hb
    exact weightBits_le M w
  rw [shlU_one (by omega), Run.ok_bind]
  refine (rankIndexes_gives hM hc hranks).bind fun rankIndexes hstarts => ?_
  have htotal := hstarts.start M (Nat.le_refl _)
  rw [Nat.sub_self, hc.start_eq] at htotal
  rw [index_eq_ok.mpr htotal, Run.ok_bind, List.length_replicate, failIf_false _ (by simp), Run.ok_bind]
  refine (fill_gives hM hc hstarts).bind fun s hs => Gives.ok ⟨rfl, hM, hc, hs.table, fun n w x hcell => ?_⟩
  exact hs.placed n (List.getElem?_eq_some_iff.mp hcell.get).1 w x hcell

section
variable {weights : List Nat}

theorem share_le_sum {w : Nat} (hw : w ∈ weights) : weightShare w ≤ (weights.map weightShare).sum :=
  List.le_sum_of_mem (List.mem_map_of_mem hw)

theorem lt_of_share_lt {w n : Nat} (h : weightShare w < 2 ^ n) : w ≤ n := by
  unfold weightShare at h
  by_cases h0 : w = 0
  · omega
  · rw [if_neg h0] at h
    have := (Nat.pow_lt_pow_iff_right (by decide : 1 < 2)).mp h
    omega

/-- The steps before, with the last weight the one that takes what is left over. -/
theorem buildTableFromWeights_eq (hfew : weights.length ≤ 258) (hle : ∀ w ∈ weights, w ≤ maxMaxNumBits)
    {sum M : Nat} (hsum : (weights.map weightShare).sum = sum) (hpos : 0 < sum) (hM : highestBitSet sum = M) :
    buildTableFromWeights weights = (do
      failIf (¬ isPowerOfTwo (2 ^ M - sum)) ()
      failIf (M > maxMaxNumBits) ()
      tableOfBits M ((weights ++ [highestBitSet (2 ^ M - sum)]).map (weightBits M))) := by
  have hbound := weightSum_le hle
  obtain ⟨hMpos, -, hhigh⟩ := highestBitSet_spec hpos
  have h19 := highestBitSet_le (show sum < 2 ^ 19 by omega)
  rw [hM] at hMpos hhigh h19
  obtain ⟨hlastpos, -, -⟩ := highestBitSet_spec (Nat.sub_pos_of_lt hhigh)
  have hlast := highestBitSet_le (Nat.sub_lt (Nat.two_pow_pos M) hpos)
  have hbits : weights.mapM (bitsOfWeight M) = .ok (weights.map (weightBits M)) := by
    refine Run.mapM_eq_ok fun w hw => ?_
    exact bitsOfWeight_eq h19 (lt_of_share_lt (Nat.lt_of_le_of_lt (share_le_sum hw) (by rw [hsum]; exact hhigh)))
  unfold buildTableFromWeights tableOfBits
  rw [weightSum_eq hfew hle, Run.ok_bind, hsum, failIf_false _ (by omega), Run.ok_bind, hM]
  simp only
  rw [Nat.mod_eq_of_lt (show M < 2 ^ 8 by omega), shlU_one (by omega), Run.ok_bind, subU_eq (Nat.le_of_lt hhigh),
    Run.ok_bind, Nat.mod_eq_of_lt (show highestBitSet (2 ^ M - sum) < 2 ^ 8 by omega)]
  refine congrArg _ (funext fun _ => ?_)
  rw [hbits, Run.ok_bind, addU_eq (by omega), Run.ok_bind, subU_eq (by omega), Run.ok_bind, List.map_append,
    List.map_singleton, weightBits, if_neg (by omega)]

theorem isPowerOfTwo_iff {n : Nat} : isPowerOfTwo n = true ↔ n ≠ 0 ∧ weightShare (highestBitSet n) = n := by
  unfold isPowerOfTwo weightShare highestBitSet
  by_cases h0 : n = 0
  · simp [h0]
  · simp [h0]

/-- **The table of a complete code.** -/
theorem buildTableFromWeights_complete {M last : Nat} (hfew : weights.length ≤ 258) (hM : M ≤ maxMaxNumBits)
    (hlast : 0 < last) (hc : CompleteWeights M (weights ++ [last])) :
    Gives (buildTableFromWeights weights) fun t => t.maxNumBits = M ∧ t.Coded (weights ++ [last]) := by
  have hfull := hc.full
  have hlastM := hc.le last (by simp)
  have hshare : weightShare last = 2 ^ (last - 1) := if_neg (by omega)
  have hhalf : 2 ^ (last - 1) ≤ 2 ^ (M - 1) := Nat.pow_le_pow_right (by decide) (by omega)
  have hdouble : 2 ^ M = 2 * 2 ^ (M - 1) := by rw [← Nat.pow_succ']; congr 1; omega
  have hlastpos := Nat.two_pow_pos (last - 1)
  rw [List.map_append, List.sum_append, List.map_singleton, List.sum_singleton, hshare] at hfull
  obtain ⟨sum, hsum⟩ : ∃ sum, (weights.map weightShare).sum = sum := ⟨_, rfl⟩
  rw [hsum] at hfull
  have hhighest : highestBitSet sum = M := by
    have hle := highestBitSet_le (show sum < 2 ^ M by omega)
    obtain ⟨hpos, -, hhigh⟩ := highestBitSet_spec (show 0 < sum by omega)
    by_contra hne
    have := Nat.pow_le_pow_right (by decide : 0 < 2) (show highestBitSet sum ≤ M - 1 by omega)
    omega
  have hleft : 2 ^ M - sum = 2 ^ (last - 1) := by omega
  have hlasteq : highestBitSet (2 ^ (last - 1)) = last := by rw [Fse.highestBitSet_two_pow]; omega
  have hpower : isPowerOfTwo (2 ^ (last - 1)) = true :=
    isPowerOfTwo_iff.mpr ⟨Nat.ne_of_gt hlastpos, by rw [hlasteq, hshare]⟩
  rw [buildTableFromWeights_eq hfew (fun w hw => Nat.le_trans (hc.le w (List.mem_append_left _ hw)) hM) hsum (by omega)
    hhighest, hleft, failIf_false _ (by simp [hpower]), Run.ok_bind, failIf_false _ (by omega), Run.ok_bind, hlasteq]
  exact tableOfBits_gives hM (by rw [List.length_append, List.length_singleton]; omega) hc

/-- **A table of weights** is that of a complete code. -/
theorem buildTableFromWeights_safe (hfew : weights.length ≤ 258) :
    Safe (buildTableFromWeights weights) fun t => ∃ last, 0 < last ∧ t.Coded (weights ++ [last]) := by
  by_cases hok : (∀ w ∈ weights, w ≤ maxMaxNumBits) ∧ 0 < (weights.map weightShare).sum
  · obtain ⟨hle, hpos⟩ := hok
    obtain ⟨sum, hsum⟩ : ∃ sum, (weights.map weightShare).sum = sum := ⟨_, rfl⟩
    obtain ⟨M, hM⟩ : ∃ M, highestBitSet sum = M := ⟨_, rfl⟩
    rw [hsum] at hpos
    obtain ⟨-, -, hhigh⟩ := highestBitSet_spec hpos
    rw [hM] at hhigh
    rw [buildTableFromWeights_eq hfew hle hsum hpos hM]
    refine Safe.failIf fun hpower => Safe.failIf fun hmax => ?_
    rw [not_not, isPowerOfTwo_iff] at hpower
    have hlast := highestBitSet_le (Nat.sub_lt (Nat.two_pow_pos M) hpos)
    obtain ⟨hlastpos, -, -⟩ := highestBitSet_spec (Nat.sub_pos_of_lt hhigh)
    have hc : CompleteWeights M (weights ++ [highestBitSet (2 ^ M - sum)]) := by
      refine ⟨fun w hw => ?_, ?_⟩
      · rcases List.mem_append.mp hw with hw | hw
        · exact lt_of_share_lt (Nat.lt_of_le_of_lt (share_le_sum hw) (by rw [hsum]; exact hhigh))
        · rw [List.mem_singleton.mp hw]
          exact hlast
      · rw [List.map_append, List.sum_append, List.map_singleton, List.sum_singleton, hsum, hpower.2]
        omega
    exact ((tableOfBits_gives (Nat.le_of_not_lt hmax) (by rw [List.length_append, List.length_singleton]; omega) hc).imp
      fun t ht => ⟨_, hlastpos, ht.2⟩).safe
  · unfold buildTableFromWeights
    refine (weightSum_safe hfew).bind fun sum hsum => Safe.failIf fun hne => ?_
    exact absurd ⟨hsum.1, hsum.2 ▸ Nat.pos_of_ne_zero hne⟩ hok

end

theorem HuffmanTable.buildDecoder_safe {source : Bytes} (hshort : source.length ≤ 2 ^ 17) :
    Safe (HuffmanTable.buildDecoder source) fun r => r.1.Complete := by
  unfold HuffmanTable.buildDecoder
  refine (readWeights_safe hshort).bind fun r hr => ?_
  refine (buildTableFromWeights_safe hr).bind fun table htable => Safe.pure ?_
  obtain ⟨_, -, hcoded⟩ := htable
  exact hcoded.complete

/-! ## The streams -/

structure HuffmanState.InTable (table : HuffmanTable) (s : HuffmanState) : Prop where
  br : s.br.Valid
  behind : -2 ^ 10 ≤ s.br.bitsRemaining
  state : s.state < table.decode.length

theorem HuffmanTable.symbolTurn_safe {table : HuffmanTable} (h : table.Complete) {s : HuffmanState}
    (hs : s.InTable table) : Safe (table.symbolTurn s) (Turn.Holds
      (fun t => t.InTable table ∧
        (t.br.bitsRemaining + table.maxNumBits).toNat < (s.br.bitsRemaining + table.maxNumBits).toNat)
      fun _ => True) := by
  obtain ⟨hpos, hmax, hlength, hcells⟩ := h
  obtain ⟨hbr, hbehind, hstate⟩ := hs
  unfold HuffmanTable.symbolTurn
  rw [hbr.bitsRemainingIsize (by omega), Run.ok_bind]
  refine Safe.ite (fun hleft => ?_) fun _ => Safe.pure trivial
  obtain ⟨hbits, hle⟩ := hcells _ (List.getElem_mem hstate)
  rw [index_eq hstate, Run.ok_bind]
  refine (BitReaderReversed.getBits_safe hbr (by omega) (by omega)).bind fun r hr => ?_
  obtain ⟨newBits, br⟩ := r
  obtain ⟨hnew, hbr', hremaining⟩ := hr
  simp only at hnew hbr' hremaining ⊢
  rw [shlU_eq (by omega), Run.ok_bind, subU_eq (by omega), Run.ok_bind]
  refine Safe.pure ⟨⟨hbr', by simp only; omega, ?_⟩, by simp only; omega⟩
  rw [hlength]
  refine Nat.or_lt_two_pow (and_mask_lt _ _) (Nat.lt_of_lt_of_le hnew ?_)
  exact Nat.pow_le_pow_right (by decide) hle

theorem decodeStream_safe {table : HuffmanTable} (h : table.Complete) {stream : Bytes}
    (hshort : stream.length ≤ 2 ^ 17) (out : Bytes) : Safe (decodeStream table stream out) fun _ => True := by
  have hmax := h.max
  have hstart := BitReaderReversed.bitsRemaining_new stream
  unfold decodeStream
  refine Safe.ite (fun _ => Safe.pure trivial) fun _ => ?_
  refine (skipPadding_safe (BitReaderReversed.valid_new (by omega)) (by omega)).bind fun br hbr => ?_
  obtain ⟨hbr, hge, hle⟩ := hbr
  refine (BitReaderReversed.getBits_safe hbr (by omega) (by omega)).bind fun r hr => ?_
  obtain ⟨state, br'⟩ := r
  obtain ⟨hstate, hbr', hremaining⟩ := hr
  simp only at hstate hbr' hremaining ⊢
  refine Safe.loop (I := HuffmanState.InTable table) (μ := fun s => (s.br.bitsRemaining + table.maxNumBits).toNat)
    (fun s hs => HuffmanTable.symbolTurn_safe h hs) _ _ ⟨hbr', by simp only; omega, ?_⟩ ?_
  · rw [h.length]
    exact hstate
  · simp only
    omega

theorem decodeLiterals_safe (data : Bytes) (numLiterals numStreams : Nat) :
    Safe (decodeLiterals data numLiterals numStreams) fun _ => True := by
  unfold decodeLiterals
  refine Safe.failIf fun _ => Safe.failIf fun hlong => Safe.ite (fun _ => Safe.pure trivial) fun _ => ?_
  refine (HuffmanTable.buildDecoder_safe (by omega)).bind fun r htable => ?_
  obtain ⟨table, treeBytes⟩ := r
  refine Safe.failIf fun htree => ?_
  simp only at htree htable ⊢
  refine (slice_safe (by omega)).bind fun payload hpayload => ?_
  refine Safe.bind (Q := fun _ => True) ?_ fun out _ => Safe.failIf fun _ => Safe.pure trivial
  refine Safe.ite (fun _ => decodeStream_safe htable (by omega) []) fun _ => Safe.ite (fun _ => ?_) fun _ => Safe.fail ()
  refine Safe.failIf fun hjumps => ?_
  refine (readLe16_safe (by omega)).bind fun jump1 _ => ?_
  refine (readLe16_safe (by omega)).bind fun second _ => ?_
  refine (readLe16_safe (by omega)).bind fun third _ => ?_
  refine (slice_safe (by omega)).bind fun streamsData hstreams => Safe.failIf fun hjump3 => ?_
  refine (slice_safe (by omega)).bind fun s1 h1 => ?_
  refine (slice_safe (by omega)).bind fun s2 h2 => ?_
  refine (slice_safe (by omega)).bind fun s3 h3 => ?_
  refine (slice_safe (by omega)).bind fun s4 h4 => ?_
  refine (decodeStream_safe htable (by omega) []).bind fun out _ => ?_
  refine (decodeStream_safe htable (by omega) out).bind fun out _ => ?_
  refine (decodeStream_safe htable (by omega) out).bind fun out _ => ?_
  exact decodeStream_safe htable (by omega) out

end Ziftsieve.Zstd
