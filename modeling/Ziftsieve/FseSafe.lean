import Ziftsieve.FseTable

/-!
# FSE tables are complete

The probabilities that a table's header gives add up to the table's size, so the
table is laid out. The states an entry leads to are cells of it, and a decoder that
starts in the table stays there.
-/

namespace Ziftsieve.Zstd

namespace Fse

/-! ## Probabilities -/

theorem totalCells_concat (probs : List Int) (p : Int) : totalCells (probs ++ [p]) = totalCells probs + cells p := by
  simp [totalCells]

theorem totalCells_zeros (probs : List Int) (k : Nat) : totalCells (probs ++ List.replicate k 0) = totalCells probs := by
  simp [totalCells, cells]

structure Ahead (r r' : BitReader) : Prop where
  source : r'.source = r.source
  idx : r.idx < r'.idx
  valid : r'.Valid

theorem readValue_safe {br : BitReader} (h : br.Valid) {m : Nat} (hm : 2 ≤ m) (hmax : m < 2 ^ 8) :
    Safe (readValue br m) fun v => v.1 ≤ m ∧ Ahead br v.2 := by
  obtain ⟨hpos, hlow, hhigh⟩ := highestBitSet_spec (by omega : 0 < m)
  have hb8 := highestBitSet_le hmax
  have hb2 : 1 < highestBitSet m := by
    refine (Nat.pow_lt_pow_iff_right (by decide : 1 < 2)).mp ?_
    omega
  unfold readValue
  simp only
  generalize highestBitSet m = b at *
  have hdouble : 2 ^ b = 2 * 2 ^ (b - 1) := by
    rw [← Nat.pow_succ', Nat.succ_eq_add_one, Nat.sub_add_cancel (by omega)]
  refine (BitReader.getBits_safe h hpos hb8).bind fun r hr => ?_
  obtain ⟨v, br'⟩ := r
  obtain ⟨hv, hpast⟩ := hr
  have h32 : 2 ^ b ≤ 2 ^ 32 := Nat.pow_le_pow_right (by decide) (by omega)
  have hvmod : v % 2 ^ 32 = v := Nat.mod_eq_of_lt (Nat.lt_of_lt_of_le hv h32)
  have hahead : Ahead br br' := ⟨hpast.source, by rw [hpast.idx]; omega, hpast.valid⟩
  simp only [hvmod]
  rw [shlU_one (by omega), Run.ok_bind, subU_eq (by omega), Run.ok_bind, subU_eq (by omega), Run.ok_bind,
    subU_eq (by omega), Run.ok_bind, shlU_one (by omega), Run.ok_bind, subU_eq (by omega), Run.ok_bind]
  refine Safe.ite (fun hsmall => ?_) fun _ => Safe.ite (fun hbig => ?_) fun hfew => ?_
  · -- a short code gives its last bit back
    have hidx := hpast.idx
    refine (BitReader.returnBits_safe hpast.valid (by omega)).bind fun t ht => Safe.pure ⟨?_, ?_⟩
    · rw [Nat.and_two_pow_sub_one_eq_mod] at hsmall ⊢
      omega
    · exact ⟨ht.1.trans hpast.source, by rw [ht.2.1]; omega, ht.2.2⟩
  · rw [subU_eq (by omega), Run.ok_bind]
    exact Safe.pure ⟨by simp only at hv ⊢; omega, hahead⟩
  · exact Safe.pure ⟨by simp only; omega, hahead⟩

/-- A run of zeros ends, since each turn of it costs two bits. -/
theorem zeroRun_safe {br : BitReader} (h : br.Valid) (probs : List Int) {fuel : Nat} (hfuel : br.source.length * 8 < fuel) :
    Safe (loop zeroRunTurn fuel (br, probs)) fun s =>
      (s.1.source = br.source ∧ br.idx ≤ s.1.idx ∧ s.1.Valid) ∧ ∃ k, s.2 = probs ++ List.replicate k 0 := by
  refine Safe.loop (I := fun s : BitReader × List Int =>
      (s.1.source = br.source ∧ br.idx ≤ s.1.idx ∧ s.1.Valid) ∧ ∃ k, s.2 = probs ++ List.replicate k 0)
    (μ := fun s => br.source.length * 8 - s.1.idx) ?_ fuel (br, probs) ⟨⟨rfl, Nat.le_refl _, h⟩, 0, by simp⟩
    (by simp only; omega)
  rintro ⟨br', probs'⟩ ⟨⟨hsource, hidx, hvalid⟩, k, rfl⟩
  unfold zeroRunTurn
  refine (BitReader.getBits_safe hvalid (by decide) (by decide)).bind fun r hr => ?_
  obtain ⟨skipAmount, br''⟩ := r
  obtain ⟨-, hpast⟩ := hr
  have hin : (br''.source = br.source ∧ br.idx ≤ br''.idx ∧ br''.Valid) ∧
      ∃ k', probs ++ List.replicate k 0 ++ List.replicate skipAmount 0 = probs ++ List.replicate k' 0 := by
    have hnext := hpast.idx
    simp only at hidx hnext
    refine ⟨⟨hpast.source.trans hsource, by omega, hpast.valid⟩, k + skipAmount, ?_⟩
    rw [List.append_assoc, List.replicate_append_replicate]
  have hless : br.source.length * 8 - br''.idx < br.source.length * 8 - br'.idx := by
    have hend := hpast.valid.idx
    have hnext := hpast.idx
    rw [hpast.source, hsource] at hend
    simp only at hend hnext
    omega
  apply Safe.pure
  by_cases h3 : skipAmount = 3
  · rw [if_neg (not_not_intro h3)]
    exact ⟨hin, hless⟩
  · rw [if_pos h3]
    exact hin

structure Probabilities.Valid (source : Bytes) (probabilitySum : Nat) (s : Probabilities) : Prop where
  source : s.br.source = source
  valid : s.br.Valid
  total : totalCells s.probs = s.counter
  counter : s.counter ≤ probabilitySum
  ge : ∀ p ∈ s.probs, -1 ≤ p

theorem Probabilities.Valid.push {source : Bytes} {probabilitySum : Nat} {s : Probabilities}
    (h : s.Valid source probabilitySum) {br : BitReader} (hahead : Ahead s.br br) {p : Int} (hp : -1 ≤ p)
    (hcounter : s.counter + cells p ≤ probabilitySum) :
    (Probabilities.mk br (s.probs ++ [p]) (s.counter + cells p)).Valid source probabilitySum where
  source := hahead.source.trans h.source
  valid := hahead.valid
  total := by rw [totalCells_concat, h.total]
  counter := hcounter
  ge := by
    intro q hq
    rcases List.mem_append.mp hq with hq | hq
    · exact h.ge q hq
    · rw [List.mem_singleton.mp hq]
      exact hp

theorem probabilityTurn_safe {source : Bytes} {probabilitySum fuel : Nat} (hsum : probabilitySum ≤ 64)
    (hfuel : source.length * 8 < fuel) {s : Probabilities} (h : s.Valid source probabilitySum) :
    Safe (probabilityTurn fuel probabilitySum s) (Turn.Holds
      (fun t => t.Valid source probabilitySum ∧ source.length * 8 - t.br.idx < source.length * 8 - s.br.idx)
      (fun t => t.Valid source probabilitySum)) := by
  unfold probabilityTurn
  refine Safe.ite (fun hlt => ?_) fun _ => Safe.pure h
  rw [subU_eq (Nat.le_of_lt hlt), Run.ok_bind, addU_eq (by omega), Run.ok_bind]
  refine (readValue_safe h.valid (by omega) (by omega)).bind fun r hr => ?_
  obtain ⟨value, br⟩ := r
  obtain ⟨hvalue, hahead⟩ := hr
  simp only at hvalue hahead
  have hless : ∀ idx, br.idx ≤ idx → idx ≤ source.length * 8 →
      source.length * 8 - idx < source.length * 8 - s.br.idx := by
    have := hahead.idx
    omega
  have hend : br.idx ≤ source.length * 8 := by
    have hv := hahead.valid.idx
    rwa [hahead.source, h.source] at hv
  refine Safe.ite (fun hne => Safe.ite (fun hpos => ?_) fun hneg => Safe.ite (fun hone => ?_) fun _ => Safe.fail ())
    fun hzero => ?_
  · have hcells : cells ((value : Int) - 1) = ((value : Int) - 1).toNat := if_neg (by omega)
    have hcounter : s.counter + cells ((value : Int) - 1) ≤ probabilitySum := by omega
    rw [addU_eq (by omega), Run.ok_bind, ← hcells]
    exact Safe.pure ⟨h.push hahead (by omega) hcounter, hless _ (Nat.le_refl _) hend⟩
  · have hcells : cells ((value : Int) - 1) = 1 := if_pos hone
    have hcounter : s.counter + cells ((value : Int) - 1) ≤ probabilitySum := by omega
    rw [addU_eq (by omega), Run.ok_bind, ← hcells]
    exact Safe.pure ⟨h.push hahead (by omega) hcounter, hless _ (Nat.le_refl _) hend⟩
  · have hcells : cells ((value : Int) - 1) = 0 := by
      rw [Classical.not_not.mp hzero]
      rfl
    have hpush := h.push hahead (p := (value : Int) - 1) (by omega) (by rw [hcells]; exact h.counter)
    have hsource : br.source = source := hahead.source.trans h.source
    refine (zeroRun_safe hahead.valid _ (by rw [hsource]; exact hfuel)).bind fun r hr => ?_
    obtain ⟨br', probs⟩ := r
    obtain ⟨⟨hsource', hidx, hvalid⟩, k, hprobs⟩ := hr
    simp only at hsource' hidx hvalid hprobs
    refine Safe.pure ⟨⟨hsource'.trans hsource, hvalid, ?_, h.counter, ?_⟩, hless _ hidx ?_⟩
    · simp only [hprobs, totalCells_zeros]
      rw [hpush.total, hcells]
      rfl
    · intro q hq
      simp only [hprobs, List.mem_append, List.mem_replicate] at hq
      rcases hq with hq | ⟨-, rfl⟩
      · exact hpush.ge q (List.mem_append.mpr hq)
      · decide
    · have hend := hvalid.idx
      rwa [hsource', hsource] at hend

/-- The tables the weights are read with have 32 or 64 cells. -/
theorem readProbabilities_safe {maxSymbol : Nat} {source : Bytes} (hshort : source.length * 8 < 2 ^ 64) :
    Safe (readProbabilities maxSymbol source 6) fun r =>
      (r.1 = 5 ∨ r.1 = 6) ∧ Distribution r.2.1 (2 ^ r.1) ∧ r.2.1.length ≤ maxSymbol + 1 := by
  unfold readProbabilities
  refine (BitReader.getBits_safe (BitReader.valid_new hshort) (by decide) (by decide)).bind fun r hr => ?_
  obtain ⟨v, br⟩ := r
  obtain ⟨hv, hpast⟩ := hr
  have hvmod : v % 2 ^ 8 = v := Nat.mod_eq_of_lt (by simp only at hv; omega)
  simp only [hvmod]
  unfold accLogOffset
  rw [addU_eq (by simp only at hv; omega), Run.ok_bind]
  refine Safe.failIf fun hmax => Safe.failIf fun _ => ?_
  rw [shlU_one (by omega), Run.ok_bind]
  have hpow : 2 ^ (5 + v) ≤ 2 ^ 6 := Nat.pow_le_pow_right (by decide) (by omega)
  refine Safe.bind (Q := fun s => s.Valid source (2 ^ (5 + v))) ?_ fun s hs => ?_
  · refine Safe.loop (I := fun s => s.Valid source (2 ^ (5 + v))) (μ := fun s => source.length * 8 - s.br.idx)
      (fun s hs => probabilityTurn_safe hpow (Nat.lt_succ_self _) hs) _ _ ?_ (by simp only; omega)
    exact ⟨hpast.source, hpast.valid, rfl, Nat.zero_le _, by simp⟩
  · refine Safe.failIf fun hcounter => Safe.failIf fun hlen => Safe.pure
      ⟨by simp only; omega, ⟨?_, hs.ge⟩, by simp only; omega⟩
    simp only
    rw [hs.total, Classical.not_not.mp hcounter]

/-! ## Tables -/

/-- A table, as its builder leaves it. -/
structure FSETable.Built (t : FSETable) : Prop where
  accuracyLog : t.accuracyLog = 5 ∨ t.accuracyLog = 6
  distribution : Distribution t.symbolProbabilities (2 ^ t.accuracyLog)
  few : t.symbolProbabilities.length ≤ 2 ^ 8
  laid : ∃ symbols, Laid t.symbolProbabilities t.accuracyLog symbols t.decode

/-- **A table that is built** is laid out. -/
theorem FSETable.buildDecoder_safe {t : FSETable} (hmax : t.maxSymbol < 2 ^ 8) {source : Bytes}
    (hshort : source.length * 8 < 2 ^ 64) : Safe (t.buildDecoder source 6) fun r => r.1.Built := by
  unfold FSETable.buildDecoder
  refine (readProbabilities_safe hshort).bind fun r hr => ?_
  obtain ⟨accuracyLog, probs, bytesRead⟩ := r
  obtain ⟨hlog, hprobs, hlen⟩ := hr
  refine (buildDecodingTable_gives hlog hprobs hlen hmax).safe.bind fun decode hdecode => ?_
  exact Safe.pure ⟨hlog, hprobs, Nat.le_trans hlen hmax, hdecode⟩

theorem FSETable.buildDecoder_built {t t' : FSETable} (hmax : t.maxSymbol < 2 ^ 8) {source : Bytes} {bytesRead : Nat}
    (h : t.buildDecoder source 6 = .ok (t', bytesRead)) : t'.Built := by
  have hshort : source.length * 8 < 2 ^ 64 := by
    unfold FSETable.buildDecoder readProbabilities at h
    obtain ⟨_, hread, -⟩ := Run.bind_eq_ok.mp h
    obtain ⟨_, hget, -⟩ := Run.bind_eq_ok.mp hread
    exact BitReader.getBits_short hget
  exact (FSETable.buildDecoder_safe hmax hshort).post _ h

/-- **A table that is built** is the one of its probabilities, cell for cell. -/
theorem FSETable.buildDecoder_layout {t t' : FSETable} (hmax : t.maxSymbol < 2 ^ 8) {source : Bytes} {bytesRead : Nat}
    (h : t.buildDecoder source 6 = .ok (t', bytesRead)) : t'.decode = layout t'.accuracyLog t'.symbolProbabilities := by
  obtain ⟨hlog, hprobs, -, symbols, hlaid⟩ := FSETable.buildDecoder_built hmax h
  exact hlaid.eq_layout hlog hprobs

section
variable {probs : List Int} {accuracyLog : Nat} {symbols : List Nat} {decode : List Entry}

theorem Laid.length_le (h : Laid probs accuracyLog symbols decode) (hprobs : Distribution probs (2 ^ accuracyLog)) :
    symbols.length ≤ 2 ^ accuracyLog := by
  rw [h.length_eq hprobs]
  exact Nat.sub_le _ _

theorem Laid.cases (h : Laid probs accuracyLog symbols decode) {j : Nat} {e : Entry} (hj : decode[j]? = some e) :
    (∃ a, symbols[j]? = some a ∧ e = stateEntry accuracyLog (symbols.count a) ((symbols.take j).count a) a) ∨
      ∃ a, symbols.length ≤ j ∧ (lowSymbols probs.zipIdx).reverse[j - symbols.length]? = some a ∧
        e = ⟨0, accuracyLog, a⟩ := by
  by_cases hlt : j < symbols.length
  · refine .inl ⟨_, List.getElem?_eq_getElem hlt, ?_⟩
    exact Option.some.inj (hj.symm.trans (h.state j _ (List.getElem?_eq_getElem hlt)))
  · have hdrop : (decode.drop symbols.length)[j - symbols.length]? = some e := by
      rw [List.getElem?_drop, Nat.add_sub_cancel' (Nat.le_of_not_lt hlt), hj]
    rw [h.low, lowCells, List.getElem?_map, Option.map_eq_some_iff] at hdrop
    obtain ⟨a, ha, he⟩ := hdrop
    exact .inr ⟨a, Nat.le_of_not_lt hlt, ha, he.symm⟩

theorem Laid.fits (h : Laid probs accuracyLog symbols decode) (hprobs : Distribution probs (2 ^ accuracyLog)) :
    ∀ e ∈ decode, e.Fits (2 ^ accuracyLog) accuracyLog := by
  intro e he
  obtain ⟨j, hj⟩ := List.mem_iff_getElem?.mp he
  rcases h.cases hj with ⟨a, ha, rfl⟩ | ⟨a, -, -, rfl⟩
  · have hfew : symbols.count a ≤ symbols.length := List.count_le_length
    exact stateEntry_fits (Nat.le_trans hfew (h.length_le hprobs)) (count_take_lt ha) a
  · exact ⟨Nat.le_of_eq (Nat.zero_add _), Nat.le_refl _⟩

end

/-! ## The decoder -/

structure FSETable.Complete (t : FSETable) : Prop where
  accuracyLog : t.accuracyLog = 5 ∨ t.accuracyLog = 6
  length : t.decode.length = 2 ^ t.accuracyLog
  fits : ∀ e ∈ t.decode, e.Fits (2 ^ t.accuracyLog) t.accuracyLog

theorem FSETable.Built.complete {t : FSETable} (h : t.Built) : t.Complete := by
  obtain ⟨symbols, hlaid⟩ := h.laid
  exact ⟨h.accuracyLog, hlaid.length, hlaid.fits h.distribution⟩

structure FSEDecoder.InTable (d : FSEDecoder) : Prop where
  table : d.table.Complete
  state : d.state.Fits (2 ^ d.table.accuracyLog) d.table.accuracyLog

theorem FSEDecoder.initState_safe {d : FSEDecoder} (h : d.table.Complete) {bits : BitReaderReversed}
    (hbits : bits.Valid) (hbehind : -2 ^ 16 ≤ bits.bitsRemaining) : Safe (d.initState bits) fun r =>
      r.1.InTable ∧ r.2.Valid ∧ bits.bitsRemaining - 6 ≤ r.2.bitsRemaining := by
  have hlog := h.accuracyLog
  unfold FSEDecoder.initState
  refine Safe.failIf fun _ => (BitReaderReversed.getBits_safe hbits hbehind (by omega)).bind fun r hr => ?_
  have hlt : r.1 < d.table.decode.length := h.length ▸ hr.1
  simp only
  rw [index_eq hlt, Run.ok_bind]
  refine Safe.pure ⟨⟨h, h.fits _ (List.getElem_mem hlt)⟩, hr.2.1, ?_⟩
  rw [hr.2.2]
  omega

theorem FSEDecoder.updateState_safe {d : FSEDecoder} (h : d.InTable) {bits : BitReaderReversed} (hbits : bits.Valid)
    (hbehind : -2 ^ 16 ≤ bits.bitsRemaining) : Safe (d.updateState bits) fun r =>
      r.1.InTable ∧ r.2.Valid ∧ bits.bitsRemaining - 6 ≤ r.2.bitsRemaining := by
  obtain ⟨htable, hlast, hnumBits⟩ := h
  have hlog := htable.accuracyLog
  have hsize : 2 ^ d.table.accuracyLog ≤ 2 ^ 6 := Nat.pow_le_pow_right (by decide) (by omega)
  unfold FSEDecoder.updateState
  refine (BitReaderReversed.getBits_safe hbits hbehind (by omega)).bind fun r hr => ?_
  have hadd : r.1 % 2 ^ 32 = r.1 := Nat.mod_eq_of_lt (by omega)
  have hlt : d.state.baseLine + r.1 < d.table.decode.length := by
    rw [htable.length]
    omega
  simp only
  rw [hadd, addU_eq (by omega), Run.ok_bind, index_eq hlt, Run.ok_bind]
  refine Safe.pure ⟨⟨htable, htable.fits _ (List.getElem_mem hlt)⟩, hr.2.1, ?_⟩
  rw [hr.2.2]
  omega

end Fse

end Ziftsieve.Zstd
