import Ziftsieve.FseSafe

/-!
# The states of a symbol tile the table

In a table that is built, a symbol has as many cells as its probability says, and
every state of the table is one that exactly one of the symbol's cells leads to.
-/

namespace Ziftsieve.Zstd.Fse

/-! ## The cells of a symbol -/

theorem count_lowSymbols (symbol : Nat) : ∀ (probs : List Int) (k : Nat), k + probs.length ≤ 256 →
    (lowSymbols (probs.zipIdx k)).count symbol = if k ≤ symbol ∧ probs.getD (symbol - k) 0 = -1 then 1 else 0
  | [], k, _ => by simp [lowSymbols]
  | p :: probs, k, hlen => by
    rw [List.length_cons] at hlen
    have ih := count_lowSymbols symbol probs (k + 1) (by omega)
    have hcons : (lowSymbols ((p :: probs).zipIdx k)).count symbol =
        (if p = -1 ∧ k = symbol then 1 else 0) + (lowSymbols (probs.zipIdx (k + 1))).count symbol := by
      unfold lowSymbols
      rw [List.zipIdx_cons, List.filter_cons]
      by_cases hp : p = -1
      · simp only [hp, decide_true, if_true, List.map_cons, List.count_cons, Nat.mod_eq_of_lt (show k < 2 ^ 8 by omega)]
        rw [Nat.add_comm]
        simp
      · simp only [hp, decide_false, Bool.false_eq_true, if_false, false_and, Nat.zero_add]
    rw [hcons, ih]
    rcases Nat.lt_trichotomy symbol k with hlt | rfl | hgt
    · rw [if_neg (by omega), if_neg (by omega), if_neg (by omega)]
    · rw [if_neg (show ¬ (symbol + 1 ≤ symbol ∧ _) by omega), Nat.sub_self]
      simp
    · obtain ⟨j, rfl⟩ : ∃ j, symbol = k + 1 + j := ⟨symbol - (k + 1), by omega⟩
      have hj : k + 1 + j - k = j + 1 := by omega
      rw [if_neg (by omega), Nat.add_sub_cancel_left, hj, Nat.zero_add, List.getD_cons_succ]
      congr 1
      simp
      omega

section
variable {probs : List Int} {accuracyLog : Nat} {symbols : List Nat} {decode : List Entry}

theorem Laid.count_symbols (h : Laid probs accuracyLog symbols decode) (hfew : probs.length ≤ 256) (a : Nat) :
    symbols.count a = (probs.getD a 0).toNat := by
  rw [h.perm.count_eq, count_symbolsOf a probs 0 (by omega), if_pos (Nat.zero_le a), Nat.sub_zero]

theorem count_low (hfew : probs.length ≤ 256) (a : Nat) :
    (lowSymbols probs.zipIdx).count a = if probs.getD a 0 = -1 then 1 else 0 := by
  rw [count_lowSymbols a probs 0 (by omega), Nat.sub_zero]
  simp

theorem Laid.map_symbol (h : Laid probs accuracyLog symbols decode) (hle : symbols.length ≤ decode.length) :
    decode.map Entry.symbol = symbols ++ (lowSymbols probs.zipIdx).reverse := by
  conv_lhs => rw [← List.take_append_drop symbols.length decode, List.map_append, h.low]
  congr 1
  · refine List.ext_getElem? fun j => ?_
    rw [List.getElem?_map]
    by_cases hj : j < symbols.length
    · rw [List.getElem?_take_of_lt hj, h.state j _ (List.getElem?_eq_getElem hj), List.getElem?_eq_getElem hj]
      rfl
    · rw [List.getElem?_eq_none (by rw [List.length_take]; omega), List.getElem?_eq_none (Nat.le_of_not_lt hj)]
      rfl
  · unfold lowCells
    rw [List.map_map]
    exact List.map_id _

theorem Laid.count_cells (h : Laid probs accuracyLog symbols decode) (hfew : probs.length ≤ 256)
    (hle : symbols.length ≤ decode.length) {a : Nat} {p : Int} (hp : probs[a]? = some p) :
    decode.countP (fun e => e.symbol = a) = cells p := by
  have hget : probs.getD a 0 = p := by rw [List.getD_eq_getElem?_getD, hp]; rfl
  have hcount : decode.countP (fun e => e.symbol = a) = (decode.map Entry.symbol).count a := by
    rw [List.count_eq_countP, List.countP_map]
    exact List.countP_congr fun e _ => by simp
  rw [hcount, h.map_symbol hle, List.count_append, List.count_reverse, h.count_symbols hfew, count_low hfew, hget]
  unfold cells
  split
  · rename_i hlow
    rw [hlow]
    rfl
  · rfl

theorem Laid.kinds_apart (h : Laid probs accuracyLog symbols decode) (hfew : probs.length ≤ 256) {a : Nat}
    (ha : a ∈ symbols) : a ∉ lowSymbols probs.zipIdx := by
  intro hlow
  have hown := List.count_pos_iff.mpr ha
  have hlast := List.count_pos_iff.mpr hlow
  rw [h.count_symbols hfew] at hown
  rw [count_low hfew] at hlast
  split at hlast
  · omega
  · omega

theorem lowSymbols_nodup (hfew : probs.length ≤ 256) : (lowSymbols probs.zipIdx).reverse.Nodup := by
  rw [List.nodup_iff_count_le_one]
  intro a
  rw [List.count_reverse, count_low hfew]
  split <;> omega

/-- **A state is led to from one cell of a symbol at most.** -/
theorem Laid.leads_inj (h : Laid probs accuracyLog symbols decode) (hfew : probs.length ≤ 256) {i j x : Nat} {e f : Entry}
    (hi : decode[i]? = some e) (hj : decode[j]? = some f) (hsymbol : e.symbol = f.symbol) (he : e.Leads x)
    (hf : f.Leads x) : i = j := by
  rcases h.cases hi with ⟨a, ha, rfl⟩ | ⟨a, hia, ha, rfl⟩
  · rcases h.cases hj with ⟨b, hb, rfl⟩ | ⟨b, -, hb, rfl⟩
    · obtain rfl : a = b := hsymbol
      have hle := Nat.le_pow_clog (by decide : 1 < 2) (symbols.count a)
      have htwice := two_pow_clog_le (p := symbols.count a) (Nat.lt_of_le_of_lt (Nat.zero_le _) (count_take_lt ha))
      exact count_take_inj ha hb (((stateEntry_leads_iff (count_take_lt ha) a x).mp he).inj hle htwice (Nat.two_pow_pos _)
        ((stateEntry_leads_iff (count_take_lt hb) a x).mp hf))
    · obtain rfl : a = b := hsymbol
      exact absurd (List.mem_reverse.mp (List.mem_of_getElem? hb)) (h.kinds_apart hfew (List.mem_of_getElem? ha))
  · rcases h.cases hj with ⟨b, hb, rfl⟩ | ⟨b, hjb, hb, rfl⟩
    · obtain rfl : a = b := hsymbol
      exact absurd (List.mem_reverse.mp (List.mem_of_getElem? ha)) (h.kinds_apart hfew (List.mem_of_getElem? hb))
    · obtain rfl : a = b := hsymbol
      have hsame := (List.getElem?_inj (List.getElem?_eq_some_iff.mp ha).1 (lowSymbols_nodup hfew)).mp (ha.trans hb.symm)
      omega

/-- **And from one at least.** -/
theorem Laid.exists_leads (h : Laid probs accuracyLog symbols decode) (hle : symbols.length ≤ 2 ^ accuracyLog) {e : Entry}
    (he : e ∈ decode) {x : Nat} (hx : x < 2 ^ accuracyLog) : ∃ f ∈ decode, f.symbol = e.symbol ∧ f.Leads x := by
  obtain ⟨i, hi⟩ := List.mem_iff_getElem?.mp he
  rcases h.cases hi with ⟨a, ha, rfl⟩ | ⟨a, -, -, rfl⟩
  · have hcount : symbols.count a ≤ symbols.length := List.count_le_length
    have hsome := Nat.lt_of_le_of_lt (Nat.zero_le _) (count_take_lt ha)
    have hplaces := places (show symbols.count a ≤ 2 ^ accuracyLog by omega)
    obtain ⟨rank, hrank⟩ := exists_inSlice (Nat.le_pow_clog (by decide : 1 < 2) (symbols.count a))
      (two_pow_clog_le hsome) (Nat.two_pow_pos (accuracyLog - Nat.clog 2 (symbols.count a))) (hplaces ▸ hx)
    obtain ⟨j, hj, htake⟩ := exists_take_count hrank.lt
    refine ⟨_, List.mem_of_getElem? (h.state j a hj), rfl, ?_⟩
    rw [htake]
    exact (stateEntry_leads_iff hrank.lt a x).mpr hrank
  · exact ⟨_, he, rfl, Nat.zero_le _, by simpa using hx⟩

end

/-! ## The table -/

/-- The probabilities fill the table, the symbols have their cells, and the states of a
symbol's cells are all states, each once. -/
structure FSETable.Tiled (t : FSETable) : Prop where
  length : t.decode.length = 2 ^ t.accuracyLog
  distribution : Distribution t.symbolProbabilities (2 ^ t.accuracyLog)
  cells : ∀ (a : Nat) (p : Int), t.symbolProbabilities[a]? = some p → t.decode.countP (fun e => e.symbol = a) = cells p
  apart : ∀ (i j x : Nat) (e f : Entry), t.decode[i]? = some e → t.decode[j]? = some f → e.symbol = f.symbol →
    e.Leads x → f.Leads x → i = j
  covered : ∀ e ∈ t.decode, ∀ x < 2 ^ t.accuracyLog, ∃ f ∈ t.decode, f.symbol = e.symbol ∧ f.Leads x
  within : ∀ e ∈ t.decode, ∀ x, e.Leads x → x < 2 ^ t.accuracyLog

theorem FSETable.Built.tiled {t : FSETable} (h : t.Built) : t.Tiled := by
  have hcomplete := h.complete
  obtain ⟨-, hprobs, hfew, symbols, hlaid⟩ := h
  have hle := hlaid.length_le hprobs
  refine ⟨hlaid.length, hprobs, fun a p hp => hlaid.count_cells hfew (by rw [hlaid.length]; exact hle) hp,
    fun i j x e f hi hj hsymbol he hf => hlaid.leads_inj hfew hi hj hsymbol he hf,
    fun e he x hx => hlaid.exists_leads hle he hx, fun e he x hx => ?_⟩
  have hlast := (hcomplete.fits e he).last
  have hlt := hx.2
  omega

theorem getBits_lt {bits bits' : BitReaderReversed} {n v : Nat} (hn : n < 64) (h : bits.getBits n = .ok (v, bits')) :
    v < 2 ^ n := by
  unfold BitReaderReversed.getBits at h
  obtain ⟨_, -, h⟩ := Run.bind_eq_ok.mp h
  obtain ⟨r, -, h⟩ := Run.bind_eq_ok.mp h
  obtain ⟨value, hvalue, h⟩ := Run.bind_eq_ok.mp h
  obtain ⟨_, -, h⟩ := Run.bind_eq_ok.mp h
  rw [← (Prod.mk.inj (Except.ok.inj h)).1]
  unfold BitReaderReversed.peekBits at hvalue
  by_cases h0 : n = 0
  · rw [if_pos h0] at hvalue
    rw [← Except.ok.inj hvalue]
    exact Nat.two_pow_pos n
  · rw [if_neg h0, shlU_one hn, Run.ok_bind, subU_eq (Nat.two_pow_pos n), Run.ok_bind] at hvalue
    obtain ⟨_, -, hvalue⟩ := Run.bind_eq_ok.mp hvalue
    obtain ⟨_, -, hvalue⟩ := Run.bind_eq_ok.mp hvalue
    obtain ⟨_, -, hvalue⟩ := Run.bind_eq_ok.mp hvalue
    rw [← Except.ok.inj hvalue]
    exact and_mask_lt _ n

/-- A decoder in the table goes to an entry of it, whatever bits it reads. -/
theorem FSEDecoder.updateState_lands {d : FSEDecoder} (htable : d.table.Complete) (hstate : d.state ∈ d.table.decode)
    {bits bits' : BitReaderReversed} {add : Nat} (h : bits.getBits d.state.numBits = .ok (add, bits')) :
    ∃ e ∈ d.table.decode, d.updateState bits = .ok (⟨e, d.table⟩, bits') := by
  have hlog := htable.accuracyLog
  have hsize : 2 ^ d.table.accuracyLog ≤ 2 ^ 6 := Nat.pow_le_pow_right (by decide) (by omega)
  obtain ⟨hlast, hnumBits⟩ := htable.fits _ hstate
  have hadd := getBits_lt (by omega) h
  have hlt : d.state.baseLine + add < d.table.decode.length := by
    rw [htable.length]
    omega
  refine ⟨_, List.getElem_mem hlt, ?_⟩
  unfold FSEDecoder.updateState
  rw [h, Run.ok_bind]
  simp only
  rw [Nat.mod_eq_of_lt (show add < 2 ^ 32 by omega), addU_eq (by omega), Run.ok_bind, index_eq hlt, Run.ok_bind]
  rfl

/-- **A table that is built is tiled**, and a decoder in it stays in it. -/
theorem FSETable.buildDecoder_tiled {t t' : FSETable} (hmax : t.maxSymbol < 2 ^ 8) {source : Bytes} {bytesRead : Nat}
    (h : t.buildDecoder source 6 = .ok (t', bytesRead)) : t'.Tiled ∧ ∀ d : FSEDecoder, d.table = t' →
      d.state ∈ t'.decode → ∀ bits add bits', bits.getBits d.state.numBits = .ok (add, bits') →
        ∃ e ∈ t'.decode, d.updateState bits = .ok (⟨e, t'⟩, bits') := by
  have hbuilt := FSETable.buildDecoder_built hmax h
  refine ⟨hbuilt.tiled, ?_⟩
  rintro d rfl hstate bits add bits' hget
  exact FSEDecoder.updateState_lands hbuilt.complete hstate hget

/-- Symbols of 15, of 16 and of less than one cell. -/
theorem FSETable.buildDecoder_tiled_three : ∃ t', (FSETable.new 255).buildDecoder [0, 61] 6 = .ok (t', 2) ∧ t'.Tiled := by
  have hbytes : ((FSETable.new 255).buildDecoder [0, 61] 6).map Prod.snd = .ok 2 := by decide +kernel
  cases h : (FSETable.new 255).buildDecoder [0, 61] 6 with
  | error e =>
    rw [h] at hbytes
    cases hbytes
  | ok r =>
    rw [h] at hbytes
    obtain ⟨t', bytesRead⟩ := r
    obtain rfl := Except.ok.inj hbytes
    exact ⟨t', rfl, (FSETable.buildDecoder_tiled (by decide) h).1⟩

end Ziftsieve.Zstd.Fse
