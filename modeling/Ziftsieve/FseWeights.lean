import Ziftsieve.HuffmanStreams

/-!
# How many weights a stream gives

Two decoders of one table take turns on a stream. The weights go on until a decoder
has read behind the end, and the other decoder's weight is the last. That can be the
257th, since the builder counts the weights once in two turns.
-/

namespace Ziftsieve.Zstd

/-! ## Two decoders on one stream -/

/-- The entry of the decoder whose turn it is, the entry of the other, and the bits they have read. -/
structure Duo where
  next : Fse.Entry
  other : Fse.Entry
  pos : Nat

section
variable (t : Fse.FSETable) (bits : List Bool)

def Duo.start : Duo where
  next := t.decode.getD (window bits 0 t.accuracyLog) Fse.Entry.zero
  other := t.decode.getD (window bits t.accuracyLog t.accuracyLog) Fse.Entry.zero
  pos := t.accuracyLog + t.accuracyLog

/-- The decoder whose turn it is goes to its next entry, and the turn to the other. -/
def Duo.update (d : Duo) : Duo where
  next := d.other
  other := t.decode.getD (d.next.baseLine + window bits d.pos d.next.numBits) Fse.Entry.zero
  pos := d.pos + d.next.numBits

def Duo.after : Nat → Duo
  | 0 => Duo.start t bits
  | k + 1 => (Duo.after k).update t bits

def weightAt (k : Nat) : Nat := (Duo.after t bits k).next.symbol

/-- The weights where the update `u` is the first to read behind the end. -/
def weightsUpTo (u : Nat) : List Nat := (List.range (u + 1)).map (weightAt t bits)

end

section
variable {t : Fse.FSETable} {bits : List Bool}

theorem Duo.pos_mono {j k : Nat} (h : j ≤ k) : (Duo.after t bits j).pos ≤ (Duo.after t bits k).pos := by
  induction h with
  | refl => exact Nat.le_refl _
  | step _ ih => exact Nat.le_trans ih (Nat.le_add_right _ _)

theorem getD_mem {α : Type} {xs : List α} {i : Nat} {d : α} (h : i < xs.length) : xs.getD i d ∈ xs := by
  rw [List.getD_eq_getElem _ _ h]
  exact List.getElem_mem h

/-- The decoders stay in the table, and an update reads six bits at most. -/
theorem Duo.after_mem (ht : t.Complete) (bits : List Bool) (k : Nat) : (Duo.after t bits k).next ∈ t.decode ∧
    (Duo.after t bits k).other ∈ t.decode ∧ (Duo.after t bits k).pos ≤ 6 * (k + 2) := by
  have hlog := ht.accuracyLog
  induction k with
  | zero =>
    refine ⟨getD_mem ?_, getD_mem ?_, ?_⟩
    · rw [ht.length]
      exact window_lt _ _ _
    · rw [ht.length]
      exact window_lt _ _ _
    · show t.accuracyLog + t.accuracyLog ≤ _
      omega
  | succ k ih =>
    obtain ⟨hnext, hother, hpos⟩ := ih
    obtain ⟨hlast, hbits⟩ := ht.fits _ hnext
    have hread := window_lt bits (Duo.after t bits k).pos (Duo.after t bits k).next.numBits
    refine ⟨hother, getD_mem ?_, ?_⟩
    · rw [ht.length]
      omega
    · show (Duo.after t bits k).pos + (Duo.after t bits k).next.numBits ≤ _
      omega

theorem Duo.pos_succ (t : Fse.FSETable) (bits : List Bool) (k : Nat) :
    (Duo.after t bits (k + 1)).pos = (Duo.after t bits k).pos + (Duo.after t bits k).next.numBits := rfl

theorem weights_snoc (n : Nat) : (List.range n).map (weightAt t bits) ++ [weightAt t bits n] =
    (List.range (n + 1)).map (weightAt t bits) := by
  rw [List.range_succ, List.map_append, List.map_singleton]

end

/-! ## The decoders of the source -/

namespace Fse

section
variable {source : Bytes} {r : BitReaderReversed} {p : Nat}

/-- A decoder of the table, in the state an entry is. -/
structure FSEDecoder.AtEntry (t : FSETable) (e : Entry) (d : FSEDecoder) : Prop where
  table : d.table = t
  state : d.state = e

theorem FSEDecoder.initState_reads {t : FSETable} (ht : t.Complete) {d : FSEDecoder} (hd : d.table = t)
    (hr : r.Reads source p) (hp : p ≤ 2 ^ 32) : Gives (d.initState r) fun v =>
      v.1.AtEntry t (t.decode.getD (window (backward source) p t.accuracyLog) Entry.zero) ∧
        v.2.Reads source (p + t.accuracyLog) := by
  have hlog := ht.accuracyLog
  have hlt : window (backward source) p t.accuracyLog < t.decode.length := by
    rw [ht.length]
    exact window_lt _ _ _
  obtain ⟨r', hget, hr'⟩ := BitReaderReversed.getBits_reads (n := t.accuracyLog) hr (by omega) (by omega)
  unfold FSEDecoder.initState
  rw [hd, failIf_false _ (by omega), Run.ok_bind, hget, Run.ok_bind]
  simp only
  rw [index_eq hlt, Run.ok_bind]
  exact Gives.ok ⟨⟨rfl, (List.getD_eq_getElem _ _ hlt).symm⟩, hr'⟩

theorem FSEDecoder.updateState_reads {t : FSETable} (ht : t.Complete) {e : Entry} (he : e ∈ t.decode) {d : FSEDecoder}
    (hd : d.AtEntry t e) (hr : r.Reads source p) (hp : p ≤ 2 ^ 32) : Gives (d.updateState r) fun v =>
      v.1.AtEntry t (t.decode.getD (e.baseLine + window (backward source) p e.numBits) Entry.zero) ∧
        v.2.Reads source (p + e.numBits) := by
  have hlog := ht.accuracyLog
  have hsize : 2 ^ t.accuracyLog ≤ 2 ^ 6 := Nat.pow_le_pow_right (by decide) (by omega)
  obtain ⟨hlast, hbits⟩ := ht.fits e he
  have hread := window_lt (backward source) p e.numBits
  have hlt : e.baseLine + window (backward source) p e.numBits < t.decode.length := by
    rw [ht.length]
    omega
  obtain ⟨r', hget, hr'⟩ := BitReaderReversed.getBits_reads (n := e.numBits) hr (by omega) (by omega)
  obtain ⟨htable, hstate⟩ := hd
  unfold FSEDecoder.updateState
  rw [hstate, htable, hget, Run.ok_bind]
  simp only
  rw [Nat.mod_eq_of_lt (show window (backward source) p e.numBits < 2 ^ 32 by omega), addU_eq (by omega), Run.ok_bind,
    index_eq hlt, Run.ok_bind]
  exact Gives.ok ⟨⟨rfl, (List.getD_eq_getElem _ _ hlt).symm⟩, hr'⟩

end

end Fse

section
variable {t : Fse.FSETable} {stream : Bytes} {skip m : Nat} {bits : List Bool} {s : WeightState}

/-- The decoders have taken `m` turns each, behind the first `skip` bits of the stream. -/
structure WeightState.After (t : Fse.FSETable) (stream : Bytes) (skip : Nat) (bits : List Bool) (m : Nat)
    (s : WeightState) : Prop where
  dec1 : s.dec1.AtEntry t (Duo.after t bits (2 * m)).next
  dec2 : s.dec2.AtEntry t (Duo.after t bits (2 * m)).other
  br : s.br.Reads stream (skip + (Duo.after t bits (2 * m)).pos)
  weights : s.weights = (List.range (2 * m)).map (weightAt t bits)
  few : 2 * m ≤ 255

theorem WeightState.After.weights_two (h : s.After t stream skip bits m) :
    s.weights ++ [s.dec1.decodeSymbol] ++ [s.dec2.decodeSymbol] = (List.range (2 * m + 2)).map (weightAt t bits) := by
  rw [h.weights, Fse.FSEDecoder.decodeSymbol, Fse.FSEDecoder.decodeSymbol, h.dec1.state, h.dec2.state]
  exact (congrArg (· ++ _) (weights_snoc (2 * m))).trans (weights_snoc (2 * m + 1))

theorem initStates_after (ht : t.Complete) (hbits : bits = (backward stream).drop skip) (hshort : skip ≤ 2 ^ 16)
    {br : BitReaderReversed} (hbr : br.Reads stream skip) : ∃ dec1 br1 dec2 br2,
    (Fse.FSEDecoder.new t).initState br = .ok (dec1, br1) ∧ (Fse.FSEDecoder.new t).initState br1 = .ok (dec2, br2) ∧
      WeightState.After t stream skip bits 0 ⟨br2, dec1, dec2, []⟩ := by
  have hlog := ht.accuracyLog
  have hnew : (Fse.FSEDecoder.new t).table = t := rfl
  obtain ⟨⟨dec1, br1⟩, hinit1, hdec1, hbr1⟩ := Fse.FSEDecoder.initState_reads ht hnew hbr (by omega)
  obtain ⟨⟨dec2, br2⟩, hinit2, hdec2, hbr2⟩ := Fse.FSEDecoder.initState_reads ht hnew hbr1 (by omega)
  have hstart := window_of_drop (backward stream) skip 0 t.accuracyLog
  rw [Nat.add_zero] at hstart
  rw [← hstart, ← hbits] at hdec1
  rw [← window_of_drop, ← hbits] at hdec2
  rw [Nat.add_assoc] at hbr2
  exact ⟨dec1, br1, dec2, br2, hinit1, hinit2, hdec1, hdec2, hbr2, rfl, Nat.zero_le _⟩

/-- A turn reads behind the end in its first update, or in its second, or goes on. -/
theorem weightTurn_after (ht : t.Complete) (hbits : bits = (backward stream).drop skip) (hskip : skip ≤ 8 * stream.length)
    (hshort : skip ≤ 2 ^ 16) (hs : s.After t stream skip bits m) :
    (bits.length < (Duo.after t bits (2 * m + 1)).pos ∧ weightTurn s = .ok (.done (weightsUpTo t bits (2 * m + 1)))) ∨
    ((Duo.after t bits (2 * m + 1)).pos ≤ bits.length ∧ bits.length < (Duo.after t bits (2 * m + 2)).pos ∧
      weightTurn s = .ok (.done (weightsUpTo t bits (2 * m + 2)))) ∨
    ((Duo.after t bits (2 * m + 1)).pos ≤ bits.length ∧ (Duo.after t bits (2 * m + 2)).pos ≤ bits.length ∧
      Safe (weightTurn s) fun turn => ∃ s', turn = .next s' ∧ s'.After t stream skip bits (m + 1)) := by
  have hsecond := hs.weights_two
  obtain ⟨hdec1, hdec2, hbr, -, hfew⟩ := hs
  have hlen : skip + bits.length = 8 * stream.length := by
    rw [hbits, List.length_drop, length_backward]
    omega
  obtain ⟨hnext, hother, hpos⟩ := Duo.after_mem ht bits (2 * m)
  obtain ⟨hnext', -, hpos'⟩ := Duo.after_mem ht bits (2 * m + 1)
  obtain ⟨-, -, hpos''⟩ := Duo.after_mem ht bits (2 * m + 2)
  obtain ⟨⟨dec1, br⟩, hupdate1, hdec1', hbr'⟩ := Fse.FSEDecoder.updateState_reads ht hnext hdec1 hbr (by omega)
  rw [← window_of_drop, ← hbits] at hdec1'
  have hremaining := hbr'.bitsRemaining
  simp only at hdec1' hbr' hremaining
  have hpos1 := Duo.pos_succ t bits (2 * m)
  have hpos2 : (Duo.after t bits (2 * m + 2)).pos =
      (Duo.after t bits (2 * m + 1)).pos + (Duo.after t bits (2 * m + 1)).next.numBits := Duo.pos_succ t bits (2 * m + 1)
  unfold weightTurn
  rw [hupdate1, Run.ok_bind]
  simp only
  rw [hbr'.valid.bitsRemainingIsize (by omega), Run.ok_bind]
  by_cases hend1 : bits.length < (Duo.after t bits (2 * m + 1)).pos
  · refine .inl ⟨hend1, ?_⟩
    rw [if_pos (by omega), hsecond]
    rfl
  obtain ⟨⟨dec2, br'⟩, hupdate2, hdec2', hbr''⟩ := Fse.FSEDecoder.updateState_reads ht hnext' hdec2 hbr' (by omega)
  rw [Nat.add_assoc, ← hpos1, ← window_of_drop, ← hbits] at hdec2'
  rw [Nat.add_assoc skip, ← hpos1, Nat.add_assoc] at hbr''
  have hremaining' := hbr''.bitsRemaining
  simp only at hdec2' hbr'' hremaining'
  have hthird : s.weights ++ [s.dec1.decodeSymbol] ++ [s.dec2.decodeSymbol] ++ [dec1.decodeSymbol] =
      (List.range (2 * m + 3)).map (weightAt t bits) := by
    rw [hsecond, Fse.FSEDecoder.decodeSymbol, hdec1'.state]
    exact weights_snoc (2 * m + 2)
  rw [if_neg (by omega), hupdate2, Run.ok_bind]
  simp only
  rw [hbr''.valid.bitsRemainingIsize (by omega), Run.ok_bind]
  by_cases hend2 : bits.length < (Duo.after t bits (2 * m + 2)).pos
  · refine .inr (.inl ⟨Nat.le_of_not_lt hend1, hend2, ?_⟩)
    rw [if_pos (by omega), hthird]
    rfl
  refine .inr (.inr ⟨Nat.le_of_not_lt hend1, Nat.le_of_not_lt hend2, ?_⟩)
  rw [if_neg (by omega)]
  refine Safe.failIf fun hmany => Safe.pure ⟨_, rfl, ?_⟩
  rw [hsecond, List.length_map, List.length_range] at hmany
  exact ⟨hdec1', hdec2', hbr'', hsecond, by omega⟩

theorem weightLoop_ok (ht : t.Complete) (hbits : bits = (backward stream).drop skip) (hskip : skip ≤ 8 * stream.length)
    (hshort : skip ≤ 2 ^ 16) : ∀ {n m : Nat} {s : WeightState} {weights : List Nat}, s.After t stream skip bits m →
    loop weightTurn n s = .ok weights → ∃ u ≤ 256, weights = weightsUpTo t bits u ∧
      bits.length < (Duo.after t bits u).pos ∧ ∀ k, 2 * m < k → k < u → (Duo.after t bits k).pos ≤ bits.length
  | 0, _, _, _, _, h => by cases h
  | n + 1, m, s, weights, hs, h => by
    -- the fuel bounds the turns left, and the invariant counts the turns taken
    have hfew := hs.few
    rcases weightTurn_after ht hbits hskip hshort hs with ⟨hend, hturn⟩ | ⟨hgo, hend, hturn⟩ | ⟨hgo, hgo', hturn⟩
    · rw [loop_done hturn] at h
      exact ⟨2 * m + 1, by omega, (Except.ok.inj h).symm, hend, fun k hk hlt => by omega⟩
    · rw [loop_done hturn] at h
      refine ⟨2 * m + 2, by omega, (Except.ok.inj h).symm, hend, fun k hk hlt => ?_⟩
      rwa [show k = 2 * m + 1 by omega]
    · rcases loop_ok_iff.mp h with hdone | ⟨s', hnext, hrest⟩
      · obtain ⟨_, hturn, -⟩ := hturn.post _ hdone
        cases hturn
      · obtain ⟨_, heq, hs'⟩ := hturn.post _ hnext
        obtain rfl := Turn.next.inj heq
        obtain ⟨u, hu, hweights, hend, hinside⟩ := weightLoop_ok ht hbits hskip hshort hs' hrest
        refine ⟨u, hu, hweights, hend, fun k hk hlt => ?_⟩
        rcases show k = 2 * m + 1 ∨ k = 2 * m + 2 ∨ 2 * (m + 1) < k by omega with rfl | rfl | hk
        · exact hgo
        · exact hgo'
        · exact hinside k hk hlt

end

theorem readFseWeights_ok {header : Nat} (hheader : header ≤ 127) {fseStream : Bytes} {weights : List Nat} {bitsRead : Nat}
    (h : readFseWeights header fseStream = .ok (weights, bitsRead)) : ∃ table used padding bits u,
      (Fse.FSETable.new 255).buildDecoder fseStream 6 = .ok (table, used) ∧
      backward ((fseStream.drop used).take (header - used)) = marked padding bits ∧ weights = weightsUpTo table bits u ∧
      u ≤ 256 ∧ bits.length < (Duo.after table bits u).pos ∧
      ∀ k, 0 < k → k < u → (Duo.after table bits k).pos ≤ bits.length := by
  unfold readFseWeights at h
  obtain ⟨_, hlong, h⟩ := Run.bind_eq_ok.mp h
  obtain ⟨⟨table, used⟩, htable, h⟩ := Run.bind_eq_ok.mp h
  have hcomplete := (Fse.FSETable.buildDecoder_built (by decide) htable).complete
  have hlog := hcomplete.accuracyLog
  obtain ⟨_, hused, h⟩ := Run.bind_eq_ok.mp h
  obtain ⟨compressed, hcompressed, h⟩ := Run.bind_eq_ok.mp h
  obtain ⟨_, -, h⟩ := Run.bind_eq_ok.mp h
  obtain ⟨stream, hstream, h⟩ := Run.bind_eq_ok.mp h
  obtain ⟨_, -, h⟩ := Run.bind_eq_ok.mp h
  obtain ⟨_, -, h⟩ := Run.bind_eq_ok.mp h
  obtain ⟨br, hskip, h⟩ := Run.bind_eq_ok.mp h
  rw [slice_eq_ok, List.take_of_length_le (by rw [List.length_drop])] at hcompressed
  rw [slice_eq_ok, List.drop_zero, Nat.sub_zero, ← hcompressed.2] at hstream
  obtain ⟨hfit, hstream⟩ := hstream
  have hshort : stream.length ≤ 127 := by
    rw [← hstream, List.length_take]
    omega
  have hstart := BitReaderReversed.reads_new (show stream.length * 8 < 2 ^ 63 by omega)
  obtain ⟨padding, bits, hpadding, hmarked⟩ := skipPadding_inv hstart hskip
  obtain ⟨_, hskip', hbr⟩ := skipPadding_marked hpadding hmarked hstart
  obtain rfl := Except.ok.inj (hskip.symm.trans hskip')
  have hlen := congrArg List.length hmarked
  rw [length_backward, marked, List.length_append, List.length_replicate, List.length_cons] at hlen
  have hdrop : bits = (backward stream).drop (padding + 1) := by
    rw [hmarked, marked, ← List.drop_drop, List.drop_left' List.length_replicate]
    rfl
  obtain ⟨dec1, br1, dec2, br2, hinit1, hinit2, hafter⟩ := initStates_after hcomplete hdrop (by omega) hbr
  rw [hinit1, Run.ok_bind] at h
  simp only at h
  rw [hinit2, Run.ok_bind] at h
  obtain ⟨weights', hloop, h⟩ := Run.bind_eq_ok.mp h
  obtain ⟨rfl, -⟩ := Prod.mk.inj (Except.ok.inj h)
  obtain ⟨u, hu, hweights, hend, hinside⟩ := weightLoop_ok hcomplete hdrop (by omega) (by omega) hafter hloop
  exact ⟨table, used, padding, bits, u, htable, hstream ▸ hmarked, hweights, hu, hend, hinside⟩

/-! ## Symbols that are bytes -/

/-- The weights are given directly. -/
def IsDirect (source : Bytes) : Prop := ∃ header rest, source = header :: rest ∧ 128 ≤ header.toNat

/-- The weights' stream has been read to behind its end by the update `k`. -/
def RunsOutBy (k : Nat) (source : Bytes) : Prop := ∃ header rest table used padding bits, source = header :: rest ∧
  (Fse.FSETable.new 255).buildDecoder rest 6 = .ok (table, used) ∧
  backward ((rest.drop used).take (header.toNat - used)) = marked padding bits ∧
  bits.length < (Duo.after table bits k).pos

theorem readWeights_few_iff {source : Bytes} {weights : List Nat} {bytesUsed : Nat}
    (h : readWeights source = .ok (weights, bytesUsed)) :
    weights.length ≤ 257 ∧ (weights.length ≤ 255 ↔ IsDirect source ∨ RunsOutBy 254 source) := by
  unfold readWeights at h
  obtain ⟨_, hne, h⟩ := Run.bind_eq_ok.mp h
  cases source with
  | nil => exact absurd rfl ((failIf_eq_ok _ _).mp hne)
  | cons header rest =>
    have hstart := At.start (header :: rest)
    rw [hstart.index, Run.ok_bind] at h
    simp only at h
    rw [hstart.tail.slice_rest, Run.ok_bind] at h
    obtain ⟨⟨read, bitsRead⟩, hread, h⟩ := Run.bind_eq_ok.mp h
    obtain ⟨rfl, -⟩ := Prod.mk.inj (Except.ok.inj h)
    by_cases hheader : header.toNat ≤ 127
    · rw [if_pos hheader] at hread
      obtain ⟨table, used, padding, bits, u, htable, hmarked, rfl, hu, hend, hinside⟩ := readFseWeights_ok hheader hread
      have hlength : (weightsUpTo table bits u).length = u + 1 := by rw [weightsUpTo, List.length_map, List.length_range]
      rw [hlength]
      refine ⟨by omega, fun hfew => .inr ?_, ?_⟩
      · exact ⟨header, rest, table, used, padding, bits, rfl, htable, hmarked,
          Nat.lt_of_lt_of_le hend (Duo.pos_mono (by omega))⟩
      · rintro (⟨_, _, heq, hdirect⟩ | ⟨_, _, table', used', padding', bits', heq, htable', hmarked', hend'⟩)
        · obtain ⟨rfl, -⟩ := List.cons.inj heq
          omega
        · obtain ⟨rfl, rfl⟩ := List.cons.inj heq
          obtain ⟨rfl, rfl⟩ := Prod.mk.inj (Except.ok.inj (htable.symm.trans htable'))
          obtain ⟨-, rfl⟩ := marked_inj (hmarked.symm.trans hmarked')
          by_contra hmany
          have := hinside 254 (by omega) (by omega)
          omega
    · rw [if_neg hheader] at hread
      have hlength := (readDirectWeights_safe _ _).post _ hread
      have hbyte := header.toNat_lt
      simp only at hlength ⊢
      exact ⟨by omega, fun _ => .inl ⟨header, rest, rfl, by omega⟩, fun _ => by omega⟩

/-- The symbols are bytes: no more than there are bytes, each stored as itself, and no two stored as one. -/
structure HuffmanTable.Bytewise (t : HuffmanTable) (ws : List Nat) : Prop where
  few : ws.length ≤ 256
  stored : ∀ s w x, InCell ws s w x → (t.decode[x]?).map HuffmanEntry.symbol = some s
  apart : ∀ r s v w x y, InCell ws r v x → InCell ws s w y →
    (t.decode[x]?).map HuffmanEntry.symbol = (t.decode[y]?).map HuffmanEntry.symbol → r = s

theorem HuffmanTable.Coded.bytewise_iff {t : HuffmanTable} {ws : List Nat} (h : t.Coded ws) :
    t.Bytewise ws ↔ ws.length ≤ 256 := by
  refine ⟨HuffmanTable.Bytewise.few, fun hfew => ?_⟩
  have hstored : ∀ s w x, InCell ws s w x → (t.decode[x]?).map HuffmanEntry.symbol = some s := by
    intro s w x hcell
    have hlt := (List.getElem?_eq_some_iff.mp hcell.get).1
    rw [h.cell s w x hcell, Option.map_some, Nat.mod_eq_of_lt (by omega)]
  refine ⟨hfew, hstored, fun r s v w x y hr hs heq => ?_⟩
  rw [hstored r v x hr, hstored s w y hs] at heq
  exact Option.some.inj heq

/-- **A table's symbols are bytes** if its weights are given directly or their stream runs
out in time, and only then. -/
theorem HuffmanTable.buildDecoder_bytewise_iff {source : Bytes} {t : HuffmanTable} {bytesUsed : Nat}
    (h : HuffmanTable.buildDecoder source = .ok (t, bytesUsed)) : ∃ explicit last,
      readWeights source = .ok (explicit, bytesUsed) ∧ 0 < last ∧ t.Coded (explicit ++ [last]) ∧
        (t.Bytewise (explicit ++ [last]) ↔ IsDirect source ∨ RunsOutBy 254 source) := by
  unfold HuffmanTable.buildDecoder at h
  obtain ⟨⟨explicit, used⟩, hweights, h⟩ := Run.bind_eq_ok.mp h
  obtain ⟨table, htable, h⟩ := Run.bind_eq_ok.mp h
  obtain ⟨rfl, rfl⟩ := Prod.mk.inj (Except.ok.inj h)
  obtain ⟨hfew, hiff⟩ := readWeights_few_iff hweights
  obtain ⟨last, hlast, hcoded⟩ := (buildTableFromWeights_safe (by omega)).post _ htable
  refine ⟨explicit, last, hweights, hlast, hcoded, ?_⟩
  rw [hcoded.bytewise_iff, ← hiff, List.length_append, List.length_singleton]
  omega

/-- Two weights given directly; and 1, 0, 2, 1 as an FSE stream, which runs out long before the 254th update. -/
theorem HuffmanTable.buildDecoder_bytewise_three :
    (∃ explicit last, readWeights [0x81, 0x21] = .ok (explicit, 2) ∧ 0 < last ∧
      HuffmanTable.Bytewise ⟨[⟨1, 2⟩, ⟨2, 2⟩, ⟨0, 1⟩, ⟨0, 1⟩], 2⟩ (explicit ++ [last])) ∧
    ∃ explicit last, readWeights [4, 0, 61, 11, 31] = .ok (explicit, 5) ∧ 0 < last ∧ HuffmanTable.Bytewise
      ⟨[⟨0, 3⟩, ⟨3, 3⟩, ⟨2, 2⟩, ⟨2, 2⟩, ⟨4, 1⟩, ⟨4, 1⟩, ⟨4, 1⟩, ⟨4, 1⟩], 3⟩ (explicit ++ [last]) := by
  have hdirect : HuffmanTable.buildDecoder [0x81, 0x21] = .ok (⟨[⟨1, 2⟩, ⟨2, 2⟩, ⟨0, 1⟩, ⟨0, 1⟩], 2⟩, 2) := by decide +kernel
  have hstream : HuffmanTable.buildDecoder [4, 0, 61, 11, 31] =
      .ok (⟨[⟨0, 3⟩, ⟨3, 3⟩, ⟨2, 2⟩, ⟨2, 2⟩, ⟨4, 1⟩, ⟨4, 1⟩, ⟨4, 1⟩, ⟨4, 1⟩], 3⟩, 5) := by decide +kernel
  have hfew : readWeights [4, 0, 61, 11, 31] = .ok ([1, 0, 2, 1], 5) := by decide +kernel
  constructor
  · obtain ⟨explicit, last, hweights, hlast, -, hiff⟩ := HuffmanTable.buildDecoder_bytewise_iff hdirect
    exact ⟨explicit, last, hweights, hlast, hiff.mpr (.inl ⟨0x81, [0x21], rfl, by decide⟩)⟩
  · obtain ⟨explicit, last, hweights, hlast, -, hiff⟩ := HuffmanTable.buildDecoder_bytewise_iff hstream
    exact ⟨explicit, last, hweights, hlast, hiff.mpr ((readWeights_few_iff hfew).2.mp (by decide))⟩

/-- A stream that gives 256 weights; the implied one is the weight of symbol 256, stored as 0. -/
theorem HuffmanTable.buildDecoder_bytewise_wide : ¬ ∀ (source : Bytes) (t : HuffmanTable) (bytesUsed : Nat),
    HuffmanTable.buildDecoder source = .ok (t, bytesUsed) → ∃ explicit last,
      readWeights source = .ok (explicit, bytesUsed) ∧ 0 < last ∧ t.Coded (explicit ++ [last]) ∧
        t.Bytewise (explicit ++ [last]) := by
  intro h
  have hmany : readWeights [6, 224, 15, 0, 96, 78, 10] = .ok (1 :: List.replicate 255 0, 7) := by decide +kernel
  have htable : buildTableFromWeights (1 :: List.replicate 255 0) = .ok ⟨[⟨0, 1⟩, ⟨0, 1⟩], 1⟩ := by decide +kernel
  have hbuild : HuffmanTable.buildDecoder [6, 224, 15, 0, 96, 78, 10] = .ok (⟨[⟨0, 1⟩, ⟨0, 1⟩], 1⟩, 7) := by
    unfold HuffmanTable.buildDecoder
    rw [hmany, Run.ok_bind]
    simp only
    rw [htable]
    rfl
  obtain ⟨explicit, last, hweights, -, -, hbytewise⟩ := h _ _ _ hbuild
  obtain ⟨rfl, -⟩ := Prod.mk.inj (Except.ok.inj (hmany.symm.trans hweights))
  have hfew := hbytewise.few
  simp only [List.length_append, List.length_cons, List.length_replicate, List.length_nil] at hfew
  omega

end Ziftsieve.Zstd
