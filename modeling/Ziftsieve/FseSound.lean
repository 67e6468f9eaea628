import Ziftsieve.FseHeader
import Ziftsieve.FseStates

/-!
# Weights that are written are read

A header, the states of the weights and the marker before them make a description
of a Huffman code that gives the weights back.
-/

namespace Ziftsieve.Zstd

/-! ## The table of a header -/

namespace Fse

theorem totalCells_append (xs ys : List Int) : totalCells (xs ++ ys) = totalCells xs + totalCells ys := by
  rw [totalCells, List.map_append, List.sum_append]
  rfl

theorem Share.Fits.ge {rest : Nat} : ∀ {s : Share}, s.Fits rest → ∀ p ∈ s.probs, -1 ≤ p
  | part q, h, p, hp => by
    rw [List.mem_singleton.mp hp]
    exact h.2.1
  | zeros more, _, p, hp => by
    rw [probs, ← List.replicate_succ] at hp
    rw [(List.mem_replicate.mp hp).2]
    decide

theorem Fill.distribution : ∀ {rest : Nat} {ss : List Share}, Fill rest ss → Distribution (shareProbs ss) rest
  | rest, [], h => by
    obtain rfl : rest = 0 := h
    exact ⟨rfl, List.forall_mem_nil _⟩
  | rest, s :: ss, ⟨hs, hss⟩ => by
    obtain ⟨htotal, hge⟩ := hss.distribution
    have hsize := hs.size_le
    rw [shareProbs_cons]
    refine ⟨?_, fun p hp => ?_⟩
    · rw [totalCells_append, htotal, ← Share.size]
      omega
    · rcases List.mem_append.mp hp with hp | hp
      · exact hs.ge p hp
      · exact hge p hp

namespace Header

def entries (h : Header) : List Entry := layout h.accuracyLog h.probs

def table (h : Header) : FSETable := ⟨255, h.entries, h.accuracyLog, h.probs⟩

/-- The bits of the header, and others for the rest of its last byte. -/
def bytes (h : Header) (filler : List Bool) : Bytes := pack (h.bits ++ filler)

def Fills (h : Header) (filler : List Bool) : Prop := filler.length = padTo8 h.bits.length

def zeros (h : Header) : List Bool := List.replicate (padTo8 h.bits.length) false

theorem zeros_fills (h : Header) : h.Fills h.zeros := List.length_replicate

variable {h : Header} {filler : List Bool}

theorem Fills.bytesBits (hf : h.Fills filler) : bytesBits (h.bytes filler) = h.bits ++ filler := by
  have hpad := padTo8_add h.bits.length
  refine bytesBits_pack ((h.bits.length + padTo8 h.bits.length) / 8) _ ?_
  rw [List.length_append, show filler.length = padTo8 h.bits.length from hf]
  omega

theorem Fills.length (hf : h.Fills filler) : (h.bytes filler).length = h.size := by
  have hlen := congrArg List.length hf.bytesBits
  rw [length_bytesBits, List.length_append, show filler.length = padTo8 h.bits.length from hf] at hlen
  unfold padTo8 at hlen
  unfold size
  omega

theorem Legal.built (hh : h.Legal 255 6) : buildDecodingTable 255 h.accuracyLog h.probs = .ok h.entries ∧ h.table.Built := by
  obtain ⟨⟨hlow, -⟩, hmax, hfill, hfew⟩ := hh
  have hlog : h.accuracyLog = 5 ∨ h.accuracyLog = 6 := by
    unfold accLogOffset at hlow
    omega
  obtain ⟨decode, hdecode, symbols, hlaid⟩ := buildDecodingTable_gives hlog hfill.distribution hfew (by decide)
  have hentries : h.entries = decode := (hlaid.eq_layout hlog hfill.distribution).symm
  rw [← hentries] at hlaid
  exact ⟨hentries ▸ hdecode, hlog, hfill.distribution, hfew, symbols, hlaid⟩

theorem Legal.buildDecoder (hh : h.Legal 255 6) (hf : h.Fills filler) {rest : Bytes} (hrest : rest ≠ [])
    (hshort : (h.bytes filler ++ rest).length * 8 < 2 ^ 64) :
    (FSETable.new 255).buildDecoder (h.bytes filler ++ rest) 6 = .ok (h.table, h.size) := by
  have hbits : Ziftsieve.bytesBits (h.bytes filler ++ rest) = h.bits ++ (filler ++ Ziftsieve.bytesBits rest) := by
    rw [bytesBits_append, hf.bytesBits, List.append_assoc]
  have hafter : filler ++ Ziftsieve.bytesBits rest ≠ [] := by
    have hpos := List.length_pos_iff.mpr hrest
    have hlen := length_bytesBits rest
    refine List.append_ne_nil_of_right_ne_nil _ (List.length_pos_iff.mp ?_)
    omega
  unfold FSETable.buildDecoder
  rw [FSETable.new, readProbabilities_header hshort hh hbits fun _ => hafter, Run.ok_bind]
  simp only
  rw [hh.built.1]
  rfl

end Header

/-- A symbol that has cells, and not all of them, can be written. -/
theorem FSETable.Built.writable {t : FSETable} (h : t.Built) {a : Nat} {p : Int} (hp : t.symbolProbabilities[a]? = some p)
    (hne : p ≠ 0) (hlt : p < 2 ^ t.accuracyLog) : Writable t.decode a := by
  have htiled := h.tiled
  have hge := htiled.distribution.ge p (List.mem_of_getElem? hp)
  have hcells : 0 < t.decode.countP fun e => e.symbol = a := by
    rw [htiled.cells a p hp]
    unfold cells
    split <;> omega
  obtain ⟨e, he, hsymbol⟩ := List.countP_pos_iff.mp hcells
  simp only [decide_eq_true_eq] at hsymbol
  refine ⟨fun x hx => ?_, ?_⟩
  · obtain ⟨f, hf, hsame, hleads⟩ := htiled.covered e he x (htiled.length ▸ hx)
    exact ⟨f, hf, hsame.trans hsymbol, hleads⟩
  · obtain ⟨hlog, -, hfew, symbols, hlaid⟩ := h
    obtain ⟨j, hj⟩ := List.mem_iff_getElem?.mp he
    rcases hlaid.cases hj with ⟨b, hb, rfl⟩ | ⟨b, -, -, rfl⟩
    · -- the first cell of the symbol reads the most bits
      obtain rfl : b = a := hsymbol
      have hcount : symbols.count b = p.toNat := by
        rw [hlaid.count_symbols hfew, List.getD_eq_getElem?_getD, hp, Option.getD_some]
      have hsome : 0 < symbols.count b := Nat.lt_of_le_of_lt (Nat.zero_le _) (count_take_lt hb)
      obtain ⟨i, hi, htake⟩ := exists_take_count hsome
      refine ⟨_, List.mem_of_getElem? (hlaid.state i b hi), rfl, ?_⟩
      have hle := Nat.le_pow_clog (by decide : 1 < 2) (symbols.count b)
      rw [htake]
      unfold stateEntry
      simp only
      split
      · exact Nat.succ_ne_zero _
      · have hpow : 2 ^ Nat.clog 2 (symbols.count b) < 2 ^ t.accuracyLog := by
          have hcast : ((2 ^ t.accuracyLog : Nat) : Int) = 2 ^ t.accuracyLog := by norm_cast
          omega
        have := (Nat.pow_lt_pow_iff_right (by decide : 1 < 2)).mp hpow
        omega
    · exact ⟨_, he, hsymbol, by simp only; omega⟩

end Fse

/-! ## The loop -/

section
variable {t : Fse.FSETable} {stream : Bytes} {bits : List Bool} {skip m u : Nat} {s : WeightState}

/-- A turn goes on that reads within the stream and has few weights so far. -/
theorem weightTurn_next (ht : t.Complete) (hbits : bits = (backward stream).drop skip) (hskip : skip ≤ 8 * stream.length)
    (hshort : skip ≤ 2 ^ 16) (hs : s.After t stream skip bits m) (hfew : 2 * m + 2 ≤ 255)
    (hinside : (Duo.after t bits (2 * m + 1)).pos ≤ bits.length) (hinside' : (Duo.after t bits (2 * m + 2)).pos ≤ bits.length) :
    ∃ s', weightTurn s = .ok (.next s') ∧ s'.After t stream skip bits (m + 1) := by
  have hsecond := hs.weights_two
  obtain ⟨hdec1, hdec2, hbr, -, -⟩ := hs
  have hlen : skip + bits.length = 8 * stream.length := by
    rw [hbits, List.length_drop, length_backward]
    omega
  obtain ⟨hnext, -, hpos⟩ := Duo.after_mem ht bits (2 * m)
  obtain ⟨hnext', -, hpos'⟩ := Duo.after_mem ht bits (2 * m + 1)
  have hpos1 := Duo.pos_succ t bits (2 * m)
  have hpos2 : (Duo.after t bits (2 * m + 2)).pos =
      (Duo.after t bits (2 * m + 1)).pos + (Duo.after t bits (2 * m + 1)).next.numBits := Duo.pos_succ t bits (2 * m + 1)
  obtain ⟨⟨dec1, br⟩, hupdate1, hdec1', hbr'⟩ := Fse.FSEDecoder.updateState_reads ht hnext hdec1 hbr (by omega)
  rw [← window_of_drop, ← hbits] at hdec1'
  obtain ⟨⟨dec2, br'⟩, hupdate2, hdec2', hbr''⟩ := Fse.FSEDecoder.updateState_reads ht hnext' hdec2 hbr' (by omega)
  rw [Nat.add_assoc, ← hpos1, ← window_of_drop, ← hbits] at hdec2'
  have hremaining := hbr'.bitsRemaining
  rw [Nat.add_assoc, ← hpos1] at hremaining
  rw [Nat.add_assoc skip, ← hpos1, Nat.add_assoc, ← hpos2] at hbr''
  have hremaining' := hbr''.bitsRemaining
  simp only at hdec1' hdec2' hbr' hbr'' hremaining hremaining'
  unfold weightTurn
  rw [hupdate1, Run.ok_bind]
  simp only
  rw [hbr'.valid.bitsRemainingIsize (by omega), Run.ok_bind, if_neg (by omega), hupdate2, Run.ok_bind]
  simp only
  rw [hbr''.valid.bitsRemainingIsize (by omega), Run.ok_bind, if_neg (by omega), hsecond, failIf_false _ (by rw [List.length_map, List.length_range]; omega)]
  exact ⟨_, rfl, hdec1', hdec2', hbr'', rfl, by omega⟩

/-- The loop gives the weights up to the first update that reads behind the end. -/
theorem weightLoop_gives (ht : t.Complete) (hbits : bits = (backward stream).drop skip) (hskip : skip ≤ 8 * stream.length)
    (hshort : skip ≤ 2 ^ 16) (hu : u ≤ 256) (hend : bits.length < (Duo.after t bits u).pos)
    (hinside : ∀ k, 0 < k → k < u → (Duo.after t bits k).pos ≤ bits.length) : ∀ {n m : Nat} {s : WeightState},
    s.After t stream skip bits m → 2 * m < u → u ≤ 2 * (m + n) → loop weightTurn n s = .ok (weightsUpTo t bits u)
  | 0, m, _, _, hlt, hle => by omega
  | n + 1, m, s, hs, hlt, hle => by
    rcases weightTurn_after ht hbits hskip hshort hs with ⟨hout, hturn⟩ | ⟨hin, hout, hturn⟩ | ⟨hin, hin', -⟩
    · obtain rfl : u = 2 * m + 1 := by
        by_contra hne
        have := hinside (2 * m + 1) (by omega) (by omega)
        omega
      exact loop_done hturn
    · obtain rfl : u = 2 * m + 2 := by
        by_contra hne
        rcases Nat.lt_or_ge u (2 * m + 2) with hless | hmore
        · have hmono : (Duo.after t bits u).pos ≤ (Duo.after t bits (2 * m + 1)).pos := Duo.pos_mono (by omega)
          omega
        · have := hinside (2 * m + 2) (by omega) (by omega)
          omega
      exact loop_done hturn
    · have hmore : 2 * m + 2 < u := by
        by_contra hnot
        have hmono : (Duo.after t bits u).pos ≤ (Duo.after t bits (2 * m + 2)).pos := Duo.pos_mono (by omega)
        omega
      obtain ⟨s', hturn, hs'⟩ := weightTurn_next ht hbits hskip hshort hs (by omega) hin hin'
      rw [loop_next hturn]
      exact weightLoop_gives ht hbits hskip hshort hu hend hinside hs' (by omega) (by omega)

end

theorem readFseWeights_gives {header used padding u : Nat} {fseStream : Bytes} {table : Fse.FSETable} {bits : List Bool}
    (hheader : header ≤ 127) (hlen : header ≤ fseStream.length)
    (htable : (Fse.FSETable.new 255).buildDecoder fseStream 6 = .ok (table, used)) (hused : used ≤ header)
    (hpadding : padding ≤ 7) (hmarked : backward ((fseStream.drop used).take (header - used)) = marked padding bits)
    (hu : 0 < u ∧ u ≤ 256) (hend : bits.length < (Duo.after table bits u).pos)
    (hinside : ∀ k, 0 < k → k < u → (Duo.after table bits k).pos ≤ bits.length) :
    readFseWeights header fseStream = .ok (weightsUpTo table bits u, 8 + header * 8) := by
  have hcomplete := (Fse.FSETable.buildDecoder_built (by decide) htable).complete
  obtain ⟨stream, hstream⟩ : ∃ stream, (fseStream.drop used).take (header - used) = stream := ⟨_, rfl⟩
  rw [hstream] at hmarked
  have hshort : stream.length ≤ 127 := by
    rw [← hstream, List.length_take]
    omega
  have hbits := congrArg List.length hmarked
  rw [length_backward, marked, List.length_append, List.length_replicate, List.length_cons] at hbits
  have hdrop : bits = (backward stream).drop (padding + 1) := by
    rw [hmarked, marked, ← List.drop_drop, List.drop_left' List.length_replicate]
    rfl
  obtain ⟨br, hskip, hbr⟩ := skipPadding_marked hpadding hmarked
    (BitReaderReversed.reads_new (show stream.length * 8 < 2 ^ 63 by omega))
  obtain ⟨dec1, br1, dec2, br2, hinit1, hinit2, hafter⟩ := initStates_after hcomplete hdrop (by omega) hbr
  have hloop := weightLoop_gives hcomplete hdrop (by omega) (by omega) hu.2 hend hinside (n := 257) hafter
    (by omega) (by omega)
  have hat : At fseStream used (fseStream.drop used) := ⟨by omega, rfl⟩
  have hrest : At (fseStream.drop used) 0 ((fseStream.drop used).take (header - used) ++
      (fseStream.drop used).drop (header - used)) := by
    rw [List.take_append_drop]
    exact At.start _
  have hcut : (fseStream.drop used).length = fseStream.length - used := List.length_drop
  have htake : header - used = 0 + ((fseStream.drop used).take (header - used)).length := by
    rw [List.length_take]
    omega
  unfold readFseWeights
  rw [failIf_false _ (by omega), Run.ok_bind, htable, Run.ok_bind]
  simp only
  rw [failIf_false _ (by omega), Run.ok_bind, hat.slice_rest, Run.ok_bind, failIf_false _ (by omega), Run.ok_bind,
    hrest.slice htake, Run.ok_bind, Nat.add_sub_cancel' hused, Nat.mod_eq_of_lt (by omega), mulU_eq (by omega),
    Run.ok_bind, addU_eq (by omega), Run.ok_bind, hstream, hskip, Run.ok_bind, hinit1, Run.ok_bind]
  simp only
  rw [hinit2, Run.ok_bind]
  simp only
  rw [hloop]
  rfl

/-! ## Descriptions -/

/-- Bits to be read from their end, behind the marker. -/
def packMarked (w : List Bool) : Bytes := pack (marked (padTo8 (1 + w.length)) w).reverse

theorem backward_packMarked (w : List Bool) : backward (packMarked w) = marked (padTo8 (1 + w.length)) w := by
  have hpad := padTo8_add (1 + w.length)
  have hbits := bytesBits_pack ((1 + w.length + padTo8 (1 + w.length)) / 8) (marked (padTo8 (1 + w.length)) w).reverse (by
    rw [List.length_reverse, marked, List.length_append, List.length_replicate, List.length_cons]
    omega)
  rw [backward, packMarked, hbits, List.reverse_reverse]

theorem packMarked_ne_nil (w : List Bool) : packMarked w ≠ [] := by
  intro hnil
  have hlen := congrArg List.length (backward_packMarked w)
  rw [hnil, length_backward, marked, List.length_append, List.length_cons, List.length_nil] at hlen
  omega

/-- What follows the first byte of a description: the header of the table, and the stream. -/
def descriptionBody (h : Fse.Header) (filler bits : List Bool) : Bytes := h.bytes filler ++ packMarked bits

def encodeDescription (h : Fse.Header) (filler bits : List Bool) : Bytes :=
  UInt8.ofNat (descriptionBody h filler bits).length :: descriptionBody h filler bits

/-- The bytes fit, and the update `u` is the first that reads behind the end. -/
structure Written (h : Fse.Header) (filler bits : List Bool) (u : Nat) : Prop where
  header : h.Legal 255 6
  fills : h.Fills filler
  short : (descriptionBody h filler bits).length ≤ 127
  updates : 0 < u ∧ u ≤ 256
  behind : bits.length < (Duo.after h.table bits u).pos
  within : ∀ k, 0 < k → k < u → (Duo.after h.table bits k).pos ≤ bits.length

theorem Written.readWeights {h : Fse.Header} {filler bits : List Bool} {u : Nat} (hw : Written h filler bits u) {rest : Bytes}
    (hshort : (encodeDescription h filler bits ++ rest).length * 8 < 2 ^ 64) :
    readWeights (encodeDescription h filler bits ++ rest) =
      .ok (weightsUpTo h.table bits u, (encodeDescription h filler bits).length) := by
  obtain ⟨hh, hf, hsize, hu, hend, hinside⟩ := hw
  obtain ⟨body, hbody⟩ : ∃ body, descriptionBody h filler bits = body := ⟨_, rfl⟩
  have hbytes := hf.length
  have hlen := congrArg List.length hbody
  rw [descriptionBody, List.length_append, hbytes] at hlen
  have hwhole : body ++ rest = h.bytes filler ++ (packMarked bits ++ rest) := by
    rw [← hbody, descriptionBody, List.append_assoc]
  unfold encodeDescription at hshort ⊢
  rw [hbody] at hsize hshort ⊢
  rw [List.cons_append, List.length_cons] at hshort
  have htable := hh.buildDecoder hf (List.append_ne_nil_of_left_ne_nil (packMarked_ne_nil bits) rest)
    (hwhole ▸ (by omega : (body ++ rest).length * 8 < 2 ^ 64))
  have hcut : ((body ++ rest).drop h.size).take (body.length - h.size) = packMarked bits := by
    rw [hwhole, ← hbytes, List.drop_left, hbytes, List.take_left' (by omega)]
  have hheader : (UInt8.ofNat body.length).toNat = body.length := by
    rw [UInt8.toNat_ofNat']
    exact Nat.mod_eq_of_lt (by omega)
  have hpad : padTo8 (1 + bits.length) ≤ 7 := by
    unfold padTo8
    omega
  have hfits : body.length ≤ (body ++ rest).length := by
    rw [List.length_append]
    omega
  have hread : readFseWeights body.length (body ++ rest) = .ok (weightsUpTo h.table bits u, 8 + body.length * 8) :=
    readFseWeights_gives hsize hfits (hwhole ▸ htable) (by omega) hpad (hcut ▸ backward_packMarked bits) hu hend hinside
  have hstart := At.start (UInt8.ofNat body.length :: (body ++ rest))
  unfold Zstd.readWeights
  rw [List.cons_append, failIf_false _ (List.cons_ne_nil _ _), Run.ok_bind, hstart.index, Run.ok_bind]
  simp only
  rw [hstart.tail.slice_rest, Run.ok_bind, hheader, if_pos hsize, hread, Run.ok_bind]
  simp only
  rw [if_pos (by omega), List.length_cons, show (8 + body.length * 8) / 8 = body.length + 1 by omega]
  rfl

/-- The stream of the states that give the weights. -/
def weightsStream (h : Fse.Header) (ws : List Nat) : List Bool := statesBits h.entries h.accuracyLog ws

def encodeWeights (h : Fse.Header) (ws : List Nat) : Bytes := encodeDescription h h.zeros (weightsStream h ws)

/-- **Weights that are written are read**, whatever table they are written with: each has
cells in it and not all of them, and they go into the 127 bytes that a description has. -/
theorem readWeights_encodeWeights {h : Fse.Header} {ws : List Nat} (hh : h.Legal 255 6) (hlen : 2 ≤ ws.length)
    (hmany : ws.length ≤ 257) (hws : ∀ a ∈ ws, ∃ p, h.probs[a]? = some p ∧ p ≠ 0 ∧ p < 2 ^ h.accuracyLog)
    (hsize : (encodeWeights h ws).length ≤ 128) {rest : Bytes}
    (hshort : (encodeWeights h ws ++ rest).length * 8 < 2 ^ 64) :
    readWeights (encodeWeights h ws ++ rest) = .ok (ws, (encodeWeights h ws).length) := by
  have hbuilt := hh.built.2
  have hwritable : ∀ a ∈ ws, Writable h.table.decode a := by
    intro a ha
    obtain ⟨p, hp, hne, hlt⟩ := hws a ha
    exact hbuilt.writable hp hne hlt
  obtain ⟨hgives, hinside, hend⟩ := statesBits_gives hbuilt.complete hlen hwritable (show weightsStream h ws = _ from rfl)
  have hwritten : Written h h.zeros (weightsStream h ws) (ws.length - 1) :=
    ⟨hh, h.zeros_fills, Nat.le_of_succ_le_succ hsize, by omega, hend, fun k _ hk => hinside k (by omega)⟩
  have hread := hwritten.readWeights hshort
  rwa [hgives] at hread

/-- Symbols of 15, of 16 and of less than one cell, by turns. -/
theorem readWeights_encodeWeights_turns :
    readWeights (encodeWeights ⟨5, Fse.sharesOf [15, 16, -1]⟩ [1, 0, 2, 1] ++ [7]) = .ok ([1, 0, 2, 1], 5) := by
  have hlegal : (⟨5, Fse.sharesOf [15, 16, -1]⟩ : Fse.Header).Legal 255 6 :=
    ⟨by decide, by decide, Fse.Distribution.fill ⟨rfl, by decide⟩ (by decide), by decide⟩
  have hsize : (encodeWeights ⟨5, Fse.sharesOf [15, 16, -1]⟩ [1, 0, 2, 1]).length = 5 := by decide +kernel
  have hws : ∀ a ∈ [1, 0, 2, 1], ∃ p, (⟨5, Fse.sharesOf [15, 16, -1]⟩ : Fse.Header).probs[a]? = some p ∧ p ≠ 0 ∧ p < 2 ^ 5 := by
    intro a ha
    simp only [List.mem_cons, List.not_mem_nil, or_false] at ha
    rcases ha with rfl | rfl | rfl | rfl
    · exact ⟨16, by decide⟩
    · exact ⟨15, by decide⟩
    · exact ⟨-1, by decide⟩
    · exact ⟨16, by decide⟩
  have hshort : (encodeWeights ⟨5, Fse.sharesOf [15, 16, -1]⟩ [1, 0, 2, 1] ++ [7]).length * 8 < 2 ^ 64 := by
    rw [List.length_append, hsize]
    decide
  have hread := readWeights_encodeWeights hlegal (by decide) (by decide) hws (by rw [hsize]; decide) hshort
  rwa [hsize] at hread

end Ziftsieve.Zstd
