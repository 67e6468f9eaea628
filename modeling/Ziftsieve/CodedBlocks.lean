import Ziftsieve.CodedFormat
import Ziftsieve.DeflateSafe

/-!
# The parser recognizes blocks

One lemma for each part of a block, in both directions: the tokens of a Huffman
coded block, the lengths and trees of a dynamic one, a stored block.
-/

namespace Ziftsieve.Gzip

section
variable {data : Bytes} {p : Nat} {L V : List Nat} {d e : HuffmanDecoder}

/-! ## Tokens -/

theorem readExtra_parses (k : Nat) : Parses (bitView data) p (if k > 0 then readBits k else pure 0) fun v w =>
    w = bitsLe k v ∧ v < 2 ^ k := by
  refine Parses.ite (fun _ => readBits_parses k) fun h => Parses.pure ?_
  rw [Nat.eq_zero_of_not_pos h]
  exact ⟨rfl, Nat.one_pos⟩

theorem exists_rangedBits {extraBits : List Nat} {idx k v : Nat} (hk : extraBits[idx]? = some k) (hv : v < 2 ^ k) :
    ∃ x : Ranged extraBits, x.idx = idx ∧ x.bits = bitsLe k v := by
  obtain ⟨hidx, hget⟩ := List.getElem?_eq_some_iff.mp hk
  refine ⟨⟨idx, v, hidx, by rw [hget]; exact hv⟩, rfl, ?_⟩
  rw [Ranged.bits, List.getD_eq_getElem?_getD, hk]
  rfl

theorem parseMatch_parses (he : DecoderOf V e) {symbol : Nat} (h : 257 ≤ symbol) :
    Parses (bitView data) p (parseMatch symbol e) fun _ w =>
      ∃ (l : Ranged literalLengthExtraBits) (x : Ranged distanceExtraBits), symbol = 257 + l.idx ∧
        Decodable V x.idx ∧ w = l.bits ++ (codeBits V x.idx ++ x.bits) := by
  unfold parseMatch matchPair
  refine Parses.map ?_
  refine Parses.lift.bind fun extraBits w0 h0 => Parses.lift.bind fun base w1 h1 => ?_
  obtain ⟨h0, rfl⟩ := h0
  obtain ⟨-, rfl⟩ := h1
  refine (readExtra_parses extraBits).bind fun lengthExtra w2 h2 => he.recognizes.parses.bind fun distSymbol w3 h3 => ?_
  obtain ⟨rfl, hlength⟩ := h2
  obtain ⟨rfl, hdist⟩ := h3
  refine Parses.ite (fun _ => Parses.failHere _) fun _ => ?_
  refine Parses.lift.bind fun distBase w4 h4 => Parses.lift.bind fun distExtra w5 h5 => ?_
  obtain ⟨-, rfl⟩ := h4
  obtain ⟨h5, rfl⟩ := h5
  refine (readExtra_parses distExtra).bind fun distanceExtra w6 h6 => Parses.pure ?_
  obtain ⟨rfl, hdistance⟩ := h6
  obtain ⟨l, hl, hlbits⟩ := exists_rangedBits (index_eq_ok.mp h0) hlength
  obtain ⟨x, hx, hxbits⟩ := exists_rangedBits (index_eq_ok.mp h5) hdistance
  refine ⟨l, x, by omega, by rw [hx]; exact hdist, ?_⟩
  rw [hlbits, hxbits, hx]
  simp

/-- What a turn over tokens has read: one more token, or the end of the block. -/
def TokenTurn (L V : List Nat) (m : Nat) (s : HuffmanBlock) (turn : Turn HuffmanBlock (Bool × CompressedBlock))
    (w : List Bool) : Prop :=
  s.instructions + 1 ≤ m ∧
    turn.Holds (fun y => y.block.literals.length ≤ maxBlockLiterals ∧ ∃ t : Token, t.Decodable L V ∧ y = s.push t ∧
      w = t.bits (codeBits L) (codeBits V))
      fun r => r = (s.hadMatches, s.block) ∧ Decodable L 256 ∧ w = codeBits L 256

theorem huffmanTurn_parses (hd : DecoderOf L d) (he : DecoderOf V e) {m : Nat} {s : HuffmanBlock}
    (hs : s.block.literals.length ≤ maxBlockLiterals) :
    Parses (bitView data) p (huffmanTurn d e m s) (TokenTurn L V m s) := by
  unfold huffmanTurn
  refine Parses.ite (fun _ => Parses.failHere _) fun hm => hd.recognizes.parses.bind fun symbol w h => ?_
  obtain ⟨rfl, hsymbol⟩ := h
  have hm' : s.instructions + 1 ≤ m := Nat.le_of_not_lt hm
  refine Parses.ite (fun h255 => Parses.ite (fun _ => Parses.fail _) fun hcap => Parses.pure ?_) fun h255 => ?_
  · have hbyte : (UInt8.ofNat symbol).toNat = symbol := by
      rw [UInt8.toNat_ofNat']
      omega
    refine ⟨hm', ?_, .literal (UInt8.ofNat symbol), ?_, ?_, ?_⟩
    · simp only [fitsLiteralCap, decide_eq_true_eq, not_not] at hcap
      rw [List.length_append]
      exact hcap
    · change Decodable L (UInt8.ofNat symbol).toNat
      rw [hbyte]
      exact hsymbol
    · simp only [HuffmanBlock.push, Token.literals, Token.isMatch, Bool.or_false]
    · rw [Token.bits, hbyte, List.append_nil]
  refine Parses.ite (fun h256 => Parses.pure ?_) fun h256 => Parses.ite (fun h285 => ?_) fun _ =>
    Parses.ite (fun _ => Parses.failHere _) fun _ => Parses.failHere _
  · rw [h256] at hsymbol ⊢
    rw [List.append_nil]
    exact ⟨hm', rfl, hsymbol, rfl⟩
  · refine (parseMatch_parses he (by omega)).bind fun _ v hv => Parses.pure ?_
    obtain ⟨l, x, rfl, hx, rfl⟩ := hv
    refine ⟨hm', hs, .pair l x, ⟨hsymbol, hx⟩, ?_, ?_⟩
    · simp only [HuffmanBlock.push, Token.literals, Token.isMatch, Bool.or_true, List.append_nil]
    · rw [List.append_nil]
      rfl

theorem parseHuffmanBlock_recognizes (hd : DecoderOf L d) (he : DecoderOf V e) (offset compressedLen : Nat) :
    Recognizes (bitView data) p (parseHuffmanBlock (CompressedBlock.new offset compressedLen) d e) fun r w =>
      ∃ ts, Legible L V ts ∧ r = (ts.any Token.isMatch, ⟨offset, compressedLen, none, ts.flatMap Token.literals⟩) ∧
        w = tokenBits L V ts where
  parses := by
    refine (Parses.loop (I := fun _ s => s.block.literals.length ≤ maxBlockLiterals)
      (Q := fun _ s r w => ∃ ts : List Token, (∀ t ∈ ts, t.Decodable L V) ∧ Decodable L 256 ∧
        s.instructions + ts.length < maxDeflateInstructions ∧
        s.block.literals.length + (ts.flatMap Token.literals).length ≤ maxBlockLiterals ∧
        r = (s.hadMatches || ts.any Token.isMatch,
          { s.block with literals := s.block.literals ++ ts.flatMap Token.literals }) ∧ w = tokenBits L V ts)
      (fun q s hs => (huffmanTurn_parses hd he hs).imp fun turn w h => ?_) _ (Nat.zero_le _)).imp ?_
    · obtain ⟨hm, hturn⟩ := h
      cases turn with
      | done r =>
        obtain ⟨rfl, hend, rfl⟩ := hturn
        exact ⟨[], List.forall_mem_nil _, hend, hm, hs, by simp, rfl⟩
      | next y =>
        obtain ⟨hy, t, ht, rfl, rfl⟩ := hturn
        refine ⟨hy, ?_⟩
        rintro r v ⟨ts, hts, hend, hfew, hcap, rfl, rfl⟩
        refine ⟨t :: ts, List.forall_mem_cons.mpr ⟨ht, hts⟩, hend, ?_, ?_, ?_, ?_⟩
        · simp only [HuffmanBlock.push] at hfew
          rw [List.length_cons]
          omega
        · simp only [HuffmanBlock.push, List.length_append] at hcap
          rw [List.flatMap_cons, List.length_append]
          omega
        · simp only [HuffmanBlock.push, Bool.or_assoc, List.append_assoc, List.any_cons, List.flatMap_cons]
        · rw [tokenBits, tokenBits, List.flatMap_cons, List.append_assoc]
    · rintro r w ⟨ts, hts, hend, hfew, hcap, rfl, rfl⟩
      refine ⟨ts, ⟨hts, hend, ?_, ?_⟩, ?_, rfl⟩
      · rwa [Nat.zero_add] at hfew
      · simpa [CompressedBlock.new] using hcap
      · simp [CompressedBlock.new]
  yields := by
    rintro r w rest ⟨ts, hts, rfl, rfl⟩ hat
    have hread : ∀ t ∈ ts, t.Readable d e (codeBits L) (codeBits V) := by
      intro t ht
      have hdec := hts.decodable t ht
      cases t with
      | literal b => exact hd.decodes hdec
      | pair l x => exact ⟨hd.decodes hdec.1, he.decodes hdec.2⟩
    have hcap := hts.literals_le
    rw [tokenBits, List.append_assoc] at hat
    have hrun := parseHuffmanBlock_tokens (CompressedBlock.new offset compressedLen) (hd.decodes hts.ends) hread hts.few
      (by simp only [CompressedBlock.new, List.length_nil]; omega) hat
    rw [tokenBits, List.length_append, ← Nat.add_assoc]
    exact hrun

/-! ## Code lengths -/

theorem take_padded (n : Nat) (out : List Nat) : (padded n out).take out.length = out := List.take_left

theorem fillLengths_fits {value offset n : Nat} : ∀ (k : Nat) {out : List Nat} {s : List Nat × Nat},
    out.length ≤ n → fillLengths value offset k (padded n out, out.length) = .ok s → out.length + k ≤ n
  | 0, _, _, h, _ => h
  | k + 1, out, s, h, hrun => by
    rw [fillLengths] at hrun
    obtain ⟨u, hroom, hrun⟩ := Run.bind_eq_ok.mp hrun
    rw [failIf_eq_ok, length_padded h] at hroom
    rw [setAt_padded (by omega), Run.ok_bind] at hrun
    have hlen : out.length + 1 = (out ++ [value]).length := by simp
    rw [hlen] at hrun
    have hrest := fillLengths_fits k (by rw [← hlen]; omega) hrun
    omega

theorem fillFrom_parses {n : Nat} {out : List Nat} (hout : out.length ≤ n) (prev k value count : Nat) :
    Parses (bitView data) p (fillFrom ⟨padded n out, out.length, prev, k⟩ value count) fun s w =>
      w = [] ∧ out.length + count ≤ n ∧
        s = ⟨padded n (out ++ List.replicate count value), (out ++ List.replicate count value).length, prev, k⟩ := by
  refine Parses.withReader fun r _ => Parses.map (Parses.lift.imp ?_)
  rintro ⟨lengths, i⟩ w ⟨hrun, rfl⟩
  have hroom := fillLengths_fits count hout hrun
  rw [fillLengths_padded value r.bytePos n count hroom] at hrun
  cases hrun
  exact ⟨rfl, hroom, rfl⟩

/-- What the decoder makes of a symbol: the entry it is, and the state after it. -/
theorem handleCodeLengthSymbol_parses {n : Nat} {out : List Nat} (hout : out.length < n) (prev k symbol : Nat) :
    Parses (bitView data) p (handleCodeLengthSymbol symbol ⟨padded n out, out.length, prev, k⟩) fun s w =>
      ∃ e : LengthEntry, e.symbol = symbol ∧ w = e.extraBits ∧ out.length + e.count ≤ n ∧
        (∀ extra, e = .copy extra → out.length ≠ 0) ∧
        s = ⟨padded n (out ++ e.run prev), (out ++ e.run prev).length, e.keep prev, k⟩ := by
  unfold handleCodeLengthSymbol
  refine Parses.ite (fun h15 => Parses.lift.bind fun lengths w h => Parses.pure ?_) fun _ => Parses.ite
    (fun h16 => Parses.ite (fun _ => Parses.failHere _) fun hne => (readBits_parses 2).bind fun extra w h => ?_) fun _ =>
    Parses.ite (fun h17 => (readBits_parses 3).bind fun extra w h => ?_) fun _ =>
    Parses.ite (fun h18 => (readBits_parses 7).bind fun extra w h => ?_) fun _ => Parses.stop _
  · obtain ⟨hset, rfl⟩ := h
    rw [setAt_padded hout] at hset
    cases hset
    refine ⟨.length ⟨symbol, Nat.lt_succ_of_le h15⟩, rfl, rfl, hout, (fun _ he => LengthEntry.noConfusion he), ?_⟩
    simp [LengthEntry.run, LengthEntry.count, LengthEntry.value, LengthEntry.keep]
  · obtain ⟨rfl, hextra⟩ := h
    refine (fillFrom_parses (Nat.le_of_lt hout) prev k prev (3 + extra)).imp ?_
    rintro s w ⟨rfl, hroom, rfl⟩
    rw [List.append_nil]
    exact ⟨.copy ⟨extra, hextra⟩, h16.symm, rfl, hroom, fun _ _ => hne, rfl⟩
  · obtain ⟨rfl, hextra⟩ := h
    refine (fillFrom_parses (Nat.le_of_lt hout) prev k 0 (3 + extra)).imp ?_
    rintro s w ⟨rfl, hroom, rfl⟩
    rw [List.append_nil]
    exact ⟨.zeros ⟨extra, hextra⟩, h17.symm, rfl, hroom, (fun _ he => LengthEntry.noConfusion he), rfl⟩
  · obtain ⟨rfl, hextra⟩ := h
    refine (fillFrom_parses (Nat.le_of_lt hout) prev k 0 (11 + extra)).imp ?_
    rintro s w ⟨rfl, hroom, rfl⟩
    rw [List.append_nil]
    exact ⟨.longZeros ⟨extra, hextra⟩, h18.symm, rfl, hroom, (fun _ he => LengthEntry.noConfusion he), rfl⟩

theorem codeLengthTurn_parses (hd : DecoderOf L d) {n : Nat} {out : List Nat} (hout : out.length ≤ n) (prev k : Nat) :
    Parses (bitView data) p (codeLengthTurn d ⟨padded n out, out.length, prev, k⟩) fun turn w => turn.Holds
      (fun y => ∃ e : LengthEntry, Decodable L e.symbol ∧ w = e.bits (codeBits L) ∧ out.length + e.count ≤ n ∧
        (∀ extra, e = .copy extra → out.length ≠ 0) ∧
        y = ⟨padded n (out ++ e.run prev), (out ++ e.run prev).length, e.keep prev, k + 1⟩)
      fun r => out.length = n ∧ r = out ∧ w = [] := by
  unfold codeLengthTurn
  simp only [length_padded hout]
  refine Parses.ite (fun hlt => Parses.ite (fun _ => Parses.failHere _) fun _ => ?_) fun hge => Parses.pure ?_
  · refine hd.recognizes.parses.bind fun symbol w h => ?_
    obtain ⟨rfl, hsymbol⟩ := h
    refine Parses.map ((handleCodeLengthSymbol_parses hlt prev (k + 1) symbol).imp ?_)
    rintro s w ⟨e, rfl, rfl, hroom, hcopy, rfl⟩
    exact ⟨e, hsymbol, rfl, hroom, hcopy, rfl⟩
  · have hend : out.length = n := by omega
    refine ⟨hend, ?_, rfl⟩
    rw [padded, hend, Nat.sub_self, List.replicate_zero, List.append_nil]

theorem decodeCodeLengths_recognizes (hd : DecoderOf L d) {n : Nat} (hn : n ≤ maxDeflateInstructions) :
    Recognizes (bitView data) p (decodeCodeLengths d (List.replicate n 0)) fun r w =>
      ∃ es : List LengthEntry, (∀ e ∈ es, Decodable L e.symbol) ∧ (es.map LengthEntry.count).sum = n ∧
        (∀ extra es', es ≠ .copy extra :: es') ∧ r = decodedEntries es ∧
        w = es.flatMap (LengthEntry.bits (codeBits L)) where
  parses := by
    have hstart : (⟨List.replicate n 0, 0, 0, 0⟩ : CodeLengths) = ⟨padded n [], ([] : List Nat).length, 0, 0⟩ := rfl
    unfold decodeCodeLengths
    rw [hstart]
    refine (Parses.loop
      (I := fun _ s => ∃ out prev k, out.length ≤ n ∧ s = (⟨padded n out, out.length, prev, k⟩ : CodeLengths))
      (Q := fun _ s r w => ∃ es : List LengthEntry, (∀ e ∈ es, Decodable L e.symbol) ∧
        s.i + (es.map LengthEntry.count).sum = n ∧ (∀ extra es', es = .copy extra :: es' → s.i ≠ 0) ∧
        r = (es.foldl (fun s e => (s.1 ++ e.run s.2, e.keep s.2)) (s.lengths.take s.i, s.prev)).1 ∧
        w = es.flatMap (LengthEntry.bits (codeBits L))) ?_ _ ⟨[], 0, 0, Nat.zero_le n, rfl⟩).imp ?_
    · rintro q s ⟨out, prev, k, hout, rfl⟩
      refine (codeLengthTurn_parses hd hout prev k).imp fun turn w h => ?_
      cases turn with
      | done r =>
        obtain ⟨hend, rfl, rfl⟩ := h
        exact ⟨[], List.forall_mem_nil _, hend, (fun _ _ he => absurd he.symm (List.cons_ne_nil _ _)), (take_padded n r).symm, rfl⟩
      | next y =>
        obtain ⟨e, he, rfl, hroom, hcopy, rfl⟩ := h
        have hlen : (out ++ e.run prev).length = out.length + e.count := by
          rw [List.length_append, LengthEntry.length_run]
        refine ⟨⟨_, _, _, by rw [hlen]; exact hroom, rfl⟩, ?_⟩
        rintro r v ⟨es, hes, hsum, -, rfl, rfl⟩
        simp only [hlen] at hsum
        refine ⟨e :: es, List.forall_mem_cons.mpr ⟨he, hes⟩, ?_, ?_, ?_, ?_⟩
        · rw [List.map_cons, List.sum_cons, ← Nat.add_assoc]
          exact hsum
        · intro extra es' hcons
          exact hcopy extra (List.cons.inj hcons).1
        · simp only [take_padded, List.foldl_cons]
        · rw [List.flatMap_cons]
    · rintro r w ⟨es, hes, hsum, hfirst, rfl, rfl⟩
      rw [List.length_nil, Nat.zero_add] at hsum
      exact ⟨es, hes, hsum, fun extra es' he => hfirst extra es' he rfl, rfl, rfl⟩
  yields := by
    rintro r w rest ⟨es, hes, hsum, hfirst, rfl, rfl⟩ hat
    exact decodeCodeLengths_yields (fun e he => hd.decodes (hes e he)) hn hsum hfirst hat

/-! ## Trees -/

theorem readCodeLengthLength_parses (L : List Nat) (o : Nat) :
    Parses (bitView data) p (readCodeLengthLength L o) fun r w => ∃ l, l < 2 ^ 3 ∧ r = L.set o l ∧ w = bitsLe 3 l := by
  refine (readBitsU8_parses 3).bind fun l w h => Parses.lift.imp ?_
  rintro r v ⟨hset, rfl⟩
  obtain ⟨rfl, hl⟩ := h
  unfold setAt at hset
  by_cases ho : o < L.length
  · rw [if_pos ho] at hset
    cases hset
    exact ⟨l, hl, rfl, List.append_nil _⟩
  · rw [if_neg ho] at hset
    cases hset

theorem readCodeLengthLengths_parses : ∀ (os : List Nat) {L : List Nat} {p : Nat},
    Parses (bitView data) p (os.foldlM readCodeLengthLength L) fun r w => ∃ given : List Nat,
      given.length = os.length ∧ (∀ l ∈ given, l < 2 ^ 3) ∧ r = (os.zip given).foldl (fun L x => L.set x.1 x.2) L ∧
        w = given.flatMap (bitsLe 3)
  | [], _, _ => Parses.pure ⟨[], rfl, List.forall_mem_nil _, rfl, rfl⟩
  | o :: os, L, p => by
    rw [List.foldlM_cons]
    refine (readCodeLengthLength_parses L o).bind fun L' w h => (readCodeLengthLengths_parses os).imp ?_
    obtain ⟨l, hl, rfl, rfl⟩ := h
    rintro r v ⟨given, hlen, hgiven, rfl, rfl⟩
    refine ⟨l :: given, by rw [List.length_cons, List.length_cons, hlen], List.forall_mem_cons.mpr ⟨hl, hgiven⟩, rfl, ?_⟩
    rw [List.flatMap_cons]

theorem zip_take_hclenOrder {given : List Nat} (h : given.length ≤ 19) :
    (hclenOrder.take given.length).zip given = hclenOrder.zip given := by
  have hmin : min hclenOrder.length given.length = given.length := Nat.min_eq_right h
  have hshort := @List.zip_eq_zip_take_min _ _ hclenOrder given
  rw [hmin, List.take_length] at hshort
  exact hshort.symm

theorem givenLengths_recognizes {k : Nat} (hk : k ≤ 19) :
    Recognizes (bitView data) p ((hclenOrder.take k).foldlM readCodeLengthLength (List.replicate 19 0)) fun r w =>
      ∃ given : List Nat, given.length = k ∧ (∀ l ∈ given, l < 2 ^ 3) ∧ r = givenLengths given ∧
        w = given.flatMap (bitsLe 3) where
  parses := by
    have hlen : (hclenOrder.take k).length = k := by
      rw [List.length_take]
      exact Nat.min_eq_left hk
    refine (readCodeLengthLengths_parses _).imp ?_
    rintro r w ⟨given, hgiven, hlt, rfl, rfl⟩
    rw [hlen] at hgiven
    refine ⟨given, hgiven, hlt, ?_, rfl⟩
    rw [← hgiven, zip_take_hclenOrder (by rw [hgiven]; exact hk)]
    rfl
  yields := by
    rintro r w rest ⟨given, rfl, hlt, rfl, rfl⟩ hat
    have horder : ∀ o ∈ hclenOrder, o < 19 := by decide
    have hlen : (hclenOrder.take given.length).length = given.length := by
      rw [List.length_take]
      exact Nat.min_eq_left hk
    have hread := readCodeLengthLengths_yields (L := List.replicate 19 0) hlen
      (fun o ho => by rw [List.length_replicate]; exact horder o (List.mem_of_mem_take ho)) hlt hat
    rw [zip_take_hclenOrder hk] at hread
    exact hread

theorem BlockTrees.length_literalLengths (t : BlockTrees) : t.literalLengths.length ≤ 286 := by
  have := t.hlit_le
  rw [literalLengths, List.length_take]
  omega

theorem BlockTrees.length_distanceLengths (t : BlockTrees) : t.distanceLengths.length ≤ 30 := by
  have hle := t.hdist_le
  have htotal := length_decodedEntries t.entries
  rw [t.fills] at htotal
  rw [distanceLengths, List.length_drop]
  omega

/-- The two decoders that are built for the trees of a block. -/
def BlockTrees.Decoders (t : BlockTrees) (r : HuffmanDecoder × HuffmanDecoder) : Prop :=
  HuffmanDecoder.fromLengths t.literalLengths "literal/length" = .ok r.1 ∧
    HuffmanDecoder.fromLengths t.distanceLengths "distance" = .ok r.2

theorem BlockTrees.Decoders.decoderOf {t : BlockTrees} {r : HuffmanDecoder × HuffmanDecoder} (h : t.Decoders r) :
    DecoderOf t.literalLengths r.1 ∧ DecoderOf t.distanceLengths r.2 := by
  have hlit := t.length_literalLengths
  have hdist := t.length_distanceLengths
  exact ⟨(fromLengths_builds (by omega) h.1).2, (fromLengths_builds (by omega) h.2).2⟩

theorem parseDynamicTrees_recognizes : Recognizes (bitView data) p parseDynamicTrees fun r w =>
    ∃ t : BlockTrees, t.Decoders r ∧ w = t.bits where
  parses := by
    unfold parseDynamicTrees readBitsUsize
    refine (readBits_parses 5).bind fun hlit w0 h0 => (readBits_parses 5).bind fun hdist w1 h1 =>
      (readBits_parses 4).bind fun hclen w2 h2 => Parses.ite (fun _ => Parses.failHere _) fun hsizes => ?_
    obtain ⟨rfl, hlit_lt⟩ := h0
    obtain ⟨rfl, hdist_lt⟩ := h1
    obtain ⟨rfl, hclen_lt⟩ := h2
    refine (givenLengths_recognizes (k := hclen + 4) (by omega)).parses.bind fun G w3 h3 => ?_
    obtain ⟨given, hgiven, hgiven_lt, rfl, rfl⟩ := h3
    refine Parses.lift.bind fun c w4 h4 => ?_
    obtain ⟨hc, rfl⟩ := h4
    obtain ⟨hbuilds, hdecoder⟩ := fromLengths_builds (by rw [length_givenLengths]; decide) hc
    refine (decodeCodeLengths_recognizes hdecoder (n := hlit + 257 + (hdist + 1))
      (by simp only [maxDeflateInstructions]; omega)).parses.bind fun lengths w5 h5 => ?_
    obtain ⟨es, hes, hfills, hfirst, rfl, rfl⟩ := h5
    have htotal := length_decodedEntries es
    rw [hfills] at htotal
    refine Parses.lift.bind fun d w6 h6 => Parses.lift.bind fun e w7 h7 => Parses.pure ?_
    obtain ⟨hd, rfl⟩ := h6
    obtain ⟨he, rfl⟩ := h7
    have hliteral := fromLengths_builds (by rw [List.length_take]; omega) hd
    have hdistance := fromLengths_builds (by rw [List.length_drop]; omega) he
    refine ⟨⟨hlit + 257, hdist + 1, given, es, by omega, by omega, by omega, by omega, by omega, by omega, hgiven_lt,
      hbuilds, hes, hfills, hfirst, hliteral.1, hdistance.1⟩, ⟨hd, he⟩, ?_⟩
    simp only [BlockTrees.bits, BlockTrees.entryBits, Nat.add_sub_cancel, hgiven, List.nil_append, List.append_nil]
  yields := by
    rintro ⟨d, e⟩ w rest ⟨t, ⟨hd, he⟩, rfl⟩ hat
    have hlit := t.hlit_le
    have hlit' := t.hlit_ge
    have hdist := t.hdist_le
    have hdist' := t.hdist_ge
    have hgiven := t.given_le
    have hgiven' := t.given_ge
    obtain ⟨c, hc, hdecoder⟩ := t.builds.fromLengths (by rw [length_givenLengths]; decide) "code length"
    have hmax : t.hlit + t.hdist ≤ maxDeflateInstructions := by simp only [maxDeflateInstructions]; omega
    simp only [BlockTrees.bits, List.append_assoc] at hat
    have hpos : p + t.bits.length = p + (bitsLe 5 (t.hlit - 257)).length + (bitsLe 5 (t.hdist - 1)).length +
        (bitsLe 4 (t.given.length - 4)).length + (t.given.flatMap (bitsLe 3)).length + t.entryBits.length := by
      simp only [BlockTrees.bits, List.length_append, Nat.add_assoc]
    rw [hpos]
    unfold parseDynamicTrees readBitsUsize
    refine ((readBits_recognizes (by decide)).yields ⟨rfl, by omega⟩ hat).bind ?_
    refine ((readBits_recognizes (by decide)).yields ⟨rfl, by omega⟩ hat.skip).bind ?_
    refine ((readBits_recognizes (by decide)).yields ⟨rfl, by omega⟩ hat.skip.skip).bind ?_
    rw [Nat.sub_add_cancel hlit', Nat.sub_add_cancel hdist', Nat.sub_add_cancel hgiven', if_neg (by omega)]
    refine ((givenLengths_recognizes hgiven).yields ⟨t.given, rfl, t.given_lt, rfl, rfl⟩ hat.skip.skip.skip).bind ?_
    refine (yields_lift hc).bind ?_
    refine ((decodeCodeLengths_recognizes hdecoder hmax).yields ⟨t.entries, t.decodable, t.fills, t.first, rfl, rfl⟩
      hat.skip.skip.skip.skip).bind ?_
    exact (yields_lift hd).bind ((yields_lift he).bind Yields.pure)

/-! ## Blocks -/

theorem parseStoredBlock_recognizes (offset compressedLen : Nat) :
    Recognizes (bitView data) p (parseStoredBlock (CompressedBlock.new offset compressedLen)) fun b w =>
      ∃ pad ys, ys.length < 2 ^ 16 ∧ b = ⟨offset, compressedLen, none, ys⟩ ∧ w = bitsLe (padTo8 p) pad ++
        (bitsLe 16 ys.length ++ (bitsLe 16 (2 ^ 16 - 1 - ys.length) ++ bytesBits ys)) where
  parses := by
    unfold parseStoredBlock
    refine alignToByte_parses.bind fun _ w0 h0 => readU16Le_parses.bind fun len w1 h1 =>
      readU16Le_parses.bind fun nlen w2 h2 => ?_
    obtain ⟨-, rfl, hlen⟩ := h1
    obtain ⟨-, rfl, hnlen⟩ := h2
    refine Parses.ite (fun _ => Parses.failHere _) fun hcheck => Parses.ite (fun _ => Parses.fail _) fun _ => ?_
    refine (readBytes_parses len).bind fun ys w3 h3 => Parses.pure ?_
    obtain ⟨-, rfl, rfl⟩ := h3
    rw [show (0xFFFF : Nat) = 2 ^ 16 - 1 from rfl, Nat.and_two_pow_sub_one_eq_mod, not_not] at hcheck
    have hcomplement : nlen = 2 ^ 16 - 1 - ys.length := by omega
    refine ⟨ofBits w0, ys, hlen, rfl, ?_⟩
    rw [← h0, bitsLe_ofBits, hcomplement, List.append_nil]
  yields := by
    rintro b w rest ⟨pad, ys, hlen, rfl, rfl⟩ hat
    simp only [List.append_assoc] at hat
    have hcap : (CompressedBlock.new offset compressedLen).literals.length + ys.length ≤ maxBlockLiterals := by
      simp only [CompressedBlock.new, List.length_nil, maxBlockLiterals]
      omega
    have hrun := parseStoredBlock_yields (CompressedBlock.new offset compressedLen) hlen hcap hat
    simp only [List.length_append, length_bitsLe, length_bytesBits, ← Nat.add_assoc]
    exact hrun

/-- A block that is the literals and matches of its tokens. -/
theorem codedTokens_recognizes (hL : Builds L) (hL_len : 15 * L.length < 2 ^ 15) (hV : Builds V)
    (hV_len : 15 * V.length < 2 ^ 15) (literalKind distanceKind : String) (offset compressedLen : Nat) :
    Recognizes (bitView data) p (do
      let literalDecoder ← lift (HuffmanDecoder.fromLengths L literalKind)
      let distanceDecoder ← lift (HuffmanDecoder.fromLengths V distanceKind)
      parseHuffmanBlock (CompressedBlock.new offset compressedLen) literalDecoder distanceDecoder) fun r w =>
      ∃ ts, Legible L V ts ∧ r = (ts.any Token.isMatch, ⟨offset, compressedLen, none, ts.flatMap Token.literals⟩) ∧
        w = tokenBits L V ts := by
  obtain ⟨d, hd, hdecoder⟩ := hL.fromLengths hL_len literalKind
  obtain ⟨e, he, hdecoder'⟩ := hV.fromLengths hV_len distanceKind
  have hrun : (do
      let literalDecoder ← lift (HuffmanDecoder.fromLengths L literalKind)
      let distanceDecoder ← lift (HuffmanDecoder.fromLengths V distanceKind)
      parseHuffmanBlock (CompressedBlock.new offset compressedLen) literalDecoder distanceDecoder) =
      parseHuffmanBlock (CompressedBlock.new offset compressedLen) d e := by
    rw [hd, he]
    rfl
  rw [hrun]
  exact parseHuffmanBlock_recognizes hdecoder hdecoder' offset compressedLen

theorem dynamicBlock_recognizes (offset compressedLen : Nat) :
    Recognizes (bitView data) p (do
      let (literalDecoder, distanceDecoder) ← parseDynamicTrees
      parseHuffmanBlock (CompressedBlock.new offset compressedLen) literalDecoder distanceDecoder) fun r w =>
      ∃ (t : BlockTrees) (ts : List Token), Legible t.literalLengths t.distanceLengths ts ∧
        r = (ts.any Token.isMatch, ⟨offset, compressedLen, none, ts.flatMap Token.literals⟩) ∧
        w = t.bits ++ tokenBits t.literalLengths t.distanceLengths ts where
  parses := by
    refine parseDynamicTrees_recognizes.parses.bind fun r w h => ?_
    obtain ⟨t, ht, rfl⟩ := h
    obtain ⟨hd, he⟩ := ht.decoderOf
    refine (parseHuffmanBlock_recognizes hd he offset compressedLen).parses.imp ?_
    rintro b v ⟨ts, hts, rfl, rfl⟩
    exact ⟨t, ts, hts, rfl, rfl⟩
  yields := by
    rintro b u rest ⟨t, ts, hts, rfl, rfl⟩ hat
    have hlit := t.length_literalLengths
    have hdist := t.length_distanceLengths
    obtain ⟨d, hd, hdecoder⟩ := t.literal_builds.fromLengths (L := t.literalLengths) (by omega) "literal/length"
    obtain ⟨e, he, hdecoder'⟩ := t.distance_builds.fromLengths (L := t.distanceLengths) (by omega) "distance"
    rw [List.append_assoc] at hat
    rw [List.length_append, ← Nat.add_assoc]
    refine (parseDynamicTrees_recognizes.yields (a := (d, e)) ⟨t, ⟨hd, he⟩, rfl⟩ hat).bind ?_
    exact (parseHuffmanBlock_recognizes hdecoder hdecoder' offset compressedLen).yields ⟨ts, hts, rfl, rfl⟩ hat.skip

theorem parseSingleBlock_recognizes (blockType offset : Nat) :
    Recognizes (bitView data) p (parseSingleBlock blockType (CompressedBlock.new offset 0)) fun r w =>
      ∃ b : CodedBlock, b.blockType = blockType ∧ r = (b.hasMatch, ⟨offset, 0, none, b.literals⟩) ∧
        w = b.body p := by
  match blockType with
  | 0 =>
    refine ((parseStoredBlock_recognizes offset 0).bind fun b w _ => Recognizes.pure (false, b)).congr fun r u => ?_
    constructor
    · rintro ⟨b, w, v, ⟨pad, ys, hlen, rfl, rfl⟩, ⟨rfl, rfl⟩, rfl⟩
      exact ⟨.stored pad ys hlen, rfl, rfl, List.append_nil _⟩
    · rintro ⟨b, htype, rfl, rfl⟩
      cases b with
      | stored pad ys hlen => exact ⟨_, _, [], ⟨pad, ys, hlen, rfl, rfl⟩, ⟨rfl, rfl⟩, (List.append_nil _).symm⟩
      | fixed ts _ => cases htype
      | dynamic t ts _ => cases htype
  | 1 =>
    have hlit : 15 * fixedLitlenCodeLengths.length < 2 ^ 15 := by rw [length_fixedLitlenCodeLengths]; decide
    have hdist : 15 * fixedDistCodeLengths.length < 2 ^ 15 := by rw [length_fixedDistCodeLengths]; decide
    refine (codedTokens_recognizes (builds_of_kraft kraft_fixedLitlen) hlit (builds_of_kraft kraft_fixedDist) hdist
      "fixed" "fixed distance" offset 0).congr fun r u => ?_
    constructor
    · rintro ⟨ts, hts, rfl, rfl⟩
      exact ⟨.fixed ts hts, rfl, rfl, rfl⟩
    · rintro ⟨b, htype, rfl, rfl⟩
      cases b with
      | stored pad ys _ => cases htype
      | fixed ts hts => exact ⟨ts, hts, rfl, rfl⟩
      | dynamic t ts _ => cases htype
  | 2 =>
    refine (dynamicBlock_recognizes offset 0).congr fun r u => ?_
    constructor
    · rintro ⟨t, ts, hts, rfl, rfl⟩
      exact ⟨.dynamic t ts hts, rfl, rfl, rfl⟩
    · rintro ⟨b, htype, rfl, rfl⟩
      cases b with
      | stored pad ys _ => cases htype
      | fixed ts _ => cases htype
      | dynamic t ts hts => exact ⟨t, ts, hts, rfl, rfl⟩
  | 3 =>
    refine (Recognizes.withReader fun r _ => Recognizes.fail _).congr fun r u => ⟨False.elim, ?_⟩
    rintro ⟨b, htype, -⟩
    cases b <;> cases htype
  | n + 4 =>
    constructor
    · exact Parses.stop _
    · rintro r u rest ⟨b, htype, -⟩
      cases b <;> cases htype

end

end Ziftsieve.Gzip
