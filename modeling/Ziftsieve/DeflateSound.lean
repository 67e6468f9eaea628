import Ziftsieve.GzipFormat

/-!
# Reading a DEFLATE stream back

One lemma for each kind of step: a token, a block, a turn of the block loop. A
block yields its literals and whether it has a match; a stream yields its
blocks where they stand, at any bit the stream starts on.
-/

namespace Ziftsieve.Gzip

/-! ## Tokens -/

def Token.Readable (d e : HuffmanDecoder) (lit dist : Nat → List Bool) : Token → Prop
  | literal b => Decodes d lit b.toNat
  | pair length distance => Decodes d lit (257 + length.idx) ∧ Decodes e dist distance.idx

section
variable {data : Bytes} {p : Nat} {rest : List Bool} {d e : HuffmanDecoder} {lit dist : Nat → List Bool}

theorem index_ranged {extraBits : List Nat} (x : Ranged extraBits) :
    (index extraBits x.idx : Run ZiftError Nat) = .ok (extraBits.getD x.idx 0) := by
  unfold index
  rw [List.getElem?_eq_getElem x.idx_lt, List.getD_eq_getElem?_getD, List.getElem?_eq_getElem x.idx_lt]; rfl

theorem index_base {extraBits : List Nat} (bases : List Nat) (x : Ranged extraBits)
    (h : bases.length = extraBits.length) :
    (index bases x.idx : Run ZiftError Nat) = .ok (bases.getD x.idx 0) :=
  index_ranged (⟨x.idx, 0, by rw [h]; exact x.idx_lt, Nat.two_pow_pos _⟩ : Ranged bases)

theorem Ranged.length_bits {extraBits : List Nat} (x : Ranged extraBits) : x.bits.length = extraBits.getD x.idx 0 :=
  length_bitsLe _ _

theorem readExtra_yields {extraBits : List Nat} (hle : ∀ e ∈ extraBits, e ≤ 13) (x : Ranged extraBits)
    (h : At (bytesBits data) p (x.bits ++ rest)) :
    Yields (Synced data p) (if extraBits.getD x.idx 0 > 0 then readBits (extraBits.getD x.idx 0) else pure 0) x.extra
      (Synced data (p + x.bits.length)) := by
  have hlt := x.idx_lt
  have hget : extraBits.getD x.idx 0 = extraBits[x.idx] := by
    rw [List.getD_eq_getElem?_getD, List.getElem?_eq_getElem hlt]; rfl
  have hk := hle _ (List.getElem_mem hlt)
  have hv := x.extra_lt
  have hlen := x.length_bits
  rw [← hget] at hk hv
  by_cases h0 : extraBits.getD x.idx 0 > 0
  · have hr := readBits_yields (by omega) h
    rw [Ranged.bits, length_bitsLe, ofBits_bitsLe_of_lt hv] at hr
    rw [if_pos h0, hlen]
    exact hr
  · have hk0 : extraBits.getD x.idx 0 = 0 := by omega
    rw [hk0, Nat.pow_zero] at hv
    rw [if_neg h0, hlen, hk0, show x.extra = 0 by omega]
    exact Yields.pure

theorem Ranged.length_bits_le {extraBits : List Nat} {k : Nat} (hle : ∀ e ∈ extraBits, e ≤ k) (x : Ranged extraBits) :
    x.bits.length ≤ k := by
  rw [x.length_bits, List.getD_eq_getElem?_getD, List.getElem?_eq_getElem x.idx_lt]
  exact hle _ (List.getElem_mem _)

theorem literalLengthExtraBits_le : ∀ e ∈ literalLengthExtraBits, e ≤ 13 := by decide

theorem distanceExtraBits_le : ∀ e ∈ distanceExtraBits, e ≤ 13 := by decide

theorem matchPair_yields {l : Ranged literalLengthExtraBits} {x : Ranged distanceExtraBits} (he : Decodes e dist x.idx)
    (h : At (bytesBits data) p (l.bits ++ (dist x.idx ++ (x.bits ++ rest)))) :
    Yields (Synced data p) (matchPair (257 + l.idx) e) (l.value literalLengthBases, x.value distanceBases)
      (Synced data (p + l.bits.length + (dist x.idx).length + x.bits.length)) := by
  have hx30 : x.idx < 30 := x.idx_lt
  unfold matchPair
  rw [Nat.add_sub_cancel_left]
  refine (yields_lift (index_ranged l)).bind ?_
  refine (yields_lift (index_base literalLengthBases l rfl)).bind ?_
  refine (readExtra_yields literalLengthExtraBits_le l h).bind ((he h.skip).bind ?_)
  rw [if_neg (by omega)]
  refine (yields_lift (index_base distanceBases x rfl)).bind ?_
  refine (yields_lift (index_ranged x)).bind ?_
  exact (readExtra_yields distanceExtraBits_le x h.skip.skip).bind Yields.pure

def HuffmanBlock.push (s : HuffmanBlock) (t : Token) : HuffmanBlock :=
  ⟨{ s.block with literals := s.block.literals ++ t.literals }, s.hadMatches || t.isMatch, s.instructions + 1⟩

theorem huffmanTurn_token {m : Nat} {s : HuffmanBlock} {t : Token} (ht : t.Readable d e lit dist)
    (hi : s.instructions + 1 ≤ m) (hcap : s.block.literals.length + t.literals.length ≤ maxBlockLiterals)
    (h : At (bytesBits data) p (t.bits lit dist ++ rest)) :
    Yields (Synced data p) (huffmanTurn d e m s) (.next (s.push t)) (Synced data (p + (t.bits lit dist).length)) := by
  unfold huffmanTurn
  simp only
  rw [if_neg (by omega)]
  cases t with
  | literal b =>
    have hb : b.toNat < 256 := b.toNat_lt
    apply Yields.bind (ht h)
    simp only [Token.literals, List.length_singleton] at hcap
    rw [if_pos (by omega), if_neg (by simp only [fitsLiteralCap, decide_eq_true_eq]; omega), UInt8.ofNat_toNat]
    simp only [HuffmanBlock.push, Token.literals, Token.isMatch, Bool.or_false]
    exact Yields.pure
  | pair l x =>
    have hl : l.idx < 29 := l.idx_lt
    obtain ⟨hd, he⟩ := ht
    simp only [Token.bits, List.append_assoc] at h
    apply Yields.bind (hd h)
    rw [if_neg (by omega), if_neg (by omega), if_pos (by omega)]
    have hpos : p + (Token.bits lit dist (.pair l x)).length =
        p + (lit (257 + l.idx)).length + l.bits.length + (dist x.idx).length + x.bits.length := by
      simp only [Token.bits, List.length_append, Nat.add_assoc]
    rw [hpos]
    refine Yields.bind ((matchPair_yields he h.skip).bind Yields.pure) ?_
    simp only [HuffmanBlock.push, Token.literals, Token.isMatch, Bool.or_true, List.append_nil]
    exact Yields.pure

theorem huffmanTurn_end {m : Nat} {s : HuffmanBlock} (hd : Decodes d lit 256) (hi : s.instructions + 1 ≤ m)
    (h : At (bytesBits data) p (lit 256 ++ rest)) :
    Yields (Synced data p) (huffmanTurn d e m s) (.done (s.hadMatches, s.block))
      (Synced data (p + (lit 256).length)) := by
  unfold huffmanTurn
  simp only
  rw [if_neg (by omega)]
  exact Yields.bind (hd h) Yields.pure

theorem huffmanLoop_tokens {m : Nat} (hend : Decodes d lit 256) : ∀ {ts : List Token} {s : HuffmanBlock} {n p : Nat},
    (∀ t ∈ ts, t.Readable d e lit dist) → s.instructions + ts.length + 1 ≤ m → ts.length ≤ n →
    s.block.literals.length + (ts.flatMap Token.literals).length ≤ maxBlockLiterals →
    At (bytesBits data) p (ts.flatMap (Token.bits lit dist) ++ (lit 256 ++ rest)) →
    Yields (Synced data p) (loop (huffmanTurn d e m) (n + 1) s)
      (s.hadMatches || ts.any Token.isMatch, { s.block with literals := s.block.literals ++ ts.flatMap Token.literals })
      (Synced data (p + (ts.flatMap (Token.bits lit dist)).length + (lit 256).length))
  | [], s, n, p, _, hi, _, _, h => by
    simp only [List.any_nil, Bool.or_false, List.flatMap_nil, List.append_nil]
    exact (huffmanTurn_end hend (by omega) h).loop_done
  | t :: ts, s, n, p, ht, hi, hn, hcap, h => by
    rw [List.length_cons] at hi hn
    obtain ⟨n, rfl⟩ : ∃ m, n = m + 1 := ⟨n - 1, by omega⟩
    rw [List.flatMap_cons, List.length_append] at hcap
    rw [List.flatMap_cons, List.append_assoc] at h
    refine (huffmanTurn_token (ht t List.mem_cons_self) (by omega) (by omega) h).loop_next ?_
    have hrun := huffmanLoop_tokens hend (m := m) (s := s.push t) (n := n)
      (fun u hu => ht u (List.mem_cons_of_mem _ hu))
      (by simp only [HuffmanBlock.push]; omega) (by omega)
      (by simp only [HuffmanBlock.push, List.length_append]; omega) h.skip
    simp only [HuffmanBlock.push, Bool.or_assoc, List.append_assoc] at hrun
    rw [List.any_cons, List.flatMap_cons, List.flatMap_cons, List.length_append, ← Nat.add_assoc p]
    exact hrun

theorem parseHuffmanBlock_tokens (block : CompressedBlock) {ts : List Token} (hend : Decodes d lit 256)
    (ht : ∀ t ∈ ts, t.Readable d e lit dist) (hn : ts.length < maxDeflateInstructions)
    (hcap : block.literals.length + (ts.flatMap Token.literals).length ≤ maxBlockLiterals)
    (h : At (bytesBits data) p (ts.flatMap (Token.bits lit dist) ++ (lit 256 ++ rest))) :
    Yields (Synced data p) (parseHuffmanBlock block d e)
      (ts.any Token.isMatch, { block with literals := block.literals ++ ts.flatMap Token.literals })
      (Synced data (p + (ts.flatMap (Token.bits lit dist)).length + (lit 256).length)) :=
  huffmanLoop_tokens hend (s := ⟨block, false, 0⟩) (n := maxDeflateInstructions) ht (by simp only; omega)
    (by omega) hcap h

/-- The symbols of a token are among those the two length vectors give a code. -/
def Token.Coded (literalLengths distanceLengths : List Nat) : Token → Prop
  | literal b => 0 < literalLengths.getD b.toNat 0
  | pair length distance => 0 < literalLengths.getD (257 + length.idx) 0 ∧ 0 < distanceLengths.getD distance.idx 0

/-- **Decoding a block undoes encoding it**, in the canonical codes of any two length
vectors and from any bit on. -/
theorem parseHuffmanBlock_encoded {L V : List Nat} (hL : Kraft 15 L) (hL_le : L.length ≤ 286)
    (hend : 0 < L.getD 256 0) (hV : Kraft 15 V) (hV_le : V.length ≤ 30) (literalKind distanceKind : String)
    {ts : List Token} (hts : ∀ t ∈ ts, t.Coded L V) (hfew : ts.length < 10 ^ 7)
    (hcap : (ts.flatMap Token.literals).length ≤ 16 * 1024 * 1024)
    (hat : At (bytesBits data) p (ts.flatMap (Token.bits (codeBits L) (codeBits V)) ++ (codeBits L 256 ++ rest)))
    {r : BitReader} (hr : Synced data p r) (offset compressedLen : Nat) :
    ∃ d e, HuffmanDecoder.fromLengths L literalKind = .ok d ∧ HuffmanDecoder.fromLengths V distanceKind = .ok e ∧
      ∃ r', parseHuffmanBlock (CompressedBlock.new offset compressedLen) d e r =
          (.ok (ts.any Token.isMatch, ⟨offset, compressedLen, none, ts.flatMap Token.literals⟩), r') ∧
        Synced data (p + (ts.flatMap (Token.bits (codeBits L) (codeBits V))).length + (codeBits L 256).length) r' := by
  obtain ⟨d, hd, hlit⟩ := fromLengths_coded hL (by omega) literalKind
  obtain ⟨e, he, hdist⟩ := fromLengths_coded hV (by omega) distanceKind
  refine ⟨d, e, hd, he, ?_⟩
  have hread : ∀ t ∈ ts, t.Readable d e (codeBits L) (codeBits V) := by
    intro t ht
    have hcoded := hts t ht
    cases t with
    | literal b => exact hlit _ (Nat.ne_of_gt hcoded)
    | pair l x => exact ⟨hlit _ (Nat.ne_of_gt hcoded.1), hdist _ (Nat.ne_of_gt hcoded.2)⟩
  exact parseHuffmanBlock_tokens (CompressedBlock.new offset compressedLen) (hlit 256 (Nat.ne_of_gt hend)) hread hfew
    (by simp only [CompressedBlock.new, List.length_nil, maxBlockLiterals]; omega) hat r hr

/-- Lengths for the byte `a`, the end of the block and a match of length 3. -/
def oneMatchLengths : List Nat := List.replicate 97 0 ++ [1] ++ List.replicate 158 0 ++ [2, 2]

theorem literalLengthExtraBits_pos : 0 < literalLengthExtraBits.length := by decide

theorem literalLengthExtraBits_head : 0 < 2 ^ literalLengthExtraBits.get ⟨0, literalLengthExtraBits_pos⟩ := by decide

def lengthThree : Ranged literalLengthExtraBits := ⟨0, 0, literalLengthExtraBits_pos, literalLengthExtraBits_head⟩

theorem distanceExtraBits_pos : 0 < distanceExtraBits.length := by decide

theorem distanceExtraBits_head : 0 < 2 ^ distanceExtraBits.get ⟨0, distanceExtraBits_pos⟩ := by decide

def distanceOne : Ranged distanceExtraBits := ⟨0, 0, distanceExtraBits_pos, distanceExtraBits_head⟩

def oneMatch : List Token := [.literal 97, .pair lengthThree distanceOne]

theorem parseHuffmanBlock_encoded_match : ∃ d e,
    HuffmanDecoder.fromLengths oneMatchLengths "literal" = .ok d ∧
    HuffmanDecoder.fromLengths [1] "distance" = .ok e ∧
      ∃ r', parseHuffmanBlock (CompressedBlock.new 0 0) d e (BitReader.new [22] 0) =
        (.ok (true, ⟨0, 0, none, [97]⟩), r') ∧ Synced [22] 6 r' := by
  have hend : codeBits oneMatchLengths 256 = [true, false] := by decide +kernel
  have hbits : oneMatch.flatMap (Token.bits (codeBits oneMatchLengths) (codeBits [1])) =
      [false, true, true, false] := by decide +kernel
  have hcoded : ∀ t ∈ oneMatch, t.Coded oneMatchLengths [1] := by
    refine List.forall_mem_cons.mpr ⟨?_, List.forall_mem_singleton.mpr ⟨?_, Nat.zero_lt_one⟩⟩
    · show 0 < oneMatchLengths.getD 97 0
      decide +kernel
    · show 0 < oneMatchLengths.getD 257 0
      decide +kernel
  have hat : At (bytesBits [22]) 0 (oneMatch.flatMap (Token.bits (codeBits oneMatchLengths) (codeBits [1])) ++
      (codeBits oneMatchLengths 256 ++ [false, false])) := by
    rw [hbits, hend]
    exact At.start _
  have hblock := parseHuffmanBlock_encoded ⟨by decide +kernel, by decide +kernel⟩ (by decide +kernel) (by decide +kernel)
    ⟨by decide, by decide⟩ (by decide) "literal" "distance" hcoded (by decide) (by decide) hat
    (Synced.new (i := 0) (Nat.zero_le _)) 0 0
  rwa [hbits, hend] at hblock

/-! ## Blocks -/

theorem parseStoredBlock_yields (block : CompressedBlock) {ys : Bytes} {pad : Nat} (hlen : ys.length < 2 ^ 16)
    (hcap : block.literals.length + ys.length ≤ maxBlockLiterals)
    (h : At (bytesBits data) p (bitsLe (padTo8 p) pad ++
      (bitsLe 16 ys.length ++ (bitsLe 16 (2 ^ 16 - 1 - ys.length) ++ (bytesBits ys ++ rest))))) :
    Yields (Synced data p) (parseStoredBlock block) { block with literals := block.literals ++ ys }
      (Synced data (p + padTo8 p + 16 + 16 + 8 * ys.length)) := by
  have halign := alignToByte_yields (length_bitsLe _ _) h
  have h1 := h.skip
  rw [length_bitsLe] at halign h1
  have h2 := h1.skip
  rw [length_bitsLe] at h2
  have h3 := h2.skip
  rw [length_bitsLe] at h3
  have h8 := padTo8_add p
  unfold parseStoredBlock
  refine halign.bind ((readU16Le_yields h8 hlen h1).bind ?_)
  refine (readU16Le_yields (by omega) (by omega) h2).bind ?_
  rw [show (0xFFFF : Nat) = 2 ^ 16 - 1 from rfl, Nat.and_two_pow_sub_one_eq_mod, if_neg (by omega),
    if_neg (by simp only [fitsLiteralCap, decide_eq_true_eq]; omega)]
  exact (readBytes_yields (by omega) h3).bind Yields.pure

theorem Decodes.congr {c c' : Nat → List Bool} {s : Nat} (h : c s = c' s) (hd : Decodes d c s) : Decodes d c' s := by
  unfold Decodes at hd ⊢
  rwa [← h]

theorem fixedLitlen_decoder : ∃ d, HuffmanDecoder.fromLengths fixedLitlenCodeLengths "fixed" = .ok d ∧
    ∀ s, s < 288 → Decodes d fixedLitlen s := by
  have hlen : fixedLitlenCodeLengths.length = 288 := by
    simp only [fixedLitlenCodeLengths, List.length_append, List.length_replicate]
  obtain ⟨d, hd, hdec⟩ := fromLengths_sound kraft_fixedLitlen (by omega) "fixed"
  refine ⟨d, hd, fun s hs => ?_⟩
  have hget := List.getElem?_eq_getElem (hlen ▸ hs : s < fixedLitlenCodeLengths.length)
  have hmem := List.mem_of_getElem? hget
  refine (hdec s _ hget ?_).congr (codeBits_fixedLitlen hs)
  simp only [fixedLitlenCodeLengths, List.mem_append, List.mem_replicate] at hmem ⊢
  omega

theorem fixedDist_decoder : ∃ e, HuffmanDecoder.fromLengths fixedDistCodeLengths "fixed distance" = .ok e ∧
    ∀ s, s < 32 → Decodes e fixedDist s := by
  have hlen : fixedDistCodeLengths.length = 32 := List.length_replicate
  obtain ⟨e, he, hdec⟩ := fromLengths_sound kraft_fixedDist (by omega) "fixed distance"
  refine ⟨e, he, fun s hs => ?_⟩
  have hget := List.getElem?_eq_getElem (hlen ▸ hs : s < fixedDistCodeLengths.length)
  refine (hdec s _ hget ?_).congr (codeBits_fixedDist hs)
  rw [List.eq_of_mem_replicate (List.mem_of_getElem? hget)]
  decide

structure BlockFits (b : DeflateBlock) : Prop where
  literals_le : b.literals.length ≤ maxBlockLiterals
  tokens_lt : b.tokenCount < maxDeflateInstructions

theorem parseSingleBlock_yields {b : DeflateBlock} {offset : Nat} (hfit : BlockFits b)
    (h : At (bytesBits data) p (b.body p ++ rest)) :
    Yields (Synced data p) (parseSingleBlock (ofBits b.typeBits) (CompressedBlock.new offset 0))
      (b.hasMatch, ⟨offset, 0, none, b.literals⟩) (Synced data (p + (b.body p).length)) := by
  cases b with
  | stored pad ys hlen =>
    have hcap := hfit.literals_le
    simp only [DeflateBlock.literals] at hcap
    simp only [DeflateBlock.body, List.append_assoc] at h
    have hpos : p + (DeflateBlock.body p (.stored pad ys hlen)).length = p + padTo8 p + 16 + 16 + 8 * ys.length := by
      simp only [DeflateBlock.body, List.length_append, length_bitsLe, length_bytesBits]; omega
    rw [hpos]
    refine (parseStoredBlock_yields (CompressedBlock.new offset 0) hlen
      (by simp [CompressedBlock.new]; omega) h).bind ?_
    exact Yields.pure
  | fixed ts =>
    have hcap := hfit.literals_le
    simp only [DeflateBlock.literals] at hcap
    simp only [DeflateBlock.body, List.append_assoc] at h
    obtain ⟨d, hd, hlit⟩ := fixedLitlen_decoder
    obtain ⟨e, he, hdist⟩ := fixedDist_decoder
    have hread : ∀ t ∈ ts, t.Readable d e fixedLitlen fixedDist := by
      intro t _
      cases t with
      | literal b => exact hlit _ (Nat.lt_trans b.toNat_lt (by decide))
      | pair l x =>
        have hl : l.idx < 29 := l.idx_lt
        have hx : x.idx < 30 := x.idx_lt
        exact ⟨hlit _ (by omega), hdist _ (by omega)⟩
    have hrun := parseHuffmanBlock_tokens (CompressedBlock.new offset 0) (hlit 256 (by decide)) hread hfit.tokens_lt
      (by simp only [CompressedBlock.new, List.length_nil]; omega) h
    have hpos : p + (DeflateBlock.body p (.fixed ts)).length =
        p + (ts.flatMap (Token.bits fixedLitlen fixedDist)).length + (fixedLitlen 256).length := by
      simp only [DeflateBlock.body, List.length_append]; omega
    rw [hpos]
    refine (yields_lift hd).bind ((yields_lift he).bind ?_)
    exact hrun

/-! ## Streams -/

theorem length_fixedLitlen (s : Nat) : (fixedLitlen s).length ≤ 9 := by
  unfold fixedLitlen
  split_ifs <;> simp only [List.length_reverse, length_bitsLe] <;> omega

theorem Token.length_bits_le (t : Token) : (t.bits fixedLitlen fixedDist).length ≤ 40 := by
  cases t with
  | literal b => exact Nat.le_trans (length_fixedLitlen _) (by decide)
  | pair l x =>
    have h1 := length_fixedLitlen (257 + l.idx)
    have h2 := l.length_bits_le literalLengthExtraBits_le
    have h3 := x.length_bits_le distanceExtraBits_le
    simp only [Token.bits, List.length_append, fixedDist, List.length_reverse, length_bitsLe]
    omega

theorem length_tokens_le : ∀ ts : List Token, (ts.flatMap (Token.bits fixedLitlen fixedDist)).length ≤ 40 * ts.length
  | [] => Nat.zero_le _
  | t :: ts => by
    have ht := t.length_bits_le
    have ih := length_tokens_le ts
    rw [List.flatMap_cons, List.length_append, List.length_cons]; omega

theorem DeflateBlock.length_typeBits (b : DeflateBlock) : b.typeBits.length = 2 := by cases b <;> rfl

theorem DeflateBlock.length_bits (p : Nat) (final : Bool) (b : DeflateBlock) :
    (b.bits p final).length = 1 + 2 + (b.body (p + 3)).length := by
  rw [bits, List.length_cons, List.length_append, b.length_typeBits]; omega

/-- A block's size fits in the `u32` it is kept in. -/
theorem BlockFits.length_bits_le {b : DeflateBlock} (hfit : BlockFits b) (p : Nat) (final : Bool) :
    ((b.bits p final).length + 7) / 8 ≤ 2 ^ 32 - 1 := by
  rw [b.length_bits]
  cases b with
  | stored pad ys hlen =>
    simp only [DeflateBlock.body, List.length_append, length_bitsLe, length_bytesBits, padTo8]; omega
  | fixed ts =>
    have hn := hfit.tokens_lt
    have h1 := length_tokens_le ts
    have h2 := length_fixedLitlen 256
    simp only [DeflateBlock.tokenCount, maxDeflateInstructions] at hn
    simp only [DeflateBlock.body, List.length_append]
    omega

def DeflateBlock.located (p : Nat) (final : Bool) (b : DeflateBlock) : CompressedBlock :=
  ⟨p / 8, ((b.bits p final).length + 7) / 8, none, b.literals⟩

def locateStream : Nat → List DeflateBlock → List CompressedBlock
  | _, [] => []
  | p, b :: bs => b.located p bs.isEmpty :: locateStream (p + (b.bits p bs.isEmpty).length) bs

def literalCount (bs : List DeflateBlock) : Nat := (bs.map (·.literals.length)).sum

theorem locateStream_literals : ∀ (p : Nat) (bs : List DeflateBlock),
    (locateStream p bs).map (·.literals) = bs.map DeflateBlock.literals
  | _, [] => rfl
  | p, b :: bs => by rw [locateStream, List.map_cons, List.map_cons, locateStream_literals]; rfl

def Stream.push (s : Stream) (p : Nat) (final : Bool) (b : DeflateBlock) : Stream :=
  ⟨s.blocks ++ [b.located p final], s.totalLiterals + b.literals.length, s.hadMatches || b.hasMatch⟩

/-- A turn is the block's header, the block, and the limits on what it adds. -/
theorem streamTurn_yields {s : Stream} {final matched : Bool} {b : CompressedBlock} {q : Nat} {w : List Bool}
    (hw : w.length = 2)
    (hblock : Yields (Synced data (p + 3)) (parseSingleBlock (ofBits w) (CompressedBlock.new (p / 8) 0)) (matched, b)
      (Synced data q))
    (hle : (q - p + 7) / 8 ≤ 2 ^ 32 - 1) (hblocks : s.blocks.length < maxDeflateBlocksPerMember)
    (htotal : s.totalLiterals + b.literals.length ≤ maxTotalLiterals)
    (h : At (bytesBits data) p ([final] ++ (w ++ rest))) :
    Yields (Synced data p) (streamTurn s)
      (if final then
        .done ⟨s.blocks ++ [{ b with compressedLen := (q - p + 7) / 8 }], s.totalLiterals + b.literals.length,
          s.hadMatches || matched⟩
      else
        .next ⟨s.blocks ++ [{ b with compressedLen := (q - p + 7) / 8 }], s.totalLiterals + b.literals.length,
          s.hadMatches || matched⟩)
      (Synced data q) := by
  have hpos : p + [final].length + 2 = p + 3 := rfl
  have hfinal := readBits_yields (w := [final]) (Nat.le_add_left _ _) h
  have htype := readBits_yields (by omega) h.skip
  rw [hw, hpos] at htype
  unfold streamTurn
  rw [if_neg (by omega)]
  refine yields_withReader fun r hr => ?_
  rw [hr.bitOffset]
  refine hfinal.bind (htype.bind (hblock.bind ?_))
  refine (Yields.failIf _ (Nat.not_lt.mpr htotal)).bind ?_
  refine yields_withReader fun r' hr' => ?_
  rw [hr'.bitOffset]
  refine (Yields.failIf _ (by omega)).bind ?_
  cases final with
  | true => exact Yields.pure
  | false => exact Yields.pure

theorem streamTurn_block {s : Stream} {final : Bool} {b : DeflateBlock} (hfit : BlockFits b)
    (hblocks : s.blocks.length < maxDeflateBlocksPerMember)
    (htotal : s.totalLiterals + b.literals.length ≤ maxTotalLiterals)
    (h : At (bytesBits data) p (b.bits p final ++ rest)) :
    Yields (Synced data p) (streamTurn s) (if final then .done (s.push p final b) else .next (s.push p final b))
      (Synced data (p + (b.bits p final).length)) := by
  have hle := hfit.length_bits_le p final
  have hlen := b.length_bits p final
  have ht2 := b.length_typeBits
  have h0 : At (bytesBits data) p ([final] ++ (b.typeBits ++ (b.body (p + 3) ++ rest))) := by
    rw [← List.append_assoc b.typeBits]; exact h
  have hbody := h0.skip.skip
  rw [ht2, show p + [final].length + 2 = p + 3 from rfl] at hbody
  have hused : p + 3 + (b.body (p + 3)).length - p = (b.bits p final).length := by omega
  have hturn := streamTurn_yields (s := s) ht2 (parseSingleBlock_yields hfit hbody) (by rw [hused]; exact hle) hblocks
    htotal h0
  rw [hused] at hturn
  rw [show p + (b.bits p final).length = p + 3 + (b.body (p + 3)).length by omega]
  exact hturn

/-- The blocks of a stream, one turn each; the block marked final ends it. -/
theorem streamLoop_blocks : ∀ {bs : List DeflateBlock} {s : Stream} {n p : Nat}, bs ≠ [] → (∀ b ∈ bs, BlockFits b) →
    s.blocks.length + bs.length ≤ maxDeflateBlocksPerMember → bs.length ≤ n →
    s.totalLiterals + literalCount bs ≤ maxTotalLiterals → At (bytesBits data) p (streamBits p bs ++ rest) →
    Yields (Synced data p) (loop streamTurn n s)
      ⟨s.blocks ++ locateStream p bs, s.totalLiterals + literalCount bs, s.hadMatches || bs.any DeflateBlock.hasMatch⟩
      (Synced data (p + (streamBits p bs).length))
  | [], _, _, _, hne, _, _, _, _, _ => absurd rfl hne
  | b :: bs, s, n, p, _, hfit, hblocks, hn, htotal, h => by
    rw [List.length_cons] at hblocks hn
    obtain ⟨n, rfl⟩ : ∃ m, n = m + 1 := ⟨n - 1, by omega⟩
    have htot : literalCount (b :: bs) = b.literals.length + literalCount bs := by
      simp only [literalCount, List.map_cons, List.sum_cons]
    rw [htot] at htotal
    simp only [streamBits, List.append_assoc] at h
    have hturn := streamTurn_block (s := s) (hfit b List.mem_cons_self) (by omega) (by omega) h
    rw [htot, streamBits, locateStream, List.length_append, List.any_cons, ← Nat.add_assoc p,
      ← Nat.add_assoc s.totalLiterals, ← Bool.or_assoc, List.append_cons]
    cases bs with
    | nil =>
      simp only [literalCount, List.map_nil, List.sum_nil, locateStream, streamBits, List.any_nil, List.append_nil,
        Bool.or_false, List.length_nil, Nat.add_zero]
      exact hturn.loop_done
    | cons c bs =>
      apply hturn.loop_next
      have hrun := streamLoop_blocks (s := s.push p false b) (n := n) (List.cons_ne_nil c bs)
        (fun x hx => hfit x (List.mem_cons_of_mem _ hx))
        (by simp only [Stream.push, List.length_append, List.length_singleton]; omega) (by omega)
        (by simp only [Stream.push]; omega) h.skip
      exact hrun

theorem parseDeflateStream_yields {bs : List DeflateBlock} {blocks : List CompressedBlock} {total : Nat} (hne : bs ≠ [])
    (hfit : ∀ b ∈ bs, BlockFits b) (hblocks : blocks.length + bs.length ≤ maxDeflateBlocksPerMember)
    (htotal : total + literalCount bs ≤ maxTotalLiterals) (h : At (bytesBits data) p (streamBits p bs ++ rest)) :
    Yields (Synced data p) (parseDeflateStream blocks total)
      ⟨blocks ++ locateStream p bs, total + literalCount bs, bs.any DeflateBlock.hasMatch⟩
      (Synced data (p + (streamBits p bs).length)) :=
  streamLoop_blocks (s := ⟨blocks, total, false⟩) (n := maxDeflateBlocksPerMember + 1) hne hfit hblocks
    (by omega) htotal h

end

end Ziftsieve.Gzip
