import Ziftsieve.BitstreamCut
import Ziftsieve.Gzip
import Ziftsieve.IndexSound

/-!
# Gzip streams over cut data

Every function of the parser tracks its data, so a stream cut inside a member is
an error and one cut between two is the members before the cut. On the way, a
literal costs a bit or more, and a member ten bytes or more.
-/

namespace Ziftsieve.Gzip

section
variable {data : Bytes} {k p : Nat}

/-! ## Codes and trees -/

theorem decodeLoop_tracks {nodes : List HuffmanNode} : ∀ (n : Nat) {p node : Nat},
    Tracks (cutView data k) p (decodeLoop nodes n node) fun q _ => p + 1 ≤ q
  | 0, _, _ => Tracks.failHere _
  | n + 1, p, node => by
    refine (readBitsU8_tracks 1).bind fun q bit _ hq => ?_
    refine (Tracks.lift (Q := fun p' _ => p' = p + 1) fun _ _ => hq).bind fun q nd _ hq => ?_
    cases nd.child (bit = 1) with
    | none => exact Tracks.failHere _
    | some next =>
      refine (Tracks.lift (Q := fun p' _ => p' = p + 1) fun _ _ => hq).bind fun q m _ hq => ?_
      cases m.symbol with
      | some symbol => exact Tracks.pure (by omega)
      | none => exact (decodeLoop_tracks n).imp fun _ _ _ h => by omega

theorem decode_tracks (d : HuffmanDecoder) : Tracks (cutView data k) p d.decode fun q _ => p + 1 ≤ q :=
  Tracks.ite (fun _ => Tracks.failHere _) fun _ => decodeLoop_tracks _

theorem fillFrom_tracks (s : CodeLengths) (value repeatCount : Nat) :
    Tracks (cutView data k) p (fillFrom s value repeatCount) fun _ _ => True := by
  refine Tracks.withReader (fun r r' hr hr' => by rw [hr.bytePos_eq, hr'.bytePos_eq]) fun r _ => ?_
  exact (Tracks.lift_any _).bind fun _ _ _ _ => Tracks.pure trivial

theorem handleCodeLengthSymbol_tracks (symbol : Nat) (s : CodeLengths) :
    Tracks (cutView data k) p (handleCodeLengthSymbol symbol s) fun _ _ => True := by
  unfold handleCodeLengthSymbol
  refine Tracks.ite (fun _ => (Tracks.lift_any _).bind fun _ _ _ _ => Tracks.pure trivial) fun _ => ?_
  refine Tracks.ite (fun _ => Tracks.ite (fun _ => Tracks.failHere _) fun _ => ?_) fun _ => ?_
  · exact (readBits_tracks 2).bind fun _ _ _ _ => fillFrom_tracks _ _ _
  refine Tracks.ite (fun _ => (readBits_tracks 3).bind fun _ _ _ _ => fillFrom_tracks _ _ _) fun _ => ?_
  refine Tracks.ite (fun _ => (readBits_tracks 7).bind fun _ _ _ _ => fillFrom_tracks _ _ _) fun _ => ?_
  exact Tracks.stop _

theorem decodeCodeLengths_tracks (d : HuffmanDecoder) (lengths : List Nat) :
    Tracks (cutView data k) p (decodeCodeLengths d lengths) fun _ _ => True := by
  refine Tracks.loop (I := fun _ _ => True) (fun p s _ => ?_) _ trivial
  unfold codeLengthTurn
  refine Tracks.ite (fun _ => Tracks.ite (fun _ => Tracks.failHere _) fun _ => ?_) fun _ => Tracks.pure trivial
  refine (decode_tracks d).bind fun _ symbol _ _ => ?_
  exact (handleCodeLengthSymbol_tracks _ _).bind fun _ _ _ _ => Tracks.pure trivial

theorem parseDynamicTrees_tracks : Tracks (cutView data k) p parseDynamicTrees fun _ _ => True := by
  unfold parseDynamicTrees readBitsUsize
  refine (readBits_tracks 5).bind fun _ _ _ _ => (readBits_tracks 5).bind fun _ _ _ _ => ?_
  refine (readBits_tracks 4).bind fun _ _ _ _ => Tracks.ite (fun _ => Tracks.failHere _) fun _ => ?_
  refine Tracks.bind (Q := fun _ _ => True) ?_ fun _ _ _ _ => ?_
  · refine Tracks.foldlM (I := fun _ _ => True) (fun _ _ _ _ _ => ?_) trivial
    exact (readBitsU8_tracks 3).bind fun _ _ _ _ => Tracks.lift_any _
  refine (Tracks.lift_any _).bind fun _ _ _ _ => ?_
  refine (decodeCodeLengths_tracks _ _).bind fun _ _ _ _ => ?_
  refine (Tracks.lift_any _).bind fun _ _ _ _ => ?_
  exact (Tracks.lift_any _).bind fun _ _ _ _ => Tracks.pure trivial

/-! ## Blocks -/

/-- A block begun at bit `p₀`: its literals cost a bit or more each. -/
structure Costs (p₀ p : Nat) (b : CompressedBlock) : Prop where
  uncompressedLen_eq : b.uncompressedLen = none
  literals_le : p₀ + b.literals.length ≤ p

theorem Costs.mono {p₀ p q : Nat} {b : CompressedBlock} (h : Costs p₀ p b) (hpq : p ≤ q) : Costs p₀ q b :=
  ⟨h.uncompressedLen_eq, Nat.le_trans h.literals_le hpq⟩

theorem Costs.push {p₀ p q : Nat} {b : CompressedBlock} {bytes : Bytes} (h : Costs p₀ p b)
    (hq : p + bytes.length ≤ q) : Costs p₀ q { b with literals := b.literals ++ bytes } := by
  have hle := h.literals_le
  refine ⟨h.uncompressedLen_eq, ?_⟩
  rw [List.length_append]
  omega

variable {p₀ : Nat}

theorem parseStoredBlock_tracks {b : CompressedBlock} (h : Costs p₀ p b) :
    Tracks (cutView data k) p (parseStoredBlock b) fun q b' => Costs p₀ q b' := by
  unfold parseStoredBlock
  refine alignToByte_tracks.bind fun q₁ _ h₁ _ => readU16Le_tracks.bind fun q₂ len h₂ _ => ?_
  refine readU16Le_tracks.bind fun q₃ nlen h₃ _ => Tracks.ite (fun _ => Tracks.failHere _) fun _ => ?_
  refine Tracks.ite (fun _ => Tracks.fail _) fun _ => (readBytes_tracks len).bind fun q₄ bytes h₄ hbytes => ?_
  exact Tracks.pure (h.push (by omega))

theorem literalLength_le {idx extraBits base : Nat}
    (hextra : (index literalLengthExtraBits idx : Run ZiftError Nat) = .ok extraBits)
    (hbase : (index literalLengthBases idx : Run ZiftError Nat) = .ok base) : base + 2 ^ extraBits ≤ 259 := by
  have htable : ∀ x ∈ literalLengthBases.zip literalLengthExtraBits, x.1 + 2 ^ x.2 ≤ 259 := by decide
  have hget : (literalLengthBases.zip literalLengthExtraBits)[idx]? = some (base, extraBits) :=
    List.getElem?_zip_eq_some.mpr ⟨index_eq_ok.mp hbase, index_eq_ok.mp hextra⟩
  exact htable _ (List.mem_of_getElem? hget)

theorem matchPair_tracks (symbol : Nat) (d : HuffmanDecoder) :
    Tracks (cutView data k) p (matchPair symbol d) fun q pair => p + 1 ≤ q ∧ pair.1 ≤ 258 := by
  unfold matchPair
  have hread : ∀ {p n : Nat}, Tracks (cutView data k) p (if n > 0 then readBits n else pure 0) fun _ v => v < 2 ^ n :=
    Tracks.ite (fun _ => (readBits_tracks _).imp fun _ _ _ h => h.2) fun _ => Tracks.pure (Nat.two_pow_pos _)
  refine (Tracks.lift_eq _).bind fun q₁ extraBits h₁ hextra => ?_
  refine (Tracks.lift_eq _).bind fun q₂ base h₂ hbase => hread.bind fun q₃ lengthExtra h₃ hlt => ?_
  have hlen := literalLength_le hextra hbase
  refine (decode_tracks d).bind fun q₄ distSymbol h₄ hq => Tracks.ite (fun _ => Tracks.failHere _) fun _ => ?_
  refine (Tracks.lift_any _).bind fun q₅ _ h₅ _ => ?_
  refine (Tracks.lift_any _).bind fun q₆ _ h₆ _ => hread.bind fun q₇ _ h₇ _ => ?_
  refine Tracks.pure ⟨by omega, ?_⟩
  change base + lengthExtra ≤ 258
  omega

theorem parseHuffmanBlock_tracks {b : CompressedBlock} (d e : HuffmanDecoder) (h : Costs p₀ p b) :
    Tracks (cutView data k) p (parseHuffmanBlock b d e) fun q r => Costs p₀ q r.2 := by
  refine Tracks.loop (I := fun q s => Costs p₀ q s.block) (fun p s hs => ?_) _ h
  unfold huffmanTurn
  refine Tracks.ite (fun _ => Tracks.failHere _) fun _ => (decode_tracks d).bind fun q symbol hpq hq => ?_
  refine Tracks.ite (fun _ => Tracks.ite (fun _ => Tracks.fail _) fun _ => Tracks.pure (hs.push hq)) fun _ => ?_
  refine Tracks.ite (fun _ => Tracks.pure (hs.mono hpq)) fun _ => Tracks.ite (fun _ => ?_) fun _ => ?_
  · refine Tracks.bind (Q := fun _ _ => True) ?_ fun q' _ hqq _ => Tracks.pure (hs.mono (Nat.le_trans hpq hqq))
    exact (matchPair_tracks symbol e).bind fun _ _ _ _ => Tracks.pure trivial
  · exact Tracks.ite (fun _ => Tracks.failHere _) fun _ => Tracks.failHere _

theorem parseSingleBlock_tracks {b : CompressedBlock} (blockType : Nat) (h : Costs p₀ p b) :
    Tracks (cutView data k) p (parseSingleBlock blockType b) fun q r => Costs p₀ q r.2 := by
  unfold parseSingleBlock
  split
  · exact (parseStoredBlock_tracks h).bind fun _ _ _ hb => Tracks.pure hb
  · refine (Tracks.lift (Q := fun q _ => q = p) fun _ _ => rfl).bind fun q d hpq _ => ?_
    refine (Tracks.lift (Q := fun q _ => p ≤ q) fun _ _ => hpq).bind fun q e _ hq => ?_
    exact parseHuffmanBlock_tracks d e (h.mono hq)
  · refine parseDynamicTrees_tracks.bind fun q t hpq _ => ?_
    exact parseHuffmanBlock_tracks t.1 t.2 (h.mono hpq)
  · exact Tracks.withReader (fun r r' hr hr' => by rw [hr.bytePos_eq, hr'.bytePos_eq]) fun r _ => Tracks.fail _
  · exact Tracks.stop _

/-! ## Streams -/

/-- What the blocks of a stream cost by bit `p`. -/
structure Totals (p : Nat) (blocks : List CompressedBlock) (total : Nat) : Prop where
  total_eq : total = (blocks.map (·.literals.length)).sum
  total_le : total ≤ maxTotalLiterals
  cost : total ≤ p
  uncompressedLen_eq : ∀ b ∈ blocks, b.uncompressedLen = none

theorem Totals.push {p q total used : Nat} {blocks : List CompressedBlock} {b : CompressedBlock}
    (h : Totals p blocks total) (hb : Costs p q b) (hmax : total + b.literals.length ≤ maxTotalLiterals) :
    Totals q (blocks ++ [{ b with compressedLen := used }]) (total + b.literals.length) where
  total_eq := by simp [h.total_eq]
  total_le := hmax
  cost := by
    have hcost := h.cost
    have hlits := hb.literals_le
    omega
  uncompressedLen_eq := by
    intro b' hb'
    rcases List.mem_append.mp hb' with hb' | hb'
    · exact h.uncompressedLen_eq b' hb'
    · rw [List.mem_singleton.mp hb']
      exact hb.uncompressedLen_eq

theorem Totals.mono {p q total : Nat} {blocks : List CompressedBlock} (h : Totals p blocks total) (hpq : p ≤ q) :
    Totals q blocks total := ⟨h.total_eq, h.total_le, Nat.le_trans h.cost hpq, h.uncompressedLen_eq⟩

theorem streamTurn_tracks {s : Stream} (h : Totals p s.blocks s.totalLiterals) :
    Tracks (cutView data k) p (streamTurn s) fun q turn =>
      turn.Holds (fun s' => Totals q s'.blocks s'.totalLiterals) fun s' => Totals q s'.blocks s'.totalLiterals := by
  unfold streamTurn
  refine Tracks.ite (fun _ => Tracks.failHere _) fun _ => ?_
  refine Tracks.withReader (fun r r' hr hr' => by rw [hr.bitOffset, hr'.bitOffset]) fun r _ => ?_
  refine (readBits_tracks 1).bind fun q₁ final h₁ _ => (readBits_tracks 2).bind fun q₂ blockType h₂ _ => ?_
  have hnew : Costs q₂ q₂ (CompressedBlock.new (r.bitOffset / 8) 0) := ⟨rfl, Nat.le_refl q₂⟩
  refine (parseSingleBlock_tracks blockType hnew).bind fun q₃ m h₃ hcosts => Tracks.failIf fun hmax => ?_
  have htotals : ∀ used, Totals q₃ (s.blocks ++ [{ m.2 with compressedLen := used }])
      (s.totalLiterals + m.2.literals.length) := fun used =>
    (h.mono (Nat.le_trans h₁ h₂)).push hcosts (Nat.le_of_not_lt hmax)
  refine Tracks.withReader (fun r r' hr hr' => by rw [hr.bitOffset, hr'.bitOffset]) fun r _ => ?_
  refine Tracks.failIf fun _ => Tracks.pure ?_
  by_cases hfinal : final = 1
  · rw [if_pos hfinal]
    exact htotals _
  · rw [if_neg hfinal]
    exact htotals _

theorem parseDeflateStream_tracks {blocks : List CompressedBlock} {total : Nat} (h : Totals p blocks total) :
    Tracks (cutView data k) p (parseDeflateStream blocks total) fun q s => Totals q s.blocks s.totalLiterals :=
  Tracks.loop (I := fun q s => Totals q s.blocks s.totalLiterals) (fun _ _ hs => streamTurn_tracks hs) _ h

end

/-! ## Members -/

section
variable {data : Bytes} {k p : Nat}

theorem expectMagic_tracks (magic : Nat) : Tracks (cutView data k) p (expectMagic magic) fun q _ => q = p + 8 := by
  refine (peekU8_tracks (R := fun q _ => q = p + 8) fun b => ?_).imp fun _ _ _ h => h
  refine Tracks.ite (fun _ => Tracks.failHere _) fun _ => readU8_tracks.bind fun q _ _ h => ?_
  exact Tracks.pure ⟨Nat.le_of_eq h.1.symm, h.1⟩

theorem skipZeroTerminated_tracks : Tracks (cutView data k) p skipZeroTerminated fun _ _ => True := by
  refine Tracks.loop (I := fun _ _ => True) (fun p count _ => ?_) _ trivial
  refine Tracks.ite (fun _ => Tracks.failHere _) fun _ => readU8_tracks.bind fun _ value _ _ => Tracks.pure ?_
  by_cases h : value = 0
  · rw [if_pos h]
    trivial
  · rw [if_neg h]
    trivial

theorem parseGzipExtraFields_tracks (flags : Nat) :
    Tracks (cutView data k) p (parseGzipExtraFields flags) fun _ _ => True := by
  have hnone : ∀ {p}, Tracks (cutView data k) p (pure () : Read Unit) fun _ _ => True := Tracks.pure trivial
  have hstring : ∀ {p : Nat} {c : Prop} [Decidable c],
      Tracks (cutView data k) p (if c then skipZeroTerminated else pure ()) fun _ _ => True :=
    Tracks.ite (fun _ => skipZeroTerminated_tracks) fun _ => hnone
  refine Tracks.bind (Q := fun _ _ => True) ?_ fun _ _ _ _ => hstring.bind fun _ _ _ _ => hstring.bind fun _ _ _ _ => ?_
  · refine Tracks.ite (fun _ => readU16Le_tracks.bind fun _ xlen _ _ => ?_) fun _ => hnone
    exact (skipBytes_tracks xlen).imp fun _ _ _ _ => trivial
  · exact Tracks.ite (fun _ => (skipBytes_tracks 2).imp fun _ _ _ _ => trivial) fun _ => hnone

theorem failBefore_tracks {α : Type} {Q : Nat → α → Prop} (reason : String) :
    Tracks (cutView data k) p (failBefore reason) Q :=
  Tracks.withReader (fun r r' hr hr' => by rw [hr.bytePos_eq, hr'.bytePos_eq]) fun _ _ => Tracks.fail _

/-- The header after its length is checked: ten bytes, and what the flags announce. -/
def headerFields : Read Unit := do
  expectMagic gzipMagic.1
  expectMagic gzipMagic.2
  let compressionMethod ← readU8
  if compressionMethod ≠ 8 then
    failBefore "unsupported gzip compression method (expected DEFLATE). Fix: use DEFLATE-compressed gzip data"
  else do
    let flags ← readU8
    if flags &&& 0xE0 ≠ 0 then failBefore "invalid gzip flag bits. Fix: use a valid gzip stream"
    else do
      skipBytes 4
      let _ ← readU8
      let _ ← readU8
      parseGzipExtraFields flags

theorem headerFields_tracks : Tracks (cutView data k) p headerFields fun q _ => p + 80 ≤ q := by
  unfold headerFields
  refine (expectMagic_tracks _).bind fun q₁ _ _ h₁ => (expectMagic_tracks _).bind fun q₂ _ _ h₂ => ?_
  refine readU8_tracks.bind fun q₃ _ _ h₃ => Tracks.ite (fun _ => failBefore_tracks _) fun _ => ?_
  refine readU8_tracks.bind fun q₄ flags _ h₄ => Tracks.ite (fun _ => failBefore_tracks _) fun _ => ?_
  refine (skipBytes_tracks 4).bind fun q₅ _ _ h₅ => readU8_tracks.bind fun q₆ _ _ h₆ => ?_
  refine readU8_tracks.bind fun q₇ _ _ h₇ => (parseGzipExtraFields_tracks flags).imp fun q _ hq _ => ?_
  omega

theorem parseGzipHeader_of_aligned {r : BitReader} (hr : Synced data p r) (halign : p % 8 = 0) :
    parseGzipHeader r = if data.length - p / 8 < 10
      then failHere "truncated gzip header. Fix: use a complete gzip stream" r else headerFields r := by
  have hrem : r.remainingBytes = data.length - p / 8 := by
    apply Synced.remainingBytes (i := p / 8)
    rwa [show 8 * (p / 8) = p by omega]
  unfold parseGzipHeader withReader
  dsimp only
  rw [if_neg (by rw [hr.bitPos_eq, halign]; decide), hrem]
  by_cases h : data.length - p / 8 < 10
  · rw [if_pos h, if_pos h]
  · rw [if_neg h, if_neg h]
    rfl

theorem parseGzipHeader_tracks : Tracks (cutView data k) p parseGzipHeader fun q _ => p + 80 ≤ q := by
  intro r a t hr hrun
  by_cases halign : p % 8 = 0
  · rw [parseGzipHeader_of_aligned hr halign] at hrun
    by_cases hshort : data.length - p / 8 < 10
    · rw [if_pos hshort] at hrun
      cases hrun
    rw [if_neg hshort] at hrun
    obtain ⟨q, hpq, ht, hq, hcut⟩ := headerFields_tracks r a t hr hrun
    have hle := ht.le
    refine ⟨q, hpq, ht, hq, fun r' hr' => ?_⟩
    rw [parseGzipHeader_of_aligned hr' halign, List.length_take]
    by_cases hlim : q ≤ 8 * k
    · rw [if_neg (by omega)]
      exact hcut r' hr'
    · refine ⟨fun hle => absurd hle hlim, fun hlt => ?_⟩
      by_cases hshort' : min k data.length - p / 8 < 10
      · rw [if_pos hshort']
        exact ⟨_, _, rfl⟩
      · rw [if_neg hshort']
        exact (hcut r' hr').beyond hlt
  · unfold parseGzipHeader withReader at hrun
    dsimp only at hrun
    rw [if_pos (by rw [hr.bitPos_eq]; exact halign)] at hrun
    cases hrun

theorem readMember_tracks {blocks : List CompressedBlock} {total : Nat} (h : Totals p blocks total) :
    Tracks (cutView data k) p (readMember blocks total) fun q m =>
      (q % 8 = 0 ∧ p + 80 ≤ q) ∧ Totals q m.2.1.blocks m.2.1.totalLiterals := by
  refine Tracks.withReader (fun r r' hr hr' => by rw [hr.bytePos_eq, hr'.bytePos_eq]) fun r _ => ?_
  refine parseGzipHeader_tracks.bind fun q₁ _ h₁ hq₁ => (parseDeflateStream_tracks (h.mono h₁)).bind fun q₂ s h₂ hs => ?_
  refine alignToByte_tracks.bind fun q₃ _ h₃ hq₃ => readU32Le_tracks.bind fun q₄ _ h₄ hq₄ => ?_
  refine readU32Le_tracks.bind fun q₅ _ h₅ hq₅ => Tracks.pure ⟨by omega, hs.mono (by omega)⟩

theorem checkMember_tracks (ext : External) (startIdx memberStart : Nat) (s : Stream) (expectedCrc32 : Nat) :
    Tracks (cutView data k) p (checkMember ext startIdx memberStart s expectedCrc32) fun q _ => q = p := by
  unfold checkMember
  dsimp only
  refine Tracks.withReader (fun r r' hr hr' => ?_) fun r _ => ?_
  · have hle := (cutView data k).cut_le hr'
    change p ≤ 8 * k at hle
    rw [hr.data_eq, hr.bytePos_eq, hr'.data_eq, hr'.bytePos_eq, slice_take (by omega)]
  · refine Tracks.ite (fun _ => (Tracks.lift (Q := fun q _ => q = p) fun _ _ => rfl).bind fun q memberData _ hq => ?_)
      fun _ => Tracks.check (Q := fun q _ => q = p) _ fun _ => rfl
    exact Tracks.lift fun _ _ => hq

theorem parseGzipMember_tracks (ext : External) {blocks : List CompressedBlock} {total : Nat}
    (h : Totals p blocks total) :
    Tracks (cutView data k) p (parseGzipMember ext blocks total) fun q m =>
      (q % 8 = 0 ∧ p + 80 ≤ q) ∧ Totals q m.1 m.2 := by
  refine (readMember_tracks h).bind fun q m _ hm => ?_
  refine (checkMember_tracks ext blocks.length m.1 m.2.1 m.2.2).bind fun q' _ _ hq => ?_
  rw [hq]
  exact Tracks.pure hm

end

/-! ## Cuts -/

/-- The parse from a state gets to byte `k` between two members, with these blocks. -/
inductive PausesAt (ext : External) (k : Nat) : Members → BitReader → List CompressedBlock → Prop
  | here {s : Members} {r : BitReader} : r.bitOffset = 8 * k → PausesAt ext k s r s.blocks
  | next {s s' : Members} {r t : BitReader} {bs : List CompressedBlock} :
      memberTurn ext s r = (.ok (.next s'), t) → PausesAt ext k s' t bs → PausesAt ext k s r bs

section
variable {ext : External} {data : Bytes} {k i : Nat} {s s' : Members} {r r' t : BitReader}

theorem memberTurn_end (hr : Synced data (8 * i) r) (hend : data.length ≤ i) :
    memberTurn ext s r = (.ok (.done s.blocks), r) := by
  unfold memberTurn withReader
  dsimp only
  rw [hr.remainingBytes, if_neg (by omega)]
  rfl

theorem memberTurn_more (hr : Synced data (8 * i) r) (hmore : i < data.length) :
    memberTurn ext s r = (do
      let (blocks, totalLiterals) ← parseGzipMember ext s.blocks s.totalLiterals
      if s.members + 1 ≥ 1024 then
        failHere "too many gzip members, likely malformed input. Fix: use a valid gzip stream"
      else pure (.next ⟨blocks, totalLiterals, s.members + 1⟩) : Read (Turn Members (List CompressedBlock))) r := by
  unfold memberTurn withReader
  dsimp only
  rw [hr.remainingBytes, if_pos (by omega)]

theorem memberTurn_eq_done {bs : List CompressedBlock} (hr : Synced data (8 * i) r)
    (h : memberTurn ext s r = (.ok (.done bs), t)) : data.length ≤ i ∧ bs = s.blocks := by
  rcases Nat.lt_or_ge i data.length with hmore | hend
  · rw [memberTurn_more hr hmore] at h
    obtain ⟨m, t', -, h⟩ := bind_eq_ok.mp h
    by_cases hmax : s.members + 1 ≥ 1024
    · simp only [if_pos hmax] at h
      cases h
    · simp only [if_neg hmax] at h
      cases h
  · rw [memberTurn_end hr hend] at h
    cases h
    exact ⟨hend, rfl⟩

/-- What a member's turn does over the whole data, and over the data before a later byte. -/
structure TakesMember (ext : External) (data : Bytes) (k i : Nat) (s s' : Members) (j : Nat) (t : BitReader) : Prop where
  far : i + 10 ≤ j
  synced : Synced data (8 * j) t
  totals : Totals (8 * j) s'.blocks s'.totalLiterals
  cut : ∀ r', Synced (data.take k) (8 * i) r' → i < k → Follows (cutView data k) (8 * j) (.next s') (memberTurn ext s r')

theorem memberTurn_eq_next (hr : Synced data (8 * i) r) (htotals : Totals (8 * i) s.blocks s.totalLiterals)
    (h : memberTurn ext s r = (.ok (.next s'), t)) : ∃ j, TakesMember ext data k i s s' j t := by
  have hmore : i < data.length := by
    by_contra hend
    rw [memberTurn_end hr (Nat.le_of_not_lt hend)] at h
    cases h
  rw [memberTurn_more hr hmore] at h
  have htracks : Tracks (cutView data k) (8 * i) (do
      let (blocks, totalLiterals) ← parseGzipMember ext s.blocks s.totalLiterals
      if s.members + 1 ≥ 1024 then
        failHere "too many gzip members, likely malformed input. Fix: use a valid gzip stream"
      else pure (.next ⟨blocks, totalLiterals, s.members + 1⟩) : Read (Turn Members (List CompressedBlock)))
      fun q turn => (q % 8 = 0 ∧ 8 * i + 80 ≤ q) ∧
        turn.Holds (fun s' => Totals q s'.blocks s'.totalLiterals) fun _ => False := by
    refine (parseGzipMember_tracks ext htotals).bind fun q m _ hm => ?_
    exact Tracks.ite (fun _ => Tracks.failHere _) fun _ => Tracks.pure hm
  obtain ⟨q, -, ht, ⟨⟨halign, hfar⟩, hnext⟩, hcut⟩ := htracks r _ t hr h
  have hq : q = 8 * (q / 8) := by omega
  rw [hq] at ht hnext hcut
  refine ⟨q / 8, by omega, ht, hnext, fun r' hr' hlt => ?_⟩
  rw [memberTurn_more hr' (by rw [List.length_take]; omega)]
  exact hcut r' hr'

theorem PausesAt.le {bs : List CompressedBlock} (h : PausesAt ext k s r bs) : ∀ {i : Nat}, Synced data (8 * i) r →
    Totals (8 * i) s.blocks s.totalLiterals → i ≤ k := by
  induction h with
  | here hpos =>
    intro i hr _
    rw [hr.bitOffset] at hpos
    omega
  | next hturn _ ih =>
    intro i hr htotals
    obtain ⟨j, hj⟩ := memberTurn_eq_next (k := k) hr htotals hturn
    have hle := ih hj.synced hj.totals
    have hfar := hj.far
    omega

/-- A run at the cut pauses at once, and not later again. -/
theorem pausesAt_here (hr : Synced data (8 * k) r) (htotals : Totals (8 * k) s.blocks s.totalLiterals)
    {bs : List CompressedBlock} : PausesAt ext k s r bs ↔ bs = s.blocks := by
  constructor
  · intro h
    cases h with
    | here => rfl
    | next hturn hrest =>
      obtain ⟨j, hj⟩ := memberTurn_eq_next (k := k) hr htotals hturn
      have hle := hrest.le hj.synced hj.totals
      have hfar := hj.far
      omega
  · rintro rfl
    exact .here hr.bitOffset

theorem pausesAt_next (hr : Synced data (8 * i) r) (hbefore : i < k) (hturn : memberTurn ext s r = (.ok (.next s'), t))
    {bs : List CompressedBlock} : PausesAt ext k s r bs ↔ PausesAt ext k s' t bs := by
  constructor
  · intro h
    cases h with
    | here hpos =>
      rw [hr.bitOffset] at hpos
      omega
    | next hturn' hrest =>
      rw [hturn] at hturn'
      cases hturn'
      exact hrest
  · exact PausesAt.next hturn

/-- By induction on the members of the whole data, as long as they start before the cut. -/
theorem memberLoop_cut {bs : List CompressedBlock} (hlt : k < data.length) : ∀ {n i : Nat} {s : Members} {r r' u : BitReader},
    i ≤ k → Synced data (8 * i) r → Synced (data.take k) (8 * i) r' → Totals (8 * i) s.blocks s.totalLiterals →
    loop (memberTurn ext) n s r = (.ok bs, u) →
    (∀ bs', (loop (memberTurn ext) n s r').1 = .ok bs' ↔ PausesAt ext k s r bs') ∧
      ((¬ ∃ bs', PausesAt ext k s r bs') → ∃ e, (loop (memberTurn ext) n s r').1 = .error (.err e))
  | 0, _, _, _, _, _, _, _, _, _, h => by cases h
  | n + 1, i, s, r, r', u, hik, hr, hr', htotals, h => by
    rw [loop] at h ⊢
    obtain ⟨turn, t, hturn, h⟩ := bind_eq_ok.mp h
    have hcutlen : (data.take k).length = k := List.length_take_of_le (Nat.le_of_lt hlt)
    rcases Nat.lt_or_eq_of_le hik with hbefore | rfl
    · cases turn with
      | done bs' =>
        have hend := (memberTurn_eq_done hr hturn).1
        omega
      | next s' =>
        obtain ⟨j, hj⟩ := memberTurn_eq_next hr htotals hturn
        simp only [pausesAt_next hr hbefore hturn]
        have hfollows := hj.cut r' hr' hbefore
        by_cases hjk : j ≤ k
        · obtain ⟨t', hcut, ht'⟩ := hfollows.within (Nat.mul_le_mul_left 8 hjk)
          rw [bind_of_ok hcut]
          exact memberLoop_cut hlt hjk hj.synced ht' hj.totals h
        · have hnone : ∀ bs', ¬ PausesAt ext k s' t bs' := fun bs' hp => hjk (hp.le hj.synced hj.totals)
          obtain ⟨e, t', herr⟩ := hfollows.beyond (Nat.mul_lt_mul_of_pos_left (Nat.lt_of_not_le hjk) (by decide))
          rw [bind_of_error herr]
          exact ⟨fun bs' => ⟨(fun hok => by cases hok), fun hp => absurd hp (hnone bs')⟩, fun _ => ⟨e, rfl⟩⟩
    · have hend : memberTurn ext s r' = (.ok (.done s.blocks), r') := memberTurn_end hr' (Nat.le_of_eq hcutlen)
      rw [bind_of_ok hend]
      simp only [pausesAt_here hr htotals]
      refine ⟨fun bs' => ⟨fun hok => ?_, fun hp => ?_⟩, fun hnone => absurd ⟨s.blocks, rfl⟩ hnone⟩
      · cases hok
        rfl
      · rw [hp]
        rfl

theorem Totals.start : Totals 0 [] 0 := ⟨rfl, Nat.zero_le _, Nat.zero_le _, fun _ hb => nomatch hb⟩

theorem memberLoop_totals {bs : List CompressedBlock} : ∀ {n i : Nat} {s : Members} {r u : BitReader},
    Synced data (8 * i) r → Totals (8 * i) s.blocks s.totalLiterals → loop (memberTurn ext) n s r = (.ok bs, u) →
    ∃ total, Totals (8 * data.length) bs total
  | 0, _, _, _, _, _, _, h => by cases h
  | n + 1, i, s, r, u, hr, htotals, h => by
    rw [loop] at h
    obtain ⟨turn, t, hturn, h⟩ := bind_eq_ok.mp h
    cases turn with
    | done bs' =>
      cases h
      rw [(memberTurn_eq_done hr hturn).2]
      exact ⟨_, htotals.mono hr.le⟩
    | next s' =>
      obtain ⟨j, hj⟩ := memberTurn_eq_next (k := 0) hr htotals hturn
      exact memberLoop_totals hj.synced hj.totals h

theorem extractLiterals_totals {bs : List CompressedBlock} (h : extractLiterals ext data = .ok bs) :
    ∃ total, Totals (8 * data.length) bs total := by
  unfold extractLiterals at h
  by_cases hnil : data = []
  · rw [if_pos hnil] at h
    cases h
  · rw [if_neg hnil] at h
    exact memberLoop_totals (i := 0) (Synced.new (Nat.zero_le _)) Totals.start (Prod.ext h rfl)

/-- **A cut gzip stream** is the members before the cut when the cut is the end of one, and
an error when it is not. -/
theorem extractLiterals_take {bs : List CompressedBlock} (h : extractLiterals ext data = .ok bs) (hk : 0 < k)
    (hlt : k < data.length) :
    (∀ bs', extractLiterals ext (data.take k) = .ok bs' ↔ PausesAt ext k ⟨[], 0, 0⟩ (BitReader.new data 0) bs') ∧
      ((¬ ∃ bs', PausesAt ext k ⟨[], 0, 0⟩ (BitReader.new data 0) bs') →
        ∃ e, extractLiterals ext (data.take k) = .error (.err e)) := by
  have hne : data ≠ [] := List.ne_nil_of_length_pos (by omega)
  have hcut : data.take k ≠ [] := List.ne_nil_of_length_pos (by rw [List.length_take]; omega)
  unfold extractLiterals at h ⊢
  rw [if_neg hne] at h
  rw [if_neg hcut]
  exact memberLoop_cut hlt (Nat.zero_le k) (Synced.new (Nat.zero_le _)) (Synced.new (Nat.zero_le _)) Totals.start
    (Prod.ext h rfl)

end

/-- `"a"` stored, twice: two members of 24 bytes. -/
def storedTwice : Bytes :=
  [31, 139, 8, 0, 0, 0, 0, 0, 0, 255, 1, 1, 0, 254, 255, 97, 0, 0, 0, 0, 1, 0, 0, 0,
   31, 139, 8, 0, 0, 0, 0, 0, 0, 255, 1, 1, 0, 254, 255, 97, 0, 0, 0, 0, 1, 0, 0, 0]

theorem storedTwice_accepted : extractLiterals .fnvOnly storedTwice = .ok [⟨10, 6, none, [97]⟩, ⟨34, 6, none, [97]⟩] := by
  decide +kernel

theorem extractLiterals_take_storedTwice :
    PausesAt .fnvOnly 24 ⟨[], 0, 0⟩ (BitReader.new storedTwice 0) [⟨10, 6, none, [97]⟩] := by
  have hcut : extractLiterals .fnvOnly (storedTwice.take 24) = .ok [⟨10, 6, none, [97]⟩] := by decide +kernel
  exact ((extractLiterals_take storedTwice_accepted (by decide) (by decide)).1 _).mp hcut

end Ziftsieve.Gzip
