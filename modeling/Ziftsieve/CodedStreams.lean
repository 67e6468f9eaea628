import Ziftsieve.CodedBlocks

/-!
# The parser recognizes streams

A turn over the blocks of a stream is one block, with its header; the stream is
the blocks up to the first that is marked final.
-/

namespace Ziftsieve.Gzip

/-! ## Lengths -/

theorem length_codeBits_le {L : List Nat} (h : ∀ l ∈ L, l ≤ 15) (s : Nat) : (codeBits L s).length ≤ 15 := by
  rw [codeBits, List.length_reverse, codePath, length_bitsLe, List.getD_eq_getElem?_getD]
  cases hget : L[s]? with
  | none => exact Nat.zero_le _
  | some l => exact h l (List.mem_of_getElem? hget)

theorem length_flatMap_le {α β : Type} {f : α → List β} {k : Nat} : ∀ {xs : List α}, (∀ x ∈ xs, (f x).length ≤ k) →
    (xs.flatMap f).length ≤ k * xs.length
  | [], _ => Nat.zero_le _
  | x :: xs, h => by
    have hx := h x List.mem_cons_self
    have ih := length_flatMap_le fun y hy => h y (List.mem_cons_of_mem _ hy)
    rw [List.flatMap_cons, List.length_append, List.length_cons, Nat.mul_succ]
    omega

theorem length_tokenBits_le {L V : List Nat} (hL : ∀ l ∈ L, l ≤ 15) (hV : ∀ l ∈ V, l ≤ 15) (ts : List Token) :
    (tokenBits L V ts).length ≤ 56 * ts.length + 15 := by
  have htoken : ∀ t ∈ ts, (t.bits (codeBits L) (codeBits V)).length ≤ 56 := by
    intro t _
    cases t with
    | literal b => exact Nat.le_trans (length_codeBits_le hL _) (by decide)
    | pair l x =>
      have h1 := length_codeBits_le hL (257 + l.idx)
      have h2 := l.length_bits_le literalLengthExtraBits_le
      have h3 := length_codeBits_le hV x.idx
      have h4 := x.length_bits_le distanceExtraBits_le
      simp only [Token.bits, List.length_append]
      omega
  have hend := length_codeBits_le hL 256
  have htokens := length_flatMap_le htoken
  rw [tokenBits, List.length_append]
  omega

theorem BlockTrees.length_bits_le (t : BlockTrees) : t.bits.length ≤ 8000 := by
  have hgiven : (t.given.flatMap (bitsLe 3)).length ≤ 3 * t.given.length :=
    length_flatMap_le fun l _ => by rw [length_bitsLe]
  have hentry : ∀ e ∈ t.entries, (e.bits (codeBits (givenLengths t.given))).length ≤ 22 := by
    intro e _
    have hcode := length_codeBits_le t.builds.le e.symbol
    have hextra : e.extraBits.length ≤ 7 := by
      cases e <;> simp only [LengthEntry.extraBits, length_bitsLe, List.length_nil] <;> decide
    rw [LengthEntry.bits, List.length_append]
    omega
  have hentries := length_flatMap_le hentry
  have hfew := length_le_counts t.entries
  have hfills := t.fills
  have hlit := t.hlit_le
  have hdist := t.hdist_le
  have hlen := t.given_le
  simp only [bits, entryBits, List.length_append, length_bitsLe]
  omega

namespace CodedBlock

theorem blockType_lt (b : CodedBlock) : b.blockType < 2 ^ 2 := by
  cases b <;> simp [blockType]

theorem length_bits (p : Nat) (final : Bool) (b : CodedBlock) : (b.bits p final).length = 3 + (b.body (p + 3)).length := by
  rw [bits, List.length_cons, List.length_append, length_bitsLe]
  omega

/-- A block's size fits in the `u32` it is kept in. -/
theorem length_bits_le (p : Nat) (final : Bool) (b : CodedBlock) : ((b.bits p final).length + 7) / 8 ≤ 2 ^ 32 - 1 := by
  rw [b.length_bits]
  cases b with
  | stored pad ys hlen =>
    simp only [body, List.length_append, length_bitsLe, length_bytesBits, padTo8]
    omega
  | fixed ts hts =>
    have hfew := hts.few
    have htokens := length_tokenBits_le kraft_fixedLitlen.le kraft_fixedDist.le ts
    simp only [maxDeflateInstructions] at hfew
    simp only [body]
    omega
  | dynamic t ts hts =>
    have hfew := hts.few
    have htrees := t.length_bits_le
    have htokens := length_tokenBits_le t.literal_builds.le t.distance_builds.le ts
    simp only [maxDeflateInstructions] at hfew
    simp only [body, List.length_append]
    unfold BlockTrees.literalLengths BlockTrees.distanceLengths
    omega

theorem bits_bytes (i p : Nat) (final : Bool) (b : CodedBlock) : b.bits (8 * i + p) final = b.bits p final := by
  cases b with
  | stored pad data h => rw [bits, bits, body, body, Nat.add_assoc, padTo8_bytes]
  | fixed ts _ => rfl
  | dynamic t ts _ => rfl

end CodedBlock

theorem codedBits_bytes (i : Nat) : ∀ (p : Nat) (bs : List CodedBlock), codedBits (8 * i + p) bs = codedBits p bs
  | _, [] => rfl
  | p, b :: bs => by rw [codedBits, codedBits, CodedBlock.bits_bytes, Nat.add_assoc, codedBits_bytes]

/-! ## Turns -/

/-- A stream with one more block. -/
def Stream.coded (s : Stream) (p : Nat) (final : Bool) (b : CodedBlock) : Stream :=
  ⟨s.blocks ++ [b.located p final], s.totalLiterals + b.literals.length, s.hadMatches || b.hasMatch⟩

/-- A turn over the blocks: there is room for one more, and it stands here. -/
def BlockTurn (p : Nat) (s : Stream) (turn : Turn Stream Stream) (w : List Bool) : Prop :=
  s.blocks.length < maxDeflateBlocksPerMember ∧ ∃ final b, s.totalLiterals + b.literals.length ≤ maxTotalLiterals ∧
    w = CodedBlock.bits p final b ∧ turn = if final then .done (s.coded p final b) else .next (s.coded p final b)

section
variable {data : Bytes} {p : Nat}

theorem streamTurn_recognizes (s : Stream) : Recognizes (bitView data) p (streamTurn s) (BlockTurn p s) where
  parses := by
    unfold streamTurn
    refine Parses.ite (fun _ => Parses.failHere _) fun hroom => Parses.withReader fun r hr => ?_
    rw [hr.bitOffset]
    refine (readBits_parses 1).bind fun v w0 h0 => (readBits_parses 2).bind fun blockType w1 h1 =>
      (parseSingleBlock_recognizes blockType (p / 8)).parses.bind fun x w2 h2 => ?_
    obtain ⟨rfl, hv⟩ := h0
    obtain ⟨rfl, -⟩ := h1
    obtain ⟨b, rfl, rfl, rfl⟩ := h2
    refine Parses.failIf fun htotal => Parses.withReader fun r' hr' => Parses.failIf fun hused => Parses.pure ?_
    rw [hr'.bitOffset, length_bitsLe, length_bitsLe]
    have hfinal : bitsLe 1 v = [decide (v = 1)] := by
      have h2 : v = 0 ∨ v = 1 := by omega
      rcases h2 with rfl | rfl <;> rfl
    have hlen := b.length_bits p (decide (v = 1))
    have hsize : p + 1 + 2 + (b.body (p + 1 + 2)).length - p = (b.bits p (decide (v = 1))).length := by
      rw [hlen, show p + 1 + 2 = p + 3 from rfl]
      omega
    refine ⟨Nat.lt_of_not_le hroom, decide (v = 1), b, Nat.le_of_not_lt htotal, ?_, ?_⟩
    · rw [hfinal, List.append_nil]
      rfl
    · rw [hsize]
      by_cases h1 : v = 1
      · rw [if_pos h1, if_pos (decide_eq_true h1)]
        rfl
      · rw [if_neg h1, if_neg (by rw [decide_eq_false h1]; exact Bool.false_ne_true)]
        rfl
  yields := by
    rintro turn w rest ⟨hroom, final, b, htotal, rfl, rfl⟩ hat
    have hle := b.length_bits_le p final
    have hlen := b.length_bits p final
    have htype : ofBits (bitsLe 2 b.blockType) = b.blockType := ofBits_bitsLe_of_lt b.blockType_lt
    have hat' : At (bytesBits data) p ([final] ++ (bitsLe 2 b.blockType ++ (b.body (p + 3) ++ rest))) := by
      rw [← List.append_assoc (bitsLe 2 _)]
      exact hat
    have hbody : At (bytesBits data) (p + 3) (b.body (p + 3) ++ rest) := by
      have h := hat'.skip.skip
      rw [length_bitsLe] at h
      exact h
    have hblock := (parseSingleBlock_recognizes b.blockType (p / 8)).yields ⟨b, rfl, rfl, rfl⟩ hbody
    rw [← htype] at hblock
    have hused : p + 3 + (b.body (p + 3)).length - p = (b.bits p final).length := by omega
    have hturn := streamTurn_yields (s := s) (length_bitsLe 2 _) hblock (by rw [hused]; exact hle) hroom htotal hat'
    rw [hused] at hturn
    rw [hlen, ← Nat.add_assoc]
    exact hturn

/-! ## Streams -/

theorem blockRuns_iff {s r : Stream} {w : List Bool} : Runs BlockTurn p s r w ↔ ∃ bs : List CodedBlock, bs ≠ [] ∧
    s.blocks.length + bs.length ≤ maxDeflateBlocksPerMember ∧ s.totalLiterals + codedLiterals bs ≤ maxTotalLiterals ∧
    r = ⟨s.blocks ++ locateCoded p bs, s.totalLiterals + codedLiterals bs, s.hadMatches || bs.any CodedBlock.hasMatch⟩ ∧
    w = codedBits p bs := by
  constructor
  · intro h
    induction h with
    | @done p s r w h =>
      obtain ⟨hroom, final, b, htotal, rfl, hturn⟩ := h
      cases final with
      | false => cases hturn
      | true =>
        cases hturn
        refine ⟨[b], List.cons_ne_nil b [], hroom, ?_, ?_, ?_⟩
        · simpa [codedLiterals] using htotal
        · simp [Stream.coded, locateCoded, codedLiterals]
        · simp [codedBits]
    | @next p s y r w v h _ ih =>
      obtain ⟨hroom, final, b, htotal, rfl, hturn⟩ := h
      cases final with
      | true => cases hturn
      | false =>
        cases hturn
        obtain ⟨bs, hne, hblocks, htotals, rfl, rfl⟩ := ih
        have hlast : bs.isEmpty = false := List.isEmpty_eq_false_iff.mpr hne
        simp only [Stream.coded, List.length_append, List.length_singleton] at hblocks htotals
        refine ⟨b :: bs, List.cons_ne_nil b bs, ?_, ?_, ?_, ?_⟩
        · rw [List.length_cons]
          omega
        · rw [codedLiterals, List.map_cons, List.sum_cons, ← codedLiterals]
          omega
        · simp [Stream.coded, locateCoded, codedLiterals, hlast, Nat.add_assoc, Bool.or_assoc]
        · rw [codedBits, hlast]
  · rintro ⟨bs, hne, hblocks, htotal, rfl, rfl⟩
    induction bs generalizing p s with
    | nil => exact absurd rfl hne
    | cons b bs ih =>
      rw [codedLiterals, List.map_cons, List.sum_cons, ← codedLiterals] at htotal
      rw [List.length_cons] at hblocks
      cases bs with
      | nil =>
        have hturn : BlockTurn p s (.done (s.coded p true b)) (b.bits p true) :=
          ⟨by omega, true, b, by omega, rfl, rfl⟩
        have hrun := Runs.done hturn
        simpa [Stream.coded, locateCoded, codedBits, codedLiterals] using hrun
      | cons c bs =>
        have hturn : BlockTurn p s (.next (s.coded p false b)) (b.bits p false) :=
          ⟨by omega, false, b, by omega, rfl, rfl⟩
        have hrest := ih (p := p + (b.bits p false).length) (s := s.coded p false b) (List.cons_ne_nil c bs)
          (by simp only [Stream.coded, List.length_append, List.length_singleton]; omega)
          (by simp only [Stream.coded]; omega)
        have hrun := Runs.next hturn hrest
        simpa [Stream.coded, locateCoded, codedBits, codedLiterals, Nat.add_assoc, Bool.or_assoc] using hrun

theorem parseDeflateStream_recognizes (blocks : List CompressedBlock) (total : Nat) :
    Recognizes (bitView data) p (parseDeflateStream blocks total) fun r w => ∃ bs : List CodedBlock, bs ≠ [] ∧
      blocks.length + bs.length ≤ maxDeflateBlocksPerMember ∧ total + codedLiterals bs ≤ maxTotalLiterals ∧
      r = ⟨blocks ++ locateCoded p bs, total + codedLiterals bs, bs.any CodedBlock.hasMatch⟩ ∧ w = codedBits p bs := by
  have hloop : Recognizes (bitView data) p (loop streamTurn (maxDeflateBlocksPerMember + 1) ⟨blocks, total, false⟩)
      (Runs BlockTurn p ⟨blocks, total, false⟩) := by
    refine Recognizes.loop (I := fun _ _ => True) (μ := fun s => maxDeflateBlocksPerMember - s.blocks.length)
      (fun p s _ => streamTurn_recognizes s) ?_ _ trivial (by simp only; omega)
    rintro q s y w - ⟨hroom, final, b, -, -, hturn⟩
    cases final with
    | true => cases hturn
    | false =>
      cases hturn
      simp only [Stream.coded, List.length_append, List.length_singleton, true_and]
      omega
  refine hloop.congr fun r w => ?_
  rw [blockRuns_iff]
  simp only [Bool.false_or]

end

end Ziftsieve.Gzip
