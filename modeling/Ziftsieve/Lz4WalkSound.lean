import Ziftsieve.Lz4Sound

/-!
# Soundness of the walk over a stream's blocks

One turn of the walk takes one encoded block, and reports it at the position of
its header. A run over a list of blocks is the turns one after the other; it
ends at a zero header word, at the end of the input, and, without a frame, at
a tail too short for a header. Whatever the input, the blocks a run reports are
those it had, and the next one stands where the run was.
-/

namespace Ziftsieve.Lz4

/-! ## Header words -/

theorem low31 (n : Nat) : n &&& 0x7FFFFFFF = n % 2 ^ 31 := Nat.and_two_pow_sub_one_eq_mod n 31

theorem and_two_pow_eq_zero {n k : Nat} (h : n < 2 ^ k) : n &&& 2 ^ k = 0 := by
  apply Nat.eq_of_testBit_eq
  intro i
  rw [Nat.testBit_and, Nat.zero_testBit, Nat.testBit_two_pow]
  by_cases hi : k = i
  · subst hi; rw [Nat.testBit_lt_two_pow h, Bool.false_and]
  · simp [hi]

theorem and_two_pow_ne_zero {n k : Nat} (h : 2 ^ k ≤ n) (hn : n < 2 ^ (k + 1)) : n &&& 2 ^ k ≠ 0 := by
  have hb : (n &&& 2 ^ k).testBit k = true := by
    rw [Nat.testBit_and, Nat.testBit_two_pow_self, Bool.and_true]
    exact Nat.testBit_of_two_pow_le_and_two_pow_add_one_gt h hn
  intro h0
  rw [h0, Nat.zero_testBit] at hb
  cases hb

theorem high31 {n : Nat} (h : n < 2 ^ 32) : (n &&& 0x80000000 ≠ 0) ↔ 2 ^ 31 ≤ n := by
  constructor
  · intro h0
    by_contra hn
    exact h0 (and_two_pow_eq_zero (Nat.lt_of_not_le hn))
  · exact fun hn => and_two_pow_ne_zero hn h

namespace StreamBlock
variable {b : StreamBlock}

theorem length_encode (b : StreamBlock) : b.encode.length = 4 + b.size := by
  rw [encode, List.length_append, length_toLe, size]

theorem headerWord_lt (h : b.size < 2 ^ 31) : b.headerWord < 2 ^ 32 := by
  unfold headerWord; split <;> omega

theorem headerWord_low (h : b.size < 2 ^ 31) : b.headerWord % 2 ^ 31 = b.size := by
  unfold headerWord; split <;> omega

theorem headerWord_high (h : b.size < 2 ^ 31) : decide (2 ^ 31 ≤ b.headerWord) = b.isStored := by
  unfold headerWord
  cases b.isStored
  · rw [if_neg (by decide)]; exact decide_eq_false (Nat.not_le_of_lt h)
  · rw [if_pos rfl]; exact decide_eq_true (Nat.le_add_left _ _)

theorem Sized.lt (h : b.Sized) : b.size < 2 ^ 31 := Nat.lt_of_le_of_lt h.le (by decide)

end StreamBlock

/-! ## One block -/

theorem length_literals_le (b : Block) : b.literals.length ≤ b.encode.length := by
  have hseqs : ∀ qs : List Seq, (qs.map (·.literals)).flatten.length ≤ (qs.map encodeSeq).flatten.length := by
    intro qs
    induction qs with
    | nil => exact Nat.le_refl _
    | cons q qs ih =>
      have hq : q.literals.length ≤ (encodeSeq q).length := by
        simp only [encodeSeq, encodeRun, List.length_append, List.length_cons]; omega
      simp only [List.map_cons, List.flatten_cons, List.length_append]; omega
  have hlast : b.last.length ≤ (encodeRun 0 b.last).length := by
    simp only [encodeRun, List.length_append, List.length_cons]; omega
  have := hseqs b.seqs
  unfold Block.literals Block.encode
  rw [List.length_append, List.length_append]; omega

theorem StreamBlock.length_literals_le : ∀ b : StreamBlock, b.literals.length ≤ b.size
  | stored _ => Nat.le_refl _
  | compressed b => Lz4.length_literals_le b

theorem blockLiterals_ok : ∀ {b : StreamBlock}, b.Accepted → b.size ≤ maxBlockSize →
    blockLiterals b.isStored b.payload = .ok b.literals
  | .stored _, _, _ => rfl
  | .compressed _, h, hl => extractLiterals_ok h hl

theorem accepted_of_blockLiterals : ∀ {b : StreamBlock} {lits : Bytes}, b.size ≤ maxBlockSize →
    blockLiterals b.isStored b.payload = .ok lits → b.Accepted
  | .stored _, _, _, _ => trivial
  | .compressed _, _, hl, h => accepted_of_extractLiterals hl h

section
variable {data rest : Bytes} {framed : Bool} {w : Walk}

theorem walkTurn_word {word : Nat} (hn : w.blocks.length < maxBlocksPerStream) (hw : word < 2 ^ 32)
    (h : At data w.offset (toLe 4 word ++ rest)) :
    walkTurn data framed w =
      if word % 2 ^ 31 = 0 then .ok (.done w.blocks)
      else (do
        let w ← walkBlock data w (decide (2 ^ 31 ≤ word)) (word % 2 ^ 31)
        pure (.next w)) := by
  have hl := h.length
  rw [List.length_append, length_toLe] at hl
  unfold walkTurn
  rw [if_pos (by omega), failIf_false _ (by omega), Run.ok_bind, if_neg (by omega), h.readLe32_toLe hw, Run.ok_bind]
  simp only [low31, high31 hw, Run.pure_eq]

theorem walkTurn_ne_done {word : Nat} {bs : List CompressedBlock} (hn : w.blocks.length < maxBlocksPerStream)
    (hw : word < 2 ^ 32) (hz : word % 2 ^ 31 ≠ 0) (h : At data w.offset (toLe 4 word ++ rest)) :
    walkTurn data framed w ≠ .ok (.done bs) := by
  rw [walkTurn_word hn hw h, if_neg hz]
  intro hd
  obtain ⟨_, _, hd⟩ := Run.bind_eq_ok.mp hd
  cases hd

theorem walkBlock_ok {b : StreamBlock} (hb : b.Sized) (ha : b.Accepted) (hpos : w.totalLiterals ≤ w.offset)
    (ht : w.totalLiterals + b.literals.length ≤ maxTotalLiterals) (h : At data w.offset (b.encode ++ rest)) :
    walkBlock data w b.isStored b.size =
      .ok ⟨w.offset + b.encode.length, w.blocks ++ [b.located w.offset], w.totalLiterals + b.literals.length⟩ := by
  have hl := h.length
  have hlit := b.length_literals_le
  rw [List.length_append, b.length_encode] at hl
  rw [StreamBlock.encode, List.append_assoc] at h
  have hp := h.skip
  rw [length_toLe] at hp
  unfold walkBlock
  rw [failIf_false _ (Nat.not_lt.mpr hb.le), Run.ok_bind]
  dsimp only
  rw [failIf_false _ (by omega), Run.ok_bind, hp.slice (j := w.offset + 4 + b.size) rfl, Run.ok_bind,
    blockLiterals_ok ha hb.le, Run.ok_bind,
    failIf_false _ (Nat.not_lt.mpr ht), Run.ok_bind,
    failIf_false _ (by unfold maxDecompressionRatio; omega), b.length_encode, ← Nat.add_assoc]
  rfl

theorem walkTurn_block {b : StreamBlock} (hb : b.Sized) (ha : b.Accepted) (hn : w.blocks.length < maxBlocksPerStream)
    (hpos : w.totalLiterals ≤ w.offset) (ht : w.totalLiterals + b.literals.length ≤ maxTotalLiterals)
    (h : At data w.offset (b.encode ++ rest)) :
    walkTurn data framed w = .ok (.next
      ⟨w.offset + b.encode.length, w.blocks ++ [b.located w.offset], w.totalLiterals + b.literals.length⟩) := by
  have hw := h
  rw [StreamBlock.encode, List.append_assoc] at hw
  have hne : b.size ≠ 0 := Nat.ne_of_gt hb.pos
  rw [walkTurn_word hn (StreamBlock.headerWord_lt hb.lt) hw, StreamBlock.headerWord_low hb.lt,
    StreamBlock.headerWord_high hb.lt, if_neg hne, walkBlock_ok hb ha hpos ht h]
  rfl

theorem walkBlock_inv {w' : Walk} {isUncompressed : Bool} {size : Nat}
    (h : walkBlock data w isUncompressed size = .ok w') :
    size ≤ maxBlockSize ∧ w'.offset = w.offset + 4 + size ∧ ∃ literals,
      blockLiterals isUncompressed ((data.drop (w.offset + 4)).take size) = .ok literals ∧
      w'.blocks = w.blocks ++ [{ CompressedBlock.new w.offset size with literals := literals }] := by
  unfold walkBlock at h
  simp only [Run.bind_eq_ok] at h
  obtain ⟨_, h1, _, h2, blockData, h3, literals, h4, _, _, _, _, h⟩ := h
  rw [failIf_eq_ok] at h1 h2
  unfold slice at h3
  rw [if_pos (by omega), Nat.add_sub_cancel_left] at h3
  cases h3
  cases h
  exact ⟨Nat.le_of_not_lt h1, rfl, literals, h4, rfl⟩

theorem accepted_of_walkTurn {b : StreamBlock} {t : Turn Walk (List CompressedBlock)} (hb : b.Sized)
    (hn : w.blocks.length < maxBlocksPerStream) (h : At data w.offset (b.encode ++ rest))
    (ht : walkTurn data framed w = .ok t) : b.Accepted := by
  rw [StreamBlock.encode, List.append_assoc] at h
  have hp := h.skip
  rw [length_toLe] at hp
  have hne : b.size ≠ 0 := Nat.ne_of_gt hb.pos
  rw [walkTurn_word hn (StreamBlock.headerWord_lt hb.lt) h, StreamBlock.headerWord_low hb.lt,
    StreamBlock.headerWord_high hb.lt, if_neg hne] at ht
  obtain ⟨w', hw, _⟩ := Run.bind_eq_ok.mp ht
  obtain ⟨_, _, literals, hlit, _⟩ := walkBlock_inv hw
  rw [hp.drop, StreamBlock.size, List.take_left] at hlit
  exact accepted_of_blockLiterals hb.le hlit

end

/-! ## The end of a stream -/

inductive Ends (framed : Bool) : Bytes → Prop
  | nil : Ends framed []
  | stray {rest : Bytes} : framed = false → rest.length < 4 → Ends framed rest
  | zero {word : Nat} {rest : Bytes} : word < 2 ^ 32 → word % 2 ^ 31 = 0 → Ends framed (toLe 4 word ++ rest)

theorem Ends.endMark {framed : Bool} {rest : Bytes} : Ends framed (endMark ++ rest) := .zero (by decide) rfl

theorem RawTail.ends {tail : Bytes} (h : RawTail tail) : Ends false tail := by
  rcases h with h | ⟨t, rfl⟩
  · exact .stray rfl h
  · exact .endMark

section
variable {data rest : Bytes} {framed : Bool} {w : Walk}

theorem walkTurn_end (he : Ends framed rest) (hn : w.blocks.length < maxBlocksPerStream) (h : At data w.offset rest) :
    walkTurn data framed w = .ok (.done w.blocks) := by
  cases he with
  | nil =>
    unfold walkTurn
    rw [h.eq_end, if_neg (Nat.lt_irrefl _)]
    rfl
  | stray hf hr =>
    have hl := h.length
    unfold walkTurn
    by_cases hlt : w.offset < data.length
    · rw [if_pos hlt, failIf_false _ (by omega), Run.ok_bind, if_pos (by omega), if_pos (Or.inr (by simp [hf]))]
      rfl
    · rw [if_neg hlt]
      rfl
  | zero hw hz => rw [walkTurn_word hn hw h, if_pos hz]

end

/-! ## Runs -/

theorem length_encodeBlocks : ∀ bs : List StreamBlock, bs.length ≤ (encodeBlocks bs).length
  | [] => Nat.le_refl _
  | b :: bs => by
    have := length_encodeBlocks bs
    have hb := b.length_encode
    unfold encodeBlocks at *
    rw [List.map_cons, List.flatten_cons, List.length_append, List.length_cons]; omega

section
variable {data rest : Bytes} {framed : Bool}

theorem walk_blocks (fuel : Nat) : ∀ {bs : List StreamBlock} {w : Walk},
    (∀ b ∈ bs, b.Sized ∧ b.Accepted) → w.blocks.length + bs.length ≤ maxBlocksPerStream →
    w.totalLiterals ≤ w.offset → w.totalLiterals + totalLiterals bs ≤ maxTotalLiterals →
    At data w.offset (encodeBlocks bs ++ rest) →
    loop (walkTurn data framed) (fuel + bs.length) w = loop (walkTurn data framed) fuel
      ⟨w.offset + (encodeBlocks bs).length, w.blocks ++ locate w.offset bs, w.totalLiterals + totalLiterals bs⟩
  | [], w, _, _, _, _, _ => by simp [encodeBlocks, locate, totalLiterals]
  | b :: bs, w, hb, hn, hpos, ht, h => by
    obtain ⟨hs, ha⟩ := hb b (List.mem_cons_self ..)
    have hlit := b.length_literals_le
    have hlen := b.length_encode
    unfold encodeBlocks at h
    rw [List.map_cons, List.flatten_cons, List.append_assoc] at h
    unfold totalLiterals at ht
    rw [List.map_cons, List.sum_cons] at ht
    rw [List.length_cons] at hn ⊢
    rw [← Nat.add_assoc, loop_next (walkTurn_block hs ha (by omega) hpos (by omega) h),
      walk_blocks fuel (fun b' h' => hb b' (List.mem_cons_of_mem _ h'))
        (by rw [List.length_append, List.length_singleton]; omega) (by dsimp only; omega)
        (by unfold totalLiterals; dsimp only; omega) h.skip]
    simp only [encodeBlocks, locate, totalLiterals, List.map_cons, List.flatten_cons, List.length_append, List.sum_cons,
      List.append_assoc, List.singleton_append, Nat.add_assoc]

theorem walk_ok {bs : List StreamBlock} {offset : Nat} (hb : ∀ b ∈ bs, b.Sized ∧ b.Accepted)
    (hn : bs.length < maxBlocksPerStream) (ht : totalLiterals bs ≤ maxTotalLiterals) (he : Ends framed rest)
    (h : At data offset (encodeBlocks bs ++ rest)) :
    loop (walkTurn data framed) (data.length + 1) ⟨offset, [], 0⟩ = .ok (locate offset bs) := by
  have hl := h.length
  have hbs := length_encodeBlocks bs
  rw [List.length_append] at hl
  obtain ⟨k, hk⟩ : ∃ k, data.length + 1 = k + 1 + bs.length := ⟨data.length - bs.length, by omega⟩
  have hlen : ∀ (bs : List StreamBlock) (offset : Nat), (locate offset bs).length = bs.length := by
    intro bs
    induction bs with
    | nil => exact fun _ => rfl
    | cons b bs ih => exact fun _ => by rw [locate, List.length_cons, ih, List.length_cons]
  rw [hk, walk_blocks (k + 1) (w := ⟨offset, [], 0⟩) hb (by simp only [List.length_nil]; omega) (Nat.zero_le _)
    (by simp only; omega) h, loop_done (walkTurn_end he (by simpa [hlen] using hn) h.skip)]
  rfl

end

section
variable {data rest : Bytes} {framed : Bool}

theorem walk_accepted : ∀ {bs : List StreamBlock} {fuel : Nat} {w : Walk} {r : List CompressedBlock},
    (∀ b ∈ bs, b.Sized) → w.blocks.length + bs.length ≤ maxBlocksPerStream →
    w.totalLiterals ≤ w.offset → w.totalLiterals + totalLiterals bs ≤ maxTotalLiterals →
    At data w.offset (encodeBlocks bs ++ rest) → loop (walkTurn data framed) fuel w = .ok r → ∀ b ∈ bs, b.Accepted
  | [], _, _, _, _, _, _, _, _, _ => by simp
  | _ :: _, 0, _, _, _, _, _, _, _, hr => by cases hr
  | b :: bs, fuel + 1, w, r, hb, hn, hpos, ht, h, hr => by
    have hs := hb b (List.mem_cons_self ..)
    have hlit := b.length_literals_le
    have hlen := b.length_encode
    unfold encodeBlocks at h
    rw [List.map_cons, List.flatten_cons, List.append_assoc] at h
    unfold totalLiterals at ht
    rw [List.map_cons, List.sum_cons] at ht
    rw [List.length_cons] at hn
    have ha : b.Accepted := by
      rcases loop_ok_iff.mp hr with hd | ⟨t, ht, _⟩
      · exact accepted_of_walkTurn hs (by omega) h hd
      · exact accepted_of_walkTurn hs (by omega) h ht
    rw [loop_next (walkTurn_block hs ha (by omega) hpos (by omega) h)] at hr
    have hrest := walk_accepted (fun b' h' => hb b' (List.mem_cons_of_mem _ h'))
      (by rw [List.length_append, List.length_singleton]; omega) (by dsimp only; omega)
      (by unfold totalLiterals; dsimp only; omega) h.skip hr
    intro b' h'
    rcases List.mem_cons.mp h' with rfl | h'
    · exact ha
    · exact hrest b' h'

end

/-! ## What a run can report -/

section
variable {data : Bytes} {framed : Bool} {w w' : Walk}

theorem walkTurn_inv {t : Turn Walk (List CompressedBlock)} (h : walkTurn data framed w = .ok t) :
    t = .done w.blocks ∨ ∃ isUncompressed size w', 0 < size ∧
      walkBlock data w isUncompressed size = .ok w' ∧ t = .next w' := by
  unfold walkTurn at h
  split at h
  · obtain ⟨_, _, h⟩ := Run.bind_eq_ok.mp h
    split at h
    · split at h
      · cases h; exact Or.inl rfl
      · cases h
    · obtain ⟨blockSize, _, h⟩ := Run.bind_eq_ok.mp h
      dsimp only at h
      split at h
      · cases h; exact Or.inl rfl
      · rename_i hsize
        obtain ⟨w', hw, h⟩ := Run.bind_eq_ok.mp h
        cases h; exact Or.inr ⟨_, _, w', Nat.pos_of_ne_zero hsize, hw, rfl⟩
  · cases h; exact Or.inl rfl

theorem walkTurn_next_inv (h : walkTurn data framed w = .ok (.next w')) :
    w.offset < w'.offset ∧ ∃ b, b.compressedOffset = w.offset ∧ w'.blocks = w.blocks ++ [b] := by
  rcases walkTurn_inv h with h | ⟨_, _, _, _, hb, h⟩
  · cases h
  · cases h
    obtain ⟨_, ho, _, _, hbs⟩ := walkBlock_inv hb
    exact ⟨by omega, _, rfl, hbs⟩

theorem walk_prefix {n : Nat} {r bs : List CompressedBlock} (hw : bs <+: w.blocks)
    (h : loop (walkTurn data framed) n w = .ok r) : bs <+: r := by
  refine loop_inv (I := fun w => bs <+: w.blocks) ?_ ?_ n w r hw h
  · intro s t hs ht
    obtain ⟨_, b, _, hb⟩ := walkTurn_next_inv ht
    rw [hb]; exact hs.trans (List.prefix_append _ _)
  · intro s r hs hr
    rcases walkTurn_inv hr with h | ⟨_, _, _, _, _, h⟩
    · cases h; exact hs
    · cases h

theorem walk_next {n : Nat} {r : List CompressedBlock} {bs : List CompressedBlock} (hw : w.blocks = bs)
    (hturn : walkTurn data framed w ≠ .ok (.done w.blocks))
    (h : loop (walkTurn data framed) (n + 1) w = .ok r) :
    ∃ b, b.compressedOffset = w.offset ∧ bs ++ [b] <+: r := by
  rcases loop_ok_iff.mp h with hd | ⟨t, ht, h⟩
  · rcases walkTurn_inv hd with hd' | ⟨_, _, _, _, _, h⟩
    · cases hd'; exact absurd hd hturn
    · cases h
  · obtain ⟨_, b, hb, hbs⟩ := walkTurn_next_inv ht
    refine ⟨b, hb, walk_prefix ?_ h⟩
    rw [hbs, hw]

theorem walk_offsets {n offset : Nat} {r : List CompressedBlock}
    (h : loop (walkTurn data framed) n ⟨offset, [], 0⟩ = .ok r) : ∀ b ∈ r, offset ≤ b.compressedOffset := by
  refine loop_inv (I := fun w => offset ≤ w.offset ∧ ∀ b ∈ w.blocks, offset ≤ b.compressedOffset)
    (Q := fun r => ∀ b ∈ r, offset ≤ b.compressedOffset) ?_ ?_ n _ r ⟨Nat.le_refl _, by simp⟩ h
  · intro s t hs ht
    obtain ⟨hlt, b, hb, hbs⟩ := walkTurn_next_inv ht
    refine ⟨by omega, ?_⟩
    intro c hc
    rw [hbs, List.mem_append, List.mem_singleton] at hc
    rcases hc with hc | rfl
    · exact hs.2 c hc
    · omega
  · intro s r hs hr
    rcases walkTurn_inv hr with h | ⟨_, _, _, _, _, h⟩
    · cases h; exact hs.2
    · cases h

end

end Ziftsieve.Lz4
