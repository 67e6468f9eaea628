import Ziftsieve.Zstd
import Ziftsieve.ZstdHuffmanSafe

/-!
# Zstd parsing never panics

Whatever the bytes, extraction ends in blocks or in an error. The bounds of the
walk are checked where it reads; the literals of a block rest on the tables that
their weights and probabilities complete.
-/

namespace Ziftsieve.Zstd

/-! ## The literals section -/

theorem okOrInvalid_safe {α : Type} {x : Opt α} {Q : α → Prop} (h : Safe x Q) (offset : Nat) (reason : String) :
    Safe (okOrInvalid x offset reason) Q := by
  cases x with
  | ok a => exact Safe.ok (h.post a rfl)
  | error s =>
    obtain ⟨e, rfl⟩ := h.graceful s rfl
    exact Safe.fail _

theorem readRawRleSize_safe (header : UInt8) (data : Bytes) : Safe (readRawRleSize header data) fun _ => True := by
  have hcode := toNat_and_lt (header >>> 2) (by decide : (0x03 : UInt8).toNat < 4)
  unfold readRawRleSize
  generalize ((header >>> 2) &&& 0x03).toNat = code at hcode
  obtain rfl | rfl | rfl | rfl : code = 0 ∨ code = 1 ∨ code = 2 ∨ code = 3 := by omega
  · exact Safe.pure trivial
  · refine Safe.failIf fun hlen => ?_
    exact (readLe16_safe (by omega)).bind fun le16 _ => Safe.pure trivial
  · exact Safe.pure trivial
  · exact Safe.failIf fun hlen => index3_safe (by omega) fun b0 b1 b2 => Safe.pure trivial

theorem readCompressedSize_safe (header : UInt8) (data : Bytes) :
    Safe (readCompressedSize header data) fun _ => True := by
  have hcode := toNat_and_lt (header >>> 2) (by decide : (0x03 : UInt8).toNat < 4)
  unfold readCompressedSize
  generalize ((header >>> 2) &&& 0x03).toNat = code at hcode
  obtain rfl | rfl | rfl | rfl : code = 0 ∨ code = 1 ∨ code = 2 ∨ code = 3 := by omega
  · exact Safe.failIf fun hlen => index3_safe (by omega) fun b0 b1 b2 => Safe.pure trivial
  · exact Safe.failIf fun hlen => index3_safe (by omega) fun b0 b1 b2 => Safe.pure trivial
  · refine Safe.failIf fun hlen => ?_
    exact (readLe32_safe (by omega)).bind fun le32 _ => Safe.pure trivial
  · refine Safe.failIf fun hlen => (readLe32_safe (by omega)).bind fun le32 _ => ?_
    exact (index_safe (by omega)).bind fun b4 _ => Safe.pure trivial

theorem extractLiteralsFromBlock_safe (data : Bytes) : Safe (extractLiteralsFromBlock data) fun _ => True := by
  unfold extractLiteralsFromBlock
  refine Safe.ite (fun _ => Safe.pure trivial) fun hne => ?_
  refine (index_safe (List.length_pos_of_ne_nil hne)).bind fun lsHeader _ => ?_
  have htype := toNat_and_lt lsHeader (by decide : (0x03 : UInt8).toNat < 4)
  dsimp only
  generalize (lsHeader &&& 0x03).toNat = lsType at htype
  obtain rfl | rfl | rfl | rfl : lsType = 0 ∨ lsType = 1 ∨ lsType = 2 ∨ lsType = 3 := by omega
  · -- raw
    refine (readRawRleSize_safe lsHeader data).bind fun r _ => Safe.failIf fun hend => ?_
    exact (slice_safe ⟨Nat.le_add_right _ _, by omega⟩).imp fun _ _ => trivial
  · -- run-length
    refine (readRawRleSize_safe lsHeader data).bind fun r _ => Safe.failIf fun hend => ?_
    exact (index_safe (by omega)).bind fun byte _ => Safe.pure trivial
  · -- compressed
    refine (readCompressedSize_safe lsHeader data).bind fun r _ => Safe.ite (fun _ => ?_) fun _ => ?_
    · refine Safe.failIf fun hend => ?_
      exact (slice_safe ⟨Nat.le_add_right _ _, by omega⟩).imp fun _ _ => trivial
    · refine Safe.failIf fun hend => (slice_safe ⟨Nat.le_add_right _ _, by omega⟩).bind fun compressed _ => ?_
      exact okOrInvalid_safe (decodeLiterals_safe _ _ _) _ _
  · exact Safe.fail _

/-! ## Frame headers -/

section
variable {data : Bytes} {pos : Nat}

theorem skipField_safe (size : Nat) (reason : String) :
    Safe (skipField data pos size reason) fun pos' => pos ≤ pos' ∧ pos' ≤ data.length := by
  unfold skipField
  exact Safe.failIf fun hend => Safe.pure ⟨Nat.le_add_right _ _, Nat.le_of_not_lt hend⟩

theorem skipDictId_safe (hpos : pos ≤ data.length) {dictIdFlag : Nat} (hflag : dictIdFlag < 4) :
    Safe (skipDictId data pos dictIdFlag) fun pos' => pos ≤ pos' ∧ pos' ≤ data.length := by
  obtain rfl | rfl | rfl | rfl : dictIdFlag = 0 ∨ dictIdFlag = 1 ∨ dictIdFlag = 2 ∨ dictIdFlag = 3 := by omega
  · exact Safe.pure ⟨Nat.le_refl _, hpos⟩
  · exact skipField_safe 1 _
  · exact skipField_safe 2 _
  · exact skipField_safe 4 _

theorem frameContentSizeSize_safe {fcsId : Nat} (hid : fcsId < 4) (singleSegment : Nat) :
    Safe (frameContentSizeSize fcsId singleSegment) fun _ => True := by
  obtain rfl | rfl | rfl | rfl : fcsId = 0 ∨ fcsId = 1 ∨ fcsId = 2 ∨ fcsId = 3 := by omega
  · exact Safe.pure trivial
  · exact Safe.pure trivial
  · exact Safe.pure trivial
  · exact Safe.pure trivial

theorem parseStandardFrameHeader_safe (data : Bytes) (pos : Nat) :
    Safe (parseStandardFrameHeader data pos) fun r => pos < r.2 ∧ r.2 ≤ data.length := by
  unfold parseStandardFrameHeader
  refine Safe.failIf fun hlen => (index_safe (Nat.lt_of_not_le hlen)).bind fun fhDesc _ => Safe.failIf fun _ => ?_
  refine Safe.bind (Q := fun pos' => pos + 4 + 1 ≤ pos' ∧ pos' ≤ data.length) ?_ fun p hp => ?_
  · refine Safe.ite (fun _ => skipField_safe 1 _) fun _ => Safe.pure ⟨Nat.le_refl _, by omega⟩
  refine (skipDictId_safe hp.2 (toNat_and_lt _ (by decide))).bind fun q hq => ?_
  refine (frameContentSizeSize_safe (toNat_and_lt _ (by decide)) _).bind fun fcsSize _ => ?_
  exact (skipField_safe fcsSize _).bind fun r hr => Safe.pure ⟨by simp only; omega, hr.2⟩

/-- A skippable frame counts, and no more than three do. -/
theorem headerTurn_safe {s : HeaderScan} (hs : pos ≤ s.pos ∧ s.pos ≤ data.length) :
    Safe (headerTurn data pos s) (Turn.Holds
      (fun t => (pos ≤ t.pos ∧ t.pos ≤ data.length) ∧ 3 - t.iterations < 3 - s.iterations)
      fun r => r.1.isSome → pos < r.2 ∧ r.2 ≤ data.length) := by
  obtain ⟨hge, hle⟩ := hs
  have hnone : ∀ p, Turn.Holds (fun t : HeaderScan => (pos ≤ t.pos ∧ t.pos ≤ data.length) ∧
      3 - t.iterations < 3 - s.iterations) (fun r => r.1.isSome → pos < r.2 ∧ r.2 ≤ data.length)
      (.done ((none : Option FrameHeader), p)) := fun _ h => nomatch h
  unfold headerTurn
  refine Safe.failIf fun hmany => Safe.ite (fun _ => Safe.pure (hnone _)) fun hne => ?_
  refine Safe.ite (fun _ => Safe.ite (fun _ => Safe.pure (hnone _)) fun _ => Safe.fail _) fun hend => ?_
  refine (slice_safe (by omega)).bind fun magic _ => Safe.ite (fun _ => ?_) fun _ => ?_
  · refine (parseStandardFrameHeader_safe data s.pos).bind fun r hr => Safe.pure ?_
    exact fun _ => ⟨Nat.lt_of_le_of_lt hge hr.1, hr.2⟩
  · refine index3_safe (by omega) fun b0 b1 b2 => ?_
    refine (index_safe (by omega)).bind fun b3 _ => Safe.ite (fun _ => ?_) fun _ => ?_
    · refine Safe.failIf fun hheader => (readLe32_safe (by omega)).bind fun frameSize _ => ?_
      refine Safe.failIf fun hframe => Safe.pure ⟨⟨by simp only; omega, Nat.le_of_not_lt hframe⟩, ?_⟩
      simp only
      omega
    · exact Safe.ite (fun _ => Safe.pure (hnone _)) fun _ => Safe.fail _

theorem parseFrameHeader_safe (hpos : pos ≤ data.length) :
    Safe (parseFrameHeader data pos) fun r => r.1.isSome → pos < r.2 ∧ r.2 ≤ data.length := by
  unfold parseFrameHeader
  refine Safe.failIf fun _ => ?_
  exact Safe.loop (I := fun s : HeaderScan => pos ≤ s.pos ∧ s.pos ≤ data.length) (μ := fun s => 3 - s.iterations)
    (fun s hs => headerTurn_safe hs) 4 ⟨pos, 0⟩ ⟨Nat.le_refl _, hpos⟩ (Nat.lt_succ_self 3)

/-! ## Blocks -/

theorem blockContent_safe (blockType : BlockType) (blockSize : Nat) (blockData : Bytes) (pos : Nat) :
    Safe (blockContent blockType blockSize blockData pos) fun _ => True := by
  cases blockType with
  | raw => exact Safe.pure trivial
  | rle =>
    cases blockData with
    | nil => exact Safe.pure trivial
    | cons b _ => exact Safe.pure trivial
  | compressed => exact (extractLiteralsFromBlock_safe blockData).bind fun literals _ => Safe.pure trivial
  | reserved => exact Safe.fail _

theorem parseBlock_safe (data : Bytes) (pos : Nat) :
    Safe (parseBlock data pos) fun p => pos < p.pos ∧ p.pos ≤ data.length := by
  unfold parseBlock
  refine Safe.failIf fun hheader => index3_safe (by omega) fun b0 b1 b2 => ?_
  dsimp only
  cases BlockType.fromU8 ((b0 >>> 1) &&& 0x03).toNat with
  | none => exact Safe.fail _
  | some blockType =>
    refine Safe.failIf fun _ => Safe.failIf fun hend => ?_
    refine (slice_safe ⟨Nat.le_add_right _ _, Nat.le_of_not_lt hend⟩).bind fun blockData _ => ?_
    refine (blockContent_safe _ _ _ _).bind fun r _ => Safe.pure ⟨?_, Nat.le_of_not_lt hend⟩
    simp only
    omega

/-! ## The stream -/

/-- A block takes its header, so the walk goes on. -/
theorem blockTurn_safe {s : Frames} (hs : pos ≤ s.pos ∧ s.pos ≤ data.length) :
    Safe (blockTurn data s) (Turn.Holds
      (fun t => (pos ≤ t.pos ∧ t.pos ≤ data.length) ∧ data.length - t.pos < data.length - s.pos)
      fun t => pos ≤ t.pos ∧ t.pos ≤ data.length) := by
  unfold blockTurn
  refine (parseBlock_safe data s.pos).bind fun p hp => Safe.failIf fun _ => Safe.failIf fun _ => ?_
  have hnext : pos ≤ p.pos ∧ p.pos ≤ data.length := ⟨by omega, hp.2⟩
  refine Safe.ite (fun _ => Safe.pure hnext) fun _ => Safe.failIf fun _ => Safe.pure ⟨hnext, ?_⟩
  simp only
  omega

theorem frameTurn_safe {s : Frames} (hs : s.pos ≤ data.length) :
    Safe (frameTurn data s) (Turn.Holds
      (fun t => t.pos ≤ data.length ∧ data.length - t.pos < data.length - s.pos) fun _ => True) := by
  unfold frameTurn
  refine Safe.ite (fun hmore => ?_) fun _ => Safe.pure trivial
  refine Safe.failIf fun _ => (parseFrameHeader_safe hs).bind fun r hr => ?_
  obtain ⟨header, pos⟩ := r
  cases header with
  | none => exact Safe.pure trivial
  | some header =>
    obtain ⟨hgt, hle⟩ := hr rfl
    simp only at hgt hle ⊢
    refine Safe.bind (Q := fun t => pos ≤ t.pos ∧ t.pos ≤ data.length) ?_ fun t ht => ?_
    · exact Safe.loop (I := fun t : Frames => pos ≤ t.pos ∧ t.pos ≤ data.length) (μ := fun t => data.length - t.pos)
        (fun t ht => blockTurn_safe ht) _ _ ⟨Nat.le_refl _, hle⟩ (Nat.lt_succ_of_le (Nat.sub_le _ _))
    · refine Safe.ite (fun _ => Safe.failIf fun hsum => Safe.pure ⟨Nat.le_of_not_lt hsum, ?_⟩) fun _ => Safe.pure ⟨ht.2, ?_⟩
      · simp only
        omega
      · omega

end

theorem extractLiterals_graceful (data : Bytes) : Graceful (extractLiterals data) := by
  unfold extractLiterals
  refine Graceful.ite (fun _ => Graceful.fail _) fun _ => ?_
  refine Safe.graceful (Q := fun _ => True) ?_
  exact Safe.loop (I := fun s : Frames => s.pos ≤ data.length) (μ := fun s => data.length - s.pos)
    (fun s hs => frameTurn_safe hs) _ _ (Nat.zero_le _) (Nat.lt_succ_of_le (Nat.sub_le _ _))

/-- **Extraction ends**, in blocks or in an error, whatever the bytes. -/
theorem extractLiterals_ends (data : Bytes) : Graceful (extractLiterals data) := extractLiterals_graceful data

end Ziftsieve.Zstd
