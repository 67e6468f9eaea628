import Ziftsieve.IndexSound
import Ziftsieve.Lz4StreamSound

/-!
# The literal view and the decompressed data

An index over an LZ4 stream sees each block's literals, one run after the other
without the matches between them. Byte by byte that is the decompressed data.
Longer patterns can be in one and not in the other: which of them `verify_contains`
and the pre-filter get right is told exactly.
-/

namespace Ziftsieve.Lz4

def rawBlock (b : Block) : Bytes := encodeBlocks [.compressed b]

section
variable {b : Block}

theorem sized_block (h : b.encode.length ≤ maxBlockSize) : (StreamBlock.compressed b).Sized := by
  refine ⟨?_, h⟩
  simp only [StreamBlock.size, StreamBlock.payload, Block.encode, encodeRun, List.length_append, List.length_cons]
  omega

theorem totalLiterals_block (h : b.encode.length ≤ maxBlockSize) :
    totalLiterals [.compressed b] ≤ maxTotalLiterals := by
  have hlit := length_literals_le b
  simp only [totalLiterals, List.map_cons, List.map_nil, List.sum_cons, List.sum_nil, StreamBlock.literals]
  unfold maxTotalLiterals
  unfold maxBlockSize at h
  omega

theorem parse_rawBlock (hlen : b.encode.length ≤ maxBlockSize) (ha : b.Accepted) :
    parseLz4Blocks (rawBlock b) = .ok [⟨0, b.encode.length, none, b.literals⟩] := by
  have h := parse_raw_ok [.compressed b] [] (by simp) (Nat.succ_lt_succ (Nat.zero_lt_succ _))
    (List.forall_mem_cons.mpr ⟨⟨sized_block hlen, ha⟩, by simp⟩) (totalLiterals_block hlen) (Or.inl (by decide))
  rw [List.append_nil] at h
  exact h

theorem parseFrameHeader_framed {data : Bytes} {offset : Nat} (hm : data.take 4 = lz4FrameMagic)
    (h : parseFrameHeader data = .ok offset) : 7 ≤ offset := by
  have hlen : 4 ≤ data.length := by
    have := congrArg List.length hm
    rw [List.length_take] at this
    simp only [lz4FrameMagic, List.length_cons, List.length_nil] at this; omega
  unfold parseFrameHeader at h
  rw [if_neg (by rintro rfl; simp at hlen), if_neg (by rw [hm]; exact not_or.mpr ⟨by omega, fun h => h rfl⟩)] at h
  simp only [Run.bind_eq_ok] at h
  obtain ⟨_, _, flg, _, _, _, _, _, h⟩ := h
  cases h
  split <;> split <;> omega

/-- Of the blocks reported, the one at the stream's start is the block, and only
a block within the limits is reported. -/
theorem parse_rawBlock_inv (hlen : b.encode.length < 2 ^ 31) {blocks : List CompressedBlock} {c : CompressedBlock}
    (h : parseLz4Blocks (rawBlock b) = .ok blocks) (hc : c ∈ blocks) (h0 : c.compressedOffset = 0) :
    b.encode.length ≤ maxBlockSize ∧ b.Accepted ∧ blocks = [⟨0, b.encode.length, none, b.literals⟩] := by
  have hraw : rawBlock b = (StreamBlock.compressed b).encode ++ [] := by
    unfold rawBlock encodeBlocks
    rw [List.map_singleton, List.flatten_singleton, List.append_nil]
  have hne : rawBlock b ≠ [] := by rw [hraw]; exact encode_ne_nil _ _
  have hat : At (rawBlock b) 0 ((StreamBlock.compressed b).encode ++ []) := by rw [← hraw]; exact At.start _
  by_cases hm : (rawBlock b).take 4 = lz4FrameMagic
  · cases hx : parseFrameHeader (rawBlock b) with
    | error e =>
      unfold parseLz4Blocks at h
      rw [if_neg hne, hx] at h
      cases h
    | ok offset =>
      rw [parseLz4Blocks_eq hne hx] at h
      have h7 := parseFrameHeader_framed hm hx
      have := walk_offsets h c hc
      omega
  · rw [parseLz4Blocks_eq hne (parseFrameHeader_raw hne hm)] at h
    rcases loop_ok_iff.mp h with hd | ⟨t, ht, _⟩
    · rcases walkTurn_inv hd with hd | ⟨_, _, _, _, _, hd⟩
      · cases hd; cases hc
      · cases hd
    · have hle : b.encode.length ≤ maxBlockSize := by
        rw [StreamBlock.encode, List.append_assoc] at hat
        have hsize : (StreamBlock.compressed b).size < 2 ^ 31 := hlen
        rw [walkTurn_word (w := ⟨0, [], 0⟩) (Nat.zero_lt_succ _) (StreamBlock.headerWord_lt hsize) hat,
          StreamBlock.headerWord_low hsize] at ht
        split at ht
        · cases ht
        · obtain ⟨w, hw, _⟩ := Run.bind_eq_ok.mp ht
          exact (walkBlock_inv hw).1
      have ha : b.Accepted := accepted_of_walkTurn (w := ⟨0, [], 0⟩) (sized_block hle) (Nat.zero_lt_succ _) hat ht
      rw [← parseLz4Blocks_eq hne (parseFrameHeader_raw hne hm), parse_rawBlock hle ha] at h
      exact ⟨hle, ha, (Except.ok.inj h).symm⟩

theorem build_rawBlock {ext : External} {cfg : CompressedIndexBuilder} (hf : cfg.format = .lz4)
    (hlen : b.encode.length ≤ maxBlockSize) (ha : b.Accepted) :
    cfg.buildFromBytes ext (rawBlock b) =
      .ok ⟨cfg.format, [cfg.buildBlockWithBloom ext ⟨0, b.encode.length, none, b.literals⟩ 1]⟩ := by
  have hx : extractFromBytes ext cfg.format (rawBlock b) = .ok [⟨0, b.encode.length, none, b.literals⟩] := by
    rw [hf]; exact parse_rawBlock hlen ha
  rw [CompressedIndexBuilder.buildFromBytes_eq hx]
  rfl

theorem build_rawBlock_inv {ext : External} {cfg : CompressedIndexBuilder} (hf : cfg.format = .lz4)
    (hlen : b.encode.length < 2 ^ 31) {idx : CompressedIndex} (h : cfg.buildFromBytes ext (rawBlock b) = .ok idx)
    {i : Nat} {c : CompressedBlock} (hc : idx.getBlock i = some c) (h0 : c.compressedOffset = 0) :
    b.encode.length ≤ maxBlockSize ∧ b.Accepted := by
  unfold CompressedIndexBuilder.buildFromBytes at h
  obtain ⟨blocks, hblocks, h⟩ := Run.bind_eq_ok.mp h
  cases h
  rw [hf] at hblocks
  obtain ⟨bb, hbb, rfl⟩ := Option.map_eq_some_iff.mp hc
  obtain ⟨block, hmem, rfl⟩ := List.mem_map.mp (List.mem_of_getElem? hbb)
  obtain ⟨hle, ha, _⟩ := parse_rawBlock_inv hlen hblocks hmem h0
  exact ⟨hle, ha⟩

end

/-! ## Bytes -/

theorem mem_decompress (b : Block) (x : UInt8) : x ∈ b.decompress ↔ x ∈ b.literals := by
  unfold Block.decompress Block.literals
  rw [List.mem_append, List.mem_append, Lz77.mem_expand, List.map_map]
  simp [Function.comp_def]

/-- **The literal view is exact on bytes.** -/
theorem singleByte_kept {ext : External} (b : SelfContained) (hlen : b.encode.length ≤ maxBlockSize)
    (hb : b.WithinLimits) :
    ∃ c, parseLz4Blocks (rawBlock b.toBlock) = .ok [c] ∧ (∀ x, x ∈ b.decompress ↔ x ∈ c.literals) ∧
      ∀ cfg : CompressedIndexBuilder, cfg.format = .lz4 → ∃ idx, cfg.buildFromBytes ext (rawBlock b.toBlock) = .ok idx ∧
        idx.getBlock 0 = some c ∧ ∀ x ∈ b.decompress, 0 ∈ idx.candidateBlocks ext [x] := by
  refine ⟨_, parse_rawBlock hlen hb.accepted, mem_decompress b.toBlock, ?_⟩
  intro cfg hf
  refine ⟨_, build_rawBlock hf hlen hb.accepted, rfl, ?_⟩
  intro x hmem
  refine CompressedIndex.mem_candidateBlocks.mpr ⟨_, rfl, Or.inr ?_⟩
  exact mightContain_of_occurs (cfg.built _ _) (by simp)
    ((List.singleton_infix_iff ..).mpr ((mem_decompress b.toBlock x).mp hmem))

/-- `a`, four copies of it, and `b`. -/
def aRunContained : SelfContained := ⟨aRun, by simp [aRun, Lz77.Reaches]⟩

theorem singleByte_kept_aRun :
    ∃ c, parseLz4Blocks (rawBlock aRun) = .ok [c] ∧ (∀ x, x ∈ aRun.decompress ↔ x ∈ c.literals) ∧
      ∀ cfg : CompressedIndexBuilder, cfg.format = .lz4 → ∃ idx, cfg.buildFromBytes .fnvOnly (rawBlock aRun) = .ok idx ∧
        idx.getBlock 0 = some c ∧ ∀ x ∈ aRun.decompress, 0 ∈ idx.candidateBlocks .fnvOnly [x] :=
  singleByte_kept aRunContained (by decide) aRun_withinLimits

/-! ## Verification -/

/-- **`verify_contains` against the decompressed data.** Every pattern it finds in the
block is one of the decompressed data's exactly when the block's literals, taken
together, are. -/
theorem verifyContains_sound_iff (b : SelfContained) (hlen : b.encode.length < 2 ^ 31) {blocks : List CompressedBlock}
    {c : CompressedBlock} (h : parseLz4Blocks (rawBlock b.toBlock) = .ok blocks) (hc : c ∈ blocks)
    (h0 : c.compressedOffset = 0) :
    (∀ pattern, c.verifyContains pattern = true → pattern <:+: b.decompress) ↔ b.literals <:+: b.decompress := by
  obtain ⟨_, _, rfl⟩ := parse_rawBlock_inv hlen h hc h0
  rw [List.mem_singleton] at hc
  subst hc
  simp only [verifyContains_iff]
  constructor
  · exact fun hp => hp _ (List.infix_refl _)
  · exact fun hb pattern hp => hp.trans hb

theorem verifyContains_sound_aRun :
    (∀ pattern, CompressedBlock.verifyContains ⟨0, 6, none, [0x61, 0x62]⟩ pattern = true →
      pattern <:+: aRun.decompress) ↔ aRun.literals <:+: aRun.decompress :=
  verifyContains_sound_iff aRunContained (by decide)
    (show parseLz4Blocks (rawBlock aRun) = .ok [⟨0, 6, none, [0x61, 0x62]⟩] by decide) (List.mem_singleton.mpr rfl) rfl

/-- `ab`, five bytes copied from two back, and `cd`. -/
def abRun : SelfContained :=
  ⟨⟨[⟨⟨[0x61, 0x62], 2, 5⟩, by decide, by decide⟩], [0x63, 0x64]⟩, by simp [Lz77.Reaches]⟩

theorem verifyContains_abRun : ∃ c, parseLz4Blocks (rawBlock abRun.toBlock) = .ok [c] ∧
    c.verifyContains [0x62, 0x63] = true ∧ ¬ [0x62, 0x63] <:+: abRun.decompress :=
  ⟨⟨0, 8, none, [0x61, 0x62, 0x63, 0x64]⟩, by decide, by decide, by decide⟩

/-! ## The pre-filter -/

def KeepsBlock (ext : External) (cfg : CompressedIndexBuilder) (b : Block) (pattern : Bytes) : Prop :=
  ∃ idx, cfg.buildFromBytes ext (rawBlock b) = .ok idx ∧
    ∃ i ∈ idx.candidateBlocks ext pattern, ∃ c, idx.getBlock i = some c ∧ c.compressedOffset = 0

/-- The filter's answer for a pattern, told by hash positions alone: those of each of
the pattern's query windows are among those of the literals' windows. -/
def WindowsCovered (ext : External) (cfg : CompressedIndexBuilder) (literals pattern : Bytes) : Prop :=
  ∀ w ∈ queryWindows pattern,
    Covers ((cfg.emptyBloom literals.length 1).positions ext) (literalWindows literals) w

/-- The block is a candidate for a pattern exactly when the block is within the parser's limits and
every query window of the pattern hits only positions of windows of the literals. -/
theorem keepsBlock_covered_iff {ext : External} {cfg : CompressedIndexBuilder} (hf : cfg.format = .lz4) {b : Block}
    (hlen : b.encode.length < 2 ^ 31) {pattern : Bytes} (hne : pattern ≠ []) :
    KeepsBlock ext cfg b pattern ↔
      b.encode.length ≤ maxBlockSize ∧ b.Accepted ∧ WindowsCovered ext cfg b.literals pattern := by
  have hwindows : ∀ i, i ∈ CompressedIndex.candidateBlocks ext
      ⟨cfg.format, [cfg.buildBlockWithBloom ext ⟨0, b.encode.length, none, b.literals⟩ 1]⟩ pattern ↔
      i = 0 ∧ WindowsCovered ext cfg b.literals pattern := by
    intro i
    have hpos : ((cfg.buildBlockWithBloom ext ⟨0, b.encode.length, none, b.literals⟩ 1).bloom).positions ext =
        (cfg.emptyBloom b.literals.length 1).positions ext := insertLiterals_positions _ _
    have hbuilt : (cfg.buildBlockWithBloom ext ⟨0, b.encode.length, none, b.literals⟩ 1).Built ext := cfg.built _ _
    have hquery := patternMightContain_iff hbuilt pattern
    rw [hpos] at hquery
    change _ ↔ WindowsCovered ext cfg b.literals pattern at hquery
    rw [CompressedIndex.mem_candidateBlocks]
    cases i with
    | zero => simpa [hne] using hquery
    | succ i => simp
  constructor
  · rintro ⟨idx, hidx, i, hi, c, hc, h0⟩
    obtain ⟨hle, ha⟩ := build_rawBlock_inv hf hlen hidx hc h0
    rw [build_rawBlock hf hle ha] at hidx
    cases hidx
    exact ⟨hle, ha, ((hwindows i).mp hi).2⟩
  · rintro ⟨hle, ha, hcov⟩
    exact ⟨_, build_rawBlock hf hle ha, 0, (hwindows 0).mpr ⟨rfl, hcov⟩, _, rfl, rfl⟩

/-- The windows of the pattern being windows of the literals is enough. -/
theorem keepsBlock_of_windows {ext : External} {cfg : CompressedIndexBuilder} (hf : cfg.format = .lz4) {b : Block}
    (hlen : b.encode.length ≤ maxBlockSize) (ha : b.Accepted) {pattern : Bytes} (hne : pattern ≠ [])
    (hwindows : ∀ w ∈ queryWindows pattern, w <:+: b.literals) : KeepsBlock ext cfg b pattern := by
  have hshort : b.encode.length < 2 ^ 31 := Nat.lt_of_le_of_lt hlen (by decide)
  refine (keepsBlock_covered_iff hf hshort hne).mpr ⟨hlen, ha, ?_⟩
  intro w hw
  obtain ⟨hpos, hle, -⟩ := queryWindows_sized hne hw
  exact covers_of_mem ⟨hpos, hle, hwindows w hw⟩

/-- **The pre-filter against the decompressed data.** The block of a pattern of its
decompressed data is a candidate exactly when the block is within the parser's limits
and every query window of the pattern hits only positions of windows of the literals. -/
theorem keepsBlock_iff {ext : External} {cfg : CompressedIndexBuilder} (hf : cfg.format = .lz4) (b : SelfContained)
    (hlen : b.encode.length < 2 ^ 31) {pattern : Bytes} (hne : pattern ≠ []) (_hocc : pattern <:+: b.decompress) :
    KeepsBlock ext cfg b.toBlock pattern ↔
      b.encode.length ≤ maxBlockSize ∧ b.Accepted ∧ WindowsCovered ext cfg b.literals pattern :=
  keepsBlock_covered_iff hf hlen hne

theorem keepsBlock_ab : KeepsBlock .fnvOnly smallFilter aRun [0x61, 0x62] :=
  (keepsBlock_iff rfl aRunContained (by decide) (by decide) (by decide)).mpr
    ⟨by decide, aRun_withinLimits.accepted, fun w hw =>
      covers_of_mem (queryWindows_subset (by decide) (List.infix_refl _) w hw)⟩

theorem keepsBlock_aa : [0x61, 0x61] <:+: aRun.decompress ∧ ¬ KeepsBlock .fnvOnly smallFilter aRun [0x61, 0x61] := by
  refine ⟨by decide, ?_⟩
  rintro ⟨idx, hidx, i, hi, _⟩
  rw [build_rawBlock rfl (by decide) aRun_withinLimits.accepted] at hidx
  cases hidx
  revert hi
  have hnone : CompressedIndex.candidateBlocks .fnvOnly ⟨smallFilter.format,
      [smallFilter.buildBlockWithBloom .fnvOnly ⟨0, aRun.encode.length, none, aRun.literals⟩ 1]⟩ [0x61, 0x61] = [] := by
    decide
  rw [hnone]
  exact List.not_mem_nil

end Ziftsieve.Lz4
