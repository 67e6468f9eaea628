import Ziftsieve.BloomSound
import Ziftsieve.Index

/-!
# Soundness of the pre-filter

Every filter an index holds is an empty one with the windows of one to four
bytes of its block's literals inserted. A pattern's query windows are windows
of the literals when the pattern occurs in them, so the pre-filter keeps the
block, whatever the filter's size.
-/

namespace Ziftsieve

/-! ## What goes into a filter -/

def literalWindows (literals : Bytes) : Set Bytes := {w | 1 ≤ w.length ∧ w.length ≤ 4 ∧ w <:+: literals}

theorem mem_literalWindows {literals w : Bytes} :
    w ∈ literalWindows literals ↔ 1 ≤ w.length ∧ w.length ≤ 4 ∧ w <:+: literals := Iff.rfl

theorem inserted_eq (literals : Bytes) :
    ({x | x ∈ windows 4 literals} ∪ {x | x ∈ windows 3 literals} ∪ {x | x ∈ windows 2 literals} ∪
      {x | x ∈ literals.map fun byte => [byte]}) = literalWindows literals := by
  have hmem : ∀ (l : List Bytes) (w : Bytes), w ∈ {x | x ∈ l} ↔ w ∈ l := fun _ _ => Iff.rfl
  ext w
  rw [Set.mem_union, Set.mem_union, Set.mem_union, hmem, hmem, hmem, hmem, mem_windows, mem_windows, mem_windows,
    mem_literalWindows, List.mem_map]
  constructor
  · rintro (((⟨h, hi⟩ | ⟨h, hi⟩) | ⟨h, hi⟩) | ⟨b, hb, rfl⟩)
    · exact ⟨by omega, by omega, hi⟩
    · exact ⟨by omega, by omega, hi⟩
    · exact ⟨by omega, by omega, hi⟩
    · exact ⟨Nat.le_refl _, by simp, (List.singleton_infix_iff ..).mpr hb⟩
  · rintro ⟨h1, h4, hi⟩
    obtain h | h | h | h : w.length = 1 ∨ w.length = 2 ∨ w.length = 3 ∨ w.length = 4 := by omega
    · obtain ⟨b, rfl⟩ := List.length_eq_one_iff.mp h
      exact Or.inr ⟨b, (List.singleton_infix_iff ..).mp hi, rfl⟩
    · exact Or.inl (Or.inr ⟨h, hi⟩)
    · exact Or.inl (Or.inl (Or.inr ⟨h, hi⟩))
    · exact Or.inl (Or.inl (Or.inl ⟨h, hi⟩))

variable {ext : External}

theorem insertLiterals_positions (f : BloomFilter) (literals : Bytes) :
    (insertLiterals ext f literals).positions ext = f.positions ext := by
  unfold insertLiterals
  rw [← List.foldl_map, (BloomFilter.insertAll _ _).1, (BloomFilter.insertAll _ _).1, (BloomFilter.insertAll _ _).1,
    (BloomFilter.insertAll _ _).1]

theorem insertLiterals_setBits (f : BloomFilter) (literals : Bytes) :
    (insertLiterals ext f literals).setBits = f.setBits ∪ marks (f.positions ext) (literalWindows literals) := by
  unfold insertLiterals
  rw [← List.foldl_map, (BloomFilter.insertAll _ _).2, (BloomFilter.insertAll _ _).1, (BloomFilter.insertAll _ _).1,
    (BloomFilter.insertAll _ _).1, (BloomFilter.insertAll _ _).2, (BloomFilter.insertAll _ _).1,
    (BloomFilter.insertAll _ _).1, (BloomFilter.insertAll _ _).2, (BloomFilter.insertAll _ _).1,
    (BloomFilter.insertAll _ _).2, ← inserted_eq, marks_union, marks_union, marks_union]
  simp only [Set.union_assoc]

/-! ## Queries -/

def queryWindows (pattern : Bytes) : List Bytes := if pattern.length ≤ 4 then [pattern] else windows 4 pattern

theorem patternMightContain_eq (f : BloomFilter) (pattern : Bytes) :
    CompressedIndex.patternMightContain ext f pattern = (queryWindows pattern).all (f.mayContain ext) := by
  unfold CompressedIndex.patternMightContain queryWindows
  split <;> simp

theorem queryWindows_sized {pattern w : Bytes} (hne : pattern ≠ []) (hw : w ∈ queryWindows pattern) :
    1 ≤ w.length ∧ w.length ≤ 4 ∧ w <:+: pattern := by
  have hpos := List.length_pos_iff.mpr hne
  unfold queryWindows at hw
  split at hw
  · rw [List.mem_singleton] at hw
    subst hw
    exact ⟨hpos, by assumption, List.infix_refl _⟩
  · obtain ⟨hlen, hi⟩ := mem_windows.mp hw
    exact ⟨by omega, by omega, hi⟩

theorem queryWindows_subset {pattern literals : Bytes} (hne : pattern ≠ []) (h : pattern <:+: literals) :
    ∀ w ∈ queryWindows pattern, w ∈ literalWindows literals := by
  intro w hw
  obtain ⟨hpos, hle, hi⟩ := queryWindows_sized hne hw
  exact ⟨hpos, hle, hi.trans h⟩

def BlockWithBloom.Built (ext : External) (b : BlockWithBloom) : Prop :=
  ∃ empty : BloomFilter, empty.setBits = ∅ ∧ b.bloom = insertLiterals ext empty b.block.literals

theorem patternMightContain_iff {b : BlockWithBloom} (hb : b.Built ext) (pattern : Bytes) :
    CompressedIndex.patternMightContain ext b.bloom pattern = true ↔
      ∀ w ∈ queryWindows pattern, Covers (b.bloom.positions ext) (literalWindows b.block.literals) w := by
  obtain ⟨empty, he, hbloom⟩ := hb
  have hbits : b.bloom.setBits = marks (b.bloom.positions ext) (literalWindows b.block.literals) := by
    rw [hbloom, insertLiterals_setBits, insertLiterals_positions, he, Set.empty_union]
  rw [patternMightContain_eq, List.all_eq_true]
  simp only [BloomFilter.mayContain_iff, hbits]
  rfl

theorem mightContain_of_occurs {b : BlockWithBloom} (hb : b.Built ext) {pattern : Bytes} (hne : pattern ≠ [])
    (h : pattern <:+: b.block.literals) : CompressedIndex.patternMightContain ext b.bloom pattern = true :=
  (patternMightContain_iff hb pattern).mpr fun w hw => covers_of_mem (queryWindows_subset hne h w hw)

/-! ## Candidates -/

namespace CompressedIndex

theorem mem_candidateBlocks {idx : CompressedIndex} {pattern : Bytes} {i : Nat} :
    i ∈ idx.candidateBlocks ext pattern ↔
      ∃ b, idx.blocks[i]? = some b ∧ (pattern = [] ∨ patternMightContain ext b.bloom pattern = true) := by
  unfold candidateBlocks
  split
  · rename_i h
    simp only [List.mem_range, h, true_or, and_true]
    constructor
    · exact fun hi => ⟨_, List.getElem?_eq_getElem hi⟩
    · exact fun ⟨b, hb⟩ => (List.getElem?_eq_some_iff.mp hb).1
  · simp only [List.mem_map, List.mem_filter, List.mem_zipIdx_iff_getElem?, false_or, *]
    constructor
    · rintro ⟨⟨b, j⟩, ⟨hb, hp⟩, rfl⟩
      exact ⟨b, hb, hp⟩
    · rintro ⟨b, hb, hp⟩
      exact ⟨(b, i), ⟨hb, hp⟩, rfl⟩

theorem candidateBlocks_sublist (ext : External) (idx : CompressedIndex) (pattern : Bytes) :
    (idx.candidateBlocks ext pattern).Sublist (List.range idx.blocks.length) := by
  unfold candidateBlocks
  split
  · exact List.Sublist.refl _
  · have := (List.filter_sublist (p := fun b : BlockWithBloom × Nat =>
      patternMightContain ext b.1.bloom pattern) (l := idx.blocks.zipIdx)).map (·.2)
    rwa [List.zipIdx_map_snd, ← List.range_eq_range'] at this

end CompressedIndex

/-! ## Builders -/

theorem CompressedIndexBuilder.emptyBloom_setBits (b : CompressedIndexBuilder) (literalCount numBlocks : Nat) :
    (b.emptyBloom literalCount numBlocks).setBits = ∅ := by
  unfold emptyBloom
  split
  · exact BloomFilter.setBits_withParams _ _
  · exact BloomFilter.setBits_new _ _

theorem StreamingIndexBuilder.emptyBloom_setBits (b : StreamingIndexBuilder) (literalCount : Nat) :
    (b.emptyBloom literalCount).setBits = ∅ := by
  unfold emptyBloom
  split
  · exact BloomFilter.setBits_withParams _ _
  · exact BloomFilter.setBits_new _ _

theorem CompressedIndexBuilder.built (b : CompressedIndexBuilder) (block : CompressedBlock) (numBlocks : Nat) :
    (b.buildBlockWithBloom ext block numBlocks).Built ext := ⟨_, b.emptyBloom_setBits _ _, rfl⟩

theorem StreamingIndexBuilder.built (b : StreamingIndexBuilder) (block : CompressedBlock) :
    (b.buildBlockWithBloom ext block).Built ext := ⟨_, b.emptyBloom_setBits _, rfl⟩

/-- The states a streaming builder can be in: sizing may be set at any time, and a
chunk that fails leaves the state as it was. -/
inductive StreamingIndexBuilder.Reachable (ext : External) : StreamingIndexBuilder → Prop
  | new (format : CompressionFormat) : Reachable ext (.new format)
  | configure {b : StreamingIndexBuilder} (expectedItems : Option Nat) (falsePositiveRate : Option Float)
      (numBits numHashes : Option Nat) : Reachable ext b → Reachable ext { b with
        expectedItems := expectedItems
        falsePositiveRate := falsePositiveRate
        numBits := numBits
        numHashes := numHashes }
  | processChunk {b b' : StreamingIndexBuilder} {chunk : Bytes} :
      Reachable ext b → b.processChunk ext chunk = .ok b' → Reachable ext b'

theorem StreamingIndexBuilder.processChunk_inv {b b' : StreamingIndexBuilder} {chunk : Bytes}
    (h : b.processChunk ext chunk = .ok b') :
    ∃ newBlocks, extractFromBytes ext b.format chunk = .ok newBlocks ∧
      b' = { b with blocks := b.blocks ++ newBlocks.map (b.buildBlockWithBloom ext) } := by
  unfold processChunk at h
  simp only [Run.bind_eq_ok] at h
  obtain ⟨newBlocks, hx, _, _, h⟩ := h
  cases h
  exact ⟨newBlocks, hx, rfl⟩

theorem StreamingIndexBuilder.Reachable.built {b : StreamingIndexBuilder} (h : b.Reachable ext) :
    ∀ bb ∈ b.blocks, bb.Built ext := by
  induction h with
  | new format => simp [StreamingIndexBuilder.new]
  | configure _ _ _ _ _ ih => exact ih
  | processChunk _ hstep ih =>
    obtain ⟨newBlocks, _, rfl⟩ := processChunk_inv hstep
    intro bb hbb
    rw [List.mem_append, List.mem_map] at hbb
    rcases hbb with hbb | ⟨block, _, rfl⟩
    · exact ih bb hbb
    · exact StreamingIndexBuilder.built _ _

theorem StreamingIndexBuilder.processChunks_reachable : ∀ {chunks : List Bytes} {b : StreamingIndexBuilder},
    b.Reachable ext → (b.processChunks ext chunks).Reachable ext
  | [], _, h => h
  | chunk :: chunks, b, h => by
    unfold processChunks
    rw [List.foldl_cons]
    apply processChunks_reachable
    cases hc : b.processChunk ext chunk with
    | ok b' => exact h.processChunk hc
    | error e => exact h

inductive CompressedIndex.Produced (ext : External) : CompressedIndex → Prop
  | batch {b : CompressedIndexBuilder} {data : Bytes} {idx : CompressedIndex} :
      b.buildFromBytes ext data = .ok idx → Produced ext idx
  | streaming {b : StreamingIndexBuilder} {idx : CompressedIndex} :
      b.Reachable ext → b.finalize = .ok idx → Produced ext idx

theorem CompressedIndexBuilder.buildFromBytes_eq {b : CompressedIndexBuilder} {data : Bytes}
    {blocks : List CompressedBlock} (h : extractFromBytes ext b.format data = .ok blocks) :
    b.buildFromBytes ext data =
      .ok ⟨b.format, blocks.map fun block => b.buildBlockWithBloom ext block (max blocks.length 1)⟩ := by
  unfold buildFromBytes
  rw [h]
  rfl

theorem CompressedIndex.Produced.built {idx : CompressedIndex} (h : idx.Produced ext) :
    ∀ bb ∈ idx.blocks, bb.Built ext := by
  cases h with
  | batch h =>
    unfold CompressedIndexBuilder.buildFromBytes at h
    obtain ⟨blocks, _, h⟩ := Run.bind_eq_ok.mp h
    cases h
    intro bb hbb
    obtain ⟨block, _, rfl⟩ := List.mem_map.mp hbb
    exact CompressedIndexBuilder.built _ _ _
  | streaming hr h =>
    cases h
    exact hr.built

/-- **The pre-filter rejects no block whose literals contain the pattern.** The
candidates are indexes of blocks, in increasing order. -/
theorem candidateBlocks_complete {idx : CompressedIndex} (h : idx.Produced ext) (pattern : Bytes) :
    (∀ i b, idx.getBlock i = some b → b.verifyContains pattern = true → i ∈ idx.candidateBlocks ext pattern) ∧
      (idx.candidateBlocks ext pattern).Pairwise (· < ·) ∧
      ∀ i ∈ idx.candidateBlocks ext pattern, i < idx.blockCount := by
  have hsub := idx.candidateBlocks_sublist ext pattern
  refine ⟨?_, List.pairwise_lt_range.sublist hsub, fun i hi => List.mem_range.mp (hsub.subset hi)⟩
  intro i b hb hv
  obtain ⟨bb, hbb, rfl⟩ := Option.map_eq_some_iff.mp hb
  refine CompressedIndex.mem_candidateBlocks.mpr ⟨bb, hbb, ?_⟩
  by_cases hne : pattern = []
  · exact Or.inl hne
  · exact Or.inr (mightContain_of_occurs (h.built bb (List.mem_of_getElem? hbb)) hne ((verifyContains_iff _ _).mp hv))

def smallFilter : CompressedIndexBuilder := ⟨.lz4, none, none, some 64, some 3⟩

theorem candidateBlocks_complete_stored :
    0 ∈ CompressedIndex.candidateBlocks .fnvOnly
      ⟨.lz4, [smallFilter.buildBlockWithBloom .fnvOnly ⟨0, 2, none, [7, 8]⟩ 1]⟩ [7, 8] := by
  have hx : extractFromBytes .fnvOnly smallFilter.format [2, 0, 0, 0x80, 7, 8] = .ok [⟨0, 2, none, [7, 8]⟩] := by
    decide
  exact (candidateBlocks_complete (.batch (CompressedIndexBuilder.buildFromBytes_eq hx)) [7, 8]).1 0 _ rfl (by decide)

/-! ## The iterator -/

namespace CompressedIndex

theorem candidateBlocksIter_of_ne {idx : CompressedIndex} {pattern : Bytes} (h : pattern ≠ []) :
    idx.candidateBlocksIter ext pattern = idx.candidateBlocks ext pattern := by
  unfold candidateBlocks
  rw [if_neg h]
  rfl

theorem candidateBlocksIter_eq_range {idx : CompressedIndex} {pattern : Bytes} :
    idx.candidateBlocksIter ext pattern = List.range idx.blocks.length ↔
      ∀ b ∈ idx.blocks, patternMightContain ext b.bloom pattern = true := by
  unfold candidateBlocksIter
  constructor
  · intro h b hb
    have hlen : (idx.blocks.zipIdx.filter fun p => patternMightContain ext p.1.bloom pattern).length =
        idx.blocks.zipIdx.length := by
      simpa using congrArg List.length h
    obtain ⟨i, hi⟩ := List.mem_iff_getElem?.mp hb
    exact List.length_filter_eq_length_iff.mp hlen (b, i) (List.mem_zipIdx_iff_getElem?.mpr hi)
  · intro h
    have hall : ∀ b ∈ idx.blocks.zipIdx, patternMightContain ext b.1.bloom pattern = true :=
      fun b hb => h b.1 (List.fst_mem_of_mem_zipIdx hb)
    rw [List.filter_eq_self.mpr hall, List.zipIdx_map_snd, List.range_eq_range']

/-- **The iterator agrees with the vector** on every pattern but the empty one, and on
that one when its hashes hit only positions of windows in every block. -/
theorem candidateBlocksIter_eq_iff {idx : CompressedIndex} (h : idx.Produced ext) (pattern : Bytes) :
    idx.candidateBlocksIter ext pattern = idx.candidateBlocks ext pattern ↔
      pattern ≠ [] ∨ ∀ b ∈ idx.blocks, Covers (b.bloom.positions ext) (literalWindows b.block.literals) [] := by
  by_cases hne : pattern = []
  · have hvector : idx.candidateBlocks ext [] = List.range idx.blocks.length := if_pos rfl
    have hquery : queryWindows [] = [[]] := rfl
    rw [hne, hvector, candidateBlocksIter_eq_range]
    simp only [ne_eq, not_true_eq_false, false_or]
    refine forall_congr' fun b => forall_congr' fun hb => ?_
    rw [patternMightContain_iff (h.built b hb), hquery, List.forall_mem_singleton]
  · exact ⟨fun _ => Or.inl hne, fun _ => candidateBlocksIter_of_ne hne⟩

end CompressedIndex

/-- A pattern that is not empty; and the empty one, whose positions the windows of the second index hit. -/
theorem candidateBlocksIter_eq_stored :
    CompressedIndex.candidateBlocksIter .fnvOnly
        ⟨.lz4, [smallFilter.buildBlockWithBloom .fnvOnly ⟨0, 2, none, [7, 8]⟩ 1]⟩ [7, 8] =
      CompressedIndex.candidateBlocks .fnvOnly
        ⟨.lz4, [smallFilter.buildBlockWithBloom .fnvOnly ⟨0, 2, none, [7, 8]⟩ 1]⟩ [7, 8] ∧
    CompressedIndex.candidateBlocksIter .fnvOnly
        ⟨.lz4, [smallFilter.buildBlockWithBloom .fnvOnly ⟨0, 2, none, [12, 8]⟩ 1]⟩ [] =
      CompressedIndex.candidateBlocks .fnvOnly
        ⟨.lz4, [smallFilter.buildBlockWithBloom .fnvOnly ⟨0, 2, none, [12, 8]⟩ 1]⟩ [] := by
  have hx : extractFromBytes .fnvOnly smallFilter.format [2, 0, 0, 0x80, 7, 8] = .ok [⟨0, 2, none, [7, 8]⟩] := by
    decide
  have hy : extractFromBytes .fnvOnly smallFilter.format [2, 0, 0, 0x80, 12, 8] = .ok [⟨0, 2, none, [12, 8]⟩] := by
    decide
  have hproduced := CompressedIndex.Produced.batch (CompressedIndexBuilder.buildFromBytes_eq hx)
  have hproduced' := CompressedIndex.Produced.batch (CompressedIndexBuilder.buildFromBytes_eq hy)
  refine ⟨(CompressedIndex.candidateBlocksIter_eq_iff hproduced [7, 8]).mpr (Or.inl (List.cons_ne_nil _ _)),
    (CompressedIndex.candidateBlocksIter_eq_iff hproduced' []).mpr (Or.inr fun b hb => ?_)⟩
  obtain rfl := List.mem_singleton.mp hb
  have hmight : CompressedIndex.patternMightContain .fnvOnly
      (smallFilter.buildBlockWithBloom .fnvOnly ⟨0, 2, none, [12, 8]⟩ 1).bloom [] = true := by decide
  exact (patternMightContain_iff (hproduced'.built _ hb) []).mp hmight [] (List.mem_singleton_self _)

theorem candidateBlocksIter_empty : ∃ idx, smallFilter.buildFromBytes .fnvOnly [2, 0, 0, 0x80, 7, 8] = .ok idx ∧
    idx.candidateBlocks .fnvOnly [] = [0] ∧ idx.candidateBlocksIter .fnvOnly [] = [] := by
  have hx : extractFromBytes .fnvOnly smallFilter.format [2, 0, 0, 0x80, 7, 8] = .ok [⟨0, 2, none, [7, 8]⟩] := by
    decide
  exact ⟨_, CompressedIndexBuilder.buildFromBytes_eq hx, rfl, by decide⟩

end Ziftsieve
