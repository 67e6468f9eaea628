import Mathlib.Data.List.Forall2
import Ziftsieve.IndexSound
import Ziftsieve.Lz4StreamSound

/-!
# Streaming against batch

A stream of raw LZ4 blocks, cut between blocks in any way, gives the same index
chunk by chunk as it does at once: the literals of a block depend on its own
bytes alone, and the two builders size a block's filter alike. Chunks that fail
do not show.
-/

namespace Ziftsieve

namespace Lz4

/-! ## Raw blocks -/

/-- A block as a raw stream has it, whatever its payload. A header that spells the
frame magic starts a frame and is no raw block's. -/
structure RawBlock where
  isUncompressed : Bool
  payload : Bytes
  pos : 0 < payload.length
  lt : payload.length < 2 ^ 31
  raw : toLe 4 (if isUncompressed then payload.length + 2 ^ 31 else payload.length) ≠ lz4FrameMagic

namespace RawBlock

def headerWord (r : RawBlock) : Nat :=
  if r.isUncompressed then r.payload.length + 2 ^ 31 else r.payload.length

def encode (r : RawBlock) : Bytes := toLe 4 r.headerWord ++ r.payload

def Holds (r : RawBlock) (literals : Bytes) : Prop := blockLiterals r.isUncompressed r.payload = .ok literals

theorem holds_unique : Relator.RightUnique Holds := fun _ _ _ h h' => Except.ok.inj (h.symm.trans h')

variable (r : RawBlock)

theorem headerWord_lt : r.headerWord < 2 ^ 32 := by
  have := r.lt
  unfold headerWord; split <;> omega

theorem headerWord_low : r.headerWord % 2 ^ 31 = r.payload.length := by
  have := r.lt
  unfold headerWord; split <;> omega

theorem headerWord_high : decide (2 ^ 31 ≤ r.headerWord) = r.isUncompressed := by
  have := r.lt
  unfold headerWord
  cases r.isUncompressed
  · rw [if_neg (by decide)]; exact decide_eq_false (by omega)
  · rw [if_pos rfl]; exact decide_eq_true (Nat.le_add_left _ _)

end RawBlock

def encodeRaw (rs : List RawBlock) : Bytes := (rs.map RawBlock.encode).flatten

theorem encodeRaw_cons (r : RawBlock) (rs : List RawBlock) : encodeRaw (r :: rs) = r.encode ++ encodeRaw rs := by
  unfold encodeRaw; rw [List.map_cons, List.flatten_cons]

theorem encodeRaw_take (r : RawBlock) (rs : List RawBlock) : (encodeRaw (r :: rs)).take 4 = toLe 4 r.headerWord := by
  rw [encodeRaw_cons, RawBlock.encode, List.append_assoc]
  exact List.take_left' (length_toLe 4 _)

/-- Where each block begins, when the first one begins at `offset`. -/
def blockStarts (offset : Nat) : List RawBlock → List Nat
  | [] => []
  | r :: rs => offset :: blockStarts (offset + r.encode.length) rs

theorem blockStarts_append (rs rs' : List RawBlock) : ∀ offset, blockStarts offset (rs ++ rs') =
    blockStarts offset rs ++ blockStarts (offset + (encodeRaw rs).length) rs' := by
  induction rs with
  | nil => exact fun _ => rfl
  | cons r rs ih =>
    intro offset
    rw [List.cons_append, blockStarts, ih, encodeRaw_cons, List.length_append, ← Nat.add_assoc]
    rfl

theorem encodeRaw_ne_nil (r : RawBlock) (rs : List RawBlock) : encodeRaw (r :: rs) ≠ [] := by
  intro h
  have hl := congrArg List.length (encodeRaw_take r rs)
  rw [h, length_toLe] at hl
  cases hl

/-! ## The walk over raw blocks -/

section
variable {data rest : Bytes} {framed : Bool} {w : Walk}

theorem walkTurn_few {t : Turn Walk (List CompressedBlock)} (hlt : w.offset < data.length)
    (h : walkTurn data framed w = .ok t) : w.blocks.length < maxBlocksPerStream := by
  unfold walkTurn at h
  rw [if_pos hlt] at h
  obtain ⟨u, hu, _⟩ := Run.bind_eq_ok.mp h
  exact Nat.lt_of_not_le ((failIf_eq_ok _ u).mp hu)

theorem walkTurn_raw {r : RawBlock} {t : Turn Walk (List CompressedBlock)} (h : At data w.offset (r.encode ++ rest))
    (ht : walkTurn data framed w = .ok t) :
    ∃ w' c, t = .next w' ∧ w'.offset = w.offset + r.encode.length ∧ w'.blocks = w.blocks ++ [c] ∧
      c.compressedOffset = w.offset ∧ r.Holds c.literals := by
  have hlen : r.encode.length = 4 + r.payload.length := by
    rw [RawBlock.encode, List.length_append, length_toLe]
  have hl := h.length
  have hpos := r.pos
  rw [List.length_append, hlen] at hl
  rw [RawBlock.encode, List.append_assoc] at h
  have hp := h.skip
  rw [length_toLe] at hp
  rw [walkTurn_word (walkTurn_few (by omega) ht) r.headerWord_lt h, r.headerWord_low, r.headerWord_high,
    if_neg (by omega)] at ht
  obtain ⟨w', hw, ht⟩ := Run.bind_eq_ok.mp ht
  cases ht
  obtain ⟨_, ho, literals, hlit, hbs⟩ := walkBlock_inv hw
  rw [hp.drop, List.take_left] at hlit
  exact ⟨w', _, rfl, by rw [ho, hlen, Nat.add_assoc], hbs, rfl, hlit⟩

theorem walk_raw : ∀ {rs : List RawBlock} {n : Nat} {w : Walk} {blocks : List CompressedBlock},
    At data w.offset (encodeRaw rs) → loop (walkTurn data framed) n w = .ok blocks →
    ∃ cs, blocks = w.blocks ++ cs ∧ List.Forall₂ RawBlock.Holds rs (cs.map (·.literals)) ∧
      cs.map (·.compressedOffset) = blockStarts w.offset rs
  | _, 0, _, _, _, h => by cases h
  | [], n + 1, w, blocks, hat, h => by
    have hdone : walkTurn data framed w = .ok (.done w.blocks) := by
      unfold walkTurn
      rw [hat.eq_end, if_neg (Nat.lt_irrefl _)]
      rfl
    rw [loop_done hdone] at h
    cases h
    exact ⟨[], by simp, List.Forall₂.nil, rfl⟩
  | r :: rs, n + 1, w, blocks, hat, h => by
    rw [encodeRaw_cons] at hat
    rcases loop_ok_iff.mp h with hd | ⟨w', hn, hrest⟩
    · obtain ⟨_, _, hd, _⟩ := walkTurn_raw hat hd
      cases hd
    · obtain ⟨_, c, hw, ho, hbs, hoff, hc⟩ := walkTurn_raw hat hn
      cases hw
      have hat' := hat.skip
      rw [← ho] at hat'
      obtain ⟨cs, hcs, hall, hstarts⟩ := walk_raw hat' hrest
      refine ⟨c :: cs, by rw [hcs, hbs, List.append_assoc, List.singleton_append], List.Forall₂.cons hc hall, ?_⟩
      rw [List.map_cons, hstarts, hoff, ho]
      rfl

end

theorem parse_raw_holds {rs : List RawBlock} {blocks : List CompressedBlock}
    (h : parseLz4Blocks (encodeRaw rs) = .ok blocks) :
    List.Forall₂ RawBlock.Holds rs (blocks.map (·.literals)) ∧
      blocks.map (·.compressedOffset) = blockStarts 0 rs := by
  cases rs with
  | nil =>
    unfold parseLz4Blocks encodeRaw at h
    rw [List.map_nil, List.flatten_nil, if_pos rfl] at h
    cases h
  | cons r rs =>
    have hraw : (encodeRaw (r :: rs)).take 4 ≠ lz4FrameMagic := by rw [encodeRaw_take]; exact r.raw
    rw [parseLz4Blocks_eq (encodeRaw_ne_nil r rs) (parseFrameHeader_raw (encodeRaw_ne_nil r rs) hraw)] at h
    obtain ⟨cs, hcs, hfound⟩ := walk_raw (w := ⟨0, [], 0⟩) (At.start _) h
    rw [List.nil_append] at hcs
    rw [hcs]
    exact hfound

end Lz4

open Lz4

variable {ext : External}

/-! ## Runs of the streaming builder -/

def CompressedIndexBuilder.streaming (cfg : CompressedIndexBuilder) : StreamingIndexBuilder :=
  ⟨cfg.format, [], cfg.expectedItems, cfg.falsePositiveRate, cfg.numBits, cfg.numHashes⟩

/-- `ChunkRun ext b₀ rs b`: calls of `process_chunk` lead from `b₀` to `b`, and the
successful ones had the blocks `rs`. -/
inductive StreamingIndexBuilder.ChunkRun (ext : External) (b₀ : StreamingIndexBuilder) :
    List RawBlock → StreamingIndexBuilder → Prop
  | start : ChunkRun ext b₀ [] b₀
  | succeeded {rs chunk : List RawBlock} {b b' : StreamingIndexBuilder} :
      ChunkRun ext b₀ rs b → chunk ≠ [] → b.processChunk ext (encodeRaw chunk) = .ok b' →
      ChunkRun ext b₀ (rs ++ chunk) b'
  | failed {rs : List RawBlock} {b : StreamingIndexBuilder} {chunk : Bytes} {e : ZiftError} :
      ChunkRun ext b₀ rs b → b.processChunk ext chunk = .error (.err e) → ChunkRun ext b₀ rs b

/-- What a run of calls has built: the builder's settings are those it had, and its
blocks have the literals of the blocks taken. -/
theorem StreamingIndexBuilder.ChunkRun.built {b₀ b : StreamingIndexBuilder} {rs : List RawBlock}
    (hf : b₀.format = .lz4) (h0 : b₀.blocks = []) (h : ChunkRun ext b₀ rs b) :
    ∃ cs : List CompressedBlock, b = { b₀ with blocks := cs.map (b₀.buildBlockWithBloom ext) } ∧
      List.Forall₂ RawBlock.Holds rs (cs.map (·.literals)) := by
  induction h with
  | start => exact ⟨[], by rw [List.map_nil, ← h0], List.Forall₂.nil⟩
  | succeeded _ _ hstep ih =>
    obtain ⟨cs, rfl, hall⟩ := ih
    obtain ⟨new, hx, rfl⟩ := processChunk_inv hstep
    rw [show extractFromBytes ext _ _ = parseLz4Blocks _ from by rw [hf]; rfl] at hx
    refine ⟨cs ++ new, ?_, ?_⟩
    · rw [List.map_append]; rfl
    · rw [List.map_append]
      exact List.rel_append hall (parse_raw_holds hx).1
  | failed _ _ ih => exact ih

theorem StreamingIndexBuilder.processChunk_eq {b : StreamingIndexBuilder} {chunk : Bytes}
    {newBlocks : List CompressedBlock} (hx : extractFromBytes ext b.format chunk = .ok newBlocks)
    (hfew : b.blocks.length + newBlocks.length ≤ maxStreamingBlocks) :
    b.processChunk ext chunk = .ok { b with blocks := b.blocks ++ newBlocks.map (b.buildBlockWithBloom ext) } := by
  unfold processChunk
  rw [hx, Run.ok_bind, failIf_false _ (Nat.not_lt.mpr hfew)]
  rfl

theorem StreamingIndexBuilder.processChunk_error {b : StreamingIndexBuilder} {chunk : Bytes} {e : Stop ZiftError}
    (hx : extractFromBytes ext b.format chunk = .error e) : b.processChunk ext chunk = .error e := by
  unfold processChunk
  rw [hx, Run.error_bind]

/-! ## Equal literals, equal filters -/

/-- What a block's literals make of it: themselves, and the filter. -/
def BlockWithBloom.view (b : BlockWithBloom) : Bytes × BloomFilter := (b.block.literals, b.bloom)

theorem CompressedIndex.candidateBlocks_view (idx : CompressedIndex) (pattern : Bytes) :
    idx.candidateBlocks ext pattern =
      if pattern = [] then List.range (idx.blocks.map BlockWithBloom.view).length
      else ((idx.blocks.map BlockWithBloom.view).zipIdx.filter fun v =>
        patternMightContain ext v.1.2 pattern).map (·.2) := by
  unfold candidateBlocks
  rw [List.length_map, List.zipIdx_map, List.filter_map, List.map_map]
  rfl

theorem emptyBloom_streaming {cfg : CompressedIndexBuilder}
    (hsize : cfg.expectedItems = none ∨ cfg.numBits.isSome ∧ cfg.numHashes.isSome) (literalCount numBlocks : Nat) :
    cfg.streaming.emptyBloom literalCount = cfg.emptyBloom literalCount numBlocks := by
  unfold StreamingIndexBuilder.emptyBloom CompressedIndexBuilder.emptyBloom CompressedIndexBuilder.streaming
  rcases hsize with h | ⟨hb, hh⟩
  · rw [h]; rfl
  · obtain ⟨bits, hbits⟩ := Option.isSome_iff_exists.mp hb
    obtain ⟨hashes, hhashes⟩ := Option.isSome_iff_exists.mp hh
    rw [hbits, hhashes]

theorem map_view {cfg : CompressedIndexBuilder}
    (hsize : cfg.expectedItems = none ∨ cfg.numBits.isSome ∧ cfg.numHashes.isSome) (numBlocks : Nat)
    (cs : List CompressedBlock) :
    (cs.map (cfg.streaming.buildBlockWithBloom ext)).map BlockWithBloom.view =
      (cs.map (·.literals)).map fun literals =>
        (literals, insertLiterals ext (cfg.emptyBloom literals.length numBlocks) literals) := by
  rw [List.map_map, List.map_map]
  refine List.map_congr_left fun c _ => ?_
  simp only [Function.comp_apply, BlockWithBloom.view, StreamingIndexBuilder.buildBlockWithBloom]
  rw [emptyBloom_streaming hsize]

/-- **Streaming agrees with batch.** However raw blocks are cut into chunks, and wherever
calls fail, the index has the blocks of the batch index, with the same literals and
the same filters, and gives the same candidates. -/
theorem streaming_eq_batch {cfg : CompressedIndexBuilder} (hf : cfg.format = .lz4)
    (hsize : cfg.expectedItems = none ∨ cfg.numBits.isSome ∧ cfg.numHashes.isSome)
    {rs : List RawBlock} {b : StreamingIndexBuilder} (hrun : StreamingIndexBuilder.ChunkRun ext cfg.streaming rs b)
    {batch : CompressedIndex} (hbatch : cfg.buildFromBytes ext (encodeRaw rs) = .ok batch) :
    ∃ idx, b.finalize = .ok idx ∧ idx.blockCount = batch.blockCount ∧
      idx.blocks.map BlockWithBloom.view = batch.blocks.map BlockWithBloom.view ∧
      ∀ pattern, idx.candidateBlocks ext pattern = batch.candidateBlocks ext pattern := by
  obtain ⟨cs, rfl, hstream⟩ := hrun.built hf rfl
  unfold CompressedIndexBuilder.buildFromBytes at hbatch
  obtain ⟨blocks, hx, h⟩ := Run.bind_eq_ok.mp hbatch
  cases h
  rw [show extractFromBytes ext cfg.format _ = parseLz4Blocks _ from by rw [hf]; rfl] at hx
  have hlit : cs.map (·.literals) = blocks.map (·.literals) :=
    List.right_unique_forall₂' RawBlock.holds_unique hstream (parse_raw_holds hx).1
  have hview : (cs.map (cfg.streaming.buildBlockWithBloom ext)).map BlockWithBloom.view =
      (blocks.map fun block => cfg.buildBlockWithBloom ext block (max blocks.length 1)).map BlockWithBloom.view := by
    rw [map_view hsize (max blocks.length 1), hlit, List.map_map, List.map_map]
    rfl
  refine ⟨_, rfl, ?_, hview, ?_⟩
  · have hlen := congrArg List.length hview
    simp only [List.length_map] at hlen
    simpa [CompressedIndex.blockCount] using hlen
  · intro pattern
    rw [CompressedIndex.candidateBlocks_view, CompressedIndex.candidateBlocks_view]
    exact congrArg (fun views : List (Bytes × BloomFilter) =>
      if pattern = [] then List.range views.length
      else (views.zipIdx.filter fun v => CompressedIndex.patternMightContain ext v.1.2 pattern).map (·.2)) hview

def twoRaw : RawBlock := ⟨true, [1, 2], by decide, by decide, by decide⟩

def oneRaw : RawBlock := ⟨true, [3], by decide, by decide, by decide⟩

def twoChunks : StreamingIndexBuilder :=
  { smallFilter.streaming with
    blocks := [⟨0, 2, none, [1, 2]⟩, ⟨0, 1, none, [3]⟩].map (smallFilter.streaming.buildBlockWithBloom .fnvOnly) }

theorem twoChunks_run : StreamingIndexBuilder.ChunkRun .fnvOnly smallFilter.streaming [twoRaw, oneRaw] twoChunks := by
  have hone : extractFromBytes .fnvOnly .lz4 (encodeRaw [twoRaw]) = .ok [⟨0, 2, none, [1, 2]⟩] := by decide
  have htwo : extractFromBytes .fnvOnly .lz4 (encodeRaw [oneRaw]) = .ok [⟨0, 1, none, [3]⟩] := by decide
  have hfirst : StreamingIndexBuilder.ChunkRun .fnvOnly smallFilter.streaming [twoRaw] { smallFilter.streaming with
      blocks := [⟨0, 2, none, [1, 2]⟩].map (smallFilter.streaming.buildBlockWithBloom .fnvOnly) } :=
    .succeeded .start (List.cons_ne_nil _ _) (StreamingIndexBuilder.processChunk_eq (b := smallFilter.streaming) hone
      (by decide))
  have hempty : extractFromBytes .fnvOnly .lz4 [] =
      .error (.err (.invalidData 0 "empty input is not valid LZ4 data. Fix: provide non-empty LZ4 data")) := rfl
  have hfailed := hfirst.failed (StreamingIndexBuilder.processChunk_error hempty)
  exact hfailed.succeeded (List.cons_ne_nil _ _) (StreamingIndexBuilder.processChunk_eq htwo
    (by simp [maxStreamingBlocks]))

theorem streaming_eq_batch_two : ∃ idx, twoChunks.finalize = .ok idx ∧ idx.blockCount = 2 := by
  have hx : extractFromBytes .fnvOnly smallFilter.format (encodeRaw [twoRaw, oneRaw]) =
      .ok [⟨0, 2, none, [1, 2]⟩, ⟨6, 1, none, [3]⟩] := by decide
  obtain ⟨idx, hidx, hcount, _⟩ := streaming_eq_batch rfl (Or.inl rfl) twoChunks_run
    (CompressedIndexBuilder.buildFromBytes_eq hx)
  exact ⟨idx, hidx, hcount⟩

/-! ## Where the blocks lie -/

/-- The offsets at which an index says its blocks lie. -/
def CompressedIndex.offsets (idx : CompressedIndex) : List Nat := idx.blocks.map (·.block.compressedOffset)

/-- A call counts the offsets of its blocks from its own chunk's start. -/
theorem StreamingIndexBuilder.processChunk_offsets {b b' : StreamingIndexBuilder} {chunk : List RawBlock}
    (hf : b.format = .lz4) (h : b.processChunk ext (encodeRaw chunk) = .ok b') :
    b'.format = .lz4 ∧ b'.blocks.map (·.block.compressedOffset) =
      b.blocks.map (·.block.compressedOffset) ++ blockStarts 0 chunk := by
  obtain ⟨new, hx, rfl⟩ := processChunk_inv h
  rw [show extractFromBytes ext _ _ = parseLz4Blocks _ from by rw [hf]; rfl] at hx
  refine ⟨hf, ?_⟩
  rw [List.map_append, List.map_map, ← (parse_raw_holds hx).2]
  rfl

theorem StreamingIndexBuilder.foldlM_offsets : ∀ {chunks : List (List RawBlock)} {b b' : StreamingIndexBuilder},
    b.format = .lz4 → chunks.foldlM (fun b c => b.processChunk ext (encodeRaw c)) b = .ok b' →
      b'.blocks.map (·.block.compressedOffset) =
        b.blocks.map (·.block.compressedOffset) ++ (chunks.map (blockStarts 0)).flatten
  | [], b, _, _, h => by cases h; exact (List.append_nil _).symm
  | c :: cs, b, b', hf, h => by
    rw [List.foldlM_cons] at h
    obtain ⟨b₁, h₁, h⟩ := Run.bind_eq_ok.mp h
    obtain ⟨hf₁, hc⟩ := processChunk_offsets hf h₁
    rw [foldlM_offsets hf₁ h, hc, List.map_cons, List.flatten_cons, List.append_assoc]

theorem batch_offsets {cfg : CompressedIndexBuilder} (hf : cfg.format = .lz4) {rs : List RawBlock}
    {batch : CompressedIndex} (h : cfg.buildFromBytes ext (encodeRaw rs) = .ok batch) :
    batch.offsets = blockStarts 0 rs := by
  unfold CompressedIndexBuilder.buildFromBytes at h
  obtain ⟨blocks, hx, h⟩ := Run.bind_eq_ok.mp h
  cases h
  rw [show extractFromBytes ext cfg.format _ = parseLz4Blocks _ from by rw [hf]; rfl] at hx
  rw [CompressedIndex.offsets, List.map_map, ← (parse_raw_holds hx).2]
  rfl

/-- **Streamed offsets are the batch ones for one chunk only**: with a second chunk,
its first block is said to lie at 0, where the batch index has it after the first. -/
theorem streaming_offsets_iff {cfg : CompressedIndexBuilder} (hf : cfg.format = .lz4)
    {chunks : List (List RawBlock)} (hne : ∀ c ∈ chunks, c ≠ []) {b : StreamingIndexBuilder}
    (hrun : chunks.foldlM (fun b c => b.processChunk ext (encodeRaw c)) cfg.streaming = .ok b)
    {idx : CompressedIndex} (hidx : b.finalize = .ok idx) {batch : CompressedIndex}
    (hbatch : cfg.buildFromBytes ext (encodeRaw chunks.flatten) = .ok batch) :
    idx.offsets = batch.offsets ↔ chunks.length ≤ 1 := by
  cases hidx
  have hstream : CompressedIndex.offsets ⟨b.format, b.blocks⟩ = (chunks.map (blockStarts 0)).flatten :=
    StreamingIndexBuilder.foldlM_offsets (b := cfg.streaming) hf hrun
  rw [hstream, batch_offsets hf hbatch]
  match chunks, hne with
  | [], _ => exact ⟨fun _ => Nat.zero_le 1, fun _ => rfl⟩
  | [c], _ => simp
  | [] :: _, hne => exact absurd rfl (hne [] List.mem_cons_self)
  | _ :: [] :: _, hne => exact absurd rfl (hne [] (by simp))
  | (r :: rs) :: (r' :: rs') :: cs, _ =>
    -- both lists are `blockStarts 0 (r :: rs)` and then the offset of `r'`
    have hpos := List.length_pos_of_ne_nil (encodeRaw_ne_nil r rs)
    simp only [List.map_cons, List.flatten_cons, List.cons_append, List.length_cons]
    rw [← List.cons_append, blockStarts_append, List.append_cancel_left_eq, Nat.zero_add]
    constructor
    · intro h
      have := (List.cons.inj h).1
      omega
    · intro h
      omega

theorem streaming_offsets_one : ∃ b idx batch, [[twoRaw, oneRaw]].foldlM
      (fun b c => b.processChunk .fnvOnly (encodeRaw c)) smallFilter.streaming = .ok b ∧
    b.finalize = .ok idx ∧ smallFilter.buildFromBytes .fnvOnly (encodeRaw [[twoRaw, oneRaw]].flatten) = .ok batch ∧
    idx.offsets = batch.offsets := by
  have hx : extractFromBytes .fnvOnly smallFilter.format (encodeRaw [twoRaw, oneRaw]) =
      .ok [⟨0, 2, none, [1, 2]⟩, ⟨6, 1, none, [3]⟩] := by decide
  obtain ⟨b, hb⟩ : ∃ b, smallFilter.streaming.processChunk .fnvOnly (encodeRaw [twoRaw, oneRaw]) = .ok b :=
    ⟨_, StreamingIndexBuilder.processChunk_eq (b := smallFilter.streaming) hx (by decide)⟩
  have hfold : [[twoRaw, oneRaw]].foldlM (fun b c => b.processChunk .fnvOnly (encodeRaw c)) smallFilter.streaming =
      .ok b := by
    rw [List.foldlM_cons, hb]
    rfl
  have hbatch := CompressedIndexBuilder.buildFromBytes_eq hx
  exact ⟨_, _, _, hfold, rfl, hbatch,
    (streaming_offsets_iff rfl (fun c hc => by rw [List.mem_singleton.mp hc]; exact List.cons_ne_nil _ _) hfold rfl
      hbatch).mpr (by decide)⟩

/-- The stream of `streaming_offsets_one` in two chunks: the second block, at 6, is said to be at 0. -/
theorem streaming_offsets_two : ∃ b idx batch, [[twoRaw], [oneRaw]].foldlM
      (fun b c => b.processChunk .fnvOnly (encodeRaw c)) smallFilter.streaming = .ok b ∧
    b.finalize = .ok idx ∧ smallFilter.buildFromBytes .fnvOnly (encodeRaw [[twoRaw], [oneRaw]].flatten) = .ok batch ∧
    idx.offsets = [0, 0] ∧ batch.offsets = [0, 6] := by
  have hone : extractFromBytes .fnvOnly .lz4 (encodeRaw [twoRaw]) = .ok [⟨0, 2, none, [1, 2]⟩] := by decide
  have htwo : extractFromBytes .fnvOnly .lz4 (encodeRaw [oneRaw]) = .ok [⟨0, 1, none, [3]⟩] := by decide
  have hx : extractFromBytes .fnvOnly smallFilter.format (encodeRaw [twoRaw, oneRaw]) =
      .ok [⟨0, 2, none, [1, 2]⟩, ⟨6, 1, none, [3]⟩] := by decide
  have hfold : [[twoRaw], [oneRaw]].foldlM (fun b c => b.processChunk .fnvOnly (encodeRaw c)) smallFilter.streaming =
      .ok twoChunks := by
    rw [List.foldlM_cons, StreamingIndexBuilder.processChunk_eq (b := smallFilter.streaming) hone (by decide),
      Run.ok_bind, List.foldlM_cons, StreamingIndexBuilder.processChunk_eq htwo
        (by simp [CompressedIndexBuilder.streaming, maxStreamingBlocks])]
    rfl
  exact ⟨_, _, _, hfold, rfl, CompressedIndexBuilder.buildFromBytes_eq hx, rfl, rfl⟩

end Ziftsieve
