import Mathlib.Logic.Relation
import Ziftsieve.GzipSafe
import Ziftsieve.Index
import Ziftsieve.Lz4Safe
import Ziftsieve.SnappySpans
import Ziftsieve.ZstdSafe

/-!
# Panics through the entry points

Of the four parsers only gzip's can panic, in the one sum of its codes. The
builders call nothing else that can, and a call that fails leaves the streaming
builder for the next one.
-/

namespace Ziftsieve

/-! ## Snappy -/

namespace Snappy

section
variable {ext : External} {data : Bytes} {s t : Chunks}

theorem handleSnappyChunk_graceful (chunkType : UInt8) (body current : Bytes) (pos : Nat) :
    Graceful (handleSnappyChunk ext chunkType body current pos) := by
  unfold handleSnappyChunk
  refine Graceful.ite (fun _ => Graceful.failIf fun hlen => ?_) fun _ =>
    Graceful.ite (fun _ => Graceful.failIf fun hlen => ?_) fun _ =>
      Graceful.ite (fun _ => Graceful.ok _) fun _ => Graceful.fail _
  · refine (slice_graceful ⟨by omega, Nat.le_refl _⟩).bind fun compressed _ => ?_
    cases ext.decompressLen compressed with
    | none => exact Graceful.fail _
    | some n =>
      refine Graceful.failIf fun _ => ?_
      cases ext.decompressVec compressed with
      | none => exact Graceful.fail _
      | some literals => exact Graceful.ok _
  · exact (slice_graceful ⟨by omega, Nat.le_refl _⟩).bind fun _ _ => Graceful.ok _

theorem decodeChunkLen_graceful (start : Nat) : Graceful (decodeChunkLen data start) := by
  unfold decodeChunkLen
  refine Graceful.failIf fun hend => (index_graceful (by omega)).bind fun b0 _ => ?_
  refine (index_graceful (by omega)).bind fun b1 _ => ?_
  exact (index_graceful (by omega)).bind fun b2 _ => Graceful.ok _

theorem flushBlock_graceful (blocks : List CompressedBlock) (literals : Bytes) (blockStart pos total : Nat) :
    Graceful (flushBlock blocks literals blockStart pos total) := Graceful.failIf fun _ => Graceful.ok _

theorem chunkTurn_graceful (s : Chunks) : Graceful (chunkTurn ext data s) := by
  unfold chunkTurn
  refine Graceful.ite (fun hpos => ?_) fun _ => Graceful.ok _
  refine Graceful.failIf fun _ => Graceful.failIf fun _ => Graceful.failIf fun _ => ?_
  refine (index_graceful hpos).bind fun chunkType _ => (decodeChunkLen_graceful _).bind fun r _ => ?_
  refine Graceful.failIf fun _ => Graceful.failIf fun hend => ?_
  refine (slice_graceful ⟨Nat.le_add_right _ _, Nat.le_of_not_lt hend⟩).bind fun body _ => ?_
  refine (handleSnappyChunk_graceful _ _ _ _).bind fun out _ => ?_
  exact Graceful.ite (fun _ => (flushBlock_graceful _ _ _ _ _).bind fun _ _ => Graceful.ok _) fun _ => Graceful.ok _

theorem chunkTurn_progress (h : chunkTurn ext data s = .ok (.next t)) : s.pos < t.pos ∧ t.pos ≤ data.length := by
  rcases chunkTurn_cases h with ⟨-, hd⟩ | ⟨c, rest, out, hat, -, ht⟩
  · cases hd
  · cases ht
    have hl := (at_after hat out).length
    rw [Chunks.after_pos] at hl ⊢
    omega

theorem extractLiterals_graceful (ext : External) (data : Bytes) : Graceful (extractLiterals ext data) := by
  unfold extractLiterals
  refine Graceful.ite (fun _ => Graceful.fail _) fun _ => ?_
  refine Graceful.bind ?_ fun s _ =>
    Graceful.ite (fun _ => (flushBlock_graceful _ _ _ _ _).bind fun _ _ => Graceful.ok _) fun _ => Graceful.ok _
  refine Graceful.loop (I := fun _ => True) (μ := fun s => data.length - s.pos) (fun s _ => chunkTurn_graceful s) ?_ _ _
    trivial (Nat.lt_succ_of_le (Nat.sub_le _ _))
  intro s t _ h
  have hnext := chunkTurn_progress h
  exact ⟨trivial, by omega⟩

/-- One turn of the walk that goes on. -/
def Steps (ext : External) (data : Bytes) (s t : Chunks) : Prop := chunkTurn ext data s = .ok (.next t)

/-- What `pos - block_start` needs, in every state of the walk. -/
theorem reached_start_le (h : Relation.ReflTransGen (Steps ext data) (start data) s) : s.blockStart ≤ s.pos ∧ s.pos ≤ data.length := by
  have hinv : Ordered s ∧ s.pos ≤ data.length := by
    induction h with
    | refl => exact ⟨start_ordered data, start_pos_le data⟩
    | tail _ hstep ih =>
      refine ⟨?_, (chunkTurn_progress hstep).2⟩
      rcases chunkTurn_cases hstep with ⟨-, hd⟩ | ⟨c, _, out, -, -, ht⟩
      · cases hd
      · cases ht
        exact ih.1.after _ _
  exact ⟨hinv.1.start_le, hinv.2⟩

end

end Snappy

/-! ## Extraction -/

section
variable {ext : External} {data : Bytes}

/-- Every dynamic block that the gzip parser gets to declares codes whose sums fit 16 bits. -/
def Gzip.Fitting (ext : External) (data : Bytes) : Prop :=
  ∀ s t lits dists, Gzip.Reaches ext data s t → Gzip.Declares s t lits dists → Gzip.TreesFit lits dists

theorem Gzip.fitting_of_graceful (h : Graceful (Gzip.extractLiterals ext data)) : Gzip.Fitting ext data := by
  have hrun : Graceful (loop (Gzip.memberTurn ext) 1025 ⟨[], 0, 0⟩ (Gzip.BitReader.new data 0)).1 := by
    unfold Gzip.extractLiterals at h
    by_cases hnil : data = []
    · subst hnil
      exact Graceful.ok []
    · rwa [if_neg hnil] at h
  rintro s t lits dists ⟨n, m, ms, r, r₁, hn, hrem, hheader, hm⟩ hd
  have hturn := hn.graceful (Nat.lt_trans (Gzip.memberTurns_few hn).2 (by decide)) hrun
  exact Gzip.memberTurn_fit (Gzip.memberTurns_past hrun hn) hturn hrem hheader hm hd

theorem Gzip.graceful_of_fitting (h : Gzip.Fitting ext data) : Graceful (Gzip.extractLiterals ext data) := by
  unfold Gzip.extractLiterals
  exact Graceful.ite (fun _ => Graceful.fail _) fun _ => (Gzip.memberLoop_safe h).graceful

theorem extract_graceful_iff (ext : External) (format : CompressionFormat) (data : Bytes) :
    Graceful (extractFromBytes ext format data) ↔ (format = .gzip → Gzip.Fitting ext data) := by
  cases format with
  | lz4 => exact ⟨(fun _ h => by cases h), fun _ => Lz4.parseLz4Blocks_graceful data⟩
  | snappy => exact ⟨(fun _ h => by cases h), fun _ => Snappy.extractLiterals_graceful ext data⟩
  | zstd => exact ⟨(fun _ h => by cases h), fun _ => Zstd.extractLiterals_graceful data⟩
  | gzip => exact ⟨fun h _ => Gzip.fitting_of_graceful h, fun h => Gzip.graceful_of_fitting (h rfl)⟩

end

/-! ## The builders -/

theorem Graceful.pure_iff {ε α β : Type} {x : Run ε α} {f : α → β} : Graceful (do
    let a ← x
    pure (f a)) ↔ Graceful x := by
  constructor
  · intro h e he
    exact h e (by rw [he]; rfl)
  · exact fun h => h.bind fun _ _ => Graceful.ok _

namespace StreamingIndexBuilder
variable {ext : External}

theorem processChunk_graceful_iff (b : StreamingIndexBuilder) (chunk : Bytes) :
    Graceful (b.processChunk ext chunk) ↔ Graceful (extractFromBytes ext b.format chunk) := by
  constructor
  · intro h e he
    exact h e (by unfold processChunk; rw [he]; rfl)
  · exact fun h => h.bind fun _ _ => Graceful.failIf fun _ => Graceful.ok _

theorem processChunk_format {b b' : StreamingIndexBuilder} {chunk : Bytes} (h : b.processChunk ext chunk = .ok b') :
    b'.format = b.format := by
  unfold processChunk at h
  obtain ⟨_, -, h⟩ := Run.bind_eq_ok.mp h
  obtain ⟨_, -, h⟩ := Run.bind_eq_ok.mp h
  cases h
  rfl

theorem processChunks_format (chunks : List Bytes) : ∀ b : StreamingIndexBuilder,
    (b.processChunks ext chunks).format = b.format := by
  induction chunks with
  | nil => exact fun _ => rfl
  | cons chunk chunks ih =>
    intro b
    cases h : b.processChunk ext chunk with
    | ok b' =>
      have hrun : b.processChunks ext (chunk :: chunks) = b'.processChunks ext chunks := by
        unfold processChunks
        rw [List.foldl_cons, h]
      rw [hrun, ih, processChunk_format h]
    | error e =>
      have hrun : b.processChunks ext (chunk :: chunks) = b.processChunks ext chunks := by
        unfold processChunks
        rw [List.foldl_cons, h]
      rw [hrun, ih]

end StreamingIndexBuilder

/-- **Panics through the entry points.** A batch build panics only on gzip data whose codes do not
fit; a run of chunks, with failed ones among them, only where a gzip chunk's do not. Snappy's
spans never start behind their end. -/
theorem builders_graceful_iff (ext : External) (batch : CompressedIndexBuilder) (data : Bytes)
    (streaming : StreamingIndexBuilder) (chunks : List Bytes) :
    (Graceful (batch.buildFromBytes ext data) ↔ (batch.format = .gzip → Gzip.Fitting ext data)) ∧
      ((∀ before chunk after, chunks = before ++ chunk :: after →
          Graceful ((streaming.processChunks ext before).processChunk ext chunk)) ↔
        (streaming.format = .gzip → ∀ chunk ∈ chunks, Gzip.Fitting ext chunk)) ∧
      ∀ s, Relation.ReflTransGen (Snappy.Steps ext data) (Snappy.start data) s → s.blockStart ≤ s.pos ∧ s.pos ≤ data.length := by
  refine ⟨?_, ?_, fun s => Snappy.reached_start_le⟩
  · exact Graceful.pure_iff.trans (extract_graceful_iff ext _ data)
  · simp only [StreamingIndexBuilder.processChunk_graceful_iff, StreamingIndexBuilder.processChunks_format,
      extract_graceful_iff]
    constructor
    · intro h hgzip chunk hmem
      obtain ⟨before, after, rfl⟩ := List.append_of_mem hmem
      exact h before chunk after rfl hgzip
    · rintro h before chunk after rfl hgzip
      exact h hgzip chunk (List.mem_append_right _ List.mem_cons_self)

end Ziftsieve
