import Ziftsieve.SnappyFormat

/-!
# Soundness of the Snappy walk

The blocks and the buffer of the chunk loop together hold what the plain walk
has read so far, and a block leaves the buffer only when it is over 32 KiB.
-/

namespace Ziftsieve.Snappy

/-! ## One chunk -/

section
variable {ext : External} {data rest : Bytes}

theorem chunkLen_eq (b0 b1 b2 : UInt8) :
    b0.toNat ||| (b1.toNat <<< 8) ||| (b2.toNat <<< 16) = fromLe [b0, b1, b2] := by
  have h0 : b0.toNat < 2 ^ 8 := b0.toNat_lt
  have h1 : b1.toNat < 2 ^ 8 := b1.toNat_lt
  rw [or_shiftLeft h0, or_shiftLeft (by omega)]
  simp only [fromLe]
  omega

theorem decodeChunkLen_eq {start : Nat} {b0 b1 b2 : UInt8} (h : At data start (b0 :: b1 :: b2 :: rest)) :
    decodeChunkLen data start = .ok (fromLe [b0, b1, b2], 3) := by
  have hl := h.length
  simp only [List.length_cons] at hl
  unfold decodeChunkLen
  rw [failIf_false _ (by omega), Run.ok_bind, h.index, Run.ok_bind, h.tail.index, Run.ok_bind, h.tail.tail.index,
    Run.ok_bind, chunkLen_eq]
  rfl

/-- A chunk whose header and body lie in the data. -/
theorem chunk_at {pos len tag : Nat} {chunkType : UInt8} (htype : data[pos]? = some chunkType)
    (hlen : decodeChunkLen data (pos + 1) = .ok (len, tag)) (hend : pos + 1 + tag + len ≤ data.length) :
    ∃ (c : Chunk) (rest : Bytes), At data pos (c.encode ++ rest) := by
  have hle : pos + 1 + 3 ≤ data.length := by
    unfold decodeChunkLen at hlen
    obtain ⟨_, hle, -⟩ := Run.bind_eq_ok.mp hlen
    rw [failIf_eq_ok] at hle
    omega
  obtain ⟨hlt, hget⟩ := List.getElem?_eq_some_iff.mp htype
  have h0 : At data pos (chunkType :: data.drop (pos + 1)) :=
    ⟨Nat.le_of_lt hlt, by rw [List.drop_eq_getElem_cons hlt, hget]⟩
  have hhead : ((data.drop (pos + 1)).take 3).length = 3 := by
    rw [List.length_take, List.length_drop]; omega
  have hsplit : data.drop (pos + 1) = (data.drop (pos + 1)).take 3 ++ data.drop (pos + 4) := by
    rw [show data.drop (pos + 4) = (data.drop (pos + 1)).drop 3 by rw [List.drop_drop], List.take_append_drop]
  obtain ⟨b0, b1, b2, hbytes⟩ := List.length_eq_three.mp hhead
  have htail := h0.tail
  rw [hsplit, hbytes] at htail
  rw [decodeChunkLen_eq htail] at hlen
  cases hlen
  have hsize : fromLe [b0, b1, b2] < 256 ^ 3 := fromLe_lt [b0, b1, b2]
  have hto : toLe 3 (fromLe [b0, b1, b2]) = [b0, b1, b2] := toLe_fromLe [b0, b1, b2]
  have hbody : ((data.drop (pos + 4)).take (fromLe [b0, b1, b2])).length = fromLe [b0, b1, b2] := by
    rw [List.length_take, List.length_drop]; omega
  refine ⟨⟨chunkType, (data.drop (pos + 4)).take (fromLe [b0, b1, b2]), by omega⟩,
    (data.drop (pos + 4)).drop (fromLe [b0, b1, b2]), ?_⟩
  rw [Chunk.encode_append]
  dsimp only
  rw [hbody, List.take_append_drop, hto, ← hbytes, ← hsplit]
  exact h0

/-- A chunk that `handle_snappy_chunk` takes, with what it carries. -/
structure Handles (ext : External) (chunkType : UInt8) (body p : Bytes) : Prop where
  payload_eq : payload ext chunkType body = some p
  compressed : chunkType = 0x00 →
    4 ≤ body.length ∧ ∃ n, ext.decompressLen (body.drop 4) = some n ∧ n ≤ maxTotalLiterals
  uncompressed : chunkType = 0x01 → 4 < body.length

theorem handleCompressed_eq_ok {body current out : Bytes} {pos : Nat} :
    handleSnappyChunk ext 0x00 body current pos = .ok out ↔
      ∃ p, Handles ext 0x00 body p ∧ out = current ++ p := by
  unfold handleSnappyChunk
  rw [if_pos rfl]
  constructor
  · intro h
    obtain ⟨_, hlen, h⟩ := Run.bind_eq_ok.mp h
    rw [failIf_eq_ok] at hlen
    obtain ⟨compressed, hslice, h⟩ := Run.bind_eq_ok.mp h
    obtain ⟨-, rfl⟩ := slice_eq_ok.mp hslice
    rw [List.take_of_length_le (by rw [List.length_drop])] at h
    cases hd : ext.decompressLen (body.drop 4) with
    | none => rw [hd] at h; cases h
    | some n =>
      rw [hd] at h
      obtain ⟨_, hn, h⟩ := Run.bind_eq_ok.mp h
      rw [failIf_eq_ok] at hn
      cases hv : ext.decompressVec (body.drop 4) with
      | none => rw [hv] at h; cases h
      | some p =>
        rw [hv] at h
        cases h
        exact ⟨p, ⟨hv, fun _ => ⟨Nat.le_of_not_lt hlen, n, hd, Nat.le_of_not_lt hn⟩, fun h1 => absurd h1 (by decide)⟩, rfl⟩
  · rintro ⟨p, h, rfl⟩
    obtain ⟨hlen, n, hd, hn⟩ := h.compressed rfl
    have hv : ext.decompressVec (body.drop 4) = some p := h.payload_eq
    rw [failIf_false _ (Nat.not_lt_of_le hlen), Run.ok_bind, slice_eq_ok.mpr ⟨⟨hlen, Nat.le_refl _⟩, rfl⟩, Run.ok_bind,
      List.take_of_length_le (by rw [List.length_drop]), hd]
    dsimp only
    rw [failIf_false _ (Nat.not_lt_of_le hn), Run.ok_bind, hv]
    rfl

theorem handleUncompressed_eq_ok {body current out : Bytes} {pos : Nat} :
    handleSnappyChunk ext 0x01 body current pos = .ok out ↔
      ∃ p, Handles ext 0x01 body p ∧ out = current ++ p := by
  unfold handleSnappyChunk
  rw [if_neg (by decide), if_pos rfl]
  constructor
  · intro h
    obtain ⟨_, hlen, h⟩ := Run.bind_eq_ok.mp h
    rw [failIf_eq_ok] at hlen
    obtain ⟨raw, hslice, h⟩ := Run.bind_eq_ok.mp h
    obtain ⟨-, rfl⟩ := slice_eq_ok.mp hslice
    rw [List.take_of_length_le (by rw [List.length_drop])] at h
    cases h
    exact ⟨_, ⟨rfl, fun h0 => absurd h0 (by decide), fun _ => Nat.lt_of_not_le hlen⟩, rfl⟩
  · rintro ⟨p, h, rfl⟩
    have hlen := h.uncompressed rfl
    have hp : body.drop 4 = p := Option.some.inj h.payload_eq
    rw [failIf_false _ (Nat.not_le_of_lt hlen), Run.ok_bind, slice_eq_ok.mpr ⟨⟨Nat.le_of_lt hlen, Nat.le_refl _⟩, rfl⟩,
      Run.ok_bind, List.take_of_length_le (by rw [List.length_drop]), hp]
    rfl

/-- A chunk's literals go to the end of the buffer. The position is in the errors only. -/
theorem handleSnappyChunk_eq_ok {chunkType : UInt8} {body current out : Bytes} {pos : Nat} :
    handleSnappyChunk ext chunkType body current pos = .ok out ↔
      ∃ p, Handles ext chunkType body p ∧ out = current ++ p := by
  by_cases h0 : chunkType = 0x00
  · rw [h0]
    exact handleCompressed_eq_ok
  by_cases h1 : chunkType = 0x01
  · rw [h1]
    exact handleUncompressed_eq_ok
  unfold handleSnappyChunk
  rw [if_neg h0, if_neg h1]
  by_cases hskip : chunkType = 0xfe ∨ chunkType = 0xff
  · have hp : payload ext chunkType body = some [] := by
      unfold payload
      rw [if_neg h0, if_neg h1, if_pos hskip]
    rw [if_pos hskip]
    constructor
    · intro h
      cases h
      exact ⟨[], ⟨hp, fun h => absurd h h0, fun h => absurd h h1⟩, (List.append_nil _).symm⟩
    · rintro ⟨p, h, rfl⟩
      rw [← Option.some.inj (hp.symm.trans h.payload_eq), List.append_nil]
      rfl
  · have hp : payload ext chunkType body = none := by
      unfold payload
      rw [if_neg h0, if_neg h1, if_neg hskip]
    rw [if_neg hskip]
    constructor
    · intro h
      cases h
    · rintro ⟨p, h, -⟩
      exact absurd (hp.symm.trans h.payload_eq) (by simp)

end

/-! ## A chunk's turn -/

theorem toU32_eq {n : Nat} (h : n < 2 ^ 32) : toU32 n = n := if_pos h

/-- The state after a chunk that leaves `out` in the buffer. -/
def Chunks.after (s : Chunks) (len : Nat) (out : Bytes) : Chunks :=
  if out.length > 32 * 1024 then
    ⟨s.pos + 4 + len, s.blocks ++ [⟨s.blockStart, toU32 (s.pos + 4 - s.blockStart), some (toU32 out.length), out⟩],
      s.chunkCount + 1, s.totalLiterals + out.length, [], s.pos + 4⟩
  else ⟨s.pos + 4 + len, s.blocks, s.chunkCount + 1, s.totalLiterals, out, s.blockStart⟩

@[simp] theorem Chunks.after_pos (s : Chunks) (len : Nat) (out : Bytes) : (s.after len out).pos = s.pos + 4 + len := by
  unfold after
  split <;> rfl

@[simp] theorem Chunks.after_chunkCount (s : Chunks) (len : Nat) (out : Bytes) :
    (s.after len out).chunkCount = s.chunkCount + 1 := by
  unfold after
  split <;> rfl

theorem Chunks.after_total (s : Chunks) (len : Nat) (out : Bytes) :
    (s.after len out).totalLiterals + (s.after len out).currentLiterals.length = s.totalLiterals + out.length := by
  unfold after
  split <;> rfl

/-- The checks a chunk passes. -/
structure Admits (ext : External) (data : Bytes) (s : Chunks) (c : Chunk) (out : Bytes) : Prop where
  count_lt : s.chunkCount + 1 < maxChunksPerStream
  total_le : s.totalLiterals + s.currentLiterals.length ≤ maxTotalLiterals
  ratio_le : s.totalLiterals + s.currentLiterals.length ≤ max (data.length * maxDecompressionRatio) (1024 * 1024)
  size_le : c.body.length ≤ maxChunkSize
  handled : handleSnappyChunk ext c.chunkType c.body s.currentLiterals (s.pos + 4) = .ok out
  flush_le : out.length > 32 * 1024 → s.totalLiterals + out.length ≤ maxTotalLiterals

section
variable {ext : External} {data rest : Bytes} {s : Chunks}

theorem at_after {c : Chunk} (hat : At data s.pos (c.encode ++ rest)) (out : Bytes) :
    At data (s.after c.body.length out).pos rest := by
  rw [Chunks.after_pos, Nat.add_assoc, ← c.length_encode]
  exact hat.skip

theorem flushBlock_eq_ok {blocks : List CompressedBlock} {literals : Bytes} {blockStart pos total : Nat}
    {r : List CompressedBlock × Nat} :
    flushBlock blocks literals blockStart pos total = .ok r ↔ total + literals.length ≤ maxTotalLiterals ∧
      r = (blocks ++ [⟨blockStart, toU32 (pos - blockStart), some (toU32 literals.length), literals⟩],
        total + literals.length) := by
  unfold flushBlock
  dsimp only
  by_cases h : total + literals.length > maxTotalLiterals
  · rw [failIf_true _ h, Run.error_bind]
    exact ⟨(fun hr => nomatch hr), fun hr => absurd hr.1 (Nat.not_le.mpr h)⟩
  · rw [failIf_false _ h, Run.ok_bind]
    exact ⟨fun hr => ⟨Nat.le_of_not_lt h, (Except.ok.inj hr).symm⟩, fun hr => by rw [hr.2]; rfl⟩

theorem flushBlock_ok {blocks : List CompressedBlock} {literals : Bytes} {blockStart pos total : Nat}
    (h : total + literals.length ≤ maxTotalLiterals) :
    flushBlock blocks literals blockStart pos total =
      .ok (blocks ++ [⟨blockStart, toU32 (pos - blockStart), some (toU32 literals.length), literals⟩],
        total + literals.length) := flushBlock_eq_ok.mpr ⟨h, rfl⟩

theorem decodeChunkLen_chunk {c : Chunk} {start : Nat} (h : At data start (toLe 3 c.body.length ++ rest)) :
    decodeChunkLen data start = .ok (c.body.length, 3) := by
  have hfrom : fromLe (toLe 3 c.body.length) = c.body.length := fromLe_toLe 3 _ c.length_lt
  obtain ⟨b0, b1, b2, hbytes⟩ := List.length_eq_three.mp (length_toLe 3 c.body.length)
  rw [hbytes] at h hfrom
  rw [decodeChunkLen_eq h, hfrom]

theorem chunkTurn_eq_ok (c : Chunk) (h : At data s.pos (c.encode ++ rest)) {turn : Turn Chunks Chunks} :
    chunkTurn ext data s = .ok turn ↔ ∃ out, Admits ext data s c out ∧ turn = .next (s.after c.body.length out) := by
  have hl := h.length
  rw [List.length_append, c.length_encode] at hl
  rw [c.encode_append] at h
  have hbody := h.tail.skip
  rw [length_toLe] at hbody
  unfold chunkTurn Chunks.after
  rw [if_pos h.lt]
  constructor
  · intro hturn
    obtain ⟨_, hcount, hturn⟩ := Run.bind_eq_ok.mp hturn
    obtain ⟨_, htotal, hturn⟩ := Run.bind_eq_ok.mp hturn
    obtain ⟨_, hratio, hturn⟩ := Run.bind_eq_ok.mp hturn
    rw [failIf_eq_ok] at hcount htotal hratio
    rw [h.index, Run.ok_bind] at hturn
    dsimp only at hturn
    rw [decodeChunkLen_chunk h.tail, Run.ok_bind] at hturn
    obtain ⟨_, hsize, hturn⟩ := Run.bind_eq_ok.mp hturn
    rw [failIf_eq_ok] at hsize
    obtain ⟨_, -, hturn⟩ := Run.bind_eq_ok.mp hturn
    rw [hbody.slice rfl, Run.ok_bind] at hturn
    obtain ⟨out, hout, hturn⟩ := Run.bind_eq_ok.mp hturn
    refine ⟨out, ⟨Nat.lt_of_not_le hcount, Nat.le_of_not_lt htotal, Nat.le_of_not_lt hratio, Nat.le_of_not_lt hsize, hout,
      fun hflush => ?_⟩, ?_⟩
    · rw [if_pos hflush] at hturn
      obtain ⟨_, hr, -⟩ := Run.bind_eq_ok.mp hturn
      exact (flushBlock_eq_ok.mp hr).1
    · by_cases hflush : out.length > 32 * 1024
      · rw [if_pos hflush] at hturn ⊢
        obtain ⟨r, hr, hturn⟩ := Run.bind_eq_ok.mp hturn
        rw [(flushBlock_eq_ok.mp hr).2] at hturn
        exact (Except.ok.inj hturn).symm
      · rw [if_neg hflush] at hturn ⊢
        exact (Except.ok.inj hturn).symm
  · rintro ⟨out, hc, rfl⟩
    have hcount := hc.count_lt
    have htotal := hc.total_le
    have hratio := hc.ratio_le
    have hsize := hc.size_le
    dsimp only
    rw [failIf_false _ (by omega), Run.ok_bind, failIf_false _ (by omega), Run.ok_bind, failIf_false _ (by omega),
      Run.ok_bind, h.index, Run.ok_bind, decodeChunkLen_chunk h.tail, Run.ok_bind]
    dsimp only
    rw [failIf_false _ (by omega), Run.ok_bind, failIf_false _ (by omega), Run.ok_bind, hbody.slice rfl, Run.ok_bind,
      hc.handled, Run.ok_bind]
    by_cases hflush : out.length > 32 * 1024
    · rw [if_pos hflush, if_pos hflush, flushBlock_ok (hc.flush_le hflush), Run.ok_bind]
      rfl
    · rw [if_neg hflush, if_neg hflush]
      rfl

/-- What a turn does: it ends the run at the data's end, or takes a chunk. -/
theorem chunkTurn_cases {turn : Turn Chunks Chunks} (h : chunkTurn ext data s = .ok turn) :
    (data.length ≤ s.pos ∧ turn = .done s) ∨ ∃ (c : Chunk) (rest out : Bytes), At data s.pos (c.encode ++ rest) ∧
      Admits ext data s c out ∧ turn = .next (s.after c.body.length out) := by
  by_cases hpos : s.pos < data.length
  · have hchunk : ∃ (c : Chunk) (rest : Bytes), At data s.pos (c.encode ++ rest) := by
      unfold chunkTurn at h
      rw [if_pos hpos] at h
      obtain ⟨-, -, h⟩ := Run.bind_eq_ok.mp h
      obtain ⟨-, -, h⟩ := Run.bind_eq_ok.mp h
      obtain ⟨-, -, h⟩ := Run.bind_eq_ok.mp h
      obtain ⟨chunkType, htype, h⟩ := Run.bind_eq_ok.mp h
      obtain ⟨⟨len, tag⟩, hlen, h⟩ := Run.bind_eq_ok.mp h
      obtain ⟨-, -, h⟩ := Run.bind_eq_ok.mp h
      obtain ⟨_, hend, -⟩ := Run.bind_eq_ok.mp h
      rw [failIf_eq_ok] at hend
      exact chunk_at (index_eq_ok.mp htype) hlen (Nat.le_of_not_lt hend)
    obtain ⟨c, rest, hat⟩ := hchunk
    obtain ⟨out, hc, hturn⟩ := (chunkTurn_eq_ok c hat).mp h
    exact .inr ⟨c, rest, out, hat, hc, hturn⟩
  · unfold chunkTurn at h
    rw [if_neg hpos] at h
    exact .inl ⟨Nat.le_of_not_lt hpos, (Except.ok.inj h).symm⟩

theorem loop_chunk {c : Chunk} {n : Nat} {r : Chunks} (hat : At data s.pos (c.encode ++ rest))
    (h : loop (chunkTurn ext data) (n + 1) s = .ok r) :
    ∃ out, Admits ext data s c out ∧ loop (chunkTurn ext data) n (s.after c.body.length out) = .ok r := by
  rcases loop_ok_iff.mp h with hd | ⟨t, ht, hrun⟩
  · obtain ⟨_, -, hd⟩ := (chunkTurn_eq_ok c hat).mp hd
    cases hd
  · obtain ⟨out, hc, ht⟩ := (chunkTurn_eq_ok c hat).mp ht
    cases ht
    exact ⟨out, hc, hrun⟩

end

/-! ## The blocks and the buffer -/

section
variable {ext : External} {data : Bytes} {s t : Chunks}

def Chunks.gathered (s : Chunks) : Bytes := s.blocks.flatMap (·.literals) ++ s.currentLiterals

structure Flushed (b : CompressedBlock) : Prop where
  large : 32 * 1024 < b.literals.length
  uncompressedLen_eq : b.uncompressedLen = some b.literals.length

structure Gathering (s : Chunks) : Prop where
  flushed : ∀ b ∈ s.blocks, Flushed b
  total_eq : s.totalLiterals = (s.blocks.map (·.literals.length)).sum
  total_le : s.totalLiterals ≤ maxTotalLiterals

theorem flushBlock_inv {blocks out : List CompressedBlock} {literals : Bytes} {blockStart pos total n : Nat}
    (h : flushBlock blocks literals blockStart pos total = .ok (out, n)) :
    n = total + literals.length ∧ n ≤ maxTotalLiterals ∧ ∃ b : CompressedBlock, out = blocks ++ [b] ∧
      b.literals = literals ∧ b.uncompressedLen = some literals.length := by
  obtain ⟨hle, heq⟩ := flushBlock_eq_ok.mp h
  obtain ⟨rfl, rfl⟩ := Prod.mk.inj heq
  have h32 : toU32 literals.length = literals.length := toU32_eq (by unfold maxTotalLiterals at hle; omega)
  exact ⟨rfl, hle, _, rfl, rfl, by rw [h32]⟩

theorem Chunks.gathered_after (s : Chunks) (len : Nat) (out : Bytes) :
    (s.after len out).gathered = s.blocks.flatMap (·.literals) ++ out := by
  unfold after gathered
  by_cases hflush : out.length > 32 * 1024
  · rw [if_pos hflush]
    simp
  · rw [if_neg hflush]

theorem Gathering.after {c : Chunk} {out : Bytes} (h : Gathering s) (hc : Admits ext data s c out) :
    Gathering (s.after c.body.length out) := by
  unfold Chunks.after
  by_cases hflush : out.length > 32 * 1024
  · have hle := hc.flush_le hflush
    rw [if_pos hflush]
    refine ⟨?_, ?_, hle⟩
    · intro b hb
      rcases List.mem_append.mp hb with hb | hb
      · exact h.flushed b hb
      · rw [List.mem_singleton.mp hb]
        exact ⟨hflush, congrArg some (toU32_eq (by unfold maxTotalLiterals at hle; omega))⟩
    · simp only [List.map_append, List.sum_append, List.map_singleton, List.sum_singleton, ← h.total_eq]
  · rw [if_neg hflush]
    exact ⟨h.flushed, h.total_eq, h.total_le⟩

/-- What a turn does with a chunk: its header stands at the position, the plain walk
reads the same body, and its literals are gathered. -/
structure ChunkStep (ext : External) (data : Bytes) (s t : Chunks) (p : Bytes) : Prop where
  chunk : ∃ chunkType body rest, At data s.pos (chunkType :: (toLe 3 body.length ++ (body ++ rest))) ∧
    payload ext chunkType body = some p ∧ body.length ≤ maxChunkSize ∧ t.pos = s.pos + 4 + body.length
  gathered_eq : t.gathered = s.gathered ++ p
  gathering : Gathering s → Gathering t

theorem chunkTurn_inv (h : chunkTurn ext data s = .ok (.next t)) : ∃ p, ChunkStep ext data s t p := by
  rcases chunkTurn_cases h with ⟨-, hd⟩ | ⟨c, rest, out, hat, hc, ht⟩
  · cases hd
  · cases ht
    obtain ⟨p, hp, rfl⟩ := handleSnappyChunk_eq_ok.mp hc.handled
    rw [c.encode_append] at hat
    refine ⟨p, ⟨c.chunkType, c.body, rest, hat, hp.payload_eq, hc.size_le, s.after_pos _ _⟩, ?_, fun hg => hg.after hc⟩
    rw [Chunks.gathered_after, Chunks.gathered, List.append_assoc]

theorem chunkTurn_done {r : Chunks} (h : chunkTurn ext data s = .ok (.done r)) : data.length ≤ s.pos ∧ r = s := by
  rcases chunkTurn_cases h with ⟨hend, hd⟩ | ⟨_, _, _, -, -, ht⟩
  · cases hd
    exact ⟨hend, rfl⟩
  · cases ht

end

/-! ## Runs -/

section
variable {ext : External} {data : Bytes}

theorem chunks_sound : ∀ {n : Nat} {s r : Chunks}, loop (chunkTurn ext data) n s = .ok r → Gathering s →
    s.pos ≤ data.length →
    ∃ ps, payloads ext (data.drop s.pos) = some ps ∧ r.gathered = s.gathered ++ ps.flatten ∧ Gathering r
  | 0, _, _, h, _, _ => by cases h
  | n + 1, s, r, h, hg, hpos => by
    rcases loop_ok_iff.mp h with hd | ⟨t, ht, hrun⟩
    · obtain ⟨hend, rfl⟩ := chunkTurn_done hd
      refine ⟨[], ?_, (List.append_nil _).symm, hg⟩
      rw [List.drop_eq_nil_of_le hend]
      exact payloads_nil ext
    · obtain ⟨p, ⟨chunkType, body, rest, hat, hp, hmax, htpos⟩, hgathered, hkeep⟩ := chunkTurn_inv ht
      have hl := hat.length
      simp only [List.length_cons, List.length_append, length_toLe] at hl
      have hnext : data.drop t.pos = rest := by
        have h4 := hat.tail.skip
        rw [length_toLe] at h4
        rw [htpos, show s.pos + 4 + body.length = s.pos + 1 + 3 + body.length by omega]
        exact h4.skip.drop
      obtain ⟨ps, hps, hr, hgr⟩ := chunks_sound hrun (hkeep hg) (by omega)
      rw [hnext] at hps
      refine ⟨p :: ps, ?_, ?_, hgr⟩
      · rw [hat.drop, payloads_chunk (by unfold maxChunkSize at hmax; omega) hp, hps]
        rfl
      · rw [hr, hgathered, List.flatten_cons, List.append_assoc]

/-- The stream identifier at the start is a chunk the plain walk skips too. -/
theorem payloads_identifier (h : streamIdentifier <+: data) {ps : List Bytes} :
    payloads ext (data.drop 10) = some ps → payloads ext data = some ([] :: ps) := by
  intro hps
  obtain ⟨rest, rfl⟩ := h
  have hid : streamIdentifier ++ rest = 0xff :: (toLe 3 sNaPpY.length ++ (sNaPpY ++ rest)) := rfl
  have hdrop : (streamIdentifier ++ rest).drop 10 = rest := rfl
  rw [hdrop] at hps
  rw [hid, payloads_chunk (p := []) (by decide) rfl, hps]
  rfl

/-- What `extract_literals` starts its loop with. -/
def start (data : Bytes) : Chunks :=
  let pos := if streamIdentifier <+: data then 10 else 0
  ⟨pos, [], 0, 0, [], pos⟩

theorem start_gathering (data : Bytes) : Gathering (start data) := ⟨by simp [start], rfl, Nat.zero_le _⟩

theorem start_pos_le (data : Bytes) : (start data).pos ≤ data.length := by
  unfold start
  by_cases h : streamIdentifier <+: data
  · simp only [if_pos h]
    exact h.length_le
  · simp only [if_neg h]
    exact Nat.zero_le _

theorem extractLiterals_inv {blocks : List CompressedBlock} (h : extractLiterals ext data = .ok blocks) :
    ∃ r, loop (chunkTurn ext data) (data.length + 1) (start data) = .ok r ∧
      (r.currentLiterals = [] ∧ blocks = r.blocks ∨ r.currentLiterals ≠ [] ∧
        ∃ n, flushBlock r.blocks r.currentLiterals r.blockStart r.pos r.totalLiterals = .ok (blocks, n)) := by
  unfold extractLiterals at h
  by_cases hdata : data = []
  · rw [if_pos hdata] at h
    cases h
  · rw [if_neg hdata] at h
    obtain ⟨r, hrun, h⟩ := Run.bind_eq_ok.mp h
    refine ⟨r, hrun, ?_⟩
    by_cases hc : r.currentLiterals = []
    · rw [if_neg (not_not.mpr hc)] at h
      cases h
      exact .inl ⟨hc, rfl⟩
    · rw [if_pos hc] at h
      obtain ⟨⟨out, n⟩, hb, h⟩ := Run.bind_eq_ok.mp h
      cases h
      exact .inr ⟨hc, n, hb⟩

theorem extractLiterals_ok {r : Chunks} (hdata : data ≠ [])
    (hrun : loop (chunkTurn ext data) (data.length + 1) (start data) = .ok r)
    (htotal : r.totalLiterals + r.currentLiterals.length ≤ maxTotalLiterals) :
    ∃ blocks, extractLiterals ext data = .ok blocks := by
  unfold extractLiterals
  rw [if_neg hdata]
  change ∃ blocks, (loop (chunkTurn ext data) (data.length + 1) (start data) >>= _) = .ok blocks
  rw [hrun, Run.ok_bind]
  by_cases hc : r.currentLiterals = []
  · exact ⟨r.blocks, if_neg (not_not.mpr hc)⟩
  · rw [if_pos hc, flushBlock_ok htotal]
    exact ⟨_, rfl⟩

theorem extractLiterals_flushed {blocks : List CompressedBlock} (h : extractLiterals ext data = .ok blocks) :
    ∀ b ∈ blocks, b.literals ≠ [] ∧ b.uncompressedLen = some b.literals.length := by
  obtain ⟨r, hrun, hlast⟩ := extractLiterals_inv h
  obtain ⟨ps, -, -, hg⟩ := chunks_sound hrun (start_gathering data) (start_pos_le data)
  have hflushed : ∀ b ∈ r.blocks, b.literals ≠ [] ∧ b.uncompressedLen = some b.literals.length := by
    intro b hb
    have hlarge := (hg.flushed b hb).large
    exact ⟨List.ne_nil_of_length_pos (by omega), (hg.flushed b hb).uncompressedLen_eq⟩
  rcases hlast with ⟨-, rfl⟩ | ⟨hc, n, hb⟩
  · exact hflushed
  · obtain ⟨-, -, b, rfl, hlit, hlen⟩ := flushBlock_inv hb
    intro c hmem
    rcases List.mem_append.mp hmem with hmem | hmem
    · exact hflushed c hmem
    · rw [List.mem_singleton.mp hmem, hlit, hlen]
      exact ⟨hc, rfl⟩

theorem extractLiterals_gathered {blocks : List CompressedBlock} (h : extractLiterals ext data = .ok blocks) :
    ∃ r, loop (chunkTurn ext data) (data.length + 1) (start data) = .ok r ∧
      blocks.flatMap (·.literals) = r.gathered ∧ r.totalLiterals + r.currentLiterals.length ≤ maxTotalLiterals := by
  obtain ⟨r, hrun, hlast⟩ := extractLiterals_inv h
  obtain ⟨ps, -, -, hg⟩ := chunks_sound hrun (start_gathering data) (start_pos_le data)
  refine ⟨r, hrun, ?_⟩
  rcases hlast with ⟨hc, rfl⟩ | ⟨hc, n, hb⟩
  · rw [Chunks.gathered, hc, List.append_nil]
    exact ⟨rfl, hg.total_le⟩
  · obtain ⟨hn, hle, b, rfl, hlit, -⟩ := flushBlock_inv hb
    rw [Chunks.gathered, List.flatMap_append, List.flatMap_singleton, hlit, ← hn]
    exact ⟨rfl, hle⟩

theorem extractLiterals_payloads {blocks : List CompressedBlock} (h : extractLiterals ext data = .ok blocks) :
    ∃ ps, payloads ext data = some ps ∧ blocks.flatMap (·.literals) = ps.flatten := by
  obtain ⟨r, hrun, hflat, -⟩ := extractLiterals_gathered h
  obtain ⟨ps, hps, hr, -⟩ := chunks_sound hrun (start_gathering data) (start_pos_le data)
  rw [hflat, hr]
  by_cases hid : streamIdentifier <+: data
  · have hstart : (start data).pos = 10 := if_pos hid
    rw [hstart] at hps
    exact ⟨_, payloads_identifier hid hps, rfl⟩
  · have hstart : (start data).pos = 0 := if_neg hid
    rw [hstart, List.drop_zero] at hps
    exact ⟨ps, hps, rfl⟩

/-- **No literal is lost, duplicated or reordered.** The blocks carry what the plain
walk reads, in its order; a block but the last is over 32 KiB. -/
theorem extractLiterals_walk {blocks : List CompressedBlock} (h : extractLiterals ext data = .ok blocks) :
    (∃ ps, payloads ext data = some ps ∧ blocks.flatMap (·.literals) = ps.flatten) ∧
    (∀ b ∈ blocks, b.literals ≠ [] ∧ b.uncompressedLen = some b.literals.length) ∧
    (∀ b ∈ blocks.dropLast, 32768 < b.literals.length) ∧
    (blocks.map (·.literals.length)).sum ≤ maxTotalLiterals := by
  refine ⟨extractLiterals_payloads h, extractLiterals_flushed h, ?_⟩
  obtain ⟨r, hrun, hlast⟩ := extractLiterals_inv h
  obtain ⟨ps, -, -, hg⟩ := chunks_sound hrun (start_gathering data) (start_pos_le data)
  rcases hlast with ⟨-, rfl⟩ | ⟨-, n, hb⟩
  · refine ⟨fun b hb => (hg.flushed b (List.mem_of_mem_dropLast hb)).large, ?_⟩
    rw [← hg.total_eq]
    exact hg.total_le
  · obtain ⟨hn, hle, b, rfl, hlit, -⟩ := flushBlock_inv hb
    rw [List.dropLast_concat]
    refine ⟨fun b hb => (hg.flushed b hb).large, ?_⟩
    rw [List.map_append, List.sum_append, ← hg.total_eq, List.map_singleton, List.sum_singleton, hlit, ← hn]
    exact hle

end

def decodesA : External where
  fnv1a64 := fun _ => 0
  crc32 := fun _ => 0
  gzDecoder := fun _ => ([], none)
  decompressLen := fun z => if z = [0x01, 0x00, 0x61] then some 1 else none
  decompressVec := fun z => if z = [0x01, 0x00, 0x61] then some [0x61] else none

theorem extractLiterals_walk_ab : ∃ ps, payloads decodesA
    [0x00, 7, 0, 0, 0, 0, 0, 0, 0x01, 0x00, 0x61, 0xfe, 1, 0, 0, 0, 0x01, 5, 0, 0, 0, 0, 0, 0, 0x62] = some ps ∧
      [0x61, 0x62] = ps.flatten :=
  have h : extractLiterals decodesA
      [0x00, 7, 0, 0, 0, 0, 0, 0, 0x01, 0x00, 0x61, 0xfe, 1, 0, 0, 0, 0x01, 5, 0, 0, 0, 0, 0, 0, 0x62] =
      .ok [⟨0, 25, some 2, [0x61, 0x62]⟩] := by decide
  (extractLiterals_walk h).1

/-! ## Uncompressed chunks -/

section
variable {ext : External} {data rest : Bytes} {s : Chunks}

theorem handleSnappyChunk_raw (c : RawChunk) (current : Bytes) (pos : Nat) :
    handleSnappyChunk ext 0x01 c.body current pos = .ok (current ++ c.data) := by
  have hpos := c.data_pos
  have hlen : 4 < c.body.length := by rw [c.length_body]; omega
  exact handleSnappyChunk_eq_ok.mpr
    ⟨c.data, ⟨c.payload_body ext, fun h0 => absurd h0 (by decide), fun _ => hlen⟩, rfl⟩

theorem admits_raw (ext : External) (c : RawChunk) (h : At data s.pos (c.encode ++ rest)) (hsize : c.body.length ≤ maxChunkSize)
    (hcount : s.chunkCount + 1 < maxChunksPerStream) (hpos : s.totalLiterals + s.currentLiterals.length ≤ s.pos)
    (htotal : s.totalLiterals + s.currentLiterals.length + c.data.length ≤ maxTotalLiterals) :
    Admits ext data s c.chunk (s.currentLiterals ++ c.data) := by
  have hl := h.length
  rw [List.length_append] at hl
  exact ⟨hcount, by omega, by unfold maxDecompressionRatio; omega, hsize, handleSnappyChunk_raw c _ _,
    fun _ => by rw [List.length_append]; omega⟩

theorem chunkTurn_raw (ext : External) (c : RawChunk) (h : At data s.pos (c.encode ++ rest)) (hsize : c.body.length ≤ maxChunkSize)
    (hcount : s.chunkCount + 1 < maxChunksPerStream) (hpos : s.totalLiterals + s.currentLiterals.length ≤ s.pos)
    (htotal : s.totalLiterals + s.currentLiterals.length + c.data.length ≤ maxTotalLiterals) :
    ∃ t, chunkTurn ext data s = .ok (.next t) ∧ t.chunkCount = s.chunkCount + 1 ∧ t.pos = s.pos + c.encode.length ∧
      t.totalLiterals + t.currentLiterals.length = s.totalLiterals + s.currentLiterals.length + c.data.length := by
  have hadmits := admits_raw ext c h hsize hcount hpos htotal
  refine ⟨_, (chunkTurn_eq_ok c.chunk (by rw [c.encode_chunk]; exact h)).mpr ⟨_, hadmits, rfl⟩, ?_, ?_, ?_⟩
  · exact Chunks.after_chunkCount _ _ _
  · rw [Chunks.after_pos, ← c.encode_chunk, c.chunk.length_encode, Nat.add_assoc]
  · rw [Chunks.after_total, List.length_append, Nat.add_assoc]

theorem chunkTurn_end (ext : External) (h : At data s.pos []) : chunkTurn ext data s = .ok (.done s) := by
  unfold chunkTurn
  rw [if_neg (by rw [h.eq_end]; exact Nat.lt_irrefl _)]
  rfl

def totalData (cs : List RawChunk) : Nat := (cs.map (·.data.length)).sum

theorem chunks_accepted (ext : External) : ∀ {cs : List RawChunk} {n : Nat} {s : Chunks}, cs.length < n →
    At data s.pos (encodeChunks cs) → (∀ c ∈ cs, c.body.length ≤ maxChunkSize) →
    s.chunkCount + cs.length < maxChunksPerStream → s.totalLiterals + s.currentLiterals.length ≤ s.pos →
    s.totalLiterals + s.currentLiterals.length + totalData cs ≤ maxTotalLiterals →
    ∃ r, loop (chunkTurn ext data) n s = .ok r ∧
      r.totalLiterals + r.currentLiterals.length = s.totalLiterals + s.currentLiterals.length + totalData cs
  | [], n, s, hn, h, _, _, _, _ => by
    obtain ⟨n, rfl⟩ : ∃ m, n = m + 1 := ⟨n - 1, by rw [List.length_nil] at hn; omega⟩
    exact ⟨s, loop_done (chunkTurn_end ext h), rfl⟩
  | c :: cs, n, s, hn, h, hsize, hcount, hpos, htotal => by
    rw [List.length_cons] at hn hcount
    obtain ⟨n, rfl⟩ : ∃ m, n = m + 1 := ⟨n - 1, by omega⟩
    unfold encodeChunks at h
    rw [List.flatMap_cons] at h
    unfold totalData at htotal ⊢
    rw [List.map_cons, List.sum_cons] at htotal ⊢
    obtain ⟨t, ht, htcount, htpos, httotal⟩ := chunkTurn_raw ext c h (hsize c List.mem_cons_self) (by omega) hpos
      (by omega)
    have hlen := c.length_encode
    have hnext := h.skip
    rw [← htpos] at hnext
    obtain ⟨r, hr, hrtotal⟩ := chunks_accepted ext (by omega : cs.length < n) hnext
      (fun c hc => hsize c (List.mem_cons_of_mem _ hc)) (by omega) (by omega) (by unfold totalData; omega)
    refine ⟨r, by rw [loop_next ht, hr], ?_⟩
    unfold totalData at hrtotal
    omega

/-- A run over the chunks stops with an error at one whose body is over the limit. -/
theorem chunks_size : ∀ {cs : List RawChunk} {n : Nat} {s r : Chunks}, At data s.pos (encodeChunks cs) →
    loop (chunkTurn ext data) n s = .ok r → ∀ c ∈ cs, c.body.length ≤ maxChunkSize
  | [], _, _, _, _, _ => by simp
  | _ :: _, 0, _, _, _, h => by cases h
  | c :: cs, n + 1, s, r, hat, h => by
    unfold encodeChunks at hat
    rw [List.flatMap_cons, ← c.encode_chunk] at hat
    obtain ⟨out, hc, hrun⟩ := loop_chunk hat h
    intro d hd
    rcases List.mem_cons.mp hd with rfl | hd
    · exact hc.size_le
    · exact chunks_size (at_after hat out) hrun d hd

end

theorem length_encodeChunks : ∀ cs : List RawChunk, cs.length ≤ (encodeChunks cs).length
  | [] => Nat.le_refl _
  | c :: cs => by
    have := length_encodeChunks cs
    have hlen := c.length_encode
    unfold encodeChunks at *
    rw [List.flatMap_cons, List.length_append, List.length_cons]
    omega

theorem start_encodeStream (cs : List RawChunk) : start (encodeStream cs) = ⟨10, [], 0, 0, [], 10⟩ := by
  unfold start
  rw [if_pos (show streamIdentifier <+: encodeStream cs from List.prefix_append _ _)]

theorem encodeStream_at (cs : List RawChunk) :
    At (encodeStream cs) (start (encodeStream cs)).pos (encodeChunks cs) := by
  rw [start_encodeStream]
  exact At.mid streamIdentifier _

theorem body_le_of_accepted {ext : External} {cs : List RawChunk} {blocks : List CompressedBlock}
    (h : extractLiterals ext (encodeStream cs) = .ok blocks) : ∀ c ∈ cs, c.body.length ≤ maxChunkSize := by
  obtain ⟨r, hrun, -⟩ := extractLiterals_inv h
  exact chunks_size (encodeStream_at cs) hrun

/-- **Streams of uncompressed chunks are accepted when no body is over the limit.** The
limit is on the body, which holds the checksum too: data of 65533 to 65536
bytes, which the format allows, is over it. -/
theorem extractLiterals_raw_iff (ext : External) {cs : List RawChunk}
    (hn : cs.length < maxChunksPerStream) (ht : totalData cs ≤ maxTotalLiterals) :
    (∃ blocks, extractLiterals ext (encodeStream cs) = .ok blocks ∧
      blocks.flatMap (·.literals) = cs.flatMap (·.data)) ↔ ∀ c ∈ cs, c.data.length ≤ 65532 := by
  have hat := encodeStream_at cs
  have hbody : (∀ c ∈ cs, c.data.length ≤ 65532) ↔ ∀ c ∈ cs, c.body.length ≤ maxChunkSize := by
    refine forall_congr' fun c => forall_congr' fun _ => ?_
    rw [c.length_body]
    unfold maxChunkSize
    omega
  rw [hbody]
  constructor
  · rintro ⟨blocks, h, -⟩
    exact body_le_of_accepted h
  · intro hsize
    have hlen := length_encodeChunks cs
    have hlenStream : (encodeStream cs).length = 10 + (encodeChunks cs).length := List.length_append
    obtain ⟨r, hrun, htotal⟩ := chunks_accepted ext (by omega : cs.length < (encodeStream cs).length + 1) hat hsize
      (by rw [start_encodeStream]; simpa using hn) (by rw [start_encodeStream]; simp)
      (by rw [start_encodeStream]; simpa using ht)
    rw [start_encodeStream] at htotal
    simp only [List.length_nil, Nat.zero_add] at htotal
    have hdata : encodeStream cs ≠ [] := by
      intro h
      rw [h, List.length_nil] at hlenStream
      omega
    obtain ⟨blocks, hblocks⟩ := extractLiterals_ok hdata hrun (by omega)
    obtain ⟨ps, hps, hflat⟩ := extractLiterals_payloads hblocks
    rw [payloads_encodeStream] at hps
    cases hps
    refine ⟨blocks, hblocks, ?_⟩
    rw [hflat, List.flatten_cons, List.nil_append, ← List.flatMap_def]

theorem extractLiterals_raw_two : ∃ blocks, extractLiterals decodesA
    (encodeStream [⟨0, [7], by decide, by decide⟩, ⟨1, [8, 9], by decide, by decide⟩]) = .ok blocks ∧
      blocks.flatMap (·.literals) = [7, 8, 9] :=
  (extractLiterals_raw_iff decodesA (by decide) (by decide)).mpr (by simp)

def longChunk : RawChunk :=
  ⟨0, List.replicate 65533 0, by rw [List.length_replicate]; decide, by rw [List.length_replicate]; decide⟩

theorem extractLiterals_longChunk : ¬ ∃ blocks, extractLiterals decodesA (encodeStream [longChunk]) = .ok blocks ∧
    blocks.flatMap (·.literals) = longChunk.data := by
  rintro ⟨blocks, h, -⟩
  have hle := body_le_of_accepted h longChunk List.mem_cons_self
  have hlen : longChunk.data.length = 65533 := List.length_replicate
  rw [longChunk.length_body, hlen] at hle
  exact absurd hle (by decide)

end Ziftsieve.Snappy
