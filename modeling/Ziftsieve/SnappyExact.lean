import Ziftsieve.SnappySound

/-!
# The language of the Snappy walk

The walk takes a stream identifier or none, and chunks of at most 64 KiB that
carry something or are skipped. The blocks are cut where the literals gathered
pass 32 KiB. The last chunk is out of the ratio test's sight, which is made
before a chunk is read.
-/

namespace Ziftsieve.Snappy

/-! ## Streams as they are taken -/

/-- A chunk the walk takes, with what it carries. -/
structure Piece (ext : External) extends Chunk where
  carries : Bytes
  handles : Handles ext chunkType body carries
  size_le : body.length ≤ maxChunkSize

variable {ext : External}

def encodePieces (ps : List (Piece ext)) : Bytes := (ps.map (·.encode)).flatten

def carried (ps : List (Piece ext)) : Nat := (ps.map (·.carries.length)).sum

/-- The block of what is gathered from `start` to `stop`. -/
def gatheredBlock (start stop : Nat) (literals : Bytes) : CompressedBlock :=
  ⟨start, toU32 (stop - start), some (toU32 literals.length), literals⟩

/-- The blocks of the chunks from `pos` on, when `buffer` is gathered from `start`. A
block ends behind the header of the chunk that fills it. -/
def cutBlocks (start pos : Nat) (buffer : Bytes) : List (Piece ext) → List CompressedBlock
  | [] => if buffer = [] then [] else [gatheredBlock start pos buffer]
  | p :: ps =>
    if 32 * 1024 < (buffer ++ p.carries).length then
      gatheredBlock start (pos + 4) (buffer ++ p.carries) :: cutBlocks (pos + 4) (pos + p.encode.length) [] ps
    else cutBlocks start (pos + p.encode.length) (buffer ++ p.carries) ps

def headerOf (identified : Bool) : Bytes := if identified then streamIdentifier else []

structure Stream (ext : External) where
  identified : Bool
  pieces : List (Piece ext)

namespace Stream

def header (s : Stream ext) : Bytes := headerOf s.identified

def encode (s : Stream ext) : Bytes := s.header ++ encodePieces s.pieces

def blocks (s : Stream ext) : List CompressedBlock := cutBlocks s.header.length s.header.length [] s.pieces

structure Accepted (s : Stream ext) : Prop where
  nonempty : s.encode ≠ []
  plain : s.identified = false → ¬ streamIdentifier <+: s.encode
  few : s.pieces.length < maxChunksPerStream
  total_le : carried s.pieces ≤ maxTotalLiterals
  ratio_le : carried s.pieces.dropLast ≤ max (s.encode.length * maxDecompressionRatio) (1024 * 1024)

end Stream

/-! ## Runs -/

section
variable {data rest ys : Bytes} {s r : Chunks}

theorem encodePieces_cons (p : Piece ext) (ps : List (Piece ext)) : encodePieces (p :: ps) = p.encode ++ encodePieces ps := by
  rw [encodePieces, List.map_cons, List.flatten_cons]
  rfl

theorem carried_cons (p : Piece ext) (ps : List (Piece ext)) : carried (p :: ps) = p.carries.length + carried ps := by
  rw [carried, List.map_cons, List.sum_cons]
  rfl

def Chunks.take (s : Chunks) (p : Piece ext) : Chunks := s.after p.body.length (s.currentLiterals ++ p.carries)

def Chunks.held (s : Chunks) : Nat := s.totalLiterals + s.currentLiterals.length

theorem Chunks.held_take (s : Chunks) (p : Piece ext) : (s.take p).held = s.held + p.carries.length := by
  rw [held, take, after_total, List.length_append, held, Nat.add_assoc]

theorem Admits.piece {c : Chunk} {out : Bytes} (h : Admits ext data s c out) :
    ∃ p : Piece ext, p.toChunk = c ∧ out = s.currentLiterals ++ p.carries := by
  obtain ⟨carries, hp, rfl⟩ := handleSnappyChunk_eq_ok.mp h.handled
  exact ⟨⟨c, carries, hp, h.size_le⟩, rfl, rfl⟩

theorem admits_piece (p : Piece ext) (hcount : s.chunkCount + 1 < maxChunksPerStream)
    (htotal : s.held + p.carries.length ≤ maxTotalLiterals)
    (hratio : s.held ≤ max (data.length * maxDecompressionRatio) (1024 * 1024)) :
    Admits ext data s p.toChunk (s.currentLiterals ++ p.carries) := by
  refine ⟨hcount, Nat.le_trans (Nat.le_add_right _ _) htotal, hratio, p.size_le,
    handleSnappyChunk_eq_ok.mpr ⟨p.carries, p.handles, rfl⟩, fun _ => ?_⟩
  rw [List.length_append, ← Nat.add_assoc]
  exact htotal

/-- A run that ends has taken chunks to the end of the data. -/
theorem run_pieces {limit : Nat} (hlimit : max (data.length * maxDecompressionRatio) (1024 * 1024) = limit) :
    ∀ (fuel : Nat) {s : Chunks} {ys : Bytes}, At data s.pos ys → loop (chunkTurn ext data) fuel s = .ok r →
      ∃ ps : List (Piece ext), ys = encodePieces ps ∧ r = ps.foldl Chunks.take s ∧
        (ps ≠ [] → s.chunkCount + ps.length < maxChunksPerStream ∧ s.held + carried ps.dropLast ≤ limit)
  | 0, _, _, _, h => by cases h
  | fuel + 1, s, ys, hat, h => by
    rcases loop_ok_iff.mp h with hd | ⟨t, hturn, hrun⟩
    · obtain ⟨hend, rfl⟩ := chunkTurn_done hd
      have hl := hat.length
      exact ⟨[], List.eq_nil_of_length_eq_zero (by omega), rfl, fun hne => absurd rfl hne⟩
    · rcases chunkTurn_cases hturn with ⟨-, hd⟩ | ⟨c, rest, out, hc, hadmits, ht⟩
      · cases hd
      · cases ht
        obtain ⟨p, rfl, rfl⟩ := hadmits.piece
        obtain ⟨ps, rfl, rfl, hps⟩ := run_pieces hlimit fuel (at_after hc _) hrun
        have hheld : s.held ≤ limit := hlimit ▸ hadmits.ratio_le
        refine ⟨p :: ps, ?_, rfl, fun _ => ?_⟩
        · rw [encodePieces_cons, ← hc.drop, hat.drop]
        · cases ps with
          | nil => exact ⟨hadmits.count_lt, hheld⟩
          | cons q ps =>
            obtain ⟨hcount, hratio⟩ := hps (List.cons_ne_nil _ _)
            rw [Chunks.after_chunkCount] at hcount
            have htake : (s.after p.body.length (s.currentLiterals ++ p.carries)).held = s.held + p.carries.length :=
              s.held_take p
            rw [List.dropLast_cons_cons, carried_cons]
            exact ⟨by rw [List.length_cons]; omega, by omega⟩

theorem run_takes {limit : Nat} (hlimit : max (data.length * maxDecompressionRatio) (1024 * 1024) = limit) :
    ∀ {ps : List (Piece ext)} {fuel : Nat} {s : Chunks}, At data s.pos (encodePieces ps) →
      s.chunkCount + ps.length < maxChunksPerStream → s.held + carried ps ≤ maxTotalLiterals →
      (ps ≠ [] → s.held + carried ps.dropLast ≤ limit) → data.length - s.pos < fuel →
      loop (chunkTurn ext data) fuel s = .ok (ps.foldl Chunks.take s)
  | [], fuel + 1, s, hat, _, _, _, _ => loop_done (chunkTurn_end ext hat)
  | p :: ps, fuel + 1, s, hat, hcount, htotal, hratio, hfuel => by
    rw [encodePieces_cons] at hat
    rw [List.length_cons] at hcount
    rw [carried_cons] at htotal
    have hl := hat.length
    have hlen := p.length_encode
    rw [List.length_append] at hl
    have hheld : s.held ≤ limit := Nat.le_trans (Nat.le_add_right _ _) (hratio (List.cons_ne_nil _ _))
    have hadmits : Admits ext data s p.toChunk (s.currentLiterals ++ p.carries) :=
      admits_piece p (by omega) (by omega) (hlimit ▸ hheld)
    have htake := s.held_take p
    have hpos : (s.take p).pos = s.pos + 4 + p.body.length := s.after_pos _ _
    have hcount' : (s.take p).chunkCount = s.chunkCount + 1 := s.after_chunkCount _ _
    rw [loop_next ((chunkTurn_eq_ok p.toChunk hat).mpr ⟨_, hadmits, rfl⟩)]
    refine run_takes hlimit (at_after hat _) ?_ ?_ ?_ ?_
    · change (s.take p).chunkCount + ps.length < maxChunksPerStream
      omega
    · change (s.take p).held + carried ps ≤ maxTotalLiterals
      omega
    · intro hne
      obtain ⟨q, qs, rfl⟩ := List.exists_cons_of_ne_nil hne
      have h := hratio (List.cons_ne_nil _ _)
      rw [List.dropLast_cons_cons, carried_cons] at h
      change (s.take p).held + carried (q :: qs).dropLast ≤ limit
      omega
    · change data.length - (s.take p).pos < fuel
      omega

/-! ## Blocks -/

def Chunks.closed (s : Chunks) : List CompressedBlock :=
  if s.currentLiterals = [] then s.blocks else s.blocks ++ [gatheredBlock s.blockStart s.pos s.currentLiterals]

theorem closed_foldl : ∀ (ps : List (Piece ext)) (s : Chunks),
    (ps.foldl Chunks.take s).closed = s.blocks ++ cutBlocks s.blockStart s.pos s.currentLiterals ps
  | [], s => by
    rw [List.foldl_nil, Chunks.closed, cutBlocks]
    by_cases h : s.currentLiterals = []
    · rw [if_pos h, if_pos h, List.append_nil]
    · rw [if_neg h, if_neg h]
  | p :: ps, s => by
    have hlen := p.length_encode
    rw [List.foldl_cons, closed_foldl ps, cutBlocks, Chunks.take, Chunks.after]
    by_cases h : 32 * 1024 < (s.currentLiterals ++ p.carries).length
    · rw [if_pos h, if_pos h, hlen, ← Nat.add_assoc, List.append_assoc]
      rfl
    · rw [if_neg h, if_neg h, hlen, ← Nat.add_assoc]

theorem held_foldl : ∀ (ps : List (Piece ext)) (s : Chunks), (ps.foldl Chunks.take s).held = s.held + carried ps
  | [], _ => rfl
  | p :: ps, s => by
    rw [List.foldl_cons, held_foldl ps, s.held_take, carried_cons, Nat.add_assoc]

theorem extractLiterals_closed (hdata : data ≠ []) {blocks : List CompressedBlock} :
    extractLiterals ext data = .ok blocks ↔ ∃ r, loop (chunkTurn ext data) (data.length + 1) (start data) = .ok r ∧
      r.held ≤ maxTotalLiterals ∧ r.closed = blocks := by
  constructor
  · intro h
    obtain ⟨r, hrun, hlast⟩ := extractLiterals_inv h
    obtain ⟨_, -, -, hg⟩ := chunks_sound hrun (start_gathering data) (start_pos_le data)
    refine ⟨r, hrun, ?_⟩
    rcases hlast with ⟨hc, rfl⟩ | ⟨hc, n, hb⟩
    · rw [Chunks.held, Chunks.closed, if_pos hc, hc]
      exact ⟨hg.total_le, rfl⟩
    · obtain ⟨hle, heq⟩ := flushBlock_eq_ok.mp hb
      rw [Chunks.closed, if_neg hc]
      exact ⟨hle, (Prod.mk.inj heq).1.symm⟩
  · rintro ⟨r, hrun, hle, rfl⟩
    unfold extractLiterals
    rw [if_neg hdata]
    change (loop (chunkTurn ext data) (data.length + 1) (start data) >>= _) = _
    rw [hrun, Run.ok_bind, Chunks.closed]
    by_cases hc : r.currentLiterals = []
    · rw [if_pos hc, if_neg (not_not.mpr hc)]
      rfl
    · rw [if_neg hc, if_pos hc, flushBlock_ok hle]
      rfl

end

/-! ## Streams -/

def startAt (pos : Nat) : Chunks := ⟨pos, [], 0, 0, [], pos⟩

theorem startAt_held (pos n : Nat) : (startAt pos).held + n = n := Nat.zero_add n

theorem startAt_count (pos n : Nat) : (startAt pos).chunkCount + n = n := Nat.zero_add n

theorem start_header {rest : Bytes} : ∀ {identified : Bool},
    (identified = false → ¬ streamIdentifier <+: headerOf identified ++ rest) →
      start (headerOf identified ++ rest) = startAt (headerOf identified).length
  | false, hplain => by
    unfold start
    rw [if_neg (hplain rfl)]
    rfl
  | true, _ => by
    unfold start
    rw [if_pos (show streamIdentifier <+: headerOf true ++ rest from List.prefix_append _ _)]
    rfl

theorem exists_header (data : Bytes) : ∃ (identified : Bool) (rest : Bytes),
    data = headerOf identified ++ rest ∧ (identified = false → ¬ streamIdentifier <+: data) := by
  by_cases h : streamIdentifier <+: data
  · obtain ⟨rest, rfl⟩ := h
    exact ⟨true, rest, rfl, Bool.noConfusion⟩
  · exact ⟨false, data, rfl, fun _ => h⟩

theorem stream_of_extracts {data : Bytes} {blocks : List CompressedBlock} (h : extractLiterals ext data = .ok blocks) :
    ∃ s : Stream ext, s.Accepted ∧ s.encode = data ∧ s.blocks = blocks := by
  have hdata : data ≠ [] := by
    rintro rfl
    cases h
  obtain ⟨identified, rest, rfl, hplain⟩ := exists_header data
  obtain ⟨r, hrun, hle, rfl⟩ := (extractLiterals_closed hdata).mp h
  rw [start_header hplain] at hrun
  obtain ⟨ps, rfl, rfl, hps⟩ := run_pieces rfl _ (At.mid _ _) hrun
  rw [held_foldl, startAt_held] at hle
  rw [startAt_count, startAt_held] at hps
  refine ⟨⟨identified, ps⟩, ⟨hdata, hplain, ?_, hle, ?_⟩, rfl, (closed_foldl ps (startAt _)).symm⟩
  · by_cases hnil : ps = []
    · subst hnil
      exact Nat.zero_lt_succ _
    · exact (hps hnil).1
  · by_cases hnil : ps = []
    · have hnone : carried ps.dropLast = 0 := by rw [hnil]; rfl
      exact hnone ▸ Nat.zero_le _
    · exact (hps hnil).2

theorem Stream.Accepted.extracts {s : Stream ext} (hs : s.Accepted) : extractLiterals ext s.encode = .ok s.blocks := by
  have hstart : start s.encode = startAt s.header.length := start_header hs.plain
  refine (extractLiterals_closed hs.nonempty).mpr ⟨s.pieces.foldl Chunks.take (start s.encode), ?_, ?_, ?_⟩
  · rw [hstart]
    refine run_takes rfl (At.mid _ _) ?_ ?_ (fun _ => ?_) (Nat.lt_succ_of_le (Nat.sub_le _ _))
    · rw [startAt_count]
      exact hs.few
    · rw [startAt_held]
      exact hs.total_le
    · rw [startAt_held]
      exact hs.ratio_le
  · rw [held_foldl, hstart, startAt_held]
    exact hs.total_le
  · rw [closed_foldl, hstart]
    rfl

/-- **The streams that are taken.** The walk takes exactly these, with these blocks. -/
theorem extractLiterals_takes_iff (ext : External) (data : Bytes) (blocks : List CompressedBlock) :
    extractLiterals ext data = .ok blocks ↔ ∃ s : Stream ext, s.Accepted ∧ s.encode = data ∧ s.blocks = blocks := by
  constructor
  · exact stream_of_extracts
  · rintro ⟨s, hs, rfl, rfl⟩
    exact hs.extracts

end Ziftsieve.Snappy
