import Ziftsieve.GzipCut
import Ziftsieve.Lz4Cut
import Ziftsieve.SnappySound
import Ziftsieve.TarballSafe
import Ziftsieve.ZstdStreams

/-!
# The uncompressed length of a block

The LZ4 and gzip parsers leave it open, Snappy and the tar walk give the length
of the literals, and Zstd gives the block's size in its header. The size of a
compressed block is that of its data, which its literals section can expand, past
the size of a block even.
-/

namespace Ziftsieve

/-! ## Density -/

/-- `literal_density`, without the rounding of `f64`. -/
def CompressedBlock.literalDensity (b : CompressedBlock) : ℚ :=
  match b.uncompressedLen with
  | some ulen => if ulen > 0 then b.literals.length / ulen else 1
  | none => 1

structure CompressedBlock.Bounded (b : CompressedBlock) : Prop where
  literals_le : ∀ ulen, b.uncompressedLen = some ulen → b.literals.length ≤ ulen
  density : 0 ≤ b.literalDensity ∧ b.literalDensity ≤ 1

section
variable {b : CompressedBlock}

theorem CompressedBlock.Bounded.of_le (h : ∀ ulen, b.uncompressedLen = some ulen → b.literals.length ≤ ulen) :
    b.Bounded := by
  refine ⟨h, ?_⟩
  unfold literalDensity
  cases hlen : b.uncompressedLen with
  | none => exact ⟨zero_le_one, le_refl 1⟩
  | some ulen =>
    dsimp only
    by_cases hpos : ulen > 0
    · have hle : (b.literals.length : ℚ) ≤ ulen := Nat.cast_le.mpr (h ulen hlen)
      have hpos' : (0 : ℚ) < ulen := Nat.cast_pos.mpr hpos
      rw [if_pos hpos]
      exact ⟨div_nonneg (Nat.cast_nonneg _) hpos'.le, (div_le_one hpos').mpr hle⟩
    · rw [if_neg hpos]
      exact ⟨zero_le_one, le_refl 1⟩

theorem CompressedBlock.Bounded.of_none (h : b.uncompressedLen = none) : b.Bounded :=
  .of_le fun ulen hlen => by rw [h] at hlen; cases hlen

theorem CompressedBlock.Bounded.of_sized (h : b.uncompressedLen = some b.literals.length) : b.Bounded :=
  .of_le fun ulen hlen => by rw [h] at hlen; exact Nat.le_of_eq (Option.some.inj hlen)

end

/-! ## Literals sections -/

namespace Zstd

/-- The size the header of a literals section gives for the literals. -/
def regeneratedSize : Bytes → Nat
  | [] => 0
  | lsHeader :: rest =>
    let size : Run ZiftError Nat :=
      if (lsHeader &&& 0x03).toNat < 2 then (readRawRleSize lsHeader (lsHeader :: rest)).map (·.1)
      else (readCompressedSize lsHeader (lsHeader :: rest)).map (·.1)
    match size with
    | .ok n => n
    | .error _ => 0

/-- The header is that of an RLE literals section. -/
def isRle (payload : Bytes) : Prop := payload.head?.map (· &&& 0x03) = some 1

theorem length_decodeLiterals {data literals : Bytes} {numLiterals numStreams : Nat}
    (h : decodeLiterals data numLiterals numStreams = .ok literals) :
    literals.length = numLiterals ∧ numLiterals ≤ maxBlockSize := by
  unfold decodeLiterals at h
  obtain ⟨_, hmax, h⟩ := Run.bind_eq_ok.mp h
  obtain ⟨_, -, h⟩ := Run.bind_eq_ok.mp h
  rw [failIf_eq_ok] at hmax
  refine ⟨?_, Nat.le_of_not_lt hmax⟩
  by_cases hzero : numLiterals = 0
  · rw [if_pos hzero] at h
    cases h
    exact hzero.symm
  · rw [if_neg hzero] at h
    obtain ⟨⟨table, treeBytes⟩, -, h⟩ := Run.bind_eq_ok.mp h
    obtain ⟨_, -, h⟩ := Run.bind_eq_ok.mp h
    obtain ⟨payload, -, h⟩ := Run.bind_eq_ok.mp h
    obtain ⟨out, -, h⟩ := Run.bind_eq_ok.mp h
    obtain ⟨_, hlen, h⟩ := Run.bind_eq_ok.mp h
    rw [failIf_eq_ok] at hlen
    cases h
    exact not_not.mp hlen

theorem okOrInvalid_eq_ok {α : Type} {x : Opt α} {a : α} {offset : Nat} {reason : String} :
    okOrInvalid x offset reason = .ok a ↔ x = .ok a := by
  unfold okOrInvalid
  rcases x with (_ | _ | _) | _ <;> simp

theorem length_slice {xs ys : Bytes} {i n : Nat} (h : (slice xs i (i + n) : Run ZiftError Bytes) = .ok ys)
    (hle : i + n ≤ xs.length) : ys.length = n := by
  rw [← (slice_eq_ok.mp h).2, List.length_take, List.length_drop]
  omega

/-- The section has the literals its header says, and the ones an RLE section does not repeat
are within a block's bytes or counted by the decoder. -/
theorem length_extractLiteralsFromBlock {payload literals : Bytes} (h : extractLiteralsFromBlock payload = .ok literals) :
    literals.length = regeneratedSize payload ∧
      (¬ isRle payload → literals.length ≤ max payload.length maxBlockSize) := by
  unfold extractLiteralsFromBlock at h
  rcases payload with - | ⟨lsHeader, rest⟩
  · rw [if_pos rfl] at h
    cases h
    exact ⟨rfl, fun _ => Nat.zero_le _⟩
  rw [if_neg (List.cons_ne_nil _ _)] at h
  have hfirst : (index (lsHeader :: rest) 0 : Run ZiftError UInt8) = .ok lsHeader := rfl
  rw [hfirst, Run.ok_bind] at h
  unfold regeneratedSize
  dsimp only at h ⊢
  split at h
  · rename_i htype
    obtain ⟨⟨size, headerSize⟩, hsize, h⟩ := Run.bind_eq_ok.mp h
    obtain ⟨_, hfit, h⟩ := Run.bind_eq_ok.mp h
    rw [failIf_eq_ok] at hfit
    rw [if_pos (by omega), hsize]
    have hlen := length_slice h (Nat.le_of_not_lt hfit)
    exact ⟨hlen, fun _ => by omega⟩
  · rename_i htype
    obtain ⟨⟨size, headerSize⟩, hsize, h⟩ := Run.bind_eq_ok.mp h
    obtain ⟨_, -, h⟩ := Run.bind_eq_ok.mp h
    obtain ⟨byte, -, h⟩ := Run.bind_eq_ok.mp h
    rw [if_pos (by omega), hsize]
    cases h
    exact ⟨List.length_replicate, fun hrle => absurd (congrArg some (UInt8.toNat_inj.mp htype)) hrle⟩
  · rename_i htype
    obtain ⟨⟨size, compressedSize, headerSize⟩, hsize, h⟩ := Run.bind_eq_ok.mp h
    rw [if_neg (by omega), hsize]
    dsimp only at h
    by_cases hzero : compressedSize = 0
    · rw [if_pos hzero] at h
      obtain ⟨_, hfit, h⟩ := Run.bind_eq_ok.mp h
      rw [failIf_eq_ok] at hfit
      have hlen := length_slice h (Nat.le_of_not_lt hfit)
      exact ⟨hlen, fun _ => by omega⟩
    · rw [if_neg hzero] at h
      obtain ⟨_, -, h⟩ := Run.bind_eq_ok.mp h
      obtain ⟨compressed, -, h⟩ := Run.bind_eq_ok.mp h
      obtain ⟨hlen, hmax⟩ := length_decodeLiterals (okOrInvalid_eq_ok.mp h)
      exact ⟨hlen, fun _ => by omega⟩
  · cases h
  · cases h

/-! ## Blocks of a stream -/

/-- A compressed block's literals section gives no more literals than the block has bytes. -/
def FrameBlock.Unexpanded (b : FrameBlock) : Prop :=
  ∀ payload, b.content = .compressed payload → regeneratedSize payload ≤ payload.length

theorem FrameBlock.literals_le_iff (b : FrameBlock) : b.literals.length ≤ b.content.size ↔ b.Unexpanded := by
  have hread := b.read_eq
  unfold FrameBlock.Unexpanded
  cases hcontent : b.content with
  | raw data =>
    rw [hcontent] at hread
    have hlits := Except.ok.inj hread
    exact ⟨fun _ _ h => (nomatch h), fun _ => by rw [← hlits]; exact Nat.le_refl _⟩
  | rle byte count =>
    rw [hcontent] at hread
    have hlits := Except.ok.inj hread
    exact ⟨fun _ _ h => (nomatch h), fun _ => by rw [← hlits, List.length_replicate]; exact Nat.le_refl _⟩
  | compressed payload =>
    rw [hcontent] at hread
    have hlen : b.literals.length = regeneratedSize payload := (length_extractLiteralsFromBlock hread).1
    rw [hlen]
    constructor
    · rintro hle _ ⟨⟩
      exact hle
    · exact fun h => h payload rfl

theorem FrameBlock.located_bounded (b : FrameBlock) (offset : Nat) : (b.located offset).Bounded ↔ b.Unexpanded := by
  rw [← b.literals_le_iff]
  constructor
  · exact fun h => h.literals_le _ rfl
  · exact fun h => .of_le fun ulen hlen => by rw [← Option.some.inj hlen]; exact h

section
variable {P : CompressedBlock → Prop} {Q : FrameBlock → Prop}

theorem locate_forall (h : ∀ b offset, P (FrameBlock.located offset b) ↔ Q b) : ∀ (bs : List FrameBlock) (offset : Nat),
    (∀ c ∈ locate offset bs, P c) ↔ ∀ b ∈ bs, Q b
  | [], _ => by simp [locate]
  | b :: bs, offset => by
    rw [locate, List.forall_mem_cons, List.forall_mem_cons, h, locate_forall h bs]

theorem locateSegments_forall (h : ∀ b offset, P (FrameBlock.located offset b) ↔ Q b) :
    ∀ (gs : List Segment) (offset : Nat),
      (∀ c ∈ locateSegments offset gs, P c) ↔ ∀ g ∈ gs, ∀ b ∈ g.frame.blocks, Q b
  | [], _ => by simp [locateSegments]
  | g :: gs, offset => by
    rw [locateSegments, List.forall_mem_append, List.forall_mem_cons, locate_forall h, locateSegments_forall h gs]

theorem extractLiterals_forall (h : ∀ b offset, P (FrameBlock.located offset b) ↔ Q b) (data : Bytes) :
    (∀ bs, extractLiterals data = .ok bs → ∀ b ∈ bs, P b) ↔
      ∀ s : Stream, s.Fits → data = s.encode → ∀ g ∈ s.segments, ∀ b ∈ g.frame.blocks, Q b := by
  constructor
  · rintro hall s hs rfl
    exact (locateSegments_forall h s.segments 0).mp (hall s.blocks hs.extracts)
  · intro hall bs hbs
    obtain ⟨s, hs, hdata, rfl⟩ := extractLiterals_eq_ok_iff.mp hbs
    exact (locateSegments_forall h s.segments 0).mpr (hall s hs hdata)

end

/-- No compressed block of the stream expands in its literals section. -/
def Stream.Unexpanded (s : Stream) : Prop := ∀ g ∈ s.segments, ∀ b ∈ g.frame.blocks, b.Unexpanded

/-! ## The literals of one block -/

/-- An RLE literals section of the block is not larger than a block. -/
def FrameBlock.Limited (b : FrameBlock) : Prop :=
  ∀ payload, b.content = .compressed payload → isRle payload → regeneratedSize payload ≤ maxBlockSize

/-- The header of an RLE literals section is the only size that nothing limits. -/
theorem FrameBlock.literals_le_max_iff (b : FrameBlock) : b.literals.length ≤ maxBlockSize ↔ b.Limited := by
  have hread := b.read_eq
  have hsize := b.size_le
  unfold FrameBlock.Limited
  cases hcontent : b.content with
  | raw data =>
    rw [hcontent] at hread hsize
    rw [← Except.ok.inj hread]
    exact ⟨fun _ _ h => (nomatch h), fun _ => hsize⟩
  | rle byte count =>
    rw [hcontent] at hread hsize
    rw [← Except.ok.inj hread, List.length_replicate]
    exact ⟨fun _ _ h => (nomatch h), fun _ => hsize⟩
  | compressed payload =>
    rw [hcontent] at hread hsize
    obtain ⟨hlen, hother⟩ := length_extractLiteralsFromBlock hread
    constructor
    · rintro hle _ ⟨⟩ -
      rwa [← hlen]
    · intro h
      by_cases hrle : isRle payload
      · rw [hlen]
        exact h payload rfl hrle
      · exact Nat.le_trans (hother hrle) (Nat.max_le.mpr ⟨hsize, Nat.le_refl _⟩)

/-- **A block has at most 128 KiB of literals** in exactly the accepted streams whose RLE
literals sections keep within that size. -/
theorem extractLiterals_block_le_iff (data : Bytes) :
    (∀ bs, extractLiterals data = .ok bs → ∀ b ∈ bs, b.literals.length ≤ 131072) ↔
      ∀ s : Stream, s.Fits → data = s.encode → ∀ g ∈ s.segments, ∀ b ∈ g.frame.blocks, b.Limited :=
  extractLiterals_forall (fun b _ => b.literals_le_max_iff) data

/-- 131073 times `"a"` from a literals section of four bytes, and no sequences. -/
def runOfLiterals : FrameBlock where
  content := .compressed [0x1D, 0, 0x20, 97, 0]
  literals := List.replicate 131073 97
  size_le := by decide
  read_eq := rfl

def overlongFrame : Frame :=
  { literalsFrame with window := [0x38], window_length := literalsFrame.window_length, last := runOfLiterals }

theorem startsFrame_nil : startsFrame [] = false := rfl

def overlongStream : Stream := ⟨[⟨[], overlongFrame⟩], [], [], startsFrame_nil⟩

theorem overlongStream_extracts : extractLiterals [0x28, 0xB5, 0x2F, 0xFD, 0x00, 0x38, 0x2D, 0, 0, 0x1D, 0, 0x20, 97, 0] =
    .ok [⟨6, 8, some 5, List.replicate 131073 97⟩] := by
  have hsum : sumLiterals overlongStream.frames = 131073 := by
    simp only [sumLiterals, totalLiterals, Stream.frames, overlongStream, overlongFrame, literalsFrame, Frame.blocks,
      runOfLiterals, List.map_cons, List.map_nil, List.nil_append, List.sum_cons, List.sum_nil, List.length_replicate, Nat.add_zero]
  have hlits : sumLiterals overlongStream.frames ≤ literalLimit overlongStream.encode.length := by
    rw [hsum]
    exact Nat.le_min.mpr ⟨by decide, Nat.le_trans (by decide) (Nat.le_max_right _ _)⟩
  have hfits : overlongStream.Fits := {
    frames_le := show 1 ≤ 1000 by decide
    count_lt := fun _ => show 1 < 1000 by decide
    blocks := ⟨.inl rfl, trivial⟩
    literals_le := hlits
    skips_le := fun g hg => by rw [List.mem_singleton.mp hg]; exact Nat.zero_le _
    trail_le := Nat.zero_le _
    junk_after := fun _ => List.cons_ne_nil _ _
    nonempty := List.cons_ne_nil _ _ }
  exact hfits.extracts

theorem extractLiterals_block_overlong : ∃ data b, extractLiterals data = .ok [b] ∧ 131072 < b.literals.length := by
  exact ⟨_, _, overlongStream_extracts, by rw [List.length_replicate]; decide⟩

end Zstd

/-! ## Every parser -/

/-- **The literals fit the uncompressed length** in each parser's blocks, but for Zstd just
when no literals section of the stream expands past its block's data. -/
theorem uncompressedLen_bounds_iff (ext : External) (multiGzDecoder : Bytes → List Bytes × Option String) (data : Bytes) :
    (∀ bs, Lz4.parseLz4Blocks data = .ok bs → ∀ b ∈ bs, b.Bounded) ∧
      (∀ bs, Snappy.extractLiterals ext data = .ok bs → ∀ b ∈ bs, b.Bounded) ∧
      (∀ bs, Gzip.extractLiterals ext data = .ok bs → ∀ b ∈ bs, b.Bounded) ∧
      (∀ bs, Tarball.scanTarballLiterals multiGzDecoder data = .ok bs → ∀ b ∈ bs, b.Bounded) ∧
      ((∀ bs, Zstd.extractLiterals data = .ok bs → ∀ b ∈ bs, b.Bounded) ↔
        ∀ s : Zstd.Stream, s.Fits → data = s.encode → s.Unexpanded) := by
  refine ⟨fun bs h b hb => ?_, fun bs h b hb => ?_, fun bs h b hb => ?_, fun bs h b hb => ?_,
    Zstd.extractLiterals_forall Zstd.FrameBlock.located_bounded data⟩
  · obtain ⟨w, hw, -, rfl⟩ := Lz4.parseLz4Blocks_totals h
    exact .of_none (hw.uncompressedLen_eq b hb)
  · exact .of_sized (Snappy.extractLiterals_flushed h b hb).2
  · obtain ⟨total, htotals⟩ := Gzip.extractLiterals_totals h
    exact .of_none (htotals.uncompressedLen_eq b hb)
  · exact .of_sized (((Tarball.scanTarballLiterals_safe multiGzDecoder data).post bs h).2 b hb)

/-- A frame of one compressed block of three bytes: 31 times `"a"`, and no sequences. -/
def expandingFrame : Bytes :=
  [0x28, 0xB5, 0x2F, 0xFD, 0x20, 31, 0x1D, 0, 0, 0xF9, 97, 0]

theorem uncompressedLen_expandingFrame :
    ¬ ∀ bs, Zstd.extractLiterals expandingFrame = .ok bs → ∀ b ∈ bs, b.Bounded := by
  intro h
  have hok : Zstd.extractLiterals expandingFrame = .ok [⟨6, 6, some 3, List.replicate 31 97⟩] := by decide +kernel
  have hbounded := h _ hok _ (List.mem_singleton.mpr rfl)
  have hle : 31 ≤ 3 := hbounded.literals_le 3 rfl
  omega

end Ziftsieve
