import Ziftsieve.GzipTraces
import Mathlib.Data.List.Forall2

/-!
# The byte spans of gzip blocks

A block stands between two bits, and is reported by bytes: the byte it starts
in, and as many bytes as its bits fill. That counts one byte too few when the
bits start late in a byte and end early in another.
-/

namespace Ziftsieve.Gzip

/-- The bits of a block: from `start` on, up to `stop`. -/
structure Span where
  start : Nat
  stop : Nat
  deriving Repr, DecidableEq

namespace Span

def bits (x : Span) : Nat := x.stop - x.start

/-- The block starts on a byte boundary, or the bits it has beyond whole bytes fit into what is
left of the byte it starts in. -/
def Fits (x : Span) : Prop := x.start % 8 = 0 ∨ (0 < x.bits % 8 ∧ x.start % 8 + x.bits % 8 ≤ 8)

instance (x : Span) : Decidable x.Fits := inferInstanceAs (Decidable (_ ∨ _))

end Span

/-- The bits of the block read next. -/
def streamSpans (r : BitReader) : List Span :=
  seen (readBits 1) (fun _ => seen (readBits 2) fun blockType =>
    seen (parseSingleBlock blockType (CompressedBlock.new (r.bitOffset / 8) 0)) fun _ t =>
      [⟨r.bitOffset, t.bitOffset⟩]) r

/-- The bits of every block, as the parser's run reads them. -/
def spans (ext : External) (data : Bytes) : List Span := blockTrace ext data streamSpans

/-- The bytes reported for a block hold all its bits. -/
structure Covers (b : CompressedBlock) (x : Span) : Prop where
  start : 8 * b.compressedOffset ≤ x.start
  stop : x.stop ≤ 8 * (b.compressedOffset + b.compressedLen)

/-- What is reported for a block. -/
structure Reports (b : CompressedBlock) (x : Span) : Prop where
  le : x.start ≤ x.stop
  offset_eq : b.compressedOffset = x.start / 8
  len_eq : b.compressedLen = (x.bits + 7) / 8

theorem Reports.covers_iff {b : CompressedBlock} {x : Span} (h : Reports b x) : Covers b x ↔ x.Fits := by
  obtain ⟨hle, hoffset, hlen⟩ := h
  unfold Span.bits at hlen
  unfold Span.Fits Span.bits
  constructor
  · rintro ⟨hstart, hstop⟩
    omega
  · intro hfits
    exact ⟨by omega, by omega⟩

/-! ## A block keeps its offset -/

section
variable {data : Bytes} {k p : Nat} {b : CompressedBlock}

theorem parseStoredBlock_offset : Tracks (cutView data k) p (parseStoredBlock b) fun _ b' =>
    b'.compressedOffset = b.compressedOffset := by
  unfold parseStoredBlock
  refine alignToByte_tracks.bind fun _ _ _ _ => readU16Le_tracks.bind fun _ len _ _ => ?_
  refine readU16Le_tracks.bind fun _ nlen _ _ => Tracks.ite (fun _ => Tracks.failHere _) fun _ => ?_
  refine Tracks.ite (fun _ => Tracks.fail _) fun _ => (readBytes_tracks len).bind fun _ bytes _ _ => ?_
  exact Tracks.pure rfl

theorem parseHuffmanBlock_offset (d e : HuffmanDecoder) : Tracks (cutView data k) p (parseHuffmanBlock b d e) fun _ m =>
    m.2.compressedOffset = b.compressedOffset := by
  refine Tracks.loop (I := fun _ s => s.block.compressedOffset = b.compressedOffset) (fun p s hs => ?_) _ rfl
  unfold huffmanTurn
  refine Tracks.ite (fun _ => Tracks.failHere _) fun _ => (decode_tracks d).bind fun q symbol _ _ => ?_
  refine Tracks.ite (fun _ => Tracks.ite (fun _ => Tracks.fail _) fun _ => Tracks.pure hs) fun _ => ?_
  refine Tracks.ite (fun _ => Tracks.pure hs) fun _ => Tracks.ite (fun _ => ?_) fun _ => ?_
  · refine Tracks.bind (Q := fun _ _ => True) ?_ fun _ _ _ _ => Tracks.pure hs
    exact (matchPair_tracks symbol e).bind fun _ _ _ _ => Tracks.pure trivial
  · exact Tracks.ite (fun _ => Tracks.failHere _) fun _ => Tracks.failHere _

theorem parseSingleBlock_offset (blockType : Nat) : Tracks (cutView data k) p (parseSingleBlock blockType b) fun _ m =>
    m.2.compressedOffset = b.compressedOffset := by
  unfold parseSingleBlock
  split
  · exact parseStoredBlock_offset.bind fun _ _ _ hb => Tracks.pure hb
  · refine (Tracks.lift_any _).bind fun _ d _ _ => (Tracks.lift_any _).bind fun _ e _ _ => ?_
    exact parseHuffmanBlock_offset d e
  · exact parseDynamicTrees_tracks.bind fun _ t _ _ => parseHuffmanBlock_offset t.1 t.2
  · exact Tracks.withReader (fun r r' hr hr' => by rw [hr.bytePos_eq, hr'.bytePos_eq]) fun r _ => Tracks.fail _
  · exact Tracks.stop _

/-! ## The run -/

/-- The blocks that are added report what is shown. -/
def Reported (blocks blocks' : List CompressedBlock) (l : List Span) : Prop :=
  ∃ added, blocks' = blocks ++ added ∧ List.Forall₂ Reports added l

theorem reported_composes : Composes fun _ blocks _ blocks' l => Reported blocks blocks' l where
  refl _ blocks := ⟨[], (List.append_nil blocks).symm, List.Forall₂.nil⟩
  trans := by
    rintro _ _ _ blocks _ _ l k ⟨added, rfl, h⟩ ⟨added', rfl, h'⟩
    exact ⟨added ++ added', List.append_assoc _ _ _, List.rel_append h h'⟩
  widen _ _ h := h

theorem streamSpans_shows (s : Stream) :
    Shows (cutView data k) p (streamTurn s) streamSpans fun _ turn l =>
      turn.Holds (fun s' => Reported s.blocks s'.blocks l) fun s' => Reported s.blocks s'.blocks l := by
  unfold streamTurn streamSpans
  refine Shows.guarded (fun _ => Shows.failHere _) fun _ => Shows.withReader (g := fun r => seen (readBits 1) fun _ =>
    seen (readBits 2) fun blockType => seen (parseSingleBlock blockType (CompressedBlock.new (r.bitOffset / 8) 0))
      fun _ t => [Span.mk r.bitOffset t.bitOffset]) fun r hr => ?_
  rw [hr.bitOffset]
  refine Shows.seen (readBits_tracks 1) fun q₁ final h₁ _ => Shows.seen (readBits_tracks 2) fun q₂ blockType h₂ _ => ?_
  refine Shows.seen (parseSingleBlock_offset blockType) fun q m h₃ hoffset => ?_
  have hpush : Reported s.blocks (s.blocks ++ [{ m.2 with compressedLen := (q - p + 7) / 8 }]) [⟨p, q⟩] :=
    ⟨_, rfl, .cons ⟨Nat.le_trans h₁ (Nat.le_trans h₂ h₃), hoffset, rfl⟩ .nil⟩
  refine Shows.const_at (l := [⟨p, q⟩]) (fun t ht => by rw [(show Synced data q t from ht).bitOffset]) ?_
  refine Tracks.failIf fun _ => Tracks.withReader (fun t t' ht ht' => by rw [ht.bitOffset, ht'.bitOffset]) fun t ht => ?_
  rw [ht.bitOffset]
  refine Tracks.failIf fun _ => Tracks.pure ?_
  by_cases hfinal : final = 1
  · rw [if_pos hfinal]
    exact hpush
  · rw [if_neg hfinal]
    exact hpush

theorem extractLiterals_reports {ext : External} {bs : List CompressedBlock} (h : extractLiterals ext data = .ok bs) :
    List.Forall₂ Reports bs (spans ext data) := by
  obtain ⟨added, rfl, hadded⟩ := blockTrace_shows reported_composes (fun _ => streamSpans_shows) h
  exact hadded

/-- **The bytes reported hold the bits** of every block exactly when every block fits. -/
theorem extractLiterals_covers_iff (ext : External) (data : Bytes) (bs : List CompressedBlock)
    (h : extractLiterals ext data = .ok bs) :
    List.Forall₂ Covers bs (spans ext data) ↔ ∀ x ∈ spans ext data, x.Fits := by
  have hreports := extractLiterals_reports h
  clear h
  generalize spans ext data = l at hreports
  induction hreports with
  | nil => simp
  | cons hb _ ih =>
    rw [List.forall₂_cons, List.forall_mem_cons]
    exact and_congr hb.covers_iff ih

end

theorem extractLiterals_covers_storedTwice :
    List.Forall₂ Covers [⟨10, 6, none, [97]⟩, ⟨34, 6, none, [97]⟩] (spans .fnvOnly storedTwice) := by
  have hspans : spans .fnvOnly storedTwice = [⟨80, 128⟩, ⟨272, 320⟩] := by decide +kernel
  refine (extractLiterals_covers_iff .fnvOnly storedTwice _ storedTwice_accepted).mpr ?_
  rw [hspans]
  decide

/-- Two dynamic blocks: three bytes `0xFF`, and nothing. The second starts at the last but one bit of a byte. -/
def lateBlock : Bytes :=
  [31, 139, 8, 0, 0, 0, 0, 0, 0, 255, 4, 192, 129, 0, 0, 0, 0, 0, 144, 255, 106, 96, 1, 112, 32, 0, 0, 0, 0, 0, 228,
   191, 26, 1, 0, 255, 255, 255, 3, 0, 0, 0]

/-- The CRC of its three literals. -/
def lateOnly : External :=
  ⟨fun _ => 0, fun _ => 0xFFFFFF00, fun _ => ([], none), fun _ => none, fun _ => none⟩

/-- The 91 bits from bit 174 on are reported as the twelve bytes from byte 21 on, up to bit 264. -/
theorem extractLiterals_covers_lateBlock :
    extractLiterals lateOnly lateBlock = .ok [⟨10, 12, none, [255, 255, 255]⟩, ⟨21, 12, none, []⟩] ∧
      spans lateOnly lateBlock = [⟨80, 174⟩, ⟨174, 265⟩] ∧ ¬ Covers ⟨21, 12, none, []⟩ ⟨174, 265⟩ := by
  refine ⟨by decide +kernel, by decide +kernel, ?_⟩
  intro h
  have hstop := h.stop
  simp at hstop

end Ziftsieve.Gzip
