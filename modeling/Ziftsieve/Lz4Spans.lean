import Ziftsieve.Lz4Cut
import Mathlib.Data.List.Chain
import Mathlib.Data.List.Forall2

/-!
# The byte spans of LZ4 blocks

A block is four bytes of header and a payload. It is reported by the place of
its header and the size of its payload, so that its span ends four bytes before
the payload does, and four bytes before the next block's.
-/

namespace Ziftsieve.Lz4

/-- The payload size in the header at a byte; a header cut short counts as its bytes before zeros. -/
def sizeAt (data : Bytes) (pos : Nat) : Nat := fromLe ((data.drop pos).take 4) % 2 ^ 31

/-- Where a block stands: its header, and the size of the payload behind the header. -/
structure Place where
  header : Nat
  size : Nat
  deriving Repr, DecidableEq

def Place.payloadStart (x : Place) : Nat := x.header + 4
def Place.payloadEnd (x : Place) : Nat := x.header + 4 + x.size

/-- The first `n` blocks from a byte on, with `gap` bytes of checksum after each. -/
def places (data : Bytes) (gap : Nat) : Nat → Nat → List Place
  | 0, _ => []
  | n + 1, pos => ⟨pos, sizeAt data pos⟩ :: places data gap n (pos + 4 + sizeAt data pos + gap)

/-- The frame's descriptor announces a checksum after each block. -/
def blockChecksums (data : Bytes) : Bool := isFramed data && data.getD 4 0 &&& 0x10 ≠ 0

def checksumGap (data : Bytes) : Nat := if blockChecksums data then 4 else 0

/-- The reported span holds the block's payload. -/
structure Holds (b : CompressedBlock) (x : Place) : Prop where
  start : b.compressedOffset ≤ x.payloadStart
  stop : x.payloadEnd ≤ b.compressedOffset + b.compressedLen

def Adjacent (b c : CompressedBlock) : Prop := b.compressedOffset + b.compressedLen = c.compressedOffset

/-- The spans of the blocks behind byte `start` hold their payloads and, without checksums, are adjacent. -/
structure SpansHold (data : Bytes) (start : Nat) (bs : List CompressedBlock) : Prop where
  payloads : List.Forall₂ Holds bs (places data (checksumGap data) bs.length start)
  adjacent : blockChecksums data = false → bs.IsChain Adjacent

/-- No block stands behind byte `start`: the header is not all there, or gives no size. -/
def NoBlock (data : Bytes) (start : Nat) : Prop := data.length < start + 4 ∨ sizeAt data start = 0

/-- What is reported for a block. -/
structure Reports (b : CompressedBlock) (x : Place) : Prop where
  pos : 0 < x.size
  offset_eq : b.compressedOffset = x.header
  len_eq : b.compressedLen = x.size

theorem Reports.not_holds {b : CompressedBlock} {x : Place} (h : Reports b x) : ¬ Holds b x := by
  obtain ⟨hpos, hoffset, hlen⟩ := h
  rintro ⟨-, hstop⟩
  unfold Place.payloadEnd at hstop
  omega

section
variable {data : Bytes} {framed : Bool} {w : Walk}

/-! ## Turns -/

theorem readLe32_sizeAt {pos word : Nat} (hlen : pos + 4 ≤ data.length)
    (h : (readLe32 data pos : Run ZiftError Nat) = .ok word) : word &&& 0x7FFFFFFF = sizeAt data pos := by
  obtain ⟨b0, b1, b2, b3, ys, hdrop⟩ := exists_cons4 (show 4 ≤ (data.drop pos).length by rw [List.length_drop]; omega)
  have hat : At data pos (b0 :: b1 :: b2 :: b3 :: ys) := ⟨by omega, hdrop⟩
  rw [hat.readLe32] at h
  cases h
  rw [low31, sizeAt, hdrop]
  rfl

theorem walkTurn_at {t : Turn Walk (List CompressedBlock)} (h : walkTurn data framed w = .ok t) :
    (t = .done w.blocks ∧ NoBlock data w.offset) ∨ ∃ b w', t = .next w' ∧ w.offset + 4 ≤ data.length ∧
      TakesBlock data w (sizeAt data w.offset) b w' := by
  unfold walkTurn at h
  by_cases hmore : w.offset < data.length
  · rw [if_pos hmore] at h
    obtain ⟨_, -, h⟩ := Run.bind_eq_ok.mp h
    by_cases hshort : w.offset + 4 > data.length
    · rw [if_pos hshort] at h
      by_cases hend : w.offset = data.length ∨ ¬ framed
      · rw [if_pos hend] at h
        cases h
        exact .inl ⟨rfl, .inl hshort⟩
      · rw [if_neg hend] at h
        cases h
    · rw [if_neg hshort] at h
      obtain ⟨word, hword, h⟩ := Run.bind_eq_ok.mp h
      dsimp only at h
      rw [readLe32_sizeAt (Nat.le_of_not_lt hshort) hword] at h
      by_cases hzero : sizeAt data w.offset = 0
      · rw [if_pos hzero] at h
        cases h
        exact .inl ⟨rfl, .inr hzero⟩
      · rw [if_neg hzero] at h
        obtain ⟨w', hw', h⟩ := Run.bind_eq_ok.mp h
        cases h
        obtain ⟨b, hb⟩ := walkBlock_takes (Nat.pos_of_ne_zero hzero) hw'
        exact .inr ⟨b, w', rfl, Nat.le_of_not_lt hshort, hb⟩
  · rw [if_neg hmore] at h
    cases h
    exact .inl ⟨rfl, .inl (by omega)⟩

/-! ## Runs -/

theorem walk_reports : ∀ {n : Nat} {w : Walk} {bs : List CompressedBlock}, loop (walkTurn data framed) n w = .ok bs →
    ∃ added, bs = w.blocks ++ added ∧ List.Forall₂ Reports added (places data 0 added.length w.offset) ∧
      (added = [] ↔ NoBlock data w.offset)
  | 0, _, _, h => by cases h
  | n + 1, w, bs, h => by
    rcases loop_ok_iff.mp h with hdone | ⟨w', hnext, hrest⟩
    · rcases walkTurn_at hdone with ⟨heq, hnone⟩ | ⟨_, _, heq, -⟩
      · cases heq
        exact ⟨[], (List.append_nil _).symm, .nil, iff_of_true rfl hnone⟩
      · cases heq
    · rcases walkTurn_at hnext with ⟨heq, -⟩ | ⟨b, _, heq, hlen, hb⟩
      · cases heq
      cases heq
      obtain ⟨added, rfl, hadded, -⟩ := walk_reports hrest
      have hpos := hb.pos
      have hsome : ¬ NoBlock data w.offset := by
        rintro (hshort | hzero)
        · omega
        · omega
      refine ⟨b :: added, ?_, ?_, iff_of_false (List.cons_ne_nil b added) hsome⟩
      · rw [hb.next, List.append_assoc, List.singleton_append]
      · rw [hb.next] at hadded
        exact .cons ⟨hb.pos, hb.offset_eq, hb.len_eq⟩ hadded

theorem parseLz4Blocks_reports {bs : List CompressedBlock} (h : parseLz4Blocks data = .ok bs) :
    ∃ start, parseFrameHeader data = .ok start ∧ List.Forall₂ Reports bs (places data 0 bs.length start) ∧
      (bs = [] ↔ NoBlock data start) := by
  unfold parseLz4Blocks at h
  by_cases hnil : data = []
  · rw [if_pos hnil] at h
    cases h
  rw [if_neg hnil] at h
  obtain ⟨start, hstart, h⟩ := Run.bind_eq_ok.mp h
  obtain ⟨added, rfl, hadded⟩ := walk_reports h
  exact ⟨start, hstart, hadded⟩

end

/-- **The spans hold the payloads only of a stream without blocks.** The blocks, taken one right behind
the other, are reported with their headers' places and their payloads' sizes: the first one's span ends
four bytes before its payload, with checksums and without. -/
theorem parseLz4Blocks_spans_iff (data : Bytes) (bs : List CompressedBlock) (h : parseLz4Blocks data = .ok bs) :
    ∃ start, parseFrameHeader data = .ok start ∧ List.Forall₂ Reports bs (places data 0 bs.length start) ∧
      (SpansHold data start bs ↔ NoBlock data start) := by
  obtain ⟨start, hstart, hreports, hnone⟩ := parseLz4Blocks_reports h
  refine ⟨start, hstart, hreports, ?_⟩
  rw [← hnone]
  constructor
  · rintro ⟨hpayloads, -⟩
    cases bs with
    | nil => rfl
    | cons b bs =>
      have hb : Reports b ⟨start, sizeAt data start⟩ := (List.forall₂_cons.mp hreports).1
      exact absurd (List.forall₂_cons.mp hpayloads).1 hb.not_holds
  · rintro rfl
    exact ⟨.nil, fun _ => .nil⟩

/-- A frame with its EndMark only. -/
def emptyFrame : Bytes := [0x04, 0x22, 0x4D, 0x18, 0x40, 0, 0, 0, 0, 0, 0]

/-- Without blocks the spans hold; and two stored blocks are reported at their headers. -/
theorem parseLz4Blocks_spans_emptyFrame : SpansHold emptyFrame 7 [] ∧
    List.Forall₂ Reports [⟨7, 1, none, [97]⟩, ⟨12, 2, none, [98, 99]⟩] (places twoStored 0 2 7) ∧
      ¬ SpansHold twoStored 7 [⟨7, 1, none, [97]⟩, ⟨12, 2, none, [98, 99]⟩] := by
  have hempty : parseFrameHeader emptyFrame = .ok 7 := by decide
  have htwo : parseFrameHeader twoStored = .ok 7 := by decide
  obtain ⟨start, hstart, -, hspans⟩ := parseLz4Blocks_spans_iff emptyFrame [] (by decide)
  obtain ⟨start', hstart', hreports, hspans'⟩ := parseLz4Blocks_spans_iff twoStored
    [⟨7, 1, none, [97]⟩, ⟨12, 2, none, [98, 99]⟩] (by decide)
  rw [hempty] at hstart
  rw [htwo] at hstart'
  cases hstart
  cases hstart'
  refine ⟨hspans.mpr (.inr (by decide)), hreports, fun h => ?_⟩
  have hblock : ¬ NoBlock twoStored 7 := by
    rintro (hshort | hzero)
    · exact absurd hshort (by decide)
    · exact absurd hzero (by decide)
  exact hblock (hspans'.mp h)

/-- `"a"` is byte 11, behind the span from byte 7 up to byte 8; the next block stands at byte 12. -/
theorem parseLz4Blocks_spans_twoStored :
    parseLz4Blocks twoStored = .ok [⟨7, 1, none, [97]⟩, ⟨12, 2, none, [98, 99]⟩] ∧
      parseFrameHeader twoStored = .ok 7 ∧ blockChecksums twoStored = false ∧
        ¬ Holds ⟨7, 1, none, [97]⟩ ⟨7, 1⟩ ∧ ¬ Adjacent ⟨7, 1, none, [97]⟩ ⟨12, 2, none, [98, 99]⟩ ∧
          ¬ SpansHold twoStored 7 [⟨7, 1, none, [97]⟩, ⟨12, 2, none, [98, 99]⟩] := by
  have hfirst : ¬ Holds ⟨7, 1, none, [97]⟩ ⟨7, 1⟩ := Reports.not_holds ⟨by decide, rfl, rfl⟩
  refine ⟨by decide, by decide, by decide, hfirst, by unfold Adjacent; decide, ?_⟩
  rintro ⟨hpayloads, -⟩
  exact hfirst (List.forall₂_cons.mp hpayloads).1

end Ziftsieve.Lz4
