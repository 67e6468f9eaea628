import Mathlib.Algebra.Order.BigOperators.Group.List
import Mathlib.Logic.Relation
import Ziftsieve.Lz4WalkSound

/-!
# Soundness of the stream parser

A raw stream of blocks is read back exactly. So is a frame without a dictionary
ID. The dictionary ID takes four bytes of the descriptor and the parser skips
one, block checksums are read as the next block's header, and the first end
mark ends the run even when another frame follows: for each of the three, the
frames whose blocks come out all the same are told exactly. With checksums it is
at the price of reading one as a header.
-/

namespace Ziftsieve.Lz4

def literalsOf (blocks : List CompressedBlock) : Bytes := (blocks.map (·.literals)).flatten

theorem literalsOf_locate : ∀ (bs : List StreamBlock) (offset : Nat),
    literalsOf (locate offset bs) = (bs.map (·.literals)).flatten
  | [], _ => rfl
  | b :: bs, offset => by
    have ih := literalsOf_locate bs (offset + b.encode.length)
    unfold literalsOf at *
    rw [locate, List.map_cons, List.flatten_cons, ih]
    rfl

theorem parseLz4Blocks_eq {data : Bytes} {offset : Nat} (hne : data ≠ []) (h : parseFrameHeader data = .ok offset) :
    parseLz4Blocks data = loop (walkTurn data (isFramed data)) (data.length + 1) ⟨offset, [], 0⟩ := by
  unfold parseLz4Blocks
  rw [if_neg hne, h, Run.ok_bind]

/-! ## Raw streams -/

theorem parseFrameHeader_raw {data : Bytes} (hne : data ≠ []) (h : data.take 4 ≠ lz4FrameMagic) :
    parseFrameHeader data = .ok 0 := by
  unfold parseFrameHeader
  rw [if_neg hne, if_pos (Or.inr h)]
  rfl

theorem isFramed_raw {data : Bytes} (h : data.take 4 ≠ lz4FrameMagic) : isFramed data = false := by
  unfold isFramed
  simp [h]

/-- The size of a block is too small for its header to be the magic number, and
the flag of a stored block too large. -/
theorem header_ne_magic {b : StreamBlock} (hb : b.Sized) (rest : Bytes) :
    (b.encode ++ rest).take 4 ≠ lz4FrameMagic := by
  intro h
  have hs := hb.le
  unfold maxBlockSize at hs
  rw [StreamBlock.encode, List.append_assoc, List.take_left' (length_toLe 4 _)] at h
  have hw := fromLe_toLe 4 b.headerWord (StreamBlock.headerWord_lt hb.lt)
  rw [h, show fromLe lz4FrameMagic = 0x184D2204 from rfl] at hw
  unfold StreamBlock.headerWord at hw
  split at hw <;> omega

theorem encode_ne_nil (b : StreamBlock) (rest : Bytes) : b.encode ++ rest ≠ [] := by
  intro h
  have hl := b.length_encode
  rw [(List.append_eq_nil_iff.mp h).1, List.length_nil] at hl
  omega

theorem parse_raw_ok (bs : List StreamBlock) (tail : Bytes) (hne : bs ≠ []) (hn : bs.length < maxBlocksPerStream)
    (hb : ∀ b ∈ bs, b.Sized ∧ b.Accepted) (ht : totalLiterals bs ≤ maxTotalLiterals) (htail : RawTail tail) :
    parseLz4Blocks (encodeBlocks bs ++ tail) = .ok (locate 0 bs) := by
  obtain ⟨b, bs', rfl⟩ := List.exists_cons_of_ne_nil hne
  obtain ⟨rest, hrest⟩ : ∃ rest, encodeBlocks (b :: bs') ++ tail = b.encode ++ rest :=
    ⟨encodeBlocks bs' ++ tail, by unfold encodeBlocks; rw [List.map_cons, List.flatten_cons, List.append_assoc]⟩
  have hmagic := header_ne_magic (hb b (List.mem_cons_self ..)).1 rest
  have hnil := encode_ne_nil b rest
  rw [← hrest] at hmagic hnil
  rw [parseLz4Blocks_eq hnil (parseFrameHeader_raw hnil hmagic), isFramed_raw hmagic]
  exact walk_ok hb hn ht htail.ends (At.start _)

/-- **Decoding a raw stream undoes its encoding.** Every block is reported at the
position of its header, with all its literals. -/
theorem parse_raw_stream (bs : List StreamBlock) (tail : Bytes) (hne : bs ≠ []) (hn : bs.length < maxBlocksPerStream)
    (hb : ∀ b ∈ bs, b.Sized ∧ b.WithinLimits) (ht : totalLiterals bs ≤ maxTotalLiterals) (htail : RawTail tail) :
    parseLz4Blocks (encodeBlocks bs ++ tail) = .ok (locate 0 bs) :=
  parse_raw_ok bs tail hne hn (fun b h => ⟨(hb b h).1, (hb b h).2.accepted⟩) ht htail

/-- Two stored bytes, and a block of one sequence, `a` and four copies of it. -/
def aRun : Block := ⟨[⟨⟨[0x61], 1, 4⟩, by decide, by decide⟩], [0x62]⟩

theorem aRun_withinLimits : aRun.WithinLimits := ⟨by decide, by decide, by decide⟩

theorem parse_raw_stream_aRun :
    parseLz4Blocks (encodeBlocks [.stored [1, 2], .compressed aRun] ++ [7]) =
      .ok [⟨0, 2, none, [1, 2]⟩, ⟨6, 6, none, [0x61, 0x62]⟩] :=
  parse_raw_stream [.stored [1, 2], .compressed aRun] [7] (by simp) (by decide)
    (List.forall_mem_cons.mpr ⟨⟨⟨by decide, by decide⟩, trivial⟩,
      List.forall_mem_cons.mpr ⟨⟨⟨by decide, by decide⟩, aRun_withinLimits⟩, by simp⟩⟩)
    (by decide) (Or.inl (by decide))

/-! ## Frame descriptors -/

section
variable (d : Descriptor) (rest : Bytes)

theorem length_descriptor : d.encode.length = 7 + (d.contentSize.length + d.dictId.length) := by
  unfold Descriptor.encode lz4FrameMagic
  simp only [List.length_append, List.length_cons, List.length_nil]; omega

theorem frame_ne_nil : d.encode ++ rest ≠ [] := by
  intro h
  have hl := length_descriptor d
  rw [(List.append_eq_nil_iff.mp h).1, List.length_nil] at hl
  omega

theorem take_magic : (d.encode ++ rest).take 4 = lz4FrameMagic := by
  unfold Descriptor.encode
  rw [List.append_assoc]
  exact List.take_left' rfl

theorem isFramed_frame : isFramed (d.encode ++ rest) = true := by
  have hl := length_descriptor d
  unfold isFramed
  rw [take_magic, List.length_append]
  exact decide_eq_true ⟨by omega, rfl⟩

/-- The parser allows one byte for the dictionary ID's four. -/
theorem parseFrameHeader_frame :
    parseFrameHeader (d.encode ++ rest) =
      .ok (if d.flg &&& 0x01 ≠ 0 then d.encode.length - 3 else d.encode.length) := by
  have hl := length_descriptor d
  have hcs := d.contentSize_length
  have hdict := d.dictId_length
  have hflg :
      At (d.encode ++ rest) 4 (d.flg :: d.bd :: (d.contentSize ++ (d.dictId ++ [d.headerChecksum])) ++ rest) := by
    unfold Descriptor.encode
    rw [List.append_assoc]
    exact At.mid lz4FrameMagic _
  unfold parseFrameHeader
  rw [if_neg (frame_ne_nil d rest),
    if_neg (by rw [take_magic, List.length_append]; exact not_or.mpr ⟨by omega, fun h => h rfl⟩),
    failIf_false _ (by rw [List.length_append]; omega), Run.ok_bind, hflg.index, Run.ok_bind,
    failIf_false _ (not_not.mpr d.version), Run.ok_bind]
  have hpos : (if d.flg &&& 0x08 ≠ 0 then 6 + 8 else 6) = 6 + d.contentSize.length := by
    rw [hcs]; split <;> rfl
  simp only [hpos]
  by_cases h0 : d.flg &&& 0x01 ≠ 0
  · rw [if_pos h0] at hdict
    rw [if_pos h0, if_pos h0, failIf_false _ (by rw [List.length_append]; omega), Run.ok_bind, Run.pure_eq]
    congr 1; omega
  · rw [if_neg h0] at hdict
    rw [if_neg h0, if_neg h0, failIf_false _ (by rw [List.length_append]; omega), Run.ok_bind, Run.pure_eq]
    congr 1; omega

end

/-! ## Frames -/

theorem encodeFrame_append (d : Descriptor) (bs : List StreamBlock) (trailer : Bytes) :
    encodeFrame d bs ++ trailer = d.encode ++ (encodeBlocks bs ++ (endMark ++ trailer)) := by
  unfold encodeFrame; rw [List.append_assoc, List.append_assoc]

section
variable {d : Descriptor} {bs : List StreamBlock} {trailer : Bytes}

theorem parse_frame_eq (hd : d.flg &&& 0x01 = 0) (rest : Bytes) :
    parseLz4Blocks (d.encode ++ rest) = loop (walkTurn (d.encode ++ rest) true) ((d.encode ++ rest).length + 1)
      ⟨d.encode.length, [], 0⟩ := by
  rw [parseLz4Blocks_eq (frame_ne_nil d rest) (parseFrameHeader_frame d rest), isFramed_frame,
    if_neg (not_not.mpr hd)]

theorem parse_frame_ok (hd : d.flg &&& 0x01 = 0) (hn : bs.length < maxBlocksPerStream)
    (hb : ∀ b ∈ bs, b.Sized ∧ b.Accepted) (ht : totalLiterals bs ≤ maxTotalLiterals) :
    parseLz4Blocks (encodeFrame d bs ++ trailer) = .ok (locate d.encode.length bs) := by
  rw [encodeFrame_append, parse_frame_eq hd]
  exact walk_ok hb hn ht .endMark (At.mid _ _)

theorem accepted_of_parse_frame (hd : d.flg &&& 0x01 = 0) (hn : bs.length < maxBlocksPerStream) (hb : ∀ b ∈ bs, b.Sized)
    (ht : totalLiterals bs ≤ maxTotalLiterals) {blocks : List CompressedBlock}
    (h : parseLz4Blocks (encodeFrame d bs ++ trailer) = .ok blocks) : ∀ b ∈ bs, b.Accepted := by
  rw [encodeFrame_append, parse_frame_eq hd] at h
  exact walk_accepted hb (by simpa using Nat.le_of_lt hn) (Nat.zero_le _) (by simpa using ht) (At.mid _ _) h

/-! ## Frames with a dictionary ID -/

/-- What the walk reads as the first header of a frame with a dictionary ID: the ID's
last two bytes, the header checksum, and a byte of the first block or the end mark. -/
theorem at_dictId (hd : d.flg &&& 0x01 ≠ 0) (b : UInt8) (rest : Bytes) :
    At (d.encode ++ b :: rest) (d.encode.length - 3) (d.dictId.drop 2 ++ d.headerChecksum :: b :: rest) := by
  have hdict := d.dictId_length
  rw [if_pos hd] at hdict
  obtain ⟨e0, e1, e2, e3, he⟩ : ∃ e0 e1 e2 e3, d.dictId = [e0, e1, e2, e3] := by
    match d.dictId, hdict with
    | [e0, e1, e2, e3], _ => exact ⟨e0, e1, e2, e3, rfl⟩
  have hl := length_descriptor d
  have h := At.mid (lz4FrameMagic ++ d.flg :: d.bd :: (d.contentSize ++ [e0, e1]))
    ([e2, e3] ++ d.headerChecksum :: b :: rest)
  have hsplit : lz4FrameMagic ++ d.flg :: d.bd :: (d.contentSize ++ [e0, e1]) ++
      ([e2, e3] ++ d.headerChecksum :: b :: rest) = d.encode ++ b :: rest := by
    unfold Descriptor.encode; rw [he]; simp
  have hlen : (lz4FrameMagic ++ d.flg :: d.bd :: (d.contentSize ++ [e0, e1])).length = d.encode.length - 3 := by
    rw [hl, he]; unfold lz4FrameMagic; simp only [List.length_append, List.length_cons, List.length_nil]; omega
  rw [hsplit, hlen] at h
  rw [he]
  exact h

theorem fromLe_mod_eq_zero {b0 b1 b2 b3 : UInt8} (h : fromLe [b0, b1, b2, b3] % 2 ^ 31 = 0) :
    b0 = 0 ∧ b1 = 0 ∧ b2 = 0 := by
  have h0 := b0.toNat_lt
  have h1 := b1.toNat_lt
  have h2 := b2.toNat_lt
  simp only [fromLe] at h
  refine ⟨UInt8.toNat_inj.mp ?_, UInt8.toNat_inj.mp ?_, UInt8.toNat_inj.mp ?_⟩ <;> rw [UInt8.toNat_zero] <;> omega

theorem fromLe_lt_word (b0 b1 b2 b3 : UInt8) : fromLe [b0, b1, b2, b3] < 2 ^ 32 := by
  simpa using fromLe_lt [b0, b1, b2, b3]

theorem parse_dictId_nil (hd : d.flg &&& 0x01 ≠ 0) {b : UInt8} {rest : Bytes}
    (h : parseLz4Blocks (d.encode ++ b :: rest) = .ok []) : d.dictId.drop 2 = [0, 0] ∧ d.headerChecksum = 0 := by
  have hat := at_dictId hd b rest
  have hdict := d.dictId_length
  rw [if_pos hd] at hdict
  obtain ⟨e2, e3, he⟩ := List.length_eq_two.mp (show (d.dictId.drop 2).length = 2 by rw [List.length_drop, hdict])
  have hw : toLe 4 (fromLe [e2, e3, d.headerChecksum, b]) = [e2, e3, d.headerChecksum, b] :=
    toLe_fromLe [e2, e3, d.headerChecksum, b]
  rw [he, List.cons_append, List.cons_append, List.nil_append,
    show e2 :: e3 :: d.headerChecksum :: b :: rest = [e2, e3, d.headerChecksum, b] ++ rest from rfl, ← hw] at hat
  rw [he]
  rw [parseLz4Blocks_eq (frame_ne_nil _ _) (parseFrameHeader_frame _ _), if_pos hd, isFramed_frame] at h
  by_cases hz : fromLe [e2, e3, d.headerChecksum, b] % 2 ^ 31 = 0
  · obtain ⟨h2, h3, hc⟩ := fromLe_mod_eq_zero hz
    exact ⟨by rw [h2, h3], hc⟩
  · obtain ⟨_, _, hpre⟩ := walk_next (w := ⟨d.encode.length - 3, [], 0⟩) rfl
      (walkTurn_ne_done (Nat.zero_lt_succ _) (fromLe_lt_word ..) hz hat) h
    simp at hpre

theorem parse_dictId_zero (hd : d.flg &&& 0x01 ≠ 0) {rest : Bytes} (h2 : d.dictId.drop 2 = [0, 0])
    (hc : d.headerChecksum = 0) : parseLz4Blocks (d.encode ++ 0 :: rest) = .ok [] := by
  have hat := at_dictId hd 0 rest
  rw [h2, hc] at hat
  rw [parseLz4Blocks_eq (frame_ne_nil _ _) (parseFrameHeader_frame _ _), if_pos hd, isFramed_frame,
    loop_done (walkTurn_end (w := ⟨d.encode.length - 3, [], 0⟩) .endMark (Nat.zero_lt_succ _) hat)]

theorem parse_dictId_head (hd : d.flg &&& 0x01 ≠ 0) {rest : Bytes} {c : CompressedBlock} {cs : List CompressedBlock}
    (h : parseLz4Blocks (d.encode ++ rest) = .ok (c :: cs)) : c.compressedOffset = d.encode.length - 3 := by
  rw [parseLz4Blocks_eq (frame_ne_nil _ _) (parseFrameHeader_frame _ _), if_pos hd] at h
  by_cases hturn :
      walkTurn (d.encode ++ rest) (isFramed (d.encode ++ rest)) ⟨d.encode.length - 3, [], 0⟩ = .ok (.done [])
  · rw [loop_done hturn] at h; cases h
  · obtain ⟨b, hb, hpre⟩ := walk_next rfl hturn h
    rw [List.nil_append, List.cons_prefix_cons] at hpre
    rw [← hpre.1]; exact hb

end

/-- **Frames, with their optional fields.** The parser returns the frame's blocks, each
from its own place, exactly when the blocks are within the scan's limits and the frame has
no dictionary ID; or has one, no blocks, and zeros where the parser takes the end mark to be. -/
theorem parse_frame_iff (d : Descriptor) (bs : List StreamBlock) (hn : bs.length < maxBlocksPerStream)
    (hb : ∀ b ∈ bs, b.Sized) (ht : totalLiterals bs ≤ maxTotalLiterals) (trailer : Bytes) :
    parseLz4Blocks (encodeFrame d bs ++ trailer) = .ok (locate d.encode.length bs) ↔
      (∀ b ∈ bs, b.Accepted) ∧
        (d.flg &&& 0x01 = 0 ∨ bs = [] ∧ d.dictId.drop 2 = [0, 0] ∧ d.headerChecksum = 0) := by
  by_cases hd : d.flg &&& 0x01 = 0
  · constructor
    · exact fun h => ⟨accepted_of_parse_frame hd hn hb ht h, Or.inl hd⟩
    · exact fun h => parse_frame_ok hd hn (fun b hm => ⟨hb b hm, h.1 b hm⟩) ht
  · rw [encodeFrame_append]
    cases bs with
    | nil =>
      constructor
      · exact fun h => ⟨by simp, Or.inr ⟨rfl, parse_dictId_nil hd (b := 0) h⟩⟩
      · rintro ⟨_, h | ⟨_, h2, hc⟩⟩
        · exact absurd h hd
        · exact parse_dictId_zero hd h2 hc
    | cons b bs =>
      constructor
      · intro h
        have ho := parse_dictId_head hd h
        have hl := length_descriptor d
        simp only [StreamBlock.located, CompressedBlock.new] at ho
        omega
      · rintro ⟨_, h | ⟨h, _⟩⟩
        · exact absurd h hd
        · cases h

theorem parse_contentSizeFrame :
    parseLz4Blocks (encodeFrame ⟨0x48, 0x40, [1, 0, 0, 0, 0, 0, 0, 0], [], 0, by decide, by decide, by decide⟩
      [.stored [5]] ++ [9]) = .ok [⟨15, 1, none, [5]⟩] :=
  (parse_frame_iff _ [.stored [5]] (by decide) (List.forall_mem_cons.mpr ⟨⟨by decide, by decide⟩, by simp⟩)
    (by decide) [9]).mpr ⟨List.forall_mem_cons.mpr ⟨trivial, by simp⟩, Or.inl (by decide)⟩

def dictIdFrame : Descriptor := ⟨0x41, 0x40, [], [1, 2, 3, 4], 0, by decide, by decide, by decide⟩

theorem parse_dictIdFrame : ¬ ∃ blocks, parseLz4Blocks (encodeFrame dictIdFrame [.stored [5]]) = .ok blocks ∧
    blocks.map (·.literals) = [[5]] := by
  have h : parseLz4Blocks (encodeFrame dictIdFrame [.stored [5]]) =
      .error (.err (.blockTooLarge 0x01000403 maxBlockSize)) := by decide
  rw [h]
  rintro ⟨_, hb, _⟩
  cases hb

/-! ## Block checksums -/

theorem encodeChecked_cons (b : StreamBlock × UInt32) (bs : List (StreamBlock × UInt32)) :
    encodeChecked (b :: bs) = b.1.encode ++ (toLe 4 b.2.toNat ++ encodeChecked bs) := by
  unfold encodeChecked; rw [List.map_cons, List.flatten_cons, List.append_assoc]

section
variable {d : Descriptor} {b : StreamBlock}

/-- The walk over the rest of the data gets to `p`, and reads a header there. -/
def ReadsHeader (data : Bytes) (p : Nat) : Prop :=
  ∃ (offset : Nat) (w : Walk), parseFrameHeader data = .ok offset ∧
    Relation.ReflTransGen (fun w w' => walkTurn data (isFramed data) w = .ok (.next w')) ⟨offset, [], 0⟩ w ∧
      w.offset = p ∧ w.blocks.length < maxBlocksPerStream ∧ p + 4 ≤ data.length

/-- The frame's blocks come out, each from its own place, and no checksum is read as a header. -/
structure ReadsChecked (d : Descriptor) (bs : List (StreamBlock × UInt32)) (trailer : Bytes) : Prop where
  blocks : parseLz4Blocks (encodeCheckedFrame d bs trailer) = .ok (locateChecked d.encode.length bs)
  checksums : ∀ p ∈ checksumOffsets d.encode.length bs, ¬ ReadsHeader (encodeCheckedFrame d bs trailer) p

/-- The first block is taken as it is in a frame without checksums. -/
theorem walkTurn_checked (d : Descriptor) (checksum : UInt32) (rest : Bytes) (hb : b.Sized) (ha : b.Accepted) :
    At (d.encode ++ (b.encode ++ (toLe 4 checksum.toNat ++ rest))) (d.encode.length + b.encode.length)
      (toLe 4 checksum.toNat ++ rest) ∧
    walkTurn (d.encode ++ (b.encode ++ (toLe 4 checksum.toNat ++ rest))) true ⟨d.encode.length, [], 0⟩ =
      .ok (.next ⟨d.encode.length + b.encode.length, [b.located d.encode.length], b.literals.length⟩) := by
  have hat := At.mid d.encode (b.encode ++ (toLe 4 checksum.toNat ++ rest))
  have hlit := b.length_literals_le
  have hle := hb.le
  have htotal : 0 + b.literals.length ≤ maxTotalLiterals := by
    unfold maxTotalLiterals
    unfold maxBlockSize at hle
    omega
  refine ⟨hat.skip, ?_⟩
  rw [walkTurn_block (w := ⟨d.encode.length, [], 0⟩) hb ha (Nat.zero_lt_succ _) (Nat.zero_le _) htotal hat, Nat.zero_add]
  rfl

/-- After one block, the walk reads the block's checksum as a header. -/
theorem readsHeader_checksum (checksum : UInt32) (rest : Bytes) (hd : d.flg &&& 0x01 = 0) (hb : b.Sized)
    (ha : b.Accepted) : ReadsHeader (d.encode ++ (b.encode ++ (toLe 4 checksum.toNat ++ rest)))
      (d.encode.length + b.encode.length) := by
  obtain ⟨hat, hturn⟩ := walkTurn_checked d checksum rest hb ha
  have hheader := parseFrameHeader_frame d (b.encode ++ (toLe 4 checksum.toNat ++ rest))
  have hlen := hat.length
  rw [if_neg (not_not.mpr hd)] at hheader
  rw [List.length_append, length_toLe] at hlen
  refine ⟨_, ⟨d.encode.length + b.encode.length, [b.located d.encode.length], b.literals.length⟩, hheader, .single ?_,
    rfl, ?_, ?_⟩
  · rw [isFramed_frame]
    exact hturn
  · exact Nat.succ_lt_succ (Nat.zero_lt_succ _)
  · omega

theorem parse_checked_head (checksum : UInt32) (rest : Bytes) (hd : d.flg &&& 0x01 = 0) (hb : b.Sized)
    (ha : b.Accepted) :
    ∃ data n, At data (d.encode.length + b.encode.length) (toLe 4 checksum.toNat ++ rest) ∧
      parseLz4Blocks (d.encode ++ (b.encode ++ (toLe 4 checksum.toNat ++ rest))) =
        loop (walkTurn data true) (n + 1)
          ⟨d.encode.length + b.encode.length, [b.located d.encode.length], b.literals.length⟩ := by
  obtain ⟨hat, hturn⟩ := walkTurn_checked d checksum rest hb ha
  obtain ⟨n, hn⟩ : ∃ n, (d.encode ++ (b.encode ++ (toLe 4 checksum.toNat ++ rest))).length = n + 1 := by
    apply Nat.exists_eq_succ_of_ne_zero
    rw [← hat.length, List.length_append, length_toLe]
    omega
  exact ⟨_, n, hat, by rw [parse_frame_eq hd, loop_next hturn, hn]⟩

end

/-- The blocks alone come out right when there is one block, within the scan's limits, and the
low 31 bits of its checksum are zero: the checksum is then the end mark that the walk sees. -/
theorem parse_checked_iff (d : Descriptor) (hd : d.flg &&& 0x01 = 0) {bs : List (StreamBlock × UInt32)} (hne : bs ≠ [])
    (hb : ∀ b ∈ bs, b.1.Sized) (trailer : Bytes) :
    parseLz4Blocks (encodeCheckedFrame d bs trailer) = .ok (locateChecked d.encode.length bs) ↔
      ∃ b checksum, bs = [(b, checksum)] ∧ b.Accepted ∧ checksum.toNat % 2 ^ 31 = 0 := by
  obtain ⟨⟨b, checksum⟩, bs, rfl⟩ := List.exists_cons_of_ne_nil hne
  have hs := hb _ (List.mem_cons_self ..)
  rw [encodeCheckedFrame, encodeChecked_cons, List.append_assoc, List.append_assoc]
  by_cases ha : b.Accepted
  · obtain ⟨data, n, hat, hparse⟩ := parse_checked_head checksum (encodeChecked bs ++ (endMark ++ trailer))
      hd hs ha
    have hword : checksum.toNat < 2 ^ 32 := checksum.toNat_lt
    rw [hparse]
    constructor
    · intro h
      by_cases hz : checksum.toNat % 2 ^ 31 = 0
      · rw [loop_done (walkTurn_end (.zero hword hz) (by simp [maxBlocksPerStream]) hat)] at h
        cases bs with
        | nil => exact ⟨b, checksum, rfl, ha, hz⟩
        | cons c cs => simp [locateChecked] at h
      · obtain ⟨c, hc, hpre⟩ := walk_next rfl
          (walkTurn_ne_done (w := ⟨d.encode.length + b.encode.length, [b.located d.encode.length], b.literals.length⟩)
            (by simp [maxBlocksPerStream]) hword hz hat) h
        rw [locateChecked, List.singleton_append, List.cons_prefix_cons] at hpre
        cases bs with
        | nil => simp [locateChecked] at hpre
        | cons c' cs =>
          rw [locateChecked, List.cons_prefix_cons] at hpre
          obtain ⟨_, rfl, _⟩ := hpre
          simp only [StreamBlock.located, CompressedBlock.new] at hc
          omega
    · rintro ⟨b', checksum', hbs, _, hz⟩
      cases hbs
      rw [loop_done (walkTurn_end (.zero hword hz) (by simp [maxBlocksPerStream]) hat)]
      rfl
  · constructor
    · intro h
      rw [parse_frame_eq hd] at h
      refine absurd ?_ ha
      rcases loop_ok_iff.mp h with ht | ⟨t, ht, _⟩
      · exact accepted_of_walkTurn (w := ⟨d.encode.length, [], 0⟩) hs (Nat.zero_lt_succ _) (At.mid _ _) ht
      · exact accepted_of_walkTurn (w := ⟨d.encode.length, [], 0⟩) hs (Nat.zero_lt_succ _) (At.mid _ _) ht
    · rintro ⟨b', checksum', hbs, ha', _⟩
      cases hbs
      exact absurd ha' ha

/-- **Frames with block checksums are never read right.** If the frame's blocks come out at all,
the first checksum was read as a header. -/
theorem parse_checked_never (d : Descriptor) (hd : d.flg &&& 0x01 = 0) {bs : List (StreamBlock × UInt32)} (hne : bs ≠ [])
    (hb : ∀ b ∈ bs, b.1.Sized) (trailer : Bytes) : ¬ ReadsChecked d bs trailer ∧
      (parseLz4Blocks (encodeCheckedFrame d bs trailer) = .ok (locateChecked d.encode.length bs) ↔
        ∃ b checksum, bs = [(b, checksum)] ∧ b.Accepted ∧ checksum.toNat % 2 ^ 31 = 0) := by
  have hblocks := parse_checked_iff d hd hne hb trailer
  refine ⟨?_, hblocks⟩
  rintro ⟨hparse, hchecksums⟩
  obtain ⟨b, checksum, rfl, ha, -⟩ := hblocks.mp hparse
  have hs := hb _ (List.mem_cons_self ..)
  apply hchecksums (d.encode.length + b.encode.length) (List.mem_cons_self ..)
  rw [encodeCheckedFrame, encodeChecked_cons, List.append_assoc, List.append_assoc]
  exact readsHeader_checksum checksum _ hd hs ha

def checkedFrame : Descriptor := ⟨0x50, 0x40, [], [], 0, by decide, by decide, by decide⟩

/-- The checksum is the end mark that the walk sees. -/
theorem parse_checkedFrame_zero : ¬ ReadsChecked checkedFrame [(.stored [5], 0x80000000)] [] ∧
    parseLz4Blocks (encodeCheckedFrame checkedFrame [(.stored [5], 0x80000000)] []) = .ok [⟨7, 1, none, [5]⟩] := by
  have hsized : ∀ b ∈ [(StreamBlock.stored [5], (0x80000000 : UInt32))], b.1.Sized :=
    List.forall_mem_cons.mpr ⟨⟨by decide, by decide⟩, by simp⟩
  obtain ⟨hnever, hblocks⟩ := parse_checked_never checkedFrame (by decide) (by simp) hsized []
  exact ⟨hnever, hblocks.mpr ⟨_, _, rfl, trivial, by decide⟩⟩

/-- The checksum 2 is read as the header of a block of the next block's first two bytes. -/
theorem parse_checkedFrame : ¬ ∃ blocks,
    parseLz4Blocks (encodeCheckedFrame checkedFrame [(.stored [5], 2), (.stored [6], 0)] []) = .ok blocks ∧
      blocks.map (·.literals) = [[5], [6]] := by
  have h : parseLz4Blocks (encodeCheckedFrame checkedFrame [(.stored [5], 2), (.stored [6], 0)] []) =
      .error (.err (.invalidData 1 "truncated match offset. Fix: use a complete LZ4 stream")) := by decide
  rw [h]
  rintro ⟨_, hb, _⟩
  cases hb

/-! ## Frames one after the other -/

/-- No content size, dictionary ID, block checksums or content checksum. -/
def Descriptor.Plain (d : Descriptor) : Prop := d.flg &&& 0xDD = 0x40

theorem Descriptor.Plain.no_dictId {d : Descriptor} (h : d.Plain) : d.flg &&& 0x01 = 0 := by
  have h1 : d.flg &&& 0x01 = (d.flg &&& 0xDD) &&& 0x01 := by rw [UInt8.and_assoc]; rfl
  rw [h1, h]; rfl

/-- The parser takes the frames together, takes each alone, and finds the same literals. -/
def LosesNothing (frames : List (Descriptor × List StreamBlock)) : Prop :=
  ∃ (blocks : List CompressedBlock) (alone : List (List CompressedBlock)),
    parseLz4Blocks (frames.map fun f => encodeFrame f.1 f.2).flatten = .ok blocks ∧
      (frames.map fun f => parseLz4Blocks (encodeFrame f.1 f.2)) = alone.map .ok ∧
      literalsOf blocks = (alone.map literalsOf).flatten

/-- Of frames that are each read as they are, the first alone is read when they are together. -/
theorem losesNothing_iff {frames : List (Descriptor × List StreamBlock)} (hne : frames ≠ [])
    (hparse : ∀ f ∈ frames, ∀ trailer,
      parseLz4Blocks (encodeFrame f.1 f.2 ++ trailer) = .ok (locate f.1.encode.length f.2)) :
    LosesNothing frames ↔ ∀ f ∈ frames.tail, ∀ b ∈ f.2, b.literals = [] := by
  have halone : (frames.map fun f => parseLz4Blocks (encodeFrame f.1 f.2)) =
      (frames.map fun f => locate f.1.encode.length f.2).map .ok := by
    rw [List.map_map]
    apply List.map_congr_left
    intro f hf
    have hown := hparse f hf []
    rwa [List.append_nil] at hown
  obtain ⟨f, fs, rfl⟩ := List.exists_cons_of_ne_nil hne
  have hall : ((List.map (fun f => locate f.1.encode.length f.2) (f :: fs)).map literalsOf).flatten =
      (f.2.map (·.literals)).flatten ++ (fs.map fun g => (g.2.map (·.literals)).flatten).flatten := by
    simp only [List.map_cons, List.map_map, List.flatten_cons, Function.comp_def, literalsOf_locate]
  have hempty :
      (fs.map fun g => (g.2.map (·.literals)).flatten).flatten = [] ↔ ∀ g ∈ fs, ∀ b ∈ g.2, b.literals = [] := by
    simp only [List.flatten_eq_nil_iff, List.forall_mem_map]
  unfold LosesNothing
  rw [List.tail_cons, ← hempty, List.map_cons, List.flatten_cons, hparse f (List.mem_cons_self ..)]
  constructor
  · rintro ⟨blocks, alone, hblocks, hmap, hlit⟩
    cases hblocks
    have heq := List.map_injective_iff.mpr (fun _ _ h => Except.ok.inj h) (halone.symm.trans hmap)
    rw [← heq, hall, literalsOf_locate] at hlit
    exact List.append_right_eq_self.mp hlit.symm
  · intro h
    refine ⟨_, _, rfl, halone, ?_⟩
    rw [hall, h, List.append_nil, literalsOf_locate]

/-- **Concatenated frames.** The parser stops at the first frame's end mark. What it returns is all
the frames hold exactly when every block is within the scan's limits, and no block of a frame after
the first holds a literal. -/
theorem parse_frames_iff {frames : List (Descriptor × List StreamBlock)} (hne : frames ≠ [])
    (hd : ∀ f ∈ frames, f.1.Plain) (hb : ∀ f ∈ frames, ∀ b ∈ f.2, b.Sized)
    (hn : (frames.map (·.2.length)).sum < maxBlocksPerStream)
    (ht : (frames.map fun f => totalLiterals f.2).sum ≤ maxTotalLiterals) :
    LosesNothing frames ↔
      (∀ f ∈ frames, ∀ b ∈ f.2, b.Accepted) ∧ ∀ f ∈ frames.tail, ∀ b ∈ f.2, b.literals = [] := by
  have hcount : ∀ f ∈ frames, f.2.length < maxBlocksPerStream := by
    intro f hf
    refine Nat.lt_of_le_of_lt ?_ hn
    exact List.single_le_sum (fun _ _ => Nat.zero_le _) _ (List.mem_map_of_mem hf)
  have htotal : ∀ f ∈ frames, totalLiterals f.2 ≤ maxTotalLiterals := by
    intro f hf
    refine Nat.le_trans ?_ ht
    exact List.single_le_sum (fun _ _ => Nat.zero_le _) _ (List.mem_map_of_mem hf)
  by_cases ha : ∀ f ∈ frames, ∀ b ∈ f.2, b.Accepted
  · have hread := losesNothing_iff hne fun f hf trailer => parse_frame_ok (hd f hf).no_dictId (hcount f hf)
      (fun b hm => ⟨hb f hf b hm, ha f hf b hm⟩) (htotal f hf)
    rw [hread]
    exact ⟨fun h => ⟨ha, h⟩, fun h => h.2⟩
  · constructor
    · rintro ⟨blocks, alone, -, halone, -⟩
      refine absurd ?_ ha
      intro f hf
      have hmem := List.mem_map_of_mem (f := fun f => parseLz4Blocks (encodeFrame f.1 f.2)) hf
      rw [halone] at hmem
      obtain ⟨own, -, hown⟩ := List.mem_map.mp hmem
      rw [← List.append_nil (encodeFrame f.1 f.2)] at hown
      exact accepted_of_parse_frame (hd f hf).no_dictId (hcount f hf) (hb f hf) (htotal f hf) hown.symm
    · rintro ⟨h, -⟩
      exact absurd h ha

def plainFrame : Descriptor := ⟨0x60, 0x40, [], [], 0, by decide, by decide, by decide⟩

theorem parse_plainFrame_twice : LosesNothing [(plainFrame, [.stored [5]]), (plainFrame, [])] :=
  (parse_frames_iff (by simp) (by simp; rfl) (by simp; exact ⟨by decide, by decide⟩) (by decide) (by decide)).mpr
    ⟨by simp [StreamBlock.Accepted], by simp⟩

theorem parse_plainFrame_lost : ¬ LosesNothing [(plainFrame, [.stored [5]]), (plainFrame, [.stored [6]])] := by
  rintro ⟨blocks, alone, hall, hmap, hlit⟩
  have h : parseLz4Blocks (encodeFrame plainFrame [.stored [5]] ++ (encodeFrame plainFrame [.stored [6]] ++ [])) =
      .ok [⟨7, 1, none, [5]⟩] := by decide
  have h5 : parseLz4Blocks (encodeFrame plainFrame [.stored [5]]) = .ok [⟨7, 1, none, [5]⟩] := by decide
  have h6 : parseLz4Blocks (encodeFrame plainFrame [.stored [6]]) = .ok [⟨7, 1, none, [6]⟩] := by decide
  simp only [List.map_cons, List.map_nil, List.flatten_cons, List.flatten_nil, h, h5, h6] at hall hmap
  cases hall
  match alone, hmap with
  | [a, b], hmap =>
    simp only [List.map_cons, List.map_nil, List.cons.injEq, Except.ok.injEq] at hmap
    obtain ⟨rfl, rfl, _⟩ := hmap
    revert hlit
    decide

end Ziftsieve.Lz4
