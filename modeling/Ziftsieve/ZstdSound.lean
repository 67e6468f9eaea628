import Ziftsieve.ZstdFormat

/-!
# Soundness of the frame walk

Extraction from a concatenation of standard frames gives, in order, every block
of every frame, with its literals, its position and its length in the stream.
-/

namespace Ziftsieve.Zstd

/-! ## Frame headers -/

section
variable {data rest field : Bytes} {pos : Nat}

theorem skipField_ok {size : Nat} (reason : String) (hs : field.length = size) (h : At data pos (field ++ rest)) :
    skipField data pos size reason = .ok (pos + field.length) := by
  have hl := h.length
  rw [List.length_append] at hl
  unfold skipField
  rw [failIf_false _ (by omega), hs]
  rfl

theorem skipWindow_ok {singleSegment : Nat} (reason : String)
    (hs : field.length = if singleSegment = 0 then 1 else 0) (h : At data pos (field ++ rest)) :
    (if singleSegment = 0 then skipField data pos 1 reason else pure pos) = .ok (pos + field.length) := by
  by_cases h0 : singleSegment = 0
  · rw [if_pos h0] at hs ⊢
    exact skipField_ok reason hs h
  · rw [if_neg h0] at hs ⊢
    rw [hs]; rfl

theorem skipDictId_ok {n : Nat} (hn : n < 4) (hs : field.length = dictIdSize n) (h : At data pos (field ++ rest)) :
    skipDictId data pos n = .ok (pos + field.length) := by
  obtain rfl | rfl | rfl | rfl : n = 0 ∨ n = 1 ∨ n = 2 ∨ n = 3 := by omega
  · rw [hs]; rfl
  · exact skipField_ok _ hs h
  · exact skipField_ok _ hs h
  · exact skipField_ok _ hs h

theorem frameContentSizeSize_ok {n : Nat} (hn : n < 4) (singleSegment : Nat) :
    frameContentSizeSize n singleSegment = .ok (contentSizeSize n singleSegment) := by
  obtain rfl | rfl | rfl | rfl : n = 0 ∨ n = 1 ∨ n = 2 ∨ n = 3 := by omega
  · rfl
  · rfl
  · rfl
  · rfl

theorem parseStandardFrameHeader_ok (d : Descriptor) (h : At data pos (d.encode ++ rest)) :
    parseStandardFrameHeader data pos = .ok (⟨decide (d.desc &&& 0x04 ≠ 0)⟩, pos + d.encode.length) := by
  have hsize : d.encode.length = 4 + 1 + d.window.length + d.dictId.length + d.contentSize.length := by
    unfold Descriptor.encode zstdMagic
    simp only [List.length_append, List.length_cons, List.length_nil]; omega
  unfold Descriptor.encode at h
  rw [List.append_assoc] at h
  have hdesc : At data (pos + 4) (d.desc :: (d.window ++ (d.dictId ++ d.contentSize)) ++ rest) := h.skip
  rw [List.cons_append, List.append_assoc, List.append_assoc] at hdesc
  have hlt := hdesc.lt
  have hwindow := hdesc.tail
  have hdict := hwindow.skip
  have hfcs := hdict.skip
  unfold parseStandardFrameHeader
  dsimp only
  rw [failIf_false _ (by omega), Run.ok_bind, hdesc.index, Run.ok_bind]
  rw [failIf_false _ (not_not.mpr d.reserved), Run.ok_bind, skipWindow_ok _ d.window_length hwindow, Run.ok_bind,
    skipDictId_ok (toNat_and_lt _ (by decide)) d.dictId_length hdict, Run.ok_bind,
    frameContentSizeSize_ok (toNat_and_lt _ (by decide)), Run.ok_bind, skipField_ok _ d.contentSize_length hfcs,
    Run.ok_bind,
    hsize]
  simp only [Run.pure_eq, Nat.add_assoc]

theorem headerTurn_frame {start it : Nat} (d : Descriptor) (hit : it < 3) (h : At data pos (d.encode ++ rest)) :
    headerTurn data start ⟨pos, it⟩ = .ok (.done (some ⟨decide (d.desc &&& 0x04 ≠ 0)⟩, pos + d.encode.length)) := by
  have hm := h
  unfold Descriptor.encode at hm
  rw [List.append_assoc] at hm
  have hl := hm.length
  rw [List.length_append, show zstdMagic.length = 4 from rfl] at hl
  unfold headerTurn
  dsimp only
  rw [failIf_false _ (Nat.not_le.mpr hit), Run.ok_bind, if_neg (by omega), if_neg (by omega),
    hm.slice (j := pos + 4) rfl, Run.ok_bind, if_pos rfl, parseStandardFrameHeader_ok d h]
  rfl

theorem Skippable.magic_ne (k : Skippable) : [k.kind, 0x2A, 0x4D, 0x18] ≠ zstdMagic := by
  intro h
  cases (List.cons.inj (List.cons.inj h).2).1

theorem Skippable.length_encode (k : Skippable) : k.encode.length = 8 + k.content.length := by
  simp only [encode, List.length_cons, List.length_append, length_toLe]
  omega

theorem encodeSkips_cons (k : Skippable) (ks : List Skippable) : encodeSkips (k :: ks) = k.encode ++ encodeSkips ks := rfl

theorem headerTurn_skip {start it : Nat} (k : Skippable) (hit : it < 3) (h : At data pos (k.encode ++ rest)) :
    headerTurn data start ⟨pos, it⟩ = .ok (.next ⟨pos + k.encode.length, it + 1⟩) := by
  have hl := h.length
  rw [List.length_append, k.length_encode] at hl
  unfold Skippable.encode at h
  rw [List.cons_append, List.cons_append, List.cons_append, List.cons_append, List.append_assoc] at h
  have hmagic : At data pos ([k.kind, 0x2A, 0x4D, 0x18] ++ (toLe 4 k.content.length ++ (k.content ++ rest))) := h
  have hsize : At data (pos + 4) (toLe 4 k.content.length ++ (k.content ++ rest)) := hmagic.skip
  unfold headerTurn
  dsimp only
  rw [failIf_false _ (Nat.not_le.mpr hit), Run.ok_bind, if_neg (by omega), if_neg (by omega),
    hmagic.slice (j := pos + 4) rfl, Run.ok_bind, if_neg k.magic_ne, h.index, Run.ok_bind, h.tail.index, Run.ok_bind,
    h.tail.tail.index, Run.ok_bind, h.tail.tail.tail.index, Run.ok_bind,
    if_pos ⟨k.kind_mem.1, k.kind_mem.2, rfl, rfl, rfl⟩, failIf_false _ (by omega), Run.ok_bind,
    hsize.readLe32_toLe k.length_lt, Run.ok_bind, failIf_false _ (by omega), k.length_encode, ← Nat.add_assoc]
  rfl

theorem loop_skips {start : Nat} : ∀ (ks : List Skippable) (n : Nat) {pos it : Nat}, it + ks.length ≤ 3 →
    At data pos (encodeSkips ks ++ rest) →
    loop (headerTurn data start) (n + ks.length) ⟨pos, it⟩ =
      loop (headerTurn data start) n ⟨pos + (encodeSkips ks).length, it + ks.length⟩
  | [], _, _, _, _, _ => rfl
  | k :: ks, n, pos, it, hit, h => by
    rw [encodeSkips_cons, List.append_assoc] at h
    rw [List.length_cons] at hit
    rw [List.length_cons, ← Nat.add_assoc, loop_next (headerTurn_skip k (by omega) h),
      loop_skips ks n (by omega) h.skip]
    simp only [encodeSkips_cons, List.length_append, Nat.add_assoc, Nat.add_comm 1]

theorem loop_scan {start : Nat} {ks : List Skippable} {r : Option FrameHeader × Nat} (hk : ks.length ≤ 2)
    (h : At data pos (encodeSkips ks ++ rest))
    (ht : headerTurn data start ⟨pos + (encodeSkips ks).length, ks.length⟩ = .ok (.done r)) :
    loop (headerTurn data start) 4 ⟨pos, 0⟩ = .ok r := by
  obtain ⟨n, hn⟩ : ∃ n, 4 = n + 1 + ks.length := ⟨3 - ks.length, by omega⟩
  rw [hn, loop_skips ks (n + 1) (by omega) h, Nat.zero_add, loop_done ht]

theorem parseFrameHeader_ok {ks : List Skippable} (d : Descriptor) (hk : ks.length ≤ 2)
    (h : At data pos (encodeSkips ks ++ (d.encode ++ rest))) :
    parseFrameHeader data pos =
      .ok (some ⟨decide (d.desc &&& 0x04 ≠ 0)⟩, pos + (encodeSkips ks).length + d.encode.length) := by
  have hl := h.skip.length
  rw [List.length_append, Descriptor.encode, List.length_append, show zstdMagic.length = 4 from rfl] at hl
  unfold parseFrameHeader
  rw [failIf_false _ (by omega), Run.ok_bind, loop_scan hk h (headerTurn_frame d (by omega) h.skip)]

end

/-! ## Blocks -/

section
variable {last : Bool} {c : Content}

theorem blockSize_eq (b0 b1 b2 : UInt8) :
    (b0 >>> 3).toNat ||| (b1.toNat <<< 5) ||| (b2.toNat <<< 13) =
      b0.toNat / 8 + 32 * b1.toNat + 8192 * b2.toNat := by
  have h0 := b0.toNat_lt
  have h1 := b1.toNat_lt
  have h5 : b0.toNat / 2 ^ 3 < 2 ^ 5 := by omega
  rw [UInt8.toNat_shiftRight, show ((3 : UInt8).toNat % 8) = 3 from rfl, Nat.shiftRight_eq_div_pow, or_shiftLeft h5,
    or_shiftLeft (by omega)]
  omega

theorem blockType_eq (b0 : UInt8) : ((b0 >>> 1) &&& 0x03).toNat = b0.toNat / 2 % 4 := by
  rw [UInt8.toNat_and, UInt8.toNat_shiftRight, show (0x03 : UInt8).toNat = 2 ^ 2 - 1 from rfl,
    Nat.and_two_pow_sub_one_eq_mod, show ((1 : UInt8).toNat % 8) = 1 from rfl, Nat.shiftRight_eq_div_pow]

theorem last_iff (b0 : UInt8) : b0 &&& 0x01 ≠ 0 ↔ b0.toNat % 2 ≠ 0 := by
  have h : (b0 &&& 0x01).toNat = b0.toNat % 2 := by
    rw [UInt8.toNat_and, show (0x01 : UInt8).toNat = 2 ^ 1 - 1 from rfl, Nat.and_two_pow_sub_one_eq_mod]
  rw [ne_eq, ← UInt8.toNat_inj, h]
  rfl

theorem blockHeader_bytes (last : Bool) (c : Content) :
    toLe 3 (blockHeader last c) = [UInt8.ofNat (blockHeader last c), UInt8.ofNat (blockHeader last c / 256),
      UInt8.ofNat (blockHeader last c / 65536)] := by
  simp only [toLe, Nat.div_div_eq_div_mul]

theorem blockHeader_last : (UInt8.ofNat (blockHeader last c) &&& 0x01 ≠ 0) ↔ last = true := by
  rw [last_iff, UInt8.toNat_ofNat']
  unfold blockHeader
  cases last
  · simp only [Bool.toNat_false, Bool.false_eq_true, iff_false]
    omega
  · simp only [Bool.toNat_true, iff_true]
    omega

theorem BlockType.code_lt (t : BlockType) : t.code < 4 := by cases t <;> decide

theorem blockHeader_type :
    ((UInt8.ofNat (blockHeader last c) >>> 1) &&& 0x03).toNat = c.blockType.code := by
  have hcode := c.blockType.code_lt
  have hlast : last.toNat < 2 := by cases last <;> decide
  rw [blockType_eq, UInt8.toNat_ofNat']
  unfold blockHeader
  omega

theorem blockHeader_size (h : c.size ≤ maxBlockSize) :
    (UInt8.ofNat (blockHeader last c) >>> 3).toNat ||| ((UInt8.ofNat (blockHeader last c / 256)).toNat <<< 5) |||
      ((UInt8.ofNat (blockHeader last c / 65536)).toNat <<< 13) = c.size := by
  have hcode := c.blockType.code_lt
  have hlast : last.toNat < 2 := by cases last <;> decide
  have hword : blockHeader last c / 8 = c.size := by unfold blockHeader; omega
  unfold maxBlockSize at h
  rw [blockSize_eq, UInt8.toNat_ofNat', UInt8.toNat_ofNat', UInt8.toNat_ofNat']
  omega

theorem fromU8_code (t : BlockType) : BlockType.fromU8 t.code = some t := by cases t <;> rfl

theorem length_stream (c : Content) : c.stream.length = if c.blockType = .rle then 1 else c.size := by
  cases c <;> rfl

theorem blockContent_ok (b : FrameBlock) (pos : Nat) :
    blockContent b.content.blockType b.content.size b.content.stream pos = .ok (b.literals, some b.content.size) := by
  have hr := b.read_eq
  cases hc : b.content with
  | raw data =>
    rw [hc] at hr
    rw [← Except.ok.inj hr]; rfl
  | rle byte count =>
    rw [hc] at hr
    rw [← Except.ok.inj hr]; rfl
  | compressed payload =>
    rw [hc] at hr
    change extractLiteralsFromBlock payload = _ at hr
    unfold blockContent
    simp only [Content.blockType, Content.stream, Content.size]
    rw [hr]
    rfl

end

section
variable {data rest : Bytes} {pos : Nat}

theorem length_block (last : Bool) (b : FrameBlock) : (b.encode last).length = 3 + b.content.stream.length := by
  rw [FrameBlock.encode, List.length_append, length_toLe]

theorem parseBlock_ok (last : Bool) (b : FrameBlock) (h : At data pos (b.encode last ++ rest)) :
    parseBlock data pos = .ok ⟨b.located pos, last, pos + (b.encode last).length⟩ := by
  have hl := h.length
  rw [List.length_append, length_block] at hl
  rw [FrameBlock.encode, blockHeader_bytes, List.append_assoc] at h
  have hdata : At data (pos + 3) (b.content.stream ++ rest) := h.skip
  have h0 : At data pos (UInt8.ofNat (blockHeader last b.content) :: _) := h
  have h1 := h0.tail
  have h2 := h1.tail
  have hstream : (if b.content.blockType = .rle then 1 else b.content.size) = b.content.stream.length :=
    (length_stream _).symm
  have hsize := b.size_le
  unfold parseBlock
  rw [failIf_false _ (by omega), Run.ok_bind, h0.index, Run.ok_bind, h1.index, Run.ok_bind, h2.index, Run.ok_bind]
  dsimp only
  rw [blockHeader_type, fromU8_code]
  dsimp only
  rw [blockHeader_size hsize, failIf_false _ (by omega), Run.ok_bind, hstream, failIf_false _ (by omega), Run.ok_bind,
    hdata.slice rfl, Run.ok_bind, blockContent_ok, Run.ok_bind]
  simp only [Run.pure_eq, blockHeader_last, length_block, FrameBlock.located, Nat.add_sub_cancel, Bool.decide_eq_true,
    Nat.add_assoc]

end

/-! ## Frames -/

def literalLimit (n : Nat) : Nat := min maxTotalLiterals (max (n * maxDecompressionRatio) (1024 * 1024))

def maxBlocks : Nat := 100000

section
variable {data rest : Bytes} {s : Frames}

def Frames.push (s : Frames) (last : Bool) (b : FrameBlock) : Frames :=
  ⟨s.pos + (b.encode last).length, s.blocks ++ [b.located s.pos], s.totalLiterals + b.literals.length, s.frameCount⟩

theorem blockTurn_ok (last : Bool) {b : FrameBlock} (hn : last = false → s.blocks.length + 1 < maxBlocks)
    (ht : s.totalLiterals + b.literals.length ≤ literalLimit data.length)
    (h : At data s.pos (b.encode last ++ rest)) :
    blockTurn data s = .ok (if last then .done (s.push last b) else .next (s.push last b)) := by
  unfold literalLimit at ht
  have hlen : (s.blocks ++ [b.located s.pos]).length = s.blocks.length + 1 := by simp
  unfold maxBlocks at hn
  unfold blockTurn
  rw [parseBlock_ok last b h, Run.ok_bind]
  dsimp only [FrameBlock.located]
  rw [failIf_false _ (by omega), Run.ok_bind, failIf_false _ (by omega), Run.ok_bind]
  cases last
  · have hn := hn rfl
    rw [if_neg (by decide), failIf_false _ (by rw [List.length_append, List.length_singleton]; omega)]
    rfl
  · rfl

theorem encodeBlocks_cons (b : FrameBlock) (init : List FrameBlock) (last : FrameBlock) :
    Frame.encodeBlocks (b :: init) last = b.encode false ++ Frame.encodeBlocks init last := by
  unfold Frame.encodeBlocks
  rw [List.map_cons, List.flatten_cons, List.append_assoc]

theorem blocks_ok (last : FrameBlock) : ∀ (init : List FrameBlock) (fuel : Nat) {s : Frames}, init.length < fuel →
    (init = [] ∨ s.blocks.length + init.length < maxBlocks) →
    s.totalLiterals + totalLiterals (init ++ [last]) ≤ literalLimit data.length →
    At data s.pos (Frame.encodeBlocks init last ++ rest) →
    loop (blockTurn data) fuel s = .ok
      ⟨s.pos + (Frame.encodeBlocks init last).length, s.blocks ++ locate s.pos (init ++ [last]),
        s.totalLiterals + totalLiterals (init ++ [last]), s.frameCount⟩
  | [], fuel + 1, s, _, hn, ht, h => by
    have hturn := blockTurn_ok true nofun ht h
    rw [if_pos rfl] at hturn
    rw [loop_done hturn]
    rfl
  | b :: init, fuel + 1, s, hf, hn, ht, h => by
    have hn := hn.resolve_left (by simp)
    rw [List.length_cons] at hf hn
    simp only [totalLiterals, List.cons_append, List.map_cons, List.sum_cons] at ht
    rw [encodeBlocks_cons, List.append_assoc] at h
    have hturn := blockTurn_ok false (fun _ => by omega) (by omega) h
    rw [if_neg (by decide)] at hturn
    rw [loop_next hturn, blocks_ok last init fuel (by omega) (.inr (by simp [Frames.push]; omega))
      (by simp only [Frames.push, totalLiterals]; omega)
      h.skip]
    simp only [Frames.push, encodeBlocks_cons, locate, totalLiterals, List.map_cons, List.length_append,
      List.cons_append, List.sum_cons, List.append_assoc, List.nil_append, Nat.add_assoc, length_block]

theorem length_locate : ∀ (bs : List FrameBlock) (offset : Nat), (locate offset bs).length = bs.length
  | [], _ => rfl
  | b :: bs, offset => by rw [locate, List.length_cons, length_locate bs, List.length_cons]

theorem length_init_lt (init : List FrameBlock) (last : FrameBlock) :
    init.length < (Frame.encodeBlocks init last).length := by
  unfold Frame.encodeBlocks
  rw [List.length_append, length_block]
  induction init with
  | nil => simp
  | cons b init ih =>
    rw [List.map_cons, List.flatten_cons, List.length_append, List.length_cons, length_block]; omega

theorem frameTurn_ok (g : Segment) (hk : g.skips.length ≤ 2) (hf : s.frameCount < 1000)
    (hn : g.frame.init = [] ∨ s.blocks.length + g.frame.init.length < maxBlocks)
    (ht : s.totalLiterals + totalLiterals g.frame.blocks ≤ literalLimit data.length)
    (h : At data s.pos (g.encode ++ rest)) :
    frameTurn data s = .ok (.next ⟨s.pos + g.encode.length,
      s.blocks ++ locate (s.pos + (encodeSkips g.skips).length + g.frame.toDescriptor.encode.length) g.frame.blocks,
      s.totalLiterals + totalLiterals g.frame.blocks, s.frameCount + 1⟩) := by
  have hlen : g.encode.length = (encodeSkips g.skips).length + (g.frame.toDescriptor.encode.length +
      ((Frame.encodeBlocks g.frame.init g.frame.last).length + g.frame.checksum.length)) := by
    unfold Segment.encode Frame.encode
    rw [List.length_append, List.length_append, List.length_append]
  unfold Segment.encode Frame.encode at h
  rw [List.append_assoc, List.append_assoc, List.append_assoc] at h
  have hblocks := h.skip.skip
  have hsum := hblocks.skip
  have hinit := length_init_lt g.frame.init g.frame.last
  have hl := hsum.length
  rw [List.length_append] at hl
  have hck := g.frame.checksum_length
  have hrun := blocks_ok
    (s := ⟨s.pos + (encodeSkips g.skips).length + g.frame.toDescriptor.encode.length, s.blocks, s.totalLiterals,
      s.frameCount + 1⟩) g.frame.last g.frame.init (data.length + 1) (by omega) hn ht hblocks
  unfold frameTurn
  rw [if_pos (by omega)]
  dsimp only
  rw [failIf_false _ (by omega), Run.ok_bind, parseFrameHeader_ok g.frame.toDescriptor hk h, Run.ok_bind]
  dsimp only
  rw [hrun, Run.ok_bind]
  by_cases hflag : g.frame.desc &&& 0x04 ≠ 0
  · rw [if_pos hflag] at hck
    rw [if_pos (decide_eq_true hflag), failIf_false _ (by dsimp only; omega), hlen, hck]
    simp only [Run.ok_bind, Run.pure_eq, Nat.add_assoc]
    rfl
  · rw [if_neg hflag] at hck
    rw [if_neg (by simpa using hflag), hlen, hck]
    simp only [Run.pure_eq, Nat.add_assoc, Nat.add_zero]
    rfl

theorem frameTurn_end (h : s.pos = data.length) : frameTurn data s = .ok (.done s.blocks) := by
  unfold frameTurn
  rw [if_neg (by omega)]
  rfl

/-- What a run asks of the frames before it: the blocks are counted at each but the last
of a frame. -/
def BlocksFit : Nat → List Frame → Prop
  | _, [] => True
  | n, f :: fs => (f.init = [] ∨ n + f.init.length < maxBlocks) ∧ BlocksFit (n + f.blocks.length) fs

def sumLiterals (fs : List Frame) : Nat := (fs.map fun f => totalLiterals f.blocks).sum

theorem BlocksFit.of_lt : ∀ {fs : List Frame} {n : Nat}, n + (fs.map (·.blocks.length)).sum < maxBlocks → BlocksFit n fs
  | [], _, _ => trivial
  | f :: fs, n, h => by
    rw [List.map_cons, List.sum_cons] at h
    have hinit : f.init.length < f.blocks.length := by unfold Frame.blocks; simp
    exact ⟨.inr (by omega), BlocksFit.of_lt (by omega)⟩

theorem encodeSegments_cons (g : Segment) (gs : List Segment) :
    encodeSegments (g :: gs) = g.encode ++ encodeSegments gs := rfl

theorem sumLiterals_cons (f : Frame) (fs : List Frame) :
    sumLiterals (f :: fs) = totalLiterals f.blocks + sumLiterals fs := rfl

theorem segments_ok : ∀ (gs : List Segment) (n : Nat) {s : Frames}, (∀ g ∈ gs, g.skips.length ≤ 2) →
    s.frameCount + gs.length ≤ 1000 → BlocksFit s.blocks.length (gs.map (·.frame)) →
    s.totalLiterals + sumLiterals (gs.map (·.frame)) ≤ literalLimit data.length →
    At data s.pos (encodeSegments gs ++ rest) →
    loop (frameTurn data) (n + gs.length) s = loop (frameTurn data) n
      ⟨s.pos + (encodeSegments gs).length, s.blocks ++ locateSegments s.pos gs,
        s.totalLiterals + sumLiterals (gs.map (·.frame)), s.frameCount + gs.length⟩
  | [], n, s, _, _, _, _, _ => by
    rw [locateSegments, List.append_nil]
    rfl
  | g :: gs, n, s, hk, hc, hn, ht, h => by
    rw [List.length_cons] at hc
    rw [List.map_cons, sumLiterals_cons] at ht
    rw [encodeSegments_cons, List.append_assoc] at h
    rw [List.length_cons, ← Nat.add_assoc,
      loop_next (frameTurn_ok g (hk g List.mem_cons_self) (by omega) hn.1 (by omega) h),
      segments_ok gs n (fun g' hg => hk g' (List.mem_cons_of_mem _ hg)) (by dsimp only; omega)
        (by rw [List.length_append, length_locate]; exact hn.2) (by dsimp only; omega) h.skip]
    simp only [encodeSegments_cons, List.map_cons, sumLiterals_cons, locateSegments, List.length_append,
      List.append_assoc, Nat.add_assoc, Nat.add_comm 1]

end

theorem length_segment_pos (g : Segment) : 0 < g.encode.length := by
  have := length_init_lt g.frame.init g.frame.last
  unfold Segment.encode Frame.encode
  rw [List.length_append, List.length_append, List.length_append]
  omega

theorem length_segments_le : ∀ gs : List Segment, gs.length ≤ (encodeSegments gs).length
  | [] => Nat.le_refl _
  | g :: gs => by
    have hpos := length_segment_pos g
    have ih := length_segments_le gs
    rw [encodeSegments_cons, List.length_append, List.length_cons]
    omega

/-! ## Frames with nothing between them -/

def bare (f : Frame) : Segment := ⟨[], f⟩

theorem encodeSegments_bare : ∀ fs : List Frame, encodeSegments (fs.map bare) = encodeFrames fs
  | [] => rfl
  | f :: fs => by
    have ih := encodeSegments_bare fs
    rw [List.map_cons, encodeSegments_cons, ih]
    rfl

theorem locateSegments_bare : ∀ (fs : List Frame) (offset : Nat),
    locateSegments offset (fs.map bare) = locateFrames offset fs
  | [], _ => rfl
  | f :: fs, offset => by
    rw [List.map_cons, locateSegments, locateFrames, locateSegments_bare fs]
    rfl

theorem frames_bare (fs : List Frame) : (fs.map bare).map (·.frame) = fs := by
  rw [List.map_map]
  exact List.map_id fs

/-- **Extraction from concatenated frames.** -/
theorem extractLiterals_frames (fs : List Frame) (hne : fs ≠ []) (hf : fs.length ≤ 1000)
    (hn : (fs.map (·.blocks.length)).sum < maxBlocks)
    (ht : (fs.map fun f => totalLiterals f.blocks).sum ≤ literalLimit (encodeFrames fs).length) :
    extractLiterals (encodeFrames fs) = .ok (locateFrames 0 fs) := by
  have hpos := length_segments_le (fs.map bare)
  rw [encodeSegments_bare, List.length_map] at hpos
  have hdata : encodeFrames fs ≠ [] := by
    rintro h0
    rw [h0] at hpos
    exact hne (List.length_eq_zero_iff.mp (Nat.le_zero.mp hpos))
  have hat : At (encodeFrames fs) 0 (encodeSegments (fs.map bare) ++ []) := by
    rw [encodeSegments_bare, List.append_nil]
    exact At.start _
  have hfuel : (encodeFrames fs).length + 1 = (encodeFrames fs).length - fs.length + 1 + (fs.map bare).length := by
    rw [List.length_map]; omega
  unfold extractLiterals
  rw [if_neg hdata, hfuel, segments_ok (fs.map bare) _ (by simp [bare]) (by simpa using hf)
    (by rw [frames_bare]; exact BlocksFit.of_lt (by simpa using hn))
    (by rw [frames_bare]; unfold sumLiterals; dsimp only; omega) hat,
    loop_done (frameTurn_end (by dsimp only; rw [encodeSegments_bare]; omega)), locateSegments_bare]
  rfl

/-- A single segment with a dictionary ID of one byte and a checksum: a raw block and a run. -/
def rleFrame : Frame where
  desc := 0x25
  window := []
  dictId := [9]
  contentSize := [5]
  reserved := by decide
  window_length := by decide
  dictId_length := by decide
  contentSize_length := by decide
  init := [⟨.raw [1, 2], [1, 2], by decide, rfl⟩]
  last := ⟨.rle 7 3, [7, 7, 7], by decide, rfl⟩
  checksum := [0, 0, 0, 0]
  checksum_length := by decide

/-- A compressed block whose literals section is raw. -/
def literalsFrame : Frame where
  desc := 0x00
  window := [0x58]
  dictId := []
  contentSize := []
  reserved := by decide
  window_length := by decide
  dictId_length := by decide
  contentSize_length := by decide
  init := []
  last := ⟨.compressed [0x10, 5, 6, 0], [5, 6], by decide, by decide⟩
  checksum := []
  checksum_length := by decide

theorem extractLiterals_rleFrame :
    extractLiterals (encodeFrames [rleFrame, literalsFrame]) =
      .ok [⟨7, 5, some 2, [1, 2]⟩, ⟨12, 4, some 3, [7, 7, 7]⟩, ⟨26, 7, some 4, [5, 6]⟩] :=
  extractLiterals_frames [rleFrame, literalsFrame] (by simp) (by decide) (by decide) (by decide)

end Ziftsieve.Zstd
