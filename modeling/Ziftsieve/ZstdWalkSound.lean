import Ziftsieve.ZstdSafe
import Ziftsieve.ZstdSound

/-!
# What the frame walk accepts

The converse of the walk's soundness: a block, a header or a frame that the
parser takes is the encoding of one. A stream is then accepted exactly when it
is frames, each after at most two skippable frames, and a tail that the header
parser takes for the end.
-/

namespace Ziftsieve.Zstd

/-! ## Blocks -/

section
variable {b0 b1 b2 : UInt8}

theorem toNat_last (b0 : UInt8) : (decide (b0 &&& 0x01 ≠ 0)).toNat = b0.toNat % 2 := by
  by_cases hbit : b0.toNat % 2 = 0
  · rw [decide_eq_false (by rw [last_iff]; omega), Bool.toNat_false, hbit]
  · rw [decide_eq_true ((last_iff b0).mpr hbit), Bool.toNat_true]
    omega

theorem fromU8_inv {n : Nat} {t : BlockType} (h : BlockType.fromU8 n = some t) : t.code = n := by
  unfold BlockType.fromU8 at h
  split at h
  all_goals cases h <;> rfl

theorem toLe_blockHeader {c : Content} (htype : BlockType.fromU8 ((b0 >>> 1) &&& 0x03).toNat = some c.blockType)
    (hsize : (b0 >>> 3).toNat ||| (b1.toNat <<< 5) ||| (b2.toNat <<< 13) = c.size) :
    toLe 3 (blockHeader (decide (b0 &&& 0x01 ≠ 0)) c) = [b0, b1, b2] := by
  have hcode := fromU8_inv htype
  have h0 := b0.toNat_lt
  rw [blockType_eq] at hcode
  rw [blockSize_eq] at hsize
  have hword : blockHeader (decide (b0 &&& 0x01 ≠ 0)) c = fromLe [b0, b1, b2] := by
    unfold blockHeader
    rw [toNat_last, hcode, ← hsize]
    simp only [fromLe]
    omega
  rw [hword]
  exact toLe_fromLe [b0, b1, b2]

end

section
variable {data ys : Bytes} {pos : Nat}

theorem blockContent_inv {t : BlockType} {size : Nat} {blockData : Bytes} {r : Bytes × Option Nat}
    (hlen : blockData.length = if t = .rle then 1 else size) (h : blockContent t size blockData pos = .ok r) :
    ∃ c : Content, c.blockType = t ∧ c.size = size ∧ c.stream = blockData ∧ c.read = .ok r.1 ∧ r.2 = some size := by
  cases t with
  | raw =>
    cases h
    exact ⟨.raw blockData, rfl, hlen, rfl, rfl, rfl⟩
  | rle =>
    obtain ⟨b, rfl⟩ := List.length_eq_one_iff.mp hlen
    cases h
    exact ⟨.rle b size, rfl, rfl, rfl, rfl, rfl⟩
  | compressed =>
    obtain ⟨literals, hread, h⟩ := Run.bind_eq_ok.mp h
    cases h
    exact ⟨.compressed blockData, rfl, hlen, rfl, hread, rfl⟩
  | reserved => cases h

theorem parseBlock_inv {p : ParsedBlock} (hat : At data pos ys) (h : parseBlock data pos = .ok p) :
    ∃ (b : FrameBlock) (rest : Bytes), ys = b.encode p.isLast ++ rest ∧
      p = ⟨b.located pos, p.isLast, pos + (b.encode p.isLast).length⟩ := by
  have hl := hat.length
  unfold parseBlock at h
  obtain ⟨_, hheader, h⟩ := Run.bind_eq_ok.mp h
  rw [failIf_eq_ok] at hheader
  obtain ⟨b0, b1, b2, zs, rfl⟩ := exists_cons3 (show 3 ≤ ys.length by omega)
  rw [hat.index, Run.ok_bind, hat.tail.index, Run.ok_bind, hat.tail.tail.index, Run.ok_bind] at h
  dsimp only at h
  cases htype : BlockType.fromU8 ((b0 >>> 1) &&& 0x03).toNat with
  | none => rw [htype] at h; cases h
  | some t =>
    rw [htype] at h
    obtain ⟨_, hmax, h⟩ := Run.bind_eq_ok.mp h
    obtain ⟨_, hend, h⟩ := Run.bind_eq_ok.mp h
    obtain ⟨blockData, hslice, h⟩ := Run.bind_eq_ok.mp h
    obtain ⟨r, hcontent, h⟩ := Run.bind_eq_ok.mp h
    rw [failIf_eq_ok] at hmax hend
    obtain ⟨-, hdata⟩ := slice_eq_ok.mp hslice
    rw [Nat.add_sub_cancel_left, show data.drop (pos + 3) = zs from hat.tail.tail.tail.drop] at hdata
    have hlen : blockData.length = if t = .rle then 1 else
        (b0 >>> 3).toNat ||| (b1.toNat <<< 5) ||| (b2.toNat <<< 13) := by
      rw [← hdata, List.length_take]
      simp only [List.length_cons] at hl
      omega
    obtain ⟨c, rfl, hsize, hstream, hread, hr⟩ := blockContent_inv hlen hcontent
    refine ⟨⟨c, r.1, by omega, hread⟩, zs.drop blockData.length, ?_, ?_⟩
    · cases h
      dsimp only [FrameBlock.encode]
      rw [toLe_blockHeader htype hsize.symm, hstream, List.append_assoc]
      have hzs : zs = blockData ++ zs.drop blockData.length := by
        rw [hlen, ← hdata, List.take_append_drop]
      exact congrArg (b0 :: b1 :: b2 :: ·) hzs
    · cases h
      simp only [FrameBlock.located, FrameBlock.encode, List.length_append, length_toLe, hstream, hlen, hsize, hr,
        Nat.add_sub_cancel, Nat.add_assoc, Nat.add_comm 3]

end

/-! ## Frame headers -/

section
variable {data ys : Bytes} {pos p : Nat}

/-- A header field: `size` bytes, and the header goes on after them. -/
structure Field (data ys : Bytes) (pos size p : Nat) (field : Bytes) : Prop where
  length_eq : field.length = size
  pos_eq : p = pos + size
  rest : ∃ rest, ys = field ++ rest ∧ At data p rest

theorem Field.empty (hat : At data pos ys) : Field data ys pos 0 pos [] := ⟨rfl, rfl, ys, rfl, hat⟩

theorem skipField_inv {size : Nat} {reason : String} (hat : At data pos ys)
    (h : skipField data pos size reason = .ok p) : ∃ field, Field data ys pos size p field := by
  have hl := hat.length
  unfold skipField at h
  obtain ⟨_, hend, h⟩ := Run.bind_eq_ok.mp h
  rw [failIf_eq_ok] at hend
  cases h
  have hlen : (ys.take size).length = size := by rw [List.length_take]; omega
  have hsplit : ys = ys.take size ++ ys.drop size := (List.take_append_drop _ _).symm
  refine ⟨ys.take size, hlen, rfl, ys.drop size, hsplit, ?_⟩
  rw [hsplit] at hat
  have hskip := hat.skip
  rwa [hlen] at hskip

theorem skipDictId_inv {n : Nat} (hn : n < 4) (hat : At data pos ys) (h : skipDictId data pos n = .ok p) :
    ∃ field, Field data ys pos (dictIdSize n) p field := by
  obtain rfl | rfl | rfl | rfl : n = 0 ∨ n = 1 ∨ n = 2 ∨ n = 3 := by omega
  · cases h
    exact ⟨[], Field.empty hat⟩
  · exact skipField_inv hat h
  · exact skipField_inv hat h
  · exact skipField_inv hat h

theorem skipWindow_inv {singleSegment : Nat} {reason : String} (hat : At data pos ys)
    (h : (if singleSegment = 0 then skipField data pos 1 reason else pure pos) = .ok p) :
    ∃ field, Field data ys pos (if singleSegment = 0 then 1 else 0) p field := by
  by_cases h0 : singleSegment = 0
  · rw [if_pos h0] at h ⊢
    exact skipField_inv hat h
  · rw [if_neg h0] at h ⊢
    cases h
    exact ⟨[], Field.empty hat⟩

theorem parseStandardFrameHeader_inv {r : FrameHeader × Nat} (hat : At data pos (zstdMagic ++ ys))
    (h : parseStandardFrameHeader data pos = .ok r) :
    ∃ (d : Descriptor) (rest : Bytes), zstdMagic ++ ys = d.encode ++ rest ∧
      r = (⟨decide (d.desc &&& 0x04 ≠ 0)⟩, pos + d.encode.length) := by
  have hdesc : At data (pos + 4) ys := hat.skip
  have hl := hdesc.length
  unfold parseStandardFrameHeader at h
  obtain ⟨_, hlen, h⟩ := Run.bind_eq_ok.mp h
  rw [failIf_eq_ok] at hlen
  have hne : ys ≠ [] := by
    rintro rfl
    simp only [List.length_nil] at hl
    omega
  obtain ⟨desc, zs, rfl⟩ := List.exists_cons_of_ne_nil hne
  rw [hdesc.index, Run.ok_bind] at h
  obtain ⟨_, hreserved, h⟩ := Run.bind_eq_ok.mp h
  obtain ⟨p1, hwindow, h⟩ := Run.bind_eq_ok.mp h
  obtain ⟨p2, hdict, h⟩ := Run.bind_eq_ok.mp h
  rw [frameContentSizeSize_ok (toNat_and_lt _ (by decide)), Run.ok_bind] at h
  obtain ⟨p3, hsize, h⟩ := Run.bind_eq_ok.mp h
  rw [failIf_eq_ok, not_not] at hreserved
  obtain ⟨window, hwlen, rfl, zs1, rfl, hat1⟩ := skipWindow_inv hdesc.tail hwindow
  obtain ⟨dictId, hdlen, rfl, zs2, rfl, hat2⟩ := skipDictId_inv (toNat_and_lt _ (by decide)) hat1 hdict
  obtain ⟨contentSize, hclen, rfl, zs3, rfl, hat3⟩ := skipField_inv hat2 hsize
  refine ⟨⟨desc, window, dictId, contentSize, hreserved, hwlen, hdlen, hclen⟩, zs3, ?_, ?_⟩
  · simp only [Descriptor.encode, List.append_assoc, List.cons_append]
  · cases h
    simp only [Descriptor.encode, List.length_append, List.length_cons, hwlen, hdlen, hclen,
      show zstdMagic.length = 4 from rfl, Prod.mk.injEq, true_and]
    omega

end

/-! ## What stands at a header -/

/-- What the header parser takes for the end of a stream. -/
def Tail (start : Nat) (ys : Bytes) : Prop := ys = [] ∨ (0 < start ∧ startsFrame ys = false)

theorem startsFrame_short : ∀ {ys : Bytes}, ys.length < 4 → startsFrame ys = false
  | [], _ => rfl
  | [_], _ => rfl
  | [_, _], _ => rfl
  | [_, _, _], _ => rfl
  | _ :: _ :: _ :: _ :: _, h => by simp only [List.length_cons] at h; omega

/-- One turn at a header: over a skippable frame, or out of the loop. -/
inductive HeaderStep (start pos it : Nat) : Bytes → Turn HeaderScan (Option FrameHeader × Nat) → Prop
  | skip (k : Skippable) (rest : Bytes) :
      HeaderStep start pos it (k.encode ++ rest) (.next ⟨pos + k.encode.length, it + 1⟩)
  | frame (d : Descriptor) (rest : Bytes) :
      HeaderStep start pos it (d.encode ++ rest)
        (.done (some ⟨decide (d.desc &&& 0x04 ≠ 0)⟩, pos + d.encode.length))
  | tail {ys : Bytes} : Tail start ys → HeaderStep start pos it ys (.done (none, pos))

section
variable {data ys rest : Bytes} {start pos it : Nat}

theorem skippable_of_header {b0 : UInt8} {zs : Bytes} (hkind : b0 ≥ 0x50 ∧ b0 ≤ 0x57)
    (hat : At data pos (b0 :: 0x2A :: 0x4D :: 0x18 :: zs)) (hlen : pos + 8 ≤ data.length) {n : Nat}
    (hsize : (readLe32 data (pos + 4) : Run ZiftError Nat) = .ok n) (hend : pos + 8 + n ≤ data.length) :
    ∃ (k : Skippable) (rest : Bytes), b0 :: 0x2A :: 0x4D :: 0x18 :: zs = k.encode ++ rest ∧
      k.encode.length = 8 + n := by
  have hl := hat.length
  have hzs : At data (pos + 4) zs := hat.tail.tail.tail.tail
  simp only [List.length_cons] at hl
  obtain ⟨s0, s1, s2, s3, content, rfl⟩ := exists_cons4 (show 4 ≤ zs.length by omega)
  rw [hzs.readLe32] at hsize
  cases hsize
  have hto : toLe 4 (fromLe [s0, s1, s2, s3]) = [s0, s1, s2, s3] := toLe_fromLe [s0, s1, s2, s3]
  have htake : (content.take (fromLe [s0, s1, s2, s3])).length = fromLe [s0, s1, s2, s3] := by
    rw [List.length_take]
    simp only [List.length_cons] at hl
    omega
  have hlt : fromLe [s0, s1, s2, s3] < 2 ^ 32 := by
    have := fromLe_lt [s0, s1, s2, s3]
    simpa using this
  let k : Skippable := ⟨b0, content.take (fromLe [s0, s1, s2, s3]), hkind, by rw [htake]; exact hlt⟩
  refine ⟨k, content.drop (fromLe [s0, s1, s2, s3]), ?_, ?_⟩
  · simp only [k, Skippable.encode, htake, hto, List.cons_append, List.nil_append, List.take_append_drop]
  · rw [k.length_encode, htake]

theorem headerTurn_inv {t : Turn HeaderScan (Option FrameHeader × Nat)} (hat : At data pos ys)
    (h : headerTurn data start ⟨pos, it⟩ = .ok t) : it < 3 ∧ HeaderStep start pos it ys t := by
  have hl := hat.length
  unfold headerTurn at h
  dsimp only at h
  obtain ⟨_, hit, h⟩ := Run.bind_eq_ok.mp h
  rw [failIf_eq_ok] at hit
  refine ⟨Nat.lt_of_not_le hit, ?_⟩
  by_cases heq : pos = data.length
  · rw [if_pos heq] at h
    cases h
    exact .tail (.inl (List.length_eq_zero_iff.mp (by omega)))
  rw [if_neg heq] at h
  by_cases hshort : pos + 4 > data.length
  · rw [if_pos hshort] at h
    by_cases hstart : start > 0
    · rw [if_pos hstart] at h
      cases h
      exact .tail (.inr ⟨hstart, startsFrame_short (by omega)⟩)
    · rw [if_neg hstart] at h
      cases h
  rw [if_neg hshort] at h
  obtain ⟨b0, b1, b2, b3, zs, rfl⟩ := exists_cons4 (show 4 ≤ ys.length by omega)
  have hmagic : At data pos ([b0, b1, b2, b3] ++ zs) := hat
  rw [hmagic.slice (j := pos + 4) rfl, Run.ok_bind] at h
  by_cases hstd : [b0, b1, b2, b3] = zstdMagic
  · rw [if_pos hstd] at h
    obtain ⟨r, hparse, h⟩ := Run.bind_eq_ok.mp h
    cases h
    rw [hstd] at hmagic
    obtain ⟨d, rest, hsplit, rfl⟩ := parseStandardFrameHeader_inv hmagic hparse
    have hys : b0 :: b1 :: b2 :: b3 :: zs = d.encode ++ rest := by
      rw [← hsplit, ← hstd]
      rfl
    rw [hys]
    exact .frame d rest
  rw [if_neg hstd, hat.index, Run.ok_bind, hat.tail.index, Run.ok_bind, hat.tail.tail.index, Run.ok_bind,
    hat.tail.tail.tail.index, Run.ok_bind] at h
  by_cases hskip : b0 ≥ 0x50 ∧ b0 ≤ 0x57 ∧ b1 = 0x2A ∧ b2 = 0x4D ∧ b3 = 0x18
  · rw [if_pos hskip] at h
    obtain ⟨hge, hle, rfl, rfl, rfl⟩ := hskip
    obtain ⟨_, hlen, h⟩ := Run.bind_eq_ok.mp h
    obtain ⟨n, hsize, h⟩ := Run.bind_eq_ok.mp h
    obtain ⟨_, hend, h⟩ := Run.bind_eq_ok.mp h
    rw [failIf_eq_ok] at hlen hend
    cases h
    obtain ⟨k, rest, hk, hklen⟩ := skippable_of_header ⟨hge, hle⟩ hat (Nat.le_of_not_lt hlen) hsize
      (Nat.le_of_not_lt hend)
    rw [hk, Nat.add_assoc, ← hklen]
    exact .skip k rest
  · rw [if_neg hskip] at h
    by_cases hstart : start > 0
    · rw [if_pos hstart] at h
      cases h
      exact .tail (.inr ⟨hstart, decide_eq_false (not_or.mpr ⟨hstd, hskip⟩)⟩)
    · rw [if_neg hstart] at h
      cases h

theorem headerTurn_tail (hit : it < 3) (hat : At data pos ys) (ht : Tail start ys) :
    headerTurn data start ⟨pos, it⟩ = .ok (.done (none, pos)) := by
  have hl := hat.length
  unfold headerTurn
  dsimp only
  rw [failIf_false _ (Nat.not_le.mpr hit), Run.ok_bind]
  by_cases heq : pos = data.length
  · rw [if_pos heq]
    rfl
  obtain ⟨hstart, hstarts⟩ := ht.resolve_left (by rintro rfl; exact heq hl)
  rw [if_neg heq]
  by_cases hshort : pos + 4 > data.length
  · rw [if_pos hshort, if_pos hstart]
    rfl
  obtain ⟨b0, b1, b2, b3, zs, rfl⟩ := exists_cons4 (show 4 ≤ ys.length by omega)
  have hmagic : At data pos ([b0, b1, b2, b3] ++ zs) := hat
  obtain ⟨hstd, hskip⟩ := not_or.mp (of_decide_eq_false hstarts)
  rw [if_neg hshort, hmagic.slice (j := pos + 4) rfl, Run.ok_bind, if_neg hstd, hat.index, Run.ok_bind,
    hat.tail.index, Run.ok_bind, hat.tail.tail.index, Run.ok_bind, hat.tail.tail.tail.index, Run.ok_bind,
    if_neg hskip, if_pos hstart]
  rfl

/-- A scan takes skippable frames, two or fewer in all, and then leaves the loop. -/
theorem loop_header_inv {r : Option FrameHeader × Nat} : ∀ {fuel : Nat} {pos it : Nat} {ys : Bytes}, At data pos ys →
    loop (headerTurn data start) fuel ⟨pos, it⟩ = .ok r →
    ∃ (ks : List Skippable) (rest : Bytes), ys = encodeSkips ks ++ rest ∧ it + ks.length < 3 ∧
      HeaderStep start (pos + (encodeSkips ks).length) (it + ks.length) rest (.done r)
  | 0, _, _, _, _, h => by cases h
  | fuel + 1, pos, it, ys, hat, h => by
    rcases loop_ok_iff.mp h with hdone | ⟨⟨pos', it'⟩, hnext, hrest⟩
    · obtain ⟨hit, hstep⟩ := headerTurn_inv hat hdone
      exact ⟨[], ys, rfl, hit, hstep⟩
    · obtain ⟨hit, hstep⟩ := headerTurn_inv hat hnext
      cases hstep with
      | skip k zs =>
        obtain ⟨ks, rest, rfl, hlt, hend⟩ := loop_header_inv hat.skip hrest
        refine ⟨k :: ks, rest, ?_, ?_, ?_⟩
        · rw [encodeSkips_cons, List.append_assoc]
        · rw [List.length_cons]; omega
        · rw [encodeSkips_cons, List.length_append, List.length_cons, Nat.add_comm ks.length, ← Nat.add_assoc,
            ← Nat.add_assoc]
          exact hend

theorem parseFrameHeader_inv {r : Option FrameHeader × Nat} (hat : At data pos ys)
    (h : parseFrameHeader data pos = .ok r) :
    ∃ (ks : List Skippable) (rest : Bytes), ys = encodeSkips ks ++ rest ∧ ks.length ≤ 2 ∧
      HeaderStep pos (pos + (encodeSkips ks).length) ks.length rest (.done r) := by
  unfold parseFrameHeader at h
  obtain ⟨_, -, h⟩ := Run.bind_eq_ok.mp h
  obtain ⟨ks, rest, hys, hlt, hstep⟩ := loop_header_inv hat h
  rw [Nat.zero_add] at hlt hstep
  exact ⟨ks, rest, hys, Nat.le_of_lt_succ hlt, hstep⟩

end

/-! ## Frames -/

section
variable {data ys : Bytes} {s : Frames}

theorem blockTurn_inv {t : Turn Frames Frames} (hat : At data s.pos ys) (h : blockTurn data s = .ok t) :
    ∃ (last : Bool) (b : FrameBlock) (rest : Bytes), ys = b.encode last ++ rest ∧
      (last = false → s.blocks.length + 1 < maxBlocks) ∧
      s.totalLiterals + b.literals.length ≤ literalLimit data.length ∧
      t = if last then .done (s.push last b) else .next (s.push last b) := by
  unfold blockTurn at h
  obtain ⟨p, hp, h⟩ := Run.bind_eq_ok.mp h
  obtain ⟨b, rest, hys, hpeq⟩ := parseBlock_inv hat hp
  obtain ⟨_, htotal, h⟩ := Run.bind_eq_ok.mp h
  obtain ⟨_, hratio, h⟩ := Run.bind_eq_ok.mp h
  rw [failIf_eq_ok] at htotal hratio
  have hlits : p.block.literals = b.literals := by rw [hpeq]; rfl
  have hlimit : s.totalLiterals + b.literals.length ≤ literalLimit data.length := by
    rw [hlits] at htotal hratio
    unfold literalLimit
    omega
  generalize p.isLast = last at hys hpeq
  subst hpeq
  cases last with
  | true =>
    rw [if_pos rfl] at h
    cases h
    exact ⟨true, b, rest, hys, nofun, hlimit, rfl⟩
  | false =>
    rw [if_neg Bool.false_ne_true] at h
    obtain ⟨_, hmany, h⟩ := Run.bind_eq_ok.mp h
    rw [failIf_eq_ok, List.length_append, List.length_singleton] at hmany
    cases h
    exact ⟨false, b, rest, hys, fun _ => Nat.lt_of_not_le hmany, hlimit, rfl⟩

theorem blocks_inv {t : Frames} : ∀ {fuel : Nat} {s : Frames} {ys : Bytes}, At data s.pos ys →
    loop (blockTurn data) fuel s = .ok t →
    ∃ (init : List FrameBlock) (last : FrameBlock) (rest : Bytes), ys = Frame.encodeBlocks init last ++ rest ∧
      (init = [] ∨ s.blocks.length + init.length < maxBlocks) ∧
      s.totalLiterals + totalLiterals (init ++ [last]) ≤ literalLimit data.length ∧
      t = ⟨s.pos + (Frame.encodeBlocks init last).length, s.blocks ++ locate s.pos (init ++ [last]),
        s.totalLiterals + totalLiterals (init ++ [last]), s.frameCount⟩
  | 0, _, _, _, h => by cases h
  | fuel + 1, s, ys, hat, h => by
    rcases loop_ok_iff.mp h with hdone | ⟨s', hnext, hrest⟩
    · obtain ⟨last, b, rest, rfl, hn, ht, hturn⟩ := blockTurn_inv hat hdone
      cases last with
      | false => cases hturn
      | true =>
        cases hturn
        exact ⟨[], b, rest, rfl, .inl rfl, ht, rfl⟩
    · obtain ⟨last, b, rest, rfl, hn, -, hturn⟩ := blockTurn_inv hat hnext
      cases last with
      | true => cases hturn
      | false =>
        cases hturn
        obtain ⟨init, last, rest, rfl, hinit, ht, rfl⟩ := blocks_inv hat.skip hrest
        have hn := hn rfl
        refine ⟨b :: init, last, rest, ?_, .inr ?_, ?_, ?_⟩
        · rw [encodeBlocks_cons, List.append_assoc]
        · simp only [Frames.push, List.length_append, List.length_singleton] at hinit
          rcases hinit with rfl | hinit
          · exact hn
          · rw [List.length_cons]; omega
        · simp only [Frames.push, totalLiterals, List.cons_append, List.map_cons, List.sum_cons] at ht ⊢
          omega
        · simp only [Frames.push, encodeBlocks_cons, locate, totalLiterals, List.map_cons, List.length_append,
            List.cons_append, List.sum_cons, List.append_assoc, List.nil_append, Nat.add_assoc, length_block]

/-- What a turn takes when the walk goes on: a frame, and the skippable frames before it. -/
structure TakesFrame (data : Bytes) (s : Frames) (g : Segment) (s' : Frames) : Prop where
  skips_le : g.skips.length ≤ 2
  count_lt : s.frameCount < 1000
  init : g.frame.init = [] ∨ s.blocks.length + g.frame.init.length < maxBlocks
  literals_le : s.totalLiterals + totalLiterals g.frame.blocks ≤ literalLimit data.length
  next : s' = ⟨s.pos + g.encode.length,
    s.blocks ++ locate (s.pos + (encodeSkips g.skips).length + g.frame.toDescriptor.encode.length) g.frame.blocks,
    s.totalLiterals + totalLiterals g.frame.blocks, s.frameCount + 1⟩

/-- What the walk stops at: nothing, or skippable frames and then a tail. -/
structure StopsAt (s : Frames) (ks : List Skippable) (junk : Bytes) : Prop where
  skips_le : ks.length ≤ 2
  tail : Tail s.pos junk
  count_lt : encodeSkips ks ++ junk ≠ [] → s.frameCount < 1000

theorem checksum_inv {c : Bool} {t : Turn Frames (List CompressedBlock)} (hat : At data s.pos ys)
    (h : (if c then do
        failIf (s.pos + 4 > data.length)
          (.invalidData s.pos "truncated frame content checksum. Fix: use a complete Zstd stream")
        pure (.next { s with pos := s.pos + 4 })
      else pure (.next s)) = (.ok t : Run ZiftError _)) :
    ∃ checksum rest, ys = checksum ++ rest ∧ checksum.length = (if c then 4 else 0) ∧
      t = .next { s with pos := s.pos + checksum.length } := by
  have hl := hat.length
  cases c with
  | false =>
    cases h
    exact ⟨[], ys, rfl, rfl, rfl⟩
  | true =>
    rw [if_pos rfl] at h
    obtain ⟨_, hend, h⟩ := Run.bind_eq_ok.mp h
    rw [failIf_eq_ok] at hend
    cases h
    have hlen : (ys.take 4).length = 4 := by rw [List.length_take]; omega
    exact ⟨ys.take 4, ys.drop 4, (List.take_append_drop _ _).symm, by rw [hlen, if_pos rfl], by rw [hlen]⟩

theorem frameTurn_inv {t : Turn Frames (List CompressedBlock)} (hat : At data s.pos ys) (h : frameTurn data s = .ok t) :
    (∃ g rest s', ys = g.encode ++ rest ∧ TakesFrame data s g s' ∧ t = .next s') ∨
      (∃ ks junk, ys = encodeSkips ks ++ junk ∧ StopsAt s ks junk ∧ t = .done s.blocks) := by
  have hl := hat.length
  unfold frameTurn at h
  by_cases hmore : s.pos < data.length
  · rw [if_pos hmore] at h
    obtain ⟨_, hcount, h⟩ := Run.bind_eq_ok.mp h
    obtain ⟨r, hheader, h⟩ := Run.bind_eq_ok.mp h
    rw [failIf_eq_ok] at hcount
    obtain ⟨ks, rest, rfl, hks, hstep⟩ := parseFrameHeader_inv hat hheader
    cases hstep with
    | tail ht =>
      cases h
      exact .inr ⟨ks, rest, rfl, ⟨hks, ht, fun _ => by omega⟩, rfl⟩
    | frame d zs =>
      obtain ⟨s', hblocks, h⟩ := Run.bind_eq_ok.mp h
      obtain ⟨init, last, zs, rfl, hinit, ht, rfl⟩ := blocks_inv hat.skip.skip hblocks
      obtain ⟨checksum, rest, rfl, hclen, rfl⟩ := checksum_inv hat.skip.skip.skip h
      have hck : checksum.length = if d.desc &&& 0x04 ≠ 0 then 4 else 0 := by
        rw [hclen]
        by_cases hflag : d.desc &&& 0x04 ≠ 0
        · rw [if_pos hflag, if_pos (decide_eq_true hflag)]
        · rw [if_neg hflag, if_neg (by simpa using hflag)]
      refine .inl ⟨⟨ks, ⟨d, init, last, checksum, hck⟩⟩, rest, _, ?_, ⟨hks, by omega, hinit, ht, rfl⟩, ?_⟩
      · simp only [Segment.encode, Frame.encode, List.append_assoc]
      · simp only [Segment.encode, Frame.encode, Frame.blocks, List.length_append, Nat.add_assoc]
  · rw [if_neg hmore] at h
    cases h
    have hnil : ys = [] := List.length_eq_zero_iff.mp (by omega)
    exact .inr ⟨[], [], hnil, ⟨Nat.zero_le _, .inl rfl, fun hne => absurd rfl hne⟩, rfl⟩

end

/-! ## Streams -/

/-- A run from a state: frames within the limits, and then what the walk stops at. -/
structure Accepts (data : Bytes) (s : Frames) (gs : List Segment) (ks : List Skippable) (junk : Bytes) : Prop where
  skips_le : ∀ g ∈ gs, g.skips.length ≤ 2
  frames_le : s.frameCount + gs.length ≤ 1000
  blocks : BlocksFit s.blocks.length (gs.map (·.frame))
  literals_le : s.totalLiterals + sumLiterals (gs.map (·.frame)) ≤ literalLimit data.length
  tail_skips_le : ks.length ≤ 2
  tail : Tail (s.pos + (encodeSegments gs).length) junk
  count_lt : encodeSkips ks ++ junk ≠ [] → s.frameCount + gs.length < 1000

section
variable {data ys : Bytes} {s : Frames} {bs : List CompressedBlock}

theorem frames_inv : ∀ {fuel : Nat} {s : Frames} {ys : Bytes}, At data s.pos ys → s.frameCount ≤ 1000 →
    s.totalLiterals ≤ literalLimit data.length → loop (frameTurn data) fuel s = .ok bs →
    ∃ gs ks junk, ys = encodeSegments gs ++ (encodeSkips ks ++ junk) ∧ Accepts data s gs ks junk ∧
      bs = s.blocks ++ locateSegments s.pos gs
  | 0, _, _, _, _, _, h => by cases h
  | fuel + 1, s, ys, hat, hcount, htotal, h => by
    rcases loop_ok_iff.mp h with hdone | ⟨s', hnext, hrest⟩
    · rcases frameTurn_inv hat hdone with ⟨_, _, _, _, _, ht⟩ | ⟨ks, junk, rfl, hstop, ht⟩
      · cases ht
      · cases ht
        refine ⟨[], ks, junk, rfl, ?_, (List.append_nil _).symm⟩
        exact ⟨nofun, hcount, trivial, htotal, hstop.skips_le, hstop.tail, hstop.count_lt⟩
    · rcases frameTurn_inv hat hnext with ⟨g, rest, t, rfl, htake, ht⟩ | ⟨_, _, _, _, ht⟩
      · cases ht
        obtain ⟨hskips, hlt, hinit, hlits, rfl⟩ := htake
        obtain ⟨gs, ks, junk, rfl, ha, rfl⟩ := frames_inv hat.skip (Nat.succ_le_of_lt hlt) hlits hrest
        have hblocks := ha.blocks
        have hframes := ha.frames_le
        have hsum := ha.literals_le
        have htail := ha.tail
        have hend := ha.count_lt
        rw [List.length_append, length_locate] at hblocks
        dsimp only at hframes hsum htail hend
        refine ⟨g :: gs, ks, junk, ?_, ⟨?_, ?_, ⟨hinit, hblocks⟩, ?_, ha.tail_skips_le, ?_, ?_⟩, ?_⟩
        · rw [encodeSegments_cons, List.append_assoc]
        · exact List.forall_mem_cons.mpr ⟨hskips, ha.skips_le⟩
        · rw [List.length_cons]; omega
        · rw [List.map_cons, sumLiterals_cons]; omega
        · rwa [encodeSegments_cons, List.length_append, ← Nat.add_assoc]
        · rw [List.length_cons]
          intro hne
          have := hend hne
          omega
        · rw [locateSegments, List.append_assoc]
      · cases ht

theorem frameTurn_tail {ks : List Skippable} {junk : Bytes} (hat : At data s.pos (encodeSkips ks ++ junk))
    (hks : ks.length ≤ 2) (htail : Tail s.pos junk) (hcount : encodeSkips ks ++ junk ≠ [] → s.frameCount < 1000)
    (hlen : 4 ≤ data.length) : frameTurn data s = .ok (.done s.blocks) := by
  have hl := hat.length
  unfold frameTurn
  by_cases hmore : s.pos < data.length
  · have hlt : s.frameCount < 1000 := by
      refine hcount fun h0 => ?_
      rw [h0, List.length_nil] at hl
      omega
    have hheader : parseFrameHeader data s.pos = .ok (none, s.pos + (encodeSkips ks).length) := by
      unfold parseFrameHeader
      rw [failIf_false _ (by omega), Run.ok_bind, loop_scan hks hat (headerTurn_tail (by omega) hat.skip htail)]
    rw [if_pos hmore]
    dsimp only
    rw [failIf_false _ (by omega), Run.ok_bind, hheader]
    rfl
  · rw [if_neg hmore]
    rfl

end

/-! ## Acceptance -/

namespace Stream

/-- The limits of the parser that are not about skippable frames. -/
structure Limits (s : Stream) : Prop where
  frames_le : s.segments.length ≤ 1000
  count_lt : encodeSkips s.trail ++ s.junk ≠ [] → s.segments.length < 1000
  blocks : BlocksFit 0 s.frames
  literals_le : sumLiterals s.frames ≤ literalLimit s.encode.length

structure Fits (s : Stream) : Prop extends Limits s where
  skips_le : ∀ g ∈ s.segments, g.skips.length ≤ 2
  trail_le : s.trail.length ≤ 2
  junk_after : s.junk ≠ [] → s.segments ≠ []
  nonempty : s.encode ≠ []

variable {s : Stream}

theorem length_skips_of_ne {ks : List Skippable} (h : ks ≠ []) : 8 ≤ (encodeSkips ks).length := by
  obtain ⟨k, ks, rfl⟩ := List.exists_cons_of_ne_nil h
  rw [encodeSkips_cons, List.length_append, k.length_encode]
  omega

theorem length_frame_ge (f : Frame) : 4 ≤ f.encode.length := by
  unfold Frame.encode Descriptor.encode
  rw [List.length_append, List.length_append, show zstdMagic.length = 4 from rfl]
  omega

theorem Fits.no_segments (h : s.Fits) (hgs : s.segments = []) : s.junk = [] ∧ s.trail ≠ [] := by
  have hjunk : s.junk = [] := by
    by_contra hne
    exact h.junk_after hne hgs
  refine ⟨hjunk, fun htrail => h.nonempty ?_⟩
  unfold Stream.encode
  rw [hgs, htrail, hjunk]
  rfl

theorem Fits.length_ge (h : s.Fits) : 4 ≤ s.encode.length := by
  unfold Stream.encode
  rw [List.length_append, List.length_append]
  rcases hgs : s.segments with - | ⟨g, gs⟩
  · have := length_skips_of_ne (h.no_segments hgs).2
    omega
  · have := length_frame_ge g.frame
    rw [encodeSegments_cons, List.length_append, Segment.encode, List.length_append]
    omega

theorem Fits.tail (h : s.Fits) : Tail (encodeSegments s.segments).length s.junk := by
  by_cases hjunk : s.junk = []
  · exact .inl hjunk
  · have hpos := List.length_pos_of_ne_nil (h.junk_after hjunk)
    have := length_segments_le s.segments
    exact .inr ⟨by omega, s.junk_starts⟩

theorem Fits.extracts (h : s.Fits) : extractLiterals s.encode = .ok s.blocks := by
  have hlen := length_segments_le s.segments
  have hat : At s.encode 0 (encodeSegments s.segments ++ (encodeSkips s.trail ++ s.junk)) := At.start _
  have hl := hat.length
  rw [List.length_append] at hl
  have hfuel : s.encode.length + 1 = s.encode.length - s.segments.length + 1 + s.segments.length := by omega
  have hframes := h.frames_le
  have hlits := h.literals_le
  have htail := h.tail
  have hcount := h.count_lt
  rw [← Nat.zero_add (encodeSegments s.segments).length] at htail
  rw [← Nat.zero_add s.segments.length] at hframes hcount
  rw [← Nat.zero_add (sumLiterals s.frames)] at hlits
  have hrun := segments_ok (s := ⟨0, [], 0, 0⟩) s.segments (s.encode.length - s.segments.length + 1) h.skips_le hframes
    h.blocks hlits hat
  unfold extractLiterals
  rw [if_neg h.nonempty, hfuel, hrun, loop_done (frameTurn_tail hat.skip h.trail_le htail hcount h.length_ge)]
  rfl

end Stream

/-- **Acceptance.** The walk accepts the streams within its limits, with their blocks. -/
theorem extractLiterals_eq_ok_iff {data : Bytes} {bs : List CompressedBlock} :
    extractLiterals data = .ok bs ↔ ∃ s : Stream, s.Fits ∧ data = s.encode ∧ bs = s.blocks := by
  constructor
  · intro h
    unfold extractLiterals at h
    by_cases hnil : data = []
    · rw [if_pos hnil] at h
      cases h
    rw [if_neg hnil] at h
    obtain ⟨gs, ks, junk, hdata, ha, rfl⟩ := frames_inv (At.start data) (Nat.zero_le _) (Nat.zero_le _) h
    have htail := ha.tail
    have hframes := ha.frames_le
    have hcount := ha.count_lt
    have hlits := ha.literals_le
    dsimp only at htail hframes hcount hlits
    rw [Nat.zero_add] at htail hframes hcount hlits
    have hstarts : startsFrame junk = false := by
      rcases htail with rfl | ⟨-, hstarts⟩
      · rfl
      · exact hstarts
    have hafter : junk ≠ [] → gs ≠ [] := by
      rintro hne rfl
      obtain ⟨hpos, -⟩ := htail.resolve_left hne
      exact Nat.lt_irrefl 0 hpos
    refine ⟨⟨gs, ks, junk, hstarts⟩, ?_, hdata, rfl⟩
    have hencode : data = Stream.encode ⟨gs, ks, junk, hstarts⟩ := hdata
    exact ⟨⟨hframes, hcount, ha.blocks, by rw [← hencode]; exact hlits⟩, ha.skips_le, ha.tail_skips_le, hafter,
      by rw [← hencode]; exact hnil⟩
  · rintro ⟨s, hs, rfl, rfl⟩
    exact hs.extracts

end Ziftsieve.Zstd
