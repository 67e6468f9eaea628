import Ziftsieve.DeflateSound

/-!
# Reading gzip members back

A header is skipped whatever its optional fields are; a member's stream is read
where its header ends; its trailer is compared with the literals of its own
blocks. A list of members gives the blocks of every member, or an error when a
member without a match carries another CRC.
-/

namespace Ziftsieve.Gzip

/-! ## The header -/

section
variable {data : Bytes} {p : Nat} {rest : List Bool}

variable (hp : p % 8 = 0)
include hp

theorem readByte_yields {b : UInt8} {ys : Bytes} (h : At (bytesBits data) p (bytesBits (b :: ys) ++ rest)) :
    Yields (Synced data p) readU8 b.toNat (Synced data (p + 8)) :=
  readU8_yields hp b.toNat_lt h.byte

theorem skipPrefix_yields {xs ys : Bytes} (h : At (bytesBits data) p (bytesBits (xs ++ ys) ++ rest)) :
    Yields (Synced data p) (skipBytes xs.length) () (Synced data (p + 8 * xs.length)) := by
  rw [bytesBits_append, List.append_assoc] at h
  exact skipBytes_yields hp h

theorem expectMagic_yields {b : UInt8} {ys : Bytes} (h : At (bytesBits data) p (bytesBits (b :: ys) ++ rest)) :
    Yields (Synced data p) (expectMagic b.toNat) () (Synced data (p + 8)) := by
  unfold expectMagic
  refine (peekU8_yields hp b.toNat_lt h.byte).bind ?_
  rw [if_neg (by simp)]
  exact (readByte_yields hp h).bind Yields.pure

omit hp in
theorem skipLoop_yields : ∀ (xs ys : Bytes) (count n p : Nat), p % 8 = 0 → 0 ∉ xs →
    count + xs.length ≤ maxHeaderFieldLen →
    xs.length ≤ n → At (bytesBits data) p (bytesBits (xs ++ 0 :: ys) ++ rest) →
    Yields (Synced data p) (loop skipTurn (n + 1) count) () (Synced data (p + 8 * xs.length + 8))
  | [], ys, count, n, p, hp, _, hc, _, h => by
    rw [List.length_nil] at hc
    apply Yields.loop_done
    unfold skipTurn
    rw [if_neg (by omega)]
    exact (readByte_yields hp h).bind Yields.pure
  | x :: xs, ys, count, n, p, hp, h0, hc, hn, h => by
    rw [List.length_cons] at hc hn
    obtain ⟨n, rfl⟩ : ∃ m, n = m + 1 := ⟨n - 1, by omega⟩
    have hx : x.toNat ≠ 0 := fun he => h0 (List.mem_cons.mpr (.inl (UInt8.toNat_inj.mp he.symm)))
    have hturn : Yields (Synced data p) (skipTurn count) (.next (count + 1)) (Synced data (p + 8)) := by
      unfold skipTurn
      rw [if_neg (by omega)]
      refine (readByte_yields hp h).bind ?_
      rw [if_neg hx]
      exact Yields.pure
    apply hturn.loop_next
    have hrun := skipLoop_yields xs ys (count + 1) n (p + 8) (by omega)
      (fun hm => h0 (List.mem_cons_of_mem _ hm)) (by omega) (by omega) h.afterByte
    rw [List.length_cons, show p + 8 * (xs.length + 1) + 8 = p + 8 + 8 * xs.length + 8 by omega]
    exact hrun

theorem skipZeroTerminated_yields {xs ys : Bytes} (hx : xs.length ≤ maxHeaderFieldLen ∧ 0 ∉ xs)
    (h : At (bytesBits data) p (bytesBits ((xs ++ [0]) ++ ys) ++ rest)) :
    Yields (Synced data p) skipZeroTerminated () (Synced data (p + 8 * (xs ++ [0]).length)) := by
  rw [List.append_assoc] at h
  rw [List.length_append, List.length_singleton, Nat.mul_add, ← Nat.add_assoc]
  exact skipLoop_yields xs ys 0 (maxHeaderFieldLen + 1) p hp hx.2 (by omega) (by omega) h

theorem skipExtra_yields {xs ys : Bytes} (hx : xs.length < 2 ^ 16)
    (h : At (bytesBits data) p (bytesBits ((toLe 2 xs.length ++ xs) ++ ys) ++ rest)) :
    Yields (Synced data p) (do let xlen ← readU16Le; skipBytes xlen) ()
      (Synced data (p + 8 * (toLe 2 xs.length ++ xs).length)) := by
  rw [List.append_assoc] at h
  have h2 := h.afterBytes
  rw [length_toLe] at h2
  rw [bytesBits_append, List.append_assoc, bytesBits_toLe] at h
  rw [List.length_append, length_toLe, Nat.mul_add, ← Nat.add_assoc]
  exact (readU16Le_yields hp hx h).bind (skipPrefix_yields (by omega) h2)

omit hp in
theorem optional_yields {β : Type} {c : Prop} [Decidable c] {m : Read Unit} {x : Option β}
    {enc : β → Bytes} {ys : Bytes}
    (hc : c ↔ x.isSome = true)
    (hm : ∀ v ∈ x, At (bytesBits data) p (bytesBits (enc v ++ ys) ++ rest) →
      Yields (Synced data p) m () (Synced data (p + 8 * (enc v).length)))
    (h : At (bytesBits data) p (bytesBits (x.elim [] enc ++ ys) ++ rest)) :
    Yields (Synced data p) (if c then m else pure ()) () (Synced data (p + 8 * (x.elim [] enc).length)) := by
  cases x with
  | none =>
    rw [if_neg (by rw [hc]; exact Bool.false_ne_true)]
    exact Yields.pure
  | some v =>
    rw [if_pos (hc.mpr rfl)]
    exact hm v rfl h

omit hp in
theorem Header.flags_spec (h : Header) : h.flags < 32 ∧ h.flags &&& 0xE0 = 0 ∧
    (h.flags &&& 0x04 ≠ 0 ↔ h.extra.isSome = true) ∧ (h.flags &&& 0x08 ≠ 0 ↔ h.name.isSome = true) ∧
    (h.flags &&& 0x10 ≠ 0 ↔ h.comment.isSome = true) ∧ (h.flags &&& 0x02 ≠ 0 ↔ h.headerCrc.isSome = true) := by
  unfold Header.flags
  generalize h.text = a, h.headerCrc.isSome = b, h.extra.isSome = c, h.name.isSome = d, h.comment.isSome = e
  revert a b c d e
  decide

theorem parseGzipExtraFields_yields (hd : Header)
    (h : At (bytesBits data) p (bytesBits (hd.extraBytes ++ (Header.textBytes hd.name ++
      (Header.textBytes hd.comment ++ hd.crcBytes))) ++ rest)) :
    Yields (Synced data p) (parseGzipExtraFields hd.flags) ()
      (Synced data (p + 8 * (hd.extraBytes ++ (Header.textBytes hd.name ++
        (Header.textBytes hd.comment ++ hd.crcBytes))).length)) := by
  obtain ⟨-, -, h4, h8, h16, h2⟩ := hd.flags_spec
  have hname := h.afterBytes
  have hcomment := hname.afterBytes
  have hcrc := hcomment.afterBytes
  rw [← List.append_nil hd.crcBytes] at hcrc
  unfold parseGzipExtraFields
  simp only [List.length_append, Nat.mul_add, ← Nat.add_assoc]
  refine (optional_yields h4 (fun v hv hat => skipExtra_yields hp (hd.extra_lt v hv) hat) h).bind ?_
  refine (optional_yields h8 (fun v hv hat => skipZeroTerminated_yields (by omega) (hd.name_le v hv) hat) hname).bind ?_
  refine (optional_yields h16
    (fun v hv hat => skipZeroTerminated_yields (by omega) (hd.comment_le v hv) hat) hcomment).bind ?_
  refine optional_yields h2 (fun v hv hat => ?_) hcrc
  have hskip := skipPrefix_yields (by omega) hat
  rw [length_toLe] at hskip ⊢
  exact hskip

theorem parseGzipHeader_yields (hd : Header) (h : At (bytesBits data) p (bytesBits hd.bytes ++ rest)) :
    Yields (Synced data p) parseGzipHeader () (Synced data (p + 8 * hd.bytes.length)) := by
  obtain ⟨hlt, h224, -⟩ := hd.flags_spec
  have hl := h.length
  rw [length_bytesBits, List.length_append, length_bytesBits] at hl
  have hlen : hd.bytes.length = 10 + (hd.extraBytes ++ (Header.textBytes hd.name ++
      (Header.textBytes hd.comment ++ hd.crcBytes))).length := by
    simp only [Header.bytes, List.length_cons, List.length_append, length_toLe]; omega
  have hflags : (UInt8.ofNat hd.flags).toNat = hd.flags := by
    rw [UInt8.toNat_ofNat']; omega
  unfold Header.bytes at h
  have a1 := h.afterByte
  have a2 := a1.afterByte
  have a3 := a2.afterByte
  have a4 := a3.afterByte
  have a5 := a4.afterBytes
  have a6 := a5.afterByte
  have a7 := a6.afterByte
  unfold parseGzipHeader
  refine yields_withReader fun r hr => ?_
  have hrem : r.remainingBytes = data.length - p / 8 := Synced.remainingBytes (by rwa [show 8 * (p / 8) = p by omega])
  rw [if_neg (by rw [hr.bitPos_eq]; omega), if_neg (by omega)]
  refine (expectMagic_yields hp h).bind ((expectMagic_yields (by omega) a1).bind ?_)
  refine (readByte_yields (by omega) a2).bind ?_
  rw [if_neg (by decide)]
  refine (readByte_yields (by omega) a3).bind ?_
  rw [hflags, if_neg (by omega)]
  have hskip := skipPrefix_yields (by omega) a4
  rw [length_toLe] at hskip a5 a6 a7
  refine hskip.bind ((readByte_yields (by omega) a5).bind ((readByte_yields (by omega) a6).bind ?_))
  rw [hlen, show ∀ k, p + 8 * (10 + k) = p + 8 + 8 + 8 + 8 + 8 * 4 + 8 + 8 + 8 * k by omega]
  exact parseGzipExtraFields_yields (by omega) hd a7

end

/-! ## Members -/

def Member.located (i : Nat) (m : Member) : List CompressedBlock :=
  locateStream (8 * (i + m.header.bytes.length)) m.blocks

/-- `flate2` decodes the member, within the limit. -/
def Inflates (ext : External) (m : Member) : Prop :=
  (ext.gzDecoder m.encode).2 = none ∧ ((ext.gzDecoder m.encode).1.map List.length).sum ≤ maxTotalLiterals

/-- The trailer of a member without a match holds the CRC of what it decompresses to. -/
def Checked (ext : External) (m : Member) : Prop := m.hasMatch = false → m.crc.toNat = ext.crc32 m.decompress

theorem located_literals (i : Nat) (m : Member) : (m.located i).map (·.literals) = m.blocks.map DeflateBlock.literals :=
  locateStream_literals _ _

theorem drainDecoder_ok : ∀ {reads : List Bytes} {n : Nat}, n + (reads.map List.length).sum ≤ maxTotalLiterals →
    drainDecoder reads none n = .ok ()
  | [], _, _ => rfl
  | c :: cs, n, h => by
    rw [List.map_cons, List.sum_cons] at h
    unfold drainDecoder
    by_cases h0 : c.length = 0
    · rw [if_pos h0]; rfl
    · rw [if_neg h0]
      simp only
      rw [failIf_false _ (by omega), Run.ok_bind]
      exact drainDecoder_ok (by omega)

section
variable {ext : External} {data : Bytes} {rest : List Bool} {m : Member} {i total : Nat} {blocks : List CompressedBlock}

theorem readMember_yields (hfit : ∀ b ∈ m.blocks, BlockFits b)
    (hblocks : blocks.length + m.blocks.length ≤ maxDeflateBlocksPerMember)
    (htotal : total + literalCount m.blocks ≤ maxTotalLiterals) (h : At (bytesBits data) (8 * i) (m.bits ++ rest)) :
    Yields (Synced data (8 * i)) (readMember blocks total)
      (i, ⟨blocks ++ m.located i, total + literalCount m.blocks, m.hasMatch⟩, m.crc.toNat)
      (Synced data (8 * (i + m.encode.length))) := by
  have hlen := m.length_bits
  have hstream : m.stream = streamBits (8 * (i + m.header.bytes.length)) m.blocks :=
    (streamBits_bytes (i + m.header.bytes.length) 0 m.blocks).symm
  have hpad : padTo8 (8 * (i + m.header.bytes.length) + m.stream.length) = padTo8 m.stream.length := padTo8_bytes _ _
  have hend := padTo8_add (8 * (i + m.header.bytes.length) + m.stream.length)
  simp only [Member.bits, List.append_assoc, List.length_append, length_bytesBits, length_bitsLe] at h hlen
  have h1 := h.skip
  rw [length_bytesBits, ← Nat.mul_add, hstream] at h1
  have h2 := h1.skip
  rw [← hstream, ← hpad] at h2
  have h3 := h2.skip
  rw [length_bitsLe] at h3
  have h4 := h3.skip
  rw [length_bitsLe] at h4
  have halign := alignToByte_yields (length_bitsLe _ _) h2
  rw [length_bitsLe] at halign
  unfold readMember
  refine yields_withReader fun r hr => ?_
  rw [hr.bytePos_eq, Nat.mul_div_cancel_left i (by decide)]
  refine (parseGzipHeader_yields (by omega) m.header h).bind ?_
  rw [← Nat.mul_add]
  refine (parseDeflateStream_yields m.blocks_ne hfit hblocks htotal h1).bind ?_
  rw [← hstream]
  refine halign.bind ((readU32Le_yields hend m.crc.toNat_lt h3).bind ?_)
  refine (readU32Le_yields (by omega) m.isize.toNat_lt h4).bind ?_
  rw [show 8 * (i + m.encode.length) = 8 * (i + m.header.bytes.length) + m.stream.length +
    padTo8 (8 * (i + m.header.bytes.length) + m.stream.length) + 32 + 32 by omega]
  exact Yields.pure

theorem own_literals (h : m.hasMatch = false) :
    ((blocks ++ m.located i).drop blocks.length).flatMap (·.literals) = m.decompress := by
  rw [List.drop_left, m.decompress_of_no_match h, List.flatMap_def, located_literals, ← List.flatMap_def]

theorem checkMember_yields (hflate : m.hasMatch = true → Inflates ext m) (hcrc : Checked ext m) {zs : Bytes}
    (h : At data i (m.encode ++ zs)) :
    Yields (Synced data (8 * (i + m.encode.length)))
      (checkMember ext blocks.length i ⟨blocks ++ m.located i, total, m.hasMatch⟩ m.crc.toNat) ()
      (Synced data (8 * (i + m.encode.length))) := by
  unfold checkMember
  refine yields_withReader fun r hr => ?_
  cases hm : m.hasMatch with
  | true =>
    obtain ⟨hnone, hsum⟩ := hflate hm
    have hslice : (slice r.data i r.bytePos : Run ZiftError Bytes) = .ok m.encode := by
      rw [hr.data_eq, hr.bytePos_eq, Nat.mul_div_cancel_left _ (by decide)]
      exact h.slice rfl
    refine (yields_lift hslice).bind ?_
    simp only [hnone]
    exact yields_lift (drainDecoder_ok (by rwa [Nat.zero_add]))
  | false =>
    rw [own_literals hm]
    exact Yields.failIf _ (not_not_intro (hcrc hm))

theorem checkMember_rejects (hm : m.hasMatch = false) (hcrc : m.crc.toNat ≠ ext.crc32 m.decompress) :
    Rejects (Synced data (8 * (i + m.encode.length)))
      (checkMember ext blocks.length i ⟨blocks ++ m.located i, total, m.hasMatch⟩ m.crc.toNat) := by
  unfold checkMember
  refine rejects_withReader fun r hr => ?_
  rw [own_literals hm, hm]
  exact Rejects.failIf _ hcrc

end

section
variable {ext : External} {data : Bytes} {rest : List Bool} {m : Member} {i total : Nat} {blocks : List CompressedBlock}
variable (hfit : ∀ b ∈ m.blocks, BlockFits b) (hblocks : blocks.length + m.blocks.length ≤ maxDeflateBlocksPerMember)
variable (htotal : total + literalCount m.blocks ≤ maxTotalLiterals)
variable (h : At (bytesBits data) (8 * i) (m.bits ++ rest))
include hfit hblocks htotal h

theorem parseGzipMember_yields (hflate : m.hasMatch = true → Inflates ext m) (hcrc : Checked ext m) :
    Yields (Synced data (8 * i)) (parseGzipMember ext blocks total)
      (blocks ++ m.located i, total + literalCount m.blocks)
      (Synced data (8 * (i + m.encode.length))) := by
  obtain ⟨zs, hat⟩ := (m.bytesBits_encode ▸ h : At (bytesBits data) (8 * i) (bytesBits m.encode ++ rest)).bytes
  exact (readMember_yields hfit hblocks htotal h).bind ((checkMember_yields hflate hcrc hat).bind Yields.pure)

theorem parseGzipMember_rejects (hcrc : ¬ Checked ext m) :
    Rejects (Synced data (8 * i)) (parseGzipMember ext blocks total) := by
  unfold Checked at hcrc
  push Not at hcrc
  exact (readMember_yields hfit hblocks htotal h).bind_rejects (checkMember_rejects hcrc.1 hcrc.2).bind

end

/-! ## Streams of members -/

def locateMembers : Nat → List Member → List CompressedBlock
  | _, [] => []
  | i, m :: ms => m.located i ++ locateMembers (i + m.encode.length) ms

theorem locateMembers_literals : ∀ (i : Nat) (ms : List Member),
    (locateMembers i ms).map (·.literals) = blockLiterals ms
  | _, [] => rfl
  | i, m :: ms => by
    rw [locateMembers, List.map_append, located_literals, locateMembers_literals, blockLiterals, blockLiterals,
      List.flatMap_cons, List.map_append]

/-- What a turn over the members needs of those that are left. -/
structure Remaining (ext : External) (s : Members) (ms : List Member) : Prop where
  members_le : s.members + ms.length ≤ 1023
  blocks_le : s.blocks.length + (ms.flatMap (·.blocks)).length ≤ maxDeflateBlocksPerMember
  total_le : s.totalLiterals + literalCount (ms.flatMap (·.blocks)) ≤ maxTotalLiterals
  fits : ∀ m ∈ ms, ∀ b ∈ m.blocks, BlockFits b
  inflates : ∀ m ∈ ms, m.hasMatch = true → Inflates ext m

def Members.push (s : Members) (i : Nat) (m : Member) : Members :=
  ⟨s.blocks ++ m.located i, s.totalLiterals + literalCount m.blocks, s.members + 1⟩

theorem Member.length_located (i : Nat) (m : Member) : (m.located i).length = m.blocks.length := by
  have h := congrArg List.length (located_literals i m)
  rwa [List.length_map, List.length_map] at h

theorem literalCount_append (as bs : List DeflateBlock) :
    literalCount (as ++ bs) = literalCount as + literalCount bs := by
  unfold literalCount; rw [List.map_append, List.sum_append]

section
variable {ext : External} {data : Bytes} {s : Members} {m : Member} {ms : List Member} {i : Nat}

theorem Remaining.tail (h : Remaining ext s (m :: ms)) : Remaining ext (s.push i m) ms := by
  have hm := h.members_le
  have hb := h.blocks_le
  have ht := h.total_le
  rw [List.length_cons] at hm
  rw [List.flatMap_cons, List.length_append] at hb
  rw [List.flatMap_cons, literalCount_append] at ht
  refine ⟨?_, ?_, ?_, fun x hx => h.fits x (List.mem_cons_of_mem _ hx),
    fun x hx => h.inflates x (List.mem_cons_of_mem _ hx)⟩
  · simp only [Members.push]; omega
  · simp only [Members.push, List.length_append, Member.length_located]; omega
  · simp only [Members.push]; omega

theorem remaining_pos {rest : List Bool} {r : BitReader} (h : At (bytesBits data) (8 * i) (m.bits ++ rest))
    (hr : Synced data (8 * i) r) : r.remainingBytes > 0 := by
  have hl := h.length
  have hm : m.bits.length = 8 * m.header.bytes.length + (m.stream.length + padTo8 m.stream.length + 64) := by
    simp only [Member.bits, List.length_append, length_bytesBits, length_bitsLe]; omega
  rw [length_bytesBits, List.length_append] at hl
  rw [hr.remainingBytes]; omega

theorem memberTurn_next (hr : Remaining ext s (m :: ms)) (hcrc : Checked ext m) {rest : List Bool}
    (h : At (bytesBits data) (8 * i) (m.bits ++ rest)) :
    Yields (Synced data (8 * i)) (memberTurn ext s) (.next (s.push i m)) (Synced data (8 * (i + m.encode.length))) := by
  have hm := hr.members_le
  have hb := hr.blocks_le
  have ht := hr.total_le
  rw [List.length_cons] at hm
  rw [List.flatMap_cons, List.length_append] at hb
  rw [List.flatMap_cons, literalCount_append] at ht
  unfold memberTurn
  refine yields_withReader fun r hs => ?_
  rw [if_pos (remaining_pos h hs)]
  refine (parseGzipMember_yields (hr.fits m List.mem_cons_self) (by omega) (by omega) h
    (hr.inflates m List.mem_cons_self) hcrc).bind ?_
  simp only
  rw [if_neg (by omega)]
  exact Yields.pure

theorem memberTurn_rejects (hr : Remaining ext s (m :: ms)) (hcrc : ¬ Checked ext m) {rest : List Bool}
    (h : At (bytesBits data) (8 * i) (m.bits ++ rest)) : Rejects (Synced data (8 * i)) (memberTurn ext s) := by
  have hb := hr.blocks_le
  have ht := hr.total_le
  rw [List.flatMap_cons, List.length_append] at hb
  rw [List.flatMap_cons, literalCount_append] at ht
  unfold memberTurn
  refine rejects_withReader fun r hs => ?_
  rw [if_pos (remaining_pos h hs)]
  exact (parseGzipMember_rejects (hr.fits m List.mem_cons_self) (by omega) (by omega) h hcrc).bind

theorem memberTurn_done (h : i = data.length) :
    Yields (Synced data (8 * i)) (memberTurn ext s) (.done s.blocks) (Synced data (8 * i)) := by
  unfold memberTurn
  refine yields_withReader fun r hs => ?_
  rw [hs.remainingBytes, if_neg (by omega)]
  exact Yields.pure

end

theorem memberLoop_yields {ext : External} {data : Bytes} : ∀ {ms : List Member} {s : Members} {n i : Nat},
    Remaining ext s ms → (∀ m ∈ ms, Checked ext m) → ms.length ≤ n →
    At (bytesBits data) (8 * i) (ms.flatMap Member.bits) →
    Yields (Synced data (8 * i)) (loop (memberTurn ext) (n + 1) s) (s.blocks ++ locateMembers i ms)
      (Synced data (8 * data.length))
  | [], s, n, i, _, _, _, h => by
    have hend := h.eq_end
    rw [length_bytesBits] at hend
    have hi : i = data.length := by omega
    rw [locateMembers, List.append_nil]
    apply Yields.loop_done
    rw [← hi]
    exact memberTurn_done hi
  | m :: ms, s, n, i, hr, hcrc, hn, h => by
    rw [List.length_cons] at hn
    obtain ⟨n, rfl⟩ : ∃ k, n = k + 1 := ⟨n - 1, by omega⟩
    have hnext := h.skip
    rw [m.length_bits, ← Nat.mul_add] at hnext
    refine (memberTurn_next hr (hcrc m List.mem_cons_self) h).loop_next ?_
    have hrun := memberLoop_yields (n := n) (hr.tail (i := i)) (fun x hx => hcrc x (List.mem_cons_of_mem _ hx))
      (by omega) hnext
    simp only [Members.push, List.append_assoc] at hrun
    exact hrun

theorem memberLoop_rejects {ext : External} {data : Bytes} : ∀ {ms : List Member} {s : Members} {n i : Nat},
    Remaining ext s ms → (∃ m ∈ ms, ¬ Checked ext m) → ms.length ≤ n →
    At (bytesBits data) (8 * i) (ms.flatMap Member.bits) →
    Rejects (Synced data (8 * i)) (loop (memberTurn ext) (n + 1) s)
  | [], _, _, _, _, hbad, _, _ => by
    obtain ⟨m, hm, -⟩ := hbad
    cases hm
  | m :: ms, s, n, i, hr, hbad, hn, h => by
    rw [List.length_cons] at hn
    obtain ⟨n, rfl⟩ : ∃ k, n = k + 1 := ⟨n - 1, by omega⟩
    by_cases hcrc : Checked ext m
    · have hnext := h.skip
      rw [m.length_bits, ← Nat.mul_add] at hnext
      refine (memberTurn_next hr hcrc h).loop_next_rejects ?_
      refine memberLoop_rejects hr.tail ?_ (by omega) hnext
      obtain ⟨x, hx, hbad⟩ := hbad
      rcases List.mem_cons.mp hx with rfl | hx
      · exact absurd hcrc hbad
      · exact ⟨x, hx, hbad⟩
    · exact (memberTurn_rejects hr hcrc h).loop

structure MembersFit (ms : List Member) : Prop where
  members_le : ms.length ≤ 1023
  blocks_lt : (ms.flatMap (·.blocks)).length < maxDeflateBlocksPerMember
  total_le : literalCount (ms.flatMap (·.blocks)) ≤ maxTotalLiterals
  fits : ∀ m ∈ ms, ∀ b ∈ m.blocks, BlockFits b

/-- **A stream of members is read back to the literals of its blocks**, and
only if every member without a match carries the CRC of its data. -/
theorem extractLiterals_members (ext : External) (ms : List Member) (hne : ms ≠ []) (hfit : MembersFit ms)
    (hflate : ∀ m ∈ ms, m.hasMatch = true → Inflates ext m) :
    ((∀ m ∈ ms, Checked ext m) →
      ∃ blocks, extractLiterals ext (encodeMembers ms) = .ok blocks ∧ blocks.map (·.literals) = blockLiterals ms) ∧
    ((∃ m ∈ ms, ¬ Checked ext m) → ∃ e, extractLiterals ext (encodeMembers ms) = .error (.err e)) := by
  have hstart : Synced (encodeMembers ms) (8 * 0) (BitReader.new (encodeMembers ms) 0) := Synced.new (Nat.zero_le _)
  have hat : At (bytesBits (encodeMembers ms)) (8 * 0) (ms.flatMap Member.bits) := by
    rw [← bytesBits_encodeMembers]; exact At.start _
  have hr : Remaining ext ⟨[], 0, 0⟩ ms := by
    have hb := hfit.blocks_lt
    have ht := hfit.total_le
    have hm := hfit.members_le
    refine ⟨?_, ?_, ?_, hfit.fits, hflate⟩
    · simp only; omega
    · simp only [List.length_nil]; omega
    · simp only; omega
  have hdata : encodeMembers ms ≠ [] := by
    obtain ⟨m, ms, rfl⟩ := List.exists_cons_of_ne_nil hne
    intro h
    have hpos := remaining_pos hat hstart
    rw [hstart.remainingBytes, h] at hpos
    exact absurd hpos (Nat.lt_irrefl _)
  have hm := hfit.members_le
  unfold extractLiterals
  rw [if_neg hdata]
  constructor
  · intro hcrc
    refine ⟨locateMembers 0 ms, ?_, locateMembers_literals 0 ms⟩
    exact (memberLoop_yields (n := 1024) hr hcrc (by omega) hat).value hstart
  · intro hbad
    exact (memberLoop_rejects (n := 1024) hr hbad (by omega) hat).value hstart

/-! ## An instance -/

def fullHeader : Header where
  text := true
  mtime := 0
  extraFlags := 0
  os := 255
  extra := some [1, 2]
  name := some [0x61]
  comment := some [0x62, 0x63]
  headerCrc := some 7
  extra_lt := by rintro e ⟨⟩; decide
  name_le := by rintro s ⟨⟩; decide
  comment_le := by rintro s ⟨⟩; decide

/-- `"a"`, stored. -/
def storedMember (crc : UInt32) : Member := ⟨fullHeader, [.stored 0 [0x61] (by decide)], 0, crc, 1, by simp⟩

/-- `"aaaa"`: a literal, then a match of length 3 at distance 1. -/
def matchMember : Member where
  header := fullHeader
  blocks := [.fixed [.literal 0x61, .pair ⟨0, 0, by decide, by decide⟩ ⟨0, 0, by decide, by decide⟩]]
  pad := 0
  crc := 0xAD98E545
  isize := 4
  blocks_ne := by simp

/-- The CRCs of `"a"` and `"aaaa"`, and the decoding of the member with the match. -/
def gzipOnly : External :=
  ⟨fun _ => 0, fun bs => if bs = [0x61] then 0xE8B7BE43 else 0xAD98E545, fun _ => ([[0x61, 0x61, 0x61, 0x61]], none),
    fun _ => none, fun _ => none⟩

theorem membersFit_pair (crc : UInt32) : MembersFit [matchMember, storedMember crc] where
  members_le := by change 2 ≤ 1023; decide
  blocks_lt := by change 2 < 100000; decide
  total_le := by change 2 ≤ maxTotalLiterals; decide
  fits := by
    intro m hm b hb
    rcases List.mem_pair.mp hm with rfl | rfl <;> rw [List.mem_singleton.mp hb] <;> exact ⟨by decide, by decide⟩

theorem inflates_pair (crc : UInt32) : ∀ m ∈ [matchMember, storedMember crc], m.hasMatch = true →
    Inflates gzipOnly m := by
  intro m _ _
  exact ⟨rfl, by change 4 ≤ maxTotalLiterals; decide⟩

theorem extractLiterals_matchMember :
    (∃ blocks, extractLiterals gzipOnly (encodeMembers [matchMember, storedMember 0xE8B7BE43]) = .ok blocks ∧
      blocks.map (·.literals) = [[0x61], [0x61]]) ∧
    ∃ e, extractLiterals gzipOnly (encodeMembers [matchMember, storedMember 0]) = .error (.err e) := by
  have hgood : ∀ m ∈ [matchMember, storedMember 0xE8B7BE43], Checked gzipOnly m := by
    intro m hm
    rcases List.mem_pair.mp hm with rfl | rfl
    · exact fun h => absurd h (by decide)
    · exact fun _ => by decide
  have hbad : ∃ m ∈ [matchMember, storedMember 0], ¬ Checked gzipOnly m :=
    ⟨storedMember 0, by simp, fun h => absurd (h rfl) (by decide)⟩
  exact ⟨(extractLiterals_members gzipOnly _ (by simp) (membersFit_pair _) (inflates_pair _)).1 hgood,
    (extractLiterals_members gzipOnly _ (by simp) (membersFit_pair _) (inflates_pair _)).2 hbad⟩

end Ziftsieve.Gzip
