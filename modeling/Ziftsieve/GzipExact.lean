import Ziftsieve.GzipHeaders

/-!
# The gzip parser accepts exactly its language

A byte string is accepted exactly when it is the encoding of a list of members
within the limits, with blocks of all three types, each member verified; and the
blocks that are returned are those of the members where they stand.
-/

namespace Ziftsieve.Gzip

/-! ## Members as bits -/

theorem codedBits_aligned (i : Nat) (bs : List CodedBlock) : codedBits (8 * i) bs = codedBits 0 bs :=
  codedBits_bytes i 0 bs

namespace CodedMember

theorem bytesBits_encode (m : CodedMember) : bytesBits m.encode = m.bits := by
  have hpad := padTo8_add m.stream.length
  apply bytesBits_pack (m.bits.length / 8) m.bits
  have hlen : m.bits.length = 8 * m.header.bytes.length + (m.stream.length + padTo8 m.stream.length + 64) := by
    simp only [bits, List.length_append, length_bytesBits, length_bitsLe]
    omega
  omega

theorem length_bits (m : CodedMember) : m.bits.length = 8 * m.encode.length := by
  rw [← bytesBits_encode, length_bytesBits]

theorem encode_pos (m : CodedMember) : 0 < m.encode.length := by
  have hlen := m.length_bits
  simp only [bits, List.length_append, length_bytesBits, length_bitsLe] at hlen
  omega

end CodedMember

theorem bytesBits_encodeCoded : ∀ ms : List CodedMember, bytesBits (encodeCoded ms) = ms.flatMap CodedMember.bits
  | [] => rfl
  | m :: ms => by
    have ih := bytesBits_encodeCoded ms
    unfold encodeCoded at ih ⊢
    rw [List.flatMap_cons, List.flatMap_cons, bytesBits_append, m.bytesBits_encode, ih]

theorem locateCoded_literals : ∀ (p : Nat) (bs : List CodedBlock),
    (locateCoded p bs).map (·.literals) = bs.map CodedBlock.literals
  | _, [] => rfl
  | p, b :: bs => by
    rw [locateCoded, List.map_cons, List.map_cons, locateCoded_literals]
    rfl

/-! ## Checks -/

theorem drainDecoder_iff {failure : Option String} : ∀ {reads : List Bytes} {n : Nat}, n ≤ maxTotalLiterals →
    (drainDecoder reads failure n = .ok () ↔
      n + ((reads.takeWhile (· ≠ [])).map List.length).sum ≤ maxTotalLiterals ∧ ([] ∈ reads ∨ failure = none))
  | [], n, h => by
    cases failure with
    | none => simp [drainDecoder, h]
    | some e => simp [drainDecoder]
  | c :: cs, n, h => by
    unfold drainDecoder
    by_cases h0 : c = []
    · rw [if_pos (by rw [h0]; rfl)]
      simp [h0, h]
    · have hlen : c.length ≠ 0 := fun hc => h0 (List.length_eq_zero_iff.mp hc)
      rw [if_neg hlen, List.takeWhile_cons_of_pos (by simpa using h0), List.map_cons, List.sum_cons]
      simp only
      have hmem : [] ∈ c :: cs ↔ [] ∈ cs := by
        rw [List.mem_cons]
        exact or_iff_right fun he => h0 he.symm
      by_cases hover : n + c.length > maxTotalLiterals
      · rw [failIf_true _ hover, Run.error_bind]
        exact iff_of_false (by rintro ⟨⟩) fun h => absurd h.1 (by omega)
      · rw [failIf_false _ hover, Run.ok_bind, drainDecoder_iff (by omega), hmem, Nat.add_assoc]

theorem drains_iff {reads : List Bytes} {failure : Option String} :
    drainDecoder reads failure 0 = .ok () ↔ Drains reads failure := by
  rw [drainDecoder_iff (Nat.zero_le _), Nat.zero_add]
  exact ⟨fun h => ⟨h.1, h.2⟩, fun h => ⟨h.total_le, h.ends⟩⟩

section
variable {ext : External} {data : Bytes} {i total : Nat} {blocks : List CompressedBlock}

theorem own_codedLiterals (m : CodedMember) :
    ((blocks ++ m.located i).drop blocks.length).flatMap (·.literals) = m.literals := by
  rw [List.drop_left, CodedMember.located, CodedMember.literals, List.flatMap_def, locateCoded_literals,
    ← List.flatMap_def]

theorem checkMember_recognizes {m : CodedMember} {zs : Bytes} (h : At data i (m.encode ++ zs)) :
    Recognizes (bitView data) (8 * (i + m.encode.length))
      (checkMember ext blocks.length i ⟨blocks ++ m.located i, total, m.hasMatch⟩ m.crc.toNat)
      fun _ w => w = [] ∧ m.Verified ext := by
  unfold checkMember CodedMember.Verified
  refine Recognizes.withReader fun r hr => ?_
  rw [own_codedLiterals]
  cases m.hasMatch with
  | true =>
    have hslice : (slice r.data i r.bytePos : Run ZiftError Bytes) = .ok m.encode := by
      rw [hr.data_eq, hr.bytePos_eq, Nat.mul_div_cancel_left _ (by decide)]
      exact h.slice rfl
    simp only [if_true]
    rw [hslice]
    change Recognizes (bitView data) _ (lift (drainDecoder (ext.gzDecoder m.encode).1 (ext.gzDecoder m.encode).2 0)) _
    refine (Recognizes.lift _).congr fun _ w => ?_
    rw [drains_iff, and_comm]
  | false =>
    simp only [Bool.false_eq_true, if_false]
    refine (Recognizes.failIf _ _).congr fun _ w => ?_
    rw [not_not, and_comm]

/-! ## Members -/

/-- There is room for the blocks of a member, and for their literals. -/
structure Fits (blocks : List CompressedBlock) (total : Nat) (m : CodedMember) : Prop where
  blocks_le : blocks.length + m.blocks.length ≤ maxDeflateBlocksPerMember
  total_le : total + codedLiterals m.blocks ≤ maxTotalLiterals

theorem readMember_recognizes : Recognizes (bitView data) (8 * i) (readMember blocks total) fun r w =>
    ∃ m : CodedMember, Fits blocks total m ∧
      r = (i, ⟨blocks ++ m.located i, total + codedLiterals m.blocks, m.hasMatch⟩, m.crc.toNat) ∧ w = m.bits where
  parses := by
    unfold readMember
    refine Parses.withReader fun r hr => ?_
    rw [hr.bytePos_eq, Nat.mul_div_cancel_left i (by decide)]
    refine parseGzipHeader_recognizes.parses.bind fun _ w0 h0 =>
      (parseDeflateStream_recognizes blocks total).parses.bind fun s w1 h1 => ?_
    refine alignToByte_parses.bind fun _ w2 h2 => readU32Le_parses.bind fun crc w3 h3 =>
      readU32Le_parses.bind fun isize w4 h4 => Parses.pure ?_
    obtain ⟨-, hd, rfl⟩ := h0
    rw [length_bytesBits, ← Nat.mul_add] at h1 h2
    obtain ⟨bs, hne, hblocks, htotal, rfl, rfl⟩ := h1
    obtain ⟨-, rfl, hcrc⟩ := h3
    obtain ⟨-, rfl, hisize⟩ := h4
    rw [codedBits_aligned, padTo8_bytes] at h2
    have hcrc' : (UInt32.ofNat crc).toNat = crc := by rw [UInt32.toNat_ofNat', Nat.mod_eq_of_lt hcrc]
    have hisize' : (UInt32.ofNat isize).toNat = isize := by rw [UInt32.toNat_ofNat', Nat.mod_eq_of_lt hisize]
    refine ⟨⟨hd, bs, ofBits w2, UInt32.ofNat crc, UInt32.ofNat isize, hne⟩, ⟨hblocks, htotal⟩, ?_, ?_⟩
    · rw [hcrc']
      rfl
    · simp only [CodedMember.bits, CodedMember.stream]
      rw [hcrc', hisize', ← h2, bitsLe_ofBits, List.append_nil, codedBits_aligned]
  yields := by
    rintro r w rest ⟨m, hfits, rfl, rfl⟩ hat
    have hstream : m.stream = codedBits (8 * i + (bytesBits m.header.bytes).length) m.blocks := by
      rw [length_bytesBits, ← Nat.mul_add, codedBits_aligned]
      rfl
    have hpad : padTo8 m.stream.length = padTo8 (8 * i + (bytesBits m.header.bytes).length + m.stream.length) := by
      rw [length_bytesBits, ← Nat.mul_add, padTo8_bytes]
    have hlocated : m.located i = locateCoded (8 * i + (bytesBits m.header.bytes).length) m.blocks := by
      rw [length_bytesBits, ← Nat.mul_add]
      rfl
    have hcrc := m.crc.toNat_lt
    have hisize := m.isize.toNat_lt
    simp only [CodedMember.bits, List.append_assoc] at hat
    have halign := padTo8_add (8 * i + (bytesBits m.header.bytes).length + m.stream.length)
    rw [← hpad] at halign
    have hpos : 8 * i + m.bits.length = 8 * i + (bytesBits m.header.bytes).length + m.stream.length +
        (bitsLe (padTo8 m.stream.length) m.pad).length + (bitsLe 32 m.crc.toNat).length +
        (bitsLe 32 m.isize.toNat).length := by
      simp only [CodedMember.bits, List.length_append, Nat.add_assoc]
    rw [hpos, hlocated]
    unfold readMember
    refine yields_withReader fun r hr => ?_
    rw [hr.bytePos_eq, Nat.mul_div_cancel_left i (by decide)]
    refine (parseGzipHeader_recognizes.yields (a := ()) ⟨by omega, m.header, rfl⟩ hat).bind ?_
    refine ((parseDeflateStream_recognizes blocks total).yields
      ⟨m.blocks, m.blocks_ne, hfits.blocks_le, hfits.total_le, rfl, hstream⟩ hat.skip).bind ?_
    refine (alignToByte_recognizes.yields (a := ()) (by rw [length_bitsLe, hpad]) hat.skip.skip).bind ?_
    refine (readU32Le_recognizes.yields ⟨by rw [length_bitsLe]; exact halign, rfl, hcrc⟩ hat.skip.skip.skip).bind ?_
    refine (readU32Le_recognizes.yields ⟨by simp only [length_bitsLe]; omega, rfl, hisize⟩
      hat.skip.skip.skip.skip).bind ?_
    exact Yields.pure

theorem parseGzipMember_recognizes : Recognizes (bitView data) (8 * i) (parseGzipMember ext blocks total) fun r w =>
    ∃ m : CodedMember, Fits blocks total m ∧ m.Verified ext ∧
      r = (blocks ++ m.located i, total + codedLiterals m.blocks) ∧ w = m.bits where
  parses := by
    refine readMember_recognizes.parses.bind_at fun x w rest hat h => ?_
    obtain ⟨m, hfits, rfl, rfl⟩ := h
    obtain ⟨zs, hbytes⟩ := (m.bytesBits_encode ▸ hat : At (bytesBits data) (8 * i) (bytesBits m.encode ++ rest)).bytes
    rw [m.length_bits, ← Nat.mul_add]
    refine (checkMember_recognizes hbytes).parses.bind fun _ v hv => Parses.pure ?_
    obtain ⟨rfl, hverified⟩ := hv
    exact ⟨m, hfits, hverified, rfl, by simp⟩
  yields := by
    rintro r w rest ⟨m, hfits, hverified, rfl, rfl⟩ hat
    obtain ⟨zs, hbytes⟩ := (m.bytesBits_encode ▸ hat : At (bytesBits data) (8 * i) (bytesBits m.encode ++ rest)).bytes
    have hskip : At (bytesBits data) (8 * (i + m.encode.length)) ([] ++ rest) := by
      have h := hat.skip
      rwa [m.length_bits, ← Nat.mul_add] at h
    have hcheck : Yields ((bitView data).stands (8 * (i + m.encode.length)))
        (checkMember ext blocks.length i ⟨blocks ++ m.located i, total + codedLiterals m.blocks, m.hasMatch⟩ m.crc.toNat)
        () ((bitView data).stands (8 * (i + m.encode.length) + ([] : List Bool).length)) :=
      (checkMember_recognizes hbytes).yields (a := ()) ⟨rfl, hverified⟩ hskip
    rw [List.length_nil, Nat.add_zero] at hcheck
    refine (readMember_recognizes.yields ⟨m, hfits, rfl, rfl⟩ hat).bind ?_
    rw [m.length_bits, ← Nat.mul_add]
    exact hcheck.bind Yields.pure

/-! ## Lists of members -/

def Members.coded (s : Members) (i : Nat) (m : CodedMember) : Members :=
  ⟨s.blocks ++ m.located i, s.totalLiterals + codedLiterals m.blocks, s.members + 1⟩

/-- A turn over the members: one more of fewer than 1024, or the end of the data. -/
def MemberTurn (ext : External) (data : Bytes) (p : Nat) (s : Members) (turn : Turn Members (List CompressedBlock))
    (w : List Bool) : Prop :=
  turn.Holds (fun y => ∃ m : CodedMember, Fits s.blocks s.totalLiterals m ∧ m.Verified ext ∧ s.members + 1 < 1024 ∧
    y = s.coded (p / 8) m ∧ w = m.bits) fun r => p = 8 * data.length ∧ r = s.blocks ∧ w = []

theorem memberTurn_recognizes (s : Members) :
    Recognizes (bitView data) (8 * i) (memberTurn ext s) (MemberTurn ext data (8 * i) s) where
  parses := by
    unfold memberTurn
    refine Parses.withReader fun r hr => ?_
    have hle := hr.le
    rw [hr.remainingBytes]
    refine Parses.ite (fun _ => parseGzipMember_recognizes.parses.bind fun x w h => ?_) fun hend => Parses.pure ?_
    · obtain ⟨m, hfits, hverified, rfl, rfl⟩ := h
      refine Parses.ite (fun _ => Parses.failHere _) fun hfew => Parses.pure ?_
      refine ⟨m, hfits, hverified, Nat.lt_of_not_le hfew, ?_, List.append_nil _⟩
      rw [Nat.mul_div_cancel_left i (by decide)]
      rfl
    · exact ⟨by omega, rfl, rfl⟩
  yields := by
    intro turn w rest h hat
    have hl := hat.length
    rw [show (bitView data).input = bytesBits data from rfl, length_bytesBits, List.length_append] at hl
    unfold memberTurn
    refine yields_withReader fun r hr => ?_
    rw [hr.remainingBytes]
    cases turn with
    | next y =>
      obtain ⟨m, hfits, hverified, hfew, rfl, rfl⟩ := h
      have hlen := m.length_bits
      have hpos := m.encode_pos
      rw [if_pos (by omega)]
      refine (parseGzipMember_recognizes.yields ⟨m, hfits, hverified, rfl, rfl⟩ hat).bind ?_
      simp only
      rw [if_neg (by omega), Nat.mul_div_cancel_left i (by decide)]
      exact Yields.pure
    | done r =>
      obtain ⟨hend, rfl, rfl⟩ := h
      rw [if_neg (by omega)]
      exact Yields.pure
end

/-- What the parser has before it, when it has come to `s`. -/
structure LegalFrom (ext : External) (s : Members) (ms : List CodedMember) : Prop where
  members_le : s.members + ms.length ≤ 1023
  blocks_le : s.blocks.length + (ms.flatMap (·.blocks)).length ≤ maxDeflateBlocksPerMember
  total_le : s.totalLiterals + codedLiterals (ms.flatMap (·.blocks)) ≤ maxTotalLiterals
  verified : ∀ m ∈ ms, m.Verified ext

theorem codedLiterals_append (as bs : List CodedBlock) : codedLiterals (as ++ bs) = codedLiterals as + codedLiterals bs := by
  unfold codedLiterals
  rw [List.map_append, List.sum_append]

theorem length_locateCoded : ∀ (p : Nat) (bs : List CodedBlock), (locateCoded p bs).length = bs.length
  | _, [] => rfl
  | p, b :: bs => by rw [locateCoded, List.length_cons, List.length_cons, length_locateCoded]

theorem legalFrom_cons {ext : External} {s : Members} {i : Nat} {m : CodedMember} {ms : List CodedMember} :
    LegalFrom ext s (m :: ms) ↔ Fits s.blocks s.totalLiterals m ∧ m.Verified ext ∧ s.members + 1 < 1024 ∧
      LegalFrom ext (s.coded i m) ms := by
  have hlen : (s.blocks ++ m.located i).length = s.blocks.length + m.blocks.length := by
    rw [List.length_append, CodedMember.located, length_locateCoded]
  constructor
  · rintro ⟨hm, hb, ht, hv⟩
    rw [List.length_cons] at hm
    rw [List.flatMap_cons, List.length_append] at hb
    rw [List.flatMap_cons, codedLiterals_append] at ht
    refine ⟨⟨by omega, by omega⟩, hv m List.mem_cons_self, by omega, ?_, ?_, ?_, fun x hx => hv x (List.mem_cons_of_mem _ hx)⟩
    · simp only [Members.coded]
      omega
    · simp only [Members.coded, hlen]
      omega
    · simp only [Members.coded]
      omega
  · rintro ⟨-, hverified, -, hm, hb, ht, hv⟩
    simp only [Members.coded, hlen] at hm hb ht
    refine ⟨?_, ?_, ?_, List.forall_mem_cons.mpr ⟨hverified, hv⟩⟩
    · rw [List.length_cons]
      omega
    · rw [List.flatMap_cons, List.length_append]
      omega
    · rw [List.flatMap_cons, codedLiterals_append]
      omega

theorem memberRuns_iff {ext : External} {data : Bytes} {p : Nat} {s : Members} {r : List CompressedBlock}
    {w : List Bool} (hp : p % 8 = 0) (hs : LegalFrom ext s []) :
    Runs (MemberTurn ext data) p s r w ↔ ∃ ms : List CodedMember, LegalFrom ext s ms ∧
      r = s.blocks ++ locateMembersCoded (p / 8) ms ∧ w = ms.flatMap CodedMember.bits ∧
      p + w.length = 8 * data.length := by
  constructor
  · intro h
    induction h with
    | done h =>
      obtain ⟨rfl, rfl, rfl⟩ := h
      exact ⟨[], hs, (List.append_nil _).symm, rfl, rfl⟩
    | @next p s y r w v h _ ih =>
      obtain ⟨m, hfits, hverified, hfew, rfl, rfl⟩ := h
      have hlen := m.length_bits
      have hnext : LegalFrom ext (s.coded (p / 8) m) [] := by
        refine ((legalFrom_cons (i := p / 8)).mp ⟨?_, ?_, ?_, ?_⟩).2.2.2
        · exact Nat.le_of_lt_succ hfew
        · simpa using hfits.blocks_le
        · simpa [codedLiterals] using hfits.total_le
        · exact List.forall_mem_singleton.mpr hverified
      obtain ⟨ms, hlegal, rfl, rfl, hend⟩ := ih (by omega) hnext
      refine ⟨m :: ms, legalFrom_cons.mpr ⟨hfits, hverified, hfew, hlegal⟩, ?_, ?_, ?_⟩
      · rw [locateMembersCoded, ← List.append_assoc, show p / 8 + m.encode.length = (p + m.bits.length) / 8 by omega]
        rfl
      · rw [List.flatMap_cons]
      · rw [List.length_append, ← Nat.add_assoc]
        exact hend
  · rintro ⟨ms, hlegal, rfl, rfl, hend⟩
    induction ms generalizing p s with
    | nil =>
      refine Runs.done ⟨hend, List.append_nil _, rfl⟩
    | cons m ms ih =>
      have hlen := m.length_bits
      obtain ⟨hfits, hverified, hfew, hrest⟩ := (legalFrom_cons (i := p / 8)).mp hlegal
      rw [List.flatMap_cons, List.length_append, ← Nat.add_assoc] at hend
      have hstop : LegalFrom ext (s.coded (p / 8) m) [] := by
        obtain ⟨hm, hb, ht, -⟩ := hrest
        refine ⟨?_, ?_, ?_, List.forall_mem_nil _⟩ <;> simp [codedLiterals] <;> omega
      have hrun := Runs.next (T := MemberTurn ext data) (p := p) (x := s) (w := m.bits)
        ⟨m, hfits, hverified, hfew, rfl, rfl⟩ (ih (by omega) hstop hrest hend)
      rw [List.flatMap_cons, locateMembersCoded, ← List.append_assoc,
        show p / 8 + m.encode.length = (p + m.bits.length) / 8 by omega]
      exact hrun

theorem memberLoop_recognizes (ext : External) (data : Bytes) :
    Recognizes (bitView data) 0 (loop (memberTurn ext) 1025 ⟨[], 0, 0⟩) fun r w => ∃ ms : List CodedMember,
      Legal ext ms ∧ r = locateMembersCoded 0 ms ∧ w = ms.flatMap CodedMember.bits ∧ w.length = 8 * data.length := by
  have hstart : LegalFrom ext ⟨[], 0, 0⟩ [] := ⟨by decide, by decide, by decide, List.forall_mem_nil _⟩
  have hlegal : ∀ ms, LegalFrom ext ⟨[], 0, 0⟩ ms ↔ Legal ext ms := by
    intro ms
    constructor
    · rintro ⟨hm, hb, ht, hv⟩
      rw [Nat.zero_add] at hm ht
      rw [List.length_nil, Nat.zero_add] at hb
      exact ⟨hm, hb, ht, hv⟩
    · rintro ⟨hm, hb, ht, hv⟩
      refine ⟨?_, ?_, ?_, hv⟩ <;> simp only [List.length_nil, Nat.zero_add] <;> assumption
  have hloop : Recognizes (bitView data) 0 (loop (memberTurn ext) 1025 ⟨[], 0, 0⟩)
      (Runs (MemberTurn ext data) 0 ⟨[], 0, 0⟩) := by
    refine Recognizes.loop (I := fun p s => p % 8 = 0 ∧ s.members ≤ 1023) (μ := fun s => 1023 - s.members)
      ?_ ?_ 1025 ⟨rfl, by decide⟩ (by decide)
    · rintro p s ⟨hp, -⟩
      rw [show p = 8 * (p / 8) by omega]
      exact memberTurn_recognizes s
    · rintro p s y w ⟨hp, hs⟩ ⟨m, -, -, hfew, rfl, rfl⟩
      have hlen := m.length_bits
      simp only [Members.coded]
      omega
  refine hloop.congr fun r w => ?_
  rw [memberRuns_iff rfl hstart]
  simp only [hlegal, List.nil_append, Nat.zero_add, Nat.zero_div]

section
variable {ext : External} {data : Bytes} {blocks : List CompressedBlock}

theorem extractLiterals_parses (h : extractLiterals ext data = .ok blocks) :
    ∃ ms : List CodedMember, ms ≠ [] ∧ Legal ext ms ∧ encodeCoded ms = data ∧ locateMembersCoded 0 ms = blocks := by
  unfold extractLiterals at h
  by_cases hdata : data = []
  · rw [if_pos hdata] at h
    cases h
  · rw [if_neg hdata] at h
    have hrun : loop (memberTurn ext) 1025 ⟨[], 0, 0⟩ (BitReader.new data 0) =
        (.ok blocks, (loop (memberTurn ext) 1025 ⟨[], 0, 0⟩ (BitReader.new data 0)).2) := Prod.ext h rfl
    obtain ⟨w, rest, hat, -, ms, hlegal, rfl, hw, hall⟩ :=
      (memberLoop_recognizes ext data).parses _ _ _ (Synced.new (i := 0) (Nat.zero_le _)) hrun
    have hwhole : bytesBits data = w := by
      have hdrop := hat.drop
      have hlen := hat.length
      rw [show (bitView data).input = bytesBits data from rfl] at hdrop hlen
      rw [length_bytesBits, List.length_append] at hlen
      rw [List.drop_zero, List.length_eq_zero_iff.mp (show rest.length = 0 by omega), List.append_nil] at hdrop
      exact hdrop
    have hencode : encodeCoded ms = data := bytesBits_inj (by rw [bytesBits_encodeCoded, hwhole, hw])
    refine ⟨ms, ?_, hlegal, hencode, rfl⟩
    rintro rfl
    exact hdata hencode.symm

theorem encodeCoded_pos {ms : List CodedMember} (h : ms ≠ []) : 0 < (encodeCoded ms).length := by
  obtain ⟨m, ms, rfl⟩ := List.exists_cons_of_ne_nil h
  rw [encodeCoded, List.flatMap_cons, List.length_append]
  exact Nat.add_pos_left m.encode_pos _

theorem extractLiterals_encodeCoded {ms : List CodedMember} (hne : ms ≠ []) (h : Legal ext ms) :
    extractLiterals ext (encodeCoded ms) = .ok (locateMembersCoded 0 ms) := by
  have hbits := bytesBits_encodeCoded ms
  have hat : At (bytesBits (encodeCoded ms)) 0 (ms.flatMap CodedMember.bits ++ []) := by
    rw [List.append_nil, ← hbits]
    exact At.start _
  have hdata : encodeCoded ms ≠ [] := List.ne_nil_of_length_pos (encodeCoded_pos hne)
  unfold extractLiterals
  rw [if_neg hdata]
  refine ((memberLoop_recognizes ext (encodeCoded ms)).yields ⟨ms, h, rfl, rfl, ?_⟩ hat).value
    (Synced.new (i := 0) (Nat.zero_le _))
  rw [← hbits, length_bytesBits]

end

/-- **The gzip parser accepts exactly its language.** A byte string is accepted when it is the encoding of one or
more members within the limits, each verified, and never otherwise; the blocks that come out are those of the members,
in order and where they stand. -/
theorem extractLiterals_accepts_iff (ext : External) (data : Bytes) (blocks : List CompressedBlock) :
    extractLiterals ext data = .ok blocks ↔ ∃ ms : List CodedMember, ms ≠ [] ∧ Legal ext ms ∧ encodeCoded ms = data ∧
      locateMembersCoded 0 ms = blocks := by
  constructor
  · exact extractLiterals_parses
  · rintro ⟨ms, hne, hlegal, rfl, rfl⟩
    exact extractLiterals_encodeCoded hne hlegal

end Ziftsieve.Gzip
