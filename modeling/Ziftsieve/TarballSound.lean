import Ziftsieve.TarWalkSound

/-!
# The walk undoes archiving

The size field reads back as the content's length, so a turn at a member's header
moves past its content and padding to where the next member begins.
-/

namespace Ziftsieve.Tarball

/-! ## Octal digits -/

theorem octalFrom_digit {d value : Nat} (hd : d < 8) (hmax : value * 8 + d ≤ usizeMax) (offset : Nat) (found : Bool)
    (bytes : Bytes) :
    octalFrom offset value found ((0x30 + UInt8.ofNat d) :: bytes) = octalFrom offset (value * 8 + d) true bytes := by
  have hbyte : (0x30 + UInt8.ofNat d).toNat = 48 + d := by
    simp only [UInt8.toNat_add, UInt8.toNat_ofNat', UInt8.reduceToNat]
    omega
  have hsub : (0x30 + UInt8.ofNat d - 0x30).toNat = d := by
    rw [UInt8.toNat_sub_of_le _ _ (UInt8.le_iff_toNat_le.mpr (by simp only [hbyte, UInt8.reduceToNat]; omega)), hbyte]
    simp
  rw [octalFrom, if_neg (by simp only [← UInt8.toNat_inj, hbyte, UInt8.reduceToNat]; omega),
    failIf_false _ (by simp only [UInt8.le_iff_toNat_le, hbyte, UInt8.reduceToNat]; omega), Run.ok_bind]
  simp only [hsub]
  rw [failIf_false _ (Nat.not_lt.mpr hmax), Run.ok_bind]

theorem octalFrom_octalDigits (offset value : Nat) (found : Bool) : ∀ (k n : Nat) (rest : Bytes), n < 8 ^ k →
    value * 8 ^ k + n ≤ usizeMax →
    octalFrom offset value found (octalDigits k n ++ rest) =
      octalFrom offset (value * 8 ^ k + n) (found || decide (0 < k)) rest
  | 0, n, rest, hn, _ => by
    have hzero : n = 0 := Nat.lt_one_iff.mp hn
    subst hzero
    simp [octalDigits]
  | k + 1, n, rest, hn, hmax => by
    have hpow : value * 8 ^ (k + 1) = value * 8 ^ k * 8 := by rw [Nat.pow_succ, Nat.mul_assoc]
    have hdiv : n / 8 < 8 ^ k := by
      rw [Nat.pow_succ] at hn
      exact Nat.div_lt_of_lt_mul (by omega)
    rw [hpow] at hmax ⊢
    rw [octalDigits, List.append_assoc, List.singleton_append,
      octalFrom_octalDigits offset value found k (n / 8) _ hdiv (by omega),
      octalFrom_digit (Nat.mod_lt _ (by decide)) (by omega)]
    have hvalue : (value * 8 ^ k + n / 8) * 8 + n % 8 = value * 8 ^ k * 8 + n := by omega
    rw [hvalue]
    simp

/-! ## A member -/

section
variable {tarData rest : Bytes} {pos : Nat} (m : TarMember)

theorem TarMember.size_lt (hmax : m.content.length ≤ maxTarballBytes) : m.content.length < 8 ^ 11 := by
  unfold maxTarballBytes at hmax
  omega

theorem TarMember.memberSize (hmax : m.content.length ≤ maxTarballBytes) :
    memberSize m.header = some m.content.length := by
  have hlt := m.size_lt hmax
  have husize : 0 * 8 ^ 11 + m.content.length ≤ usizeMax := by unfold usizeMax; omega
  unfold Tarball.memberSize parseTarOctalUsize
  rw [m.size_field, octalFrom_octalDigits 0 0 false 11 m.content.length [m.terminator] hlt husize, octalFrom,
    if_pos m.terminator_blank, if_pos (by decide), Nat.zero_mul, Nat.zero_add]
  rfl

/-- A header is not the end marker: its name begins with some other byte than zero. -/
theorem TarMember.not_end : isEndOfArchiveBlock m.header = false := by
  rw [Bool.eq_false_iff]
  intro hall
  apply m.name_ne_nil
  cases hheader : m.header with
  | nil => rfl
  | cons b bs =>
    rw [hheader] at hall
    unfold isEndOfArchiveBlock at hall
    rw [List.all_cons, Bool.and_eq_true, decide_eq_true_eq] at hall
    unfold nameField textField
    rw [List.drop_zero, List.take_succ_cons, List.takeWhile_cons_of_neg (by simp [hall.1])]

theorem TarMember.length_encode : m.encode.length = nextMemberOffset 0 m.content.length := by
  unfold TarMember.encode TarMember.padding nextMemberOffset
  rw [List.length_append, List.length_append, m.length_header, List.length_replicate]
  unfold tarBlockSize
  simp only
  omega

theorem nextMemberOffset_eq (pos size : Nat) : nextMemberOffset pos size = pos + nextMemberOffset 0 size := by
  unfold nextMemberOffset
  simp only
  omega

theorem TarMember.headerAt (h : At tarData pos (m.encode ++ rest)) : headerAt tarData pos = some m.header := by
  have hlen := h.length
  unfold TarMember.encode at h hlen
  simp only [List.append_assoc, List.length_append, m.length_header] at h hlen
  refine headerAt_eq_some.mpr ⟨by omega, m.not_end, ?_⟩
  rw [h.drop]
  exact List.take_left' m.length_header

theorem TarMember.contentAt (h : At tarData pos (m.encode ++ rest)) :
    contentAt tarData pos m.content.length = m.content := by
  unfold TarMember.encode at h
  simp only [List.append_assoc] at h
  have hcontent := h.skip.drop
  rw [m.length_header] at hcontent
  unfold Tarball.contentAt
  rw [hcontent, List.take_left]

section
variable (multiGzDecoder : Bytes → List Bytes × Option String) (nested : Bytes → Run ZiftError (List CompressedBlock))

theorem memberBlocks_file {s : TarWalk} (hcontent : contentAt tarData s.pos m.content.length = m.content)
    (hlen : s.pos + tarBlockSize + m.content.length ≤ tarData.length)
    (hmax : s.totalLiterals + m.content.length ≤ maxTarballBytes) (hregular : isRegularFile (typeflag m.header) = true) :
    memberBlocks multiGzDecoder nested tarData m.header s m.content.length =
      .ok (s.blocks ++ [m.block s.pos], s.totalLiterals + m.content.length) := by
  have hplain : ¬ (m.content ≠ [] ∧ m.content.take 2 = gzipMagic) :=
    fun h => m.not_gzip (List.prefix_iff_eq_take.mpr h.2.symm)
  have hsmall : ¬ m.content.length > 2 ^ 32 - 1 := by
    unfold maxTarballBytes at hmax
    omega
  unfold memberBlocks addRegularFileBlocks headerOf
  rw [if_pos hregular]
  simp only [slice_content hlen, hcontent, Run.ok_bind, if_neg hplain, Run.pure_eq]
  rw [failIf_false _ hsmall, Run.ok_bind, failIf_false _ (Nat.not_lt.mpr hmax), Run.ok_bind, Run.ok_bind]
  rfl

theorem memberTurn_member {s : TarWalk} (h : At tarData s.pos (m.encode ++ rest)) (hmembers : s.members < maxTarMembers)
    (hmax : s.totalLiterals + m.content.length ≤ maxTarballBytes) :
    ∃ total, total ≤ s.totalLiterals + m.content.length ∧
      memberTurn multiGzDecoder nested tarData s = .ok (.next ⟨s.pos + m.encode.length, s.members + 1,
        s.blocks ++ (if isRegularFile (typeflag m.header) then [m.block s.pos] else []), total⟩) := by
  have hsize := m.memberSize (Nat.le_of_add_left_le hmax)
  have hlen : s.pos + tarBlockSize + m.content.length ≤ tarData.length := by
    have hl := h.length
    have hencode : tarBlockSize + m.content.length ≤ m.encode.length := by
      unfold TarMember.encode
      rw [List.length_append, List.length_append, m.length_header]
      omega
    rw [List.length_append] at hl
    omega
  have hnext : nextMemberOffset s.pos m.content.length = s.pos + m.encode.length := by
    rw [m.length_encode, ← nextMemberOffset_eq]
  have hturn : ∀ r, memberBlocks multiGzDecoder nested tarData m.header s m.content.length = .ok r →
      memberTurn multiGzDecoder nested tarData s = .ok (.next ⟨s.pos + m.encode.length, s.members + 1, r.1, r.2⟩) := by
    intro r hr
    refine (memberTurn_eq_ok multiGzDecoder nested (m.headerAt h)).mpr ?_
    exact ⟨hmembers, _, hsize, m.name_inside, hlen, m.no_link, r, hr, by rw [hnext]⟩
  by_cases hregular : isRegularFile (typeflag m.header) = true
  · rw [if_pos hregular]
    exact ⟨_, Nat.le_refl _, hturn _ (memberBlocks_file m multiGzDecoder nested (m.contentAt h) hlen hmax hregular)⟩
  · rw [if_neg hregular, List.append_nil]
    refine ⟨_, Nat.le_add_right _ _, hturn (s.blocks, s.totalLiterals) ?_⟩
    unfold memberBlocks
    rw [if_neg hregular]
    rfl

theorem memberTurn_end {s : TarWalk} (h : At tarData s.pos (List.replicate tarBlockSize 0 ++ rest))
    (hmembers : s.members < maxTarMembers) :
    memberTurn multiGzDecoder nested tarData s = .ok (.done s.blocks) := by
  have hl := h.length
  rw [List.length_append, List.length_replicate] at hl
  have hpos : s.pos < tarData.length := by
    unfold tarBlockSize at hl
    omega
  have hzero : isEndOfArchiveBlock (List.replicate tarBlockSize 0) = true := by
    unfold isEndOfArchiveBlock
    rw [List.all_eq_true]
    intro b hb
    rw [List.eq_of_mem_replicate hb]
    rfl
  unfold memberTurn
  simp only
  rw [if_pos hpos, failIf_false _ (Nat.not_le.mpr hmembers), Run.ok_bind, failIf_false _ (by omega), Run.ok_bind,
    h.slice (by rw [List.length_replicate]), Run.ok_bind, if_pos hzero]
  rfl

theorem walk_members : ∀ {ms : List TarMember} {s : TarWalk} {n : Nat}, ms.length < n →
    At tarData s.pos (ms.flatMap TarMember.encode ++ (List.replicate tarBlockSize 0 ++ rest)) →
    s.members + ms.length < maxTarMembers → s.totalLiterals + totalContent ms ≤ maxTarballBytes →
    loop (memberTurn multiGzDecoder nested tarData) n s = .ok (s.blocks ++ locateFiles s.pos ms)
  | _, _, 0, hn, _, _, _ => absurd hn (Nat.not_lt_zero _)
  | [], s, n + 1, _, h, hmembers, _ => by
    rw [loop_done (memberTurn_end multiGzDecoder nested h hmembers), locateFiles, List.append_nil]
  | m :: ms, s, n + 1, hn, h, hmembers, hmax => by
    unfold totalContent at hmax
    rw [List.map_cons, List.sum_cons] at hmax
    rw [List.length_cons] at hn hmembers
    rw [List.flatMap_cons, List.append_assoc] at h
    obtain ⟨total, htotal, hturn⟩ := memberTurn_member m multiGzDecoder nested h (by omega) (by omega)
    have hcount : s.members + 1 + ms.length < maxTarMembers := by omega
    have hrest : total + totalContent ms ≤ maxTarballBytes := by unfold totalContent; omega
    rw [loop_next hturn, walk_members (Nat.lt_of_succ_lt_succ hn) h.skip hcount hrest, locateFiles]
    by_cases hregular : isRegularFile (typeflag m.header) = true
    · rw [if_pos hregular, if_pos hregular, List.append_assoc, List.singleton_append]
    · rw [if_neg hregular, if_neg hregular, List.append_nil]

def tooManyMembers (pos : Nat) : ZiftError :=
  .invalidData pos s!"tar archive contains too many members (max {maxTarMembers}). Fix: use a smaller tar archive or increase MAX_TAR_MEMBERS"

theorem memberTurn_full {s : TarWalk} (hpos : s.pos < tarData.length) (hmembers : maxTarMembers ≤ s.members) :
    memberTurn multiGzDecoder nested tarData s = .error (.err (tooManyMembers s.pos)) := by
  unfold memberTurn
  simp only
  rw [if_pos hpos, failIf_true _ hmembers]
  rfl

/-- The count is tested where the end marker stands, so as many members as the limit are too many. -/
theorem walk_full : ∀ {ms : List TarMember} {s : TarWalk} {n : Nat}, ms.length < n →
    At tarData s.pos (ms.flatMap TarMember.encode ++ (List.replicate tarBlockSize 0 ++ rest)) →
    maxTarMembers ≤ s.members + ms.length → s.totalLiterals + totalContent ms ≤ maxTarballBytes →
    ∃ pos, loop (memberTurn multiGzDecoder nested tarData) n s = .error (.err (tooManyMembers pos))
  | _, _, 0, hn, _, _, _ => absurd hn (Nat.not_lt_zero _)
  | ms, s, n + 1, hn, h, hmembers, hmax => by
    have hl := h.length
    rw [List.length_append, List.length_append, List.length_replicate] at hl
    have hpos : s.pos < tarData.length := by
      unfold tarBlockSize at hl
      omega
    by_cases hfull : maxTarMembers ≤ s.members
    · exact ⟨s.pos, loop_error (memberTurn_full multiGzDecoder nested hpos hfull)⟩
    · cases ms with
      | nil =>
        rw [List.length_nil] at hmembers
        omega
      | cons m ms =>
        unfold totalContent at hmax
        rw [List.map_cons, List.sum_cons] at hmax
        rw [List.length_cons] at hn hmembers
        rw [List.flatMap_cons, List.append_assoc] at h
        obtain ⟨total, htotal, hturn⟩ := memberTurn_member m multiGzDecoder nested h (by omega) (by omega)
        rw [loop_next hturn]
        exact walk_full (Nat.lt_of_succ_lt_succ hn) h.skip (by simp only; omega) (by unfold totalContent; simp only; omega)

end

end

theorem length_le_encode (ms : List TarMember) : ms.length ≤ (ms.flatMap TarMember.encode).length := by
  induction ms with
  | nil => exact Nat.zero_le _
  | cons m ms ih =>
    have hencode : tarBlockSize ≤ m.encode.length := by
      unfold TarMember.encode
      rw [List.length_append, List.length_append, m.length_header]
      omega
    unfold tarBlockSize at hencode
    rw [List.flatMap_cons, List.length_append, List.length_cons]
    omega

theorem encodeArchive_at (ms : List TarMember) (rest : Bytes) :
    At (encodeArchive ms rest) 0 (ms.flatMap TarMember.encode ++ (List.replicate tarBlockSize 0 ++ rest)) := by
  rw [← List.append_assoc]
  exact At.start (encodeArchive ms rest)

theorem length_lt_encodeArchive (ms : List TarMember) (rest : Bytes) : ms.length < (encodeArchive ms rest).length + 1 := by
  have hcount := length_le_encode ms
  unfold encodeArchive
  rw [List.length_append, List.length_append]
  omega

section
variable (multiGzDecoder : Bytes → List Bytes × Option String) (ms : List TarMember) (rest : Bytes) (fuel : Nat) {depth : Nat}

theorem scan_members (hdepth : depth ≤ maxNestedDepth) (hmembers : ms.length < maxTarMembers)
    (htotal : totalContent ms ≤ maxTarballBytes) :
    scanDecompressedTarGzArchive multiGzDecoder (fuel + 1) (encodeArchive ms rest) depth = .ok (locateFiles 0 ms) := by
  unfold scanDecompressedTarGzArchive
  rw [failIf_false _ (Nat.not_lt.mpr hdepth), Run.ok_bind]
  exact walk_members (s := ⟨0, 0, [], 0⟩) multiGzDecoder _ (length_lt_encodeArchive ms rest) (encodeArchive_at ms rest)
    (by simpa using hmembers) (by simpa using htotal)

theorem scan_full (hdepth : depth ≤ maxNestedDepth) (hmembers : maxTarMembers ≤ ms.length)
    (htotal : totalContent ms ≤ maxTarballBytes) :
    ∃ pos, scanDecompressedTarGzArchive multiGzDecoder (fuel + 1) (encodeArchive ms rest) depth =
      .error (.err (tooManyMembers pos)) := by
  unfold scanDecompressedTarGzArchive
  rw [failIf_false _ (Nat.not_lt.mpr hdepth), Run.ok_bind]
  exact walk_full (s := ⟨0, 0, [], 0⟩) multiGzDecoder _ (length_lt_encodeArchive ms rest) (encodeArchive_at ms rest)
    (by simpa using hmembers) (by simpa using htotal)

end

/-- **The walk undoes archiving.** Each regular file gives its block, in order. -/
theorem scanDecompressedTarGzArchive_encode (multiGzDecoder : Bytes → List Bytes × Option String) (ms : List TarMember)
    (rest : Bytes) (fuel : Nat) (hmembers : ms.length < maxTarMembers) (htotal : totalContent ms ≤ maxTarballBytes) :
    scanDecompressedTarGzArchive multiGzDecoder (fuel + 1) (encodeArchive ms rest) 0 = .ok (locateFiles 0 ms) :=
  scan_members multiGzDecoder ms rest fuel (Nat.zero_le _) hmembers htotal

def fileA : TarMember where
  header := buildHeader [0x61] (octalDigits 11 2 ++ [0]) 0x30 [] []
  content := [7, 8]
  length_header := by decide +kernel
  name_ne_nil := by decide
  name_inside := by decide
  no_link := by decide
  terminator := 0
  terminator_blank := .inl rfl
  size_field := by decide
  not_gzip := by decide

def directoryD : TarMember where
  header := buildHeader [0x64] (octalDigits 11 1 ++ [0x20]) 0x35 [] []
  content := [9]
  length_header := by decide +kernel
  name_ne_nil := by decide
  name_inside := by decide
  no_link := by decide
  terminator := 0x20
  terminator_blank := .inr rfl
  size_field := by decide
  not_gzip := by decide

theorem scanDecompressedTarGzArchive_encode_fileA :
    scanDecompressedTarGzArchive (fun _ => ([], none)) 1 (encodeArchive [directoryD, fileA] [1]) 0 =
      .ok [⟨1024, 2, some 2, [7, 8]⟩] := by
  have hlocate : locateFiles 0 [directoryD, fileA] = [⟨1024, 2, some 2, [7, 8]⟩] := by decide +kernel
  rw [scanDecompressedTarGzArchive_encode (fun _ => ([], none)) [directoryD, fileA] [1] 0 (by decide) (by decide), hlocate]

/-- **As many members as the limit are already too many.** -/
theorem scanDecompressedTarGzArchive_tooMany_iff (multiGzDecoder : Bytes → List Bytes × Option String)
    (ms : List TarMember) (rest : Bytes) (fuel depth : Nat) (hdepth : depth ≤ maxNestedDepth)
    (htotal : totalContent ms ≤ maxTarballBytes) :
    ((∃ pos, scanDecompressedTarGzArchive multiGzDecoder (fuel + 1) (encodeArchive ms rest) depth =
      .error (.err (tooManyMembers pos))) ↔ maxTarMembers < ms.length) ↔ ms.length ≠ maxTarMembers := by
  by_cases hmembers : ms.length < maxTarMembers
  · rw [scan_members multiGzDecoder ms rest fuel hdepth hmembers htotal]
    refine iff_of_true (iff_of_false ?_ (by omega)) (by omega)
    rintro ⟨pos, h⟩
    cases h
  · rw [iff_true_left (scan_full multiGzDecoder ms rest fuel hdepth (Nat.le_of_not_lt hmembers) htotal)]
    omega

theorem scanDecompressedTarGzArchive_tooMany_fileA :
    ((∃ pos, scanDecompressedTarGzArchive (fun _ => ([], none)) 1
      (encodeArchive [directoryD, fileA] (List.replicate tarBlockSize 0)) 0 = .error (.err (tooManyMembers pos))) ↔
        maxTarMembers < [directoryD, fileA].length) ↔ [directoryD, fileA].length ≠ maxTarMembers :=
  scanDecompressedTarGzArchive_tooMany_iff _ _ _ 0 0 (by decide) (by decide)

theorem scanDecompressedTarGzArchive_tooMany_limit :
    (∃ pos, scanDecompressedTarGzArchive (fun _ => ([], none)) 1
      (encodeArchive (List.replicate maxTarMembers fileA) (List.replicate tarBlockSize 0)) 0 =
        .error (.err (tooManyMembers pos))) ∧
      totalContent (List.replicate maxTarMembers fileA) ≤ maxTarballBytes ∧
        ¬ maxTarMembers < (List.replicate maxTarMembers fileA).length := by
  have hlen : (List.replicate maxTarMembers fileA).length = maxTarMembers := List.length_replicate
  have htotal : totalContent (List.replicate maxTarMembers fileA) ≤ maxTarballBytes := by
    unfold totalContent
    rw [List.map_replicate, List.sum_replicate]
    decide
  exact ⟨scan_full _ _ _ 0 (by decide) (Nat.le_of_eq hlen.symm) htotal, htotal, Nat.not_lt.mpr (Nat.le_of_eq hlen)⟩

end Ziftsieve.Tarball
