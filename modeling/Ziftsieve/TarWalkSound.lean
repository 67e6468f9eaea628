import Ziftsieve.TarName

/-!
# What a turn of the walk says of a member

A turn at a member's header goes round again exactly when the member passes every
check. So an archive that is accepted has had all its members walked, and all the
archives among them.
-/

namespace Ziftsieve.Tarball

section
variable {tarData header : Bytes} {pos : Nat}

theorem headerAt_eq_some : headerAt tarData pos = some header ↔
    pos + tarBlockSize ≤ tarData.length ∧ isEndOfArchiveBlock header = false ∧
      (tarData.drop pos).take tarBlockSize = header := by
  unfold headerAt
  simp only [Option.ite_none_right_eq_some, Option.some.injEq, Bool.not_eq_true]
  constructor
  · rintro ⟨⟨hlen, hend⟩, rfl⟩
    exact ⟨hlen, hend, rfl⟩
  · rintro ⟨hlen, hend, rfl⟩
    exact ⟨⟨hlen, hend⟩, rfl⟩

theorem length_header (h : headerAt tarData pos = some header) : header.length = 512 := by
  obtain ⟨hlen, -, rfl⟩ := headerAt_eq_some.mp h
  unfold tarBlockSize at *
  rw [List.length_take, List.length_drop]
  omega

theorem slice_header (h : headerAt tarData pos = some header) :
    (slice tarData pos (pos + tarBlockSize) : Run ZiftError Bytes) = .ok header := by
  obtain ⟨hlen, -, rfl⟩ := headerAt_eq_some.mp h
  rw [slice_eq_ok, Nat.add_sub_cancel_left]
  exact ⟨⟨Nat.le_add_right _ _, hlen⟩, rfl⟩

theorem slice_field (h : header.length = 512) {i j : Nat} (hij : i ≤ j) (hj : j ≤ 512) :
    (slice header i j : Run ZiftError Bytes) = .ok ((header.drop i).take (j - i)) :=
  slice_eq_ok.mpr ⟨⟨hij, h.symm ▸ hj⟩, rfl⟩

theorem index_typeflag (h : header.length = 512) : (index header 156 : Run ZiftError UInt8) = .ok (typeflag header) := by
  have h156 : 156 < header.length := by omega
  rw [index_eq_ok, typeflag, List.getD_eq_getElem _ _ h156, List.getElem?_eq_getElem h156]

/-- The offset is in the errors only. -/
theorem octalFrom_toOption (offset : Nat) : ∀ (bytes : Bytes) (value : Nat) (found : Bool),
    (octalFrom offset value found bytes).toOption = (octalFrom 0 value found bytes).toOption
  | [], _, _ => rfl
  | byte :: bytes, value, found => by
    unfold octalFrom
    by_cases hblank : byte = 0 ∨ byte = 0x20
    · rw [if_pos hblank, if_pos hblank]
      cases found with
      | true => rfl
      | false => exact octalFrom_toOption offset bytes value false
    rw [if_neg hblank, if_neg hblank]
    by_cases hdigit : 0x30 ≤ byte ∧ byte ≤ 0x37
    · rw [failIf_false _ (not_not_intro hdigit), failIf_false _ (not_not_intro hdigit), Run.ok_bind, Run.ok_bind]
      simp only
      by_cases hmax : value * 8 + (byte - 0x30).toNat > usizeMax
      · rw [failIf_true _ hmax, failIf_true _ hmax]
        rfl
      · rw [failIf_false _ hmax, failIf_false _ hmax]
        exact octalFrom_toOption offset bytes _ true
    · rw [failIf_true _ hdigit, failIf_true _ hdigit]
      rfl

theorem parse_sizeField (offset size : Nat) :
    parseTarOctalUsize ((header.drop 124).take 12) offset = .ok size ↔ memberSize header = some size := by
  unfold memberSize parseTarOctalUsize
  rw [← octalFrom_toOption offset]
  cases octalFrom offset 0 false ((header.drop 124).take 12) with
  | ok n => simp [Except.toOption]
  | error e => simp [Except.toOption]

def headerOf (header : Bytes) (pos size : Nat) : TarHeader :=
  ⟨pos + tarBlockSize, size, isRegularFile (typeflag header), isSymlink (typeflag header),
    isHardlink (typeflag header), fromUtf8Lossy (nameField header)⟩

theorem readTarMember_eq_ok (h : headerAt tarData pos = some header) {offset : Nat} {m : TarHeader} :
    readTarMember tarData pos offset = .ok m ↔
      ∃ size, memberSize header = some size ∧ ¬ Traverses (nameField header) ∧
        pos + tarBlockSize + size ≤ tarData.length ∧ m = headerOf header pos size := by
  obtain ⟨hlen, hend, -⟩ := headerAt_eq_some.mp h
  have h512 := length_header h
  have hsize : (slice header 124 136 : Run ZiftError Bytes) = .ok ((header.drop 124).take 12) :=
    slice_field h512 (by decide) (by decide)
  have hname : (slice header 0 100 : Run ZiftError Bytes) = .ok (header.take 100) :=
    slice_field h512 (by decide) (by decide)
  unfold readTarMember
  simp only
  rw [failIf_false _ (Nat.not_lt.mpr hlen), Run.ok_bind, slice_header h, Run.ok_bind,
    failIf_false _ (by simp [hend]), Run.ok_bind, hsize, Run.ok_bind, Run.bind_eq_ok]
  simp only [parse_sizeField, index_typeflag h512, hname, Run.ok_bind, Run.bind_eq_ok, failIf_eq_ok, Run.pure_eq,
    Except.ok.injEq]
  refine exists_congr fun size => and_congr_right fun _ => ?_
  rw [← containsPathTraversal_fromUtf8Lossy]
  constructor
  · rintro ⟨-, htraverses, -, hcontent, rfl⟩
    exact ⟨htraverses, Nat.le_of_not_lt hcontent, rfl⟩
  · rintro ⟨htraverses, hcontent, rfl⟩
    exact ⟨(), htraverses, (), Nat.not_lt.mpr hcontent, rfl⟩

end

/-! ## A member -/

section
variable (multiGzDecoder : Bytes → List Bytes × Option String) (nested : Bytes → Run ZiftError (List CompressedBlock))
variable {tarData header : Bytes} {s : TarWalk} {pos size : Nat}

theorem slice_content (h : pos + tarBlockSize + size ≤ tarData.length) :
    (slice tarData (pos + tarBlockSize) (pos + tarBlockSize + size) : Run ZiftError Bytes) =
      .ok (contentAt tarData pos size) := by
  rw [slice_eq_ok, Nat.add_sub_cancel_left]
  exact ⟨⟨Nat.le_add_right _ _, h⟩, rfl⟩

/-- What a regular member adds to the blocks and to their total; another adds nothing. -/
def memberBlocks (tarData header : Bytes) (s : TarWalk) (size : Nat) :
    Run ZiftError (List CompressedBlock × Nat) :=
  if isRegularFile (typeflag header) then do
    let r ← addRegularFileBlocks multiGzDecoder nested tarData (headerOf header s.pos size) s.pos s.blocks s.totalLiterals
    pure r.2
  else pure (s.blocks, s.totalLiterals)

/-- **A turn at a header.** It leaves the loop with an error, or goes round again. -/
theorem memberTurn_eq_ok (h : headerAt tarData s.pos = some header) {turn : Turn TarWalk (List CompressedBlock)} :
    memberTurn multiGzDecoder nested tarData s = .ok turn ↔
      s.members < maxTarMembers ∧ ∃ size, memberSize header = some size ∧ ¬ Traverses (nameField header) ∧
        s.pos + tarBlockSize + size ≤ tarData.length ∧ isLink header = false ∧
        ∃ r, memberBlocks multiGzDecoder nested tarData header s size = .ok r ∧
          turn = .next ⟨nextMemberOffset s.pos size, s.members + 1, r.1, r.2⟩ := by
  obtain ⟨hlen, hend, -⟩ := headerAt_eq_some.mp h
  have hpos : s.pos < tarData.length := Nat.lt_of_lt_of_le (Nat.lt_add_of_pos_right (by decide)) hlen
  unfold memberTurn
  rw [if_pos hpos, Run.bind_eq_ok]
  simp only [failIf_eq_ok, exists_const, Nat.not_le]
  refine and_congr_right fun _ => ?_
  rw [failIf_false _ (Nat.not_lt.mpr hlen), Run.ok_bind, slice_header h, Run.ok_bind, if_neg (by simp [hend]),
    Run.bind_eq_ok]
  simp only [readTarMember_eq_ok h, Run.bind_eq_ok, failIf_eq_ok, exists_const]
  constructor
  · rintro ⟨m, ⟨size, hsize, htraverses, hcontent, rfl⟩, hsym, hhard, r, hr, hturn⟩
    refine ⟨size, hsize, htraverses, hcontent, ?_, r, ?_, (Except.ok.inj hturn).symm⟩
    · unfold isLink
      rw [Bool.or_eq_false_iff]
      exact ⟨Bool.eq_false_iff.mpr hsym, Bool.eq_false_iff.mpr hhard⟩
    · exact hr
  · rintro ⟨size, hsize, htraverses, hcontent, hlink, r, hr, rfl⟩
    unfold isLink at hlink
    rw [Bool.or_eq_false_iff] at hlink
    exact ⟨_, ⟨size, hsize, htraverses, hcontent, rfl⟩, Bool.eq_false_iff.mp hlink.1, Bool.eq_false_iff.mp hlink.2,
      r, hr, rfl⟩

theorem memberBlocks_opens {tarInner : Bytes} (hopens : Opens multiGzDecoder tarData s.pos header tarInner)
    (hsize : memberSize header = some size) (hcontent : s.pos + tarBlockSize + size ≤ tarData.length)
    {r : List CompressedBlock × Nat} (h : memberBlocks multiGzDecoder nested tarData header s size = .ok r) :
    ∃ found, nested tarInner = .ok found := by
  obtain ⟨hregular, size', hsize', hmagic, hdecompress, htar⟩ := hopens
  cases hsize.symm.trans hsize'
  unfold memberBlocks at h
  rw [if_pos hregular] at h
  obtain ⟨r', hadd, -⟩ := Run.bind_eq_ok.mp h
  unfold addRegularFileBlocks headerOf at hadd
  have hne : contentAt tarData s.pos size ≠ [] := by
    intro hnil
    rw [hnil] at hmagic
    cases hmagic
  simp only [slice_content hcontent, Run.ok_bind, if_pos (And.intro hne hmagic), hdecompress, htar, Run.pure_eq] at hadd
  obtain ⟨found, hfound, -⟩ := Run.bind_eq_ok.mp hadd
  exact ⟨found, hfound⟩

/-! ## The members of an accepted archive -/

theorem walk_visits {n : Nat} {blocks : List CompressedBlock} (hs : s.pos = 0)
    (h : loop (memberTurn multiGzDecoder nested tarData) n s = .ok blocks) (hm : MemberAt tarData pos header) :
    headerAt tarData pos = some header ∧
      ∃ n' s', s'.pos = pos ∧ loop (memberTurn multiGzDecoder nested tarData) (n' + 1) s' = .ok blocks := by
  induction hm with
  | first hheader =>
    obtain _ | n := n
    · cases h
    · exact ⟨hheader, n, s, hs, h⟩
  | @next pos size header header' _ hsize hheader' ih =>
    obtain ⟨hheader, n', s', rfl, hloop⟩ := ih
    rcases loop_ok_iff.mp hloop with hdone | ⟨t, hnext, hrest⟩
    · obtain ⟨-, _, -, -, -, -, _, -, hturn⟩ := (memberTurn_eq_ok multiGzDecoder nested hheader).mp hdone
      cases hturn
    · obtain ⟨-, size', hsize', -, -, -, r, -, hturn⟩ := (memberTurn_eq_ok multiGzDecoder nested hheader).mp hnext
      cases hsize.symm.trans hsize'
      cases hturn
      obtain _ | n' := n'
      · cases hrest
      · exact ⟨hheader', n', _, rfl, hrest⟩

/-- Every member of an accepted archive passes the checks, and what it opens is accepted. -/
theorem member_passes {fuel depth : Nat} {blocks : List CompressedBlock}
    (h : scanDecompressedTarGzArchive multiGzDecoder (fuel + 1) tarData depth = .ok blocks)
    (hm : MemberAt tarData pos header) : isLink header = false ∧ ¬ Traverses (nameField header) ∧
      ∀ tarInner, Opens multiGzDecoder tarData pos header tarInner →
        ∃ found, scanDecompressedTarGzArchive multiGzDecoder fuel tarInner (depth + 1) = .ok found := by
  unfold scanDecompressedTarGzArchive at h
  obtain ⟨-, -, h⟩ := Run.bind_eq_ok.mp h
  obtain ⟨hheader, n, s, rfl, hloop⟩ := walk_visits multiGzDecoder _ rfl h hm
  have hturn : ∃ turn, memberTurn multiGzDecoder
      (fun tarInner => scanDecompressedTarGzArchive multiGzDecoder fuel tarInner (depth + 1)) tarData s = .ok turn := by
    rcases loop_ok_iff.mp hloop with hdone | ⟨t, hnext, -⟩
    · exact ⟨_, hdone⟩
    · exact ⟨_, hnext⟩
  obtain ⟨turn, hturn⟩ := hturn
  obtain ⟨-, size, hsize, htraverses, hcontent, hlink, r, hr, -⟩ := (memberTurn_eq_ok _ _ hheader).mp hturn
  exact ⟨hlink, htraverses, fun tarInner hopens => memberBlocks_opens _ _ hopens hsize hcontent hr⟩

theorem depth_le {fuel depth : Nat} {blocks : List CompressedBlock}
    (h : scanDecompressedTarGzArchive multiGzDecoder fuel tarData depth = .ok blocks) : depth ≤ maxNestedDepth := by
  obtain _ | fuel := fuel
  · cases h
  unfold scanDecompressedTarGzArchive at h
  obtain ⟨_, hdepth, -⟩ := Run.bind_eq_ok.mp h
  exact Nat.le_of_not_lt ((failIf_eq_ok _ _).mp hdepth)

theorem nested_accepted {fuel depth levels : Nat} {blocks : List CompressedBlock} {inner : Bytes}
    (h : scanDecompressedTarGzArchive multiGzDecoder fuel tarData depth = .ok blocks)
    (hn : Nested multiGzDecoder tarData levels inner) :
    ∃ fuel' found, scanDecompressedTarGzArchive multiGzDecoder (fuel' + 1) inner (depth + levels) = .ok found := by
  induction hn with
  | root =>
    obtain _ | fuel := fuel
    · cases h
    · exact ⟨fuel, blocks, h⟩
  | member _ hm hopens ih =>
    obtain ⟨fuel', found, hfound⟩ := ih
    obtain ⟨found', hfound'⟩ := (member_passes multiGzDecoder hfound hm).2.2 _ hopens
    obtain _ | fuel' := fuel'
    · cases hfound'
    · exact ⟨fuel', found', hfound'⟩

end

end Ziftsieve.Tarball
