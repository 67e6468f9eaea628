import Ziftsieve.TarballSafe
import Ziftsieve.TarballSound

/-!
# The language of the archive scanner

An archive is its members and how it ends; a member is a file, or an archive
itself, and so on down. The scanner takes these archives within its limits, and
no other bytes.
-/

namespace Ziftsieve.Tarball

/-! ## Archives -/

/-- A member with its padding. One that is opened comes with the members in it, and with how it ends. -/
inductive Entry where
  | plain (header content padding : Bytes)
  | opened (header content padding : Bytes) (inner : List Entry) (ending : Bytes)

namespace Entry

def header : Entry → Bytes
  | plain header _ _ | opened header _ _ _ _ => header

def content : Entry → Bytes
  | plain _ content _ | opened _ content _ _ _ => content

def padding : Entry → Bytes
  | plain _ _ padding | opened _ _ padding _ _ => padding

def encode (e : Entry) : Bytes := e.header ++ (e.content ++ e.padding)

end Entry

def encodeEntries (es : List Entry) (ending : Bytes) : Bytes := es.flatMap Entry.encode ++ ending

/-- The block of a file whose header is at `offset`. -/
def fileBlock (offset : Nat) (content : Bytes) : CompressedBlock :=
  ⟨offset, content.length, some content.length, content⟩

mutual

def Entry.blocks : Nat → Entry → List CompressedBlock
  | offset, .plain header content _ => if isRegularFile (typeflag header) then [fileBlock offset content] else []
  | _, .opened _ _ _ inner _ => entriesBlocks 0 inner

/-- The blocks of a member that is opened are where they are in it. -/
def entriesBlocks : Nat → List Entry → List CompressedBlock
  | _, [] => []
  | offset, e :: es => e.blocks offset ++ entriesBlocks (offset + e.encode.length) es

end

mutual

def Entry.levels : Entry → Nat
  | .plain _ _ _ => 0
  | .opened _ _ _ inner _ => levelsOf inner + 1

def levelsOf : List Entry → Nat
  | [] => 0
  | e :: es => max e.levels (levelsOf es)

end

/-! ## What is accepted -/

/-- Padding fills the last block, but the bytes may end in that of the last member. -/
def Padded : List Entry → Bytes → Prop
  | [], _ => True
  | e :: es, ending => (e.encode.length = nextMemberOffset 0 e.content.length ∨
      es = [] ∧ ending = [] ∧ e.encode.length ≤ nextMemberOffset 0 e.content.length) ∧ Padded es ending

/-- An archive ends with its bytes, or with a block of zeros and anything after it. -/
structure Laid (es : List Entry) (ending : Bytes) : Prop where
  padded : Padded es ending
  ends : ending = [] ∨ List.replicate tarBlockSize 0 <+: ending
  few : es.length + (if ending = [] then 0 else 1) ≤ maxTarMembers

structure Walkable (header content : Bytes) : Prop where
  length_header : header.length = tarBlockSize
  not_end : isEndOfArchiveBlock header = false
  size : memberSize header = some content.length
  inside : ¬ Traverses (nameField header)
  no_link : isLink header = false

section
variable (multiGzDecoder : Bytes → List Bytes × Option String)

def OpensTo (content inner : Bytes) : Prop :=
  gzipMagic <+: content ∧ decompressGzipMembers multiGzDecoder content = .ok inner ∧
    firstTarBlockHasUstarMagic inner = .ok true

/-- What begins like a gzip stream and is no archive has to decompress all the same. -/
def StaysShut (content : Bytes) : Prop :=
  gzipMagic <+: content → ∃ inner, decompressGzipMembers multiGzDecoder content = .ok inner ∧
    firstTarBlockHasUstarMagic inner = .ok false

mutual

def Entry.Legal : Entry → Prop
  | .plain header content _ => Walkable header content ∧
      (isRegularFile (typeflag header) = true → StaysShut multiGzDecoder content)
  | .opened header content _ inner ending => Walkable header content ∧
      isRegularFile (typeflag header) = true ∧ OpensTo multiGzDecoder content (encodeEntries inner ending) ∧
      Laid inner ending ∧ LegalAll inner

def LegalAll : List Entry → Prop
  | [] => True
  | e :: es => e.Legal ∧ LegalAll es

end

/-- The archives that are accepted this many levels down. -/
structure Accepted (depth : Nat) (es : List Entry) (ending : Bytes) : Prop where
  laid : Laid es ending
  legal : LegalAll multiGzDecoder es
  levels_le : depth + levelsOf es ≤ maxNestedDepth
  literals_le : literalTotal (entriesBlocks 0 es) ≤ maxTarballBytes

end

/-! ## A turn -/

section
variable (multiGzDecoder : Bytes → List Bytes × Option String) (nested : Bytes → Run ZiftError (List CompressedBlock))
variable {tarData header content : Bytes} {s : TarWalk}

/-- What a member adds to a walk: nothing, itself, or what is in it. -/
inductive Adds (header content : Bytes) (s : TarWalk) : List CompressedBlock × Nat → Prop
  | nothing : isRegularFile (typeflag header) = false → Adds header content s (s.blocks, s.totalLiterals)
  | file : isRegularFile (typeflag header) = true → StaysShut multiGzDecoder content →
      s.totalLiterals + content.length ≤ maxTarballBytes →
      Adds header content s (s.blocks ++ [fileBlock s.pos content], s.totalLiterals + content.length)
  | archive {inner : Bytes} {found : List CompressedBlock} : isRegularFile (typeflag header) = true →
      OpensTo multiGzDecoder content inner → nested inner = .ok found →
      s.totalLiterals + literalTotal found ≤ maxTarballBytes →
      Adds header content s (s.blocks ++ found, s.totalLiterals + literalTotal found)

theorem magic_iff : (content ≠ [] ∧ content.take 2 = gzipMagic) ↔ gzipMagic <+: content := by
  rw [List.prefix_iff_eq_take]
  constructor
  · rintro ⟨-, h⟩
    exact h.symm
  · intro h
    refine ⟨?_, h.symm⟩
    rintro rfl
    cases h

theorem memberBlocks_eq_ok {r : List CompressedBlock × Nat}
    (hcontent : contentAt tarData s.pos content.length = content)
    (hlen : s.pos + tarBlockSize + content.length ≤ tarData.length) :
    memberBlocks multiGzDecoder nested tarData header s content.length = .ok r ↔
      Adds multiGzDecoder nested header content s r := by
  unfold memberBlocks addRegularFileBlocks headerOf
  simp only [slice_content hlen, hcontent, Run.ok_bind, magic_iff, Run.pure_eq]
  constructor
  · intro h
    by_cases hregular : isRegularFile (typeflag header) = true
    · rw [if_pos hregular] at h
      obtain ⟨r', h, hr⟩ := Run.bind_eq_ok.mp h
      obtain ⟨inner, hinner, h⟩ := Run.bind_eq_ok.mp h
      cases hr
      cases inner with
      | none =>
        obtain ⟨_, -, h⟩ := Run.bind_eq_ok.mp h
        obtain ⟨_, hmax, h⟩ := Run.bind_eq_ok.mp h
        rw [failIf_eq_ok] at hmax
        cases h
        refine .file hregular (fun hmagic => ?_) (Nat.le_of_not_lt hmax)
        rw [if_pos hmagic] at hinner
        obtain ⟨tarInner, hdecompress, hinner⟩ := Run.bind_eq_ok.mp hinner
        obtain ⟨isTar, htar, hinner⟩ := Run.bind_eq_ok.mp hinner
        cases isTar with
        | false => exact ⟨tarInner, hdecompress, htar⟩
        | true => cases hinner
      | some tarInner =>
        obtain ⟨found, hfound, h⟩ := Run.bind_eq_ok.mp h
        obtain ⟨_, hmax, h⟩ := Run.bind_eq_ok.mp h
        rw [failIf_eq_ok] at hmax
        cases h
        by_cases hmagic : gzipMagic <+: content
        · rw [if_pos hmagic] at hinner
          obtain ⟨tarInner', hdecompress, hinner⟩ := Run.bind_eq_ok.mp hinner
          obtain ⟨isTar, htar, hinner⟩ := Run.bind_eq_ok.mp hinner
          cases isTar with
          | false => cases hinner
          | true =>
            cases hinner
            exact .archive hregular ⟨hmagic, hdecompress, htar⟩ hfound (Nat.le_of_not_lt hmax)
        · rw [if_neg hmagic] at hinner
          cases hinner
    · rw [if_neg hregular] at h
      cases h
      exact .nothing (Bool.eq_false_iff.mpr hregular)
  · intro h
    cases h with
    | nothing hregular => rw [if_neg (by simp [hregular])]
    | file hregular hshut hmax =>
      have hsmall : ¬ content.length > 2 ^ 32 - 1 := by
        unfold maxTarballBytes at hmax
        omega
      rw [if_pos hregular]
      by_cases hmagic : gzipMagic <+: content
      · obtain ⟨inner, hdecompress, htar⟩ := hshut hmagic
        rw [if_pos hmagic, hdecompress, Run.ok_bind, htar, Run.ok_bind]
        simp only [Bool.false_eq_true, if_false, Run.ok_bind]
        rw [failIf_false _ hsmall, Run.ok_bind, failIf_false _ (Nat.not_lt.mpr hmax), Run.ok_bind, Run.ok_bind]
        rfl
      · rw [if_neg hmagic, Run.ok_bind]
        simp only
        rw [failIf_false _ hsmall, Run.ok_bind, failIf_false _ (Nat.not_lt.mpr hmax), Run.ok_bind, Run.ok_bind]
        rfl
    | archive hregular hopens hfound hmax =>
      obtain ⟨hmagic, hdecompress, htar⟩ := hopens
      unfold literalTotal at hmax
      rw [if_pos hregular, if_pos hmagic, hdecompress, Run.ok_bind, htar, Run.ok_bind]
      simp only [if_true, Run.ok_bind, hfound]
      rw [failIf_false _ (Nat.not_lt.mpr hmax), Run.ok_bind, Run.ok_bind]
      rfl

/-- A turn stops at the end, or passes a member that can be walked over. -/
theorem memberTurn_inv {ys : Bytes} {turn : Turn TarWalk (List CompressedBlock)} (hat : At tarData s.pos ys)
    (h : memberTurn multiGzDecoder nested tarData s = .ok turn) :
    (turn = .done s.blocks ∧ (ys = [] ∨ List.replicate tarBlockSize 0 <+: ys ∧ s.members < maxTarMembers)) ∨
      ∃ header content rest r, ys = header ++ (content ++ rest) ∧ Walkable header content ∧
        s.members < maxTarMembers ∧ Adds multiGzDecoder nested header content s r ∧
        turn = .next ⟨nextMemberOffset s.pos content.length, s.members + 1, r.1, r.2⟩ := by
  have hl := hat.length
  cases hheader : headerAt tarData s.pos with
  | some header =>
    right
    obtain ⟨hlen, hend, htake⟩ := headerAt_eq_some.mp hheader
    obtain ⟨hmembers, size, hsize, hinside, hcontent, hlink, r, hr, rfl⟩ := (memberTurn_eq_ok _ _ hheader).mp h
    have hys : ys = header ++ ((ys.drop tarBlockSize).take size ++ (ys.drop tarBlockSize).drop size) := by
      rw [List.take_append_drop, ← htake, hat.drop, List.take_append_drop]
    have htaken : contentAt tarData s.pos size = (ys.drop tarBlockSize).take size := by
      unfold contentAt
      rw [← List.drop_drop, hat.drop]
    have hsized : ((ys.drop tarBlockSize).take size).length = size := by
      rw [List.length_take, List.length_drop]
      omega
    rw [← hsized] at hsize hcontent hr
    rw [← hsized] at htaken
    refine ⟨header, _, _, r, hys, ⟨length_header hheader, hend, hsize, hinside, hlink⟩, hmembers, ?_, ?_⟩
    · rw [hsized] at htaken
      exact (memberBlocks_eq_ok _ _ (by rw [hsized, htaken]) hcontent).mp hr
    · rw [hsized]
  | none =>
    left
    unfold memberTurn at h
    by_cases hpos : s.pos < tarData.length
    · rw [if_pos hpos] at h
      obtain ⟨_, hmembers, h⟩ := Run.bind_eq_ok.mp h
      obtain ⟨_, hlen, h⟩ := Run.bind_eq_ok.mp h
      obtain ⟨header, hslice, h⟩ := Run.bind_eq_ok.mp h
      rw [failIf_eq_ok] at hmembers hlen
      obtain ⟨-, hdrop⟩ := slice_eq_ok.mp hslice
      rw [Nat.add_sub_cancel_left] at hdrop
      have hend : isEndOfArchiveBlock header = true := by
        by_contra hmore
        rw [headerAt_eq_some.mpr ⟨Nat.le_of_not_lt hlen, Bool.eq_false_iff.mpr hmore, hdrop⟩] at hheader
        cases hheader
      rw [if_pos hend] at h
      cases h
      refine ⟨rfl, .inr ⟨?_, Nat.lt_of_not_le hmembers⟩⟩
      have hzeros : header = List.replicate tarBlockSize 0 := by
        rw [List.eq_replicate_iff]
        refine ⟨?_, fun b hb => ?_⟩
        · rw [← hdrop, List.length_take, List.length_drop]
          omega
        · simpa using List.all_eq_true.mp hend b hb
      rw [← hzeros, ← hdrop, hat.drop]
      exact List.take_prefix _ _
    · rw [if_neg hpos] at h
      cases h
      exact ⟨rfl, .inl (List.eq_nil_of_length_eq_zero (by omega))⟩

theorem memberTurn_walkable {rest : Bytes} {r : List CompressedBlock × Nat} (hw : Walkable header content)
    (hat : At tarData s.pos (header ++ (content ++ rest))) (hmembers : s.members < maxTarMembers)
    (hadds : Adds multiGzDecoder nested header content s r) : memberTurn multiGzDecoder nested tarData s =
      .ok (.next ⟨nextMemberOffset s.pos content.length, s.members + 1, r.1, r.2⟩) := by
  have hl := hat.length
  have hsize := hw.length_header
  rw [List.length_append, List.length_append] at hl
  have hheader : headerAt tarData s.pos = some header := by
    refine headerAt_eq_some.mpr ⟨by omega, hw.not_end, ?_⟩
    rw [hat.drop]
    exact List.take_left' hsize
  have hcontent : contentAt tarData s.pos content.length = content := by
    unfold contentAt
    rw [← hsize, hat.skip.drop]
    exact List.take_left
  have hlen : s.pos + tarBlockSize + content.length ≤ tarData.length := by omega
  refine (memberTurn_eq_ok _ _ hheader).mpr ⟨hmembers, content.length, hw.size, hw.inside, hlen, hw.no_link, r, ?_, rfl⟩
  exact (memberBlocks_eq_ok _ _ hcontent hlen).mpr hadds

theorem memberTurn_past (hpos : tarData.length ≤ s.pos) :
    memberTurn multiGzDecoder nested tarData s = .ok (.done s.blocks) := by
  unfold memberTurn
  rw [if_neg (Nat.not_lt.mpr hpos)]
  rfl

end

/-! ## A walk -/

section
variable {multiGzDecoder : Bytes → List Bytes × Option String} {nested : Bytes → Run ZiftError (List CompressedBlock)}
variable {tarData header content ys : Bytes} {s : TarWalk} {depth : Nat} {bs : List CompressedBlock}

/-- What walks the archives of a level takes those that are accepted there. -/
def Takes (multiGzDecoder : Bytes → List Bytes × Option String) (depth : Nat)
    (nested : Bytes → Run ZiftError (List CompressedBlock)) : Prop :=
  ∀ inner found, nested inner = .ok found ↔ ∃ es ending, Accepted multiGzDecoder depth es ending ∧
    encodeEntries es ending = inner ∧ entriesBlocks 0 es = found

theorem literalTotal_fileBlock (offset : Nat) (content : Bytes) :
    literalTotal [fileBlock offset content] = content.length := by
  rw [literalTotal, List.map_singleton, List.sum_singleton, fileBlock]

theorem Adds.entry (hn : Takes multiGzDecoder (depth + 1) nested) (hdepth : depth ≤ maxNestedDepth)
    (htotal : s.totalLiterals ≤ maxTarballBytes) (hw : Walkable header content) {r : List CompressedBlock × Nat}
    (h : Adds multiGzDecoder nested header content s r) (padding : Bytes) :
    ∃ e : Entry, e.encode = header ++ (content ++ padding) ∧ e.content = content ∧ e.Legal multiGzDecoder ∧
      depth + e.levels ≤ maxNestedDepth ∧ r.1 = s.blocks ++ e.blocks s.pos ∧
      r.2 = s.totalLiterals + literalTotal (e.blocks s.pos) ∧ r.2 ≤ maxTarballBytes := by
  cases h with
  | nothing hregular =>
    refine ⟨.plain header content padding, rfl, rfl, ⟨hw, fun h => ?_⟩, hdepth, ?_⟩
    · rw [hregular] at h
      cases h
    · simp [Entry.blocks, hregular, literalTotal, htotal]
  | file hregular hshut hmax =>
    refine ⟨.plain header content padding, rfl, rfl, ⟨hw, fun _ => hshut⟩, hdepth, ?_⟩
    rw [Entry.blocks, if_pos hregular, literalTotal_fileBlock]
    exact ⟨rfl, rfl, hmax⟩
  | archive hregular hopens hfound hmax =>
    obtain ⟨es, ending, ha, rfl, rfl⟩ := (hn _ _).mp hfound
    have hlevels := ha.levels_le
    refine ⟨.opened header content padding es ending, rfl, rfl, ⟨hw, hregular, hopens, ha.laid, ha.legal⟩, ?_, ?_⟩
    · rw [Entry.levels]
      omega
    · rw [Entry.blocks]
      exact ⟨rfl, rfl, hmax⟩

theorem Entry.adds {e : Entry} (hn : Takes multiGzDecoder (depth + 1) nested) (h : e.Legal multiGzDecoder)
    (hlevels : depth + e.levels ≤ maxNestedDepth)
    (htotal : s.totalLiterals + literalTotal (e.blocks s.pos) ≤ maxTarballBytes) :
    Walkable e.header e.content ∧ Adds multiGzDecoder nested e.header e.content s
      (s.blocks ++ e.blocks s.pos, s.totalLiterals + literalTotal (e.blocks s.pos)) := by
  cases e with
  | plain header content padding =>
    obtain ⟨hw, hshut⟩ := h
    refine ⟨hw, ?_⟩
    rw [Entry.blocks] at htotal ⊢
    by_cases hregular : isRegularFile (typeflag header) = true
    · rw [if_pos hregular, literalTotal_fileBlock] at htotal ⊢
      exact .file hregular (hshut hregular) htotal
    · rw [if_neg hregular, List.append_nil]
      exact .nothing (Bool.eq_false_iff.mpr hregular)
  | opened header content padding inner ending =>
    obtain ⟨hw, hregular, hopens, hlaid, hlegal⟩ := h
    rw [Entry.levels] at hlevels
    rw [Entry.blocks] at htotal ⊢
    refine ⟨hw, .archive hregular hopens ((hn _ _).mpr ⟨inner, ending, ?_, rfl, rfl⟩) htotal⟩
    exact ⟨hlaid, hlegal, by omega, Nat.le_of_add_left_le htotal⟩

/-- The rest of an archive, from where a walk of it stands. -/
structure Onward (multiGzDecoder : Bytes → List Bytes × Option String) (depth : Nat) (s : TarWalk) (es : List Entry)
    (ending : Bytes) : Prop where
  padded : Padded es ending
  ends : ending = [] ∨ List.replicate tarBlockSize 0 <+: ending
  few : s.members + es.length + (if ending = [] then 0 else 1) ≤ maxTarMembers
  legal : LegalAll multiGzDecoder es
  levels_le : depth + levelsOf es ≤ maxNestedDepth
  literals_le : s.totalLiterals + literalTotal (entriesBlocks s.pos es) ≤ maxTarballBytes

theorem loop_past {n : Nat} (hpos : tarData.length ≤ s.pos)
    (h : loop (memberTurn multiGzDecoder nested tarData) n s = .ok bs) : bs = s.blocks := by
  obtain _ | n := n
  · cases h
  · rw [loop_done (memberTurn_past _ _ hpos)] at h
    cases h
    rfl

theorem Onward.nil {ending : Bytes} (hdepth : depth ≤ maxNestedDepth) (htotal : s.totalLiterals ≤ maxTarballBytes)
    (hends : ending = [] ∨ List.replicate tarBlockSize 0 <+: ending)
    (hfew : s.members + (if ending = [] then 0 else 1) ≤ maxTarMembers) :
    Onward multiGzDecoder depth s [] ending where
  padded := trivial
  ends := hends
  few := hfew
  legal := trivial
  levels_le := hdepth
  literals_le := htotal

theorem onward_cons {e : Entry} {es : List Entry} {ending : Bytes} (blocks : List CompressedBlock) :
    Onward multiGzDecoder depth s (e :: es) ending ↔
      (e.encode.length = nextMemberOffset 0 e.content.length ∨
        es = [] ∧ ending = [] ∧ e.encode.length ≤ nextMemberOffset 0 e.content.length) ∧
      e.Legal multiGzDecoder ∧ depth + e.levels ≤ maxNestedDepth ∧
      Onward multiGzDecoder depth ⟨s.pos + e.encode.length, s.members + 1, blocks,
        s.totalLiterals + literalTotal (e.blocks s.pos)⟩ es ending := by
  constructor
  · rintro ⟨⟨hpad, hpadded⟩, hends, hfew, ⟨hlegal, hlegals⟩, hlevels, hlits⟩
    rw [levelsOf] at hlevels
    rw [entriesBlocks, literalTotal_append] at hlits
    rw [List.length_cons] at hfew
    refine ⟨hpad, hlegal, by omega, hpadded, hends, ?_, hlegals, by omega, ?_⟩
    · dsimp only
      omega
    · dsimp only
      omega
  · rintro ⟨hpad, hlegal, hlevels, hpadded, hends, hfew, hlegals, hlevels', hlits⟩
    dsimp only at hfew hlits
    refine ⟨⟨hpad, hpadded⟩, hends, ?_, ⟨hlegal, hlegals⟩, ?_, ?_⟩
    · rw [List.length_cons]
      omega
    · rw [levelsOf]
      omega
    · rw [entriesBlocks, literalTotal_append]
      omega

theorem encodeEntries_cons (e : Entry) (es : List Entry) (ending : Bytes) :
    encodeEntries (e :: es) ending = e.encode ++ encodeEntries es ending := by
  unfold encodeEntries
  rw [List.flatMap_cons, List.append_assoc]

theorem walk_sound (hn : Takes multiGzDecoder (depth + 1) nested) (hdepth : depth ≤ maxNestedDepth) :
    ∀ (n : Nat) {s : TarWalk} {ys : Bytes}, At tarData s.pos ys → s.members ≤ maxTarMembers →
    s.totalLiterals ≤ maxTarballBytes → loop (memberTurn multiGzDecoder nested tarData) n s = .ok bs →
    ∃ es ending, encodeEntries es ending = ys ∧ Onward multiGzDecoder depth s es ending ∧
      bs = s.blocks ++ entriesBlocks s.pos es
  | 0, _, _, _, _, _, h => by cases h
  | n + 1, s, ys, hat, hmembers, htotal, h => by
    rw [loop] at h
    obtain ⟨turn, hturn, h⟩ := Run.bind_eq_ok.mp h
    rcases memberTurn_inv _ _ hat hturn with ⟨rfl, hend⟩ | ⟨header, content, rest, r, rfl, hw, hfew, hadds, rfl⟩
    · cases h
      refine ⟨[], ys, rfl, Onward.nil hdepth htotal ?_ ?_, (List.append_nil _).symm⟩
      · exact hend.imp id And.left
      · rcases hend with rfl | ⟨-, hfew⟩
        · simpa using hmembers
        · split
          · exact hmembers
          · exact hfew
    · have hl := hat.length
      have hsize := hw.length_header
      rw [List.length_append, List.length_append] at hl
      have hnext := nextMemberOffset_eq s.pos content.length
      have hle := le_nextMemberOffset 0 content.length
      obtain ⟨gap, hgap⟩ := Nat.exists_eq_add_of_le hle
      obtain ⟨e, hencode, rfl, hlegal, hlevels, hr, hr', hmax⟩ := hadds.entry hn hdepth htotal hw (rest.take gap)
      have hys : header ++ (e.content ++ rest) = e.encode ++ rest.drop gap := by
        rw [hencode, List.append_assoc, List.append_assoc, List.take_append_drop]
      have hlen : e.encode.length = tarBlockSize + (e.content.length + min gap rest.length) := by
        rw [hencode, List.length_append, List.length_append, List.length_take, hsize]
      by_cases hwhole : gap ≤ rest.length
      · have hat' : At tarData (nextMemberOffset s.pos e.content.length) (rest.drop gap) := by
          rw [hys] at hat
          have hskip := hat.skip
          rwa [show s.pos + e.encode.length = nextMemberOffset s.pos e.content.length by omega] at hskip
        obtain ⟨es, ending, hrest, hon, rfl⟩ := walk_sound hn hdepth n
          (s := ⟨nextMemberOffset s.pos e.content.length, s.members + 1, r.1, r.2⟩) hat' hfew hmax h
        refine ⟨e :: es, ending, ?_, ?_, ?_⟩
        · rw [hys, encodeEntries_cons, hrest]
        · refine (onward_cons r.1).mpr ⟨.inl (by omega), hlegal, hlevels, ?_⟩
          rwa [hr', show nextMemberOffset s.pos e.content.length = s.pos + e.encode.length by omega] at hon
        · rw [entriesBlocks, ← List.append_assoc, ← hr,
            show s.pos + e.encode.length = nextMemberOffset s.pos e.content.length by omega]
      · have hpast := loop_past (s := ⟨_, _, _, _⟩) (by dsimp only; omega) h
        have hnil : rest.drop gap = [] := List.drop_eq_nil_of_le (by omega)
        refine ⟨[e], [], ?_, (onward_cons []).mpr ⟨.inr ⟨rfl, rfl, by omega⟩, hlegal, hlevels, ?_⟩, ?_⟩
        · rw [hys, hnil, encodeEntries_cons]
          rfl
        · exact Onward.nil hdepth (by rw [← hr']; exact hmax) (.inl rfl) hfew
        · rw [hpast, hr, entriesBlocks, entriesBlocks, List.append_nil]

theorem walk_complete (hn : Takes multiGzDecoder (depth + 1) nested) : ∀ {es : List Entry} {ending : Bytes} {n : Nat}
    {s : TarWalk}, Onward multiGzDecoder depth s es ending → At tarData s.pos (encodeEntries es ending) → es.length < n →
    loop (memberTurn multiGzDecoder nested tarData) n s = .ok (s.blocks ++ entriesBlocks s.pos es)
  | _, _, 0, _, _, _, hfuel => absurd hfuel (Nat.not_lt_zero _)
  | [], ending, n + 1, s, h, hat, _ => by
    rw [entriesBlocks, List.append_nil]
    rcases h.ends with rfl | ⟨rest, rfl⟩
    · have hl := hat.length
      exact loop_done (memberTurn_past _ _ (Nat.le_of_eq hl.symm))
    · have hfew := h.few
      have hne : List.replicate tarBlockSize 0 ++ rest ≠ [] :=
        List.ne_nil_of_length_pos (by rw [List.length_append, List.length_replicate]; exact Nat.add_pos_left (by decide) _)
      rw [if_neg hne] at hfew
      exact loop_done (memberTurn_end _ _ hat hfew)
  | e :: es, ending, n + 1, s, h, hat, hfuel => by
    obtain ⟨hpad, hlegal, hlevels, hrest⟩ := (onward_cons (s.blocks ++ e.blocks s.pos)).mp h
    have htotal := hrest.literals_le
    have hfew := hrest.few
    dsimp only at htotal hfew
    obtain ⟨hw, hadds⟩ := Entry.adds hn hlegal hlevels (Nat.le_trans (Nat.le_add_right _ _) htotal)
    rw [encodeEntries_cons] at hat
    have hat' : At tarData s.pos (e.header ++ (e.content ++ (e.padding ++ encodeEntries es ending))) := by
      rw [← List.append_assoc e.content, ← List.append_assoc e.header]
      exact hat
    rw [loop_next (memberTurn_walkable _ _ hw hat' (by omega) hadds), entriesBlocks, ← List.append_assoc]
    have hnext := nextMemberOffset_eq s.pos e.content.length
    rcases hpad with hpad | ⟨rfl, rfl, hpad⟩
    · rw [hnext, ← hpad]
      exact walk_complete hn hrest hat.skip (Nat.lt_of_succ_lt_succ hfuel)
    · obtain _ | n := n
      · exact absurd hfuel (Nat.lt_irrefl _)
      · have hl := hat.skip.length
        rw [show encodeEntries [] [] = [] from rfl, List.length_nil] at hl
        rw [loop_done (memberTurn_past _ _ (by dsimp only; omega)), entriesBlocks, List.append_nil]

theorem length_le_encodeEntries {es : List Entry} {ending : Bytes} (h : LegalAll multiGzDecoder es) :
    es.length ≤ (encodeEntries es ending).length := by
  induction es with
  | nil => exact Nat.zero_le _
  | cons e es ih =>
    obtain ⟨hlegal, hlegals⟩ := h
    have hheader : e.header.length = tarBlockSize := by
      cases e with
      | plain => exact hlegal.1.length_header
      | opened => exact hlegal.1.length_header
    have hrest := ih hlegals
    unfold tarBlockSize at hheader
    rw [encodeEntries_cons, List.length_append, Entry.encode, List.length_append, List.length_cons]
    omega

/-- By induction on the fuel, which the depth uses up. -/
theorem scan_takes (multiGzDecoder : Bytes → List Bytes × Option String) : ∀ (fuel depth : Nat),
    maxNestedDepth < depth + fuel →
    Takes multiGzDecoder depth fun tarData => scanDecompressedTarGzArchive multiGzDecoder fuel tarData depth
  | 0, depth, hfuel, tarData, bs => by
    constructor
    · intro h
      cases h
    · rintro ⟨es, ending, h, -⟩
      have hlevels := h.levels_le
      omega
  | fuel + 1, depth, hfuel, tarData, bs => by
    have hn := scan_takes multiGzDecoder fuel (depth + 1) (by omega)
    change scanDecompressedTarGzArchive multiGzDecoder (fuel + 1) tarData depth = .ok bs ↔ _
    unfold scanDecompressedTarGzArchive
    by_cases hdepth : depth > maxNestedDepth
    · rw [failIf_true _ hdepth]
      constructor
      · intro h
        cases h
      · rintro ⟨es, ending, h, -⟩
        have hlevels := h.levels_le
        omega
    · rw [failIf_false _ hdepth, Run.ok_bind]
      constructor
      · intro h
        obtain ⟨es, ending, hencode, hon, rfl⟩ := walk_sound hn (Nat.le_of_not_lt hdepth) _
          (s := ⟨0, 0, [], 0⟩) (At.start tarData) (Nat.zero_le _) (Nat.zero_le _) h
        have hfew := hon.few
        have hlits := hon.literals_le
        dsimp only at hfew hlits
        rw [Nat.zero_add] at hfew hlits
        exact ⟨es, ending, ⟨⟨hon.padded, hon.ends, hfew⟩, hon.legal, hon.levels_le, hlits⟩, hencode, rfl⟩
      · rintro ⟨es, ending, h, rfl, rfl⟩
        have hlaid := h.laid
        have hon : Onward multiGzDecoder depth ⟨0, 0, [], 0⟩ es ending :=
          ⟨hlaid.padded, hlaid.ends, by simpa using hlaid.few, h.legal, h.levels_le, by simpa using h.literals_le⟩
        exact walk_complete hn hon (At.start _) (Nat.lt_succ_of_le (length_le_encodeEntries h.legal))

end

/-- **The archive scanner accepts exactly its language.** A gzip stream is accepted when what it decompresses to is an
archive within the limits, with archives in it on no more levels than five, and never otherwise; the blocks that come
out are those of the files, in order, each where it is in the archive that it is in. -/
theorem scanTarballLiterals_accepts_iff (multiGzDecoder : Bytes → List Bytes × Option String) (data : Bytes)
    (blocks : List CompressedBlock) :
    scanTarballLiterals multiGzDecoder data = .ok blocks ↔ gzipMagic <+: data ∧ ∃ es ending,
      Accepted multiGzDecoder 0 es ending ∧ decompressGzipMembers multiGzDecoder data = .ok (encodeEntries es ending) ∧
      entriesBlocks 0 es = blocks := by
  have hscan := scan_takes multiGzDecoder scanFuel 0 (by decide)
  have hmagic : (data.length < 2 ∨ data.take 2 ≠ gzipMagic) ↔ ¬ gzipMagic <+: data := by
    rw [← magic_iff]
    constructor
    · rintro (hlen | hne) ⟨-, htake⟩
      · have htaken := congrArg List.length htake
        rw [List.length_take, show gzipMagic.length = 2 from rfl] at htaken
        omega
      · exact hne htake
    · intro h
      refine .inr fun htake => h ⟨?_, htake⟩
      rintro rfl
      cases htake
  unfold scanTarballLiterals scanTarballLiteralsWithDepth
  rw [failIf_false _ (by decide), Run.ok_bind, Run.bind_eq_ok]
  simp only [failIf_eq_ok, exists_const, hmagic, not_not]
  refine and_congr_right fun _ => ?_
  constructor
  · intro h
    obtain ⟨tarData, hdecompress, h⟩ := Run.bind_eq_ok.mp h
    by_cases hnil : tarData = []
    · rw [if_pos hnil] at h
      cases h
      have hempty : Accepted multiGzDecoder 0 [] [] :=
        ⟨⟨trivial, .inl rfl, Nat.zero_le _⟩, trivial, Nat.zero_le _, Nat.zero_le _⟩
      exact ⟨[], [], hempty, by rw [hdecompress, hnil]; rfl, rfl⟩
    · rw [if_neg hnil] at h
      obtain ⟨es, ending, haccepted, rfl, rfl⟩ := (hscan tarData blocks).mp h
      exact ⟨es, ending, haccepted, hdecompress, rfl⟩
  · rintro ⟨es, ending, haccepted, hdecompress, rfl⟩
    rw [hdecompress, Run.ok_bind]
    by_cases hnil : encodeEntries es ending = []
    · have hes : es = [] := by
        have hlen : es.length ≤ (encodeEntries es ending).length := length_le_encodeEntries haccepted.legal
        rw [hnil] at hlen
        exact List.eq_nil_of_length_eq_zero (Nat.le_zero.mp hlen)
      rw [if_pos hnil, hes]
      rfl
    · rw [if_neg hnil]
      exact (hscan _ _).mpr ⟨es, ending, haccepted, rfl, rfl⟩

end Ziftsieve.Tarball
