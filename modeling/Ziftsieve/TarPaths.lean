import Ziftsieve.TarWalkSound

/-!
# The paths of walked members

The walk checks the name field. A ustar header may put a path's first components in
its prefix field, which the walk does not read.
-/

namespace Ziftsieve.Tarball

theorem traverses_ustarPath {header : Bytes} (hname : ¬ Traverses (nameField header)) :
    Traverses (ustarPath header) ↔ hasUstarMagic header = true ∧ Traverses (prefixField header) := by
  unfold ustarPath
  by_cases h : hasUstarMagic header = true ∧ prefixField header ≠ []
  · rw [if_pos h]
    unfold Traverses at hname ⊢
    rw [mem_splitOn_append_cons, or_iff_left hname]
    exact (and_iff_right h.1).symm
  · rw [if_neg h]
    apply iff_of_false hname
    rintro ⟨hmagic, hprefix⟩
    have hnil : prefixField header = [] := Classical.byContradiction fun hne => h ⟨hmagic, hne⟩
    rw [hnil] at hprefix
    exact absurd hprefix (by decide)

/-- **The paths of the members walked.** None in an accepted archive, or in an archive
within it, goes through `..` exactly when no prefix field does. -/
theorem walked_paths_iff {multiGzDecoder : Bytes → List Bytes × Option String} {fuel depth : Nat} {tarData : Bytes}
    {blocks : List CompressedBlock}
    (h : scanDecompressedTarGzArchive multiGzDecoder fuel tarData depth = .ok blocks) :
    (∀ levels inner pos header, Nested multiGzDecoder tarData levels inner → MemberAt inner pos header →
      ¬ Traverses (ustarPath header)) ↔
    ∀ levels inner pos header, Nested multiGzDecoder tarData levels inner → MemberAt inner pos header →
      hasUstarMagic header = true → ¬ Traverses (prefixField header) := by
  have hmember : ∀ levels inner pos header, Nested multiGzDecoder tarData levels inner → MemberAt inner pos header →
      (Traverses (ustarPath header) ↔ hasUstarMagic header = true ∧ Traverses (prefixField header)) := by
    intro levels inner pos header hn hm
    obtain ⟨fuel', found, hfound⟩ := nested_accepted multiGzDecoder h hn
    exact traverses_ustarPath (member_passes multiGzDecoder hfound hm).2.1
  constructor
  · intro hpaths levels inner pos header hn hm hmagic hprefix
    exact hpaths levels inner pos header hn hm ((hmember levels inner pos header hn hm).mpr ⟨hmagic, hprefix⟩)
  · intro hprefixes levels inner pos header hn hm htraverses
    obtain ⟨hmagic, hprefix⟩ := (hmember levels inner pos header hn hm).mp htraverses
    exact hprefixes levels inner pos header hn hm hmagic hprefix

/-- An empty file whose prefix field is `..`. -/
def outsideHeader : Bytes := buildHeader [0x61] (octalDigits 11 0 ++ [0]) 0x30 ustarMagic parentDir

/-- An empty file whose prefix field is `d`. -/
def insideHeader : Bytes := buildHeader [0x61] (octalDigits 11 0 ++ [0]) 0x30 ustarMagic [0x64]

theorem not_opens_empty {outer header tarInner : Bytes} {pos : Nat} :
    ¬ Opens (fun _ => ([], none)) outer pos header tarInner := by
  rintro ⟨-, size, -, -, hdecompress, htar⟩
  cases hdecompress
  cases htar

theorem insideHeader_only {pos : Nat} {header : Bytes} (hm : MemberAt insideHeader pos header) :
    pos = 0 ∧ header = insideHeader := by
  have hfirst : headerAt insideHeader 0 = some insideHeader := by decide +kernel
  have hsize : memberSize insideHeader = some 0 := by decide +kernel
  have hsecond : headerAt insideHeader (nextMemberOffset 0 0) = none := by decide +kernel
  induction hm with
  | first h => exact ⟨rfl, Option.some.inj (h.symm.trans hfirst)⟩
  | next _ h hnext ih =>
    obtain ⟨rfl, rfl⟩ := ih
    cases h.symm.trans hsize
    cases hnext.symm.trans hsecond

theorem walked_paths_inside : MemberAt insideHeader 0 insideHeader ∧ ¬ Traverses (ustarPath insideHeader) := by
  have hrun : scanDecompressedTarGzArchive (fun _ => ([], none)) 1 insideHeader 0 = .ok [⟨0, 0, some 0, []⟩] := by
    decide +kernel
  have hfirst : MemberAt insideHeader 0 insideHeader := .first (by decide +kernel)
  refine ⟨hfirst, (walked_paths_iff hrun).mpr ?_ 0 insideHeader 0 insideHeader .root hfirst⟩
  intro levels inner pos header hn hm _
  cases hn with
  | root =>
    obtain ⟨rfl, rfl⟩ := insideHeader_only hm
    decide +kernel
  | member _ _ h => exact absurd h not_opens_empty

/-- The walk accepts a member outside the directory it is unpacked in. -/
theorem walked_paths_outside :
    scanDecompressedTarGzArchive (fun _ => ([], none)) 1 outsideHeader 0 = .ok [⟨0, 0, some 0, []⟩] ∧
      MemberAt outsideHeader 0 outsideHeader ∧ Traverses (ustarPath outsideHeader) :=
  ⟨by decide +kernel, .first (by decide +kernel), by decide +kernel⟩

end Ziftsieve.Tarball
