import Ziftsieve.TarWalkSound

/-!
# Nested archives are bounded

The walk of an archive calls itself on a member that is an archive, whatever its
size: what decreases is the number of levels left. What a walk returns is within
the size limit, since the limit is checked each time something is added.
-/

namespace Ziftsieve.Tarball

def literalTotal (blocks : List CompressedBlock) : Nat := (blocks.map (·.literals.length)).sum

theorem literalTotal_append (bs cs : List CompressedBlock) :
    literalTotal (bs ++ cs) = literalTotal bs + literalTotal cs := by
  simp [literalTotal]

/-! ## Headers -/

theorem octalFrom_graceful (offset : Nat) : ∀ (bytes : Bytes) (value : Nat) (found : Bool),
    Graceful (octalFrom offset value found bytes)
  | [], value, _ => Graceful.ok value
  | byte :: bytes, value, found => by
    unfold octalFrom
    refine Graceful.ite (fun _ => ?_) fun _ => ?_
    · exact Graceful.ite (fun _ => Graceful.ok value) fun _ => octalFrom_graceful offset bytes value found
    · exact Graceful.failIf fun _ => Graceful.failIf fun _ => octalFrom_graceful offset bytes _ true

theorem readTarMember_safe (content : Bytes) (start offset : Nat) :
    Safe (readTarMember content start offset) fun m =>
      m.contentOffset = start + tarBlockSize ∧ m.contentOffset + m.contentSize ≤ content.length := by
  unfold readTarMember
  refine Safe.failIf fun hend => ?_
  have hblock : start + tarBlockSize - start = 512 := Nat.add_sub_cancel_left start 512
  refine (slice_safe ⟨Nat.le_add_right _ _, Nat.le_of_not_lt hend⟩).bind fun header hheader => ?_
  rw [hblock] at hheader
  refine Safe.failIf fun _ => (slice_safe (by omega)).bind fun sizeField _ => ?_
  refine Safe.bind (Q := fun _ => True) ⟨octalFrom_graceful _ _ _ _, fun _ _ => trivial⟩ fun size _ => ?_
  refine (index_safe (by omega)).bind fun typeflag _ => (slice_safe (by omega)).bind fun nameBytes _ => ?_
  exact Safe.failIf fun _ => Safe.failIf fun hcontent => Safe.pure ⟨rfl, Nat.le_of_not_lt hcontent⟩

theorem firstTarBlockHasUstarMagic_graceful (tarData : Bytes) : Graceful (firstTarBlockHasUstarMagic tarData) := by
  unfold firstTarBlockHasUstarMagic
  refine Graceful.ite (fun _ => Graceful.ok _) fun hlen => ?_
  have hhead : 0 ≤ tarBlockSize ∧ tarBlockSize ≤ tarData.length := ⟨Nat.zero_le _, Nat.le_of_not_lt hlen⟩
  have hslice := slice_safe (ε := ZiftError) hhead
  refine (hslice.graceful).bind fun header hheader => ?_
  have hlength : header.length = 512 := hslice.post header hheader
  refine Graceful.ite (fun _ => Graceful.ok _) fun _ => Graceful.ite (fun _ => Graceful.ok _) fun _ => ?_
  refine (slice_graceful (by omega)).bind fun field _ => ?_
  cases hoctal : parseTarOctalUsize field 0 with
  | ok stored => exact Graceful.ok _
  | error stop =>
    obtain ⟨e, rfl⟩ := octalFrom_graceful 0 field 0 false stop hoctal
    exact Graceful.ok _

/-! ## Decompression -/

theorem drainReads_graceful (offset : Nat) : ∀ (reads : List Bytes) (failure : Option String) (out : Bytes),
    Graceful (drainReads offset reads failure out)
  | [], none, out => Graceful.ok out
  | [], some e, _ => Graceful.fail _
  | chunk :: reads, failure, out => by
    unfold drainReads
    refine Graceful.ite (fun _ => Graceful.ok out) fun _ => ?_
    exact Graceful.failIf fun _ => drainReads_graceful offset reads failure _

section
variable (multiGzDecoder : Bytes → List Bytes × Option String)

theorem decompressGzipMembers_graceful (data : Bytes) : Graceful (decompressGzipMembers multiGzDecoder data) :=
  drainReads_graceful data.length _ _ []

/-! ## The walk -/

theorem le_nextMemberOffset (pos contentSize : Nat) :
    pos + tarBlockSize + contentSize ≤ nextMemberOffset pos contentSize := by
  unfold nextMemberOffset
  have hpad := Nat.lt_div_mul_add (a := contentSize + (tarBlockSize - 1)) (b := tarBlockSize) (by decide)
  unfold tarBlockSize at *
  simp only
  omega

/-- A file's block gives its length. -/
def Sized (blocks : List CompressedBlock) : Prop := ∀ b ∈ blocks, b.uncompressedLen = some b.literals.length

structure Gathered (blocks : List CompressedBlock) (totalLiterals : Nat) : Prop where
  total_eq : totalLiterals = literalTotal blocks
  total_le : totalLiterals ≤ maxTarballBytes
  sized : Sized blocks

theorem Sized.nil : Sized [] := List.forall_mem_nil _

theorem Gathered.start : Gathered [] 0 := ⟨rfl, Nat.zero_le _, Sized.nil⟩

theorem Gathered.literalTotal_le {blocks : List CompressedBlock} {totalLiterals : Nat} (h : Gathered blocks totalLiterals) :
    literalTotal blocks ≤ maxTarballBytes := h.total_eq ▸ h.total_le

theorem Gathered.append {blocks found : List CompressedBlock} {totalLiterals total : Nat} (h : Gathered blocks totalLiterals)
    (hfound : Sized found) (htotal : total = totalLiterals + literalTotal found) (hmax : total ≤ maxTarballBytes) :
    Gathered (blocks ++ found) total := by
  refine ⟨by rw [literalTotal_append, htotal, h.total_eq], hmax, fun b hb => ?_⟩
  rcases List.mem_append.mp hb with hb | hb
  · exact h.sized b hb
  · exact hfound b hb

theorem addRegularFileBlocks_safe {nested : Bytes → Run ZiftError (List CompressedBlock)} (hnested : ∀ tarInner,
      Safe (nested tarInner) Sized)
    {tarData : Bytes} {member : TarHeader} (hm : member.contentOffset + member.contentSize ≤ tarData.length)
    (pos : Nat) {blocks : List CompressedBlock} {totalLiterals : Nat} (h : Gathered blocks totalLiterals) :
    Safe (addRegularFileBlocks multiGzDecoder nested tarData member pos blocks totalLiterals) fun r =>
      Gathered r.2.1 r.2.2 := by
  unfold addRegularFileBlocks
  refine (slice_safe ⟨Nat.le_add_right _ _, hm⟩).bind fun literals hlen => ?_
  refine Safe.bind (Q := fun _ => True) ⟨?_, fun _ _ => trivial⟩ fun inner _ => ?_
  · refine Graceful.ite (fun _ => ?_) fun _ => Graceful.ok none
    refine (decompressGzipMembers_graceful multiGzDecoder literals).bind fun tarInner _ => ?_
    exact (firstTarBlockHasUstarMagic_graceful tarInner).bind fun isTar _ => Graceful.ok _
  cases inner with
  | some tarInner =>
    refine (hnested tarInner).bind fun found hfound => ?_
    exact Safe.failIf fun hmax => Safe.pure (h.append hfound rfl (Nat.le_of_not_lt hmax))
  | none =>
    rw [Nat.add_sub_cancel_left] at hlen
    refine Safe.failIf fun _ => Safe.failIf fun hmax => Safe.pure (h.append ?_ ?_ (Nat.le_of_not_lt hmax))
    · intro b hb
      rw [List.mem_singleton.mp hb, hlen]
    · rw [literalTotal, List.map_singleton, List.sum_singleton, hlen]

theorem memberTurn_safe {nested : Bytes → Run ZiftError (List CompressedBlock)}
    (hnested : ∀ tarInner, Safe (nested tarInner) Sized) (tarData : Bytes) {s : TarWalk}
    (h : Gathered s.blocks s.totalLiterals) :
    Safe (memberTurn multiGzDecoder nested tarData s) (Turn.Holds
      (fun t => Gathered t.blocks t.totalLiterals ∧ tarData.length - t.pos < tarData.length - s.pos)
      fun blocks => literalTotal blocks ≤ maxTarballBytes ∧ Sized blocks) := by
  have hdone : literalTotal s.blocks ≤ maxTarballBytes ∧ Sized s.blocks := ⟨h.literalTotal_le, h.sized⟩
  unfold memberTurn
  refine Safe.ite (fun hpos => ?_) fun _ => Safe.pure hdone
  refine Safe.failIf fun _ => Safe.failIf fun hend => ?_
  refine (slice_safe ⟨Nat.le_add_right _ _, Nat.le_of_not_lt hend⟩).bind fun header _ => ?_
  refine Safe.ite (fun _ => Safe.pure hdone) fun _ => ?_
  refine (readTarMember_safe tarData s.pos s.pos).bind fun member hm => ?_
  refine Safe.failIf fun _ => Safe.failIf fun _ => ?_
  have hnext : tarData.length - nextMemberOffset s.pos member.contentSize < tarData.length - s.pos := by
    have hle := le_nextMemberOffset s.pos member.contentSize
    unfold tarBlockSize at hle
    omega
  refine Safe.bind (Q := fun r => Gathered r.1 r.2) ?_ fun r hr => ?_
  · refine Safe.ite (fun _ => ?_) fun _ => Safe.pure h
    exact (addRegularFileBlocks_safe multiGzDecoder hnested hm.2 s.pos h).bind fun r hr => Safe.pure hr
  · exact Safe.pure ⟨hr, hnext⟩

/-- A call at some depth needs one more call for each level below it, down to the one too deep. -/
theorem scanDecompressedTarGzArchive_safe : ∀ {fuel depth : Nat} (tarData : Bytes),
    1 ≤ fuel → maxNestedDepth + 2 ≤ fuel + depth →
    Safe (scanDecompressedTarGzArchive multiGzDecoder fuel tarData depth) fun blocks =>
      literalTotal blocks ≤ maxTarballBytes ∧ Sized blocks
  | 0, _, _, h, _ => absurd h (Nat.not_lt_zero _)
  | fuel + 1, depth, tarData, _, hfuel => by
    unfold scanDecompressedTarGzArchive
    refine Safe.failIf fun hdepth => ?_
    refine Safe.loop (I := fun s => Gathered s.blocks s.totalLiterals)
      (μ := fun s => tarData.length - s.pos) (fun s hs => memberTurn_safe multiGzDecoder ?_ tarData hs) _ _
      Gathered.start (by simp only; omega)
    intro tarInner
    exact (scanDecompressedTarGzArchive_safe tarInner (by omega) (by omega)).imp fun _ h => h.2

theorem scanTarballLiterals_safe (data : Bytes) :
    Safe (scanTarballLiterals multiGzDecoder data) fun blocks => literalTotal blocks ≤ maxTarballBytes ∧ Sized blocks := by
  unfold scanTarballLiterals scanTarballLiteralsWithDepth
  refine Safe.failIf fun _ => Safe.failIf fun _ => ?_
  refine Safe.bind (Q := fun _ => True) ⟨decompressGzipMembers_graceful _ data, fun _ _ => trivial⟩ fun tarData _ => ?_
  refine Safe.ite (fun _ => Safe.pure ⟨Nat.zero_le _, Sized.nil⟩) fun _ => ?_
  exact scanDecompressedTarGzArchive_safe multiGzDecoder tarData (by decide) (by decide)

theorem scanDecompressedTarGzArchive_deep (fuel : Nat) (tarData : Bytes) {depth : Nat} (h : maxNestedDepth < depth) :
    scanDecompressedTarGzArchive multiGzDecoder (fuel + 1) tarData depth = .error (.err (.invalidData 0
      "nested archive depth exceeds limit (5). Fix: use a flatter archive structure")) := by
  unfold scanDecompressedTarGzArchive
  rw [failIf_true _ h]
  rfl

theorem nested_nil {levels : Nat} {inner : Bytes} (h : Nested multiGzDecoder [] levels inner) :
    levels = 0 ∧ ∀ pos header, ¬ MemberAt inner pos header := by
  have hnone : ∀ pos, headerAt [] pos = none := by
    intro pos
    unfold headerAt tarBlockSize
    rw [if_neg (by simp)]
  have hmember : ∀ pos header, ¬ MemberAt [] pos header := by
    intro pos header hm
    cases hm with
    | first h => cases (hnone 0).symm.trans h
    | next _ _ h => cases (hnone _).symm.trans h
  cases h with
  | root => exact ⟨rfl, hmember⟩
  | member hn hm =>
    obtain ⟨-, hnone⟩ := nested_nil hn
    exact absurd hm (hnone _ _)

theorem scanTarballLiterals_walks {data tarData : Bytes} {blocks : List CompressedBlock}
    (h : scanTarballLiterals multiGzDecoder data = .ok blocks)
    (htar : decompressGzipMembers multiGzDecoder data = .ok tarData) :
    tarData = [] ∨ scanDecompressedTarGzArchive multiGzDecoder scanFuel tarData 0 = .ok blocks := by
  unfold scanTarballLiterals scanTarballLiteralsWithDepth at h
  obtain ⟨-, -, h⟩ := Run.bind_eq_ok.mp h
  obtain ⟨-, -, h⟩ := Run.bind_eq_ok.mp h
  rw [htar, Run.ok_bind] at h
  by_cases hnil : tarData = []
  · exact .inl hnil
  · rw [if_neg hnil] at h
    exact .inr h

/-- **Nested archives are bounded,** whatever the decompressor. The fuel is seven nested
calls; the seventh is one level too deep, and looks at nothing. -/
theorem scanTarballLiterals_bounded (data : Bytes) :
    Graceful (scanTarballLiterals multiGzDecoder data) ∧
    (∀ fuel tarData depth, maxNestedDepth < depth →
      scanDecompressedTarGzArchive multiGzDecoder (fuel + 1) tarData depth = .error (.err (.invalidData 0
        "nested archive depth exceeds limit (5). Fix: use a flatter archive structure"))) ∧
    ∀ blocks, scanTarballLiterals multiGzDecoder data = .ok blocks →
      literalTotal blocks ≤ maxTarballBytes ∧
      ∀ tarData levels inner, decompressGzipMembers multiGzDecoder data = .ok tarData →
        Nested multiGzDecoder tarData levels inner →
        levels ≤ maxNestedDepth ∧ ∀ pos header, MemberAt inner pos header → isLink header = false := by
  have hsafe := scanTarballLiterals_safe multiGzDecoder data
  refine ⟨hsafe.graceful, fun fuel tarData _ => scanDecompressedTarGzArchive_deep multiGzDecoder fuel tarData, ?_⟩
  intro blocks hblocks
  refine ⟨(hsafe.post blocks hblocks).1, ?_⟩
  intro tarData levels inner htar hn
  rcases scanTarballLiterals_walks multiGzDecoder hblocks htar with rfl | hwalk
  · obtain ⟨rfl, hnone⟩ := nested_nil multiGzDecoder hn
    exact ⟨Nat.zero_le _, fun pos header hm => absurd hm (hnone pos header)⟩
  · obtain ⟨fuel, found, hfound⟩ := nested_accepted multiGzDecoder hwalk hn
    rw [Nat.zero_add] at hfound
    exact ⟨depth_le multiGzDecoder hfound, fun pos header hm => (member_passes multiGzDecoder hfound hm).1⟩

end

end Ziftsieve.Tarball
