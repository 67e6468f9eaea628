import Ziftsieve.GzipCut
import Ziftsieve.Traces

/-!
# Traces of a gzip run

A trace of the parser's run shows something for each DEFLATE block it reads, in
every member. What holds from block to block holds of the whole run.
-/

namespace Ziftsieve.Gzip

section
variable {γ : Type}

/-- What the blocks of the next member show. -/
def memberTrace (shown : BitReader → List γ) (s : Members) (r : BitReader) : List γ :=
  (if r.remainingBytes > 0 then
    seen parseGzipHeader fun _ => loopTrace streamTurn (fun _ => shown) (maxDeflateBlocksPerMember + 1)
      ⟨s.blocks, s.totalLiterals, false⟩
  else fun _ => []) r

/-- What the blocks of every member show, as the parser's run reads them. -/
def blockTrace (ext : External) (data : Bytes) (shown : BitReader → List γ) : List γ :=
  loopTrace (memberTurn ext) (memberTrace shown) 1025 ⟨[], 0, 0⟩ (BitReader.new data 0)

variable {data : Bytes} {k p : Nat}

theorem Shows.withReader {α : Type} {f : BitReader → Read α} {g : BitReader → BitReader → List γ}
    {Q : Nat → α → List γ → Prop} (h : ∀ r, Synced data p r → Shows (cutView data k) p (f r) (g r) Q) :
    Shows (cutView data k) p (Gzip.withReader f) (fun r => g r r) Q :=
  fun r a t hr hrun => h r hr r a t hr hrun

theorem Shows.failHere {α : Type} {w : BitReader → List γ} {Q : Nat → α → List γ → Prop} (reason : String) :
    Shows (cutView data k) p (failHere reason) w Q := by
  intro r a t _ hrun
  cases hrun

section
variable {J : Nat → List CompressedBlock → Nat → List CompressedBlock → List γ → Prop} (hJ : Composes J)
variable {shown : BitReader → List γ} (hb : ∀ p s, Shows (cutView data k) p (streamTurn s) shown fun q turn l =>
  turn.Holds (fun s' => J p s.blocks q s'.blocks l) fun s' => J p s.blocks q s'.blocks l)
include hJ hb

theorem readMember_shows (blocks : List CompressedBlock) (total : Nat) :
    Shows (cutView data k) p (readMember blocks total)
      (seen parseGzipHeader fun _ => loopTrace streamTurn (fun _ => shown) (maxDeflateBlocksPerMember + 1)
        ⟨blocks, total, false⟩)
      fun q m l => J p blocks q m.2.1.blocks l := by
  refine Shows.withReader (g := fun _ => _) fun r _ => Shows.seen parseGzipHeader_tracks fun q₁ _ h₁ _ => ?_
  have hstream : Shows (cutView data k) q₁ (parseDeflateStream blocks total) (loopTrace streamTurn (fun _ => shown)
      (maxDeflateBlocksPerMember + 1) ⟨blocks, total, false⟩) fun q s l => J q₁ blocks q s.blocks l :=
    hJ.loop (c := Stream.blocks) hb _ ⟨blocks, total, false⟩
  refine hstream.andThen fun q₂ s l h₂ hs => alignToByte_tracks.bind fun q₃ _ h₃ _ => ?_
  refine readU32Le_tracks.bind fun q₄ crc h₄ _ => readU32Le_tracks.bind fun q₅ _ h₅ _ => Tracks.pure ?_
  exact hJ.widen h₁ (by omega) hs

theorem memberTurn_shows (ext : External) (s : Members) :
    Shows (cutView data k) p (memberTurn ext s) (memberTrace shown s) fun q turn l =>
      turn.Holds (fun s' => J p s.blocks q s'.blocks l) fun bs => J p s.blocks q bs l := by
  refine Shows.withReader (g := fun r => if r.remainingBytes > 0 then _ else _) fun r _ => ?_
  refine Shows.ite (fun _ => ?_) fun _ => Shows.const (Tracks.pure (hJ.refl _ _))
  have hmember : Shows (cutView data k) p (parseGzipMember ext s.blocks s.totalLiterals) _
      fun q m l => J p s.blocks q m.1 l :=
    (readMember_shows hJ hb s.blocks s.totalLiterals).andThen fun q m l _ hm =>
      (checkMember_tracks ext s.blocks.length m.1 m.2.1 m.2.2).bind fun q' _ hqq _ =>
        Tracks.pure (hJ.widen (Nat.le_refl p) hqq hm)
  refine hmember.andThen fun q m l _ hm => ?_
  exact Tracks.ite (fun _ => Tracks.failHere _) fun _ => Tracks.pure hm

end

/-- **What holds of each block** and what it shows holds of an accepted stream. -/
theorem blockTrace_shows {J : Nat → List CompressedBlock → Nat → List CompressedBlock → List γ → Prop} (hJ : Composes J)
    {shown : BitReader → List γ} (hb : ∀ p s, Shows (cutView data 0) p (streamTurn s) shown fun q turn l =>
      turn.Holds (fun s' => J p s.blocks q s'.blocks l) fun s' => J p s.blocks q s'.blocks l)
    {ext : External} {bs : List CompressedBlock} (h : extractLiterals ext data = .ok bs) :
    J 0 [] (8 * data.length) bs (blockTrace ext data shown) := by
  unfold extractLiterals at h
  by_cases hnil : data = []
  · rw [if_pos hnil] at h
    cases h
  rw [if_neg hnil] at h
  have hrun : Shows (cutView data 0) 0 (loop (memberTurn ext) 1025 ⟨[], 0, 0⟩)
      (loopTrace (memberTurn ext) (memberTrace shown) 1025 ⟨[], 0, 0⟩) fun q bs l => J 0 [] q bs l :=
    hJ.loop (c := Members.blocks) (fun _ s => memberTurn_shows hJ hb ext s) _ ⟨[], 0, 0⟩
  obtain ⟨q, -, ht, hq⟩ := hrun _ bs _ (Synced.new (i := 0) (Nat.zero_le _)) (Prod.ext h rfl)
  exact hJ.widen (Nat.le_refl 0) ht.le hq

end

end Ziftsieve.Gzip
