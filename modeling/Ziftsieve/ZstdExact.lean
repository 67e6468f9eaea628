import Ziftsieve.SectionsExact
import Ziftsieve.ZstdWalkSound

/-!
# The Zstd streams that are accepted

A frame's block carries what its content reads as. What that is needs no parser to
say: the bytes, a repeated byte, or the literals of a section that the payload
starts with.
-/

namespace Ziftsieve.Zstd

/-- The literals that a block's content stands for. -/
def Content.Spells : Content → Bytes → Prop
  | raw data, ys => data = ys
  | rle byte count, ys => List.replicate count byte = ys
  | compressed payload, ys =>
    (payload = [] ∧ ys = []) ∨ ∃ s : TakenSection, s.Legal ∧ s.encode <+: payload ∧ s.literals = ys

theorem Content.read_iff {c : Content} {ys : Bytes} : c.read = .ok ys ↔ c.Spells ys := by
  cases c with
  | raw data => exact ⟨Except.ok.inj, congrArg _⟩
  | rle byte count => exact ⟨Except.ok.inj, congrArg _⟩
  | compressed payload => exact section_iff

theorem FrameBlock.exists_iff {c : Content} {ys : Bytes} :
    (∃ b : FrameBlock, b.content = c ∧ b.literals = ys) ↔ c.size ≤ maxBlockSize ∧ c.Spells ys := by
  constructor
  · rintro ⟨b, rfl, rfl⟩
    exact ⟨b.size_le, Content.read_iff.mp b.read_eq⟩
  · rintro ⟨hsize, hspells⟩
    exact ⟨⟨c, ys, hsize, Content.read_iff.mpr hspells⟩, rfl, rfl⟩

/-- **The walk accepts exactly the streams within its limits**, whose blocks are those that
spell their literals. -/
theorem extractLiterals_streams_iff (data : Bytes) (bs : List CompressedBlock) :
    (extractLiterals data = .ok bs ↔ ∃ s : Stream, s.Fits ∧ s.encode = data ∧ s.blocks = bs) ∧
    ∀ (c : Content) (ys : Bytes), (∃ b : FrameBlock, b.content = c ∧ b.literals = ys) ↔
      c.size ≤ maxBlockSize ∧ c.Spells ys := by
  refine ⟨?_, fun c ys => FrameBlock.exists_iff⟩
  rw [extractLiterals_eq_ok_iff]
  constructor
  · rintro ⟨s, hs, rfl, rfl⟩
    exact ⟨s, hs, rfl, rfl⟩
  · rintro ⟨s, hs, rfl, rfl⟩
    exact ⟨s, hs, rfl, rfl⟩

end Ziftsieve.Zstd
