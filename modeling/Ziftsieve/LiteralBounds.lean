import Ziftsieve.GzipCut
import Ziftsieve.Lz4Cut
import Ziftsieve.ZstdStreams

/-!
# How many literals a parser returns

The LZ4 walk copies its literals, every gzip literal costs a bit or more, and
the Zstd parser counts as it goes, since its blocks expand.
-/

namespace Ziftsieve

def literalSum (bs : List CompressedBlock) : Nat := (bs.map (·.literals.length)).sum

/-- The documented limits: 256 MiB, and 250 bytes for each byte read once that is over 1 MiB. -/
structure Within (data : Bytes) (bs : List CompressedBlock) : Prop where
  total_le : literalSum bs ≤ 256 * 1024 * 1024
  ratio_le : literalSum bs ≤ max (250 * data.length) (1024 * 1024)

section
variable {data : Bytes} {bs : List CompressedBlock}

theorem Lz4.literalSum_le (h : parseLz4Blocks data = .ok bs) : Within data bs ∧ literalSum bs ≤ data.length := by
  obtain ⟨w, hw, hoffset, rfl⟩ := parseLz4Blocks_totals h
  have htotal : literalSum w.blocks = w.totalLiterals := hw.total_eq.symm
  have hmax : w.totalLiterals ≤ 256 * 1024 * 1024 := hw.total_le
  have hcost := hw.cost
  exact ⟨⟨by omega, by omega⟩, by omega⟩

theorem Gzip.literalSum_le {ext : External} (h : extractLiterals ext data = .ok bs) :
    Within data bs ∧ literalSum bs ≤ 8 * data.length := by
  obtain ⟨total, htotals⟩ := extractLiterals_totals h
  have htotal : literalSum bs = total := htotals.total_eq.symm
  have hmax : total ≤ 256 * 1024 * 1024 := htotals.total_le
  have hcost := htotals.cost
  exact ⟨⟨by omega, by omega⟩, by omega⟩

theorem Zstd.literalSum_blocks (s : Stream) : literalSum s.blocks = sumLiterals s.frames := by
  have hmap : s.blocks.map (·.literals.length) = (s.blocks.map (·.literals)).map List.length := by
    rw [List.map_map]
    rfl
  unfold literalSum sumLiterals
  rw [hmap, s.literals_blocks]
  induction s.frames with
  | nil => rfl
  | cons f fs ih =>
    rw [List.flatMap_cons, List.map_append, List.sum_append, ih, List.map_cons, List.sum_cons, List.map_map]
    rfl

theorem Zstd.literalSum_le (h : extractLiterals data = .ok bs) : Within data bs := by
  obtain ⟨s, hs, rfl, rfl⟩ := extractLiterals_eq_ok_iff.mp h
  have hcount := literalSum_blocks s
  have hle := hs.literals_le
  unfold literalLimit maxTotalLiterals maxDecompressionRatio at hle
  exact ⟨by omega, by omega⟩

/-- **Extracted literals are bounded**, in total and for the length of what was read. -/
theorem literalSum_bounded (ext : External) (data : Bytes) (bs : List CompressedBlock) :
    (Lz4.parseLz4Blocks data = .ok bs → Within data bs ∧ literalSum bs ≤ data.length) ∧
      (Gzip.extractLiterals ext data = .ok bs → Within data bs ∧ literalSum bs ≤ 8 * data.length) ∧
      (Zstd.extractLiterals data = .ok bs → Within data bs) :=
  ⟨Lz4.literalSum_le, Gzip.literalSum_le, Zstd.literalSum_le⟩

end

theorem literalSum_bounded_two :
    Within Lz4.twoStored [⟨7, 1, none, [97]⟩, ⟨12, 2, none, [98, 99]⟩] ∧
      Within Gzip.storedTwice [⟨10, 6, none, [97]⟩, ⟨34, 6, none, [97]⟩] ∧
      Within (Zstd.encodeFrames [Zstd.literalsFrame]) (Zstd.locateFrames 0 [Zstd.literalsFrame]) :=
  ⟨((literalSum_bounded .fnvOnly _ _).1 (by decide +kernel)).1,
    ((literalSum_bounded .fnvOnly _ _).2.1 Gzip.storedTwice_accepted).1,
    (literalSum_bounded .fnvOnly _ _).2.2 (by decide +kernel)⟩

end Ziftsieve
