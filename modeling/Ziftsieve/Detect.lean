import Ziftsieve.Bloom
import Ziftsieve.Extract
import Ziftsieve.Lz4StreamSound

/-!
# Detecting a format

`detect.rs` knows a format by the first bytes of its streams. For LZ4 it knows
two signatures, and the parser only one: a legacy stream is detected, and its
magic number is then read as the size of a block.
-/

namespace Ziftsieve

def CompressionFormat.detect (data : Bytes) : Option CompressionFormat :=
  if [0x1f, 0x8b] <+: data then some .gzip
  else if [0x04, 0x22, 0x4d, 0x18] <+: data ∨ [0x02, 0x21, 0x4c, 0x18] <+: data then some .lz4
  else if [0x28, 0xb5, 0x2f, 0xfd] <+: data then some .zstd
  else if [0xff, 0x06, 0x00, 0x00, 0x73, 0x4e, 0x61, 0x50, 0x70, 0x59] <+: data then some .snappy
  else none

/-! ## Signatures -/

namespace CompressionFormat

def signatures : CompressionFormat → List Bytes
  | .lz4 => [[0x04, 0x22, 0x4d, 0x18], [0x02, 0x21, 0x4c, 0x18]]
  | .snappy => [[0xff, 0x06, 0x00, 0x00, 0x73, 0x4e, 0x61, 0x50, 0x70, 0x59]]
  | .gzip => [[0x1f, 0x8b]]
  | .zstd => [[0x28, 0xb5, 0x2f, 0xfd]]

theorem signatures_apart {f g : CompressionFormat} (h : f ≠ g) : ∀ m ∈ f.signatures, ∀ m' ∈ g.signatures, ¬ m <+: m' := by
  cases f <;> cases g <;> first | exact absurd rfl h | decide

/-- No stream begins with the signatures of two formats. -/
theorem signatures_eq {f g : CompressionFormat} {m m' data : Bytes} (hm : m ∈ f.signatures) (hm' : m' ∈ g.signatures)
    (h : m <+: data) (h' : m' <+: data) : f = g := by
  by_contra hne
  rcases List.prefix_or_prefix_of_prefix h h' with hp | hp
  · exact signatures_apart hne m hm m' hm' hp
  · exact signatures_apart (Ne.symm hne) m' hm' m hm hp

theorem detect_sound {data : Bytes} {f : CompressionFormat} (h : detect data = some f) : ∃ m ∈ f.signatures, m <+: data := by
  unfold detect at h
  split at h
  · cases h
    exact ⟨_, List.mem_singleton_self _, by assumption⟩
  split at h
  · cases h
    rename_i hmagic
    rcases hmagic with hmagic | hmagic
    · exact ⟨_, List.mem_cons_self, hmagic⟩
    · exact ⟨_, List.mem_cons_of_mem _ List.mem_cons_self, hmagic⟩
  split at h
  · cases h
    exact ⟨_, List.mem_singleton_self _, by assumption⟩
  split at h
  · cases h
    exact ⟨_, List.mem_singleton_self _, by assumption⟩
  · cases h

theorem detect_eq_none {data : Bytes} (h : detect data = none) (f : CompressionFormat) :
    ∀ m ∈ f.signatures, ¬ m <+: data := by
  unfold detect at h
  split at h
  · cases h
  rename_i hgzip
  split at h
  · cases h
  rename_i hlz4
  split at h
  · cases h
  rename_i hzstd
  split at h
  · cases h
  rename_i hsnappy
  rw [not_or] at hlz4
  cases f with
  | lz4 => simpa [signatures] using hlz4
  | snappy => simpa [signatures] using hsnappy
  | gzip => simpa [signatures] using hgzip
  | zstd => simpa [signatures] using hzstd

/-- The order of the tests makes no difference. -/
theorem detect_eq_some_iff {data : Bytes} {f : CompressionFormat} :
    detect data = some f ↔ ∃ m ∈ f.signatures, m <+: data := by
  constructor
  · exact detect_sound
  · rintro ⟨m, hm, h⟩
    cases hd : detect data with
    | none => exact absurd h (detect_eq_none hd f m hm)
    | some g =>
      obtain ⟨m', hm', h'⟩ := detect_sound hd
      rw [signatures_eq hm hm' h h']

end CompressionFormat

/-! ## LZ4 -/

namespace Lz4

def legacyMagic : Bytes := [0x02, 0x21, 0x4c, 0x18]

/-- A legacy stream: each block with its size, and no end mark. -/
def encodeLegacy (bs : List Block) : Bytes := legacyMagic ++ encodeBlocks (bs.map .compressed)

/-- What detection promises of a legacy stream. -/
def LegacyParsed (ext : External) (bs : List Block) : Prop :=
  CompressionFormat.detect (encodeLegacy bs) = some .lz4 ∧ ∃ blocks,
    extractFromBytes ext .lz4 (encodeLegacy bs) = .ok blocks ∧ blocks.map (·.literals) = bs.map Block.literals

/-- The legacy magic number, read as a size. -/
def legacySize : Nat := 0x184C2102

theorem legacyMagic_eq : legacyMagic = toLe 4 legacySize := rfl

theorem walkTurn_legacy {data rest : Bytes} (h : At data 0 (legacyMagic ++ rest)) :
    walkTurn data false ⟨0, [], 0⟩ = .error (.err (.blockTooLarge legacySize maxBlockSize)) := by
  rw [legacyMagic_eq] at h
  rw [walkTurn_word (by decide) (by decide) h, if_neg (by decide)]
  unfold walkBlock
  rw [failIf_true _ (by decide)]
  rfl

theorem parse_legacy {data : Bytes} (h : legacyMagic <+: data) :
    parseLz4Blocks data = .error (.err (.blockTooLarge legacySize maxBlockSize)) := by
  obtain ⟨rest, rfl⟩ := h
  have hne : legacyMagic ++ rest ≠ [] := List.cons_ne_nil _ _
  have hmagic : (legacyMagic ++ rest).take 4 ≠ lz4FrameMagic := by
    rw [List.take_left' (show legacyMagic.length = 4 from rfl)]
    decide
  rw [parseLz4Blocks_eq hne (parseFrameHeader_raw hne hmagic), isFramed_raw hmagic]
  exact loop_error (walkTurn_legacy (At.start _))

theorem detect_legacy {data : Bytes} (h : legacyMagic <+: data) : CompressionFormat.detect data = some .lz4 :=
  CompressionFormat.detect_eq_some_iff.mpr ⟨_, List.mem_cons_of_mem _ List.mem_cons_self, h⟩

/-- **No legacy stream is parsed.** Each is detected as LZ4, and its magic number is too large a block. -/
theorem legacy_not_parsed (ext : External) (bs : List Block) :
    CompressionFormat.detect (encodeLegacy bs) = some .lz4 ∧
      extractFromBytes ext .lz4 (encodeLegacy bs) = .error (.err (.blockTooLarge legacySize maxBlockSize)) ∧
        ¬ LegacyParsed ext bs := by
  have hmagic : legacyMagic <+: encodeLegacy bs := List.prefix_append _ _
  have hparse : extractFromBytes ext .lz4 (encodeLegacy bs) = .error (.err (.blockTooLarge legacySize maxBlockSize)) :=
    parse_legacy hmagic
  refine ⟨detect_legacy hmagic, hparse, ?_⟩
  rintro ⟨-, blocks, h, -⟩
  rw [hparse] at h
  cases h

def helloBlock : Block := ⟨[], [0x68, 0x65, 0x6c, 0x6c, 0x6f]⟩

theorem legacy_helloBlock :
    encodeLegacy [helloBlock] = [0x02, 0x21, 0x4c, 0x18, 6, 0, 0, 0, 0x50, 0x68, 0x65, 0x6c, 0x6c, 0x6f] ∧
      CompressionFormat.detect (encodeLegacy [helloBlock]) = some .lz4 ∧
        extractFromBytes .fnvOnly .lz4 (encodeLegacy [helloBlock]) =
          .error (.err (.blockTooLarge legacySize maxBlockSize)) ∧ ¬ LegacyParsed .fnvOnly [helloBlock] := by
  have hparse : extractFromBytes .fnvOnly .lz4 (encodeLegacy [helloBlock]) =
      .error (.err (.blockTooLarge legacySize maxBlockSize)) := by decide
  refine ⟨by decide, by decide, hparse, ?_⟩
  rintro ⟨-, blocks, h, -⟩
  rw [hparse] at h
  cases h

end Lz4

end Ziftsieve
