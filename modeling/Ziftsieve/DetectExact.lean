import Ziftsieve.Detect
import Ziftsieve.GzipExact
import Ziftsieve.Lz4Exact
import Ziftsieve.SnappyExact
import Ziftsieve.ZstdStreams

/-!
# Detection and the parsers

How the streams of each format begin, as its parser takes them, against the
signatures that detection knows. Only raw LZ4 streams can pass for another
format's.
-/

namespace Ziftsieve

namespace CompressionFormat

/-- The signature that the format's own parser knows. -/
def magic : CompressionFormat → Bytes
  | .lz4 => Lz4.lz4FrameMagic
  | .snappy => Snappy.streamIdentifier
  | .gzip => [0x1f, 0x8b]
  | .zstd => Zstd.zstdMagic

theorem magic_mem (f : CompressionFormat) : f.magic ∈ f.signatures := by
  cases f <;> exact List.mem_cons_self

/-- A raw LZ4 stream's first size may be another format's signature. -/
def PassesFor (g f : CompressionFormat) : Prop := g = .lz4 ∧ (f = .gzip ∨ f = .snappy)

end CompressionFormat

open CompressionFormat

/-- How the streams begin that the format's parser takes. -/
inductive Opens : CompressionFormat → Bytes → Prop
  | signed {f : CompressionFormat} {data : Bytes} : f.magic <+: data → Opens f data
  | skippable {kind : UInt8} {rest : Bytes} : kind ≥ 0x50 ∧ kind ≤ 0x57 → Opens .zstd (kind :: 0x2A :: 0x4D :: 0x18 :: rest)
  | chunk {chunkType : UInt8} {rest : Bytes} : chunkType ∈ [0x00, 0x01, 0xfe, 0xff] →
      ¬ Snappy.streamIdentifier <+: chunkType :: rest → Opens .snappy (chunkType :: rest)
  | raw {data : Bytes} : Lz4.SmallWord data → Opens .lz4 data

/-! ## What the parsers take -/

section
variable {ext : External} {data : Bytes} {blocks : List CompressedBlock}

theorem Gzip.opens (h : Gzip.extractLiterals ext data = .ok blocks) : Opens .gzip data := by
  obtain ⟨ms, hne, -, rfl, -⟩ := Gzip.extractLiterals_parses h
  obtain ⟨m, ms, rfl⟩ := List.exists_cons_of_ne_nil hne
  obtain ⟨rest, hbits⟩ : ∃ rest, bytesBits (Gzip.encodeCoded (m :: ms)) = bytesBits m.header.bytes ++ rest := by
    rw [Gzip.bytesBits_encodeCoded, List.flatMap_cons, Gzip.CodedMember.bits, List.append_assoc]
    exact ⟨_, rfl⟩
  obtain ⟨zs, hzs⟩ := At.bytes (i := 0) ⟨Nat.zero_le _, hbits⟩
  exact .signed ⟨_, hzs.drop.symm⟩

theorem Zstd.opens (h : Zstd.extractLiterals data = .ok blocks) : Opens .zstd data := by
  obtain ⟨s, hs, rfl⟩ := Zstd.Stream.fits_of_extracts h
  have hskips : ∀ {ks : List Zstd.Skippable} {ys : Bytes}, ks ≠ [] → Opens .zstd (Zstd.encodeSkips ks ++ ys) := by
    intro ks ys hne
    obtain ⟨k, ks, rfl⟩ := List.exists_cons_of_ne_nil hne
    exact .skippable k.kind_mem
  rw [Zstd.Stream.encode]
  cases hsegments : s.segments with
  | nil => exact hskips (hs.no_segments hsegments).2
  | cons g gs =>
    rw [Zstd.encodeSegments_cons, Zstd.Segment.encode, List.append_assoc, List.append_assoc]
    by_cases hnil : g.skips = []
    · rw [hnil]
      exact .signed ⟨_, rfl⟩
    · exact hskips hnil

theorem Snappy.Handles.chunkType_mem {chunkType : UInt8} {body p : Bytes} (h : Snappy.Handles ext chunkType body p) :
    chunkType ∈ [0x00, 0x01, 0xfe, 0xff] := by
  have hp := h.payload_eq
  unfold Snappy.payload at hp
  split at hp
  · rename_i h0
    rw [h0]
    decide
  split at hp
  · rename_i h1
    rw [h1]
    decide
  split at hp
  · rename_i hskip
    rcases hskip with rfl | rfl <;> decide
  · cases hp

theorem Snappy.opens (h : Snappy.extractLiterals ext data = .ok blocks) : Opens .snappy data := by
  obtain ⟨s, hs, rfl, -⟩ := Snappy.stream_of_extracts h
  cases hid : s.identified with
  | true =>
    apply Opens.signed
    rw [Snappy.Stream.encode, Snappy.Stream.header, hid]
    exact List.prefix_append _ _
  | false =>
    have hplain := hs.plain hid
    have hencode : s.encode = Snappy.encodePieces s.pieces := by
      rw [Snappy.Stream.encode, Snappy.Stream.header, hid]
      rfl
    have hne := hs.nonempty
    rw [hencode] at hplain hne ⊢
    cases hpieces : s.pieces with
    | nil =>
      rw [hpieces] at hne
      exact absurd rfl hne
    | cons p ps =>
      rw [hpieces, Snappy.encodePieces_cons, p.encode_append] at hplain
      rw [Snappy.encodePieces_cons, p.encode_append]
      exact .chunk p.handles.chunkType_mem hplain

theorem Lz4.opens (h : Lz4.parseLz4Blocks data = .ok blocks) : Opens .lz4 data := by
  obtain ⟨t, ht, rfl, -⟩ := Lz4.taken_of_parse h
  cases hopening : t.opening with
  | none => exact .raw (ht.smallWord hopening)
  | some o =>
    apply Opens.signed
    rw [Lz4.Taken.encode, Lz4.Taken.header, hopening]
    exact o.prefix_encode _

theorem opens_of_extract {f : CompressionFormat} (h : extractFromBytes ext f data = .ok blocks) : Opens f data := by
  cases f with
  | lz4 => exact Lz4.opens h
  | snappy => exact Snappy.opens h
  | gzip => exact Gzip.opens h
  | zstd => exact Zstd.opens h

end

/-! ## What detection says of them -/

section
variable {f g : CompressionFormat} {data rest : Bytes}

theorem detect_magic (h : f.magic <+: data) : detect data = some f := detect_eq_some_iff.mpr ⟨_, f.magic_mem, h⟩

/-- A stream that begins with `a` is detected by a signature that does. -/
theorem signature_head {a : UInt8} (h : detect (a :: rest) = some f) :
    a ∈ [0x1f, 0x04, 0x02, 0x28] ∨ (a = 0xff ∧ Snappy.streamIdentifier <+: a :: rest) := by
  obtain ⟨m, hm, hbegins⟩ := detect_sound h
  have hhead : ∀ s ∈ f.signatures, s.head? ∈ [some 0x1f, some 0x04, some 0x02, some 0x28] ∨ s = Snappy.streamIdentifier := by
    cases f <;> decide
  rcases hhead m hm with hs | rfl
  · obtain ⟨m, rfl⟩ : ∃ s, m = a :: s := by
      cases m with
      | nil => simp at hs
      | cons b s => exact ⟨s, by rw [(List.cons_prefix_cons.mp hbegins).1]⟩
    exact .inl (by simpa using hs)
  · exact .inr ⟨(List.cons_prefix_cons.mp hbegins).1.symm, hbegins⟩

theorem detect_skippable {kind : UInt8} (h : kind ≥ 0x50 ∧ kind ≤ 0x57) : detect (kind :: rest) = none := by
  cases hd : detect (kind :: rest) with
  | none => rfl
  | some f =>
    have hapart : ∀ a ∈ [0x1f, 0x04, 0x02, 0x28, 0xff], ¬ ((a : UInt8) ≥ 0x50 ∧ a ≤ 0x57) := by decide +kernel
    rcases signature_head hd with hs | ⟨rfl, -⟩
    · exact absurd h (hapart kind (List.mem_append_left [0xff] hs))
    · exact absurd h (hapart 0xff (by decide))

theorem detect_chunk {chunkType : UInt8} (h : chunkType ∈ [0x00, 0x01, 0xfe, 0xff])
    (hplain : ¬ Snappy.streamIdentifier <+: chunkType :: rest) : detect (chunkType :: rest) = none := by
  cases hd : detect (chunkType :: rest) with
  | none => rfl
  | some f =>
    have hapart : ∀ a ∈ [0x1f, 0x04, 0x02, 0x28], (a : UInt8) ∉ [0x00, 0x01, 0xfe, 0xff] := by decide +kernel
    rcases signature_head hd with hs | ⟨-, hid⟩
    · exact absurd h (hapart chunkType hs)
    · exact absurd hid hplain

theorem detect_raw (h : Lz4.SmallWord data) (hd : detect data = some f) : f = .gzip ∨ f = .snappy := by
  obtain ⟨m, hm, hbegins⟩ := detect_sound hd
  have hlarge : ∀ s ∈ CompressionFormat.lz4.signatures ++ CompressionFormat.zstd.signatures,
      s.length = 4 ∧ Lz4.maxBlockSize < fromLe s % 2 ^ 31 := by decide
  have hnot : m ∉ CompressionFormat.lz4.signatures ++ CompressionFormat.zstd.signatures := by
    intro hmem
    obtain ⟨hlen, hlt⟩ := hlarge m hmem
    exact absurd (h m hlen hbegins) (Nat.not_le_of_lt hlt)
  cases f with
  | lz4 => exact absurd (List.mem_append_left _ hm) hnot
  | zstd => exact absurd (List.mem_append_right _ hm) hnot
  | gzip => exact .inl rfl
  | snappy => exact .inr rfl

theorem chunkType_not_skippable {chunkType : UInt8} (h : chunkType ∈ [0x00, 0x01, 0xfe, 0xff]) :
    ¬ (chunkType ≥ 0x50 ∧ chunkType ≤ 0x57) := by
  have hall : ∀ t ∈ [0x00, 0x01, 0xfe, 0xff], ¬ ((t : UInt8) ≥ 0x50 ∧ t ≤ 0x57) := by decide +kernel
  exact hall chunkType h

theorem skippable_not_small (kind : UInt8) (rest : Bytes) : ¬ Lz4.SmallWord (kind :: 0x2A :: 0x4D :: 0x18 :: rest) := by
  intro h
  have hlt := kind.toNat_lt
  have hle := h [kind, 0x2A, 0x4D, 0x18] rfl ⟨rest, rfl⟩
  have hword : fromLe [kind, 0x2A, 0x4D, 0x18] = kind.toNat + 0x184D2A00 := by
    rw [fromLe, show fromLe [0x2A, 0x4D, 0x18] = 0x184D2A from rfl]
  rw [hword, Lz4.maxBlockSize] at hle
  omega

theorem Opens.detect_magic_iff (h : Opens g data) : detect data = some g ↔ g.magic <+: data := by
  constructor
  · intro hd
    cases h with
    | signed hmagic => exact hmagic
    | skippable hkind =>
      rw [detect_skippable hkind] at hd
      cases hd
    | chunk htype hplain =>
      rw [detect_chunk htype hplain] at hd
      cases hd
    | raw hsmall => rcases detect_raw hsmall hd with h | h <;> cases h
  · exact detect_magic

theorem Opens.detect_eq (h : Opens g data) (hd : detect data = some f) : f = g ∨ PassesFor g f := by
  cases h with
  | signed hmagic =>
    rw [detect_magic hmagic] at hd
    exact .inl (Option.some.inj hd).symm
  | skippable hkind =>
    rw [detect_skippable hkind] at hd
    cases hd
  | chunk htype hplain =>
    rw [detect_chunk htype hplain] at hd
    cases hd
  | raw hsmall => exact .inr ⟨rfl, detect_raw hsmall hd⟩

/-- Streams that no signature tells apart are told apart by their first bytes, but for raw LZ4. -/
theorem Opens.apart (hf : Opens f data) (hg : Opens g data) : f = g ∨ PassesFor f g ∨ PassesFor g f := by
  by_cases hsigned : f.magic <+: data
  · rcases hg.detect_eq (detect_magic hsigned) with h | h
    · exact .inl h
    · exact .inr (.inr h)
  by_cases hsigned' : g.magic <+: data
  · rcases hf.detect_eq (detect_magic hsigned') with h | h
    · exact .inl h.symm
    · exact .inr (.inl h)
  cases hf with
  | signed h => exact absurd h hsigned
  | skippable hkind =>
    cases hg with
    | signed h => exact absurd h hsigned'
    | skippable => exact .inl rfl
    | chunk htype => exact absurd hkind (chunkType_not_skippable htype)
    | raw hsmall => exact absurd hsmall (skippable_not_small _ _)
  | chunk htype =>
    cases hg with
    | signed h => exact absurd h hsigned'
    | skippable hkind => exact absurd hkind (chunkType_not_skippable htype)
    | chunk => exact .inl rfl
    | raw => exact .inr (.inr ⟨rfl, .inr rfl⟩)
  | raw hsmall =>
    cases hg with
    | signed h => exact absurd h hsigned'
    | skippable => exact absurd hsmall (skippable_not_small _ _)
    | chunk => exact .inr (.inl ⟨rfl, .inr rfl⟩)
    | raw => exact .inl rfl

/-- **Detection and the parsers.** A stream that a parser takes is detected as its format
exactly when it begins with the parser's own signature. Any other answer, and any other
parser that takes it, is a raw LZ4 stream's. -/
theorem extract_detects {ext : External} {blocks : List CompressedBlock} (h : extractFromBytes ext g data = .ok blocks) :
    (detect data = some g ↔ g.magic <+: data) ∧ (∀ f, detect data = some f → f = g ∨ PassesFor g f) ∧
      ∀ f bs, extractFromBytes ext f data = .ok bs → f = g ∨ PassesFor f g ∨ PassesFor g f := by
  have hopens := opens_of_extract h
  refine ⟨hopens.detect_magic_iff, fun f => hopens.detect_eq, ?_⟩
  intro f bs hf
  exact (opens_of_extract hf).apart hopens

end

/-- Two stored blocks, in a frame and without one: the frame is detected, the bare blocks are not. -/
theorem extract_detects_stored :
    detect [0x04, 0x22, 0x4D, 0x18, 0x40, 0, 0, 1, 0, 0, 0x80, 97, 2, 0, 0, 0x80, 98, 99, 0, 0, 0, 0] = some .lz4 ∧
      detect [1, 0, 0, 0x80, 97, 2, 0, 0, 0x80, 98, 99] ≠ some .lz4 ∧
        ∀ f bs, extractFromBytes .fnvOnly f [1, 0, 0, 0x80, 97, 2, 0, 0, 0x80, 98, 99] = .ok bs →
          f = .lz4 ∨ PassesFor f .lz4 ∨ PassesFor .lz4 f := by
  have hframe : extractFromBytes .fnvOnly .lz4 [0x04, 0x22, 0x4D, 0x18, 0x40, 0, 0, 1, 0, 0, 0x80, 97, 2, 0, 0, 0x80, 98, 99,
      0, 0, 0, 0] = .ok [⟨7, 1, none, [97]⟩, ⟨12, 2, none, [98, 99]⟩] := by decide
  have hbare : extractFromBytes .fnvOnly .lz4 [1, 0, 0, 0x80, 97, 2, 0, 0, 0x80, 98, 99] =
      .ok [⟨0, 1, none, [97]⟩, ⟨5, 2, none, [98, 99]⟩] := by decide
  refine ⟨(extract_detects hframe).1.mpr (by decide), fun h => ?_, (extract_detects hbare).2.2⟩
  exact absurd ((extract_detects hbare).1.mp h) (by decide)

end Ziftsieve
