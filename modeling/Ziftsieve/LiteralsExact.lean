import Ziftsieve.HuffmanStreams

/-!
# Streams that are their literals exactly

The decoder goes on while a bit of the stream is left, and reads zeros behind its
end. So it takes a stream that breaks off inside a code for one that goes on with
zeros; and of a symbol that is no byte it returns the low eight bits. Every other
stream it accepts is the codes of what it returns.
-/

namespace Ziftsieve.Zstd

/-- Huffman literals in one stream: the weights of a code, and the bits behind the marker. -/
structure Description (data : Bytes) where
  explicit : List Nat
  last : Nat
  maxBits : Nat
  treeBytes : Nat
  padding : Nat
  bits : List Bool
  tree : readWeights data = .ok (explicit, treeBytes)
  last_pos : 0 < last
  complete : CompleteWeights maxBits (explicit ++ [last])
  padding_le : padding ≤ 7
  stream : backward (data.drop treeBytes) = marked padding bits

namespace Description

section
variable {data : Bytes} (d : Description data)

def weights : List Nat := d.explicit ++ [d.last]

def word (s : Nat) : List Bool := weightCode d.maxBits d.weights s

/-- The bits are the codes of `out`, with none missing and none left over. -/
structure Encodes (out : Bytes) : Prop where
  coded : ∀ b ∈ out, b.toNat ∈ codedSymbols d.weights
  bits : d.bits = out.flatMap fun b => d.word b.toNat

/-- The bits are codes and the start of one more. -/
def BreaksOff : Prop := Ziftsieve.BreaksOff (codedSymbols d.weights) d.word d.bits

/-- There is a code of a symbol that is no byte. -/
def HasWide : Prop := ∃ s, 256 ≤ s ∧ s ∈ codedSymbols d.weights ∧ Takes (codedSymbols d.weights) d.word d.bits s

end

theorem unique {data : Bytes} (d e : Description data) : d = e := by
  obtain ⟨explicit, last, maxBits, treeBytes, padding, bits, htree, hpos, hcomplete, hpadding, hstream⟩ := d
  obtain ⟨explicit', last', maxBits', treeBytes', padding', bits', htree', hpos', hcomplete', hpadding', hstream'⟩ := e
  obtain ⟨rfl, rfl⟩ := Prod.mk.inj (Except.ok.inj (htree.symm.trans htree'))
  obtain ⟨rfl, rfl⟩ := hcomplete.last_unique hpos hpos' hcomplete'
  obtain ⟨rfl, rfl⟩ := marked_inj (hstream.symm.trans hstream')
  rfl

end Description

section
variable {data out : Bytes} {n : Nat}

/-- What the decoder returns splits the bits of the description. -/
theorem decodeLiterals_split (hn : 0 < n) (h : decodeLiterals data n 1 = .ok out) :
    ∃ d : Description data, ∃ syms k, out = syms.map UInt8.ofNat ∧ (∀ s ∈ syms, s ∈ codedSymbols d.weights) ∧
      Split d.word false d.bits syms k := by
  obtain ⟨-, hlong, t, treeBytes, hbuild, htree, hout, -⟩ := (decodeLiterals_eq_ok (by omega)).mp h
  unfold HuffmanTable.buildDecoder at hbuild
  obtain ⟨⟨explicit, used⟩, hweights, hbuild⟩ := Run.bind_eq_ok.mp hbuild
  obtain ⟨table, htable, hbuild⟩ := Run.bind_eq_ok.mp hbuild
  obtain ⟨rfl, rfl⟩ := Prod.mk.inj (Except.ok.inj hbuild)
  have hfew := (readWeights_safe (by omega)).post _ hweights
  obtain ⟨last, hlast, hcoded⟩ := (buildTableFromWeights_safe hfew).post _ htable
  have hne : data.drop used ≠ [] := by
    rw [ne_eq, List.drop_eq_nil_iff]
    omega
  have hshort : (data.drop used).length ≤ 2 ^ 17 := by
    rw [List.length_drop]
    omega
  unfold decodeStreams at hout
  rw [if_pos rfl] at hout
  obtain ⟨padding, bits, hpadding, hstream⟩ := decodeStream_marked hne hshort hout
  obtain ⟨out', hsplit, syms, k, rfl, hsyms, hwords⟩ := decodeStream_split hcoded hne hshort hpadding hstream []
  rw [hsplit] at hout
  exact ⟨⟨explicit, last, table.maxNumBits, used, padding, bits, hweights, hlast, hcoded.weights, hpadding, hstream⟩,
    syms, k, (Except.ok.inj hout).symm, hsyms, hwords⟩

/-- **The stream is the literals' codes** if it does not break off inside one and has
no symbol that is no byte, and only then. -/
theorem decodeLiterals_encodes_iff (hn : 0 < n) (h : decodeLiterals data n 1 = .ok out) :
    Nonempty (Description data) ∧ ∀ d : Description data, d.Encodes out ↔ ¬ d.BreaksOff ∧ ¬ d.HasWide := by
  obtain ⟨d, syms, k, rfl, hsyms, hsplit⟩ := decodeLiterals_split hn h
  refine ⟨⟨d⟩, fun e => ?_⟩
  obtain rfl := d.unique e
  have hcoding : Coding (codedSymbols d.weights) d.word := coding_weightCode d.complete
  have hbreaks : d.BreaksOff ↔ 0 < k := hsplit.breaksOff_iff hcoding hsyms
  constructor
  · rintro ⟨hcoded, hbits⟩
    have hbytes : ∀ s ∈ (syms.map UInt8.ofNat).map UInt8.toNat, s ∈ codedSymbols d.weights := by
      intro s hs
      obtain ⟨b, hb, rfl⟩ := List.mem_map.mp hs
      exact hcoded b hb
    have hwhole := Split.whole d.word false ((syms.map UInt8.ofNat).map UInt8.toNat)
    rw [List.flatMap_map, ← hbits] at hwhole
    obtain ⟨heq, rfl⟩ := hsplit.unique hcoding hsyms hbytes hwhole
    refine ⟨by rw [hbreaks]; exact Nat.lt_irrefl 0, ?_⟩
    rintro ⟨s, hs, hmem, htakes⟩
    have hin := (hsplit.takes_iff hcoding hsyms hmem).mp htakes
    rw [heq] at hin
    obtain ⟨b, -, rfl⟩ := List.mem_map.mp hin
    have := b.toNat_lt
    omega
  · rintro ⟨hwhole, hwide⟩
    obtain rfl : k = 0 := by
      rw [hbreaks] at hwhole
      omega
    have hbyte : ∀ s ∈ syms, (UInt8.ofNat s).toNat = s := by
      intro s hs
      have hlt : s < 256 := by
        by_contra hge
        exact hwide ⟨s, by omega, hsyms s hs, (hsplit.takes_iff hcoding hsyms (hsyms s hs)).mpr hs⟩
      rw [UInt8.toNat_ofNat']
      omega
    have hwords := hsplit.words
    rw [List.replicate_zero, List.append_nil] at hwords
    refine ⟨fun b hb => ?_, ?_⟩
    · obtain ⟨s, hs, rfl⟩ := List.mem_map.mp hb
      rw [hbyte s hs]
      exact hsyms s hs
    · rw [hwords, List.flatMap_map]
      exact List.flatMap_congr fun s hs => by rw [hbyte s hs]

end

theorem halfCode_complete : CompleteWeights 2 [2, 1, 1] := ⟨by decide, by decide⟩

/-- One symbol of one bit, two of two bits, and a stream of four codes. -/
def threeCodes : Description [0x81, 0x21, 0x63] where
  explicit := [2, 1]
  last := 1
  maxBits := 2
  treeBytes := 2
  padding := 1
  bits := [true, false, false, false, true, true]
  tree := by decide +kernel
  last_pos := Nat.zero_lt_one
  complete := halfCode_complete
  padding_le := by decide
  stream := by decide

theorem decodeLiterals_encodes_three : decodeLiterals [0x81, 0x21, 0x63] 4 1 = .ok [0, 1, 2, 0] ∧
    threeCodes.Encodes [0, 1, 2, 0] ∧ ¬ threeCodes.BreaksOff ∧ ¬ threeCodes.HasWide := by
  have h : decodeLiterals [0x81, 0x21, 0x63] 4 1 = .ok [0, 1, 2, 0] := by decide +kernel
  have hencodes : threeCodes.Encodes [0, 1, 2, 0] := by
    refine ⟨fun b hb => mem_codedSymbols.mpr ?_, by decide⟩
    simp only [List.mem_cons, List.not_mem_nil, or_false] at hb
    rcases hb with rfl | rfl | rfl | rfl
    · exact ⟨2, rfl, by decide⟩
    · exact ⟨1, rfl, by decide⟩
    · exact ⟨1, rfl, by decide⟩
    · exact ⟨2, rfl, by decide⟩
  exact ⟨h, hencodes, ((decodeLiterals_encodes_iff (by decide) h).2 threeCodes).mp hencodes⟩

/-- The same code, and a stream of a single zero. -/
def halfCode : Description [0x81, 0x21, 0x02] where
  explicit := [2, 1]
  last := 1
  maxBits := 2
  treeBytes := 2
  padding := 6
  bits := [false]
  tree := by decide +kernel
  last_pos := Nat.zero_lt_one
  complete := halfCode_complete
  padding_le := by decide
  stream := by decide

/-- The missing half of a code is taken to be zero. -/
theorem decodeLiterals_encodes_half : ¬ ∀ (data out : Bytes) (n : Nat), 0 < n → decodeLiterals data n 1 = .ok out →
    ∃ d : Description data, d.Encodes out := by
  intro h
  obtain ⟨d, hd⟩ := h [0x81, 0x21, 0x02] [1] 1 Nat.zero_lt_one (by decide +kernel)
  obtain rfl := d.unique halfCode
  exact absurd hd.bits (by decide)

end Ziftsieve.Zstd
