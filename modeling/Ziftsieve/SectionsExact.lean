import Ziftsieve.WeightsExact

/-!
# The literals sections that are taken

Which bytes `extract_literals_from_block` takes, and with which literals. Behind a
header stand raw literals, a repeated one, or the description of a code and streams
of it; a stream may leave out zeros that its last code ends in.
-/

namespace Ziftsieve.Zstd

/-! ## Codes -/

/-- A description, and what it implies. -/
structure HuffmanCode where
  tree : Tree
  last : Nat
  maxBits : Nat

namespace HuffmanCode

def weights (c : HuffmanCode) : List Nat := c.tree.weights ++ [c.last]

def word (c : HuffmanCode) (s : Nat) : List Bool := weightCode c.maxBits c.weights s

structure Legal (c : HuffmanCode) : Prop where
  tree : c.tree.Readable
  last_pos : 0 < c.last
  maxBits_le : c.maxBits ≤ maxMaxNumBits
  complete : CompleteWeights c.maxBits c.weights

/-- The table of the code. -/
structure HasTable (c : HuffmanCode) (t : HuffmanTable) : Prop where
  max : t.maxNumBits = c.maxBits
  coded : t.Coded c.weights

theorem Legal.coding {c : HuffmanCode} (hc : c.Legal) : Coding (codedSymbols c.weights) c.word := coding_weightCode hc.complete

end HuffmanCode

theorem Tree.Readable.few {t : Tree} (ht : t.Readable) : t.weights.length ≤ 258 := by
  cases t with
  | direct ws spare =>
    have hmany : ws.length ≤ 128 := ht.2.1
    show ws.length ≤ 258
    omega
  | compressed h filler bits u =>
    have hu := Written.updates ht
    rw [weights, weightsUpTo, List.length_map, List.length_range]
    omega

section
variable {data rest : Bytes} {t : HuffmanTable} {used : Nat}

theorem HuffmanCode.Legal.buildDecoder {c : HuffmanCode} (hc : c.Legal)
    (hshort : (c.tree.bytes ++ rest).length * 8 < 2 ^ 64) :
    ∃ t, HuffmanTable.buildDecoder (c.tree.bytes ++ rest) = .ok (t, c.tree.bytes.length) ∧ c.HasTable t := by
  obtain ⟨htree, hlast, hmax, hcomplete⟩ := hc
  obtain ⟨t, ht, hbits, hcoded⟩ := buildTableFromWeights_complete htree.few hmax hlast hcomplete
  refine ⟨t, ?_, hbits, hcoded⟩
  unfold HuffmanTable.buildDecoder
  rw [htree.readWeights hshort, Run.ok_bind]
  simp only
  rw [ht]
  rfl

/-- A table is built from the description of its code. -/
theorem code_of_buildDecoder (hshort : data.length * 8 < 2 ^ 64) (h : HuffmanTable.buildDecoder data = .ok (t, used)) :
    ∃ c : HuffmanCode, c.Legal ∧ c.tree.bytes <+: data ∧ c.tree.bytes.length = used ∧ c.HasTable t := by
  unfold HuffmanTable.buildDecoder at h
  obtain ⟨⟨ws, used'⟩, hweights, h⟩ := Run.bind_eq_ok.mp h
  obtain ⟨table, htable, h⟩ := Run.bind_eq_ok.mp h
  obtain ⟨rfl, rfl⟩ := Prod.mk.inj (Except.ok.inj h)
  obtain ⟨tree, htree, hbegins, rfl, rfl⟩ := (readWeights_iff hshort).mp hweights
  obtain ⟨last, hlast, hcoded⟩ := (buildTableFromWeights_safe htree.few).post _ htable
  exact ⟨⟨tree, last, table.maxNumBits⟩, ⟨htree, hlast, hcoded.max, hcoded.weights⟩, hbegins, rfl, rfl, hcoded⟩

end

/-! ## Streams -/

/-- A stream of symbols, or none; `missing` zeros of the last code are left out. -/
inductive SymbolStream where
  | empty
  | coded (bits : List Bool) (symbols : List Nat) (missing : Nat)

namespace SymbolStream

def bytes : SymbolStream → Bytes
  | empty => []
  | coded bits _ _ => packMarked bits

def literals : SymbolStream → Bytes
  | empty => []
  | coded _ symbols _ => symbols.map UInt8.ofNat

def Legal (c : HuffmanCode) : SymbolStream → Prop
  | empty => True
  | coded bits symbols missing => (∀ s ∈ symbols, s ∈ codedSymbols c.weights) ∧ Split c.word false bits symbols missing

end SymbolStream

section
variable {c : HuffmanCode} {t : HuffmanTable} {stream out out' : Bytes}

theorem SymbolStream.Legal.decode {s : SymbolStream} (hc : c.Legal) (ht : c.HasTable t) (hs : s.Legal c)
    (hshort : s.bytes.length ≤ 2 ^ 17) (out : Bytes) : decodeStream t s.bytes out = .ok (out ++ s.literals) := by
  cases s with
  | empty =>
    unfold bytes literals decodeStream
    rw [if_pos rfl, List.append_nil]
    rfl
  | coded bits symbols missing =>
    obtain ⟨hsymbols, hsplit⟩ := hs
    have hpad : padTo8 (1 + bits.length) ≤ 7 := by
      unfold padTo8
      omega
    obtain ⟨out', hout, syms, k, rfl, hsyms, hsplit'⟩ := decodeStream_split ht.coded (packMarked_ne_nil bits) hshort hpad
      (backward_packMarked bits) out
    rw [ht.max] at hsplit'
    obtain ⟨rfl, -⟩ := hsplit'.unique hc.coding hsyms hsymbols hsplit
    exact hout

theorem decodeStream_iff (hc : c.Legal) (ht : c.HasTable t) (hshort : stream.length ≤ 2 ^ 17) :
    decodeStream t stream out = .ok out' ↔ ∃ s : SymbolStream, s.Legal c ∧ s.bytes = stream ∧ out' = out ++ s.literals := by
  constructor
  · intro h
    by_cases hnil : stream = []
    · subst hnil
      have hempty : SymbolStream.empty.Legal c := trivial
      refine ⟨.empty, trivial, rfl, ?_⟩
      exact Except.ok.inj (h.symm.trans (hempty.decode hc ht (Nat.zero_le _) out))
    · obtain ⟨padding, bits, hpadding, hmarked⟩ := decodeStream_marked hnil hshort h
      obtain ⟨_, hout, syms, k, rfl, hsyms, hsplit⟩ := decodeStream_split ht.coded hnil hshort hpadding hmarked out
      rw [ht.max] at hsplit
      exact ⟨.coded bits syms k, ⟨hsyms, hsplit⟩, (eq_packMarked hpadding hmarked).symm, Except.ok.inj (h.symm.trans hout)⟩
  · rintro ⟨s, hs, rfl, rfl⟩
    exact hs.decode hc ht hshort out

end

/-- The streams of a section, one or four. -/
inductive Streams where
  | one (s : SymbolStream)
  | four (s₁ s₂ s₃ s₄ : SymbolStream)

namespace Streams

def count : Streams → Nat
  | one _ => 1
  | four _ _ _ _ => 4

def bytes : Streams → Bytes
  | one s => s.bytes
  | four s₁ s₂ s₃ s₄ => jumpStreams s₁.bytes s₂.bytes s₃.bytes s₄.bytes

def literals : Streams → Bytes
  | one s => s.literals
  | four s₁ s₂ s₃ s₄ => s₁.literals ++ s₂.literals ++ s₃.literals ++ s₄.literals

def Legal (c : HuffmanCode) : Streams → Prop
  | one s => s.Legal c
  | four s₁ s₂ s₃ s₄ => (s₁.Legal c ∧ s₁.bytes.length < 65536) ∧ (s₂.Legal c ∧ s₂.bytes.length < 65536) ∧
      (s₃.Legal c ∧ s₃.bytes.length < 65536) ∧ s₄.Legal c

end Streams

/-- A number in the first bytes. -/
theorem exists_number {xs : Bytes} {k : Nat} (h : k ≤ xs.length) : ∃ n < 256 ^ k, xs = toLe k n ++ xs.drop k := by
  have hlen : (xs.take k).length = k := by rw [List.length_take]; omega
  have hlt := fromLe_lt (xs.take k)
  have hbytes := toLe_fromLe (xs.take k)
  rw [hlen] at hlt hbytes
  exact ⟨_, hlt, by rw [hbytes, List.take_append_drop]⟩

section
variable {c : HuffmanCode} {t : HuffmanTable} {payload out : Bytes} {n : Nat}

/-- Four streams stand behind the lengths of the first three. -/
theorem decodeStreams_four_inv (h : decodeStreams t 4 payload = .ok out) : ∃ s₁ s₂ s₃ s₄ out₁ out₂ out₃,
    payload = jumpStreams s₁ s₂ s₃ s₄ ∧ (s₁.length < 65536 ∧ s₂.length < 65536 ∧ s₃.length < 65536) ∧
    decodeStream t s₁ [] = .ok out₁ ∧ decodeStream t s₂ out₁ = .ok out₂ ∧ decodeStream t s₃ out₂ = .ok out₃ ∧
    decodeStream t s₄ out₃ = .ok out := by
  unfold decodeStreams at h
  rw [if_neg (by decide), if_pos rfl] at h
  obtain ⟨_, hsix, h⟩ := Run.bind_eq_ok.mp h
  rw [failIf_eq_ok] at hsix
  obtain ⟨n₁, hn₁, hpayload₁⟩ := exists_number (show 2 ≤ payload.length by omega)
  obtain ⟨n₂, hn₂, hpayload₂⟩ := exists_number (show 2 ≤ (payload.drop 2).length by rw [List.length_drop]; omega)
  obtain ⟨n₃, hn₃, hpayload₃⟩ := exists_number (show 2 ≤ ((payload.drop 2).drop 2).length by
    rw [List.length_drop, List.length_drop]; omega)
  obtain ⟨rest, hrest⟩ : ∃ rest, ((payload.drop 2).drop 2).drop 2 = rest := ⟨_, rfl⟩
  rw [hrest] at hpayload₃
  rw [hpayload₃] at hpayload₂
  rw [hpayload₂] at hpayload₁
  have hjump₁ : At payload 0 (toLe 2 n₁ ++ (toLe 2 n₂ ++ (toLe 2 n₃ ++ rest))) := ⟨Nat.zero_le _, hpayload₁⟩
  have hjump₂ := hjump₁.skip
  have hjump₃ := hjump₂.skip
  have hstreams := hjump₃.skip
  simp only [length_toLe, Nat.zero_add] at hjump₂ hjump₃ hstreams
  rw [hjump₁.readLe16_toLe hn₁, Run.ok_bind, hjump₂.readLe16_toLe hn₂, Run.ok_bind, hjump₃.readLe16_toLe hn₃,
    Run.ok_bind] at h
  simp only at h
  rw [hstreams.slice_rest, Run.ok_bind] at h
  obtain ⟨_, hends, h⟩ := Run.bind_eq_ok.mp h
  obtain ⟨s₁, hs₁, h⟩ := Run.bind_eq_ok.mp h
  obtain ⟨s₂, hs₂, h⟩ := Run.bind_eq_ok.mp h
  obtain ⟨s₃, hs₃, h⟩ := Run.bind_eq_ok.mp h
  obtain ⟨s₄, hs₄, h⟩ := Run.bind_eq_ok.mp h
  obtain ⟨out₁, hout₁, h⟩ := Run.bind_eq_ok.mp h
  obtain ⟨out₂, hout₂, h⟩ := Run.bind_eq_ok.mp h
  obtain ⟨out₃, hout₃, hout⟩ := Run.bind_eq_ok.mp h
  rw [failIf_eq_ok] at hends
  rw [slice_eq_ok] at hs₁ hs₂ hs₃ hs₄
  have htake₁ : rest.take n₁ = s₁ := hs₁.2
  have htake₂ : (rest.drop n₁).take n₂ = s₂ := by
    rw [← hs₂.2, Nat.add_sub_cancel_left]
  have htake₃ : (rest.drop (n₁ + n₂)).take n₃ = s₃ := by
    rw [← hs₃.2, Nat.add_sub_cancel_left]
  have hdrop₄ : rest.drop (n₁ + n₂ + n₃) = s₄ := by
    rw [← hs₄.2, List.take_of_length_le (by rw [List.length_drop])]
  have hlen₁ : s₁.length = n₁ := by rw [← htake₁, List.length_take]; omega
  have hlen₂ : s₂.length = n₂ := by rw [← htake₂, List.length_take, List.length_drop]; omega
  have hlen₃ : s₃.length = n₃ := by rw [← htake₃, List.length_take, List.length_drop]; omega
  have hsplit : rest = s₁ ++ (s₂ ++ (s₃ ++ s₄)) := by
    rw [← htake₁, ← htake₂, ← htake₃, ← hdrop₄]
    simp only [← List.drop_drop, List.take_append_drop]
  refine ⟨s₁, s₂, s₃, s₄, out₁, out₂, out₃, ?_, ⟨hlen₁ ▸ hn₁, hlen₂ ▸ hn₂, hlen₃ ▸ hn₃⟩, hout₁, hout₂, hout₃, hout⟩
  rw [jumpStreams, hlen₁, hlen₂, hlen₃, ← hsplit]
  exact hpayload₁

theorem decodeStreams_iff (hc : c.Legal) (ht : c.HasTable t) (hshort : payload.length ≤ 2 ^ 17) :
    decodeStreams t n payload = .ok out ↔
      ∃ ss : Streams, ss.Legal c ∧ ss.count = n ∧ ss.bytes = payload ∧ out = ss.literals := by
  constructor
  · intro h
    by_cases hone : n = 1
    · subst hone
      unfold decodeStreams at h
      rw [if_pos rfl] at h
      obtain ⟨s, hs, rfl, rfl⟩ := (decodeStream_iff hc ht hshort).mp h
      exact ⟨.one s, hs, rfl, rfl, List.nil_append _⟩
    by_cases hfour : n = 4
    · subst hfour
      obtain ⟨b₁, b₂, b₃, b₄, out₁, out₂, out₃, rfl, ⟨h₁, h₂, h₃⟩, hout₁, hout₂, hout₃, hout₄⟩ := decodeStreams_four_inv h
      have hlen := hshort
      simp only [jumpStreams, List.length_append, length_toLe] at hlen
      obtain ⟨s₁, hs₁, rfl, rfl⟩ := (decodeStream_iff hc ht (by omega)).mp hout₁
      obtain ⟨s₂, hs₂, rfl, rfl⟩ := (decodeStream_iff hc ht (by omega)).mp hout₂
      obtain ⟨s₃, hs₃, rfl, rfl⟩ := (decodeStream_iff hc ht (by omega)).mp hout₃
      obtain ⟨s₄, hs₄, rfl, rfl⟩ := (decodeStream_iff hc ht (by omega)).mp hout₄
      exact ⟨.four s₁ s₂ s₃ s₄, ⟨⟨hs₁, h₁⟩, ⟨hs₂, h₂⟩, ⟨hs₃, h₃⟩, hs₄⟩, rfl, rfl, rfl⟩
    · unfold decodeStreams at h
      rw [if_neg hone, if_neg hfour] at h
      cases h
  · rintro ⟨ss, hss, rfl, rfl, rfl⟩
    cases ss with
    | one s =>
      unfold decodeStreams Streams.count
      rw [if_pos rfl]
      exact SymbolStream.Legal.decode hc ht hss hshort []
    | four s₁ s₂ s₃ s₄ =>
      obtain ⟨⟨hs₁, h₁⟩, ⟨hs₂, h₂⟩, ⟨hs₃, h₃⟩, hs₄⟩ := hss
      have hlen := hshort
      simp only [Streams.bytes, jumpStreams, List.length_append, length_toLe] at hlen
      exact decodeStreams_jump h₁ h₂ h₃ (hs₁.decode hc ht (by omega) []) (hs₂.decode hc ht (by omega) _)
        (hs₃.decode hc ht (by omega) _) (hs₄.decode hc ht (by omega) _)

end

/-! ## Huffman literals -/

structure HuffmanLiterals where
  code : HuffmanCode
  streams : Streams

namespace HuffmanLiterals

def bytes (l : HuffmanLiterals) : Bytes := l.code.tree.bytes ++ l.streams.bytes

def literals (l : HuffmanLiterals) : Bytes := l.streams.literals

structure Legal (l : HuffmanLiterals) : Prop where
  code : l.code.Legal
  streams : l.streams.Legal l.code
  some : l.streams.bytes ≠ []
  pos : 0 < l.literals.length
  literals_le : l.literals.length ≤ 131072
  bytes_le : l.bytes.length ≤ 131072

end HuffmanLiterals

theorem decodeLiterals_iff {data out : Bytes} {n k : Nat} (hn : n ≠ 0) : decodeLiterals data n k = .ok out ↔
    ∃ l : HuffmanLiterals, l.Legal ∧ l.streams.count = k ∧ l.bytes = data ∧ l.literals.length = n ∧ out = l.literals := by
  rw [decodeLiterals_eq_ok hn]
  constructor
  · rintro ⟨hmany, hlong, t, used, hbuild, hused, hout, hcount⟩
    obtain ⟨c, hc, ⟨rest, rfl⟩, rfl, ht⟩ := code_of_buildDecoder (by omega) hbuild
    rw [List.length_append] at hused
    have hpayload := hlong
    rw [List.length_append] at hpayload
    rw [List.drop_left] at hout
    obtain ⟨ss, hss, rfl, rfl, rfl⟩ := (decodeStreams_iff hc ht (by omega)).mp hout
    have hsome : ss.bytes ≠ [] := List.ne_nil_of_length_pos (by omega)
    refine ⟨⟨c, ss⟩, ⟨hc, hss, hsome, ?_, ?_, hlong⟩, rfl, rfl, hcount, rfl⟩
    · exact Nat.pos_of_ne_zero (hcount ▸ hn)
    · exact hcount ▸ hmany
  · rintro ⟨⟨c, ss⟩, ⟨hc, hss, hsome, -, hmany, hlong⟩, rfl, rfl, rfl, rfl⟩
    have hwhole : (c.tree.bytes ++ ss.bytes).length ≤ 131072 := hlong
    have hbound : (c.tree.bytes ++ ss.bytes).length * 8 < 2 ^ 64 := by omega
    obtain ⟨t, ht, htable⟩ := HuffmanCode.Legal.buildDecoder (c := c) hc hbound
    have hpos : 0 < ss.bytes.length := List.length_pos_iff.mpr hsome
    rw [List.length_append] at hwhole
    refine ⟨hmany, hlong, t, _, ht, ?_, ?_, rfl⟩
    · show c.tree.bytes.length < (c.tree.bytes ++ ss.bytes).length
      rw [List.length_append]
      omega
    · show decodeStreams t ss.count ((c.tree.bytes ++ ss.bytes).drop c.tree.bytes.length) = .ok ss.literals
      rw [List.drop_left]
      exact (decodeStreams_iff hc htable (by omega)).mpr ⟨ss, hss, rfl, rfl, rfl⟩

/-! ## Headers -/

/-- How Huffman literals give their sizes, and whether in one stream or in four. -/
inductive HuffmanFormat where
  | single
  | four (f : FourFormat)

namespace HuffmanFormat

def limit : HuffmanFormat → Nat
  | single => 2 ^ 10
  | four f => f.limit

def code : HuffmanFormat → Nat
  | single => 0
  | four f => f.code

def streams (f : HuffmanFormat) : Nat := if f.code = 0 then 1 else 4

def header (size compressedSize : Nat) : HuffmanFormat → Bytes
  | single => toLe 3 (2 + 4 * (0 + 4 * (size + 2 ^ 10 * compressedSize)))
  | four f => f.header size compressedSize

theorem sizesHeader {size compressedSize : Nat} : ∀ f : HuffmanFormat, size < f.limit → compressedSize < f.limit →
    SizesHeader (f.header size compressedSize) f.code size compressedSize
  | single, hsize, hcompressed => sizesHeader_three (Nat.zero_le 1) hsize hcompressed
  | four f, hsize, hcompressed => f.sizesHeader hsize hcompressed

end HuffmanFormat

theorem kind_eq (b : UInt8) : (b &&& 0x03).toNat = b.toNat % 4 := by
  conv_lhs => rw [← UInt8.ofNat_toNat (x := b)]
  exact kind_ofNat _

theorem format_eq (b : UInt8) : ((b >>> 2) &&& 0x03).toNat = b.toNat / 4 % 4 := by
  conv_lhs => rw [← UInt8.ofNat_toNat (x := b)]
  exact format_ofNat _

/-- The first byte is the number's lowest. -/
theorem first_of_number {b : UInt8} {tail rest : Bytes} {k n : Nat} (h : b :: tail = toLe (k + 1) n ++ rest) :
    b.toNat = n % 256 := by
  rw [toLe, List.cons_append] at h
  rw [(List.cons.inj h).1, UInt8.toNat_ofNat']

section
variable {b : UInt8} {tail : Bytes}

theorem HuffmanFormat.header_inv (f : HuffmanFormat) (size compressedSize : Nat) {r : Nat × Nat × Nat} (hsize : size < f.limit)
    (hcompressed : compressedSize < f.limit) (hbegins : f.header size compressedSize <+: b :: tail)
    (h : readCompressedSize b (b :: tail) = .ok r) : ∃ (f : HuffmanFormat) (size compressedSize : Nat), size < f.limit ∧
      compressedSize < f.limit ∧ f.header size compressedSize <+: b :: tail ∧ ((b >>> 2) &&& 0x03).toNat = f.code ∧
      r = (size, compressedSize, (f.header size compressedSize).length) := by
  obtain ⟨b', tail', hheader, -, hformat, hread⟩ := (f.sizesHeader hsize hcompressed).spec
  obtain ⟨rest, hrest⟩ := hbegins
  obtain rfl : b' = b := by
    rw [hheader, List.cons_append] at hrest
    exact (List.cons.inj hrest).1
  refine ⟨f, size, compressedSize, hsize, hcompressed, ⟨rest, hrest⟩, hformat, ?_⟩
  have hforward := hread rest
  rw [hrest] at hforward
  exact Except.ok.inj (h.symm.trans hforward)

/-- A header that sizes are read from gives these sizes. -/
theorem readCompressedSize_inv {r : Nat × Nat × Nat} (hkind : (b &&& 0x03).toNat = 2)
    (h : readCompressedSize b (b :: tail) = .ok r) : ∃ (f : HuffmanFormat) (size compressedSize : Nat), size < f.limit ∧
      compressedSize < f.limit ∧ f.header size compressedSize <+: b :: tail ∧ ((b >>> 2) &&& 0x03).toNat = f.code ∧
      r = (size, compressedSize, (f.header size compressedSize).length) := by
  have hread := h
  unfold readCompressedSize at hread
  rw [kind_eq] at hkind
  obtain ⟨v, hv⟩ : ∃ v, b.toNat / 4 % 4 = v := ⟨_, rfl⟩
  have hfour : v = 0 ∨ v = 1 ∨ v = 2 ∨ v = 3 := by omega
  rw [format_eq, hv] at hread
  rcases hfour with rfl | rfl | rfl | rfl
  · obtain ⟨_, hlen, -⟩ := Run.bind_eq_ok.mp hread
    rw [failIf_eq_ok] at hlen
    obtain ⟨n, hn, hdata⟩ := exists_number (show 3 ≤ (b :: tail).length by omega)
    have hfirst := first_of_number hdata
    refine HuffmanFormat.single.header_inv (n / 16 % 2 ^ 10) (n / 2 ^ 14) ?_ ?_ ?_ h
    · exact Nat.mod_lt _ (by decide)
    · show n / 2 ^ 14 < 2 ^ 10
      omega
    · show toLe 3 (2 + 4 * (0 + 4 * (n / 16 % 2 ^ 10 + 2 ^ 10 * (n / 2 ^ 14)))) <+: _
      rw [show 2 + 4 * (0 + 4 * (n / 16 % 2 ^ 10 + 2 ^ 10 * (n / 2 ^ 14))) = n by omega]
      exact ⟨_, hdata.symm⟩
  · obtain ⟨_, hlen, -⟩ := Run.bind_eq_ok.mp hread
    rw [failIf_eq_ok] at hlen
    obtain ⟨n, hn, hdata⟩ := exists_number (show 3 ≤ (b :: tail).length by omega)
    have hfirst := first_of_number hdata
    refine (HuffmanFormat.four .bits10).header_inv (n / 16 % 2 ^ 10) (n / 2 ^ 14) ?_ ?_ ?_ h
    · exact Nat.mod_lt _ (by decide)
    · show n / 2 ^ 14 < 2 ^ 10
      omega
    · show toLe 3 (2 + 4 * (1 + 4 * (n / 16 % 2 ^ 10 + 2 ^ 10 * (n / 2 ^ 14)))) <+: _
      rw [show 2 + 4 * (1 + 4 * (n / 16 % 2 ^ 10 + 2 ^ 10 * (n / 2 ^ 14))) = n by omega]
      exact ⟨_, hdata.symm⟩
  · obtain ⟨_, hlen, -⟩ := Run.bind_eq_ok.mp hread
    rw [failIf_eq_ok] at hlen
    obtain ⟨n, hn, hdata⟩ := exists_number (show 4 ≤ (b :: tail).length by omega)
    have hfirst := first_of_number hdata
    refine (HuffmanFormat.four .bits14).header_inv (n / 16 % 2 ^ 14) (n / 2 ^ 18) ?_ ?_ ?_ h
    · exact Nat.mod_lt _ (by decide)
    · show n / 2 ^ 18 < 2 ^ 14
      omega
    · show toLe 4 (2 + 4 * (2 + 4 * (n / 16 % 2 ^ 14 + 2 ^ 14 * (n / 2 ^ 18)))) <+: _
      rw [show 2 + 4 * (2 + 4 * (n / 16 % 2 ^ 14 + 2 ^ 14 * (n / 2 ^ 18))) = n by omega]
      exact ⟨_, hdata.symm⟩
  · obtain ⟨_, hlen, -⟩ := Run.bind_eq_ok.mp hread
    rw [failIf_eq_ok] at hlen
    obtain ⟨n, hn, hdata⟩ := exists_number (show 5 ≤ (b :: tail).length by omega)
    have hfirst := first_of_number hdata
    refine (HuffmanFormat.four .bits18).header_inv (n / 16 % 2 ^ 18) (n / 2 ^ 22) ?_ ?_ ?_ h
    · exact Nat.mod_lt _ (by decide)
    · show n / 2 ^ 22 < 2 ^ 18
      omega
    · show toLe 5 (2 + 4 * (3 + 4 * (n / 16 % 2 ^ 18 + 2 ^ 18 * (n / 2 ^ 22)))) <+: _
      rw [show 2 + 4 * (3 + 4 * (n / 16 % 2 ^ 18 + 2 ^ 18 * (n / 2 ^ 22))) = n by omega]
      exact ⟨_, hdata.symm⟩

theorem SizeFormat.header_inv (f : SizeFormat) (size : Nat) {kind : Nat} {r : Nat × Nat} (hsize : size < f.limit) (hkind : kind < 4)
    (hbegins : f.header kind size <+: b :: tail) (h : readRawRleSize b (b :: tail) = .ok r) :
    ∃ (f : SizeFormat) (size : Nat), size < f.limit ∧ f.header kind size <+: b :: tail ∧
      r = (size, (f.header kind size).length) := by
  obtain ⟨b', tail', hheader, -, hread⟩ := f.header_spec hsize hkind
  obtain ⟨rest, hrest⟩ := hbegins
  obtain rfl : b' = b := by
    rw [hheader, List.cons_append] at hrest
    exact (List.cons.inj hrest).1
  refine ⟨f, size, hsize, ⟨rest, hrest⟩, ?_⟩
  have hforward := hread rest
  rw [hrest] at hforward
  exact Except.ok.inj (h.symm.trans hforward)

theorem readRawRleSize_inv {r : Nat × Nat} {kind : Nat} (hkind : (b &&& 0x03).toNat = kind)
    (h : readRawRleSize b (b :: tail) = .ok r) : ∃ (f : SizeFormat) (size : Nat), size < f.limit ∧
      f.header kind size <+: b :: tail ∧ r = (size, (f.header kind size).length) := by
  have hread := h
  unfold readRawRleSize at hread
  rw [kind_eq] at hkind
  have hkind4 : kind < 4 := by omega
  have hb := b.toNat_lt
  obtain ⟨v, hv⟩ : ∃ v, b.toNat / 4 % 4 = v := ⟨_, rfl⟩
  have hfour : v = 0 ∨ v = 1 ∨ v = 2 ∨ v = 3 := by omega
  have hone : b.toNat / 4 % 2 = 0 → ∃ (f : SizeFormat) (size : Nat), size < f.limit ∧ f.header kind size <+: b :: tail ∧
      r = (size, (f.header kind size).length) := by
    intro heven
    refine SizeFormat.one.header_inv (b.toNat / 8) ?_ hkind4 ?_ h
    · show b.toNat / 8 < 2 ^ 5
      omega
    · show toLe 1 (kind + 8 * (b.toNat / 8)) <+: _
      rw [show kind + 8 * (b.toNat / 8) = b.toNat by omega, toLe, UInt8.ofNat_toNat]
      exact ⟨tail, rfl⟩
  rw [format_eq, hv] at hread
  rcases hfour with rfl | rfl | rfl | rfl
  · exact hone (by omega)
  · obtain ⟨_, hlen, -⟩ := Run.bind_eq_ok.mp hread
    rw [failIf_eq_ok] at hlen
    obtain ⟨n, hn, hdata⟩ := exists_number (show 2 ≤ (b :: tail).length by omega)
    have hfirst := first_of_number hdata
    refine SizeFormat.two.header_inv (n / 16) ?_ hkind4 ?_ h
    · show n / 16 < 2 ^ 12
      omega
    · show toLe 2 (kind + 4 * (1 + 4 * (n / 16))) <+: _
      rw [show kind + 4 * (1 + 4 * (n / 16)) = n by omega]
      exact ⟨_, hdata.symm⟩
  · exact hone (by omega)
  · obtain ⟨_, hlen, -⟩ := Run.bind_eq_ok.mp hread
    rw [failIf_eq_ok] at hlen
    obtain ⟨n, hn, hdata⟩ := exists_number (show 3 ≤ (b :: tail).length by omega)
    have hfirst := first_of_number hdata
    refine SizeFormat.three.header_inv (n / 16) ?_ hkind4 ?_ h
    · show n / 16 < 2 ^ 20
      omega
    · show toLe 3 (kind + 4 * (3 + 4 * (n / 16))) <+: _
      rw [show kind + 4 * (3 + 4 * (n / 16)) = n by omega]
      exact ⟨_, hdata.symm⟩

end

/-! ## Sections -/

/-- A section of Huffman literals may have no compressed bytes, and then its literals are
raw, or no literals, and then its bytes are not looked at. -/
inductive TakenSection where
  | raw (format : SizeFormat) (ys : Bytes)
  | rle (format : SizeFormat) (byte : UInt8) (count : Nat)
  | stored (format : HuffmanFormat) (ys : Bytes)
  | unread (format : HuffmanFormat) (ys : Bytes)
  | coded (format : HuffmanFormat) (l : HuffmanLiterals)

namespace TakenSection

def encode : TakenSection → Bytes
  | raw format ys => format.header 0 ys.length ++ ys
  | rle format byte count => format.header 1 count ++ [byte]
  | stored format ys => format.header ys.length 0 ++ ys
  | unread format ys => format.header 0 ys.length ++ ys
  | coded format l => format.header l.literals.length l.bytes.length ++ l.bytes

def literals : TakenSection → Bytes
  | raw _ ys => ys
  | rle _ byte count => List.replicate count byte
  | stored _ ys => ys
  | unread _ _ => []
  | coded _ l => l.literals

def Legal : TakenSection → Prop
  | raw format ys => ys.length < format.limit
  | rle format _ count => count < format.limit
  | stored format ys => ys.length < format.limit
  | unread format ys => 0 < ys.length ∧ ys.length < format.limit ∧ ys.length ≤ 131072
  | coded format l => l.Legal ∧ l.streams.count = format.streams ∧ l.literals.length < format.limit ∧
      l.bytes.length < format.limit

end TakenSection

theorem okOrInvalid_ok_iff {α : Type} {x : Opt α} {a : α} {offset : Nat} {reason : String} :
    okOrInvalid x offset reason = .ok a ↔ x = .ok a := by
  unfold okOrInvalid
  rcases x with (_ | _ | _) | a'
  · exact ⟨(fun h => by cases h), fun h => by cases h⟩
  · exact ⟨(fun h => by cases h), fun h => by cases h⟩
  · exact ⟨(fun h => by cases h), fun h => by cases h⟩
  · exact ⟨fun h => congrArg _ (Except.ok.inj h), fun h => congrArg _ (Except.ok.inj h)⟩

theorem HuffmanFormat.limit_pos (f : HuffmanFormat) : 0 < f.limit := by
  rcases f with _ | (_ | _ | _)
  · decide
  · decide
  · decide
  · decide

theorem decodeLiterals_zero {data : Bytes} {k : Nat} (h : data.length ≤ 131072) : decodeLiterals data 0 k = .ok [] := by
  unfold decodeLiterals
  rw [failIf_false _ (by decide), Run.ok_bind, failIf_false _ (by omega), Run.ok_bind, if_pos rfl]
  rfl

section
variable {header tail rest payload ys : Bytes} {b : UInt8}

/-- What the parser makes of Huffman literals whose header it has read. -/
theorem extractLiteralsFromBlock_sizes {f : HuffmanFormat} {size compressedSize : Nat} (hsize : size < f.limit)
    (hcompressed : compressedSize < f.limit) (hrest : b :: tail = f.header size compressedSize ++ rest) :
    extractLiteralsFromBlock (b :: tail) = .ok ys ↔
      (compressedSize = 0 ∧ size ≤ rest.length ∧ rest.take size = ys) ∨ (compressedSize ≠ 0 ∧
        compressedSize ≤ rest.length ∧ decodeLiterals (rest.take compressedSize) size f.streams = .ok ys) := by
  obtain ⟨b', tail', hheader, hkind, hformat, hread⟩ := (f.sizesHeader hsize hcompressed).spec
  obtain rfl : b' = b := by
    rw [hheader, List.cons_append] at hrest
    exact (List.cons.inj hrest).1.symm
  have hforward := hread rest
  have hat := At.mid (f.header size compressedSize) rest
  rw [← hrest] at hforward hat
  have hend := hat.length
  have hfirst := At.start (b' :: tail)
  have hpos : 1 + ((f.header size compressedSize).length - 1) = (f.header size compressedSize).length := by
    rw [hheader, List.length_cons]
    omega
  unfold extractLiteralsFromBlock
  rw [if_neg (List.cons_ne_nil _ _), hfirst.index, Run.ok_bind]
  simp only
  rw [hkind]
  simp only
  rw [hforward, Run.ok_bind]
  simp only
  rw [hpos]
  by_cases hzero : compressedSize = 0
  · rw [if_pos hzero]
    by_cases hfit : size ≤ rest.length
    · rw [failIf_false _ (by omega), Run.ok_bind, slice_eq_ok, hat.drop, Nat.add_sub_cancel_left]
      constructor
      · rintro ⟨-, hys⟩
        exact .inl ⟨hzero, hfit, hys⟩
      · rintro (⟨-, -, hys⟩ | ⟨hne, -⟩)
        · exact ⟨by omega, hys⟩
        · exact absurd hzero hne
    · rw [failIf_true _ (by omega)]
      refine ⟨(fun h => by cases h), ?_⟩
      rintro (⟨-, hfit', -⟩ | ⟨hne, -⟩)
      · exact absurd hfit' hfit
      · exact absurd hzero hne
  · rw [if_neg hzero]
    by_cases hfit : compressedSize ≤ rest.length
    · have hslice : (slice (b' :: tail) (f.header size compressedSize).length ((f.header size compressedSize).length +
          compressedSize) : Run ZiftError Bytes) = .ok (rest.take compressedSize) := by
        rw [slice_eq_ok, hat.drop, Nat.add_sub_cancel_left]
        exact ⟨by omega, rfl⟩
      rw [failIf_false _ (by omega), Run.ok_bind, hslice, Run.ok_bind, hformat, okOrInvalid_ok_iff]
      constructor
      · intro h
        exact .inr ⟨hzero, hfit, h⟩
      · rintro (⟨hnone, -⟩ | ⟨-, -, h⟩)
        · exact absurd hnone hzero
        · exact h
    · rw [failIf_true _ (by omega)]
      refine ⟨(fun h => by cases h), ?_⟩
      rintro (⟨hnone, -⟩ | ⟨-, hfit', -⟩)
      · exact absurd hnone hzero
      · exact absurd hfit' hfit

/-- A legal section is taken, whatever follows it. -/
theorem TakenSection.Legal.taken {s : TakenSection} (hs : s.Legal) (rest : Bytes) :
    extractLiteralsFromBlock (s.encode ++ rest) = .ok s.literals := by
  cases s with
  | raw format ys =>
    have hl : ys.length < format.limit := hs
    rw [encode, List.append_assoc]
    exact extractLiteralsFromBlock_raw hl
  | rle format byte count =>
    have hl : count < format.limit := hs
    rw [encode, List.append_assoc]
    exact extractLiteralsFromBlock_rle hl
  | stored format ys =>
    have hl : ys.length < format.limit := hs
    obtain ⟨b, tail, hcons, -⟩ := (format.sizesHeader hl format.limit_pos).spec
    rw [encode, List.append_assoc, hcons, List.cons_append]
    apply (extractLiteralsFromBlock_sizes (f := format) hl format.limit_pos (by rw [hcons]; rfl)).mpr
    exact .inl ⟨rfl, by simp, List.take_left⟩
  | unread format ys =>
    obtain ⟨hpos, hl, hlong⟩ := hs
    obtain ⟨b, tail, hcons, -⟩ := (format.sizesHeader format.limit_pos hl).spec
    rw [encode, List.append_assoc, hcons, List.cons_append]
    apply (extractLiteralsFromBlock_sizes (f := format) format.limit_pos hl (by rw [hcons]; rfl)).mpr
    refine .inr ⟨by omega, by simp, ?_⟩
    rw [List.take_left]
    exact decodeLiterals_zero hlong
  | coded format l =>
    obtain ⟨hl, hcount, hsize, hcompressed⟩ := hs
    obtain ⟨b, tail, hcons, -⟩ := (format.sizesHeader hsize hcompressed).spec
    rw [encode, List.append_assoc, hcons, List.cons_append]
    apply (extractLiteralsFromBlock_sizes (f := format) hsize hcompressed (by rw [hcons]; rfl)).mpr
    have hpos := hl.pos
    have hsome : 0 < l.streams.bytes.length := List.length_pos_iff.mpr hl.some
    have hbytes : 0 < l.bytes.length := by
      rw [HuffmanLiterals.bytes, List.length_append]
      omega
    refine .inr ⟨by omega, by simp, ?_⟩
    rw [List.take_left]
    exact (decodeLiterals_iff (by omega)).mpr ⟨l, hl, hcount, rfl, rfl, rfl⟩

theorem section_of_raw (hkind : (b &&& 0x03).toNat = 0) (h : extractLiteralsFromBlock (b :: tail) = .ok ys) :
    ∃ s : TakenSection, s.Legal ∧ s.encode <+: b :: tail ∧ s.literals = ys := by
  unfold extractLiteralsFromBlock at h
  rw [if_neg (List.cons_ne_nil _ _), (At.start (b :: tail)).index, Run.ok_bind] at h
  simp only at h
  rw [hkind] at h
  simp only at h
  obtain ⟨_, hread, h⟩ := Run.bind_eq_ok.mp h
  obtain ⟨f, size, hsize, ⟨rest, hrest⟩, rfl⟩ := readRawRleSize_inv hkind hread
  obtain ⟨_, hfit, h⟩ := Run.bind_eq_ok.mp h
  obtain ⟨b', tail', hheader, -⟩ := f.header_spec hsize (show 0 < 4 by decide)
  have hpos := (first_of_header hheader rest).2.2
  have hat := At.mid (f.header 0 size) rest
  rw [hrest] at hat
  have hend := hat.length
  simp only at hfit h
  rw [failIf_eq_ok, hpos] at hfit
  rw [hpos, slice_eq_ok, hat.drop, Nat.add_sub_cancel_left] at h
  obtain ⟨-, rfl⟩ := h
  have hlen : (rest.take size).length = size := by
    rw [List.length_take]
    omega
  refine ⟨.raw f (rest.take size), ?_, ?_, rfl⟩
  · show (rest.take size).length < f.limit
    rwa [hlen]
  · refine ⟨rest.drop size, ?_⟩
    rw [TakenSection.encode, hlen, List.append_assoc, List.take_append_drop, hrest]

theorem section_of_rle (hkind : (b &&& 0x03).toNat = 1) (h : extractLiteralsFromBlock (b :: tail) = .ok ys) :
    ∃ s : TakenSection, s.Legal ∧ s.encode <+: b :: tail ∧ s.literals = ys := by
  unfold extractLiteralsFromBlock at h
  rw [if_neg (List.cons_ne_nil _ _), (At.start (b :: tail)).index, Run.ok_bind] at h
  simp only at h
  rw [hkind] at h
  simp only at h
  obtain ⟨_, hread, h⟩ := Run.bind_eq_ok.mp h
  obtain ⟨f, size, hsize, ⟨rest, hrest⟩, rfl⟩ := readRawRleSize_inv hkind hread
  obtain ⟨_, hfit, h⟩ := Run.bind_eq_ok.mp h
  obtain ⟨byte, hbyte, h⟩ := Run.bind_eq_ok.mp h
  obtain ⟨b', tail', hheader, -⟩ := f.header_spec hsize (show 1 < 4 by decide)
  have hpos := (first_of_header hheader rest).2.2
  have hat := At.mid (f.header 1 size) rest
  rw [hrest] at hat
  have hend := hat.length
  simp only at hfit hbyte
  rw [failIf_eq_ok, hpos] at hfit
  rw [hpos] at hbyte
  cases rest with
  | nil =>
    rw [List.length_nil] at hend
    omega
  | cons byte' rest =>
    rw [hat.index] at hbyte
    obtain rfl := Except.ok.inj hbyte
    refine ⟨.rle f byte' size, hsize, ⟨rest, ?_⟩, Except.ok.inj h⟩
    rw [TakenSection.encode, List.append_assoc, List.singleton_append, hrest]

theorem section_of_sizes (hkind : (b &&& 0x03).toNat = 2) (h : extractLiteralsFromBlock (b :: tail) = .ok ys) :
    ∃ s : TakenSection, s.Legal ∧ s.encode <+: b :: tail ∧ s.literals = ys := by
  have hread := h
  unfold extractLiteralsFromBlock at hread
  rw [if_neg (List.cons_ne_nil _ _), (At.start (b :: tail)).index, Run.ok_bind] at hread
  simp only at hread
  rw [hkind] at hread
  simp only at hread
  obtain ⟨_, hread, -⟩ := Run.bind_eq_ok.mp hread
  obtain ⟨f, size, compressedSize, hsize, hcompressed, ⟨rest, hrest⟩, -, -⟩ := readCompressedSize_inv hkind hread
  rcases (extractLiteralsFromBlock_sizes hsize hcompressed hrest.symm).mp h with ⟨rfl, hfit, rfl⟩ | ⟨hne, hfit, hdecode⟩
  · have hlen : (rest.take size).length = size := by
      rw [List.length_take]
      omega
    refine ⟨.stored f (rest.take size), ?_, ⟨rest.drop size, ?_⟩, rfl⟩
    · show (rest.take size).length < f.limit
      rwa [hlen]
    · rw [TakenSection.encode, hlen, List.append_assoc, List.take_append_drop, hrest]
  have hlen : (rest.take compressedSize).length = compressedSize := by
    rw [List.length_take]
    omega
  by_cases hzero : size = 0
  · subst hzero
    have hshort : (rest.take compressedSize).length ≤ 131072 := by
      by_contra hlong
      unfold decodeLiterals at hdecode
      rw [failIf_false _ (by decide), Run.ok_bind, failIf_true _ (by omega)] at hdecode
      cases hdecode
    rw [decodeLiterals_zero hshort] at hdecode
    refine ⟨.unread f (rest.take compressedSize), ?_, ⟨rest.drop compressedSize, ?_⟩, Except.ok.inj hdecode⟩
    · refine ⟨?_, ?_, hshort⟩
      · omega
      · rwa [hlen]
    · rw [TakenSection.encode, hlen, List.append_assoc, List.take_append_drop, hrest]
  · obtain ⟨l, hl, hcount, hbytes, rfl, rfl⟩ := (decodeLiterals_iff hzero).mp hdecode
    refine ⟨.coded f l, ?_, ⟨rest.drop compressedSize, ?_⟩, rfl⟩
    · refine ⟨hl, hcount, hsize, ?_⟩
      rwa [hbytes, hlen]
    · rw [TakenSection.encode, hbytes, hlen, List.append_assoc, List.take_append_drop, hrest]

theorem section_of_extractLiterals (h : extractLiteralsFromBlock (b :: tail) = .ok ys) :
    ∃ s : TakenSection, s.Legal ∧ s.encode <+: b :: tail ∧ s.literals = ys := by
  obtain ⟨kind, hkind⟩ : ∃ kind, (b &&& 0x03).toNat = kind := ⟨_, rfl⟩
  have hfour : kind = 0 ∨ kind = 1 ∨ kind = 2 ∨ kind = 3 := by
    rw [kind_eq] at hkind
    omega
  rcases hfour with rfl | rfl | rfl | rfl
  · exact section_of_raw hkind h
  · exact section_of_rle hkind h
  · exact section_of_sizes hkind h
  · unfold extractLiteralsFromBlock at h
    rw [if_neg (List.cons_ne_nil _ _), (At.start (b :: tail)).index, Run.ok_bind] at h
    simp only at h
    rw [hkind] at h
    cases h

theorem section_iff {data : Bytes} : extractLiteralsFromBlock data = .ok ys ↔
    (data = [] ∧ ys = []) ∨ ∃ s : TakenSection, s.Legal ∧ s.encode <+: data ∧ s.literals = ys := by
  constructor
  · intro h
    cases data with
    | nil => exact .inl ⟨rfl, (Except.ok.inj h).symm⟩
    | cons b tail => exact .inr (section_of_extractLiterals h)
  · rintro (⟨rfl, rfl⟩ | ⟨s, hs, ⟨rest, rfl⟩, rfl⟩)
    · rfl
    · exact hs.taken rest

end

/-- **The literals sections that are taken**, with their literals. -/
theorem extractLiteralsFromBlock_takes_iff (data ys : Bytes) : extractLiteralsFromBlock data = .ok ys ↔
    (data = [] ∧ ys = []) ∨ ∃ s : TakenSection, s.Legal ∧ s.encode <+: data ∧ s.literals = ys := section_iff

end Ziftsieve.Zstd
