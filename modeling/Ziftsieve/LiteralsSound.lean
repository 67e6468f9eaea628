import Ziftsieve.HuffmanStreams

/-!
# Soundness of the literals section

A section's header gives back its kind, its format and its sizes; direct weights
give back the code; and a stream of the code gives back its symbols, since the
bits behind the marker split into codes in one way. So a section decodes to its
literals, whatever follows it in the block.
-/

namespace Ziftsieve.Zstd

/-! ## Weights -/

theorem length_nibbles (spare : Nat) : ∀ ws : List Nat, (nibbles spare ws).length = (ws.length + 1) / 2
  | [] => rfl
  | [_] => by rw [nibbles, List.length_singleton, List.length_singleton]
  | _ :: _ :: ws => by
    rw [nibbles, List.length_cons, length_nibbles spare ws, List.length_cons, List.length_cons]
    omega

theorem getElem?_nibbles {spare : Nat} (hspare : spare < 16) : ∀ {ws : List Nat} {i w : Nat}, (∀ v ∈ ws, v < 16) →
    ws[i]? = some w → ∃ b, (nibbles spare ws)[i / 2]? = some b ∧
      (if i % 2 = 0 then b.toNat >>> 4 else b.toNat &&& 0x0F) = w
  | [], i, w, _, h => by cases h
  | [v], i, w, hws, h => by
    have hv := hws v List.mem_cons_self
    match i, h with
    | 0, h =>
      obtain rfl := Option.some.inj h
      refine ⟨_, rfl, ?_⟩
      rw [if_pos rfl, Nat.shiftRight_eq_div_pow, UInt8.toNat_ofNat']
      omega
  | u :: v :: ws, i, w, hws, h => by
    have hu := hws u List.mem_cons_self
    have hv := hws v (List.mem_cons_of_mem _ List.mem_cons_self)
    match i, h with
    | 0, h =>
      obtain rfl := Option.some.inj h
      refine ⟨_, rfl, ?_⟩
      rw [if_pos rfl, Nat.shiftRight_eq_div_pow, UInt8.toNat_ofNat']
      omega
    | 1, h =>
      obtain rfl := Option.some.inj h
      refine ⟨_, rfl, ?_⟩
      rw [if_neg (by decide), show 0x0F = 2 ^ 4 - 1 from rfl, Nat.and_two_pow_sub_one_eq_mod, UInt8.toNat_ofNat']
      omega
    | i + 2, h =>
      have htail : ∀ x ∈ ws, x < 16 := fun x hx => hws x (List.mem_cons_of_mem _ (List.mem_cons_of_mem _ hx))
      obtain ⟨b, hb, hw⟩ := getElem?_nibbles hspare htail h
      refine ⟨b, ?_, ?_⟩
      · rw [nibbles, show (i + 2) / 2 = i / 2 + 1 by omega, List.getElem?_cons_succ, hb]
      · rwa [show (i + 2) % 2 = i % 2 by omega]

namespace DirectCode

theorem explicit_lt (c : DirectCode) : ∀ w ∈ c.explicit, w < 16 := by
  intro w hw
  have hle := c.complete.le w (List.mem_append_left _ hw)
  have := c.maxBits_le
  omega

theorem explicit_ne_nil (c : DirectCode) : 0 < c.explicit.length := by
  rw [List.length_pos_iff]
  intro hnil
  have hle := c.complete.le c.last (by simp)
  have hfull := c.complete.full
  have hpos := c.last_pos
  rw [hnil, List.nil_append, List.map_singleton, List.sum_singleton, weightShare, if_neg (by omega)] at hfull
  have := Nat.pow_right_injective (Nat.le_refl 2) hfull
  omega

theorem length_tree (c : DirectCode) : c.tree.length = 1 + (c.explicit.length + 1) / 2 := by
  rw [tree, List.length_cons, length_nibbles, Nat.add_comm]

theorem readDirectWeights_tree (c : DirectCode) (rest : Bytes) :
    readDirectWeights (127 + c.explicit.length) (nibbles c.spare c.explicit ++ rest) =
      .ok (c.explicit, 8 + 4 * c.explicit.length) := by
  have hlen := length_nibbles c.spare c.explicit
  have hneeded : (if c.explicit.length % 2 = 0 then c.explicit.length / 2 else c.explicit.length / 2 + 1) =
      (nibbles c.spare c.explicit).length := by
    rw [hlen]
    split <;> omega
  unfold readDirectWeights
  simp only
  rw [Nat.add_sub_cancel_left, hneeded, failIf_false _ (by rw [List.length_append]; omega), Run.ok_bind]
  have hfold : Gives ((List.range c.explicit.length).foldlM (directTurn (nibbles c.spare c.explicit ++ rest))
      (List.replicate c.explicit.length 0))
      fun ws : List Nat => ws.length = c.explicit.length ∧ ∀ i < c.explicit.length, ws[i]? = c.explicit[i]? := by
    refine Gives.foldlM_range
      (I := fun n (ws : List Nat) => ws.length = c.explicit.length ∧ ∀ i < n, ws[i]? = c.explicit[i]?) ?_
      ⟨List.length_replicate, fun i hi => absurd hi (Nat.not_lt_zero i)⟩
    rintro n hn ws ⟨hws, hsame⟩
    obtain ⟨b, hb, hw⟩ := getElem?_nibbles c.spare_lt c.explicit_lt (List.getElem?_eq_getElem hn)
    have hin : n / 2 < (nibbles c.spare c.explicit).length := (List.getElem?_eq_some_iff.mp hb).1
    unfold directTurn
    rw [index_eq_ok.mpr (by rw [List.getElem?_append_left hin]; exact hb), Run.ok_bind, hw, setAt_eq (by omega)]
    refine Gives.ok ⟨by rw [List.length_set, hws], fun i hi => ?_⟩
    by_cases hlast : n = i
    · rw [← hlast, List.getElem?_set_self (by omega), List.getElem?_eq_getElem hn]
    · rw [List.getElem?_set_ne hlast, hsame i (by omega)]
  obtain ⟨ws, hws, hlength, hsame⟩ := hfold
  have heq : ws = c.explicit := by
    refine List.ext_getElem? fun i => ?_
    by_cases hi : i < c.explicit.length
    · exact hsame i hi
    · rw [List.getElem?_eq_none (by omega), List.getElem?_eq_none (by omega)]
  rw [hws, heq]
  rfl

theorem readWeights_tree (c : DirectCode) (rest : Bytes) :
    readWeights (c.tree ++ rest) = .ok (c.explicit, c.tree.length) := by
  have hpos := c.explicit_ne_nil
  have hfew := c.explicit_le
  have hstart : At (c.tree ++ rest) 0 (UInt8.ofNat (127 + c.explicit.length) :: (nibbles c.spare c.explicit ++ rest)) :=
    At.start _
  have hheader : (UInt8.ofNat (127 + c.explicit.length)).toNat = 127 + c.explicit.length := by
    rw [UInt8.toNat_ofNat']
    omega
  have hrest : At (c.tree ++ rest) 1 (nibbles c.spare c.explicit ++ rest) := hstart.tail
  unfold readWeights
  rw [failIf_false _ (by simp [tree]), Run.ok_bind, hstart.index, Run.ok_bind, hheader]
  simp only
  rw [hrest.slice_rest, Run.ok_bind, if_neg (by omega), c.readDirectWeights_tree, Run.ok_bind, c.length_tree]
  simp only [Run.pure_eq, Except.ok.injEq, Prod.mk.injEq, true_and]
  split <;> omega

theorem buildDecoder_tree (c : DirectCode) (rest : Bytes) : Gives (HuffmanTable.buildDecoder (c.tree ++ rest)) fun r =>
    r.1.maxNumBits = c.maxBits ∧ r.1.Coded c.weights ∧ r.2 = c.tree.length := by
  have hfew := c.explicit_le
  unfold HuffmanTable.buildDecoder
  rw [c.readWeights_tree, Run.ok_bind]
  refine (buildTableFromWeights_complete (by omega) c.maxBits_le c.last_pos c.complete).bind fun t ht => ?_
  exact Gives.ok ⟨ht.1, ht.2, rfl⟩

/-! ## Streams -/

theorem flatMap_word (c : DirectCode) (ys : Bytes) :
    ys.flatMap c.word = (ys.map UInt8.toNat).flatMap (weightCode c.maxBits c.weights) := by
  rw [List.flatMap_map]
  rfl

end DirectCode

theorem backward_encodeStream (word : UInt8 → List Bool) (ys : Bytes) : backward (encodeStream word ys) =
    marked (padTo8 (1 + (ys.flatMap word).length)) (ys.flatMap word) := by
  have hpad := padTo8_add (1 + (ys.flatMap word).length)
  unfold backward encodeStream
  rw [bytesBits_pack ((1 + (ys.flatMap word).length + padTo8 (1 + (ys.flatMap word).length)) / 8) _ (by
    rw [List.length_reverse, marked, List.length_append, List.length_replicate, List.length_cons]
    omega), List.reverse_reverse]

theorem encodeStream_ne_nil (word : UInt8 → List Bool) (ys : Bytes) : encodeStream word ys ≠ [] := by
  intro hnil
  have hback := congrArg List.length (backward_encodeStream word ys)
  rw [hnil, length_backward, marked, List.length_append, List.length_cons, List.length_nil] at hback
  omega

/-- **A stream of a code gives back its symbols.** -/
theorem decodeStream_encodeStream {c : DirectCode} {t : HuffmanTable} (hmax : t.maxNumBits = c.maxBits)
    (ht : t.Coded c.weights) {ys : Bytes} (hys : ∀ b ∈ ys, c.HasWord b)
    (hshort : (encodeStream c.word ys).length ≤ 2 ^ 17) (out : Bytes) :
    decodeStream t (encodeStream c.word ys) out = .ok (out ++ ys) := by
  have hpad : padTo8 (1 + (ys.flatMap c.word).length) ≤ 7 := by unfold padTo8; omega
  obtain ⟨out', hout, syms, j, rfl, hsyms, hsplit⟩ := decodeStream_split ht (encodeStream_ne_nil c.word ys) hshort hpad
    (backward_encodeStream c.word ys) out
  have hwhole := Split.whole (weightCode t.maxNumBits c.weights) false (ys.map UInt8.toNat)
  rw [hmax] at hsplit hwhole
  rw [← c.flatMap_word] at hwhole
  have hcoded : ∀ s ∈ ys.map UInt8.toNat, s ∈ codedSymbols c.weights := by
    intro s hs
    obtain ⟨b, hb, rfl⟩ := List.mem_map.mp hs
    exact hys b hb
  obtain ⟨rfl, -⟩ := hsplit.unique (coding_weightCode c.complete) hsyms hcoded hwhole
  rw [hout, List.map_map]
  congr 2
  exact (List.map_congr_left fun b _ => UInt8.ofNat_toNat).trans (List.map_id ys)

/-! ## Huffman literals -/

section
variable {c : DirectCode}

theorem decodeLiterals_tree {numLiterals numStreams : Nat} {payload ys : Bytes} (hpos : 1 ≤ numLiterals)
    (hmany : numLiterals ≤ 131072) (hne : payload ≠ []) (hshort : (c.tree ++ payload).length ≤ 131072)
    (hlen : ys.length = numLiterals) (hstreams : ∀ t : HuffmanTable, t.maxNumBits = c.maxBits → t.Coded c.weights →
      decodeStreams t numStreams payload = .ok ys) :
    decodeLiterals (c.tree ++ payload) numLiterals numStreams = .ok ys := by
  obtain ⟨⟨t, treeBytes⟩, hbuild, hmax, hcoded, rfl⟩ := c.buildDecoder_tree payload
  have hsome := List.length_pos_iff.mpr hne
  refine (decodeLiterals_eq_ok (by omega)).mpr ⟨hmany, hshort, t, _, hbuild, ?_, ?_, hlen⟩
  · rw [List.length_append]
    omega
  · rw [List.drop_left]
    exact hstreams t hmax hcoded

theorem decodeLiterals_single {ys : Bytes} (hys : ∀ b ∈ ys, c.HasWord b) (hpos : 1 ≤ ys.length)
    (hmany : ys.length ≤ 131072) (hshort : (c.tree ++ encodeStream c.word ys).length ≤ 131072) :
    decodeLiterals (c.tree ++ encodeStream c.word ys) ys.length 1 = .ok ys := by
  have hle := hshort
  rw [List.length_append] at hle
  refine decodeLiterals_tree hpos hmany (encodeStream_ne_nil _ _) hshort rfl fun t hmax ht => ?_
  unfold decodeStreams
  rw [if_pos rfl, decodeStream_encodeStream hmax ht hys (by omega)]
  rfl

theorem decodeStreams_jump {t : HuffmanTable} {s₁ s₂ s₃ s₄ out₁ out₂ out₃ out : Bytes} (h₁ : s₁.length < 65536)
    (h₂ : s₂.length < 65536) (h₃ : s₃.length < 65536) (hout₁ : decodeStream t s₁ [] = .ok out₁)
    (hout₂ : decodeStream t s₂ out₁ = .ok out₂) (hout₃ : decodeStream t s₃ out₂ = .ok out₃)
    (hout : decodeStream t s₄ out₃ = .ok out) : decodeStreams t 4 (jumpStreams s₁ s₂ s₃ s₄) = .ok out := by
  obtain ⟨payload, hpayload⟩ : ∃ payload, jumpStreams s₁ s₂ s₃ s₄ = payload := ⟨_, rfl⟩
  have hjump₁ : At payload 0 (jumpStreams s₁ s₂ s₃ s₄) := hpayload ▸ At.start _
  rw [hpayload]
  unfold jumpStreams at hjump₁
  have hjump₂ := hjump₁.skip
  have hjump₃ := hjump₂.skip
  have hstreams := hjump₃.skip
  simp only [length_toLe, Nat.zero_add] at hjump₂ hjump₃ hstreams
  have hend := hstreams.length
  have hstart : At (s₁ ++ (s₂ ++ (s₃ ++ s₄))) 0 (s₁ ++ (s₂ ++ (s₃ ++ s₄))) := At.start _
  have hsecond := hstart.skip
  have hthird := hsecond.skip
  have hfourth := hthird.skip
  have htotal := hfourth.length
  simp only [Nat.zero_add] at hsecond hthird hfourth htotal
  unfold decodeStreams
  rw [if_neg (by decide), if_pos rfl, failIf_false _ (by omega), Run.ok_bind, hjump₁.readLe16_toLe h₁, Run.ok_bind,
    hjump₂.readLe16_toLe h₂, Run.ok_bind, hjump₃.readLe16_toLe h₃, Run.ok_bind]
  simp only
  rw [hstreams.slice_rest, Run.ok_bind, failIf_false _ (by omega), Run.ok_bind, hstart.slice (Nat.zero_add _).symm,
    Run.ok_bind, hsecond.slice rfl, Run.ok_bind, hthird.slice rfl, Run.ok_bind, hfourth.slice_rest, Run.ok_bind,
    hout₁, Run.ok_bind, hout₂, Run.ok_bind, hout₃, Run.ok_bind, hout]

theorem decodeLiterals_four {ys₁ ys₂ ys₃ ys₄ : Bytes} (hys : ∀ b ∈ ys₁ ++ (ys₂ ++ (ys₃ ++ ys₄)), c.HasWord b)
    (hpos : 1 ≤ (ys₁ ++ (ys₂ ++ (ys₃ ++ ys₄))).length) (hmany : (ys₁ ++ (ys₂ ++ (ys₃ ++ ys₄))).length ≤ 131072)
    (h₁ : (encodeStream c.word ys₁).length < 65536) (h₂ : (encodeStream c.word ys₂).length < 65536)
    (h₃ : (encodeStream c.word ys₃).length < 65536)
    (hshort : (c.tree ++ jumpStreams (encodeStream c.word ys₁) (encodeStream c.word ys₂) (encodeStream c.word ys₃)
      (encodeStream c.word ys₄)).length ≤ 131072) :
    decodeLiterals (c.tree ++ jumpStreams (encodeStream c.word ys₁) (encodeStream c.word ys₂) (encodeStream c.word ys₃)
      (encodeStream c.word ys₄)) (ys₁ ++ (ys₂ ++ (ys₃ ++ ys₄))).length 4 = .ok (ys₁ ++ (ys₂ ++ (ys₃ ++ ys₄))) := by
  simp only [List.forall_mem_append] at hys
  obtain ⟨hys₁, hys₂, hys₃, hys₄⟩ := hys
  have hle := hshort
  simp only [jumpStreams, List.length_append] at hle
  refine decodeLiterals_tree hpos hmany (by simp [jumpStreams, toLe]) hshort rfl fun t hmax ht => ?_
  have hdecode₁ := decodeStream_encodeStream hmax ht hys₁ (by omega) []
  have hdecode₂ := decodeStream_encodeStream hmax ht hys₂ (by omega) ys₁
  have hdecode₃ := decodeStream_encodeStream hmax ht hys₃ (by omega) (ys₁ ++ ys₂)
  have hdecode₄ := decodeStream_encodeStream hmax ht hys₄ (by omega) (ys₁ ++ ys₂ ++ ys₃)
  rw [show ys₁ ++ (ys₂ ++ (ys₃ ++ ys₄)) = ys₁ ++ ys₂ ++ ys₃ ++ ys₄ by simp only [List.append_assoc]]
  exact decodeStreams_jump h₁ h₂ h₃ hdecode₁ hdecode₂ hdecode₃ hdecode₄

end

/-! ## Headers -/

theorem kind_ofNat (n : Nat) : (UInt8.ofNat n &&& 0x03).toNat = n % 4 := by
  rw [UInt8.toNat_and, show (0x03 : UInt8).toNat = 2 ^ 2 - 1 from rfl, Nat.and_two_pow_sub_one_eq_mod, UInt8.toNat_ofNat']
  omega

theorem format_ofNat (n : Nat) : ((UInt8.ofNat n >>> 2) &&& 0x03).toNat = n / 4 % 4 := by
  rw [UInt8.toNat_and, UInt8.toNat_shiftRight, show (0x03 : UInt8).toNat = 2 ^ 2 - 1 from rfl,
    Nat.and_two_pow_sub_one_eq_mod, show ((2 : UInt8).toNat % 8) = 2 from rfl, Nat.shiftRight_eq_div_pow,
    UInt8.toNat_ofNat']
  omega

theorem fromLe_three {n : Nat} (hn : n < 2 ^ 24) :
    fromLe [UInt8.ofNat n, UInt8.ofNat (n / 256), UInt8.ofNat (n / 256 / 256), 0] = n :=
  (fromLe_zeros (toLe 3 n) 1).trans (fromLe_toLe 3 n hn)

theorem SizeFormat.header_spec (f : SizeFormat) {kind size : Nat} (hsize : size < f.limit) (hkind : kind < 4) :
    ∃ b tail, f.header kind size = b :: tail ∧ (b &&& 0x03).toNat = kind ∧
      ∀ rest, readRawRleSize b (f.header kind size ++ rest) = .ok (size, (f.header kind size).length) := by
  cases f with
  | one =>
    have hsize : size < 2 ^ 5 := hsize
    refine ⟨_, _, rfl, by rw [kind_ofNat]; omega, fun rest => ?_⟩
    have hread : (UInt8.ofNat (kind + 8 * size) >>> 3).toNat = size := by
      rw [UInt8.toNat_shiftRight, show ((3 : UInt8).toNat % 8) = 3 from rfl, Nat.shiftRight_eq_div_pow,
        UInt8.toNat_ofNat']
      omega
    have hcode : (kind + 8 * size) / 4 % 4 = 0 ∨ (kind + 8 * size) / 4 % 4 = 2 := by omega
    unfold readRawRleSize
    rw [format_ofNat, hread]
    rcases hcode with h | h
    · rw [h]; rfl
    · rw [h]; rfl
  | two =>
    have hsize : size < 2 ^ 12 := hsize
    refine ⟨_, _, rfl, by rw [kind_ofNat]; omega, fun rest => ?_⟩
    have hread := At.readLe16_toLe (ε := ZiftError) (show kind + 4 * (1 + 4 * size) < 2 ^ 16 by omega)
      (At.start (toLe 2 (kind + 4 * (1 + 4 * size)) ++ rest))
    unfold readRawRleSize header
    rw [format_ofNat, show (kind + 4 * (1 + 4 * size)) / 4 % 4 = 1 by omega]
    simp only
    rw [failIf_false _ (by rw [List.length_append, length_toLe]; omega), Run.ok_bind, hread, Run.ok_bind,
      Nat.shiftRight_eq_div_pow, length_toLe]
    simp only [Run.pure_eq, Except.ok.injEq, Prod.mk.injEq, and_true]
    omega
  | three =>
    have hsize : size < 2 ^ 20 := hsize
    refine ⟨_, _, rfl, by rw [kind_ofNat]; omega, fun rest => ?_⟩
    have hread := fromLe_three (show kind + 4 * (3 + 4 * size) < 2 ^ 24 by omega)
    have h0 := At.start (toLe 3 (kind + 4 * (3 + 4 * size)) ++ rest)
    have h1 := At.tail h0
    have h2 := At.tail h1
    unfold readRawRleSize header
    rw [format_ofNat, show (kind + 4 * (3 + 4 * size)) / 4 % 4 = 3 by omega]
    simp only
    rw [failIf_false _ (by rw [List.length_append, length_toLe]; omega), Run.ok_bind, At.index h0, Run.ok_bind,
      h1.index, Run.ok_bind, h2.index, Run.ok_bind, hread, Nat.shiftRight_eq_div_pow, length_toLe]
    simp only [Run.pure_eq, Except.ok.injEq, Prod.mk.injEq, and_true]
    omega

/-- What the parser takes from the header of Huffman literals: the two sizes, and how many streams there are. -/
structure SizesHeader (header : Bytes) (format size compressedSize : Nat) : Prop where
  spec : ∃ b tail, header = b :: tail ∧ (b &&& 0x03).toNat = 2 ∧ ((b >>> 2) &&& 0x03).toNat = format ∧
    ∀ rest, readCompressedSize b (header ++ rest) = .ok (size, compressedSize, header.length)

theorem sizesHeader_three {format size compressedSize : Nat} (hformat : format ≤ 1) (hsize : size < 2 ^ 10)
    (hcompressed : compressedSize < 2 ^ 10) :
    SizesHeader (toLe 3 (2 + 4 * (format + 4 * (size + 2 ^ 10 * compressedSize)))) format size compressedSize := by
  obtain ⟨n, hn⟩ : ∃ n, 2 + 4 * (format + 4 * (size + 2 ^ 10 * compressedSize)) = n := ⟨_, rfl⟩
  have hcode : n / 4 % 4 = format := by omega
  have hread := fromLe_three (show n < 2 ^ 24 by omega)
  rw [hn]
  refine ⟨_, _, rfl, by rw [kind_ofNat]; omega, by rw [format_ofNat, hcode], fun rest => ?_⟩
  have h0 := At.start (toLe 3 n ++ rest)
  have h1 := At.tail h0
  have h2 := At.tail h1
  have hbranch : format = 0 ∨ format = 1 := by omega
  unfold readCompressedSize
  rw [format_ofNat, hcode]
  rcases hbranch with rfl | rfl
  all_goals
    simp only
    rw [failIf_false _ (by rw [List.length_append, length_toLe]; omega), Run.ok_bind, At.index h0, Run.ok_bind,
      h1.index, Run.ok_bind, h2.index, Run.ok_bind, hread, Nat.shiftRight_eq_div_pow, Nat.shiftRight_eq_div_pow,
      show 0x3FF = 2 ^ 10 - 1 from rfl, Nat.and_two_pow_sub_one_eq_mod, Nat.and_two_pow_sub_one_eq_mod, length_toLe]
    simp only [Run.pure_eq, Except.ok.injEq, Prod.mk.injEq, and_true]
    omega

def FourFormat.code : FourFormat → Nat
  | bits10 => 1
  | bits14 => 2
  | bits18 => 3

theorem FourFormat.sizesHeader (f : FourFormat) {size compressedSize : Nat} (hsize : size < f.limit)
    (hcompressed : compressedSize < f.limit) : SizesHeader (f.header size compressedSize) f.code size compressedSize := by
  cases f with
  | bits10 => exact sizesHeader_three (Nat.le_refl 1) hsize hcompressed
  | bits14 =>
    have hsize : size < 2 ^ 14 := hsize
    have hcompressed : compressedSize < 2 ^ 14 := hcompressed
    unfold header code
    obtain ⟨n, hn⟩ : ∃ n, 2 + 4 * (2 + 4 * (size + 2 ^ 14 * compressedSize)) = n := ⟨_, rfl⟩
    have hcode : n / 4 % 4 = 2 := by omega
    rw [hn]
    refine ⟨_, _, rfl, by rw [kind_ofNat]; omega, by rw [format_ofNat, hcode], fun rest => ?_⟩
    have hread := At.readLe32_toLe (ε := ZiftError) (show n < 2 ^ 32 by omega) (At.start (toLe 4 n ++ rest))
    unfold readCompressedSize
    rw [format_ofNat, hcode]
    simp only
    rw [failIf_false _ (by rw [List.length_append, length_toLe]; omega), Run.ok_bind, hread, Run.ok_bind,
      Nat.shiftRight_eq_div_pow, Nat.shiftRight_eq_div_pow, show 0x3FFF = 2 ^ 14 - 1 from rfl,
      Nat.and_two_pow_sub_one_eq_mod, length_toLe]
    simp only [Run.pure_eq, Except.ok.injEq, Prod.mk.injEq, and_true]
    omega
  | bits18 =>
    have hsize : size < 2 ^ 18 := hsize
    have hcompressed : compressedSize < 2 ^ 18 := hcompressed
    unfold header code
    obtain ⟨n, hn⟩ : ∃ n, 2 + 4 * (3 + 4 * (size + 2 ^ 18 * compressedSize)) = n := ⟨_, rfl⟩
    have hcode : n / 4 % 4 = 3 := by omega
    rw [hn]
    refine ⟨_, _, rfl, by rw [kind_ofNat]; omega, by rw [format_ofNat, hcode], fun rest => ?_⟩
    -- the first four bytes, and the fifth
    have hbytes : toLe 5 n = toLe 4 (n % 2 ^ 32) ++ [UInt8.ofNat (n / 2 ^ 32)] := by
      rw [show 2 ^ 32 = 256 ^ 4 from rfl, toLe_mod 4 n]
      simp only [toLe, Nat.div_div_eq_div_mul]
      rfl
    have hstart := At.start (toLe 5 n ++ rest)
    have hword : At (toLe 5 n ++ rest) 0 (toLe 4 (n % 2 ^ 32) ++ ([UInt8.ofNat (n / 2 ^ 32)] ++ rest)) := by
      rw [hbytes, List.append_assoc] at hstart ⊢
      exact hstart
    have hfifth : At (toLe 5 n ++ rest) 4 (UInt8.ofNat (n / 2 ^ 32) :: rest) := hword.skip
    unfold readCompressedSize
    rw [format_ofNat, hcode]
    simp only
    rw [failIf_false _ (by rw [List.length_append, length_toLe]; omega), Run.ok_bind,
      hword.readLe32_toLe (Nat.mod_lt _ (by decide)), Run.ok_bind, hfifth.index, Run.ok_bind,
      Nat.shiftRight_eq_div_pow, Nat.shiftRight_eq_div_pow, show 0x3FFFF = 2 ^ 18 - 1 from rfl,
      Nat.and_two_pow_sub_one_eq_mod, or_shiftLeft (by omega), UInt8.toNat_ofNat', length_toLe]
    simp only [Run.pure_eq, Except.ok.injEq, Prod.mk.injEq, and_true]
    omega

/-! ## Sections -/

section
variable {header tail rest ys : Bytes} {b : UInt8}

theorem first_of_header (h : header = b :: tail) (rest : Bytes) :
    header ++ rest ≠ [] ∧ At (header ++ rest) 0 (b :: (tail ++ rest)) ∧ 1 + (header.length - 1) = header.length := by
  subst h
  refine ⟨List.cons_ne_nil _ _, At.start _, ?_⟩
  rw [List.length_cons]
  omega

theorem extractLiteralsFromBlock_raw {format : SizeFormat} (hl : ys.length < format.limit) :
    extractLiteralsFromBlock (format.header 0 ys.length ++ (ys ++ rest)) = .ok ys := by
  obtain ⟨b, tail, hheader, hkind, hread⟩ := format.header_spec hl (show 0 < 4 by decide)
  obtain ⟨hne, hfirst, hpos⟩ := first_of_header hheader (ys ++ rest)
  have hliterals := At.mid (format.header 0 ys.length) (ys ++ rest)
  have hend := hliterals.length
  rw [List.length_append] at hend
  unfold extractLiteralsFromBlock
  rw [if_neg hne, hfirst.index, Run.ok_bind]
  simp only
  rw [hkind]
  simp only
  rw [hread, Run.ok_bind]
  simp only
  rw [hpos, failIf_false _ (by omega), Run.ok_bind, hliterals.slice rfl]

theorem extractLiteralsFromBlock_rle {format : SizeFormat} {byte : UInt8} {count : Nat} (hl : count < format.limit) :
    extractLiteralsFromBlock (format.header 1 count ++ (byte :: rest)) = .ok (List.replicate count byte) := by
  obtain ⟨b, tail, hheader, hkind, hread⟩ := format.header_spec hl (show 1 < 4 by decide)
  obtain ⟨hne, hfirst, hpos⟩ := first_of_header hheader (byte :: rest)
  have hbyte := At.mid (format.header 1 count) (byte :: rest)
  unfold extractLiteralsFromBlock
  rw [if_neg hne, hfirst.index, Run.ok_bind]
  simp only
  rw [hkind]
  simp only
  rw [hread, Run.ok_bind]
  simp only
  rw [hpos, failIf_false _ (Nat.not_le.mpr hbyte.lt), Run.ok_bind, hbyte.index]
  rfl

theorem extractLiteralsFromBlock_compressed {format : Nat} {payload : Bytes} (hpayload : payload ≠ [])
    (h : SizesHeader header format ys.length payload.length)
    (hdecode : decodeLiterals payload ys.length (if format = 0 then 1 else 4) = .ok ys) :
    extractLiteralsFromBlock (header ++ (payload ++ rest)) = .ok ys := by
  obtain ⟨b, tail, hheader, hkind, hformat, hread⟩ := h.spec
  obtain ⟨hne, hfirst, hpos⟩ := first_of_header hheader (payload ++ rest)
  have hcompressed := At.mid header (payload ++ rest)
  have hend := hcompressed.length
  have hsome := List.length_pos_iff.mpr hpayload
  rw [List.length_append] at hend
  unfold extractLiteralsFromBlock
  rw [if_neg hne, hfirst.index, Run.ok_bind]
  simp only
  rw [hkind]
  simp only
  rw [hread, Run.ok_bind]
  simp only
  rw [if_neg (by omega), hpos, failIf_false _ (by omega), Run.ok_bind, hcompressed.slice rfl, Run.ok_bind, hformat,
    hdecode]
  rfl

end

/-- **Decoding a section gives back its literals**, whatever follows it in the block. -/
theorem extractLiteralsFromBlock_encode (l : LiteralsSection) (hl : l.Fits) (rest : Bytes) :
    extractLiteralsFromBlock (l.encode ++ rest) = .ok l.literals := by
  unfold LiteralsSection.encode
  rw [List.append_assoc]
  cases l with
  | raw format ys => exact extractLiteralsFromBlock_raw hl
  | rle format byte count => exact extractLiteralsFromBlock_rle hl
  | single code ys =>
    obtain ⟨hys, hpos, hsize, hcompressed⟩ := hl
    refine extractLiteralsFromBlock_compressed (by simp [LiteralsSection.payload, DirectCode.tree])
      (sizesHeader_three (Nat.zero_le 1) hsize hcompressed) ?_
    exact decodeLiterals_single hys hpos (by omega) (Nat.le_of_lt (Nat.lt_trans hcompressed (by decide)))
  | four format code ys₁ ys₂ ys₃ ys₄ =>
    obtain ⟨hys, hpos, hmany, hshort, hsize, hcompressed, h₁, h₂, h₃⟩ := hl
    have hcode : format.code ≠ 0 := by cases format <;> decide
    refine extractLiteralsFromBlock_compressed (by simp [LiteralsSection.payload, DirectCode.tree])
      (format.sizesHeader hsize hcompressed) ?_
    rw [if_neg hcode]
    exact decodeLiterals_four hys hpos hmany h₁ h₂ h₃ hshort

/-- One symbol of one bit and two of two bits. -/
def threeSymbols : DirectCode where
  explicit := [2, 1]
  last := 1
  maxBits := 2
  spare := 0
  explicit_le := by decide
  last_pos := by decide
  maxBits_le := by decide
  spare_lt := by decide
  complete := ⟨by decide, by decide⟩

theorem extractLiteralsFromBlock_encode_four :
    (LiteralsSection.four .bits14 threeSymbols [0, 1] [2] [1, 1] [0]).Fits ∧
      extractLiteralsFromBlock ((LiteralsSection.four .bits14 threeSymbols [0, 1] [2] [1, 1] [0]).encode ++ [7]) =
        .ok [0, 1, 2, 1, 1, 0] := by
  have hfits : (LiteralsSection.four .bits14 threeSymbols [0, 1] [2] [1, 1] [0]).Fits := by
    unfold LiteralsSection.Fits
    decide +kernel
  exact ⟨hfits, extractLiteralsFromBlock_encode _ hfits [7]⟩

end Ziftsieve.Zstd
