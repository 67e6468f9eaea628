import Ziftsieve.CodeLengthSound

/-!
# The trees of a dynamic block

What the header of a dynamic block says of its two codes, with its encoding: the
lengths of the code-length code, then the entries for both codes as one array.
The parser reads back a decoder for each.
-/

namespace Ziftsieve.Gzip

/-- The lengths of the code-length code, given in the order of `hclenOrder`. -/
def givenLengths (given : List Nat) : List Nat :=
  (hclenOrder.zip given).foldl (fun L x => L.set x.1 x.2) (List.replicate 19 0)

structure Trees where
  hlit : Nat
  hdist : Nat
  given : List Nat
  entries : List LengthEntry
  hlit_ge : 257 ≤ hlit
  hlit_le : hlit ≤ 286
  hdist_ge : 1 ≤ hdist
  hdist_le : hdist ≤ 30
  given_ge : 4 ≤ given.length
  given_le : given.length ≤ 19
  given_lt : ∀ l ∈ given, l < 2 ^ 3
  kraft : Kraft 7 (givenLengths given)
  coded : ∀ e ∈ entries, (givenLengths given).getD e.symbol 0 ≠ 0
  fills : (entries.map LengthEntry.count).sum = hlit + hdist
  first : ∀ extra es, entries ≠ .copy extra :: es

namespace Trees

def literalLengths (t : Trees) : List Nat := (decodedEntries t.entries).take t.hlit

def distanceLengths (t : Trees) : List Nat := (decodedEntries t.entries).drop t.hlit

def bits (t : Trees) : List Bool :=
  bitsLe 5 (t.hlit - 257) ++ (bitsLe 5 (t.hdist - 1) ++ (bitsLe 4 (t.given.length - 4) ++
    (t.given.flatMap (bitsLe 3) ++ t.entries.flatMap (LengthEntry.bits (codeBits (givenLengths t.given))))))

end Trees

theorem length_setAll : ∀ (xs : List (Nat × Nat)) (L : List Nat),
    (xs.foldl (fun L x => L.set x.1 x.2) L).length = L.length
  | [], _ => rfl
  | x :: xs, L => by rw [List.foldl_cons, length_setAll, List.length_set]

theorem length_givenLengths (given : List Nat) : (givenLengths given).length = 19 := by
  rw [givenLengths, length_setAll, List.length_replicate]

theorem length_decodedEntries (es : List LengthEntry) :
    (decodedEntries es).length = (es.map LengthEntry.count).sum := by
  induction es using List.reverseRecOn with
  | nil => rfl
  | append_singleton es e ih =>
    rw [decodedEntries_concat, List.length_append, ih, LengthEntry.length_run, List.map_append, List.sum_append,
      List.map_singleton, List.sum_singleton]

section
variable {data : Bytes} {p : Nat} {rest : List Bool}

theorem readCodeLengthLengths_yields : ∀ {os given L : List Nat} {p : Nat}, os.length = given.length →
    (∀ o ∈ os, o < L.length) → (∀ l ∈ given, l < 2 ^ 3) → At (bytesBits data) p (given.flatMap (bitsLe 3) ++ rest) →
    Yields (Synced data p) (os.foldlM readCodeLengthLength L) ((os.zip given).foldl (fun L x => L.set x.1 x.2) L)
      (Synced data (p + (given.flatMap (bitsLe 3)).length))
  | [], [], _, _, _, _, _, _ => Yields.pure
  | o :: os, l :: given, L, p, hlen, ho, hl, h => by
    have hset : (setAt L o l : Run ZiftError (List Nat)) = .ok (L.set o l) := setAt_eq (ho o List.mem_cons_self)
    rw [List.flatMap_cons, List.append_assoc] at h
    have hread := readBitsU8_yields (by rw [length_bitsLe]; decide) h
    rw [length_bitsLe, ofBits_bitsLe_of_lt (hl l List.mem_cons_self)] at hread
    rw [List.foldlM_cons, List.flatMap_cons, List.length_append, length_bitsLe, ← Nat.add_assoc, List.zip_cons_cons,
      List.foldl_cons]
    refine (hread.bind (yields_lift hset)).bind ?_
    have hrest := h.skip
    rw [length_bitsLe] at hrest
    refine readCodeLengthLengths_yields (Nat.succ.inj hlen) (fun o' ho' => ?_)
      (fun l' hl' => hl l' (List.mem_cons_of_mem _ hl')) hrest
    rw [List.length_set]
    exact ho o' (List.mem_cons_of_mem _ ho')

theorem parseDynamicTrees_yields (t : Trees) (hliteral : Kraft 15 t.literalLengths)
    (hdistance : Kraft 15 t.distanceLengths) (h : At (bytesBits data) p (t.bits ++ rest)) :
    ∃ d e, (∀ s, t.literalLengths.getD s 0 ≠ 0 → Decodes d (codeBits t.literalLengths) s) ∧
      (∀ s, t.distanceLengths.getD s 0 ≠ 0 → Decodes e (codeBits t.distanceLengths) s) ∧
      Yields (Synced data p) parseDynamicTrees (d, e) (Synced data (p + t.bits.length)) := by
  have hlit := t.hlit_le
  have hlit' := t.hlit_ge
  have hdist := t.hdist_le
  have hdist' := t.hdist_ge
  have hgiven := t.given_le
  have hgiven' := t.given_ge
  have htotal := length_decodedEntries t.entries
  rw [t.fills] at htotal
  have hlen : t.literalLengths.length ≤ 286 := by rw [Trees.literalLengths, List.length_take]; omega
  have hlen' : t.distanceLengths.length ≤ 30 := by rw [Trees.distanceLengths, List.length_drop]; omega
  obtain ⟨c, hc, hcode⟩ := fromLengths_coded (t.kraft.mono (by decide)) (by rw [length_givenLengths]; decide) "code length"
  obtain ⟨d, hd, hd'⟩ := fromLengths_coded hliteral (by omega) "literal/length"
  obtain ⟨e, he, he'⟩ := fromLengths_coded hdistance (by omega) "distance"
  refine ⟨d, e, hd', he', ?_⟩
  simp only [Trees.bits, List.append_assoc] at h
  have h1 := h.skip
  rw [length_bitsLe] at h1
  have h2 := h1.skip
  rw [length_bitsLe] at h2
  have h3 := h2.skip
  rw [length_bitsLe] at h3
  have h4 := h3.skip
  have hread := readBits_yields (by rw [length_bitsLe]; decide) h
  have hread1 := readBits_yields (by rw [length_bitsLe]; decide) h1
  have hread2 := readBits_yields (by rw [length_bitsLe]; decide) h2
  rw [length_bitsLe, ofBits_bitsLe_of_lt (by omega)] at hread hread1 hread2
  have hentries : ∀ e ∈ t.entries, Decodes c (codeBits (givenLengths t.given)) e.symbol :=
    fun e he => hcode e.symbol (t.coded e he)
  have horder : (hclenOrder.take t.given.length).length = t.given.length := by
    rw [List.length_take]
    exact Nat.min_eq_left hgiven
  have hzip : (hclenOrder.take t.given.length).zip t.given = hclenOrder.zip t.given := by
    have hmin : min hclenOrder.length t.given.length = t.given.length := Nat.min_eq_right hgiven
    have hshort := @List.zip_eq_zip_take_min _ _ hclenOrder t.given
    rw [hmin, List.take_length] at hshort
    exact hshort.symm
  have hgivens := readCodeLengthLengths_yields (L := List.replicate 19 0) horder
    (fun o ho => by rw [List.length_replicate]; exact (by decide : ∀ o ∈ hclenOrder, o < 19) o (List.mem_of_mem_take ho))
    t.given_lt h3
  rw [hzip] at hgivens
  have hlengths := decodeCodeLengths_yields (n := t.hlit + t.hdist) hentries (by simp only [maxDeflateInstructions]; omega)
    t.fills t.first h4
  have hpos : p + t.bits.length = p + 5 + 5 + 4 + (t.given.flatMap (bitsLe 3)).length +
      (t.entries.flatMap (LengthEntry.bits (codeBits (givenLengths t.given)))).length := by
    simp only [Trees.bits, List.length_append, length_bitsLe]; omega
  unfold parseDynamicTrees readBitsUsize
  rw [hpos]
  refine hread.bind (hread1.bind (hread2.bind ?_))
  rw [Nat.sub_add_cancel hlit', Nat.sub_add_cancel hdist', Nat.sub_add_cancel hgiven', if_neg (by omega)]
  refine hgivens.bind ((yields_lift hc).bind (hlengths.bind ?_))
  exact (yields_lift hd).bind ((yields_lift he).bind Yields.pure)

end

end Ziftsieve.Gzip
