import Ziftsieve.BitstreamParses
import Ziftsieve.HuffmanSafe

/-!
# What the Huffman decoder decodes

A decoder is built for a vector whose sums fit and whose codes are apart, which
need not be a prefix code. It decodes a symbol from its canonical code and from
nothing else, as long as no other code ends inside it.
-/

namespace Ziftsieve.Gzip

/-- The vectors that `from_lengths` takes. -/
structure Builds (L : List Nat) : Prop where
  le : ∀ l ∈ L, l ≤ 15
  fit : CodesFit L
  apart : Apart L

/-- A symbol with a code that no code ends inside of. -/
def Decodable (L : List Nat) (s : Nat) : Prop :=
  ∃ l, L[s]? = some l ∧ 0 < l ∧ ∀ v t, Coded L L.length v t → v <:+ codePath L s l → v = codePath L s l

/-- The decoder that `from_lengths` builds: the trie of the codes, deep enough for each. -/
structure DecoderOf (L : List Nat) (d : HuffmanDecoder) : Prop where
  le_maxBits : ∀ l ∈ L, l ≤ d.maxBits
  trie : Trie d.nodes (Coded L L.length)

section
variable {L : List Nat}

theorem fromLengths_le {d : HuffmanDecoder} {kind : String} (h : HuffmanDecoder.fromLengths L kind = .ok d) :
    ∀ l ∈ L, l ≤ 15 := by
  intro l hl
  have hmax := (foldl_max_ge (L := L) (a := 0)).2 l hl
  unfold HuffmanDecoder.fromLengths at h
  simp only at h
  by_cases h15 : L.foldl Nat.max 0 > deflateMaxBits
  · rw [if_pos h15] at h
    cases h
  · unfold deflateMaxBits at h15
    omega

theorem fromLengths_builds (hlen : 15 * L.length < 2 ^ 15) {d : HuffmanDecoder} {kind : String}
    (h : HuffmanDecoder.fromLengths L kind = .ok d) : Builds L ∧ DecoderOf L d := by
  have hle := fromLengths_le h
  have hgraceful : Graceful (HuffmanDecoder.fromLengths L kind) := by
    rw [h]
    exact Graceful.ok d
  have hfit := (fromLengths_graceful_iff kind (by omega) hle).mp hgraceful
  obtain ⟨hbuild, hapart⟩ := fromLengths_apart hle hlen hfit kind
  obtain ⟨d', hd', hmax, htrie⟩ := hbuild (hapart d h)
  rw [h] at hd'
  cases hd'
  exact ⟨⟨hle, hfit, hapart d h⟩, hmax, htrie⟩

theorem Builds.fromLengths (hB : Builds L) (hlen : 15 * L.length < 2 ^ 15) (kind : String) :
    ∃ d, HuffmanDecoder.fromLengths L kind = .ok d ∧ DecoderOf L d := by
  obtain ⟨d, hd, hmax, htrie⟩ := (fromLengths_apart hB.le hlen hB.fit kind).1 hB.apart
  exact ⟨d, hd, hmax, htrie⟩

theorem builds_of_kraft (hK : Kraft 15 L) : Builds L := ⟨hK.le, codesFit_of_kraft hK, hK.apart⟩

theorem Decodable.lt {s : Nat} (h : Decodable L s) : s < L.length := by
  obtain ⟨l, hl, -⟩ := h
  exact (List.getElem?_eq_some_iff.mp hl).1

/-! ## Both directions -/

section
variable {d : HuffmanDecoder} (hd : DecoderOf L d)
include hd

theorem DecoderOf.decodes {s : Nat} (h : Decodable L s) : Decodes d (codeBits L) s := by
  obtain ⟨l, hs, h0, hfree⟩ := h
  intro data p rest hat
  have hl := hd.le_maxBits l (List.mem_of_getElem? hs)
  have hbits : (codeBits L s).length = l := by
    rw [codeBits_of_get hs, List.length_reverse, codePath, length_bitsLe]
  have hrev : (codeBits L s).reverse ++ [] = codePath L s l := by
    rw [codeBits_of_get hs, List.reverse_reverse, List.append_nil]
  unfold HuffmanDecoder.decode
  rw [if_neg (by omega)]
  apply decodeLoop_yields hd.trie (u := [])
  · intro h
    rw [h, List.length_nil] at hbits
    omega
  · omega
  · rfl
  · rw [hrev]
    exact ⟨(List.getElem?_eq_some_iff.mp hs).1, l, hs, h0, rfl⟩
  · rw [hrev]
    exact hfree
  · exact hat

end

/-- The walk from a path that nothing on it codes ends at the first path that codes. -/
theorem decodeLoop_parses {data : Bytes} {nodes : List HuffmanNode} {S : List Bool → Nat → Prop} (hT : Trie nodes S) :
    ∀ (k : Nat) {p i : Nat} {u : List Bool}, walk nodes u = some i → (∀ v t, S v t → ¬ v <:+ u) →
      Parses (bitView data) p (decodeLoop nodes k i) fun s w =>
        S (w.reverse ++ u) s ∧ ∀ v t, S v t → v <:+ w.reverse ++ u → v = w.reverse ++ u
  | 0, _, _, _, _, _ => Parses.failHere _
  | k + 1, p, i, u, hu, hfree => by
    obtain ⟨n, hn⟩ := hT.node hu
    rw [decodeLoop]
    refine readBit_parses.bind fun bit w hw => Parses.lift.bind fun n' w' hn' => ?_
    obtain ⟨rfl, -⟩ := hw
    obtain ⟨hn', rfl⟩ := hn'
    rw [index_of_get hn] at hn'
    cases hn'
    cases hchild : n.child (decide (bit = 1)) with
    | none => exact Parses.failHere _
    | some next =>
      simp only
      have hnext : walk nodes (decide (bit = 1) :: u) = some next :=
        walk_cons.mpr ⟨i, hu, by rw [childAt, hn, Option.bind_some, hchild]⟩
      obtain ⟨m, hm⟩ := hT.node hnext
      have hsym : symbolAt nodes next = m.symbol := by rw [symbolAt, hm, Option.bind_some]
      refine Parses.lift.bind fun m' w' hm' => ?_
      obtain ⟨hm', rfl⟩ := hm'
      rw [index_of_get hm] at hm'
      cases hm'
      cases hs : m.symbol with
      | some s =>
        have hS : S (decide (bit = 1) :: u) s := (hT.symbol hnext s).mp (hsym.trans hs)
        refine Parses.pure ⟨hS, fun v t hv hsuf => ?_⟩
        exact (List.suffix_cons_iff.mp hsuf).resolve_right (hfree v t hv)
      | none =>
        have hnone : ∀ v t, S v t → ¬ v <:+ decide (bit = 1) :: u := by
          intro v t hv hsuf
          rcases List.suffix_cons_iff.mp hsuf with rfl | hsuf
          · have := (hT.symbol hnext t).mpr hv
            rw [hsym, hs] at this
            cases this
          · exact hfree v t hv hsuf
        refine (decodeLoop_parses hT k hnext hnone).imp fun s w hw => ?_
        have hpath : ([decide (bit = 1)] ++ ([] ++ ([] ++ w))).reverse ++ u = w.reverse ++ decide (bit = 1) :: u := by
          simp
        rw [hpath]
        exact hw

theorem DecoderOf.recognizes {d : HuffmanDecoder} (hd : DecoderOf L d) {data : Bytes} {p : Nat} :
    Recognizes (bitView data) p d.decode fun s w => w = codeBits L s ∧ Decodable L s where
  parses := by
    unfold HuffmanDecoder.decode
    refine Parses.ite (fun _ => Parses.failHere _) fun _ => ?_
    have hroot : ∀ v t, Coded L L.length v t → ¬ v <:+ [] := by
      rintro v t ⟨-, l, -, h0, rfl⟩ hsuf
      have hlen := hsuf.length_le
      rw [codePath, length_bitsLe, List.length_nil] at hlen
      omega
    refine (decodeLoop_parses hd.trie d.maxBits (u := []) rfl hroot).imp fun s w hw => ?_
    rw [List.append_nil] at hw
    obtain ⟨⟨-, l, hl, h0, hpath⟩, hfree⟩ := hw
    rw [hpath] at hfree
    refine ⟨?_, l, hl, h0, hfree⟩
    rw [codeBits_of_get hl, ← hpath, List.reverse_reverse]
  yields := by
    rintro s w rest ⟨rfl, hs⟩ hat
    exact hd.decodes hs hat

end

end Ziftsieve.Gzip
