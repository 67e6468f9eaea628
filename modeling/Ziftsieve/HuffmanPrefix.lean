import Ziftsieve.HuffmanSafe
import Ziftsieve.PrefixFree

/-!
# The length vectors `fromLengths` takes

A vector is turned down where two symbols of one length have one path, and for
that alone: a code that runs through or onto another's path is let in. The
vectors let in give every symbol its code just when the Kraft inequality holds.
-/

namespace Ziftsieve.Gzip

variable {L : List Nat}

theorem fromLengths_ok_iff (h15 : ∀ l ∈ L, l ≤ 15) (hlen : 15 * L.length < 2 ^ 15) (kind : String) :
    (∃ d, HuffmanDecoder.fromLengths L kind = .ok d) ↔ CodesFit L ∧ Apart L := by
  constructor
  · rintro ⟨d, hd⟩
    have hfit : CodesFit L := by
      by_contra hfit
      rw [fromLengths_panic kind (by omega) h15 hfit] at hd
      cases hd
    exact ⟨hfit, (fromLengths_apart h15 hlen hfit kind).2 d hd⟩
  · rintro ⟨hfit, hapart⟩
    obtain ⟨d, hd, -⟩ := (fromLengths_apart h15 hlen hfit kind).1 hapart
    exact ⟨d, hd⟩

theorem exists_bytes (w : List Bool) : ∃ data rest, At (bytesBits data) 0 (w ++ rest) := by
  have hlen : (w ++ List.replicate (padTo8 w.length) false).length = 8 * ((w.length + padTo8 w.length) / 8) := by
    have := padTo8_add w.length
    rw [List.length_append, List.length_replicate]
    omega
  refine ⟨pack (w ++ List.replicate (padTo8 w.length) false), List.replicate (padTo8 w.length) false, ?_⟩
  rw [bytesBits_pack _ _ hlen]
  exact At.start _

/-- What a decoder reads is a prefix-free code. -/
theorem Decodes.inj {d : HuffmanDecoder} {code : Nat → List Bool} {s t : Nat} (hs : Decodes d code s)
    (ht : Decodes d code t) (h : code s <+: code t) : s = t := by
  obtain ⟨tail, htail⟩ := h
  obtain ⟨data, rest, hat⟩ := exists_bytes (code t)
  have hat' : At (bytesBits data) 0 (code s ++ (tail ++ rest)) := by
    rwa [← List.append_assoc, htail]
  have hsync : Synced data 0 (BitReader.new data 0) := Synced.new (i := 0) (Nat.zero_le _)
  exact Except.ok.inj ((hs hat').value hsync ▸ (ht hat).value hsync)

theorem length_codeBits {s l : Nat} (h : L[s]? = some l) : (codeBits L s).length = l := by
  rw [codeBits_of_get h, List.length_reverse, codePath, length_bitsLe]

theorem kraft_of_decodes (h15 : ∀ l ∈ L, l ≤ 15) {d : HuffmanDecoder}
    (h : ∀ s l, L[s]? = some l → 0 < l → Decodes d (codeBits L) s) : Kraft 15 L :=
  kraft_of_prefixFree h15 (fun _ _ => length_codeBits) fun s t k l hs ht hk hl hp =>
    (h s k hs hk).inj (h t l ht hl) hp

/-- A vector is turned down just when it has more symbols of one length than there are codes, and
its sums stay within 16 bits. Sums that do not are a panic. -/
theorem fromLengths_rejected_iff (h15 : ∀ l ∈ L, l ≤ 15) (hlen : L.length ≤ 288) (kind : String) :
    (∃ e, HuffmanDecoder.fromLengths L kind = .error (.err e)) ↔ (∃ l, 0 < l ∧ 2 ^ l < L.count l) ∧ CodesFit L := by
  have hok := fromLengths_ok_iff h15 (by omega) kind
  have hgraceful := fromLengths_graceful_iff kind (by omega) h15
  rw [apart_iff] at hok
  constructor
  · rintro ⟨e, he⟩
    have hfit : CodesFit L := by
      apply hgraceful.mp
      intro s hs
      rw [he] at hs
      exact ⟨e, (Except.error.inj hs).symm⟩
    refine ⟨?_, hfit⟩
    by_contra hnone
    push Not at hnone
    obtain ⟨d, hd⟩ := hok.mpr ⟨hfit, hnone⟩
    rw [he] at hd
    cases hd
  · rintro ⟨⟨l, h0, hmany⟩, hfit⟩
    cases hrun : HuffmanDecoder.fromLengths L kind with
    | ok d =>
      have hle := (hok.mp ⟨d, hrun⟩).2 l h0
      omega
    | error s =>
      obtain ⟨e, rfl⟩ := hgraceful.mpr hfit s hrun
      exact ⟨e, rfl⟩

/-- Every symbol of non-zero length is read from its code, whatever follows it. -/
def DecodesAll (L : List Nat) (d : HuffmanDecoder) : Prop := ∀ s l, L[s]? = some l → 0 < l → Decodes d (codeBits L) s

theorem decodesAll_iff (h15 : ∀ l ∈ L, l ≤ 15) (hlen : L.length ≤ 288) {kind : String} {d : HuffmanDecoder}
    (hd : HuffmanDecoder.fromLengths L kind = .ok d) : DecodesAll L d ↔ kraftUpTo 15 L 15 ≤ 2 ^ 15 := by
  constructor
  · exact fun h => (kraft_of_decodes h15 h).sum_le
  · intro hle
    obtain ⟨d', hd', hdec⟩ := fromLengths_sound ⟨h15, hle⟩ (by omega) kind
    rw [hd] at hd'
    cases hd'
    exact hdec

/-- **A decoder for every symbol, and an error for every over-subscribed vector.** Both hold of exactly
the vectors that are not over-subscribed, or that have more symbols of one length than it has codes and
sums within 16 bits; so does the second alone. A decoder that comes out has every symbol exactly when
its vector is not over-subscribed. -/
theorem fromLengths_prefix_iff (h15 : ∀ l ∈ L, l ≤ 15) (hlen : L.length ≤ 288) (kind : String) :
    (((∀ d, HuffmanDecoder.fromLengths L kind = .ok d → DecodesAll L d) ∧
      (2 ^ 15 < kraftUpTo 15 L 15 → ∃ e, HuffmanDecoder.fromLengths L kind = .error (.err e))) ↔
      kraftUpTo 15 L 15 ≤ 2 ^ 15 ∨ ((∃ l, 0 < l ∧ 2 ^ l < L.count l) ∧ CodesFit L)) ∧
    ((2 ^ 15 < kraftUpTo 15 L 15 → ∃ e, HuffmanDecoder.fromLengths L kind = .error (.err e)) ↔
      kraftUpTo 15 L 15 ≤ 2 ^ 15 ∨ ((∃ l, 0 < l ∧ 2 ^ l < L.count l) ∧ CodesFit L)) ∧
    ∀ d, HuffmanDecoder.fromLengths L kind = .ok d → (DecodesAll L d ↔ kraftUpTo 15 L 15 ≤ 2 ^ 15) := by
  rw [← fromLengths_rejected_iff h15 hlen kind]
  have hrejected : (2 ^ 15 < kraftUpTo 15 L 15 → ∃ e, HuffmanDecoder.fromLengths L kind = .error (.err e)) ↔
      kraftUpTo 15 L 15 ≤ 2 ^ 15 ∨ ∃ e, HuffmanDecoder.fromLengths L kind = .error (.err e) := by
    rw [← Nat.not_lt]
    exact Decidable.imp_iff_not_or
  refine ⟨⟨fun h => hrejected.mp h.2, fun h => ⟨?_, hrejected.mpr h⟩⟩, hrejected, fun d hd => decodesAll_iff h15 hlen hd⟩
  intro d hd
  rcases h with hle | ⟨e, he⟩
  · exact (decodesAll_iff h15 hlen hd).mpr hle
  · rw [he] at hd
    cases hd

/-- A full code, and a crowded length whose sums stay within 16 bits. -/
theorem fromLengths_prefix_four : (∃ d, HuffmanDecoder.fromLengths [2, 1, 3, 3] "code length" = .ok d ∧
      Decodes d (codeBits [2, 1, 3, 3]) 2) ∧
    ∃ e, HuffmanDecoder.fromLengths [1, 1, 1] "code length" = .error (.err e) := by
  have hfour := fromLengths_prefix_iff (L := [2, 1, 3, 3]) (by decide) (by decide) "code length"
  have hthree := fromLengths_prefix_iff (L := [1, 1, 1]) (by decide) (by decide) "code length"
  refine ⟨⟨_, rfl, (hfour.1.mpr (.inl (by decide))).1 _ rfl 2 3 rfl (by decide)⟩, ?_⟩
  exact hthree.2.1.mpr (.inr ⟨⟨1, by decide, by decide⟩, by decide⟩) (by decide)

/-- Two symbols take both words of one bit, and a third of two bits is let in and never read. -/
theorem fromLengths_prefix_over : ∃ d, HuffmanDecoder.fromLengths [1, 1, 2] "code length" = .ok d ∧
    2 ^ 15 < kraftUpTo 15 [1, 1, 2] 15 ∧ ¬ Decodes d (codeBits [1, 1, 2]) 2 := by
  have hover : 2 ^ 15 < kraftUpTo 15 [1, 1, 2] 15 := by decide
  refine ⟨⟨_, _⟩, rfl, hover, fun h => ?_⟩
  have hat : At (bytesBits [0]) 0 (codeBits [1, 1, 2] 2 ++ List.replicate 6 false) := At.start _
  have hread := (h hat).value (Synced.new (i := 0) (Nat.zero_le _))
  revert hread
  decide

end Ziftsieve.Gzip
