import Ziftsieve.CodedStreams

/-!
# The parser recognizes gzip headers

Ten bytes, of which the flags say which of the optional fields follow: every
header is the encoding of its fields.
-/

namespace Ziftsieve.Gzip

/-! ## Bytes of numbers -/

theorem exists_toLe {k : Nat} {bs : Bytes} (h : bs.length = k) : ∃ n, n < 2 ^ (8 * k) ∧ toLe k n = bs := by
  have hlen : (bytesBits bs).length = 8 * k := by rw [length_bytesBits, h]
  refine ⟨ofBits (bytesBits bs), ?_, ?_⟩
  · rw [← hlen]
    exact ofBits_lt _
  · apply bytesBits_inj
    rw [bytesBits_toLe, ← hlen, bitsLe_ofBits]

theorem byteBits_ofNat (v : Nat) : byteBits (UInt8.ofNat v) = bitsLe 8 v := by
  rw [byteBits, UInt8.toNat_ofNat', bitsLe_mod]

theorem bytesBits_nil : bytesBits [] = [] := rfl

section
variable {data : Bytes} {p : Nat}

/-! ## Fields -/

/-- A byte that is peeked at and found to be the magic one is read next. -/
theorem expectMagic_parses {b : UInt8} : Parses (bitView data) p (expectMagic b.toNat) fun _ w => w = bytesBits [b] := by
  unfold expectMagic
  refine peekU8_parses.bind fun v w0 h0 => Parses.ite (fun _ => Parses.failHere _) fun hv => ?_
  obtain ⟨rfl, hpeek, -⟩ := h0
  refine Parses.map (readU8_parses.imp ?_)
  rintro _ w ⟨-, -, -, hw⟩
  rw [List.nil_append, hw, List.length_nil, Nat.add_zero, ← hpeek, not_not.mp hv, bytesBits_cons, bytesBits_nil,
    List.append_nil]
  rfl

theorem skipZeroTerminated_parses : Parses (bitView data) p skipZeroTerminated fun _ w =>
    ∃ s : Bytes, (s.length ≤ maxHeaderFieldLen ∧ 0 ∉ s) ∧ w = bytesBits (s ++ [0]) := by
  refine (Parses.loop (I := fun _ _ => True) (Q := fun _ count _ w => ∃ s : Bytes,
    count + s.length ≤ maxHeaderFieldLen ∧ 0 ∉ s ∧ w = bytesBits (s ++ [0])) (fun q count _ => ?_) _ trivial).imp ?_
  · unfold skipTurn
    refine Parses.ite (fun _ => Parses.failHere _) fun hcount => Parses.map (readU8_parses.imp ?_)
    rintro v w ⟨-, rfl, hv, -⟩
    by_cases h0 : v = 0
    · rw [if_pos h0, h0]
      exact ⟨[], Nat.le_of_not_lt hcount, List.not_mem_nil, rfl⟩
    · rw [if_neg h0]
      refine ⟨trivial, ?_⟩
      rintro _ u ⟨s, hlen, hs, rfl⟩
      have hne : (0 : UInt8) ≠ UInt8.ofNat v := by
        intro he
        have hnat := congrArg UInt8.toNat he
        rw [UInt8.toNat_ofNat', Nat.mod_eq_of_lt hv] at hnat
        exact h0 hnat.symm
      refine ⟨UInt8.ofNat v :: s, ?_, ?_, ?_⟩
      · rw [List.length_cons]
        omega
      · rw [List.mem_cons, not_or]
        exact ⟨hne, hs⟩
      · rw [List.cons_append, bytesBits_cons, byteBits_ofNat]
  · rintro _ w ⟨s, hlen, hs, rfl⟩
    rw [Nat.zero_add] at hlen
    exact ⟨s, ⟨hlen, hs⟩, rfl⟩

theorem skipExtra_parses : Parses (bitView data) p (do let xlen ← readU16Le; skipBytes xlen) fun _ w =>
    ∃ e : Bytes, e.length < 2 ^ 16 ∧ w = bytesBits (toLe 2 e.length ++ e) := by
  refine readU16Le_parses.bind fun n w0 h0 => (skipBytes_parses n).imp ?_
  obtain ⟨-, rfl, hn⟩ := h0
  rintro _ w ⟨e, -, rfl, rfl⟩
  refine ⟨e, hn, ?_⟩
  rw [bytesBits_append, bytesBits_toLe]

theorem optional_parses {β : Type} {c : Prop} [Decidable c] {m : Read Unit} {P : β → Prop} {enc : β → Bytes}
    (hm : Parses (bitView data) p m fun _ w => ∃ v, P v ∧ w = bytesBits (enc v)) :
    Parses (bitView data) p (if c then m else pure ()) fun _ w =>
      ∃ x : Option β, (c ↔ x.isSome = true) ∧ (∀ v ∈ x, P v) ∧ w = bytesBits (x.elim [] enc) := by
  refine Parses.ite (fun hc => hm.imp ?_) fun hc => Parses.pure ⟨none, ?_, ?_, rfl⟩
  · rintro _ w ⟨v, hv, rfl⟩
    refine ⟨some v, ⟨fun _ => rfl, fun _ => hc⟩, ?_, rfl⟩
    rintro _ ⟨⟩
    exact hv
  · exact ⟨fun h => absurd h hc, fun h => absurd h Bool.false_ne_true⟩
  · rintro v ⟨⟩

/-! ## The header -/

theorem parseGzipExtraFields_parses (flags : Nat) : Parses (bitView data) p (parseGzipExtraFields flags) fun _ w =>
    ∃ (extra name comment : Option Bytes) (crc : Option Bytes),
      ((flags &&& 0x04 ≠ 0 ↔ extra.isSome = true) ∧ ∀ e ∈ extra, e.length < 2 ^ 16) ∧
      ((flags &&& 0x08 ≠ 0 ↔ name.isSome = true) ∧ ∀ s ∈ name, s.length ≤ maxHeaderFieldLen ∧ 0 ∉ s) ∧
      ((flags &&& 0x10 ≠ 0 ↔ comment.isSome = true) ∧ ∀ s ∈ comment, s.length ≤ maxHeaderFieldLen ∧ 0 ∉ s) ∧
      ((flags &&& 0x02 ≠ 0 ↔ crc.isSome = true) ∧ ∀ c ∈ crc, c.length = 2) ∧
      w = bytesBits (extra.elim [] fun e => toLe 2 e.length ++ e) ++ (bytesBits (Header.textBytes name) ++
        (bytesBits (Header.textBytes comment) ++ bytesBits (crc.elim [] id))) := by
  have hcrc : ∀ q, Parses (bitView data) q (skipBytes 2) fun _ w => ∃ c : Bytes, c.length = 2 ∧ w = bytesBits (id c) := by
    intro q
    refine (skipBytes_parses 2).imp ?_
    rintro _ w ⟨c, -, rfl, hc⟩
    exact ⟨c, hc, rfl⟩
  unfold parseGzipExtraFields
  refine (optional_parses skipExtra_parses).bind fun _ w0 h0 => ?_
  refine (optional_parses skipZeroTerminated_parses).bind fun _ w1 h1 => ?_
  refine (optional_parses skipZeroTerminated_parses).bind fun _ w2 h2 => (optional_parses (hcrc _)).imp ?_
  obtain ⟨extra, hextra, hextra', rfl⟩ := h0
  obtain ⟨name, hname, hname', rfl⟩ := h1
  obtain ⟨comment, hcomment, hcomment', rfl⟩ := h2
  rintro _ w ⟨crc, hcrc, hcrc', rfl⟩
  exact ⟨extra, name, comment, crc, ⟨hextra, hextra'⟩, ⟨hname, hname'⟩, ⟨hcomment, hcomment'⟩, ⟨hcrc, hcrc'⟩, rfl⟩

/-- A flag byte without reserved bits is its five flags. -/
theorem flags_eq {n : Nat} (hn : n < 2 ^ 8) (h : n &&& 0xE0 = 0) : n = (n.testBit 0).toNat +
    2 * (decide (n &&& 0x02 ≠ 0)).toNat + 4 * (decide (n &&& 0x04 ≠ 0)).toNat + 8 * (decide (n &&& 0x08 ≠ 0)).toNat +
    16 * (decide (n &&& 0x10 ≠ 0)).toNat := by
  revert n
  decide +kernel

theorem parseGzipHeader_recognizes : Recognizes (bitView data) p parseGzipHeader fun _ w =>
    p % 8 = 0 ∧ ∃ h : Header, w = bytesBits h.bytes where
  parses := by
    unfold parseGzipHeader
    refine Parses.withReader fun r hr => Parses.ite (fun _ => Parses.failHere _) fun halign =>
      Parses.ite (fun _ => Parses.failHere _) fun _ => ?_
    rw [hr.bitPos_eq, not_not] at halign
    refine (expectMagic_parses (b := 0x1f)).bind fun _ w0 h0 => (expectMagic_parses (b := 0x8b)).bind fun _ w1 h1 => ?_
    refine readU8_parses.bind fun method w2 h2 => Parses.ite (fun _ => Parses.withReader fun _ _ => Parses.fail _)
      fun hmethod => ?_
    refine readU8_parses.bind fun flags w3 h3 => Parses.ite (fun _ => Parses.withReader fun _ _ => Parses.fail _)
      fun hflags => ?_
    refine (skipBytes_parses 4).bind fun _ w4 h4 => readU8_parses.bind fun extraFlags w5 h5 =>
      readU8_parses.bind fun os w6 h6 => (parseGzipExtraFields_parses flags).imp ?_
    rintro _ w7 ⟨extra, name, comment, crc, hextra, hname, hcomment, hcrc, rfl⟩
    obtain ⟨-, rfl, -, -⟩ := h2
    obtain ⟨-, rfl, hlt, -⟩ := h3
    obtain ⟨mtimeBytes, -, rfl, hmtime⟩ := h4
    obtain ⟨-, rfl, -, -⟩ := h5
    obtain ⟨-, rfl, -, -⟩ := h6
    obtain ⟨mtime, hmtime_lt, rfl⟩ := exists_toLe hmtime
    obtain ⟨crc', hcrc_some, hcrc_bytes⟩ : ∃ crc' : Option UInt16, crc'.isSome = crc.isSome ∧
        crc'.elim [] (fun c => toLe 2 c.toNat) = crc.elim [] id := by
      cases crc with
      | none => exact ⟨none, rfl, rfl⟩
      | some c =>
        obtain ⟨n, hn, hc⟩ := exists_toLe (hcrc.2 c rfl)
        exact ⟨some (UInt16.ofNat n), rfl, by
          rw [Option.elim_some, UInt16.toNat_ofNat', Nat.mod_eq_of_lt hn, hc]
          rfl⟩
    have hflags' : flags = (flags.testBit 0).toNat + 2 * crc'.isSome.toNat + 4 * extra.isSome.toNat +
        8 * name.isSome.toNat + 16 * comment.isSome.toNat := by
      have hsome : ∀ {c : Prop} [Decidable c] {b : Bool}, (c ↔ b = true) → decide c = b := fun h => by simp [h]
      have hsum := flags_eq hlt (not_not.mp hflags)
      rwa [hsome hcrc.1, hsome hextra.1, hsome hname.1, hsome hcomment.1, ← hcrc_some] at hsum
    refine ⟨halign, ⟨flags.testBit 0, UInt32.ofNat mtime, UInt8.ofNat extraFlags, UInt8.ofNat os, extra, name, comment,
      crc', hextra.2, hname.2, hcomment.2⟩, ?_⟩
    have hmtime' : (UInt32.ofNat mtime).toNat = mtime := by
      rw [UInt32.toNat_ofNat', Nat.mod_eq_of_lt hmtime_lt]
    have hmethod' : bytesBits [8] = bitsLe 8 method := by
      rw [not_not.mp hmethod]
      rfl
    rw [h0, h1, ← hmethod']
    simp only [Header.bytes, Header.flags, Header.extraBytes, Header.crcBytes, ← hflags', hmtime', hcrc_bytes,
      byteBits_ofNat, bytesBits_append, bytesBits_cons, bytesBits_nil, List.nil_append, List.append_assoc]
  yields := by
    rintro _ w rest ⟨hp, h, rfl⟩ hat
    rw [length_bytesBits]
    exact parseGzipHeader_yields hp h hat

end

end Ziftsieve.Gzip
