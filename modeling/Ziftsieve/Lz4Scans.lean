import Ziftsieve.Lz4Truncate

/-!
# The language of the block scan

What a scan takes is sequences, and a run of literals where the bytes end before
a match. A length has one encoding, so the sequences can be read back from the
scan's turns.
-/

namespace Ziftsieve.Lz4

/-! ## Blocks -/

/-- A block as the scan takes it: it may end with a match, or with a token of whose lower half nothing is read. -/
structure ScannedBlock where
  seqs : List Seq
  last : Option (Fin 16 × Bytes)

namespace ScannedBlock

def lastBytes (b : ScannedBlock) : Bytes := b.last.elim [] fun r => encodeRun r.1 r.2

def encode (b : ScannedBlock) : Bytes := (b.seqs.map encodeSeq).flatten ++ b.lastBytes

def literals (b : ScannedBlock) : Bytes := (b.seqs.map (·.literals)).flatten ++ b.last.elim [] (·.2)

def tokens (b : ScannedBlock) : Nat := b.seqs.length + b.last.elim 0 fun _ => 1

structure Accepted (b : ScannedBlock) : Prop where
  few : b.tokens < maxSequencesPerBlock
  fits : ∀ s ∈ b.seqs, LengthFits (s.matchLen - 4)

end ScannedBlock

/-! ## Lengths -/

section
variable {data ys : Bytes} {pos n p nibble : Nat}

theorem lengthTurn_inv {s : Length} {turn : Turn Length (Nat × Nat)} (hat : At data s.pos ys)
    (h : lengthTurn data s = .ok turn) : ∃ b rest, ys = b :: rest ∧
      ((b < 255 ∧ turn = .done (s.len + b.toNat, s.pos + 1)) ∨
        (b = 255 ∧ s.len + 255 ≤ maxBlockSize ∧ turn = .next ⟨s.pos + 1, s.len + 255⟩)) := by
  unfold lengthTurn at h
  obtain ⟨_, hpos, h⟩ := Run.bind_eq_ok.mp h
  rw [failIf_eq_ok] at hpos
  have hl := hat.length
  cases ys with
  | nil =>
    rw [List.length_nil] at hl
    omega
  | cons b rest =>
    refine ⟨b, rest, rfl, ?_⟩
    rw [hat.index, Run.ok_bind] at h
    obtain ⟨_, -, h⟩ := Run.bind_eq_ok.mp h
    by_cases hb : b < 255
    · rw [if_pos hb] at h
      cases h
      exact .inl ⟨hb, rfl⟩
    · have h255 : b = 255 := by
        have hlt := b.toNat_lt
        rw [UInt8.lt_iff_toNat_lt] at hb
        rw [← UInt8.toNat_inj]
        simp only [UInt8.reduceToNat] at hb ⊢
        omega
      rw [if_neg hb] at h
      obtain ⟨_, hmax, h⟩ := Run.bind_eq_ok.mp h
      rw [failIf_eq_ok] at hmax
      cases h
      subst h255
      exact .inr ⟨rfl, Nat.le_of_not_lt hmax, rfl⟩

/-- A length is read from some bytes of 255, and one that is less. -/
theorem lengthRun_inv : ∀ (fuel : Nat) {pos len : Nat} {ys : Bytes}, At data pos ys →
    loop (lengthTurn data) fuel ⟨pos, len⟩ = .ok (n, p) → ∃ (k : Nat) (r : UInt8) (rest : Bytes), r < 255 ∧
      ys = List.replicate k 255 ++ r :: rest ∧ (k = 0 ∨ len + 255 * k ≤ maxBlockSize) ∧
      n = len + 255 * k + r.toNat ∧ p = pos + k + 1
  | 0, _, _, _, _, h => by cases h
  | fuel + 1, pos, len, ys, hat, h => by
    rw [loop] at h
    obtain ⟨turn, hturn, h⟩ := Run.bind_eq_ok.mp h
    obtain ⟨b, rest, rfl, ⟨hb, rfl⟩ | ⟨rfl, hmax, rfl⟩⟩ := lengthTurn_inv (s := ⟨pos, len⟩) hat hturn
    · cases h
      exact ⟨0, b, rest, hb, rfl, .inl rfl, rfl, rfl⟩
    · dsimp only at hmax h
      obtain ⟨k, r, rest', hr, rfl, hk, rfl, rfl⟩ := lengthRun_inv fuel hat.tail h
      refine ⟨k + 1, r, rest', hr, rfl, .inr ?_, by omega, by omega⟩
      have hlen : len + 255 * (k + 1) = len + 255 + 255 * k := by omega
      rw [hlen]
      rcases hk with rfl | hk
      · exact hmax
      · exact hk

theorem decodeLength_inv (hat : At data pos ys) (h : decodeLength data pos 15 = .ok (n, p)) :
    LengthFits n ∧ 15 ≤ n ∧ ∃ rest, ys = lengthBytes n ++ rest ∧ p = pos + (lengthBytes n).length := by
  obtain ⟨k, r, rest, hr, rfl, hk, rfl, rfl⟩ := lengthRun_inv _ hat h
  rw [UInt8.lt_iff_toNat_lt, show (255 : UInt8).toNat = 255 from rfl] at hr
  have hdiv : (15 + 255 * k + r.toNat - 15) / 255 = k := by omega
  have hmod : (15 + 255 * k + r.toNat - 15) % 255 = r.toNat := by omega
  have hbytes : lengthBytes (15 + 255 * k + r.toNat) = List.replicate k 255 ++ [r] := by
    rw [lengthBytes, if_neg (by omega), hdiv, hmod, UInt8.ofNat_toNat]
  refine ⟨?_, by omega, rest, ?_, ?_⟩
  · unfold LengthFits
    rw [hdiv]
    rcases hk with rfl | hk
    · decide
    · exact hk
  · rw [hbytes, List.append_assoc, List.singleton_append]
  · rw [hbytes, List.length_append, List.length_replicate, List.length_singleton, ← Nat.add_assoc]

theorem lengthField_inv (hnibble : nibble < 16) (hat : At data pos ys)
    (h : (if nibble = 15 then decodeLength data pos nibble else pure (nibble, pos)) = .ok (n, p)) :
    nibble = min n 15 ∧ LengthFits n ∧ ∃ rest, ys = lengthBytes n ++ rest ∧ p = pos + (lengthBytes n).length := by
  by_cases h15 : nibble = 15
  · subst h15
    rw [if_pos rfl] at h
    obtain ⟨hfits, hn, hrest⟩ := decodeLength_inv hat h
    exact ⟨(Nat.min_eq_right hn).symm, hfits, hrest⟩
  · have hlt : nibble < 15 := by omega
    rw [if_neg h15] at h
    cases h
    refine ⟨(Nat.min_eq_left (Nat.le_of_lt hlt)).symm, ?_, ys, ?_, ?_⟩
    · exact LengthFits.of_le (Nat.le_trans (Nat.le_of_lt hlt) (by decide))
    · rw [lengthBytes_of_lt hlt, List.nil_append]
    · rw [lengthBytes_of_lt hlt, List.length_nil, Nat.add_zero]

theorem skipMatch_inv (hnibble : nibble < 16) (hat : At data pos ys) (h : skipMatch data pos nibble = .ok p) :
    ∃ offset m rest, offset < 2 ^ 16 ∧ nibble = min m 15 ∧ LengthFits m ∧ ys = encodeMatch offset m ++ rest ∧
      p = pos + (encodeMatch offset m).length := by
  have hl := hat.length
  unfold skipMatch at h
  obtain ⟨_, hend, h⟩ := Run.bind_eq_ok.mp h
  rw [failIf_eq_ok] at hend
  match ys, hat, hl with
  | [], _, hl => rw [List.length_nil] at hl; omega
  | [_], _, hl => rw [List.length_singleton] at hl; omega
  | a :: b :: zs, hat, _ =>
    have hoffset : toLe 2 (fromLe [a, b]) = [a, b] := toLe_fromLe [a, b]
    have hlt := fromLe_lt [a, b]
    rw [List.length_cons, List.length_singleton] at hlt
    have hfield : ∃ m, (if nibble = 15 then decodeLength data (pos + 2) nibble else pure (nibble, pos + 2)) =
        (Except.ok (m, p) : Run ZiftError (Nat × Nat)) := by
      by_cases h15 : nibble = 15
      · rw [if_pos h15] at h ⊢
        obtain ⟨⟨m, q⟩, hm, h⟩ := Run.bind_eq_ok.mp h
        cases h
        exact ⟨m, hm⟩
      · rw [if_neg h15] at h ⊢
        cases h
        exact ⟨nibble, rfl⟩
    obtain ⟨m, hm⟩ := hfield
    obtain ⟨hmin, hfits, rest, rfl, rfl⟩ := lengthField_inv hnibble hat.tail.tail hm
    refine ⟨fromLe [a, b], m, rest, by omega, hmin, hfits, ?_, ?_⟩
    · rw [encodeMatch, hoffset]
      rfl
    · rw [encodeMatch, List.length_append, length_toLe, ← Nat.add_assoc]

end

/-! ## Turns -/

theorem token_of_nibbles {t : UInt8} {n m : Nat} (hn : (t >>> 4).toNat = min n 15) (hm : (t &&& 0x0F).toNat = min m 15) :
    token n m = t := by
  rw [UInt8.toNat_shiftRight, show ((4 : UInt8).toNat % 8) = 4 from rfl, Nat.shiftRight_eq_div_pow] at hn
  rw [UInt8.toNat_and, show (0x0F : UInt8).toNat = 2 ^ 4 - 1 from rfl, Nat.and_two_pow_sub_one_eq_mod] at hm
  rw [← UInt8.toNat_inj, token_toNat, ← hn, ← hm]
  omega

section
variable {c ys : Bytes} {s t : Scan}

theorem nibbles_lt (t : UInt8) : (t >>> 4).toNat < 16 ∧ (t &&& 0x0F).toNat < 16 := by
  have hlt := t.toNat_lt
  refine ⟨?_, toNat_and_lt _ (by decide)⟩
  rw [UInt8.toNat_shiftRight, show ((4 : UInt8).toNat % 8) = 4 from rfl, Nat.shiftRight_eq_div_pow]
  omega

/-- A turn takes a sequence, or the run of literals that ends the block. -/
theorem scanTurn_inv (hc : c.length ≤ maxBlockSize) (hs : s.literals.length ≤ s.pos) (hlt : s.pos < c.length)
    (hat : At c s.pos ys) (h : scanTurn c maxBlockSize s = .ok (.next t)) : s.sequenceCount + 1 < maxSequencesPerBlock ∧
      ((∃ (q : Seq) (rest : Bytes), ys = encodeSeq q ++ rest ∧ LengthFits (q.matchLen - 4) ∧
          t = ⟨s.pos + (encodeSeq q).length, s.literals ++ q.literals, s.sequenceCount + 1⟩) ∨
        ∃ (m : Fin 16) (lits : Bytes), ys = encodeRun m lits ∧ t = ⟨c.length, s.literals ++ lits, s.sequenceCount + 1⟩) := by
  obtain ⟨start, len, next, hseq, hturn⟩ := (scanTurn_eq_ok hlt (by omega)).mp h
  cases hturn
  refine ⟨hseq.few, ?_⟩
  obtain ⟨tok, htok, hlen, hnext⟩ := hseq.lengths
  obtain ⟨hhigh, hlow⟩ := nibbles_lt tok
  obtain ⟨zs, rfl⟩ : ∃ zs, ys = tok :: zs := by
    rw [← hat.drop, List.drop_eq_getElem_cons hlt]
    rw [List.getElem?_eq_getElem hlt] at htok
    exact ⟨_, by rw [Option.some.inj htok]⟩
  obtain ⟨hn, -, zs, rfl, rfl⟩ := lengthField_inv hhigh hat.tail hlen
  have hfits := hseq.fits
  have hl := hat.tail.skip.length
  obtain ⟨lits, ws, rfl, rfl⟩ : ∃ lits ws, zs = lits ++ ws ∧ lits.length = len :=
    ⟨zs.take len, zs.drop len, (List.take_append_drop _ _).symm, by rw [List.length_take]; omega⟩
  have hcopied : (c.drop (s.pos + 1 + (lengthBytes lits.length).length)).take
      (min lits.length (maxBlockSize - s.literals.length)) = lits := by
    rw [hat.tail.skip.drop, Nat.min_eq_left (by omega), List.take_left]
  have hrun : ∀ m rest, (tok &&& 0x0F).toNat = min m 15 → tok :: (lengthBytes lits.length ++ (lits ++ rest)) =
      encodeRun m lits ++ rest := by
    intro m rest hm
    rw [encodeRun, token_of_nibbles hn hm, List.cons_append, List.append_assoc]
  have hlen_run : ∀ m, s.pos + 1 + (lengthBytes lits.length).length + lits.length = s.pos + (encodeRun m lits).length := by
    intro m
    rw [encodeRun, List.length_cons, List.length_append]
    omega
  unfold Scan.copied
  rw [hcopied]
  by_cases hmore : s.pos + 1 + (lengthBytes lits.length).length + lits.length < c.length
  · left
    rw [if_pos hmore] at hnext
    obtain ⟨offset, m, rest, hoffset, hm, hmfits, rfl, rfl⟩ := skipMatch_inv hlow hat.tail.skip.skip hnext
    refine ⟨⟨⟨lits, offset, m + 4⟩, hoffset, Nat.le_add_left 4 m⟩, rest, ?_, hmfits, ?_⟩
    · rw [hrun m _ hm, encodeSeq, List.append_assoc]
      rfl
    · rw [hlen_run m, Nat.add_assoc, ← List.length_append]
      rfl
  · right
    rw [if_neg hmore] at hnext
    have hend := hat.tail.skip.skip.length
    obtain rfl : ws = [] := List.eq_nil_of_length_eq_zero (by omega)
    refine ⟨⟨_, hlow⟩, lits, ?_, ?_⟩
    · rw [hrun _ [] (Nat.min_eq_left (Nat.le_of_lt_succ hlow)).symm, List.append_nil]
    · cases hnext
      exact congrArg (Scan.mk · (s.literals ++ lits) (s.sequenceCount + 1)) hend

end

/-! ## Scans -/

section
variable {c : Bytes}

/-- By induction on the turns: what is left of the bytes is what is left of a block. -/
theorem scan_inv (hc : c.length ≤ maxBlockSize) : ∀ (fuel : Nat) {s : Scan} {ys lits : Bytes}, At c s.pos ys →
    s.literals.length ≤ s.pos → loop (scanTurn c maxBlockSize) fuel s = .ok lits → ∃ b : ScannedBlock, ys = b.encode ∧
      lits = s.literals ++ b.literals ∧ (b.tokens ≠ 0 → s.sequenceCount + b.tokens < maxSequencesPerBlock) ∧
      ∀ q ∈ b.seqs, LengthFits (q.matchLen - 4)
  | 0, _, _, _, _, _, h => by cases h
  | fuel + 1, s, ys, lits, hat, hs, h => by
    have hl := hat.length
    rw [loop] at h
    obtain ⟨turn, hturn, h⟩ := Run.bind_eq_ok.mp h
    by_cases hlt : s.pos < c.length
    · cases turn with
      | done r =>
        obtain ⟨start, len, next, -, hdone⟩ := (scanTurn_eq_ok hlt (by omega)).mp hturn
        cases hdone
      | next t =>
        obtain ⟨hfew, ⟨q, rest, rfl, hq, rfl⟩ | ⟨m, last, rfl, rfl⟩⟩ := scanTurn_inv hc hs hlt hat hturn
        · have hpos : q.literals.length < (encodeSeq q).length := by
            simp only [encodeSeq, encodeRun, List.length_append, List.length_cons]
            omega
          obtain ⟨b, rfl, rfl, hcount, hfits⟩ := scan_inv hc fuel hat.skip
            (by simp only [List.length_append]; omega) h
          refine ⟨⟨q :: b.seqs, b.last⟩, ?_, ?_, ?_, List.forall_mem_cons.mpr ⟨hq, hfits⟩⟩
          · simp only [ScannedBlock.encode, ScannedBlock.lastBytes, List.map_cons, List.flatten_cons, List.append_assoc]
          · simp only [ScannedBlock.literals, List.map_cons, List.flatten_cons, List.append_assoc]
          · intro _
            have htokens : ScannedBlock.tokens ⟨q :: b.seqs, b.last⟩ = b.tokens + 1 := by
              simp only [ScannedBlock.tokens, List.length_cons]
              omega
            rw [htokens]
            dsimp only at hcount
            by_cases h0 : b.tokens = 0
            · omega
            · have := hcount h0
              omega
        · obtain _ | fuel := fuel
          · cases h
          · change loop (scanTurn c maxBlockSize) (fuel + 1) _ = _ at h
            rw [loop_done (scanTurn_end (s := ⟨c.length, s.literals ++ last, s.sequenceCount + 1⟩) _ rfl)] at h
            cases h
            exact ⟨⟨[], some (m, last)⟩, rfl, rfl, fun _ => hfew, List.forall_mem_nil _⟩
    · rw [scanTurn_end _ (show s.pos = c.length by omega)] at hturn
      cases hturn
      cases h
      obtain rfl : ys = [] := List.eq_nil_of_length_eq_zero (by omega)
      exact ⟨⟨[], none⟩, rfl, (List.append_nil _).symm, fun h0 => absurd rfl h0, List.forall_mem_nil _⟩

theorem scan_complete (hc : c.length ≤ maxBlockSize) : ∀ {b : ScannedBlock} {fuel : Nat} {s : Scan}, At c s.pos b.encode →
    s.literals.length ≤ s.pos → s.sequenceCount + b.tokens < maxSequencesPerBlock →
    (∀ q ∈ b.seqs, LengthFits (q.matchLen - 4)) → c.length - s.pos < fuel →
    loop (scanTurn c maxBlockSize) fuel s = .ok (s.literals ++ b.literals)
  | ⟨[], none⟩, fuel + 1, s, hat, _, _, _, _ => by
    rw [loop_done (scanTurn_end _ hat.eq_end), ScannedBlock.literals]
    exact congrArg Except.ok (List.append_nil _).symm
  | ⟨[], some (m, last)⟩, fuel + 1, s, hat, hs, hcount, _, hfuel => by
    have hrun : At c s.pos (encodeRun m last ++ []) := by rwa [List.append_nil]
    have hlt : 0 < (encodeRun m last).length := Nat.succ_pos _
    have hend := hat.length
    change s.pos + (encodeRun m last).length = c.length at hend
    have hturn := scanTurn_run hc hs hcount hrun
    rw [if_pos rfl, Run.pure_eq, Run.ok_bind, hend] at hturn
    obtain ⟨fuel, rfl⟩ := Nat.exists_eq_succ_of_ne_zero (n := fuel) (by omega)
    rw [loop_next hturn, loop_done (scanTurn_end (s := ⟨c.length, s.literals ++ last, s.sequenceCount + 1⟩) _ rfl)]
    rfl
  | ⟨q :: seqs, last⟩, fuel + 1, s, hat, hs, hcount, hfits, hfuel => by
    obtain ⟨hq, hfits⟩ := List.forall_mem_cons.mp hfits
    have hat' : At c s.pos (encodeSeq q ++ ScannedBlock.encode ⟨seqs, last⟩) := by
      rw [ScannedBlock.encode, ← List.append_assoc]
      exact hat
    have hpos : q.literals.length < (encodeSeq q).length := by
      simp only [encodeSeq, encodeRun, List.length_append, List.length_cons]
      omega
    have hl := hat'.length
    rw [List.length_append] at hl
    simp only [ScannedBlock.tokens, List.length_cons] at hcount
    rw [loop_next (scanTurn_seq hc hs (by omega) hq hat'), scan_complete hc hat'.skip
      (by simp only [List.length_append]; omega) (by simp only [ScannedBlock.tokens]; omega) hfits (by simp only; omega)]
    simp only [ScannedBlock.literals, List.map_cons, List.flatten_cons, List.append_assoc]

/-- **The scan of a block takes exactly the sequences.** -/
theorem extractLiterals_scans_iff (hc : c.length ≤ maxBlockSize) {lits : Bytes} :
    extractLiterals c maxBlockSize = .ok lits ↔ ∃ b : ScannedBlock, b.Accepted ∧ b.encode = c ∧ b.literals = lits := by
  unfold extractLiterals
  constructor
  · intro h
    obtain ⟨b, hb, rfl, hcount, hfits⟩ := scan_inv hc _ (At.start c) (Nat.zero_le _) h
    refine ⟨b, ⟨?_, hfits⟩, hb.symm, rfl⟩
    by_cases h0 : b.tokens = 0
    · rw [h0]
      decide
    · have := hcount h0
      simpa using this
  · rintro ⟨b, hb, rfl, rfl⟩
    exact scan_complete hc (At.start _) (Nat.zero_le _) (by simpa using hb.few) hb.fits (by simp)

end

end Ziftsieve.Lz4
