import Ziftsieve.Lz4Format

/-!
# Soundness of the block scan

The scan of an encoded block gives the block's literals, all of them, exactly
when the block is within the scan's limits.
-/

namespace Ziftsieve.Lz4

/-! ## Lengths -/

section
variable {data rest : Bytes} {s : Length}

theorem lengthTurn_last {b : UInt8} (h : At data s.pos (b :: rest)) (hb : b < 255) (hs : s.len ≤ maxBlockSize) :
    lengthTurn data s = .ok (.done (s.len + b.toNat, s.pos + 1)) := by
  have hlt := h.lt
  have hb8 := b.toNat_lt
  unfold lengthTurn
  rw [failIf_false _ (by omega), Run.ok_bind, h.index, Run.ok_bind]
  dsimp only
  rw [failIf_false _ (by unfold maxBlockSize at hs; unfold usizeMax; omega), Run.ok_bind, if_pos hb]
  rfl

theorem lengthTurn_more (h : At data s.pos (255 :: rest)) (hs : s.len + 255 ≤ maxBlockSize) :
    lengthTurn data s = .ok (.next ⟨s.pos + 1, s.len + 255⟩) := by
  have hlt := h.lt
  have h255 : (255 : UInt8).toNat = 255 := rfl
  unfold lengthTurn
  rw [failIf_false _ (by omega), Run.ok_bind, h.index, Run.ok_bind]
  dsimp only
  rw [h255, failIf_false _ (by unfold maxBlockSize at hs; unfold usizeMax; omega), Run.ok_bind, if_neg (by decide),
    failIf_false _ (by omega)]
  rfl

theorem lengthTurn_error (h : At data s.pos (255 :: rest)) (hs : maxBlockSize < s.len + 255)
    (hl : s.len ≤ maxBlockSize) :
    lengthTurn data s = .error (.err (.blockTooLarge (s.len + 255) maxBlockSize)) := by
  have hlt := h.lt
  have h255 : (255 : UInt8).toNat = 255 := rfl
  unfold lengthTurn
  rw [failIf_false _ (by omega), Run.ok_bind, h.index, Run.ok_bind]
  dsimp only
  rw [h255, failIf_false _ (by unfold maxBlockSize at hl; unfold usizeMax; omega), Run.ok_bind, if_neg (by decide),
    failIf_true _ hs]
  rfl

end

section
variable {data rest : Bytes} {r : UInt8}

theorem lengthRun_ok (hr : r < 255) {k fuel pos len : Nat} (h : At data pos (List.replicate k 255 ++ r :: rest))
    (hs : len + 255 * k ≤ maxBlockSize) (hf : k < fuel) :
    loop (lengthTurn data) fuel ⟨pos, len⟩ = .ok (len + 255 * k + r.toNat, pos + k + 1) := by
  induction k generalizing fuel pos len with
  | zero =>
    obtain ⟨fuel, rfl⟩ := Nat.exists_eq_add_of_lt hf
    rw [loop_done (lengthTurn_last (s := ⟨pos, len⟩) h hr (by simpa using hs))]
    rfl
  | succ k ih =>
    obtain ⟨fuel, rfl⟩ := Nat.exists_eq_add_of_lt hf
    rw [List.replicate_succ, List.cons_append] at h
    rw [Nat.mul_succ] at hs ⊢
    have hk : len + 255 ≤ maxBlockSize :=
      Nat.le_trans (Nat.add_le_add_left (Nat.le_add_left 255 _) len) hs
    rw [loop_next (lengthTurn_more (s := ⟨pos, len⟩) h hk), ih h.tail (by dsimp only; omega) (by omega)]
    dsimp only
    congr 2 <;> omega

theorem lengthRun_error {k fuel pos len : Nat} (h : At data pos (List.replicate k 255 ++ r :: rest))
    (hl : len ≤ maxBlockSize) (hs : maxBlockSize < len + 255 * k) (hf : k < fuel) :
    ∃ e, loop (lengthTurn data) fuel ⟨pos, len⟩ = .error e := by
  induction k generalizing fuel pos len with
  | zero => omega
  | succ k ih =>
    obtain ⟨fuel, rfl⟩ := Nat.exists_eq_add_of_lt hf
    rw [List.replicate_succ, List.cons_append] at h
    by_cases hk : len + 255 ≤ maxBlockSize
    · rw [loop_next (lengthTurn_more (s := ⟨pos, len⟩) h hk)]
      exact ih h.tail hk (by rw [Nat.mul_succ] at hs; dsimp only; omega) (by omega)
    · exact ⟨_, loop_error (lengthTurn_error (s := ⟨pos, len⟩) h (Nat.lt_of_not_le hk) hl)⟩

end

section
variable {data rest : Bytes} {pos n : Nat}

theorem lengthBytes_of_lt (h : n < 15) : lengthBytes n = [] := by unfold lengthBytes; rw [if_pos h]

theorem at_extension (hn : 15 ≤ n) (h : At data pos (lengthBytes n ++ rest)) :
    At data pos (List.replicate ((n - 15) / 255) 255 ++ UInt8.ofNat ((n - 15) % 255) :: rest) := by
  unfold lengthBytes at h
  rw [if_neg (by omega), List.append_assoc] at h
  exact h

theorem extension_lt (hn : 15 ≤ n) (h : At data pos (lengthBytes n ++ rest)) : (n - 15) / 255 < data.length + 1 := by
  have := (at_extension hn h).length
  rw [List.length_append, List.length_replicate] at this; omega

theorem decodeLength_ok (hn : 15 ≤ n) (hf : LengthFits n) (h : At data pos (lengthBytes n ++ rest)) :
    decodeLength data pos 15 = .ok (n, pos + (lengthBytes n).length) := by
  have hr : (UInt8.ofNat ((n - 15) % 255)).toNat = (n - 15) % 255 := by
    rw [UInt8.toNat_ofNat']; omega
  have hlt : UInt8.ofNat ((n - 15) % 255) < 255 := by
    rw [UInt8.lt_iff_toNat_lt, hr]; exact Nat.mod_lt _ (by decide)
  unfold decodeLength
  rw [lengthRun_ok hlt (at_extension hn h) hf (extension_lt hn h), hr]
  unfold lengthBytes
  rw [if_neg (by omega), List.length_append, List.length_replicate, List.length_singleton]
  congr 2; omega

theorem decodeLength_error (hn : 15 ≤ n) (hf : ¬ LengthFits n) (h : At data pos (lengthBytes n ++ rest)) :
    ∃ e, decodeLength data pos 15 = .error e :=
  lengthRun_error (at_extension hn h) (by decide) (Nat.lt_of_not_le hf) (extension_lt hn h)

end

/-! ## Tokens -/

theorem token_toNat (a b : Nat) : (token a b).toNat = 16 * min a 15 + min b 15 := by
  unfold token
  rw [UInt8.toNat_ofNat']; omega

theorem token_literal (a b : Nat) : (token a b >>> 4).toNat = min a 15 := by
  rw [UInt8.toNat_shiftRight, token_toNat, show ((4 : UInt8).toNat % 8) = 4 from rfl, Nat.shiftRight_eq_div_pow]
  omega

theorem token_match (a b : Nat) : (token a b &&& 0x0F).toNat = min b 15 := by
  rw [UInt8.toNat_and, token_toNat, show (0x0F : UInt8).toNat = 2 ^ 4 - 1 from rfl, Nat.and_two_pow_sub_one_eq_mod]
  omega

/-! ## One sequence -/

section
variable {c rest : Bytes} {pos n m offset : Nat}

theorem lengthField_ok (hf : LengthFits n) (h : At c pos (lengthBytes n ++ rest)) :
    (if min n 15 = 15 then decodeLength c pos (min n 15) else pure (min n 15, pos)) =
      Except.ok (n, pos + (lengthBytes n).length) := by
  by_cases hn : 15 ≤ n
  · rw [Nat.min_eq_right hn, if_pos rfl, decodeLength_ok hn hf h]
  · have hlt := Nat.lt_of_not_le hn
    rw [Nat.min_eq_left (Nat.le_of_lt hlt), if_neg (Nat.ne_of_lt hlt), lengthBytes_of_lt hlt]
    rfl

theorem skipMatch_eq (h : At c pos (encodeMatch offset m ++ rest)) (matchLen : Nat) :
    skipMatch c pos matchLen =
      (if matchLen = 15 then do
        let (_, pos) ← decodeLength c (pos + 2) matchLen
        pure pos
      else pure (pos + 2)) := by
  have hl := h.length
  simp only [encodeMatch, List.length_append, length_toLe] at hl
  unfold skipMatch
  rw [failIf_false _ (by omega)]
  rfl

theorem skipMatch_ok (hf : LengthFits m) (h : At c pos (encodeMatch offset m ++ rest)) :
    skipMatch c pos (min m 15) = .ok (pos + (encodeMatch offset m).length) := by
  rw [skipMatch_eq h, encodeMatch, List.length_append, length_toLe]
  unfold encodeMatch at h
  rw [List.append_assoc] at h
  have hx : At c (pos + 2) (lengthBytes m ++ rest) := by simpa only [length_toLe] using h.skip
  by_cases hm : 15 ≤ m
  · rw [Nat.min_eq_right hm, if_pos rfl, decodeLength_ok hm hf hx, Run.ok_bind, ← Nat.add_assoc]
    rfl
  · have hlt := Nat.lt_of_not_le hm
    rw [Nat.min_eq_left (Nat.le_of_lt hlt), if_neg (Nat.ne_of_lt hlt), lengthBytes_of_lt hlt]
    rfl

theorem skipMatch_error (hf : ¬ LengthFits m) (h : At c pos (encodeMatch offset m ++ rest)) :
    ∃ e, skipMatch c pos (min m 15) = .error e := by
  have hm : 15 ≤ m := by
    by_cases hm : 15 ≤ m
    · exact hm
    · refine absurd ?_ hf
      unfold LengthFits maxBlockSize
      omega
  rw [skipMatch_eq h]
  unfold encodeMatch at h
  rw [List.append_assoc] at h
  have hx : At c (pos + 2) (lengthBytes m ++ rest) := by simpa only [length_toLe] using h.skip
  obtain ⟨e, he⟩ := decodeLength_error hm hf hx
  exact ⟨e, by rw [Nat.min_eq_right hm, if_pos rfl, he]; rfl⟩

end

section
variable {c rest : Bytes} {s : Scan}

theorem scanTurn_run {m : Nat} {lits : Bytes} (hc : c.length ≤ maxBlockSize) (hs : s.literals.length ≤ s.pos)
    (hn : s.sequenceCount + 1 < maxSequencesPerBlock) (h : At c s.pos (encodeRun m lits ++ rest)) :
    scanTurn c maxBlockSize s = (do
      let pos ← (if rest = [] then pure (s.pos + (encodeRun m lits).length)
        else skipMatch c (s.pos + (encodeRun m lits).length) (min m 15))
      pure (.next ⟨pos, s.literals ++ lits, s.sequenceCount + 1⟩)) := by
  have hl := h.length
  have he : (encodeRun m lits).length = 1 + (lengthBytes lits.length).length + lits.length := by
    rw [encodeRun, List.length_cons, List.length_append]; omega
  rw [List.length_append, he] at hl
  have hend : s.pos + 1 + (lengthBytes lits.length).length + lits.length = s.pos + (encodeRun m lits).length := by
    omega
  rw [encodeRun, List.cons_append, List.append_assoc] at h
  have hlits := h.tail.skip
  have hrest := hlits.skip
  have htake : min lits.length (maxBlockSize - s.literals.length) = lits.length := Nat.min_eq_left (by omega)
  have hcopy : (if lits.length > 0 then
        slice c (s.pos + 1 + (lengthBytes lits.length).length)
          (s.pos + 1 + (lengthBytes lits.length).length + lits.length)
      else pure []) = (Except.ok lits : Run ZiftError Bytes) := by
    by_cases h0 : lits.length > 0
    · rw [if_pos h0]; exact hlits.slice rfl
    · rw [if_neg h0, List.length_eq_zero_iff.mp (Nat.eq_zero_of_not_pos h0)]; rfl
  unfold scanTurn
  rw [if_pos ⟨h.lt, by omega⟩]
  dsimp only
  rw [failIf_false _ (by omega), Run.ok_bind, h.index, Run.ok_bind, token_literal, token_match,
    lengthField_ok (LengthFits.of_le (by omega)) h.tail, Run.ok_bind]
  dsimp only
  rw [failIf_false _ (by omega), Run.ok_bind, failIf_false _ (by omega), Run.ok_bind, htake, hcopy, Run.ok_bind, hend]
  rw [hend] at hrest
  cases rest with
  | nil => rw [if_neg (by rw [hrest.eq_end]; omega), if_pos rfl]
  | cons b bs => rw [if_pos hrest.lt, if_neg (by simp)]

theorem scanTurn_seq {q : Seq} (hc : c.length ≤ maxBlockSize) (hs : s.literals.length ≤ s.pos)
    (hn : s.sequenceCount + 1 < maxSequencesPerBlock) (hf : LengthFits (q.matchLen - 4))
    (h : At c s.pos (encodeSeq q ++ rest)) :
    scanTurn c maxBlockSize s =
      .ok (.next ⟨s.pos + (encodeSeq q).length, s.literals ++ q.literals, s.sequenceCount + 1⟩) := by
  rw [encodeSeq, List.append_assoc] at h
  rw [scanTurn_run hc hs hn h, if_neg (by simp [encodeMatch, toLe]), skipMatch_ok hf h.skip, encodeSeq,
    List.length_append,
    ← Nat.add_assoc]
  rfl

theorem scanTurn_long {q : Seq} (hc : c.length ≤ maxBlockSize) (hs : s.literals.length ≤ s.pos)
    (hn : s.sequenceCount + 1 < maxSequencesPerBlock) (hf : ¬ LengthFits (q.matchLen - 4))
    (h : At c s.pos (encodeSeq q ++ rest)) :
    ∃ e, scanTurn c maxBlockSize s = .error e := by
  rw [encodeSeq, List.append_assoc] at h
  obtain ⟨e, he⟩ := skipMatch_error hf h.skip
  exact ⟨e, by rw [scanTurn_run hc hs hn h, if_neg (by simp [encodeMatch, toLe]), he]; rfl⟩

theorem scanTurn_last {lits : Bytes} (hc : c.length ≤ maxBlockSize) (hs : s.literals.length ≤ s.pos)
    (hn : s.sequenceCount + 1 < maxSequencesPerBlock) (h : At c s.pos (encodeRun 0 lits)) :
    scanTurn c maxBlockSize s = .ok (.next ⟨c.length, s.literals ++ lits, s.sequenceCount + 1⟩) := by
  have hl := h.length
  rw [← List.append_nil (encodeRun 0 lits)] at h
  rw [scanTurn_run hc hs hn h, if_pos rfl, hl]
  rfl

theorem scanTurn_many {b : UInt8} (hc : c.length ≤ maxBlockSize) (hs : s.literals.length ≤ s.pos)
    (hn : ¬ s.sequenceCount + 1 < maxSequencesPerBlock) (h : At c s.pos (b :: rest)) :
    ∃ e, scanTurn c maxBlockSize s = .error e := by
  have hlt := h.lt
  unfold scanTurn
  rw [if_pos ⟨hlt, by omega⟩]
  dsimp only
  rw [failIf_true _ (by omega)]
  exact ⟨_, rfl⟩

theorem scanTurn_end (maxOutput : Nat) (h : s.pos = c.length) : scanTurn c maxOutput s = .ok (.done s.literals) := by
  unfold scanTurn
  rw [if_neg (by omega)]
  rfl

end

/-! ## A whole block -/

section
variable {c : Bytes} (hc : c.length ≤ maxBlockSize) (last : Bytes)
include hc

theorem scan_ok : ∀ (qs : List Seq) {fuel : Nat} {s : Scan},
    At c s.pos ((qs.map encodeSeq).flatten ++ encodeRun 0 last) → s.literals.length ≤ s.pos →
    s.sequenceCount + qs.length + 1 < maxSequencesPerBlock → (∀ q ∈ qs, LengthFits (q.matchLen - 4)) →
    c.length - s.pos < fuel →
    loop (scanTurn c maxBlockSize) fuel s = .ok (s.literals ++ ((qs.map (·.literals)).flatten ++ last))
  | [], fuel + 1, s, h, hs, hn, _, hf => by
    have hlt := h.lt
    obtain ⟨fuel, rfl⟩ := Nat.exists_eq_succ_of_ne_zero (n := fuel) (by omega)
    rw [loop_next (scanTurn_last hc hs hn h), loop_done (scanTurn_end _ rfl)]
    simp
  | q :: qs, fuel + 1, s, h, hs, hn, hq, hf => by
    rw [List.map_cons, List.flatten_cons, List.append_assoc] at h
    have hpos : q.literals.length < (encodeSeq q).length := by
      simp only [encodeSeq, encodeRun, List.length_append, List.length_cons]; omega
    rw [List.length_cons] at hn
    have hl := h.length
    rw [List.length_append] at hl
    rw [loop_next (scanTurn_seq hc hs (by omega) (hq q (List.mem_cons_self ..)) h),
      scan_ok qs h.skip (by simp only [List.length_append]; omega) (by simp only; omega)
        (fun q' h' => hq q' (List.mem_cons_of_mem _ h')) (by simp only; omega)]
    simp only [List.map_cons, List.flatten_cons, List.append_assoc]

theorem scan_accepted : ∀ (qs : List Seq) {fuel : Nat} {s : Scan} {r : Bytes},
    At c s.pos ((qs.map encodeSeq).flatten ++ encodeRun 0 last) → s.literals.length ≤ s.pos →
    loop (scanTurn c maxBlockSize) fuel s = .ok r →
    s.sequenceCount + qs.length + 1 < maxSequencesPerBlock ∧ ∀ q ∈ qs, LengthFits (q.matchLen - 4)
  | _, 0, _, _, _, _, hr => by cases hr
  | [], fuel + 1, s, r, h, hs, hr => by
    refine ⟨?_, by simp⟩
    by_cases hn : s.sequenceCount + 1 < maxSequencesPerBlock
    · exact hn
    · obtain ⟨e, he⟩ := scanTurn_many hc hs hn h
      rw [loop_error he] at hr; cases hr
  | q :: qs, fuel + 1, s, r, h, hs, hr => by
    rw [List.map_cons, List.flatten_cons, List.append_assoc] at h
    have hpos : q.literals.length < (encodeSeq q).length := by
      simp only [encodeSeq, encodeRun, List.length_append, List.length_cons]; omega
    by_cases hn : s.sequenceCount + 1 < maxSequencesPerBlock
    · by_cases hf : LengthFits (q.matchLen - 4)
      · rw [loop_next (scanTurn_seq hc hs hn hf h)] at hr
        obtain ⟨h1, h2⟩ := scan_accepted qs h.skip (by simp only [List.length_append]; omega) hr
        refine ⟨by rw [List.length_cons]; simp only at h1; omega, ?_⟩
        intro q' h'
        rcases List.mem_cons.mp h' with rfl | h'
        · exact hf
        · exact h2 q' h'
      · obtain ⟨e, he⟩ := scanTurn_long hc hs hn hf h
        rw [loop_error he] at hr; cases hr
    · obtain ⟨e, he⟩ := scanTurn_many hc hs hn h
      rw [loop_error he] at hr; cases hr

end

theorem extractLiterals_ok {b : Block} (hb : b.Accepted) (hc : b.encode.length ≤ maxBlockSize) :
    extractLiterals b.encode maxBlockSize = .ok b.literals := by
  unfold extractLiterals
  rw [scan_ok hc b.last b.seqs (At.start _) (Nat.zero_le _) (by simpa using hb.few) hb.fits (by simp)]
  rfl

theorem accepted_of_extractLiterals {b : Block} {r : Bytes} (hc : b.encode.length ≤ maxBlockSize)
    (h : extractLiterals b.encode maxBlockSize = .ok r) : b.Accepted := by
  obtain ⟨h1, h2⟩ := scan_accepted hc b.last b.seqs (At.start _) (Nat.zero_le _) h
  exact ⟨by simpa using h1, h2⟩

end Ziftsieve.Lz4
