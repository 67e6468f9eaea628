import Ziftsieve.Lz4WalkSound

/-!
# Every input gets an answer

On every byte string the LZ4 parsers return blocks or an error: no index or
slice is out of range, and every loop ends, since each turn of each loop moves
the position on.
-/

namespace Ziftsieve.Lz4

section
variable {data : Bytes}

/-! ## Lengths -/

theorem lengthTurn_graceful (s : Length) : Graceful (lengthTurn data s) := by
  unfold lengthTurn
  refine Graceful.failIf fun hpos => ?_
  refine (index_graceful (by omega)).bind fun byte _ => ?_
  refine Graceful.failIf fun _ => ?_
  refine Graceful.ite (fun _ => Graceful.ok _) fun _ => ?_
  exact Graceful.failIf fun _ => Graceful.ok _

theorem lengthTurn_pos {s : Length} {t : Turn Length (Nat × Nat)} (h : lengthTurn data s = .ok t) :
    s.pos < data.length ∧ ((∃ l, t = .done (l, s.pos + 1)) ∨ ∃ l, t = .next ⟨s.pos + 1, l⟩) := by
  unfold lengthTurn at h
  obtain ⟨u, hpos, h⟩ := Run.bind_eq_ok.mp h
  rw [failIf_eq_ok] at hpos
  obtain ⟨byte, -, h⟩ := Run.bind_eq_ok.mp h
  obtain ⟨-, -, h⟩ := Run.bind_eq_ok.mp h
  refine ⟨by omega, ?_⟩
  by_cases hb : byte < 255
  · rw [if_pos hb] at h
    exact .inl ⟨_, (Except.ok.inj h).symm⟩
  · rw [if_neg hb] at h
    obtain ⟨-, -, h⟩ := Run.bind_eq_ok.mp h
    exact .inr ⟨_, (Except.ok.inj h).symm⟩

theorem decodeLength_graceful (pos initial : Nat) : Graceful (decodeLength data pos initial) := by
  refine Graceful.loop (I := fun _ => True) (μ := fun s => data.length - s.pos)
    (fun s _ => lengthTurn_graceful s) ?_ _ _ trivial (Nat.lt_succ_of_le (Nat.sub_le _ _))
  intro s t _ h
  obtain ⟨hlt, ⟨l, hd⟩ | ⟨l, hn⟩⟩ := lengthTurn_pos h
  · cases hd
  · cases hn
    exact ⟨trivial, by simp only; omega⟩

theorem decodeLength_pos {pos initial : Nat} {r : Nat × Nat} (h : decodeLength data pos initial = .ok r) :
    pos ≤ r.2 := by
  refine loop_inv (I := fun s : Length => pos ≤ s.pos) (Q := fun r : Nat × Nat => pos ≤ r.2)
    ?_ ?_ _ ⟨pos, initial⟩ r (Nat.le_refl pos) h
  · intro s t hs ht
    obtain ⟨-, ⟨l, hd⟩ | ⟨l, hn⟩⟩ := lengthTurn_pos ht
    · cases hd
    · cases hn
      exact Nat.le_succ_of_le hs
  · intro s r hs hr
    obtain ⟨-, ⟨l, hd⟩ | ⟨l, hn⟩⟩ := lengthTurn_pos hr
    · cases hd
      exact Nat.le_succ_of_le hs
    · cases hn

/-! ## Blocks -/

theorem skipMatch_graceful (pos matchLen : Nat) : Graceful (skipMatch data pos matchLen) := by
  unfold skipMatch
  refine Graceful.failIf fun _ => Graceful.ite (fun _ => ?_) fun _ => Graceful.ok _
  exact (decodeLength_graceful _ _).bind fun _ _ => Graceful.ok _

theorem skipMatch_pos {pos matchLen q : Nat} (h : skipMatch data pos matchLen = .ok q) : pos ≤ q := by
  unfold skipMatch at h
  obtain ⟨-, -, h⟩ := Run.bind_eq_ok.mp h
  by_cases h15 : matchLen = 15
  · simp only [if_pos h15] at h
    obtain ⟨r, hr, h⟩ := Run.bind_eq_ok.mp h
    have hle := decodeLength_pos hr
    have hq : r.2 = q := Except.ok.inj h
    omega
  · simp only [if_neg h15] at h
    have hq : pos + 2 = q := Except.ok.inj h
    omega

theorem scanTurn_graceful (maxOutput : Nat) (s : Scan) : Graceful (scanTurn data maxOutput s) := by
  unfold scanTurn
  refine Graceful.ite (fun hs => ?_) fun _ => Graceful.ok _
  refine Graceful.failIf fun _ => ?_
  refine (index_graceful hs.1).bind fun token _ => ?_
  refine (Graceful.ite (fun _ => decodeLength_graceful _ _) fun _ => Graceful.ok _).bind fun r _ => ?_
  refine Graceful.failIf fun _ => Graceful.failIf fun hfit => ?_
  refine (Graceful.ite (fun _ => slice_graceful ⟨by omega, ?_⟩) fun _ => Graceful.ok _).bind fun copied _ => ?_
  · have := Nat.min_le_left r.1 (maxOutput - s.literals.length)
    omega
  · exact (Graceful.ite (fun _ => skipMatch_graceful _ _) fun _ => Graceful.ok _).bind fun _ _ => Graceful.ok _

theorem scanTurn_pos {maxOutput : Nat} {s t : Scan} (h : scanTurn data maxOutput s = .ok (.next t)) :
    s.pos < data.length ∧ ∃ copied, t.literals = s.literals ++ copied ∧ s.pos + copied.length < t.pos ∧
      s.pos + copied.length ≤ data.length := by
  unfold scanTurn at h
  by_cases hs : s.pos < data.length ∧ s.literals.length < maxOutput
  · rw [if_pos hs] at h
    obtain ⟨-, -, h⟩ := Run.bind_eq_ok.mp h
    obtain ⟨token, -, h⟩ := Run.bind_eq_ok.mp h
    obtain ⟨r, hr, h⟩ := Run.bind_eq_ok.mp h
    have hr2 : s.pos + 1 ≤ r.2 := by
      by_cases hn : (token >>> 4).toNat = 15
      · rw [if_pos hn] at hr
        exact decodeLength_pos hr
      · rw [if_neg hn] at hr
        rw [← Except.ok.inj hr]
    obtain ⟨-, -, h⟩ := Run.bind_eq_ok.mp h
    obtain ⟨_, hfit, h⟩ := Run.bind_eq_ok.mp h
    obtain ⟨copied, hcopied, h⟩ := Run.bind_eq_ok.mp h
    obtain ⟨q, hq, h⟩ := Run.bind_eq_ok.mp h
    rw [failIf_eq_ok] at hfit
    have hlen : copied.length ≤ r.1 := by
      by_cases hcopy : min r.1 (maxOutput - s.literals.length) > 0
      · rw [if_pos hcopy] at hcopied
        rw [← (slice_eq_ok.mp hcopied).2, List.length_take]
        omega
      · rw [if_neg hcopy] at hcopied
        rw [← Except.ok.inj hcopied]
        exact Nat.zero_le _
    have hq2 : r.2 + r.1 ≤ q := by
      by_cases hm : r.2 + r.1 < data.length
      · rw [if_pos hm] at hq
        exact skipMatch_pos hq
      · rw [if_neg hm] at hq
        rw [← Except.ok.inj hq]
    cases h
    exact ⟨hs.1, copied, rfl, by simp only; omega, by omega⟩
  · rw [if_neg hs] at h
    cases h

theorem scanTurn_done {maxOutput : Nat} {s : Scan} {literals : Bytes}
    (h : scanTurn data maxOutput s = .ok (.done literals)) : literals = s.literals := by
  unfold scanTurn at h
  by_cases hs : s.pos < data.length ∧ s.literals.length < maxOutput
  · rw [if_pos hs] at h
    simp only [Run.bind_eq_ok] at h
    obtain ⟨_, _, _, _, _, _, _, _, _, _, _, _, _, _, h⟩ := h
    cases h
  · rw [if_neg hs] at h
    cases h
    rfl

theorem length_extractLiterals_le {maxOutput : Nat} {literals : Bytes} (h : extractLiterals data maxOutput = .ok literals) :
    literals.length ≤ data.length := by
  refine loop_inv (I := fun s : Scan => s.literals.length ≤ s.pos ∧ s.literals.length ≤ data.length)
    (Q := fun literals => literals.length ≤ data.length) ?_ ?_ _ ⟨0, [], 0⟩ literals ⟨Nat.le_refl 0, Nat.zero_le _⟩ h
  · intro s t hs ht
    obtain ⟨-, copied, hlits, hpos, hend⟩ := scanTurn_pos ht
    rw [hlits, List.length_append]
    omega
  · intro s literals hs hdone
    rw [scanTurn_done hdone]
    exact hs.2

theorem extractLiterals_graceful (maxOutput : Nat) : Graceful (extractLiterals data maxOutput) := by
  refine Graceful.loop (I := fun _ => True) (μ := fun s => data.length - s.pos)
    (fun s _ => scanTurn_graceful _ s) ?_ _ _ trivial (Nat.lt_succ_of_le (Nat.sub_le _ _))
  intro s t _ h
  obtain ⟨hlt, _, _, hpos, _⟩ := scanTurn_pos h
  exact ⟨trivial, by omega⟩

/-! ## Streams -/

theorem walkBlock_graceful (w : Walk) (isUncompressed : Bool) (size : Nat) :
    Graceful (walkBlock data w isUncompressed size) := by
  unfold walkBlock
  refine Graceful.failIf fun _ => Graceful.failIf fun hend => ?_
  refine (slice_graceful ⟨by omega, by omega⟩).bind fun blockData _ => ?_
  have hliterals : Graceful (blockLiterals isUncompressed blockData) := by
    unfold blockLiterals
    exact Graceful.ite (fun _ => Graceful.ok _) fun _ => extractLiterals_graceful _
  exact hliterals.bind fun _ _ => Graceful.failIf fun _ => Graceful.failIf fun _ => Graceful.ok _

theorem walkTurn_graceful (framed : Bool) (w : Walk) : Graceful (walkTurn data framed w) := by
  unfold walkTurn
  refine Graceful.ite (fun _ => Graceful.failIf fun _ => ?_) fun _ => Graceful.ok _
  refine Graceful.ite (fun _ => Graceful.ite (fun _ => Graceful.ok _) fun _ => Graceful.fail _) fun h4 => ?_
  refine (readLe32_safe (by omega)).graceful.bind fun blockSize _ => ?_
  exact Graceful.ite (fun _ => Graceful.ok _) fun _ => (walkBlock_graceful _ _ _).bind fun _ _ => Graceful.ok _

theorem parseFrameHeader_graceful : Graceful (parseFrameHeader data) := by
  unfold parseFrameHeader
  refine Graceful.ite (fun _ => Graceful.fail _) fun _ => Graceful.ite (fun _ => Graceful.ok _) fun _ => ?_
  refine Graceful.failIf fun h7 => (index_graceful (by omega)).bind fun flg _ => ?_
  exact Graceful.failIf fun _ => Graceful.failIf fun _ => Graceful.ok _

/-- **The parser answers on every input.** -/
theorem parseLz4Blocks_graceful (data : Bytes) : Graceful (parseLz4Blocks data) := by
  unfold parseLz4Blocks
  refine Graceful.ite (fun _ => Graceful.fail _) fun _ => parseFrameHeader_graceful.bind fun offset _ => ?_
  refine Graceful.loop (I := fun _ => True) (μ := fun w => data.length - w.offset)
    (fun w _ => walkTurn_graceful _ w) ?_ _ _ trivial (Nat.lt_succ_of_le (Nat.sub_le _ _))
  intro w w' _ h
  have hnext := (walkTurn_next_inv h).1
  have hlt : w.offset < data.length := by
    by_contra hge
    unfold walkTurn at h
    rw [if_neg hge] at h
    cases h
  exact ⟨trivial, by omega⟩

end

end Ziftsieve.Lz4
