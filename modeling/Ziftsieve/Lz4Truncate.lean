import Ziftsieve.Lz4Safe

/-!
# The output limit of the block scan

A turn of the scan reads its sequence the same whatever the limit, and only the copy
is cut off at it. So a run with a smaller limit goes with the larger one until its
own limit is reached, and stops there.
-/

namespace Ziftsieve.Lz4

section
variable {data : Bytes} {s t : Scan} {m n start len next : Nat}

/-! ## What a turn reads -/

/-- The sequence at the scan's position: `len` literals from `start` on, and the next
sequence at `next`. -/
structure SequenceAt (data : Bytes) (s : Scan) (start len next : Nat) : Prop where
  few : s.sequenceCount + 1 < maxSequencesPerBlock
  lengths : ∃ token, data[s.pos]? = some token ∧
    (if (token >>> 4).toNat = 15 then decodeLength data (s.pos + 1) (token >>> 4).toNat
      else pure ((token >>> 4).toNat, s.pos + 1)) = .ok (len, start) ∧
    (if start + len < data.length then skipMatch data (start + len) (token &&& 0x0F).toNat
      else pure (start + len)) = .ok next
  len_le : len ≤ maxBlockSize
  fits : start + len ≤ data.length

theorem SequenceAt.start_gt (h : SequenceAt data s start len next) : s.pos < start := by
  obtain ⟨token, -, hlen, -⟩ := h.lengths
  by_cases h15 : (token >>> 4).toNat = 15
  · rw [if_pos h15] at hlen
    exact decodeLength_pos hlen
  · rw [if_neg h15] at hlen
    cases hlen
    exact Nat.lt_succ_self _

theorem SequenceAt.next_ge (h : SequenceAt data s start len next) : start + len ≤ next := by
  obtain ⟨token, -, -, hnext⟩ := h.lengths
  by_cases hmore : start + len < data.length
  · rw [if_pos hmore] at hnext
    exact skipMatch_pos hnext
  · rw [if_neg hmore] at hnext
    cases hnext
    exact Nat.le_refl _

/-- The scan after a sequence, with the copy cut off at the limit. -/
def Scan.copied (s : Scan) (data : Bytes) (start len next maxOutput : Nat) : Scan :=
  ⟨next, s.literals ++ (data.drop start).take (min len (maxOutput - s.literals.length)), s.sequenceCount + 1⟩

theorem copy_eq (hfits : start + len ≤ data.length) {k : Nat} (hk : k ≤ len) :
    (if k > 0 then slice data start (start + k) else pure [] : Run ZiftError Bytes) = .ok ((data.drop start).take k) := by
  by_cases hpos : k > 0
  · rw [if_pos hpos]
    exact slice_eq_ok.mpr ⟨⟨Nat.le_add_right _ _, by omega⟩, by rw [Nat.add_sub_cancel_left]⟩
  · rw [if_neg hpos, Nat.eq_zero_of_not_pos hpos]
    rfl

/-- A turn succeeds on a sequence, and the limit is in the copy alone. -/
theorem scanTurn_eq_ok {turn : Turn Scan Bytes} (hpos : s.pos < data.length) (hlimit : s.literals.length < n) :
    scanTurn data n s = .ok turn ↔
      ∃ start len next, SequenceAt data s start len next ∧ turn = .next (s.copied data start len next n) := by
  unfold scanTurn
  rw [if_pos ⟨hpos, hlimit⟩]
  constructor
  · intro h
    obtain ⟨_, hfew, h⟩ := Run.bind_eq_ok.mp h
    obtain ⟨token, htoken, h⟩ := Run.bind_eq_ok.mp h
    obtain ⟨⟨len, start⟩, hlen, h⟩ := Run.bind_eq_ok.mp h
    obtain ⟨_, hmax, h⟩ := Run.bind_eq_ok.mp h
    obtain ⟨_, hfits, h⟩ := Run.bind_eq_ok.mp h
    rw [failIf_eq_ok] at hfew hmax hfits
    dsimp only at h
    rw [copy_eq (Nat.le_of_not_lt hfits) (Nat.min_le_left _ _), Run.ok_bind] at h
    obtain ⟨next, hnext, h⟩ := Run.bind_eq_ok.mp h
    refine ⟨start, len, next, ⟨Nat.lt_of_not_le hfew, ⟨token, index_eq_ok.mp htoken, hlen, hnext⟩, Nat.le_of_not_lt hmax,
      Nat.le_of_not_lt hfits⟩, ?_⟩
    exact (Except.ok.inj h).symm
  · rintro ⟨start, len, next, ⟨hfew, ⟨token, htoken, hlen, hnext⟩, hmax, hfits⟩, rfl⟩
    dsimp only
    rw [failIf_false _ (Nat.not_le_of_lt hfew), Run.ok_bind, index_eq_ok.mpr htoken, Run.ok_bind, hlen, Run.ok_bind]
    dsimp only
    rw [failIf_false _ (Nat.not_lt_of_le hmax), Run.ok_bind, failIf_false _ (Nat.not_lt_of_le hfits), Run.ok_bind,
      copy_eq hfits (Nat.min_le_left _ _), Run.ok_bind, hnext, Run.ok_bind]
    rfl

theorem scanTurn_stop (h : ¬ (s.pos < data.length ∧ s.literals.length < n)) :
    scanTurn data n s = .ok (.done s.literals) := by
  unfold scanTurn
  rw [if_neg h]
  rfl

/-! ## Two limits -/

theorem Scan.copied_literals_take (s : Scan) (data : Bytes) (start len next : Nat) (hmn : m ≤ n)
    (hm : s.literals.length ≤ m) :
    (s.copied data start len next m).literals = (s.copied data start len next n).literals.take m := by
  have hmin : min (m - s.literals.length) (min len (n - s.literals.length)) = min len (m - s.literals.length) := by omega
  unfold copied
  dsimp only
  rw [List.take_append, List.take_of_length_le hm, List.take_take, hmin]

theorem scan_prefix {k : Nat} {r : Bytes} (h : loop (scanTurn data n) k s = .ok r) : s.literals <+: r := by
  refine loop_inv (I := fun t : Scan => s.literals <+: t.literals) (Q := fun r => s.literals <+: r) ?_ ?_ k s r
    (List.prefix_refl _) h
  · intro t u ht hu
    obtain ⟨-, copied, hlits, -, -⟩ := scanTurn_pos hu
    rw [hlits]
    exact ht.trans (List.prefix_append _ _)
  · intro t r ht hr
    rw [scanTurn_done hr]
    exact ht

theorem scan_take (hmn : m ≤ n) : ∀ {k : Nat} {s : Scan} {r : Bytes}, s.literals.length ≤ m →
    loop (scanTurn data n) k s = .ok r → loop (scanTurn data m) k s = .ok (r.take m)
  | 0, _, _, _, h => by cases h
  | k + 1, s, r, hm, h => by
    -- the two runs are at the same scan until the smaller limit is reached
    by_cases hfull : s.literals.length = m
    · obtain ⟨rest, rfl⟩ := scan_prefix h
      rw [loop_done (scanTurn_stop (by omega)), ← hfull, List.take_left]
    by_cases hpos : s.pos < data.length
    · have hlt : s.literals.length < m := Nat.lt_of_le_of_ne hm hfull
      rcases loop_ok_iff.mp h with hd | ⟨t, ht, hrun⟩
      · obtain ⟨_, _, _, -, hd⟩ := (scanTurn_eq_ok hpos (by omega)).mp hd
        cases hd
      obtain ⟨start, len, next, hseq, heq⟩ := (scanTurn_eq_ok hpos (by omega)).mp ht
      cases heq
      rw [loop_next ((scanTurn_eq_ok hpos hlt).mpr ⟨start, len, next, hseq, rfl⟩)]
      have htake := s.copied_literals_take data start len next hmn hm
      by_cases hmore : (s.copied data start len next n).literals.length ≤ m
      · have hsame : s.copied data start len next m = s.copied data start len next n := by
          rw [List.take_of_length_le hmore] at htake
          exact congrArg (Scan.mk next · (s.sequenceCount + 1)) htake
        rw [hsame]
        exact scan_take hmn hmore hrun
      · -- the copy reached the smaller limit, so its run has one turn left
        obtain ⟨rest, rfl⟩ := scan_prefix hrun
        have hlen : (s.copied data start len next m).literals.length = m := by
          rw [htake, List.length_take]
          omega
        cases k with
        | zero => cases hrun
        | succ k =>
          rw [loop_done (scanTurn_stop (by omega)), htake, List.take_append_of_le_length (by omega)]
    · have hstop : ∀ n, scanTurn data n s = .ok (.done s.literals) := fun n => scanTurn_stop fun hs => hpos hs.1
      rw [loop_done (hstop n)] at h
      cases h
      rw [loop_done (hstop m), List.take_of_length_le hm]

/-! ## What the literals are -/

/-- The literals so far, in the bytes the scan has passed. -/
structure Copied (data : Bytes) (n : Nat) (s : Scan) : Prop where
  sublist : s.literals.Sublist (data.take s.pos)
  length_le : s.literals.length ≤ n

theorem Copied.advance (h : Copied data n s) (hseq : SequenceAt data s start len next) :
    Copied data n (s.copied data start len next n) := by
  have hstart := hseq.start_gt
  have hnext := hseq.next_ge
  have hle := h.length_le
  refine ⟨?_, ?_⟩
  · have hsplit : data.take next = data.take start ++ (data.drop start).take (next - start) := by
      rw [← List.take_add, Nat.add_sub_cancel' (by omega)]
    have hbefore : s.literals.Sublist (data.take start) := h.sublist.trans (List.take_sublist_take_left (by omega))
    have hcopy : ((data.drop start).take (min len (n - s.literals.length))).Sublist
        ((data.drop start).take (next - start)) :=
      List.take_sublist_take_left (by omega)
    unfold Scan.copied
    dsimp only
    rw [hsplit]
    exact hbefore.append hcopy
  · unfold Scan.copied
    rw [List.length_append, List.length_take]
    omega

theorem scan_copied {k : Nat} {r : Bytes} (hs : Copied data n s) (h : loop (scanTurn data n) k s = .ok r) :
    r.Sublist data ∧ r.length ≤ n := by
  refine loop_inv (I := Copied data n) (Q := fun r => r.Sublist data ∧ r.length ≤ n) ?_ ?_ k s r hs h
  · intro s t hs ht
    by_cases hturn : s.pos < data.length ∧ s.literals.length < n
    · obtain ⟨start, len, next, hseq, heq⟩ := (scanTurn_eq_ok hturn.1 hturn.2).mp ht
      cases heq
      exact hs.advance hseq
    · rw [scanTurn_stop hturn] at ht
      cases ht
  · intro s r hs hr
    rw [scanTurn_done hr]
    exact ⟨hs.sublist.trans (List.take_sublist _ _), hs.length_le⟩

/-- **The output limit only cuts the literals off.** They are a subsequence of the block. -/
theorem extractLiterals_limited {x : Bytes} (hmn : m ≤ n) (h : extractLiterals data n = .ok x) :
    extractLiterals data m = .ok (x.take (min m x.length)) ∧ x.Sublist data ∧ x.length ≤ min data.length n := by
  have hcopied := scan_copied ⟨List.nil_sublist _, Nat.zero_le _⟩ h
  refine ⟨?_, hcopied.1, Nat.le_min.mpr ⟨hcopied.1.length_le, hcopied.2⟩⟩
  rw [← List.take_eq_take_min]
  exact scan_take hmn (Nat.zero_le _) h

end

theorem extractLiterals_limited_ab : extractLiterals [0x10, 0x61, 0x01, 0x00, 0x10, 0x62] 1 = .ok [0x61] :=
  have hfull : extractLiterals [0x10, 0x61, 0x01, 0x00, 0x10, 0x62] 2 = .ok [0x61, 0x62] := by decide
  (extractLiterals_limited (by decide) hfull).1

end Ziftsieve.Lz4
