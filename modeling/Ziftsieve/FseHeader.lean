import Ziftsieve.ForwardBits
import Ziftsieve.FseSafe

/-!
# The header of an FSE table

Which bit strings `readProbabilities` takes for a header. A value's code depends
on how much of the table is left, and the decoder reads one bit more than a short
code has.
-/

namespace Ziftsieve.Zstd.Fse

/-! ## Values -/

/-- How many of the values up to `m` have a short code. -/
def lowCount (m : Nat) : Nat := 2 ^ highestBitSet m - 1 - m

def valueBits (m v : Nat) : List Bool :=
  if v < lowCount m then bitsLe (highestBitSet m - 1) v
  else if v < 2 ^ (highestBitSet m - 1) then bitsLe (highestBitSet m) v
  else bitsLe (highestBitSet m) (v + lowCount m)

section
variable {source : Bytes} {p m v : Nat} {xs ys : List Bool}

/-- The bits of `m`, one of them the highest. -/
theorem bits_spec (hm : 2 ≤ m) : ∃ k, highestBitSet m = k + 2 ∧ 2 ^ (k + 1) ≤ m ∧ m < 2 * 2 ^ (k + 1) ∧
    lowCount m = 2 * 2 ^ (k + 1) - 1 - m := by
  obtain ⟨hpos, hle, hlt⟩ := highestBitSet_spec (by omega : 0 < m)
  have hone : 1 < highestBitSet m := by
    refine (Nat.pow_lt_pow_iff_right (by decide : 1 < 2)).mp ?_
    omega
  obtain ⟨k, hk⟩ : ∃ k, highestBitSet m = k + 2 := ⟨highestBitSet m - 2, by omega⟩
  rw [hk, show k + 2 - 1 = k + 1 from rfl] at hle
  rw [hk, Nat.pow_succ'] at hlt
  refine ⟨k, hk, hle, hlt, ?_⟩
  rw [lowCount, hk, Nat.pow_succ']

theorem length_valueBits (m v : Nat) : (valueBits m v).length =
    if v < lowCount m then highestBitSet m - 1 else highestBitSet m := by
  unfold valueBits
  split
  · rw [length_bitsLe]
  · split <;> rw [length_bitsLe]

/-- A code that the bits of `xs` begin with, if there are enough for a long one. -/
theorem exists_value (hm : 2 ≤ m) (hlen : highestBitSet m ≤ xs.length) : ∃ v ≤ m, ∃ ys, xs = valueBits m v ++ ys := by
  obtain ⟨k, hk, hle, hlt, hlow⟩ := bits_spec hm
  rw [hk] at hlen
  obtain ⟨u, hu⟩ : ∃ u, ofBits (xs.take (k + 2)) = u := ⟨_, rfl⟩
  have htake : (xs.take (k + 2)).length = k + 2 := by rw [List.length_take]; omega
  have hbits : bitsLe (k + 2) u = xs.take (k + 2) := by
    have h := bitsLe_ofBits (xs.take (k + 2))
    rwa [htake, hu] at h
  have hult : u < 2 * 2 ^ (k + 1) := by
    have h := ofBits_lt (xs.take (k + 2))
    rwa [htake, hu, Nat.pow_succ'] at h
  have hshort : bitsLe (k + 1) (u % 2 ^ (k + 1)) = xs.take (k + 1) := by
    rw [bitsLe_mod]
    have hcut := congrArg (List.take (k + 1)) hbits
    rwa [bitsLe_succ_right, List.take_left' (length_bitsLe _ _), List.take_take, Nat.min_eq_left (by omega)] at hcut
  by_cases hsmall : u % 2 ^ (k + 1) < lowCount m
  · have hmod := Nat.mod_lt u (Nat.two_pow_pos (k + 1))
    refine ⟨u % 2 ^ (k + 1), by omega, xs.drop (k + 1), ?_⟩
    rw [valueBits, if_pos hsmall, hk, show k + 2 - 1 = k + 1 from rfl, hshort, List.take_append_drop]
  by_cases hbig : u < 2 ^ (k + 1)
  · rw [Nat.mod_eq_of_lt hbig] at hsmall
    refine ⟨u, by omega, xs.drop (k + 2), ?_⟩
    rw [valueBits, if_neg hsmall, hk, show k + 2 - 1 = k + 1 from rfl, if_pos hbig, hbits, List.take_append_drop]
  · have hmod : u % 2 ^ (k + 1) = u - 2 ^ (k + 1) := by
      rw [Nat.mod_eq_sub_mod (by omega), Nat.mod_eq_of_lt (by omega)]
    refine ⟨u - lowCount m, by omega, xs.drop (k + 2), ?_⟩
    rw [valueBits, if_neg (by omega), hk, show k + 2 - 1 = k + 1 from rfl, if_neg (by omega),
      Nat.sub_add_cancel (by omega), hbits, List.take_append_drop]

theorem readValue_short (hshort : source.length * 8 < 2 ^ 64) (hat : At (bytesBits source) p xs)
    (hlen : xs.length < highestBitSet m) : readValue ⟨p, source⟩ m = fail () := by
  have hend := hat.length
  rw [length_bytesBits] at hend
  unfold readValue
  simp only
  rw [BitReader.getBits_none hshort (by omega) (.inr (by omega))]
  rfl

theorem ofBits_take_valueBits (hm : 2 ≤ m) (hv : v ≤ m) (hlen : highestBitSet m ≤ (valueBits m v ++ ys).length) :
    (v < lowCount m ∧ ofBits ((valueBits m v ++ ys).take (highestBitSet m)) % 2 ^ (highestBitSet m - 1) = v) ∨
    (lowCount m ≤ v ∧ v < 2 ^ (highestBitSet m - 1) ∧ ofBits ((valueBits m v ++ ys).take (highestBitSet m)) = v) ∨
    (lowCount m ≤ v ∧ 2 ^ (highestBitSet m - 1) ≤ v ∧
      ofBits ((valueBits m v ++ ys).take (highestBitSet m)) = v + lowCount m) := by
  obtain ⟨k, hk, hle, hlt, hlow⟩ := bits_spec hm
  rw [hk] at hlen ⊢
  rw [show k + 2 - 1 = k + 1 from rfl]
  have hpow : 2 ^ (k + 2) = 2 * 2 ^ (k + 1) := Nat.pow_succ'
  by_cases hsmall : v < lowCount m
  · refine .inl ⟨hsmall, ?_⟩
    rw [ofBits_mod (by rw [List.length_take]; omega), List.take_take, Nat.min_eq_left (by omega), valueBits,
      if_pos hsmall, hk, show k + 2 - 1 = k + 1 from rfl, List.take_left' (length_bitsLe _ _),
      ofBits_bitsLe_of_lt (by omega)]
  by_cases hbig : v < 2 ^ (k + 1)
  · refine .inr (.inl ⟨Nat.le_of_not_lt hsmall, hbig, ?_⟩)
    rw [valueBits, if_neg hsmall, hk, show k + 2 - 1 = k + 1 from rfl, if_pos hbig, List.take_left' (length_bitsLe _ _),
      ofBits_bitsLe_of_lt (by omega)]
  · refine .inr (.inr ⟨Nat.le_of_not_lt hsmall, Nat.le_of_not_lt hbig, ?_⟩)
    rw [valueBits, if_neg hsmall, hk, show k + 2 - 1 = k + 1 from rfl, if_neg hbig, List.take_left' (length_bitsLe _ _),
      ofBits_bitsLe_of_lt (by omega)]

/-- A value is read from its code, and a bit that is not of the code is given back. -/
theorem readValue_code (hshort : source.length * 8 < 2 ^ 64) (hm : 2 ≤ m) (hmax : m < 2 ^ 31) (hv : v ≤ m)
    (hat : At (bytesBits source) p (valueBits m v ++ ys)) (hlen : highestBitSet m ≤ (valueBits m v ++ ys).length) :
    readValue ⟨p, source⟩ m = .ok (v, ⟨p + (valueBits m v).length, source⟩) := by
  have hend := hat.length
  rw [length_bytesBits] at hend
  have hcases := ofBits_take_valueBits hm hv hlen
  have h31 := highestBitSet_le hmax
  obtain ⟨k, hk, hle, hlt, hlow⟩ := bits_spec hm
  rw [hk] at hlen hcases h31
  rw [show k + 2 - 1 = k + 1 from rfl] at hcases
  have hpow : 2 ^ (k + 2) = 2 * 2 ^ (k + 1) := Nat.pow_succ'
  have h32 : 2 ^ (k + 2) ≤ 2 ^ 32 := Nat.pow_le_pow_right (by decide) (by omega)
  have hult := ofBits_lt ((valueBits m v ++ ys).take (k + 2))
  rw [List.length_take, Nat.min_eq_left hlen] at hult
  unfold readValue
  simp only [hk]
  rw [BitReader.getBits_eq hshort (by omega) (by omega) (by omega), Run.ok_bind, hat.drop]
  simp only
  generalize ofBits ((valueBits m v ++ ys).take (k + 2)) = u at *
  rw [Nat.mod_eq_of_lt (by omega : u < 2 ^ 32), shlU_one (by omega), Run.ok_bind, subU_eq (Nat.two_pow_pos _), Run.ok_bind,
    subU_eq (by omega), Run.ok_bind, subU_eq (by omega), Run.ok_bind, show k + 2 - 1 = k + 1 from rfl, shlU_one (by omega),
    Run.ok_bind, subU_eq (Nat.two_pow_pos _), Run.ok_bind, Nat.and_two_pow_sub_one_eq_mod, hpow, ← hlow, length_valueBits,
    hk, show k + 2 - 1 = k + 1 from rfl]
  rcases hcases with ⟨hsmall, hu⟩ | ⟨hsmall, hbig, rfl⟩ | ⟨hsmall, hbig, rfl⟩
  · rw [hu, if_pos hsmall, if_pos hsmall, BitReader.returnBits, subU_eq (by simp only; omega)]
    rfl
  · rw [Nat.mod_eq_of_lt hbig, if_neg (by omega), if_neg (by omega), if_neg (by omega)]
    rfl
  · have hmod : (v + lowCount m) % 2 ^ (k + 1) = v + lowCount m - 2 ^ (k + 1) := by
      rw [Nat.mod_eq_sub_mod (by omega), Nat.mod_eq_of_lt (by omega)]
    rw [hmod, if_neg (by omega), if_pos (by omega), subU_eq (by omega), Run.ok_bind, if_neg (by omega),
      Nat.add_sub_cancel]
    rfl

end

/-! ## Shares -/

/-- More zeros after a zero, three at a time. -/
def zeroRunBits : Nat → List Bool
  | k + 3 => bitsLe 2 3 ++ zeroRunBits k
  | k => bitsLe 2 k

/-- What a symbol has of the table, or that a symbol and `more` after it have nothing. -/
inductive Share where
  | part (p : Int)
  | zeros (more : Nat)
  deriving DecidableEq

namespace Share

def probs : Share → List Int
  | part p => [p]
  | zeros more => 0 :: List.replicate more 0

def size (s : Share) : Nat := totalCells s.probs

def bits (rest : Nat) : Share → List Bool
  | part p => valueBits (rest + 1) (p + 1).toNat
  | zeros more => valueBits (rest + 1) 1 ++ zeroRunBits more

/-- There is as much left of the table. -/
def Fits (rest : Nat) : Share → Prop
  | part p => p ≠ 0 ∧ -1 ≤ p ∧ cells p ≤ rest
  | zeros _ => 0 < rest

end Share

def shareProbs (ss : List Share) : List Int := ss.flatMap Share.probs

def sharesBits : Nat → List Share → List Bool
  | _, [] => []
  | rest, s :: ss => s.bits rest ++ sharesBits (rest - s.size) ss

/-- The shares are of what is left, all of it. -/
def Fill : Nat → List Share → Prop
  | rest, [] => rest = 0
  | rest, s :: ss => s.Fits rest ∧ Fill (rest - s.size) ss

/-- The last code may be short, and then a bit more is read for it. -/
def EndsLow (ss : List Share) : Prop := ss.getLast? = some (.part (-1))

theorem shareProbs_cons (s : Share) (ss : List Share) : shareProbs (s :: ss) = s.probs ++ shareProbs ss := by
  rw [shareProbs, List.flatMap_cons, ← shareProbs]

section
variable {source : Bytes} {p : Nat} {xs ys : List Bool}

theorem zeroRunTurn_eq (hshort : source.length * 8 < 2 ^ 64) {k : Nat} (hk : k < 4)
    (hat : At (bytesBits source) p (bitsLe 2 k ++ ys)) (probs : List Int) :
    zeroRunTurn (⟨p, source⟩, probs) = .ok (if k ≠ 3 then .done (⟨p + 2, source⟩, probs ++ List.replicate k 0)
      else .next (⟨p + 2, source⟩, probs ++ List.replicate k 0)) := by
  have hend := hat.length
  rw [length_bytesBits, List.length_append, length_bitsLe] at hend
  unfold zeroRunTurn
  simp only
  rw [BitReader.getBits_eq hshort (by decide) (by decide) (by omega), Run.ok_bind, hat.drop,
    List.take_left' (length_bitsLe 2 k), ofBits_bitsLe_of_lt hk]
  rfl

theorem zeroRun_code (hshort : source.length * 8 < 2 ^ 64) : ∀ {fuel k p : Nat} {probs : List Int}, (zeroRunBits k).length < fuel →
    At (bytesBits source) p (zeroRunBits k ++ ys) → loop zeroRunTurn fuel (⟨p, source⟩, probs) =
      .ok (⟨p + (zeroRunBits k).length, source⟩, probs ++ List.replicate k 0)
  | 0, _, _, _, hfuel, _ => absurd hfuel (Nat.not_lt_zero _)
  | fuel + 1, k + 3, p, probs, hfuel, hat => by
    rw [zeroRunBits, List.append_assoc] at hat
    have hturn := zeroRunTurn_eq hshort (by decide) hat probs
    rw [if_neg (not_not_intro rfl)] at hturn
    have hnext := hat.skip
    rw [length_bitsLe] at hnext
    rw [zeroRunBits, List.length_append, length_bitsLe] at hfuel
    rw [loop_next hturn, zeroRun_code hshort (by omega) hnext, zeroRunBits, List.length_append, length_bitsLe,
      Nat.add_assoc, List.append_assoc, List.replicate_append_replicate, Nat.add_comm 3 k]
  | fuel + 1, 0, p, probs, _, hat => loop_done (zeroRunTurn_eq hshort (by decide) hat probs)
  | fuel + 1, 1, p, probs, _, hat => loop_done (zeroRunTurn_eq hshort (by decide) hat probs)
  | fuel + 1, 2, p, probs, _, hat => loop_done (zeroRunTurn_eq hshort (by decide) hat probs)

theorem zeroRun_inv (hshort : source.length * 8 < 2 ^ 64) : ∀ {fuel p : Nat} {xs : List Bool} {probs : List Int}
    {r : BitReader × List Int}, At (bytesBits source) p xs → loop zeroRunTurn fuel (⟨p, source⟩, probs) = .ok r →
    ∃ k ys, xs = zeroRunBits k ++ ys ∧ r = (⟨p + (zeroRunBits k).length, source⟩, probs ++ List.replicate k 0)
  | 0, _, _, _, _, _, h => by cases h
  | fuel + 1, p, xs, probs, r, hat, h => by
    have hend := hat.length
    rw [length_bytesBits] at hend
    by_cases hlen : xs.length < 2
    · have hfail : zeroRunTurn (⟨p, source⟩, probs) = fail () := by
        unfold zeroRunTurn
        simp only
        rw [BitReader.getBits_none hshort (by omega) (.inr (by omega))]
        rfl
      rw [loop_error hfail] at h
      cases h
    obtain ⟨k, hk⟩ : ∃ k, ofBits (xs.take 2) = k := ⟨_, rfl⟩
    have htake : (xs.take 2).length = 2 := by rw [List.length_take]; omega
    have hklt : k < 4 := by
      have hlt := ofBits_lt (xs.take 2)
      rwa [htake, hk] at hlt
    have hbits : bitsLe 2 k = xs.take 2 := by
      have hall := bitsLe_ofBits (xs.take 2)
      rwa [htake, hk] at hall
    have hxs : xs = bitsLe 2 k ++ xs.drop 2 := by rw [hbits, List.take_append_drop]
    rw [hxs] at hat
    have hturn := zeroRunTurn_eq hshort hklt hat probs
    by_cases h3 : k = 3
    · subst h3
      rw [if_neg (not_not_intro rfl)] at hturn
      have hnext := hat.skip
      rw [length_bitsLe] at hnext
      rw [loop_next hturn] at h
      obtain ⟨more, ys, hys, rfl⟩ := zeroRun_inv hshort hnext h
      refine ⟨more + 3, ys, ?_, ?_⟩
      · rw [hxs, hys, zeroRunBits, List.append_assoc]
      · rw [zeroRunBits, List.length_append, length_bitsLe, Nat.add_assoc, List.append_assoc,
          List.replicate_append_replicate, Nat.add_comm 3 more]
    · rw [if_pos h3] at hturn
      have hfew : zeroRunBits k = bitsLe 2 k := by
        obtain rfl | rfl | rfl : k = 0 ∨ k = 1 ∨ k = 2 := by omega
        · rfl
        · rfl
        · rfl
      rw [loop_done hturn] at h
      refine ⟨k, xs.drop 2, ?_, ?_⟩
      · rw [hfew]
        exact hxs
      · rw [hfew, length_bitsLe]
        exact (Except.ok.inj h).symm

/-! ## Turns -/

theorem Share.size_part (p : Int) : (Share.part p).size = cells p := by
  simp [Share.size, Share.probs, totalCells]

theorem Share.size_zeros (more : Nat) : (Share.zeros more).size = 0 := by
  rw [Share.size, Share.probs, ← List.replicate_succ, ← List.nil_append (List.replicate _ _), totalCells_zeros]
  rfl

theorem Share.Fits.pos {rest : Nat} : ∀ {s : Share}, s.Fits rest → 0 < rest
  | part p, ⟨hne, hge, hle⟩ => by
    unfold cells at hle
    split at hle <;> omega
  | zeros _, h => h

theorem Share.Fits.size_le {rest : Nat} : ∀ {s : Share}, s.Fits rest → s.size ≤ rest
  | part p, h => by
    rw [size_part]
    exact h.2.2
  | zeros more, _ => by
    rw [size_zeros]
    exact Nat.zero_le _

variable {fuel sum counter : Nat} {probs : List Int}

/-- A turn reads the code of a share, if the bits go on for as many as are read for it. -/
theorem probabilityTurn_share (hshort : source.length * 8 < 2 ^ 64) (hsum : sum ≤ 2 ^ 20) (hfuel : source.length * 8 < fuel)
    {s : Share} (hs : s.Fits (sum - counter)) (hat : At (bytesBits source) p (s.bits (sum - counter) ++ ys))
    (hlen : highestBitSet (sum - counter + 1) ≤ (s.bits (sum - counter) ++ ys).length) :
    probabilityTurn fuel sum ⟨⟨p, source⟩, probs, counter⟩ =
      .ok (.next ⟨⟨p + (s.bits (sum - counter)).length, source⟩, probs ++ s.probs, counter + s.size⟩) := by
  have hrest := hs.pos
  have hsize := hs.size_le
  unfold probabilityTurn
  simp only
  rw [if_pos (by omega), subU_eq (by omega), Run.ok_bind, addU_eq (by omega), Run.ok_bind]
  cases s with
  | part q =>
    obtain ⟨hne, hge, hle⟩ := hs
    rw [Share.size_part] at hsize ⊢
    have hv : (q + 1).toNat ≤ sum - counter + 1 := by
      unfold cells at hle
      split at hle <;> omega
    have hprob : ((q + 1).toNat : Int) - 1 = q := by omega
    rw [readValue_code hshort (by omega) (by omega) hv hat hlen, Run.ok_bind]
    simp only [hprob]
    rw [if_pos hne]
    by_cases hpos : q > 0
    · have hcells : cells q = q.toNat := if_neg (by omega)
      rw [if_pos hpos, addU_eq (by omega), hcells]
      rfl
    · have hone : q = -1 := by omega
      subst hone
      rw [if_neg hpos, if_pos rfl, addU_eq (by omega)]
      rfl
  | zeros more =>
    rw [Share.bits, List.append_assoc] at hat hlen
    have hnext := hat.skip
    have hend := hnext.length
    rw [length_bytesBits, List.length_append] at hend
    rw [readValue_code hshort (by omega) (by omega) (by omega) hat hlen, Run.ok_bind]
    simp only
    rw [if_neg (by decide), zeroRun_code hshort (by omega) hnext, Run.ok_bind, Share.size_zeros, Share.bits,
      List.length_append, Nat.add_assoc, List.append_assoc]
    rfl

theorem probabilityTurn_inv (hshort : source.length * 8 < 2 ^ 64) (hsum : sum ≤ 2 ^ 20) (hlt : counter < sum)
    (hat : At (bytesBits source) p xs) {turn : Turn Probabilities Probabilities}
    (h : probabilityTurn fuel sum ⟨⟨p, source⟩, probs, counter⟩ = .ok turn) : ∃ (s : Share) (ys : List Bool),
      s.Fits (sum - counter) ∧ xs = s.bits (sum - counter) ++ ys ∧ highestBitSet (sum - counter + 1) ≤ xs.length ∧
      turn = .next ⟨⟨p + (s.bits (sum - counter)).length, source⟩, probs ++ s.probs, counter + s.size⟩ := by
  unfold probabilityTurn at h
  simp only at h
  rw [if_pos hlt, subU_eq (by omega), Run.ok_bind, addU_eq (by omega), Run.ok_bind] at h
  by_cases hlen : xs.length < highestBitSet (sum - counter + 1)
  · rw [readValue_short hshort hat hlen] at h
    cases h
  obtain ⟨v, hv, ys, rfl⟩ := exists_value (by omega) (Nat.le_of_not_lt hlen)
  rw [readValue_code hshort (by omega) (by omega) hv hat (Nat.le_of_not_lt hlen), Run.ok_bind] at h
  simp only at h
  by_cases hzero : v = 1
  · subst hzero
    rw [if_neg (by decide)] at h
    obtain ⟨r, hloop, h⟩ := Run.bind_eq_ok.mp h
    obtain ⟨more, zs, rfl, rfl⟩ := zeroRun_inv hshort hat.skip hloop
    refine ⟨.zeros more, zs, Nat.sub_pos_of_lt hlt, (List.append_assoc _ _ _).symm, Nat.le_of_not_lt hlen, ?_⟩
    rw [Share.size_zeros, Share.bits, List.length_append, ← Nat.add_assoc]
    refine (Except.ok.inj h).symm.trans ?_
    simp only
    rw [List.append_assoc]
    rfl
  have hprob : ((v : Int) - 1 + 1).toNat = v := by omega
  have hcells : cells ((v : Int) - 1) ≤ sum - counter := by
    unfold cells
    split <;> omega
  refine ⟨.part ((v : Int) - 1), ys, ⟨by omega, by omega, hcells⟩, ?_, Nat.le_of_not_lt hlen, ?_⟩
  · rw [Share.bits, hprob]
  · rw [Share.size_part, Share.bits, hprob]
    rw [if_pos (by omega)] at h
    by_cases hpos : (v : Int) - 1 > 0
    · rw [if_pos hpos, addU_eq (by omega)] at h
      rw [cells, if_neg (by omega)]
      exact (Except.ok.inj h).symm
    · rw [if_neg hpos, if_pos (by omega), addU_eq (by omega)] at h
      rw [cells, if_pos (by omega)]
      exact (Except.ok.inj h).symm

/-! ## Headers -/

theorem pos_length_valueBits {m : Nat} (hm : 2 ≤ m) (v : Nat) : 0 < (valueBits m v).length := by
  obtain ⟨k, hk, -⟩ := bits_spec hm
  rw [length_valueBits, hk]
  split <;> omega

theorem two_le_length_zeroRunBits : ∀ k : Nat, 2 ≤ (zeroRunBits k).length
  | k + 3 => by
    rw [zeroRunBits, List.length_append, length_bitsLe]
    exact Nat.le_add_right _ _
  | 0 | 1 | 2 => Nat.le_refl _

theorem Share.Fits.pos_length {rest : Nat} : ∀ {s : Share}, s.Fits rest → 0 < (s.bits rest).length
  | part q, h => by
    have hrest := h.pos
    exact pos_length_valueBits (by omega) _
  | zeros more, h => by
    have hrest := h.pos
    rw [bits, List.length_append]
    exact Nat.add_pos_left (pos_length_valueBits (by omega) _) _

theorem Fill.length_le : ∀ {rest : Nat} {ss : List Share}, Fill rest ss → ss.length ≤ (sharesBits rest ss).length
  | _, [], _ => Nat.zero_le _
  | rest, s :: ss, ⟨hs, hss⟩ => by
    have hpos := hs.pos_length
    have hle := hss.length_le
    rw [sharesBits, List.length_append, List.length_cons]
    omega

/-- The bits go on for a long code, except after a low share that is the last. -/
theorem Fill.enough {rest : Nat} {s : Share} {ss : List Share} {after : List Bool} (h : Fill rest (s :: ss)) :
    highestBitSet (rest + 1) ≤ (sharesBits rest (s :: ss) ++ after).length ↔ (s :: ss = [.part (-1)] → after ≠ []) := by
  obtain ⟨hs, hss⟩ := h
  have hrest := hs.pos
  obtain ⟨k, hk, hle, hlt, hlow⟩ := bits_spec (show 2 ≤ rest + 1 by omega)
  rw [sharesBits, hk, List.length_append, List.length_append]
  cases s with
  | zeros more =>
    have htwo := two_le_length_zeroRunBits more
    rw [Share.bits, List.length_append, length_valueBits, hk]
    refine ⟨(fun _ h => by cases h), fun _ => ?_⟩
    split <;> omega
  | part q =>
    obtain ⟨hne, hge, hfit⟩ := hs
    rw [Share.size_part] at hss ⊢
    rw [Share.bits, length_valueBits, hk]
    cases ss with
    | cons t ts =>
      have hpos := hss.1.pos_length
      rw [sharesBits, List.length_append]
      refine ⟨(fun _ h => by simp at h), fun _ => ?_⟩
      split <;> omega
    | nil =>
      -- what is left is this share's
      have hall : rest - cells q = 0 := hss
      by_cases hone : q = -1
      · subst hone
        obtain rfl : rest = 1 := by
          have hcells : cells (-1) = 1 := rfl
          omega
        have hpow : k = 0 := by
          by_contra hk0
          have := Nat.pow_le_pow_right (by decide : 0 < 2) (show 2 ≤ k + 1 by omega)
          omega
        subst hpow
        rw [hlow, if_pos (by decide)]
        refine ⟨fun hlen _ hnil => ?_, fun hafter => ?_⟩
        · rw [hnil] at hlen
          simp [sharesBits] at hlen
        · have hpos := List.length_pos_iff.mpr (hafter rfl)
          simp only [sharesBits, List.length_nil]
          omega
      · have hcells : cells q = q.toNat := if_neg hone
        rw [if_neg (by omega)]
        refine ⟨fun _ h => ?_, fun _ => by omega⟩
        simp only [List.cons.injEq, Share.part.injEq, and_true] at h
        exact absurd h hone

theorem endsLow_cons {s : Share} {ss : List Share} {after : List Bool} :
    (EndsLow (s :: ss) → after ≠ []) ↔ (s :: ss = [.part (-1)] → after ≠ []) ∧ (EndsLow ss → after ≠ []) := by
  unfold EndsLow
  cases ss with
  | nil => simp
  | cons t ts => simp [List.getLast?_cons_cons]

theorem probabilityTurn_full (fuel sum : Nat) (br : BitReader) (probs : List Int) :
    probabilityTurn fuel sum ⟨br, probs, sum⟩ = .ok (.done ⟨br, probs, sum⟩) := by
  unfold probabilityTurn
  simp only
  rw [if_neg (Nat.lt_irrefl _)]
  rfl

/-- The shares are read one after the other. -/
theorem shares_run (hshort : source.length * 8 < 2 ^ 64) (hsum : sum ≤ 2 ^ 20) (hfuel : source.length * 8 < fuel)
    {after : List Bool} : ∀ {ss : List Share} {n p counter : Nat} {probs : List Int}, ss.length < n → counter ≤ sum →
    Fill (sum - counter) ss → (EndsLow ss → after ≠ []) →
    At (bytesBits source) p (sharesBits (sum - counter) ss ++ after) →
    loop (probabilityTurn fuel sum) n ⟨⟨p, source⟩, probs, counter⟩ =
      .ok ⟨⟨p + (sharesBits (sum - counter) ss).length, source⟩, probs ++ shareProbs ss, sum⟩
  | _, 0, _, _, _, hn, _, _, _, _ => absurd hn (Nat.not_lt_zero _)
  | [], n + 1, p, counter, probs, _, hle, hfill, _, _ => by
    have hdone : sum - counter = 0 := hfill
    obtain rfl : counter = sum := by omega
    rw [loop_done (probabilityTurn_full _ _ _ _), shareProbs, List.flatMap_nil, List.append_nil]
    rfl
  | s :: ss, n + 1, p, counter, probs, hn, hle, hfill, hends, hat => by
    rw [endsLow_cons] at hends
    have hlen := hfill.enough.mpr hends.1
    obtain ⟨hs, hss⟩ := hfill
    have hsize := hs.size_le
    rw [sharesBits, List.append_assoc] at hat hlen
    have hturn : probabilityTurn fuel sum ⟨⟨p, source⟩, probs, counter⟩ = _ :=
      probabilityTurn_share hshort hsum hfuel hs hat hlen
    have hnext := hat.skip
    rw [← Nat.sub_add_eq] at hss hnext
    rw [loop_next hturn, shares_run hshort hsum hfuel (Nat.lt_of_succ_lt_succ hn) (by omega) hss hends.2 hnext,
      sharesBits, shareProbs_cons, List.length_append, ← List.append_assoc, ← Nat.add_assoc,
      ← Nat.sub_add_eq]

theorem shares_inv (hshort : source.length * 8 < 2 ^ 64) (hsum : sum ≤ 2 ^ 20) : ∀ {n p counter : Nat} {xs : List Bool}
    {probs : List Int} {r : Probabilities}, counter ≤ sum → At (bytesBits source) p xs →
    loop (probabilityTurn fuel sum) n ⟨⟨p, source⟩, probs, counter⟩ = .ok r →
    ∃ (ss : List Share) (after : List Bool), Fill (sum - counter) ss ∧ (EndsLow ss → after ≠ []) ∧
      xs = sharesBits (sum - counter) ss ++ after ∧
      r = ⟨⟨p + (sharesBits (sum - counter) ss).length, source⟩, probs ++ shareProbs ss, sum⟩
  | 0, _, _, _, _, _, _, _, h => by cases h
  | n + 1, p, counter, xs, probs, r, hle, hat, h => by
    rcases Nat.lt_or_eq_of_le hle with hlt | rfl
    · rcases loop_ok_iff.mp h with hdone | ⟨t, hnext, hrest⟩
      · obtain ⟨_, _, -, -, -, hturn⟩ := probabilityTurn_inv hshort hsum hlt hat hdone
        cases hturn
      · obtain ⟨s, ys, hs, rfl, hlen, hturn⟩ := probabilityTurn_inv hshort hsum hlt hat hnext
        obtain rfl := Turn.next.inj hturn
        have hsize := hs.size_le
        obtain ⟨ss, after, hss, hends, rfl, rfl⟩ := shares_inv hshort hsum (by omega) hat.skip hrest
        rw [Nat.sub_add_eq] at hss hlen ⊢
        have hfill : Fill (sum - counter) (s :: ss) := ⟨hs, hss⟩
        rw [← List.append_assoc, ← sharesBits] at hlen ⊢
        refine ⟨s :: ss, after, hfill, endsLow_cons.mpr ⟨hfill.enough.mp hlen, hends⟩, rfl, ?_⟩
        rw [sharesBits, shareProbs_cons, List.length_append, ← List.append_assoc, ← Nat.add_assoc]
    · rw [loop_done (probabilityTurn_full _ _ _ _)] at h
      refine ⟨[], xs, Nat.sub_self _, (fun h => by cases h), rfl, ?_⟩
      rw [shareProbs, List.flatMap_nil, List.append_nil]
      exact (Except.ok.inj h).symm

end

/-- An accuracy log and the shares of the table's cells. -/
structure Header where
  accuracyLog : Nat
  shares : List Share

namespace Header

def bits (h : Header) : List Bool := bitsLe 4 (h.accuracyLog - accLogOffset) ++ sharesBits (2 ^ h.accuracyLog) h.shares

def probs (h : Header) : List Int := shareProbs h.shares

/-- The bytes that the bits reach into. -/
def size (h : Header) : Nat := (h.bits.length + 7) / 8

structure Legal (h : Header) (maxSymbol maxLog : Nat) : Prop where
  log : accLogOffset ≤ h.accuracyLog ∧ h.accuracyLog < accLogOffset + 2 ^ 4
  maxLog : h.accuracyLog ≤ maxLog
  fill : Fill (2 ^ h.accuracyLog) h.shares
  few : h.probs.length ≤ maxSymbol + 1

end Header

theorem roundUp (n : Nat) : (if n % 8 = 0 then n / 8 else n / 8 + 1) = (n + 7) / 8 := by
  split <;> omega

section
variable {maxSymbol maxLog : Nat} {source : Bytes}

theorem readProbabilities_header (hshort : source.length * 8 < 2 ^ 64) {h : Header} (hh : h.Legal maxSymbol maxLog)
    {after : List Bool} (hbits : bytesBits source = h.bits ++ after) (hends : EndsLow h.shares → after ≠ []) :
    readProbabilities maxSymbol source maxLog = .ok (h.accuracyLog, h.probs, h.size) := by
  obtain ⟨⟨hlow, hhigh⟩, hmax, hfill, hfew⟩ := hh
  have hat : At (bytesBits source) 0 (bitsLe 4 (h.accuracyLog - accLogOffset) ++
      (sharesBits (2 ^ h.accuracyLog) h.shares ++ after)) := by
    refine ⟨Nat.zero_le _, ?_⟩
    rw [List.drop_zero, hbits, Header.bits, List.append_assoc]
  have hnext := hat.skip
  rw [length_bitsLe] at hnext
  have hend := hat.length
  have hcount := hfill.length_le
  rw [length_bytesBits, List.length_append, List.length_append, length_bitsLe] at hend
  unfold accLogOffset at hlow hhigh hat
  have hlog : 2 ^ h.accuracyLog ≤ 2 ^ 20 := Nat.pow_le_pow_right (by decide) (by omega)
  have hrun : loop (probabilityTurn (source.length * 8 + 1) (2 ^ h.accuracyLog)) (source.length * 8 + 1)
      ⟨⟨0 + 4, source⟩, [], 0⟩ = _ :=
    shares_run hshort hlog (Nat.lt_succ_self _) (by omega) (Nat.zero_le _) hfill hends hnext
  unfold readProbabilities BitReader.new
  simp only
  rw [BitReader.getBits_eq hshort (by decide) (by decide) (by omega), Run.ok_bind, hat.drop,
    List.take_left' (length_bitsLe 4 _), ofBits_bitsLe_of_lt (by omega)]
  simp only
  rw [Nat.mod_eq_of_lt (by omega : h.accuracyLog - 5 < 2 ^ 8), accLogOffset, addU_eq (by omega), Run.ok_bind,
    Nat.add_sub_cancel' hlow, failIf_false _ (by omega), Run.ok_bind, failIf_false _ (by omega), Run.ok_bind,
    shlU_one (by omega), Run.ok_bind, hrun, Run.ok_bind, failIf_false _ (not_not_intro rfl), Run.ok_bind, failIf_false]
  · rw [Run.ok_bind, BitReader.bitsRead, roundUp, Header.size, Header.bits, List.length_append, length_bitsLe, Nat.sub_zero,
      Nat.zero_add]
    rfl
  · exact Nat.not_lt.mpr hfew

theorem header_of_read (hshort : source.length * 8 < 2 ^ 64) {r : Nat × List Int × Nat}
    (hr : readProbabilities maxSymbol source maxLog = .ok r) : ∃ (h : Header) (after : List Bool), h.Legal maxSymbol maxLog ∧
      bytesBits source = h.bits ++ after ∧ (EndsLow h.shares → after ≠ []) := by
  have hbits := length_bytesBits source
  unfold readProbabilities BitReader.new at hr
  simp only at hr
  by_cases hlen : 8 * source.length < 4
  · rw [BitReader.getBits_none hshort (Nat.zero_le _) (.inr (by omega))] at hr
    cases hr
  obtain ⟨v, hv⟩ : ∃ v, ofBits ((bytesBits source).take 4) = v := ⟨_, rfl⟩
  have htake : ((bytesBits source).take 4).length = 4 := by rw [List.length_take]; omega
  have hvlt : v < 2 ^ 4 := by
    have hlt := ofBits_lt ((bytesBits source).take 4)
    rwa [htake, hv] at hlt
  have hfour : bitsLe 4 v = (bytesBits source).take 4 := by
    have hall := bitsLe_ofBits ((bytesBits source).take 4)
    rwa [htake, hv] at hall
  rw [BitReader.getBits_eq hshort (by decide) (by decide) (by omega), Run.ok_bind, List.drop_zero, hv] at hr
  simp only at hr
  rw [Nat.mod_eq_of_lt (by omega : v < 2 ^ 8), accLogOffset, addU_eq (by omega), Run.ok_bind] at hr
  obtain ⟨_, hmax, hr⟩ := Run.bind_eq_ok.mp hr
  rw [failIf_eq_ok] at hmax
  rw [failIf_false _ (by omega), Run.ok_bind, shlU_one (by omega), Run.ok_bind] at hr
  obtain ⟨s, hloop, hr⟩ := Run.bind_eq_ok.mp hr
  obtain ⟨_, -, hr⟩ := Run.bind_eq_ok.mp hr
  obtain ⟨_, hfew, -⟩ := Run.bind_eq_ok.mp hr
  rw [failIf_eq_ok] at hfew
  have hat : At (bytesBits source) (0 + 4) ((bytesBits source).drop 4) := ⟨by omega, rfl⟩
  obtain ⟨ss, after, hfill, hends, hxs, rfl⟩ := shares_inv hshort (Nat.pow_le_pow_right (by decide) (by omega))
    (Nat.zero_le _) hat hloop
  rw [Nat.sub_zero] at hfill hxs
  refine ⟨⟨5 + v, ss⟩, after, ⟨⟨Nat.le_add_right _ _, Nat.add_lt_add_left hvlt _⟩, Nat.le_of_not_lt hmax, hfill,
    Nat.le_of_not_lt hfew⟩, ?_, hends⟩
  rw [Header.bits, accLogOffset, Nat.add_sub_cancel_left, hfour, List.append_assoc, ← hxs, List.take_append_drop]

end

/-! ## The shares of a distribution -/

def pushZero : List Share → List Share
  | .zeros more :: ss => .zeros (more + 1) :: ss
  | ss => .zeros 0 :: ss

def sharesOf : List Int → List Share
  | [] => []
  | p :: ps => if p = 0 then pushZero (sharesOf ps) else .part p :: sharesOf ps

theorem shareProbs_pushZero : ∀ ss : List Share, shareProbs (pushZero ss) = 0 :: shareProbs ss
  | [] => rfl
  | .part _ :: _ => rfl
  | .zeros more :: ss => by
    rw [pushZero, shareProbs_cons, shareProbs_cons, Share.probs, Share.probs, List.replicate_succ]
    rfl

theorem shareProbs_sharesOf : ∀ ps : List Int, shareProbs (sharesOf ps) = ps
  | [] => rfl
  | p :: ps => by
    unfold sharesOf
    split
    · rename_i hzero
      rw [shareProbs_pushZero, shareProbs_sharesOf ps, hzero]
    · rw [shareProbs_cons, shareProbs_sharesOf ps]
      rfl

theorem Fill.pushZero {rest : Nat} (hpos : 0 < rest) : ∀ {ss : List Share}, Fill rest ss → Fill rest (pushZero ss)
  | [], h => ⟨hpos, h⟩
  | .part _ :: _, h => ⟨hpos, h⟩
  | .zeros more :: ss, ⟨_, hss⟩ => by
    rw [Share.size_zeros] at hss
    refine ⟨hpos, ?_⟩
    rwa [Share.size_zeros]

theorem Distribution.fill : ∀ {ps : List Int} {rest : Nat}, Distribution ps rest → ps.getLast? ≠ some 0 →
    Fill rest (sharesOf ps)
  | [], rest, ⟨htotal, _⟩, _ => htotal.symm
  | p :: ps, rest, ⟨htotal, hge⟩, hlast => by
    have hge' : ∀ q ∈ ps, -1 ≤ q := fun q hq => hge q (List.mem_cons_of_mem _ hq)
    have hsum : cells p + totalCells ps = rest := htotal
    unfold sharesOf
    split
    · rename_i hzero
      subst hzero
      obtain ⟨q, qs, rfl⟩ : ∃ q qs, ps = q :: qs := List.exists_cons_of_ne_nil fun hnil => hlast (by rw [hnil]; rfl)
      rw [List.getLast?_cons_cons] at hlast
      have hrest : Distribution (q :: qs) rest := ⟨by rw [← hsum, show cells 0 = 0 from rfl, Nat.zero_add], hge'⟩
      have hfill := hrest.fill hlast
      refine hfill.pushZero ?_
      -- a share comes after the zero
      by_contra hnone
      obtain rfl : rest = 0 := by omega
      have hshares : sharesOf (q :: qs) ≠ [] := fun hnil => by
        have hprobs := shareProbs_sharesOf (q :: qs)
        rw [hnil] at hprobs
        cases hprobs
      obtain ⟨s, ss, hss⟩ := List.exists_cons_of_ne_nil hshares
      rw [hss] at hfill
      exact absurd hfill.1.pos (Nat.lt_irrefl 0)
    · rename_i hne
      have hlast' : ps.getLast? ≠ some 0 := by
        cases ps with
        | nil => simp
        | cons q qs => rwa [List.getLast?_cons_cons] at hlast
      have hrest : rest - (Share.part p).size = totalCells ps := by
        rw [Share.size_part]
        omega
      refine ⟨⟨hne, hge p List.mem_cons_self, by omega⟩, ?_⟩
      rw [hrest]
      exact Distribution.fill ⟨rfl, hge'⟩ hlast'

section
variable {source : Bytes}

/-- **The headers that are read.** What is read is the accuracy log, the probabilities and
the size of a header, every header is read, and every distribution that does not end in a
zero has one. -/
theorem readProbabilities_reads_iff (maxSymbol maxLog : Nat) (hshort : source.length * 8 < 2 ^ 64) (r : Nat × List Int × Nat) :
    (readProbabilities maxSymbol source maxLog = .ok r ↔ ∃ (h : Header) (after : List Bool), h.Legal maxSymbol maxLog ∧
      bytesBits source = h.bits ++ after ∧ (EndsLow h.shares → after ≠ []) ∧ r = (h.accuracyLog, h.probs, h.size)) ∧
    ∀ (accuracyLog : Nat) (ps : List Int), 5 ≤ accuracyLog → accuracyLog ≤ 20 → accuracyLog ≤ maxLog →
      Distribution ps (2 ^ accuracyLog) → ps.getLast? ≠ some 0 → ps.length ≤ maxSymbol + 1 →
      (⟨accuracyLog, sharesOf ps⟩ : Header).Legal maxSymbol maxLog ∧ (⟨accuracyLog, sharesOf ps⟩ : Header).probs = ps := by
  refine ⟨⟨fun hr => ?_, ?_⟩, fun accuracyLog ps hlow hhigh hmax hps hlast hfew => ?_⟩
  · obtain ⟨h, after, hh, hbits, hends⟩ := header_of_read hshort hr
    refine ⟨h, after, hh, hbits, hends, ?_⟩
    exact Except.ok.inj (hr.symm.trans (readProbabilities_header hshort hh hbits hends))
  · rintro ⟨h, after, hh, hbits, hends, rfl⟩
    exact readProbabilities_header hshort hh hbits hends
  · have hprobs : (⟨accuracyLog, sharesOf ps⟩ : Header).probs = ps := shareProbs_sharesOf ps
    exact ⟨⟨⟨hlow, Nat.lt_succ_of_le hhigh⟩, hmax, hps.fill hlast, hprobs.symm ▸ hfew⟩, hprobs⟩

end

/-- Symbols of 15, of 16 and of less than one cell. -/
theorem readProbabilities_reads_iff_three :
    (readProbabilities 255 [0, 61] 6 = .ok (5, [15, 16, -1], 2) ↔ ∃ (h : Header) (after : List Bool), h.Legal 255 6 ∧
      bytesBits [0, 61] = h.bits ++ after ∧ (EndsLow h.shares → after ≠ []) ∧
      (5, [15, 16, -1], 2) = (h.accuracyLog, h.probs, h.size)) ∧
    ∀ (accuracyLog : Nat) (ps : List Int), 5 ≤ accuracyLog → accuracyLog ≤ 20 → accuracyLog ≤ 6 →
      Distribution ps (2 ^ accuracyLog) → ps.getLast? ≠ some 0 → ps.length ≤ 255 + 1 →
      (⟨accuracyLog, sharesOf ps⟩ : Header).Legal 255 6 ∧ (⟨accuracyLog, sharesOf ps⟩ : Header).probs = ps :=
  readProbabilities_reads_iff 255 6 (by decide) _

end Ziftsieve.Zstd.Fse
