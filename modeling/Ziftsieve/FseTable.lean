import Ziftsieve.BitIoSafe
import Ziftsieve.Fse
import Ziftsieve.PrefixCode
import Ziftsieve.Slices
import Mathlib.Data.List.GetD
import Mathlib.Data.List.Nodup
import Mathlib.Data.List.Perm.Subperm
import Mathlib.Data.List.Range

/-!
# FSE decoding tables

Probabilities that add up to the size of a table fill it. The symbols less likely
than one cell take the last cells, from the end on; the others are spread over the
rest, which the stride comes to once each; and the cells of a symbol are numbered,
each with a slice of the states to go on to. That says which entry is in which cell,
with no table built.
-/

namespace Ziftsieve.Zstd

theorem highestBitSet_spec {x : Nat} (h : 0 < x) :
    0 < highestBitSet x ∧ 2 ^ (highestBitSet x - 1) ≤ x ∧ x < 2 ^ highestBitSet x := by
  unfold highestBitSet
  rw [if_neg (by omega), Nat.add_sub_cancel]
  exact ⟨Nat.succ_pos _, Nat.log2_self_le (by omega), Nat.lt_log2_self⟩

theorem highestBitSet_le {x n : Nat} (h : x < 2 ^ n) : highestBitSet x ≤ n := by
  rcases Nat.eq_zero_or_pos x with rfl | hpos
  · exact Nat.zero_le n
  · obtain ⟨-, hle, -⟩ := highestBitSet_spec hpos
    have := (Nat.pow_lt_pow_iff_right (by decide : 1 < 2)).mp (Nat.lt_of_le_of_lt hle h)
    omega

namespace Fse

/-- The cells a probability takes: -1 stands for less than one, and takes one. -/
def cells (p : Int) : Nat := if p = -1 then 1 else p.toNat

def totalCells (probs : List Int) : Nat := (probs.map cells).sum

/-- What the probabilities read for a table of a size are. -/
structure Distribution (probs : List Int) (size : Nat) : Prop where
  total : totalCells probs = size
  ge : ∀ p ∈ probs, -1 ≤ p

/-! ## The states of a symbol -/

/-- The states an entry leads to are cells of the table. -/
structure Entry.Fits (size accuracyLog : Nat) (e : Entry) : Prop where
  last : e.baseLine + 2 ^ e.numBits ≤ size
  numBits : e.numBits ≤ accuracyLog

/-- The state `x` is one an entry leads to. -/
def Entry.Leads (e : Entry) (x : Nat) : Prop := e.baseLine ≤ x ∧ x < e.baseLine + 2 ^ e.numBits

/-- The entry of a symbol with `p` cells in the cell of a rank. -/
def stateEntry (accuracyLog p rank symbol : Nat) : Entry where
  baseLine := sliceStart (2 ^ Nat.clog 2 p) p (2 ^ (accuracyLog - Nat.clog 2 p)) rank
  numBits := if rank < 2 ^ Nat.clog 2 p - p then accuracyLog - Nat.clog 2 p + 1 else accuracyLog - Nat.clog 2 p
  symbol := symbol

theorem highestBitSet_two_pow (j : Nat) : highestBitSet (2 ^ j) = j + 1 := by
  unfold highestBitSet
  rw [if_neg (Nat.ne_of_gt (Nat.two_pow_pos j)), Nat.log2_two_pow]

theorem slices_eq {p : Nat} (hpos : 0 < p) (hp : p ≤ 2 ^ 6) :
    (if 2 ^ (highestBitSet p - 1) = p then pure p else shlU 32 1 (highestBitSet p) : Opt Nat) =
      .ok (2 ^ Nat.clog 2 p) := by
  obtain ⟨hd, hlow, hhigh⟩ := highestBitSet_spec hpos
  have hd7 := highestBitSet_le (show p < 2 ^ 7 by omega)
  by_cases heq : 2 ^ (highestBitSet p - 1) = p
  · rw [if_pos heq]
    conv_rhs => rw [← heq, Nat.clog_pow 2 _ (by decide), heq]
    rfl
  · have hle := Nat.clog_le_of_le_pow (Nat.le_of_lt hhigh)
    have hlt := (Nat.lt_clog_iff_pow_lt (by decide)).mpr (Nat.lt_of_le_of_ne hlow heq)
    rw [if_neg heq, shlU_one (by omega), show Nat.clog 2 p = highestBitSet p by omega]

section
variable {p rank accuracyLog : Nat}

theorem clog_le (hp : p ≤ 2 ^ accuracyLog) : Nat.clog 2 p ≤ accuracyLog := Nat.clog_le_of_le_pow hp

theorem places (hp : p ≤ 2 ^ accuracyLog) :
    2 ^ Nat.clog 2 p * 2 ^ (accuracyLog - Nat.clog 2 p) = 2 ^ accuracyLog := by
  rw [← Nat.pow_add, Nat.add_sub_cancel' (clog_le hp)]

theorem two_pow_numBits (symbol : Nat) : 2 ^ (stateEntry accuracyLog p rank symbol).numBits =
    sliceWidth (2 ^ Nat.clog 2 p) p (2 ^ (accuracyLog - Nat.clog 2 p)) rank := by
  unfold stateEntry sliceWidth
  simp only
  split
  · rw [Nat.pow_succ']
  · rfl

theorem stateEntry_leads_iff (hrank : rank < p) (symbol x : Nat) :
    (stateEntry accuracyLog p rank symbol).Leads x ↔
      InSlice (2 ^ Nat.clog 2 p) p (2 ^ (accuracyLog - Nat.clog 2 p)) rank x := by
  unfold Entry.Leads
  rw [two_pow_numBits]
  exact ⟨fun h => ⟨hrank, h.1, h.2⟩, fun h => ⟨h.ge, h.lt_end⟩⟩

theorem stateEntry_fits (hp : p ≤ 2 ^ accuracyLog) (hrank : rank < p) (symbol : Nat) :
    (stateEntry accuracyLog p rank symbol).Fits (2 ^ accuracyLog) accuracyLog := by
  have hle := Nat.le_pow_clog (by decide : 1 < 2) p
  have htwice := two_pow_clog_le (show 0 < p by omega)
  have hclog := clog_le hp
  refine ⟨?_, ?_⟩
  · have hpos := Nat.two_pow_pos (stateEntry accuracyLog p rank symbol).numBits
    have hlast : (stateEntry accuracyLog p rank symbol).Leads ((stateEntry accuracyLog p rank symbol).baseLine +
        (2 ^ (stateEntry accuracyLog p rank symbol).numBits - 1)) := ⟨by omega, by omega⟩
    have hlt := ((stateEntry_leads_iff hrank symbol _).mp hlast).lt_total hle htwice
    rw [places hp] at hlt
    omega
  · have hsome : rank < 2 ^ Nat.clog 2 p - p → Nat.clog 2 p ≠ 0 := fun hr h0 => by
      rw [h0] at hr
      omega
    unfold stateEntry
    simp only
    split
    · have := hsome ‹_›
      omega
    · omega

/-- The states of a symbol's cells: the double slices first, then the single ones. -/
theorem calcBaselineAndNumbits_eq (hp : p ≤ 2 ^ accuracyLog) (hlog : accuracyLog ≤ 6) (hrank : rank < p) (symbol : Nat) :
    calcBaselineAndNumbits (2 ^ accuracyLog) p rank =
      .ok ((stateEntry accuracyLog p rank symbol).baseLine, (stateEntry accuracyLog p rank symbol).numBits) := by
  have hpos : 0 < p := Nat.lt_of_le_of_lt (Nat.zero_le _) hrank
  have hmax : 2 ^ accuracyLog ≤ 2 ^ 6 := Nat.pow_le_pow_right (by decide) hlog
  have hfits := (stateEntry_fits hp hrank symbol).last
  have hplaces := places hp
  have hclog := clog_le hp
  have hle := Nat.le_pow_clog (by decide : 1 < 2) p
  have htwice := two_pow_clog_le hpos
  have hslices := slices_eq hpos (Nat.le_trans hp hmax)
  have hd := (highestBitSet_spec hpos).1
  have hd7 := highestBitSet_le (show p < 2 ^ 7 by omega)
  have hsome := Nat.two_pow_pos (accuracyLog - Nat.clog 2 p)
  have hwidth : 2 ^ accuracyLog / 2 ^ Nat.clog 2 p = 2 ^ (accuracyLog - Nat.clog 2 p) := by
    rw [← hplaces, Nat.mul_div_cancel_left _ (Nat.two_pow_pos _)]
  have hnumBits : subU (accuracyLog - Nat.clog 2 p + 1) 1 = .ok (accuracyLog - Nat.clog 2 p) := by
    rw [subU_eq (Nat.le_add_left _ _), Nat.add_sub_cancel]
  unfold calcBaselineAndNumbits
  rw [if_neg (by omega), subU_eq hd, Run.ok_bind, shlU_one (by omega), Run.ok_bind, hslices, Run.ok_bind, subU_eq hle,
    Run.ok_bind, subU_eq (by omega), Run.ok_bind, if_neg (Nat.ne_of_gt (Nat.two_pow_pos _)), hwidth, Run.pure_eq,
    Run.ok_bind, highestBitSet_two_pow, hnumBits, Run.ok_bind,
    Nat.mod_eq_of_lt (by omega : accuracyLog - Nat.clog 2 p < 2 ^ 8)]
  unfold stateEntry sliceStart at hfits ⊢
  simp only at hfits ⊢
  by_cases hdouble : rank < 2 ^ Nat.clog 2 p - p
  · simp only [if_pos hdouble] at hfits ⊢
    rw [mulU_eq (by omega), Run.ok_bind, mulU_eq (by omega), Run.ok_bind, mulU_eq (by omega), Run.ok_bind,
      addU_eq (by omega), Run.ok_bind, addU_eq (by omega), Run.ok_bind]
    rfl
  · simp only [if_neg hdouble] at hfits ⊢
    rw [subU_eq (by omega), Run.ok_bind, mulU_eq (by omega), Run.ok_bind]
    rfl

end

/-! ## The last cells -/

def negatives (probs : List Int) : Nat := probs.countP (· = -1)

/-- The symbols less likely than one cell. -/
def lowSymbols (l : List (Int × Nat)) : List Nat := (l.filter fun q => q.1 = -1).map fun q => q.2 % 2 ^ 8

/-- Their cells, which lead to every state. -/
def lowCells (accuracyLog : Nat) (symbols : List Nat) : List Entry := symbols.reverse.map fun s => ⟨0, accuracyLog, s⟩

theorem drop_set_self {α : Type} {xs : List α} {i : Nat} (h : i < xs.length) (v : α) :
    (xs.set i v).drop i = v :: xs.drop (i + 1) := by
  rw [List.set_eq_take_append_cons_drop, if_pos h, List.drop_left' (List.length_take_of_le (Nat.le_of_lt h))]

/-- The symbols less likely than one cell take the last cells, from the end on. -/
theorem negatives_gives {accuracyLog : Nat} : ∀ {probs : List Int} {k i : Nat} {decode : List Entry}, negatives probs ≤ i →
    i ≤ decode.length → Gives ((probs.zipIdx k).foldlM (negativeTurn accuracyLog) (decode, i)) fun r =>
      r.1.length = decode.length ∧ r.2 = i - negatives probs ∧
        r.1.drop r.2 = lowCells accuracyLog (lowSymbols (probs.zipIdx k)) ++ decode.drop i
  | [], _, _, _, _, _ => Gives.ok ⟨rfl, rfl, rfl⟩
  | p :: probs, k, i, decode, hneg, hi => by
    rw [List.zipIdx_cons, List.foldlM_cons]
    unfold negatives at hneg ⊢
    unfold lowSymbols
    rw [List.countP_cons] at hneg ⊢
    rw [List.filter_cons]
    unfold negativeTurn
    by_cases hp : p = -1
    · simp only [hp, decide_true, if_true] at hneg ⊢
      rw [subU_eq (by omega), Run.ok_bind, setAt_eq (by omega), Run.ok_bind, Run.pure_eq, Run.ok_bind]
      refine (negatives_gives (by unfold negatives; omega) (by rw [List.length_set]; omega)).imp fun r hr => ?_
      obtain ⟨hlen, hidx, hdrop⟩ := hr
      refine ⟨by rw [hlen, List.length_set], by rw [hidx]; unfold negatives; omega, ?_⟩
      rw [hdrop, drop_set_self (by omega), Nat.sub_add_cancel (by omega)]
      unfold lowCells lowSymbols
      rw [List.map_cons, List.reverse_cons, List.map_append, List.append_assoc]
      rfl
    · simp only [hp, decide_false, Bool.false_eq_true, if_false, Nat.add_zero] at hneg ⊢
      exact negatives_gives hneg hi

/-! ## The spread -/

section
variable (size : Nat)

def stride : Nat := (size >>> 1) + (size >>> 3) + 3

/-- The cells in the order the spread comes to them. -/
def orbit (c : Nat) : Nat := stride size * c % size

/-- The cells below the ones with a symbol of their own, as far as the spread has come. -/
def visited (negativeIdx c : Nat) : List Nat := ((List.range c).map (orbit size)).filter (· < negativeIdx)

end

/-- The spread comes to every cell once before it is back at the first. -/
structure Cycles (size : Nat) : Prop where
  mask : ∃ n ≤ 6, size = 2 ^ n
  nodup : ((List.range size).map (orbit size)).Nodup

theorem cycles {accuracyLog : Nat} (h : accuracyLog = 5 ∨ accuracyLog = 6) : Cycles (2 ^ accuracyLog) := by
  rcases h with rfl | rfl
  · exact ⟨⟨5, by decide, rfl⟩, by decide⟩
  · exact ⟨⟨6, by decide, rfl⟩, by decide⟩

section
variable {size negativeIdx c : Nat}

theorem nextPosition_orbit (h : Cycles size) : nextPosition (orbit size c) size = .ok (orbit size (c + 1)) := by
  obtain ⟨⟨n, hn, rfl⟩, -⟩ := h
  have hsize : 2 ^ n ≤ 2 ^ 6 := Nat.pow_le_pow_right (by decide) hn
  have hcell : orbit (2 ^ n) c < 2 ^ n := Nat.mod_lt _ (Nat.two_pow_pos n)
  have hhalf : 2 ^ n >>> 1 ≤ 2 ^ n := Nat.shiftRight_le _ _
  have heighth : 2 ^ n >>> 3 ≤ 2 ^ n := Nat.shiftRight_le _ _
  unfold nextPosition
  rw [addU_eq (by omega), Run.ok_bind, addU_eq (by omega), Run.ok_bind, addU_eq (by omega), Run.ok_bind,
    subU_eq (Nat.two_pow_pos n), Run.ok_bind, Nat.and_two_pow_sub_one_eq_mod]
  unfold orbit stride
  rw [Nat.mod_add_mod, Nat.mul_add, Nat.mul_one]
  rfl

theorem orbit_size : orbit size size = 0 := Nat.mul_mod_left _ _

theorem orbit_zero : orbit size 0 = 0 := Nat.zero_mod _

theorem orbit_lt (h : Cycles size) : orbit size c < size := by
  obtain ⟨⟨n, -, rfl⟩, -⟩ := h
  exact Nat.mod_lt _ (Nat.two_pow_pos n)

theorem visited_succ_of_lt (h : orbit size c < negativeIdx) :
    visited size negativeIdx (c + 1) = visited size negativeIdx c ++ [orbit size c] := by
  unfold visited
  rw [List.range_succ, List.map_append, List.filter_append, List.map_singleton, List.filter_singleton]
  simp [h]

theorem visited_succ_of_ge (h : negativeIdx ≤ orbit size c) :
    visited size negativeIdx (c + 1) = visited size negativeIdx c := by
  unfold visited
  rw [List.range_succ, List.map_append, List.filter_append, List.map_singleton, List.filter_singleton]
  simp [Nat.not_lt.mpr h]

theorem visited_nodup (h : Cycles size) (hc : c ≤ size) : (visited size negativeIdx c).Nodup := by
  unfold visited
  refine List.Nodup.filter _ (h.nodup.sublist ?_)
  exact (List.range_sublist.mpr hc).map _

theorem orbit_not_mem_visited (h : Cycles size) (hc : c < size) (hlt : orbit size c < negativeIdx) :
    orbit size c ∉ visited size negativeIdx c := by
  have hnodup : (visited size negativeIdx (c + 1)).Nodup := visited_nodup h hc
  rw [visited_succ_of_lt hlt, List.nodup_append] at hnodup
  intro hmem
  exact hnodup.2.2 _ hmem _ (List.mem_singleton_self _) rfl

theorem visited_perm (h : Cycles size) (hneg : negativeIdx ≤ size) :
    (visited size negativeIdx size).Perm (List.range negativeIdx) := by
  have hall : ((List.range size).map (orbit size)).Perm (List.range size) := by
    refine (List.subperm_of_subset h.nodup ?_).perm_of_length_le (by simp)
    intro i hi
    obtain ⟨c, -, rfl⟩ := List.mem_map.mp hi
    exact List.mem_range.mpr (orbit_lt h)
  refine (List.perm_ext_iff_of_nodup (visited_nodup h (Nat.le_refl _)) List.nodup_range).mpr fun i => ?_
  unfold visited
  rw [List.mem_filter, hall.mem_iff, List.mem_range, List.mem_range, decide_eq_true_eq]
  omega

theorem visited_lt {i : Nat} (h : i ∈ visited size negativeIdx c) : i < negativeIdx :=
  of_decide_eq_true (List.mem_filter.mp h).2

theorem visited_mono {c' : Nat} (h : c ≤ c') : visited size negativeIdx c <+: visited size negativeIdx c' := by
  obtain ⟨k, rfl⟩ := Nat.exists_eq_add_of_le h
  unfold visited
  rw [List.range_add]
  exact ((List.prefix_append _ _).map _).filter _

/-- The cells below `negativeIdx` in the order of the spread, whose step is half the size, an eighth of it and three. -/
def spreadCells (size negativeIdx : Nat) : List Nat :=
  ((List.range size).map fun k => k * (size / 2 + size / 8 + 3) % size).filter (· < negativeIdx)

theorem visited_size : visited size negativeIdx size = spreadCells size negativeIdx := by
  unfold visited spreadCells orbit stride
  simp only [Nat.shiftRight_eq_div_pow, Nat.pow_one, Nat.reducePow, Nat.mul_comm]

/-- The skip ends, at the latest back at the first cell, and visits nothing. -/
theorem skip_gives (h : Cycles size) (hpos : 0 < negativeIdx) : ∀ {n c : Nat}, c ≤ size → size < n + c →
    Gives (loop (skipTurn size negativeIdx) n (orbit size c)) fun position => position < negativeIdx ∧
      ∃ c' ≤ size, position = orbit size c' ∧ visited size negativeIdx c' = visited size negativeIdx c
  | 0, c, hc, hn => absurd hn (by omega)
  | n + 1, c, hc, hn => by
    rw [loop]
    unfold skipTurn
    by_cases hge : orbit size c ≥ negativeIdx
    · rw [if_pos hge, nextPosition_orbit h, Run.ok_bind, Run.pure_eq, Run.ok_bind]
      have hlast : c ≠ size := by
        rintro rfl
        rw [orbit_size] at hge
        omega
      refine (skip_gives h hpos (by omega) (by omega)).imp fun position hr => ⟨hr.1, ?_⟩
      obtain ⟨c', hc', hposition, hvisited⟩ := hr.2
      exact ⟨c', hc', hposition, hvisited.trans (visited_succ_of_ge hge)⟩
    · rw [if_neg hge, Run.pure_eq, Run.ok_bind]
      exact Gives.ok ⟨Nat.lt_of_not_le hge, c, hc, rfl, rfl⟩

def symbolAt (decode : List Entry) (i : Nat) : Nat := (decode.getD i Entry.zero).symbol

/-- The cells visited have the symbols done, in order; the last cells are as they were. -/
structure Spread (size negativeIdx : Nat) (low : List Entry) (done : List Nat) (s : List Entry × Nat) : Prop where
  length : s.1.length = size
  low : s.1.drop negativeIdx = low
  cell : s.2 < negativeIdx
  place : ∃ c ≤ size, s.2 = orbit size c ∧ (visited size negativeIdx c).map (symbolAt s.1) = done

variable {low : List Entry} {done : List Nat} {s : List Entry × Nat}

theorem spreadOne_gives (h : Cycles size) (hneg : negativeIdx ≤ size) (hs : Spread size negativeIdx low done s)
    (hdone : done.length < negativeIdx) (symbol : Nat) :
    Gives (spreadOne size negativeIdx symbol s) (Spread size negativeIdx low (done ++ [symbol])) := by
  obtain ⟨decode, position⟩ := s
  obtain ⟨hlen, hlow, hcell, c, hc, rfl, hplace⟩ := hs
  simp only at hlen hlow hcell hplace
  have hlast : c ≠ size := by
    rintro rfl
    have hlength := congrArg List.length hplace
    rw [List.length_map, (visited_perm h hneg).length_eq, List.length_range] at hlength
    omega
  have hnew := orbit_not_mem_visited h (Nat.lt_of_le_of_ne hc hlast) hcell
  have hin : orbit size c < decode.length := by omega
  unfold spreadOne
  simp only
  rw [index_eq hin, Run.ok_bind, setAt_eq hin, Run.ok_bind, nextPosition_orbit h, Run.ok_bind]
  refine (skip_gives h (by omega) (by omega) (by omega)).bind fun position' hr => Gives.ok ?_
  obtain ⟨hcell', c', hc', hposition, hvisited⟩ := hr
  refine ⟨by simp [hlen], by rw [← hlow]; exact List.drop_set_of_lt hcell, hcell', c', hc', hposition, ?_⟩
  rw [hvisited, visited_succ_of_lt hcell, List.map_append, ← hplace]
  congr 1
  · refine List.map_congr_left fun i hi => ?_
    have hne : orbit size c ≠ i := fun he => hnew (he ▸ hi)
    simp [symbolAt, List.getD, List.getElem?_set_ne hne]
  · simp [symbolAt, List.getD, hin]

theorem spread_gives (h : Cycles size) (hneg : negativeIdx ≤ size) : ∀ {symbols done : List Nat} {s : List Entry × Nat},
    Spread size negativeIdx low done s → done.length + symbols.length ≤ negativeIdx →
    Gives (symbols.foldlM (fun s symbol => spreadOne size negativeIdx symbol s) s)
      (Spread size negativeIdx low (done ++ symbols))
  | [], done, s, hs, _ => Gives.ok (by rwa [List.append_nil])
  | symbol :: symbols, done, s, hs, hlen => by
    rw [List.length_cons] at hlen
    rw [List.foldlM_cons]
    refine (spreadOne_gives h hneg hs (by omega) symbol).bind fun t ht => ?_
    rw [List.append_cons]
    exact spread_gives h hneg ht (by rw [List.length_append, List.length_singleton]; omega)

/-- With every symbol placed, the spread has come to all cells that there are for them. -/
theorem Spread.whole (h : Cycles size) (hneg : negativeIdx ≤ size) (hs : Spread size negativeIdx low done s)
    (hdone : done.length = negativeIdx) : (visited size negativeIdx size).map (symbolAt s.1) = done := by
  obtain ⟨-, -, -, c, hc, -, hplace⟩ := hs
  have hlength : (visited size negativeIdx c).length = negativeIdx := by
    have hmap := congrArg List.length hplace
    rw [List.length_map] at hmap
    exact hmap.trans hdone
  have hall : (visited size negativeIdx size).length = negativeIdx := by
    rw [(visited_perm h hneg).length_eq, List.length_range]
  rw [← (visited_mono hc).eq_of_length (hlength.trans hall.symm)]
  exact hplace

end

/-! ## The symbols of the cells -/

/-- The symbols to spread, each as often as its probability says. -/
def symbolsOf (l : List (Int × Nat)) : List Nat := l.flatMap fun q => List.replicate q.1.toNat (q.2 % 2 ^ 8)

theorem foldlM_replicate {β γ : Type} (f : β → γ → Opt β) (c : γ) : ∀ (n : Nat) (b : β),
    (List.replicate n ()).foldlM (fun b _ => f b c) b = (List.replicate n c).foldlM f b
  | 0, _ => rfl
  | n + 1, b => by
    rw [List.replicate_succ, List.replicate_succ, List.foldlM_cons, List.foldlM_cons]
    exact congrArg _ (funext fun b' => foldlM_replicate f c n b')

theorem spreadFold_eq (tableSize negativeIdx : Nat) : ∀ (l : List (Int × Nat)) (s : List Entry × Nat),
    l.foldlM (spreadTurn tableSize negativeIdx) s =
      (symbolsOf l).foldlM (fun s symbol => spreadOne tableSize negativeIdx symbol s) s
  | [], _ => rfl
  | (p, idx) :: l, s => by
    have hturn : spreadTurn tableSize negativeIdx s (p, idx) =
        (List.replicate p.toNat (idx % 2 ^ 8)).foldlM (fun s symbol => spreadOne tableSize negativeIdx symbol s) s := by
      unfold spreadTurn
      by_cases hp : p ≤ 0
      · simp only [if_pos hp, Int.toNat_of_nonpos hp]
        rfl
      · simp only [if_neg hp]
        exact foldlM_replicate (fun s symbol => spreadOne tableSize negativeIdx symbol s) (idx % 2 ^ 8) p.toNat s
    unfold symbolsOf
    rw [List.foldlM_cons, List.flatMap_cons, List.foldlM_append, hturn]
    exact congrArg _ (funext fun t => spreadFold_eq tableSize negativeIdx l t)

theorem length_symbolsOf (probs : List Int) (k : Nat) :
    (symbolsOf (probs.zipIdx k)).length + negatives probs = totalCells probs := by
  induction probs generalizing k with
  | nil => rfl
  | cons p probs ih =>
    have ih := ih (k + 1)
    unfold symbolsOf negatives totalCells cells at *
    rw [List.zipIdx_cons, List.flatMap_cons, List.length_append, List.length_replicate, List.countP_cons, List.map_cons,
      List.sum_cons]
    by_cases hp : p = -1
    · simp only [hp, decide_true, if_true]
      simp only [Int.reduceNeg, Int.reduceToNat]
      omega
    · simp only [hp, decide_false, Bool.false_eq_true, if_false]
      omega

theorem mem_symbolsOf {probs : List Int} {symbol : Nat} (hlen : probs.length ≤ 256)
    (h : symbol ∈ symbolsOf probs.zipIdx) : symbol < probs.length := by
  unfold symbolsOf at h
  obtain ⟨⟨p, idx⟩, hq, hsymbol⟩ := List.mem_flatMap.mp h
  have hidx : idx < probs.length := by simpa using List.snd_lt_of_mem_zipIdx hq
  rw [(List.mem_replicate.mp hsymbol).2, Nat.mod_eq_of_lt (by omega)]
  exact hidx

theorem count_symbolsOf (symbol : Nat) : ∀ (probs : List Int) (k : Nat), k + probs.length ≤ 256 →
    (symbolsOf (probs.zipIdx k)).count symbol = if k ≤ symbol then (probs.getD (symbol - k) 0).toNat else 0
  | [], k, _ => by simp [symbolsOf]
  | p :: probs, k, hlen => by
    rw [List.length_cons] at hlen
    have ih := count_symbolsOf symbol probs (k + 1) (by omega)
    unfold symbolsOf at ih ⊢
    rw [List.zipIdx_cons, List.flatMap_cons, List.count_append, ih, List.count_replicate, Nat.mod_eq_of_lt (by omega)]
    rcases Nat.lt_trichotomy symbol k with hlt | rfl | hgt
    · rw [if_neg (by simp; omega), if_neg (by omega), if_neg (by omega)]
    · rw [if_pos (beq_self_eq_true _), if_neg (by omega), if_pos (Nat.le_refl _), Nat.sub_self]
      rfl
    · obtain ⟨j, rfl⟩ : ∃ j, symbol = k + 1 + j := ⟨symbol - (k + 1), by omega⟩
      have hj : k + 1 + j - k = j + 1 := by omega
      rw [if_neg (by simp; omega), if_pos (by omega), if_pos (by omega), Nat.add_sub_cancel_left, hj, Nat.zero_add]
      rfl

/-! ## The states of the cells -/

/-- The first `k` cells have their states, and the counters count their symbols. -/
structure Numbered (accuracyLog : Nat) (symbols : List Nat) (low : List Entry) (width k : Nat)
    (s : List Entry × List Nat) : Prop where
  length : s.1.length = 2 ^ accuracyLog
  symbol : ∀ (j a : Nat), symbols[j]? = some a → ∃ e : Entry, s.1[j]? = some e ∧ e.symbol = a
  counters : s.2.length = width
  counted : ∀ a < width, s.2[a]? = some ((symbols.take k).count a)
  state : ∀ j < k, ∀ a : Nat, symbols[j]? = some a →
    s.1[j]? = some (stateEntry accuracyLog (symbols.count a) ((symbols.take j).count a) a)
  low : s.1.drop symbols.length = low

section
variable {probs : List Int} {accuracyLog : Nat} {symbols : List Nat} {low : List Entry}

theorem numberTurn_gives (hlog : accuracyLog ≤ 6) (hsize : symbols.length ≤ 2 ^ accuracyLog)
    (hsymbol : ∀ a ∈ symbols, a < probs.length) (hcount : ∀ a, symbols.count a = (probs.getD a 0).toNat)
    {k : Nat} (hk : k < symbols.length) {s : List Entry × List Nat}
    (hs : Numbered accuracyLog symbols low probs.length k s) :
    Gives (numberTurn (2 ^ accuracyLog) accuracyLog probs s k) (Numbered accuracyLog symbols low probs.length (k + 1)) := by
  obtain ⟨decode, counters⟩ := s
  obtain ⟨hlen, hsymbols, hcounters, hcounted, hstate, hlow⟩ := hs
  simp only at hlen hsymbols hcounters hcounted hstate hlow
  have hmax : 2 ^ accuracyLog ≤ 2 ^ 6 := Nat.pow_le_pow_right (by decide) hlog
  have hin : k < decode.length := by omega
  obtain ⟨a, hget⟩ : ∃ a, symbols[k]? = some a := ⟨_, List.getElem?_eq_getElem hk⟩
  obtain ⟨e, he, hesymbol⟩ := hsymbols k a hget
  have hlt := hsymbol a (List.mem_of_getElem? hget)
  have hmore := count_take_lt hget
  have hfew : symbols.count a ≤ symbols.length := List.count_le_length
  have hprob := hcount a
  rw [List.getD_eq_getElem _ _ hlt] at hprob
  have hmod : (probs[a] % 2 ^ 32).toNat = symbols.count a := by
    rw [Int.emod_eq_of_lt (by omega) (by omega), hprob]
  have hfits := (stateEntry_fits (show symbols.count a ≤ 2 ^ accuracyLog by omega) hmore a).numBits
  unfold numberTurn
  simp only
  rw [index_eq_ok.mpr he, Run.ok_bind, hesymbol, index_eq hlt, Run.ok_bind, index_eq_ok.mpr (hcounted _ hlt), Run.ok_bind,
    hmod, Nat.mod_eq_of_lt (by omega : 2 ^ accuracyLog < 2 ^ 32),
    calcBaselineAndNumbits_eq (by omega) hlog hmore a, Run.ok_bind]
  simp only
  rw [failIf_false _ (by omega), Run.ok_bind, addU_eq (by omega), Run.ok_bind, setAt_eq (by omega), Run.ok_bind,
    setAt_eq hin, Run.ok_bind]
  have htake : symbols.take (k + 1) = symbols.take k ++ [a] := by
    rw [List.take_add_one, hget]
    rfl
  refine Gives.ok ⟨by rw [List.length_set, hlen], fun j b hj => ?_, by rw [List.length_set, hcounters], fun b hb => ?_,
    fun j hj b hb => ?_, by rw [← hlow]; exact List.drop_set_of_lt hk⟩
  · by_cases hkj : k = j
    · subst hkj
      obtain rfl := Option.some.inj (hget.symm.trans hj)
      exact ⟨_, List.getElem?_set_self hin, rfl⟩
    · rw [List.getElem?_set_ne hkj]
      exact hsymbols j b hj
  · rw [htake, List.count_append, List.count_singleton]
    by_cases hab : a = b
    · rw [← hab, List.getElem?_set_self (by omega), if_pos (beq_self_eq_true a)]
    · rw [List.getElem?_set_ne hab, hcounted b hb, if_neg (by simpa using hab), Nat.add_zero]
  · by_cases hkj : k = j
    · subst hkj
      obtain rfl := Option.some.inj (hget.symm.trans hb)
      rw [List.getElem?_set_self hin]
      rfl
    · rw [List.getElem?_set_ne hkj]
      exact hstate j (by omega) b hb

end

/-! ## The table -/

/-- The table of probabilities: the symbols spread, with their states, and then the low ones. -/
structure Laid (probs : List Int) (accuracyLog : Nat) (symbols : List Nat) (decode : List Entry) : Prop where
  spread : (spreadCells (2 ^ accuracyLog) symbols.length).map (symbols.getD · 0) = symbolsOf probs.zipIdx
  perm : symbols.Perm (symbolsOf probs.zipIdx)
  length : decode.length = 2 ^ accuracyLog
  state : ∀ (j a : Nat), symbols[j]? = some a →
    decode[j]? = some (stateEntry accuracyLog (symbols.count a) ((symbols.take j).count a) a)
  low : decode.drop symbols.length = lowCells accuracyLog (lowSymbols probs.zipIdx)

/-- **The decoding table** of probabilities that fill it. -/
theorem buildDecodingTable_gives {maxSymbol accuracyLog : Nat} {probs : List Int} (hlog : accuracyLog = 5 ∨ accuracyLog = 6)
    (hprobs : Distribution probs (2 ^ accuracyLog)) (hlen : probs.length ≤ maxSymbol + 1) (hmax : maxSymbol < 2 ^ 8) :
    Gives (buildDecodingTable maxSymbol accuracyLog probs) fun decode =>
      ∃ symbols, Laid probs accuracyLog symbols decode := by
  have hsize : 2 ^ accuracyLog ≤ 2 ^ 6 := Nat.pow_le_pow_right (by decide) (by omega)
  have hcells := length_symbolsOf probs 0
  rw [hprobs.total] at hcells
  have hcycle := cycles hlog
  unfold buildDecodingTable
  rw [failIf_false _ (by omega), Run.ok_bind, shlU_one (by omega), Run.ok_bind]
  refine (negatives_gives (by omega) (by simp)).bind fun r hr => ?_
  obtain ⟨decode, negativeIdx⟩ := r
  obtain ⟨hlength, hneg, hlow⟩ := hr
  simp only at hlength hneg hlow ⊢
  rw [List.length_replicate] at hlength
  rw [List.drop_of_length_le (l := List.replicate _ _) (by rw [List.length_replicate]), List.append_nil] at hlow
  have hsymbols : (symbolsOf probs.zipIdx).length = negativeIdx := by omega
  refine Gives.bind (Q := fun s => s.1.length = 2 ^ accuracyLog ∧
    s.1.drop negativeIdx = lowCells accuracyLog (lowSymbols probs.zipIdx) ∧
      (visited (2 ^ accuracyLog) negativeIdx (2 ^ accuracyLog)).map (symbolAt s.1) = symbolsOf probs.zipIdx) ?_ fun s hs => ?_
  · rw [spreadFold_eq]
    rcases Nat.eq_zero_or_pos negativeIdx with rfl | hpos
    · have hnone : visited (2 ^ accuracyLog) 0 (2 ^ accuracyLog) = [] := by simp [visited]
      rw [List.eq_nil_of_length_eq_zero hsymbols, hnone]
      exact Gives.ok ⟨hlength, hlow, rfl⟩
    · have hstart : Spread (2 ^ accuracyLog) negativeIdx (lowCells accuracyLog (lowSymbols probs.zipIdx)) [] (decode, 0) :=
        ⟨hlength, hlow, hpos, 0, Nat.zero_le _, orbit_zero.symm, rfl⟩
      refine (spread_gives hcycle (by omega) hstart (by simp; omega)).imp fun s hs => ?_
      exact ⟨hs.length, hs.low, hs.whole hcycle (by omega) hsymbols⟩
  · obtain ⟨decode, position⟩ := s
    obtain ⟨hlength, hlow, hspread⟩ := hs
    simp only at hlength hlow hspread
    have hperm : ((List.range negativeIdx).map (symbolAt decode)).Perm (symbolsOf probs.zipIdx) := by
      rw [← hspread]
      exact (visited_perm hcycle (by omega)).symm.map _
    obtain ⟨symbols, hall⟩ : ∃ symbols, (List.range negativeIdx).map (symbolAt decode) = symbols := ⟨_, rfl⟩
    have hwidth : symbols.length = negativeIdx := by rw [← hall, List.length_map, List.length_range]
    rw [hall] at hperm
    have hcells : (spreadCells (2 ^ accuracyLog) symbols.length).map (symbols.getD · 0) = symbolsOf probs.zipIdx := by
      rw [← hspread, hwidth, ← visited_size]
      refine List.map_congr_left fun i hi => ?_
      have hlt := visited_lt hi
      rw [← hall, List.getD_eq_getElem _ _ (by simpa using hlt)]
      simp
    refine Gives.bind (Q := Numbered accuracyLog symbols (lowCells accuracyLog (lowSymbols probs.zipIdx)) probs.length
      negativeIdx) ?_ fun s hs => ?_
    · refine Gives.foldlM_range (I := Numbered accuracyLog symbols _ probs.length) ?_ ?_
      · intro k hk s hs
        refine numberTurn_gives (by omega) (by omega) (fun a ha => ?_) (fun a => ?_) (by omega) hs
        · exact mem_symbolsOf (by omega) (hperm.mem_iff.mp ha)
        · rw [hperm.count_eq, count_symbolsOf a probs 0 (by omega), if_pos (Nat.zero_le a), Nat.sub_zero]
      · refine ⟨hlength, fun j a hj => ?_, by simp, fun a ha => ?_, fun j hj => absurd hj (Nat.not_lt_zero j),
          by rw [hwidth]; exact hlow⟩
        · have hlt : j < negativeIdx := hwidth ▸ (List.getElem?_eq_some_iff.mp hj).1
          rw [← hall, List.getElem?_map, List.getElem?_range hlt] at hj
          have hin : j < decode.length := by omega
          refine ⟨_, List.getElem?_eq_getElem hin, ?_⟩
          rw [← Option.some.inj hj, symbolAt, List.getD_eq_getElem _ _ hin]
        · rw [List.getElem?_replicate, if_pos ha]
          rfl
    · refine Gives.ok ⟨symbols, hcells, hperm, hs.length, fun j a hj => ?_, hs.low⟩
      exact hs.state j (hwidth ▸ (List.getElem?_eq_some_iff.mp hj).1) a hj

/-! ## The table in closed form -/

/-- The symbols of the cells: the `k`th that is spread is in the cell that the spread comes to as its `k`th. -/
def spreadSymbols (accuracyLog : Nat) (probs : List Int) : List Nat :=
  (List.range (2 ^ accuracyLog - negatives probs)).map fun i =>
    (symbolsOf probs.zipIdx).getD ((spreadCells (2 ^ accuracyLog) (2 ^ accuracyLog - negatives probs)).idxOf i) 0

/-- What a cell goes on to is said by how many of the cells have its symbol, and how many of those are before it. -/
def layout (accuracyLog : Nat) (probs : List Int) : List Entry :=
  let symbols := spreadSymbols accuracyLog probs
  ((List.range symbols.length).map fun j =>
    let symbol := symbols.getD j 0
    stateEntry accuracyLog (symbols.count symbol) ((symbols.take j).count symbol) symbol) ++
    lowCells accuracyLog (lowSymbols probs.zipIdx)

section
variable {probs : List Int} {accuracyLog : Nat} {symbols : List Nat} {decode : List Entry}

theorem Laid.length_eq (h : Laid probs accuracyLog symbols decode) (hprobs : Distribution probs (2 ^ accuracyLog)) :
    symbols.length = 2 ^ accuracyLog - negatives probs := by
  have hcells := length_symbolsOf probs 0
  rw [hprobs.total] at hcells
  rw [h.perm.length_eq]
  omega

theorem Laid.symbols_eq (h : Laid probs accuracyLog symbols decode) (hlog : accuracyLog = 5 ∨ accuracyLog = 6)
    (hprobs : Distribution probs (2 ^ accuracyLog)) : symbols = spreadSymbols accuracyLog probs := by
  have hwidth := h.length_eq hprobs
  unfold spreadSymbols
  rw [← h.spread, ← hwidth]
  refine List.ext_getElem (by simp) fun i hi _ => ?_
  have hmem : i ∈ spreadCells (2 ^ accuracyLog) symbols.length := by
    rw [← visited_size]
    exact (visited_perm (cycles hlog) (by omega)).mem_iff.mpr (List.mem_range.mpr hi)
  have hidx := List.idxOf_lt_length_of_mem hmem
  rw [List.getElem_map, List.getElem_range, List.getD_eq_getElem _ _ (by rw [List.length_map]; exact hidx),
    List.getElem_map, List.getElem_idxOf hidx, List.getD_eq_getElem _ _ hi]

/-- A table laid out is the one the format describes. -/
theorem Laid.eq_layout (h : Laid probs accuracyLog symbols decode) (hlog : accuracyLog = 5 ∨ accuracyLog = 6)
    (hprobs : Distribution probs (2 ^ accuracyLog)) : decode = layout accuracyLog probs := by
  have hwidth := h.length_eq hprobs
  have hlength := h.length
  unfold layout
  rw [← h.symbols_eq hlog hprobs]
  calc decode
      = decode.take symbols.length ++ decode.drop symbols.length := (List.take_append_drop _ _).symm
    _ = _ := by
        rw [h.low]
        congr 1
        refine List.ext_getElem (by simp; omega) fun j hj hj' => ?_
        rw [List.length_map, List.length_range] at hj'
        have hstate := h.state j _ (List.getElem?_eq_getElem hj')
        rw [List.getElem_take, List.getElem_map, List.getElem_range, List.getD_eq_getElem _ _ hj']
        exact (List.getElem?_eq_some_iff.mp hstate).2

end

end Fse

end Ziftsieve.Zstd
