import Ziftsieve.FseTiling
import Ziftsieve.FseWeights

/-!
# Writing weights for two decoders

The states that make two decoders of a table give a list of weights are chosen from
the last one back. The decoder before the last has to move once more, to behind the
end of the stream.
-/

namespace Ziftsieve.Zstd

/-! ## States -/

instance (e : Fse.Entry) (x : Nat) : Decidable (e.Leads x) := inferInstanceAs (Decidable (_ ∧ _))

section
variable (decode : List Fse.Entry)

def entryAt (x : Nat) : Fse.Entry := decode.getD x Fse.Entry.zero

/-- A state of the symbol before the others, one that leads to the next but one. -/
def stateBefore (a : Nat) (later : List Nat) : List Nat :=
  decode.findIdx (fun e => e.symbol = a ∧ e.Leads (later.getD 1 0)) :: later

/-- The states of the two decoders by turns. -/
def statesFor : List Nat → List Nat
  | [] => []
  | [a] => [decode.findIdx fun e => e.symbol = a]
  | [a, b] => [decode.findIdx fun e => e.symbol = a ∧ e.numBits ≠ 0, decode.findIdx fun e => e.symbol = b]
  | a :: b :: c :: ws => stateBefore decode a (statesFor (b :: c :: ws))

/-- A number, highest bit first. -/
def numberBits (n v : Nat) : List Bool := (bitsLe n v).reverse

def moveBits : List Nat → List Bool
  | x :: y :: z :: zs =>
    numberBits (entryAt decode x).numBits (z - (entryAt decode x).baseLine) ++ moveBits (y :: z :: zs)
  | _ => []

def statesBits (accuracyLog : Nat) (ws : List Nat) : List Bool :=
  numberBits accuracyLog ((statesFor decode ws).getD 0 0) ++
    (numberBits accuracyLog ((statesFor decode ws).getD 1 0) ++ moveBits decode (statesFor decode ws))

/-- The decoders that are in these states give these weights. -/
def Spells : List Nat → List Nat → Prop
  | [x, y], [a, b] => (entryAt decode x).symbol = a ∧ (entryAt decode x).numBits ≠ 0 ∧ (entryAt decode y).symbol = b
  | x :: y :: z :: zs, a :: ws => (entryAt decode x).symbol = a ∧ (entryAt decode x).Leads z ∧ Spells (y :: z :: zs) ws
  | _, _ => False

end

section
variable {decode : List Fse.Entry}

theorem findIdx_spec {p : Fse.Entry → Bool} (h : ∃ e ∈ decode, p e = true) :
    decode.findIdx p < decode.length ∧ p (entryAt decode (decode.findIdx p)) = true := by
  have hlt := List.findIdx_lt_length.mpr h
  refine ⟨hlt, ?_⟩
  rw [entryAt, List.getD_eq_getElem _ _ hlt]
  exact List.findIdx_getElem

/-- A symbol can be written: some cell of it leads to any state, and some cell of it reads bits. -/
structure Writable (decode : List Fse.Entry) (a : Nat) : Prop where
  leads : ∀ x < decode.length, ∃ e ∈ decode, e.symbol = a ∧ e.Leads x
  moves : ∃ e ∈ decode, e.symbol = a ∧ e.numBits ≠ 0

theorem statesFor_spells : ∀ {ws : List Nat}, 2 ≤ ws.length → (∀ a ∈ ws, Writable decode a) →
    Spells decode (statesFor decode ws) ws ∧ (∀ x ∈ statesFor decode ws, x < decode.length) ∧
      ∃ x y zs, statesFor decode ws = x :: y :: zs
  | [a, b], _, hws => by
    obtain ⟨hlt, hx⟩ := findIdx_spec (p := fun e => e.symbol = a ∧ e.numBits ≠ 0)
      ((hws a List.mem_cons_self).moves.imp fun e he => ⟨he.1, by simpa using he.2⟩)
    obtain ⟨hlt', hy⟩ := findIdx_spec (p := fun e => e.symbol = b)
      ((hws b (List.mem_cons_of_mem _ List.mem_cons_self)).moves.imp fun e he => ⟨he.1, by simpa using he.2.1⟩)
    simp only [decide_eq_true_eq] at hx hy
    refine ⟨⟨hx.1, hx.2, hy⟩, ?_, _, _, [], rfl⟩
    intro x hmem
    rw [statesFor, List.mem_cons, List.mem_singleton] at hmem
    rcases hmem with rfl | rfl
    · exact hlt
    · exact hlt'
  | a :: b :: c :: ws, _, hws => by
    obtain ⟨hspells, hall, x, y, zs, hstates⟩ := statesFor_spells (show 2 ≤ (b :: c :: ws).length by simp)
      fun d hd => hws d (List.mem_cons_of_mem _ hd)
    rw [hstates] at hspells hall
    obtain ⟨hlt, hx⟩ := findIdx_spec (p := fun e => e.symbol = a ∧ e.Leads y)
      (((hws a List.mem_cons_self).leads y (hall y (List.mem_cons_of_mem _ List.mem_cons_self))).imp
        fun e he => ⟨he.1, by simpa using he.2⟩)
    simp only [decide_eq_true_eq] at hx
    rw [statesFor, hstates, stateBefore]
    refine ⟨⟨hx.1, hx.2, hspells⟩, ?_, _, x, y :: zs, rfl⟩
    intro z hmem
    rcases List.mem_cons.mp hmem with rfl | hmem
    · exact hlt
    · exact hall z hmem

end

/-! ## The decoders -/

theorem window_number {bits rest : List Bool} {p n v : Nat} (h : At bits p (numberBits n v ++ rest)) (hv : v < 2 ^ n) :
    window bits p n = v := by
  have hlen : (numberBits n v).length = n := by rw [numberBits, List.length_reverse, length_bitsLe]
  have hwindow := window_at h
  rwa [hlen, numberBits, List.reverse_reverse, ofBits_bitsLe_of_lt hv] at hwindow

theorem skip_number {bits rest : List Bool} {p n v : Nat} (h : At bits p (numberBits n v ++ rest)) : At bits (p + n) rest := by
  have hskip := h.skip
  rwa [numberBits, List.length_reverse, length_bitsLe] at hskip

section
variable {t : Fse.FSETable} {bits : List Bool}

/-- Decoders in states that spell weights give them, and the last move but one ends the stream. -/
theorem Spells.run : ∀ {zs ws : List Nat} {x y k : Nat}, Spells t.decode (x :: y :: zs) ws →
    (Duo.after t bits k).next = entryAt t.decode x → (Duo.after t bits k).other = entryAt t.decode y →
    At bits (Duo.after t bits k).pos (moveBits t.decode (x :: y :: zs)) →
    (List.range' k ws.length).map (weightAt t bits) = ws ∧
      (∀ j, j + 1 < ws.length → (Duo.after t bits (k + j)).pos ≤ bits.length) ∧
      bits.length < (Duo.after t bits (k + (ws.length - 1))).pos
  | [], [a, b], x, y, k, ⟨hx, hmoves, hy⟩, hnext, hother, hat => by
    have hend : (Duo.after t bits k).pos = bits.length := hat.eq_end
    have hlast : weightAt t bits (k + 1) = b := by
      rw [← hy, ← hother]
      rfl
    have hpos := Duo.pos_succ t bits k
    refine ⟨?_, fun j hj => ?_, ?_⟩
    · rw [List.length_cons, List.length_singleton, List.range'_succ, List.range'_one, List.map_cons, List.map_singleton,
        hlast, weightAt, hnext, hx]
    · obtain rfl : j = 0 := by simp at hj; omega
      exact Nat.le_of_eq hend
    · show bits.length < (Duo.after t bits (k + 1)).pos
      rw [hpos, hend, hnext]
      omega
  | z :: zs, a :: ws, x, y, k, ⟨hx, hleads, hspells⟩, hnext, hother, hat => by
    have hlt : z - (entryAt t.decode x).baseLine < 2 ^ (entryAt t.decode x).numBits := by
      have := hleads.1
      have := hleads.2
      omega
    have hwindow := window_number hat hlt
    have hskip := skip_number hat
    rw [← hnext] at hwindow hskip
    have hstate : (Duo.after t bits k).next.baseLine + window bits (Duo.after t bits k).pos (Duo.after t bits k).next.numBits = z := by
      rw [hwindow, hnext]
      exact Nat.add_sub_cancel' hleads.1
    have hother' : (Duo.after t bits (k + 1)).other = entryAt t.decode z := congrArg (entryAt t.decode) hstate
    obtain ⟨hweights, hinside, hend⟩ := hspells.run (k := k + 1) hother hother' hskip
    have hpos : 0 < ws.length := by
      cases ws with
      | nil =>
        cases zs <;> exact hspells.elim
      | cons b ws => exact Nat.succ_pos _
    refine ⟨?_, fun j hj => ?_, ?_⟩
    · rw [List.length_cons, List.range'_succ, List.map_cons, hweights, weightAt, hnext, hx]
    · rw [List.length_cons] at hj
      cases j with
      | zero => exact Nat.le_trans (Nat.le_add_right _ _) hskip.le
      | succ j =>
        have h := hinside j (by omega)
        rwa [Nat.add_assoc, Nat.add_comm 1 j] at h
    · rw [List.length_cons, Nat.add_sub_cancel]
      rwa [Nat.add_assoc, Nat.add_sub_cancel' hpos] at hend

/-- **The weights that are written are given.** -/
theorem statesBits_gives (ht : t.Complete) {ws : List Nat} (hlen : 2 ≤ ws.length) (hws : ∀ a ∈ ws, Writable t.decode a)
    (hbits : bits = statesBits t.decode t.accuracyLog ws) : weightsUpTo t bits (ws.length - 1) = ws ∧
      (∀ j, j + 1 < ws.length → (Duo.after t bits j).pos ≤ bits.length) ∧
      bits.length < (Duo.after t bits (ws.length - 1)).pos := by
  obtain ⟨hspells, hall, x, y, zs, hstates⟩ := statesFor_spells hlen hws
  rw [hstates] at hspells hall
  have hat : At bits 0 (numberBits t.accuracyLog x ++ (numberBits t.accuracyLog y ++ moveBits t.decode (x :: y :: zs))) := by
    rw [hbits, statesBits, hstates]
    exact At.start _
  have hx : window bits 0 t.accuracyLog = x := window_number hat (ht.length ▸ hall x List.mem_cons_self)
  have hat' := skip_number hat
  rw [Nat.zero_add] at hat'
  have hy : window bits t.accuracyLog t.accuracyLog = y :=
    window_number hat' (ht.length ▸ hall y (List.mem_cons_of_mem _ List.mem_cons_self))
  have hnext : (Duo.after t bits 0).next = entryAt t.decode x := congrArg (entryAt t.decode) hx
  have hother : (Duo.after t bits 0).other = entryAt t.decode y := congrArg (entryAt t.decode) hy
  have hrun := hspells.run hnext hother (skip_number hat')
  simp only [Nat.zero_add] at hrun
  rw [weightsUpTo, Nat.sub_add_cancel (by omega), List.range_eq_range']
  exact hrun

end

end Ziftsieve.Zstd
