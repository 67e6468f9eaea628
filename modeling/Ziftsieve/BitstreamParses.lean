import Ziftsieve.BitstreamRefines
import Ziftsieve.Parses

/-!
# What the bit reader has read

A read that succeeds gives the bits it has come past: the converse of the rules
that say what a read of given bits yields.
-/

namespace Ziftsieve.Gzip

def bitView (data : Bytes) : InputView BitReader Bool where
  input := bytesBits data
  stands := Synced data
  le h := by
    rw [length_bytesBits]
    exact h.le

section
variable {data : Bytes} {p : Nat} {α : Type}

theorem Parses.failHere {Q : α → List Bool → Prop} (reason : String) :
    Parses (bitView data) p (failHere reason : Read α) Q := by
  intro r a t _ hrun
  cases hrun

theorem Parses.lift {x : Run ZiftError α} : Parses (bitView data) p (lift x) fun a w => x = .ok a ∧ w = [] := by
  intro r a t hr hrun
  cases hrun
  exact ⟨[], _, ⟨(bitView data).le hr, rfl⟩, hr, rfl, rfl⟩

theorem Parses.withReader {f : BitReader → Read α} {Q : α → List Bool → Prop}
    (h : ∀ r, Synced data p r → Parses (bitView data) p (f r) Q) : Parses (bitView data) p (withReader f) Q :=
  fun r a t hr hrun => h r hr r a t hr hrun

/-- The bits a call looks at. -/
def ReadOp.window (data : Bytes) (p : Nat) (op : ReadOp) : List Bool := ((bytesBits data).drop p).take (op.width p)

theorem ReadOp.next_eq {op : ReadOp} (h : op ≠ .peekU8) : op.next p = p + op.width p := by
  cases op with
  | peekU8 => exact absurd rfl h
  | _ => rfl

/-- A call of the reader that succeeds fits, shows the bits it looks at, and is past them or still before them. -/
theorem ReadOp.parses (op : ReadOp) : Parses (bitView data) p op.call fun v w =>
    (op.wholeBytes → p % 8 = 0) ∧ v.Shows (op.window data p) ∧ (op.window data p).length = op.width p ∧
      w = (op.window data p).take (op.next p - p) := by
  intro r v t hr hrun
  obtain ⟨hanswer, hnext⟩ := op.call_ideal hr
  unfold ReadOp.ideal at hanswer hnext
  rw [hrun] at hanswer hnext
  by_cases hfits : op.Fits (bytesBits data) p
  · rw [if_pos hfits] at hanswer hnext
    obtain ⟨halign, hle⟩ := ReadOp.fits_iff.mp hfits
    have hlen := length_window hle
    have hstay : ∃ w rest, At (bytesBits data) p (w ++ rest) ∧ Synced data (p + w.length) t ∧
        w = (op.window data p).take (op.next p - p) := by
      by_cases hop : op = .peekU8
      · rw [hop] at hnext ⊢
        refine ⟨[], _, ⟨(bitView data).le hr, rfl⟩, hnext, ?_⟩
        rw [show ReadOp.next p .peekU8 = p from rfl, Nat.sub_self, List.take_zero]
      · rw [ReadOp.next_eq hop] at hnext ⊢
        refine ⟨_, _, at_window hle, by rw [hlen]; exact hnext, ?_⟩
        rw [Nat.add_sub_cancel_left, ReadOp.window, List.take_take, Nat.min_self]
    obtain ⟨w, rest, hat, ht, hw⟩ := hstay
    exact ⟨w, rest, hat, ht, halign, hanswer, hlen, hw⟩
  · rw [if_neg hfits] at hanswer
    exact hanswer.elim

/-- Every call but a peek goes past what it shows. -/
theorem ReadOp.parses_past (op : ReadOp) (hop : op ≠ .peekU8) : Parses (bitView data) p op.call fun v w =>
    (op.wholeBytes → p % 8 = 0) ∧ v.Shows w ∧ w.length = op.width p ∧ w = op.window data p := by
  refine op.parses.imp ?_
  rintro v w ⟨halign, hv, hlen, hw⟩
  rw [ReadOp.next_eq hop, Nat.add_sub_cancel_left, ← hlen, List.take_length] at hw
  rw [hw]
  exact ⟨halign, hv, hlen, rfl⟩

theorem eq_bitsLe {w : List Bool} {v n : Nat} (hlen : w.length = n) (hv : v = ofBits w) : w = bitsLe n v ∧ v < 2 ^ n := by
  rw [hv, ← hlen]
  exact ⟨(bitsLe_ofBits w).symm, ofBits_lt w⟩

theorem readBits_parses (n : Nat) : Parses (bitView data) p (readBits n) fun v w => w = bitsLe n v ∧ v < 2 ^ n := by
  by_cases hn : n ≤ 32
  · refine (Parses.of_map (ReadOp.parses_past (.readBits ⟨n, Nat.lt_succ_of_le hn⟩) nofun)).imp ?_
    rintro v w ⟨-, hv, hlen, -⟩
    exact eq_bitsLe hlen hv
  · intro r a t _ hrun
    unfold readBits at hrun
    rw [if_neg (by omega), if_pos (by omega)] at hrun
    cases hrun

theorem readBitsU8_parses (n : Nat) : Parses (bitView data) p (readBitsU8 n) fun v w => w = bitsLe n v ∧ v < 2 ^ n := by
  refine (readBits_parses n).bind fun v w hv => Parses.ite (fun _ => Parses.failHere _) fun _ => Parses.pure ?_
  rw [List.append_nil]
  exact hv

theorem readBit_parses : Parses (bitView data) p readBit fun v w => w = [decide (v = 1)] ∧ v < 2 := by
  refine (readBitsU8_parses 1).imp ?_
  rintro v w ⟨rfl, hv⟩
  have h2 : v = 0 ∨ v = 1 := by omega
  rcases h2 with rfl | rfl <;> exact ⟨rfl, by decide⟩

theorem alignToByte_parses : Parses (bitView data) p alignToByte fun _ w => w.length = padTo8 p := by
  refine (Parses.of_map (ReadOp.parses_past .alignToByte nofun)).imp ?_
  rintro v w ⟨-, -, hlen, -⟩
  exact hlen

theorem readU8_parses : Parses (bitView data) p readU8 fun v w =>
    p % 8 = 0 ∧ w = bitsLe 8 v ∧ v < 2 ^ 8 ∧ w = ((bytesBits data).drop p).take 8 := by
  refine (Parses.of_map (ReadOp.parses_past .readU8 nofun)).imp ?_
  rintro v w ⟨halign, hv, hlen, hw⟩
  obtain ⟨hbits, hlt⟩ := eq_bitsLe hlen hv
  exact ⟨halign rfl, hbits, hlt, hw⟩

theorem peekU8_parses : Parses (bitView data) p peekU8 fun v w =>
    w = [] ∧ bitsLe 8 v = ((bytesBits data).drop p).take 8 ∧ v < 2 ^ 8 := by
  refine (Parses.of_map (ReadOp.parses .peekU8)).imp ?_
  rintro v w ⟨-, hv, hlen, hw⟩
  obtain ⟨hbits, hlt⟩ := eq_bitsLe hlen hv
  rw [show ReadOp.next p .peekU8 = p from rfl, Nat.sub_self, List.take_zero] at hw
  exact ⟨hw, hbits.symm, hlt⟩

theorem readU16Le_parses : Parses (bitView data) p readU16Le fun v w =>
    p % 8 = 0 ∧ w = bitsLe 16 v ∧ v < 2 ^ 16 := by
  refine (Parses.of_map (ReadOp.parses_past .readU16Le nofun)).imp ?_
  rintro v w ⟨halign, hv, hlen, -⟩
  exact ⟨halign rfl, eq_bitsLe hlen hv⟩

theorem readU32Le_parses : Parses (bitView data) p readU32Le fun v w =>
    p % 8 = 0 ∧ w = bitsLe 32 v ∧ v < 2 ^ 32 := by
  refine (Parses.of_map (ReadOp.parses_past .readU32Le nofun)).imp ?_
  rintro v w ⟨halign, hv, hlen, -⟩
  exact ⟨halign rfl, eq_bitsLe hlen hv⟩

theorem readBytes_parses (count : Nat) : Parses (bitView data) p (readBytes count) fun bs w =>
    p % 8 = 0 ∧ w = bytesBits bs ∧ bs.length = count := by
  refine (Parses.of_map (ReadOp.parses_past (.readBytes count) nofun)).imp ?_
  rintro bs w ⟨halign, hv, hlen, -⟩
  have hbits : bytesBits bs = w := hv
  rw [← hbits, length_bytesBits] at hlen
  exact ⟨halign rfl, hbits.symm, Nat.eq_of_mul_eq_mul_left (by decide) hlen⟩

/-! ## Both directions -/

theorem Recognizes.lift (x : Run ZiftError α) :
    Recognizes (bitView data) p (Gzip.lift x) fun a w => x = .ok a ∧ w = [] where
  parses := Parses.lift
  yields := by
    rintro a w rest ⟨hx, rfl⟩ _
    exact yields_lift hx

theorem Recognizes.failHere (reason : String) :
    Recognizes (bitView data) p (Gzip.failHere reason : Read α) fun _ _ => False where
  parses := Parses.failHere reason
  yields h := h.elim

theorem Recognizes.withReader {f : BitReader → Read α} {Q : α → List Bool → Prop}
    (h : ∀ r, Synced data p r → Recognizes (bitView data) p (f r) Q) :
    Recognizes (bitView data) p (withReader f) Q where
  parses := Parses.withReader fun r hr => (h r hr).parses
  yields hq hat := yields_withReader fun r hr => (h r hr).yields hq hat

theorem readBits_recognizes {n : Nat} (hn : n ≤ 32) :
    Recognizes (bitView data) p (readBits n) fun v w => w = bitsLe n v ∧ v < 2 ^ n where
  parses := readBits_parses n
  yields := by
    rintro v w rest ⟨rfl, hv⟩ hat
    have hread := readBits_yields (by rw [length_bitsLe]; exact hn) hat
    rw [length_bitsLe, ofBits_bitsLe_of_lt hv] at hread
    rw [length_bitsLe]
    exact hread

theorem alignToByte_recognizes : Recognizes (bitView data) p alignToByte fun _ w => w.length = padTo8 p where
  parses := alignToByte_parses
  yields hw hat := alignToByte_yields hw hat

theorem readU32Le_recognizes : Recognizes (bitView data) p readU32Le fun v w =>
    p % 8 = 0 ∧ w = bitsLe 32 v ∧ v < 2 ^ 32 where
  parses := readU32Le_parses
  yields := by
    rintro v w rest ⟨hp, rfl, hv⟩ hat
    rw [length_bitsLe]
    exact readU32Le_yields hp hv hat

theorem skipBytes_parses (count : Nat) : Parses (bitView data) p (skipBytes count) fun _ w =>
    ∃ bs, p % 8 = 0 ∧ w = bytesBits bs ∧ bs.length = count := by
  refine (readBytes_parses count).bind fun bs w h => Parses.pure ?_
  rw [List.append_nil]
  exact ⟨bs, h⟩

end

end Ziftsieve.Gzip
