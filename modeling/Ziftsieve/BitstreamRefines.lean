import Ziftsieve.BitstreamCut
import Mathlib.Data.List.Forall2

/-!
# The bit reader refines a plain bit string

A plain bit string is read at a position, with no buffer. Any sequence of calls
on a `BitReader` answers as the same calls on the bits of its data do, and its
public position is the plain one after every call.
-/

namespace Ziftsieve.Gzip

inductive ReadOp where
  | readBits (bits : Fin 33)
  | readU8
  | readU16Le
  | readU32Le
  | peekU8
  | alignToByte
  | readBytes (count : Nat)
  | skipBytes (count : Nat)
  deriving Repr, DecidableEq

inductive ReadValue where
  | number (n : Nat)
  | bytes (bs : Bytes)
  | nothing
  deriving Repr, DecidableEq

def ReadOp.call : ReadOp → Read ReadValue
  | readBits bits => do let n ← Gzip.readBits bits; pure (.number n)
  | readU8 => do let n ← Gzip.readU8; pure (.number n)
  | readU16Le => do let n ← Gzip.readU16Le; pure (.number n)
  | readU32Le => do let n ← Gzip.readU32Le; pure (.number n)
  | peekU8 => do let n ← Gzip.peekU8; pure (.number n)
  | alignToByte => do Gzip.alignToByte; pure .nothing
  | readBytes count => do let bs ← Gzip.readBytes count; pure (.bytes bs)
  | skipBytes count => do Gzip.skipBytes count; pure .nothing

/-- A sequence of calls: what each one gives, and the reader it leaves. -/
def calls : List ReadOp → BitReader → List (Run ZiftError ReadValue × BitReader)
  | [], _ => []
  | op :: ops, r => ((op.call r).1, (op.call r).2) :: calls ops (op.call r).2

/-! ## The plain bit string -/

/-- The number of bits a call looks at from position `p` on. -/
def ReadOp.width (p : Nat) : ReadOp → Nat
  | readBits bits => bits
  | readU8 | peekU8 => 8
  | readU16Le => 16
  | readU32Le => 32
  | alignToByte => padTo8 p
  | readBytes count | skipBytes count => 8 * count

def ReadOp.wholeBytes : ReadOp → Bool
  | readBits _ | alignToByte => false
  | _ => true

/-- There are enough bits left, and a byte operation is aligned. -/
def ReadOp.Fits (w : List Bool) (p : Nat) (op : ReadOp) : Prop :=
  (op.wholeBytes → p % 8 = 0) ∧ p + op.width p ≤ w.length

instance (w : List Bool) (p : Nat) (op : ReadOp) : Decidable (op.Fits w p) :=
  inferInstanceAs (Decidable (_ ∧ _))

/-- The position after a call that succeeds. -/
def ReadOp.next (p : Nat) : ReadOp → Nat
  | peekU8 => p
  | op => p + op.width p

/-- The position after a call that fails: `read_u16_le` and `read_u32_le` go byte
by byte, and use up the bytes that are left. -/
def ReadOp.stuck (w : List Bool) (p : Nat) : ReadOp → Nat
  | readU16Le | readU32Le => if p % 8 = 0 then w.length else p
  | _ => p

/-- A call on the plain bit string: the bits it gives, if it succeeds, and the next position. -/
def ReadOp.ideal (w : List Bool) (p : Nat) (op : ReadOp) : Option (List Bool) × Nat :=
  if op.Fits w p then (some ((w.drop p).take (op.width p)), op.next p) else (none, op.stuck w p)

def idealCalls (w : List Bool) : List ReadOp → Nat → List (Option (List Bool) × Nat)
  | [], _ => []
  | op :: ops, p => op.ideal w p :: idealCalls w ops (op.ideal w p).2

/-! ## What is compared -/

def ReadValue.Shows : ReadValue → List Bool → Prop
  | number n, w => n = ofBits w
  | bytes bs, w => bytesBits bs = w
  | nothing, _ => True

def Answers : Run ZiftError ReadValue → Option (List Bool) → Prop
  | .ok v, some w => v.Shows w
  | .error (.err _), none => True
  | _, _ => False

/-- What is public of a reader at position `p`. -/
structure Stands (data : Bytes) (p : Nat) (r : BitReader) : Prop where
  position : 8 * r.bytePos + r.bitPos = p
  bitPos_lt : r.bitPos < 8
  remaining : r.bitPos = 0 → r.remainingBytes = data.length - r.bytePos

structure Matches (data : Bytes) (x : Run ZiftError ReadValue × BitReader) (y : Option (List Bool) × Nat) : Prop where
  answers : Answers x.1 y.1
  stands : Stands data y.2 x.2

section
variable {data : Bytes} {p k : Nat} {r : BitReader}

theorem Synced.stands (h : Synced data p r) : Stands data p r where
  position := by rw [h.bytePos_eq, h.bitPos_eq]; omega
  bitPos_lt := by rw [h.bitPos_eq]; omega
  remaining := by
    intro h0
    rw [h.bitPos_eq] at h0
    have h8 : p = 8 * (p / 8) := by omega
    rw [h.bytePos_eq]
    rw [h8] at h
    exact h.remainingBytes

/-! ## Calls that fail -/

/-- From every reader in `P` the call fails, and leaves a reader in `Q`. -/
def Refuses {α : Type} (P : BitReader → Prop) (m : Read α) (Q : BitReader → Prop) : Prop :=
  ∀ r, P r → ∃ e r', m r = (.error (.err e), r') ∧ Q r'

section
variable {α β : Type} {P Q R : BitReader → Prop} {m : Read α} {f : α → Read β} {a : α}

theorem Refuses.bind (h : Refuses P m Q) : Refuses P (m >>= f) Q := by
  intro r hr
  obtain ⟨e, r', hm, hq⟩ := h r hr
  exact ⟨e, r', bind_of_error hm, hq⟩

theorem refuses_after (hm : Yields P m a Q) (hf : Refuses Q (f a) R) : Refuses P (m >>= f) R := by
  intro r hr
  obtain ⟨r', hmr, hr'⟩ := hm r hr
  rw [bind_of_ok hmr]
  exact hf r' hr'

theorem refuses_failHere (reason : String) : Refuses P (failHere reason : Read α) P := fun r hr => ⟨_, r, rfl, hr⟩

theorem refuses_withReader {g : BitReader → Read α} (h : ∀ r, P r → Refuses P (g r) Q) : Refuses P (withReader g) Q :=
  fun r hr => h r hr r hr

end

theorem readBits_refuses (hk : k ≤ 32) (hend : 8 * data.length < p + k) :
    Refuses (Synced data p) (readBits k) (Synced data p) := by
  intro r hr
  have hle := hr.le
  unfold readBits
  rw [if_neg (by omega), if_neg (by omega)]
  simp only [if_pos (hr.starved hend)]
  exact ⟨_, _, rfl, hr.refilled k⟩

theorem readU8_misaligned (hp : p % 8 ≠ 0) : Refuses (Synced data p) readU8 (Synced data p) := by
  apply refuses_withReader
  intro r hr
  rw [hr.bitPos_eq, if_pos hp]
  apply refuses_failHere

theorem readU8_refuses (h : ¬ (p % 8 = 0 ∧ p + 8 ≤ 8 * data.length)) :
    Refuses (Synced data p) readU8 (Synced data p) := by
  by_cases hp : p % 8 = 0
  · apply refuses_withReader
    intro r hr
    rw [hr.bitPos_eq, if_neg (not_not.mpr hp)]
    exact (readBits_refuses (by decide) (by omega)).bind
  · exact readU8_misaligned hp

theorem peekU8_refuses (h : ¬ (p % 8 = 0 ∧ p + 8 ≤ 8 * data.length)) :
    Refuses (Synced data p) peekU8 (Synced data p) := by
  intro r hr
  unfold peekU8
  by_cases hp : p % 8 = 0
  · rw [if_neg (by rw [hr.bitPos_eq]; omega)]
    simp only [if_pos (hr.starved (n := 8) (by omega))]
    exact ⟨_, _, rfl, hr.refilled 8⟩
  · rw [if_pos (by rw [hr.bitPos_eq]; exact hp)]
    exact ⟨_, r, rfl, hr⟩

theorem readBytes_refuses {count : Nat} (h : ¬ (p % 8 = 0 ∧ p + 8 * count ≤ 8 * data.length)) :
    Refuses (Synced data p) (readBytes count) (Synced data p) := by
  intro r hr
  unfold readBytes
  by_cases hp : p % 8 = 0
  · rw [if_neg (by rw [hr.bitPos_eq]; omega)]
    simp only [hr.bytePos_eq, hr.data_eq]
    rw [if_pos (by omega)]
    exact ⟨_, r, rfl, hr⟩
  · rw [if_pos (by rw [hr.bitPos_eq]; exact hp)]
    exact ⟨_, r, rfl, hr⟩

/-! ## Calls that succeed -/

/-- The `k` bits from position `p` on, split off what follows them. -/
theorem at_window (hle : p + k ≤ 8 * data.length) :
    At (bytesBits data) p (((bytesBits data).drop p).take k ++ (bytesBits data).drop (p + k)) := by
  refine ⟨by rw [length_bytesBits]; omega, ?_⟩
  rw [← List.drop_drop, List.take_append_drop]

theorem length_window (hle : p + k ≤ 8 * data.length) : (((bytesBits data).drop p).take k).length = k := by
  rw [List.length_take, List.length_drop, length_bytesBits]; omega

theorem window_lt (data : Bytes) (p k : Nat) : ofBits (((bytesBits data).drop p).take k) < 2 ^ k :=
  Nat.lt_of_lt_of_le (ofBits_lt _) (Nat.pow_le_pow_right (by decide) (List.length_take_le _ _))

theorem at_number (hle : p + k ≤ 8 * data.length) : At (bytesBits data) p
    (bitsLe k (ofBits (((bytesBits data).drop p).take k)) ++ (bytesBits data).drop (p + k)) := by
  have hbits := bitsLe_ofBits (((bytesBits data).drop p).take k)
  rw [length_window hle] at hbits
  rw [hbits]
  exact at_window hle

theorem readBits_window (hk : k ≤ 32) (hle : p + k ≤ 8 * data.length) :
    Yields (Synced data p) (readBits k) (ofBits (((bytesBits data).drop p).take k)) (Synced data (p + k)) := by
  have h := readBits_yields (w := ((bytesBits data).drop p).take k) (by rw [length_window hle]; exact hk)
    (at_window hle)
  rwa [length_window hle] at h

theorem alignToByte_window (hle : p + padTo8 p ≤ 8 * data.length) :
    Yields (Synced data p) alignToByte () (Synced data (p + padTo8 p)) := by
  have h := alignToByte_yields (length_window hle) (at_window hle)
  rwa [length_window hle] at h

theorem readBytes_window {count : Nat} (hp : p % 8 = 0) (hle : p + 8 * count ≤ 8 * data.length) :
    Yields (Synced data p) (readBytes count) (pack (((bytesBits data).drop p).take (8 * count)))
      (Synced data (p + 8 * count)) := by
  have hpack := bytesBits_pack count _ (length_window hle)
  have hlen : (pack (((bytesBits data).drop p).take (8 * count))).length = count := by
    have hl := congrArg List.length hpack
    rw [length_bytesBits, length_window hle] at hl
    omega
  have hat := at_window hle
  rw [← hpack] at hat
  have h := readBytes_yields hp hat
  rwa [hlen] at h

/-! ## Reads of several bytes -/

theorem readU16Le_refuses (hle : p ≤ 8 * data.length) (h : ¬ (p % 8 = 0 ∧ p + 16 ≤ 8 * data.length)) :
    Refuses (Synced data p) readU16Le (Synced data (if p % 8 = 0 then 8 * data.length else p)) := by
  by_cases hp : p % 8 = 0
  · rw [if_pos hp]
    by_cases h8 : p + 8 ≤ 8 * data.length
    · -- one byte is left: it is read, and the second read finds none
      have hend : p + 8 = 8 * data.length := by omega
      refine refuses_after (readU8_yields hp (window_lt data p 8) (at_number h8)) ?_
      rw [hend]
      exact (readU8_refuses (by omega)).bind
    · have hend : p = 8 * data.length := by omega
      rw [hend]
      exact (readU8_refuses (by omega)).bind
  · rw [if_neg hp]
    exact (readU8_misaligned hp).bind

theorem readU32Le_refuses (hle : p ≤ 8 * data.length) (h : ¬ (p % 8 = 0 ∧ p + 32 ≤ 8 * data.length)) :
    Refuses (Synced data p) readU32Le (Synced data (if p % 8 = 0 then 8 * data.length else p)) := by
  by_cases h16 : p % 8 = 0 ∧ p + 16 ≤ 8 * data.length
  · obtain ⟨hp, hle16⟩ := h16
    have hsecond : Refuses (Synced data (p + 16)) readU16Le (Synced data (8 * data.length)) := by
      have h2 := readU16Le_refuses hle16 (by omega)
      rwa [if_pos (by omega)] at h2
    rw [if_pos hp]
    exact refuses_after (readU16Le_yields hp (window_lt data p 16) (at_number hle16)) hsecond.bind
  · exact (readU16Le_refuses hle h16).bind

/-! ## One call -/

theorem agrees_of_yields {op : ReadOp} {v : ReadValue} (h : Yields (Synced data p) op.call v (Synced data (op.next p)))
    (hv : v.Shows (((bytesBits data).drop p).take (op.width p))) (hfits : op.Fits (bytesBits data) p)
    (hr : Synced data p r) :
    Answers (op.call r).1 (op.ideal (bytesBits data) p).1 ∧
      Synced data (op.ideal (bytesBits data) p).2 (op.call r).2 := by
  obtain ⟨r', hrun, hr'⟩ := h r hr
  unfold ReadOp.ideal
  rw [hrun, if_pos hfits]
  exact ⟨hv, hr'⟩

theorem Refuses.agrees {op : ReadOp}
    (h : Refuses (Synced data p) op.call (Synced data (op.stuck (bytesBits data) p)))
    (hfits : ¬ op.Fits (bytesBits data) p) (hr : Synced data p r) :
    Answers (op.call r).1 (op.ideal (bytesBits data) p).1 ∧
      Synced data (op.ideal (bytesBits data) p).2 (op.call r).2 := by
  obtain ⟨e, r', hrun, hr'⟩ := h r hr
  unfold ReadOp.ideal
  rw [hrun, if_neg hfits]
  exact ⟨trivial, hr'⟩

theorem ReadOp.fits_iff {op : ReadOp} :
    op.Fits (bytesBits data) p ↔ (op.wholeBytes → p % 8 = 0) ∧ p + op.width p ≤ 8 * data.length := by
  unfold ReadOp.Fits
  rw [length_bytesBits]

theorem ReadOp.call_fits {op : ReadOp} (hr : Synced data p r) (hfits : op.Fits (bytesBits data) p) :
    Answers (op.call r).1 (op.ideal (bytesBits data) p).1 ∧
      Synced data (op.ideal (bytesBits data) p).2 (op.call r).2 := by
  obtain ⟨halign, hle⟩ := ReadOp.fits_iff.mp hfits
  cases op with
  | readBits bits =>
    have hread := readBits_window (Nat.le_of_lt_succ bits.isLt) hle
    exact agrees_of_yields (hread.bind Yields.pure) rfl hfits hr
  | readU8 =>
    have hread := readU8_yields (halign rfl) (window_lt data p 8) (at_number hle)
    exact agrees_of_yields (hread.bind Yields.pure) rfl hfits hr
  | readU16Le =>
    have hread := readU16Le_yields (halign rfl) (window_lt data p 16) (at_number hle)
    exact agrees_of_yields (hread.bind Yields.pure) rfl hfits hr
  | readU32Le =>
    have hread := readU32Le_yields (halign rfl) (window_lt data p 32) (at_number hle)
    exact agrees_of_yields (hread.bind Yields.pure) rfl hfits hr
  | peekU8 =>
    have hpeek := peekU8_yields (halign rfl) (window_lt data p 8) (at_number hle)
    exact agrees_of_yields (hpeek.bind Yields.pure) rfl hfits hr
  | alignToByte => exact agrees_of_yields ((alignToByte_window hle).bind Yields.pure) trivial hfits hr
  | readBytes count =>
    have hread := readBytes_window (halign rfl) hle
    exact agrees_of_yields (hread.bind Yields.pure) (bytesBits_pack count _ (length_window hle)) hfits hr
  | skipBytes count =>
    have hskip : Yields (Synced data p) (Gzip.skipBytes count) () (Synced data (p + 8 * count)) :=
      (readBytes_window (halign rfl) hle).bind Yields.pure
    exact agrees_of_yields (hskip.bind Yields.pure) trivial hfits hr

theorem ReadOp.call_stuck {op : ReadOp} (hr : Synced data p r) (hfits : ¬ op.Fits (bytesBits data) p) :
    Answers (op.call r).1 (op.ideal (bytesBits data) p).1 ∧
      Synced data (op.ideal (bytesBits data) p).2 (op.call r).2 := by
  have hle := hr.le
  have hnot := mt ReadOp.fits_iff.mpr hfits
  cases op with
  | readBits bits =>
    have hend : 8 * data.length < p + bits := by
      apply Nat.lt_of_not_le
      intro h
      exact hnot ⟨fun hb => absurd hb Bool.false_ne_true, h⟩
    exact (readBits_refuses (Nat.le_of_lt_succ bits.isLt) hend).bind.agrees hfits hr
  | readU8 => exact (readU8_refuses fun h => hnot ⟨fun _ => h.1, h.2⟩).bind.agrees hfits hr
  | readU16Le =>
    have h := readU16Le_refuses hle fun h => hnot ⟨fun _ => h.1, h.2⟩
    rw [← length_bytesBits] at h
    exact h.bind.agrees hfits hr
  | readU32Le =>
    have h := readU32Le_refuses hle fun h => hnot ⟨fun _ => h.1, h.2⟩
    rw [← length_bytesBits] at h
    exact h.bind.agrees hfits hr
  | peekU8 => exact (peekU8_refuses fun h => hnot ⟨fun _ => h.1, h.2⟩).bind.agrees hfits hr
  | alignToByte =>
    -- the data end on a byte boundary, so the bits up to the next one are there
    exfalso
    apply hnot
    refine ⟨fun hb => absurd hb Bool.false_ne_true, ?_⟩
    change p + padTo8 p ≤ 8 * data.length
    unfold padTo8
    omega
  | readBytes count => exact (readBytes_refuses fun h => hnot ⟨fun _ => h.1, h.2⟩).bind.agrees hfits hr
  | skipBytes count => exact (readBytes_refuses fun h => hnot ⟨fun _ => h.1, h.2⟩).bind.bind.agrees hfits hr

theorem ReadOp.call_ideal (op : ReadOp) (hr : Synced data p r) :
    Answers (op.call r).1 (op.ideal (bytesBits data) p).1 ∧
      Synced data (op.ideal (bytesBits data) p).2 (op.call r).2 := by
  by_cases hfits : op.Fits (bytesBits data) p
  · exact ReadOp.call_fits hr hfits
  · exact ReadOp.call_stuck hr hfits

/-! ## Every sequence of calls -/

theorem Synced.calls {ops : List ReadOp} (h : Synced data p r) :
    List.Forall₂ (Matches data) (Gzip.calls ops r) (idealCalls (bytesBits data) ops p) := by
  induction ops generalizing p r with
  | nil => exact List.Forall₂.nil
  | cons op ops ih =>
    obtain ⟨hanswer, hnext⟩ := op.call_ideal h
    exact List.Forall₂.cons ⟨hanswer, hnext.stands⟩ (ih hnext)

end

/-- A reader opened at any byte of the data refines the plain bit string. -/
theorem bitReader_refines (data : Bytes) (start : Nat) (h : start ≤ data.length) (ops : List ReadOp) :
    Stands data (8 * start) (BitReader.new data start) ∧
      List.Forall₂ (Matches data) (calls ops (BitReader.new data start)) (idealCalls (bytesBits data) ops (8 * start)) :=
  ⟨(Synced.new h).stands, (Synced.new h).calls⟩

/-- Three bytes from the second on: the last two calls find too few bits. -/
theorem bitReader_refines_mixed :
    idealCalls (bytesBits [0x00, 0xA5, 0x3C]) [.readBits 3, .alignToByte, .peekU8, .readU16Le, .readBits 1] 8 =
        [(some [true, false, true], 11), (some [false, false, true, false, true], 16),
          (some [false, false, true, true, true, true, false, false], 16), (none, 24), (none, 24)] ∧
      Stands [0x00, 0xA5, 0x3C] (8 * 1) (BitReader.new [0x00, 0xA5, 0x3C] 1) ∧
      List.Forall₂ (Matches [0x00, 0xA5, 0x3C])
        (calls [.readBits 3, .alignToByte, .peekU8, .readU16Le, .readBits 1] (BitReader.new [0x00, 0xA5, 0x3C] 1))
        (idealCalls (bytesBits [0x00, 0xA5, 0x3C]) [.readBits 3, .alignToByte, .peekU8, .readU16Le, .readBits 1]
          (8 * 1)) :=
  ⟨by decide, bitReader_refines [0x00, 0xA5, 0x3C] 1 (by decide) _⟩

end Ziftsieve.Gzip
