import Ziftsieve.BitstreamSound
import Ziftsieve.Cuts

/-!
# The bit reader over cut data

A reader prefetches up to eight bytes, but what it gives depends on the bits
before its position only. Over data cut off at a byte, each read gives the same
bits up to there, and an error past it.
-/

namespace Ziftsieve.Gzip

/-! ## Bits of cut data -/

section
variable {data : Bytes} {k p n : Nat} {r : BitReader}

theorem bytesBits_take (data : Bytes) (k : Nat) : bytesBits (data.take k) = (bytesBits data).take (8 * k) := by
  by_cases h : k ≤ data.length
  · have hsplit : bytesBits data = bytesBits (data.take k) ++ bytesBits (data.drop k) := by
      rw [← bytesBits_append, List.take_append_drop]
    have hlen : (bytesBits (data.take k)).length = 8 * k := by
      rw [length_bytesBits, List.length_take_of_le h]
    rw [hsplit, ← hlen, List.take_left]
  · have hle : data.length ≤ k := Nat.le_of_not_le h
    rw [List.take_of_length_le hle, List.take_of_length_le (by rw [length_bytesBits]; omega)]

theorem Synced.le (h : Synced data p r) : p ≤ 8 * data.length := by
  have hp := h.pulled
  have hl := h.pull_le
  omega

theorem Synced.refilled (h : Synced data p r) (n : Nat) :
    Synced data p (if r.bitsInBuffer < n then r.refill else r) := by
  by_cases hlt : r.bitsInBuffer < n
  · rw [if_pos hlt]; exact h.refill.1
  · rw [if_neg hlt]; exact h

theorem Synced.starved (h : Synced data p r) (hend : 8 * data.length < p + n) :
    (if r.bitsInBuffer < n then r.refill else r).bitsInBuffer < n := by
  have hpulled := (h.refilled n).pulled
  have hpull := (h.refilled n).pull_le
  omega

theorem cutBits_eq (h : p + n ≤ 8 * k) :
    ((bytesBits (data.take k)).drop p).take n = ((bytesBits data).drop p).take n := by
  rw [bytesBits_take, List.drop_take, List.take_take, Nat.min_eq_left (by omega)]

/-- Readers of the data, and of the data before byte `k`. -/
def cutView (data : Bytes) (k : Nat) : CutView BitReader where
  whole := Synced data
  cut := Synced (data.take k)
  limit := 8 * k
  cut_le := by
    intro p s h
    have hle := h.le
    rw [List.length_take] at hle
    omega

/-! ## Steps -/

variable {α β : Type} {Q : Nat → α → Prop}

theorem Tracks.failHere (reason : String) : Tracks (cutView data k) p (failHere reason : Read α) Q := by
  intro r a t _ hrun
  cases hrun

theorem Tracks.lift {x : Run ZiftError α} (h : ∀ a, x = .ok a → Q p a) : Tracks (cutView data k) p (lift x) Q := by
  intro r a t hr hrun
  cases x with
  | error e => cases hrun
  | ok b =>
    cases hrun
    exact ⟨p, Nat.le_refl p, hr, h a rfl, fun r' hr' => Follows.here hr'⟩

theorem Tracks.lift_eq (x : Run ZiftError α) : Tracks (cutView data k) p (Gzip.lift x) fun _ a => x = .ok a :=
  Tracks.lift fun _ h => h

theorem Tracks.lift_any (x : Run ZiftError α) : Tracks (cutView data k) p (Gzip.lift x) fun _ _ => True :=
  Tracks.lift fun _ _ => trivial

/-- What a computation asks the reader is the same for both readers at one position. -/
theorem Tracks.withReader {f : BitReader → Read α}
    (hf : ∀ r r', Synced data p r → Synced (data.take k) p r' → f r' = f r)
    (hg : ∀ r, Synced data p r → Tracks (cutView data k) p (f r) Q) :
    Tracks (cutView data k) p (Gzip.withReader f) Q := by
  intro r a t hr hrun
  obtain ⟨q, hpq, ht, hq, hfollows⟩ := hg r hr r a t hr hrun
  refine ⟨q, hpq, ht, hq, fun r' hr' => ?_⟩
  change Follows _ _ _ (f r' r')
  rw [hf r r' hr hr']
  exact hfollows r' hr'

/-! ## Reads -/

theorem readBits_tracks (n : Nat) : Tracks (cutView data k) p (readBits n) fun q v => q = p + n ∧ v < 2 ^ n := by
  intro r a t hr hrun
  unfold readBits at hrun ⊢
  by_cases h0 : n = 0
  · rw [if_pos h0] at hrun
    cases hrun
    refine ⟨p, Nat.le_refl p, hr, ⟨by omega, Nat.two_pow_pos n⟩, fun r' hr' => ?_⟩
    rw [if_pos h0]
    exact Follows.here hr'
  by_cases h32 : n > 32
  · rw [if_neg h0, if_pos h32] at hrun
    cases hrun
  rw [if_neg h0, if_neg h32] at hrun
  by_cases hshort : (if r.bitsInBuffer < n then r.refill else r).bitsInBuffer < n
  · simp only [if_pos hshort] at hrun
    cases hrun
  simp only [if_neg hshort] at hrun
  obtain ⟨hvalue, ht⟩ := (hr.refilled n).takeBits (Nat.le_of_not_lt hshort)
  cases hrun
  have hle := ht.le
  have hlt := ofBits_lt (((bytesBits data).drop p).take n)
  rw [← hvalue] at hlt
  have hbound := Nat.lt_of_lt_of_le hlt (Nat.pow_le_pow_right (by decide) (List.length_take_le _ _))
  refine ⟨p + n, Nat.le_add_right p n, ht, ⟨rfl, hbound⟩, fun r' hr' => ⟨fun hlim => ?_, fun hlim => ?_⟩⟩
  · change p + n ≤ 8 * k at hlim
    have hlen : p + n ≤ 8 * (data.take k).length := by rw [List.length_take]; omega
    obtain ⟨hfull', hbits⟩ := hr'.full (Nat.le_of_not_lt h32) hlen
    obtain ⟨hvalue', ht'⟩ := hfull'.takeBits hbits
    rw [if_neg h0, if_neg h32]
    simp only [if_neg (Nat.not_lt.mpr hbits)]
    rw [cutBits_eq hlim, ← hvalue] at hvalue'
    exact ⟨_, by rw [hvalue'], ht'⟩
  · change 8 * k < p + n at hlim
    have hend : 8 * (data.take k).length < p + n := by rw [List.length_take]; omega
    rw [if_neg h0, if_neg h32]
    simp only [if_pos (hr'.starved hend)]
    exact ⟨_, _, rfl⟩

theorem readBitsU8_tracks (n : Nat) : Tracks (cutView data k) p (readBitsU8 n) fun q _ => q = p + n :=
  (readBits_tracks n).bind fun _ _ _ hq => Tracks.ite (fun _ => Tracks.failHere _) fun _ => Tracks.pure hq.1

theorem alignToByte_tracks : Tracks (cutView data k) p alignToByte fun q _ => q % 8 = 0 := by
  refine Tracks.withReader (fun r r' hr hr' => by rw [hr.bitPos_eq, hr'.bitPos_eq]) fun r hr => ?_
  rw [hr.bitPos_eq]
  refine Tracks.ite (fun hp => (readBits_tracks _).bind fun q _ _ hq => Tracks.pure (by omega)) fun hp => ?_
  exact Tracks.pure (not_not.mp hp)

theorem readU8_tracks : Tracks (cutView data k) p readU8 fun q _ => q = p + 8 ∧ p % 8 = 0 := by
  refine Tracks.withReader (fun r r' hr hr' => by rw [hr.bitPos_eq, hr'.bitPos_eq]) fun r hr => ?_
  rw [hr.bitPos_eq]
  refine Tracks.ite (fun _ => Tracks.failHere _) fun hp => ?_
  exact (readBitsU8_tracks 8).imp fun q _ _ hq => ⟨hq, not_not.mp hp⟩

theorem readU16Le_tracks : Tracks (cutView data k) p readU16Le fun q _ => q = p + 16 ∧ p % 8 = 0 :=
  readU8_tracks.bind fun _ _ _ h => readU8_tracks.bind fun _ _ _ h' => Tracks.pure ⟨by omega, h.2⟩

theorem readU32Le_tracks : Tracks (cutView data k) p readU32Le fun q _ => q = p + 32 ∧ p % 8 = 0 :=
  readU16Le_tracks.bind fun _ _ _ h => readU16Le_tracks.bind fun _ _ _ h' => Tracks.pure ⟨by omega, h.2⟩

theorem readBytes_tracks (count : Nat) : Tracks (cutView data k) p (readBytes count) fun q bytes =>
    q = p + 8 * count ∧ p % 8 = 0 ∧ bytes.length = count := by
  intro r a t hr hrun
  unfold readBytes at hrun ⊢
  by_cases h0 : r.bitPos ≠ 0
  · rw [if_pos h0] at hrun
    cases hrun
  rw [if_neg h0] at hrun
  have halign : p % 8 = 0 := by
    rw [← hr.bitPos_eq]
    exact not_not.mp h0
  by_cases hend : r.bytePos + count > r.data.length
  · simp only [if_pos hend] at hrun
    cases hrun
  simp only [if_neg hend] at hrun
  rw [hr.data_eq, hr.bytePos_eq] at hrun hend
  obtain ⟨hslice, rfl⟩ := Prod.mk.inj hrun
  have hbytes := (@slice_safe ZiftError _ data (p / 8) (p / 8 + count) (by omega)).post a hslice
  have hpos : p + 8 * count = 8 * (p / 8 + count) := by omega
  refine ⟨p + 8 * count, Nat.le_add_right _ _, ?_, ⟨rfl, halign, by omega⟩, fun r' hr' => ⟨fun hlim => ?_, fun hlim => ?_⟩⟩
  · rw [hpos]
    exact Synced.new (by omega)
  · change p + 8 * count ≤ 8 * k at hlim
    have hlen : p / 8 + count ≤ (data.take k).length := by rw [List.length_take]; omega
    rw [if_neg (by rw [hr'.bitPos_eq]; omega)]
    simp only [hr'.data_eq, hr'.bytePos_eq]
    rw [if_neg (Nat.not_lt.mpr hlen), slice_take (by omega), hslice]
    refine ⟨_, rfl, ?_⟩
    rw [hpos]
    exact Synced.new hlen
  · change 8 * k < p + 8 * count at hlim
    have hlen : p / 8 + count > (data.take k).length := by rw [List.length_take]; omega
    rw [if_neg (by rw [hr'.bitPos_eq]; omega)]
    simp only [hr'.data_eq, hr'.bytePos_eq]
    rw [if_pos hlen]
    exact ⟨_, _, rfl⟩

theorem skipBytes_tracks (count : Nat) :
    Tracks (cutView data k) p (skipBytes count) fun q _ => q = p + 8 * count ∧ p % 8 = 0 :=
  (readBytes_tracks count).bind fun _ _ _ h => Tracks.pure ⟨h.1, h.2.1⟩

theorem peekU8_ok (halign : p % 8 = 0) (hr : Synced data p r) (hlen : p + 8 ≤ 8 * data.length) :
    ∃ t, peekU8 r = (.ok (ofBits (((bytesBits data).drop p).take 8)), t) ∧ Synced data p t := by
  have hw : (((bytesBits data).drop p).take 8).length = 8 := by
    rw [List.length_take, List.length_drop, length_bytesBits]; omega
  have hbits := bitsLe_ofBits (((bytesBits data).drop p).take 8)
  rw [hw] at hbits
  have hlt := ofBits_lt (((bytesBits data).drop p).take 8)
  rw [hw] at hlt
  have hat : At (bytesBits data) p (bitsLe 8 (ofBits (((bytesBits data).drop p).take 8)) ++
      ((bytesBits data).drop p).drop 8) := by
    rw [hbits, List.take_append_drop]
    exact ⟨by rw [length_bytesBits]; omega, rfl⟩
  exact peekU8_yields halign hlt hat r hr

theorem peekU8_starved (hr : Synced data p r) (hlen : ¬ (p % 8 = 0 ∧ p + 8 ≤ 8 * data.length)) :
    ∃ e t, peekU8 r = (.error (.err e), t) := by
  unfold peekU8
  by_cases h0 : r.bitPos ≠ 0
  · rw [if_pos h0]
    exact ⟨_, _, rfl⟩
  · have hbit := hr.bitPos_eq
    rw [if_neg h0]
    simp only [if_pos (hr.starved (n := 8) (by omega))]
    exact ⟨_, _, rfl⟩

/-- A peek reads a byte ahead and does not move: what follows it must read that byte. -/
theorem peekU8_tracks {f : Nat → Read β} {R : Nat → β → Prop}
    (hf : ∀ v, Tracks (cutView data k) p (f v) fun q b => p + 8 ≤ q ∧ R q b) :
    Tracks (cutView data k) p (peekU8 >>= f) R := by
  intro r b u hr hrun
  obtain ⟨v, t, hpeek, hfu⟩ := bind_eq_ok.mp hrun
  obtain ⟨halign, hlen⟩ : p % 8 = 0 ∧ p + 8 ≤ 8 * data.length := by
    by_contra hlen
    obtain ⟨e, t', herr⟩ := peekU8_starved hr hlen
    rw [hpeek] at herr
    cases herr
  obtain ⟨t', hok, ht⟩ := peekU8_ok halign hr hlen
  rw [hpeek] at hok
  cases hok
  obtain ⟨q, hpq, hu, ⟨hq, hR⟩, hcut⟩ := hf _ t b u ht hfu
  refine ⟨q, hpq, hu, hR, fun r' hr' => ?_⟩
  by_cases hlim : p + 8 ≤ 8 * k
  · have hlen' : p + 8 ≤ 8 * (data.take k).length := by rw [List.length_take]; omega
    obtain ⟨t', hok', ht'⟩ := peekU8_ok halign hr' hlen'
    rw [cutBits_eq (show p + 8 ≤ 8 * k from hlim)] at hok'
    rw [bind_of_ok hok']
    exact hcut t' ht'
  · have hshort : ¬ (p % 8 = 0 ∧ p + 8 ≤ 8 * (data.take k).length) := by rw [List.length_take]; omega
    obtain ⟨e, t', herr⟩ := peekU8_starved hr' hshort
    have hbeyond : 8 * k < q := by omega
    exact ⟨fun hle => absurd hbeyond (Nat.not_lt.mpr hle), fun _ => ⟨e, t', bind_of_error herr⟩⟩

end

end Ziftsieve.Gzip
