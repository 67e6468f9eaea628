import Ziftsieve.DeflateSafe
import Ziftsieve.IndexSound

/-!
# Every gzip input gets an answer, or a sum overflows

Whatever the bytes, the parser returns blocks or an error, but for one thing: the
lengths a dynamic block declares can make a sum of `calculate_next_codes` leave
16 bits. Which inputs do is told exactly, by the states the parse reaches.
-/

namespace Ziftsieve.Gzip

section
variable {data : Bytes} {p : Nat}

/-! ## The header -/

theorem skipZeroTerminated_keeps : Keeps (Past data p) skipZeroTerminated fun _ => True := by
  refine Keeps.loop (I := fun _ => True) (μ := fun count => maxHeaderFieldLen + 1 - count) (fun count _ => ?_) trivial
    (Nat.lt_succ_self _)
  unfold skipTurn
  refine Keeps.ite (fun _ => Keeps.failHere _) fun hcount => readU8_keeps.bind fun value _ => ?_
  by_cases hv : value = 0
  · rw [if_pos hv]
    exact Keeps.pure trivial
  · rw [if_neg hv]
    exact Keeps.pure ⟨trivial, by omega⟩

theorem parseGzipExtraFields_keeps (flags : Nat) : Keeps (Past data p) (parseGzipExtraFields flags) fun _ => True := by
  have hnone : Keeps (Past data p) (pure () : Read Unit) fun _ => True := Keeps.pure trivial
  refine (Keeps.ite (fun _ => readU16Le_keeps.bind fun xlen _ => skipBytes_keeps xlen) fun _ => hnone).bind fun _ _ => ?_
  refine (Keeps.ite (fun _ => skipZeroTerminated_keeps) fun _ => hnone).bind fun _ _ => ?_
  refine (Keeps.ite (fun _ => skipZeroTerminated_keeps) fun _ => hnone).bind fun _ _ => ?_
  exact Keeps.ite (fun _ => skipBytes_keeps 2) fun _ => hnone

theorem failBefore_keeps {α : Type} {Q : α → Prop} (reason : String) :
    Keeps (Past data p) (failBefore reason) Q := Keeps.withReader fun _ _ => Keeps.fail _

theorem expectMagic_keeps (magic : Nat) : Keeps (Past data p) (expectMagic magic) fun _ => True :=
  peekU8_keeps.bind fun _ _ => Keeps.ite (fun _ => Keeps.failHere _) fun _ =>
    readU8_keeps.bind fun _ _ => Keeps.pure trivial

theorem parseGzipHeader_keeps : Keeps (Past data p) parseGzipHeader fun _ => True := by
  refine Keeps.withReader fun r _ => Keeps.ite (fun _ => Keeps.failHere _) fun _ => ?_
  refine Keeps.ite (fun _ => Keeps.failHere _) fun _ => ?_
  refine (expectMagic_keeps _).bind fun _ _ => (expectMagic_keeps _).bind fun _ _ => readU8_keeps.bind fun _ _ => ?_
  refine Keeps.ite (fun _ => failBefore_keeps _) fun _ => readU8_keeps.bind fun flags _ => ?_
  refine Keeps.ite (fun _ => failBefore_keeps _) fun _ => (skipBytes_keeps 4).bind fun _ _ => ?_
  exact readU8_keeps.bind fun _ _ => readU8_keeps.bind fun _ _ => parseGzipExtraFields_keeps flags

/-! ## Members -/

theorem drainDecoder_safe : ∀ (reads : List Bytes) (failure : Option String) (n : Nat),
    Safe (drainDecoder reads failure n) fun _ => True
  | [], none, _ => Safe.pure trivial
  | [], some _, _ => Safe.fail _
  | chunk :: reads, failure, n => by
    rw [drainDecoder]
    exact Safe.ite (fun _ => Safe.pure trivial) fun _ => Safe.failIf fun _ => drainDecoder_safe reads failure _

theorem checkMember_keeps (ext : External) (startIdx : Nat) (s : Stream) (expectedCrc32 : Nat) :
    Keeps (Past data p) (checkMember ext startIdx (p / 8) s expectedCrc32) fun _ => True := by
  unfold checkMember
  refine Keeps.withReader fun r hr => Keeps.ite (fun _ => ?_) fun _ => ?_
  · obtain ⟨q, hq, hs⟩ := hr
    have hle := hs.pull_le
    have hpulled := hs.pulled
    have hslice : p / 8 ≤ r.bytePos ∧ r.bytePos ≤ r.data.length := by
      rw [hs.bytePos_eq, hs.data_eq]; omega
    exact (Keeps.lift (slice_safe hslice)).bind fun memberData _ => Keeps.lift (drainDecoder_safe _ _ _)
  · intro t ht
    by_cases hcrc : expectedCrc32 ≠ ext.crc32 ((s.blocks.drop startIdx).flatMap (·.literals))
    · exact SafeAt.of_error (t := t) (by unfold failIf; rw [if_pos hcrc]; rfl)
    · exact SafeAt.of_ok (a := ()) (t := t) (by unfold failIf; rw [if_neg hcrc]; rfl) ⟨ht, trivial⟩

theorem parseGzipMember_safe (ext : External) {blocks : List CompressedBlock} {totalLiterals : Nat} {r : BitReader}
    (hr : Synced data p r)
    (hfit : ∀ r₁ n s t lits dists, parseGzipHeader r = (.ok (), r₁) →
      Turns streamTurn ⟨blocks, totalLiterals, false⟩ r₁ n s t → Declares s t lits dists → TreesFit lits dists) :
    SafeAt (parseGzipMember ext blocks totalLiterals) r fun _ t => Past data p t := by
  unfold parseGzipMember
  refine SafeAt.bind (Q := fun m t => Past data p t ∧ m.1 = p / 8) ?_ fun m t hm => ?_
  · refine SafeAt.withReader ((parseGzipHeader_keeps r hr.past).bind_eq fun _ r₁ hrun h => ?_)
    refine (parseDeflateStream_safe h.1 fun n s t lits dists => hfit r₁ n s t lits dists hrun).bind fun s r₂ hr₂ => ?_
    have htrailer : Keeps (Past data p) (do
        alignToByte
        let expectedCrc32 ← readU32Le
        let _ ← readU32Le
        pure (r.bytePos, s, expectedCrc32)) fun m => m.1 = p / 8 :=
      alignToByte_keeps.bind fun _ _ => readU32Le_keeps.bind fun _ _ => readU32Le_keeps.bind fun _ _ =>
        Keeps.pure hr.bytePos_eq
    exact htrailer r₂ hr₂
  · obtain ⟨memberStart, s, expectedCrc32⟩ := m
    obtain ⟨ht, rfl⟩ := hm
    exact (checkMember_keeps ext blocks.length s expectedCrc32 t ht).bind fun _ u hu => SafeAt.pure hu.1

theorem memberTurn_counts {ext : External} {s s' : Members} {r t : BitReader}
    (h : memberTurn ext s r = (.ok (.next s'), t)) : s'.members = s.members + 1 ∧ s'.members < 1024 := by
  unfold memberTurn withReader at h
  dsimp only at h
  by_cases hrem : r.remainingBytes > 0
  · rw [if_pos hrem] at h
    obtain ⟨b, r₁, -, h⟩ := bind_eq_ok.mp h
    by_cases hmax : s.members + 1 ≥ 1024
    · rw [if_pos hmax] at h
      cases h
    · rw [if_neg hmax] at h
      cases h
      exact ⟨rfl, Nat.lt_of_not_le hmax⟩
  · rw [if_neg hrem] at h
    cases h

theorem memberTurns_few {ext : External} {s : Members} {r₀ r : BitReader} {n : Nat}
    (h : Turns (memberTurn ext) ⟨[], 0, 0⟩ r₀ n s r) : s.members = n ∧ n < 1024 := by
  induction h with
  | start => exact ⟨rfl, by decide⟩
  | next _ hrun ih =>
    obtain ⟨hcount, hlt⟩ := memberTurn_counts hrun
    omega

theorem memberTurn_safe (ext : External) {s : Members} {r : BitReader} (hr : Past data p r)
    (hfit : 0 < r.remainingBytes → ∀ r₁ n s' t lits dists, parseGzipHeader r = (.ok (), r₁) →
      Turns streamTurn ⟨s.blocks, s.totalLiterals, false⟩ r₁ n s' t → Declares s' t lits dists → TreesFit lits dists) :
    SafeAt (memberTurn ext s) r fun turn t =>
      Past data p t ∧ turn.Holds (fun s' => 1024 - s'.members < 1024 - s.members) fun _ => True := by
  obtain ⟨q, hq, hs⟩ := hr
  unfold memberTurn
  refine SafeAt.withReader (SafeAt.ite (fun hrem => ?_) fun _ => SafeAt.pure ⟨⟨q, hq, hs⟩, trivial⟩)
  refine (parseGzipMember_safe ext hs (hfit hrem)).bind fun b t ht => ?_
  refine SafeAt.ite (fun _ => Keeps.failHere _ t (ht.mono hq)) fun hmax => SafeAt.pure ⟨ht.mono hq, ?_⟩
  simp only [Turn.Holds]
  omega

end

/-! ## The whole input -/

/-- The parse of `data` gets to a turn of the block loop, with this state. -/
def Reaches (ext : External) (data : Bytes) (s : Stream) (t : BitReader) : Prop :=
  ∃ n m ms r r₁, Turns (memberTurn ext) ⟨[], 0, 0⟩ (BitReader.new data 0) n ms r ∧ 0 < r.remainingBytes ∧
    parseGzipHeader r = (.ok (), r₁) ∧ Turns streamTurn ⟨ms.blocks, ms.totalLiterals, false⟩ r₁ m s t

section
variable {ext : External} {data : Bytes}

theorem memberLoop_safe (hfit : ∀ s t lits dists, Reaches ext data s t → Declares s t lits dists → TreesFit lits dists) :
    SafeAt (loop (memberTurn ext) 1025 ⟨[], 0, 0⟩) (BitReader.new data 0) fun _ t => Past data 0 t := by
  refine SafeAt.loop (I := fun s t => Past data 0 t ∧
    ∃ n, Turns (memberTurn ext) ⟨[], 0, 0⟩ (BitReader.new data 0) n s t) (μ := fun s => 1024 - s.members) ?_ _ _ _
    ⟨(Synced.new (i := 0) (Nat.zero_le _)).past, 0, Turns.start⟩ (Nat.lt_succ_of_le (Nat.sub_le _ _))
  rintro s r ⟨hr, n, hn⟩
  have hsafe := memberTurn_safe ext hr fun hrem r₁ m s' t lits dists hheader hm hd =>
    hfit s' t lits dists ⟨n, m, s, r, r₁, hn, hrem, hheader, hm⟩ hd
  refine ⟨hsafe.graceful, fun turn u hrun => ?_⟩
  obtain ⟨hu, hturn⟩ := hsafe.post turn u hrun
  cases turn with
  | next s' => exact ⟨⟨hu, n + 1, hn.next hrun⟩, hturn⟩
  | done blocks => exact hu

/-- Where a member's turn does not panic, every block it gets to declares trees that fit. -/
theorem memberTurn_fit {p : Nat} {s : Members} {r r₁ t : BitReader} {s' : Stream} {n : Nat} {lits dists : List Nat}
    (hr : Past data p r) (hg : Graceful (memberTurn ext s r).1) (hrem : 0 < r.remainingBytes)
    (hheader : parseGzipHeader r = (.ok (), r₁)) (h : Turns streamTurn ⟨s.blocks, s.totalLiterals, false⟩ r₁ n s' t)
    (hd : Declares s' t lits dists) : TreesFit lits dists := by
  unfold memberTurn withReader at hg
  dsimp only at hg
  rw [if_pos hrem] at hg
  have hmember := hg.left
  unfold parseGzipMember at hmember
  have hread := hmember.left
  unfold readMember withReader at hread
  dsimp only at hread
  exact (streamTurns_fit ((parseGzipHeader_keeps r hr).post () r₁ hheader).1 (hread.of_bind hheader).left h).2 lits dists hd

/-- By induction on the members read: where the parse does not panic, it stays in step with the data. -/
theorem memberTurns_past (hg : Graceful (loop (memberTurn ext) 1025 ⟨[], 0, 0⟩ (BitReader.new data 0)).1) {n : Nat}
    {s : Members} {r : BitReader} (h : Turns (memberTurn ext) ⟨[], 0, 0⟩ (BitReader.new data 0) n s r) :
    Past data 0 r := by
  induction h with
  | start => exact (Synced.new (i := 0) (Nat.zero_le _)).past
  | next hn hrun ih =>
    have hturn := hn.graceful (Nat.lt_trans (memberTurns_few hn).2 (by decide)) hg
    have hsafe := memberTurn_safe ext ih fun hrem r₁ m s' t lits dists hheader hm hd =>
      memberTurn_fit ih hturn hrem hheader hm hd
    exact (hsafe.post _ _ hrun).1

/-- **Gzip input never panics, but for one sum.** The parse of any bytes ends in blocks or
an error exactly when every dynamic block it gets to declares literal and length codes
whose sums fit 16 bits, and, if these give a decoder, such distance codes. -/
theorem extractLiterals_graceful_iff (ext : External) (data : Bytes) : Graceful (extractLiterals ext data) ↔
    ∀ s t lits dists, Reaches ext data s t → Declares s t lits dists →
      CodesFit lits ∧ ∀ d, HuffmanDecoder.fromLengths lits "literal/length" = .ok d → CodesFit dists := by
  constructor
  · rintro h s t lits dists ⟨n, m, ms, r, r₁, hn, hrem, hheader, hm⟩ hd
    have hg : Graceful (loop (memberTurn ext) 1025 ⟨[], 0, 0⟩ (BitReader.new data 0)).1 := by
      unfold extractLiterals at h
      by_cases hnil : data = []
      · subst hnil; exact Graceful.ok []
      · rwa [if_neg hnil] at h
    have hturn := hn.graceful (Nat.lt_trans (memberTurns_few hn).2 (by decide)) hg
    exact memberTurn_fit (memberTurns_past hg hn) hturn hrem hheader hm hd
  · intro hfit
    unfold extractLiterals
    exact Graceful.ite (fun _ => Graceful.fail _) fun _ => (memberLoop_safe hfit).graceful

end

/-- One member of 33 bytes, whose dynamic block declares seven codes of one bit, one each
of two to thirteen, two of fourteen, and one of fifteen: the first code of fourteen
bits is 65534, and there are two. -/
def overflowMember : Bytes :=
  [31, 139, 8, 0, 0, 0, 0, 0, 0, 255, 5, 224, 1, 130, 36, 73, 146, 36, 73, 2, 0, 0, 0, 18, 139, 154, 71, 86, 207, 238,
    253, 255, 175]

theorem extractLiterals_overflow : ¬ Graceful (extractLiterals .fnvOnly overflowMember) := by
  have hpanic : extractLiterals .fnvOnly overflowMember = .error .panic := by decide +kernel
  intro h
  obtain ⟨e, he⟩ := h .panic hpanic
  cases he

end Ziftsieve.Gzip
