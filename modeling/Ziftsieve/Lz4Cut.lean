import Ziftsieve.Lz4Safe

/-!
# LZ4 frames over cut data

A block's literals are copied out of it, so the walk's total never passes its
position. A frame cut between two blocks is the blocks before the cut, and one
cut anywhere else before the end of its EndMark is an error.
-/

namespace Ziftsieve.Lz4

section
variable {data : Bytes} {w w' : Walk}

/-! ## Totals -/

theorem length_blockLiterals_le {isUncompressed : Bool} {blockData literals : Bytes}
    (h : blockLiterals isUncompressed blockData = .ok literals) : literals.length ≤ blockData.length := by
  unfold blockLiterals at h
  cases isUncompressed with
  | true =>
    cases h
    exact Nat.le_refl _
  | false => exact length_extractLiterals_le h

def blockEnd (b : CompressedBlock) : Nat := b.compressedOffset + 4 + b.compressedLen

/-- A walk's blocks end where it stands or before, and their literals come out of the data. -/
structure Totals (w : Walk) : Prop where
  total_eq : w.totalLiterals = (w.blocks.map (·.literals.length)).sum
  total_le : w.totalLiterals ≤ maxTotalLiterals
  cost : w.totalLiterals ≤ w.offset
  uncompressedLen_eq : ∀ b ∈ w.blocks, b.uncompressedLen = none
  ends_le : ∀ b ∈ w.blocks, blockEnd b ≤ w.offset

theorem Totals.start (offset : Nat) : Totals ⟨offset, [], 0⟩ :=
  ⟨rfl, Nat.zero_le _, Nat.zero_le _, (fun _ hb => nomatch hb), fun _ hb => nomatch hb⟩

/-- What a turn that goes on does: it takes the block whose header stands at the offset. -/
structure TakesBlock (data : Bytes) (w : Walk) (size : Nat) (b : CompressedBlock) (w' : Walk) : Prop where
  pos : 0 < size
  offset_eq : b.compressedOffset = w.offset
  len_eq : b.compressedLen = size
  uncompressedLen_eq : b.uncompressedLen = none
  literals_le : b.literals.length ≤ size
  end_le : w.offset + 4 + size ≤ data.length
  total_le : w.totalLiterals + b.literals.length ≤ maxTotalLiterals
  next : w' = ⟨w.offset + 4 + size, w.blocks ++ [b], w.totalLiterals + b.literals.length⟩

theorem walkBlock_takes {isUncompressed : Bool} {size : Nat} (hpos : 0 < size)
    (h : walkBlock data w isUncompressed size = .ok w') : ∃ b, TakesBlock data w size b w' := by
  unfold walkBlock at h
  obtain ⟨_, -, h⟩ := Run.bind_eq_ok.mp h
  obtain ⟨_, hend, h⟩ := Run.bind_eq_ok.mp h
  obtain ⟨blockData, hslice, h⟩ := Run.bind_eq_ok.mp h
  obtain ⟨literals, hliterals, h⟩ := Run.bind_eq_ok.mp h
  obtain ⟨_, htotal, h⟩ := Run.bind_eq_ok.mp h
  obtain ⟨_, -, h⟩ := Run.bind_eq_ok.mp h
  rw [failIf_eq_ok] at hend htotal
  have hsize := (@slice_safe ZiftError _ data (w.offset + 4) (w.offset + 4 + size)
    ⟨by omega, by omega⟩).post blockData hslice
  have hlits := length_blockLiterals_le hliterals
  cases h
  exact ⟨{ CompressedBlock.new w.offset size with literals := literals }, hpos, rfl, rfl, rfl,
    by simp only; omega, by omega, Nat.le_of_not_lt htotal, rfl⟩

theorem TakesBlock.totals {size : Nat} {b : CompressedBlock} (h : TakesBlock data w size b w') (hw : Totals w) :
    Totals w' := by
  have hlits := h.literals_le
  have hcost := hw.cost
  have hoffset := h.offset_eq
  have hlen := h.len_eq
  have hblocks : ∀ c ∈ w.blocks ++ [b], c.uncompressedLen = none ∧ blockEnd c ≤ w.offset + 4 + size := by
    intro c hc
    rcases List.mem_append.mp hc with hc | hc
    · have := hw.ends_le c hc
      exact ⟨hw.uncompressedLen_eq c hc, by omega⟩
    · rw [List.mem_singleton.mp hc]
      exact ⟨h.uncompressedLen_eq, by unfold blockEnd; omega⟩
  rw [h.next]
  refine ⟨?_, h.total_le, ?_, fun c hc => (hblocks c hc).1, fun c hc => (hblocks c hc).2⟩
  · simp [hw.total_eq]
  · simp only
    omega

theorem walkTurn_takes {framed : Bool} (h : walkTurn data framed w = .ok (.next w')) :
    ∃ size b, TakesBlock data w size b w' := by
  obtain h | ⟨_, size, w₁, hpos, hw₁, h⟩ := walkTurn_inv h
  · cases h
  · cases h
    exact ⟨size, walkBlock_takes hpos hw₁⟩

theorem walkTurn_done {framed : Bool} {bs : List CompressedBlock} (h : walkTurn data framed w = .ok (.done bs)) :
    bs = w.blocks := by
  obtain h | ⟨_, _, _, _, _, h⟩ := walkTurn_inv h
  · cases h
    rfl
  · cases h

theorem parseFrameHeader_le {start : Nat} (h : parseFrameHeader data = .ok start) : start ≤ data.length := by
  unfold parseFrameHeader at h
  by_cases hnil : data = []
  · rw [if_pos hnil] at h
    cases h
  rw [if_neg hnil] at h
  by_cases hraw : data.length < 4 ∨ data.take 4 ≠ lz4FrameMagic
  · rw [if_pos hraw] at h
    cases h
    exact Nat.zero_le _
  · rw [if_neg hraw] at h
    obtain ⟨_, -, h⟩ := Run.bind_eq_ok.mp h
    obtain ⟨flg, -, h⟩ := Run.bind_eq_ok.mp h
    obtain ⟨_, -, h⟩ := Run.bind_eq_ok.mp h
    obtain ⟨_, hpos, h⟩ := Run.bind_eq_ok.mp h
    rw [failIf_eq_ok] at hpos
    have hstart := Except.ok.inj h
    omega

theorem parseLz4Blocks_totals {bs : List CompressedBlock} (h : parseLz4Blocks data = .ok bs) :
    ∃ w, Totals w ∧ w.offset ≤ data.length ∧ w.blocks = bs := by
  unfold parseLz4Blocks at h
  by_cases hnil : data = []
  · rw [if_pos hnil] at h
    cases h
  rw [if_neg hnil] at h
  obtain ⟨start, hstart, h⟩ := Run.bind_eq_ok.mp h
  refine loop_inv (I := fun w : Walk => Totals w ∧ w.offset ≤ data.length)
    (Q := fun bs => ∃ w : Walk, Totals w ∧ w.offset ≤ data.length ∧ w.blocks = bs) ?_ ?_ _ ⟨start, [], 0⟩ bs
    ⟨Totals.start start, parseFrameHeader_le hstart⟩ h
  · intro w w' hw hturn
    obtain ⟨size, b, hb⟩ := walkTurn_takes hturn
    exact ⟨hb.totals hw.1, by rw [hb.next]; exact hb.end_le⟩
  · intro w bs hw hturn
    exact ⟨w, hw.1, hw.2, (walkTurn_done hturn).symm⟩

/-! ## Turns over the whole data -/

/-- What stands at the walk's offset, when a turn over a frame's data succeeds. -/
theorem walkTurn_framed {t : Turn Walk (List CompressedBlock)} (h : walkTurn data true w = .ok t)
    (hmore : w.offset < data.length) :
    w.blocks.length < maxBlocksPerStream ∧ w.offset + 4 ≤ data.length ∧ ∃ word,
      (readLe32 data w.offset : Run ZiftError Nat) = .ok word ∧
      (if word &&& 0x7FFFFFFF = 0 then t = .done w.blocks else ∃ w',
        walkBlock data w (decide (word &&& 0x80000000 ≠ 0)) (word &&& 0x7FFFFFFF) = .ok w' ∧ t = .next w') := by
  unfold walkTurn at h
  rw [if_pos hmore] at h
  obtain ⟨_, hmany, h⟩ := Run.bind_eq_ok.mp h
  rw [failIf_eq_ok] at hmany
  by_cases hshort : w.offset + 4 > data.length
  · rw [if_pos hshort, if_neg (by simp; omega)] at h
    cases h
  rw [if_neg hshort] at h
  obtain ⟨word, hword, h⟩ := Run.bind_eq_ok.mp h
  refine ⟨Nat.lt_of_not_le hmany, Nat.le_of_not_lt hshort, word, hword, ?_⟩
  dsimp only at h
  by_cases hzero : word &&& 0x7FFFFFFF = 0
  · rw [if_pos hzero] at h ⊢
    cases h
    rfl
  · rw [if_neg hzero] at h ⊢
    obtain ⟨w', hw', h⟩ := Run.bind_eq_ok.mp h
    cases h
    exact ⟨w', hw', rfl⟩

end

section
variable {data : Bytes} {w w' : Walk} {k : Nat}

theorem walkTurn_next_block (h : walkTurn data true w = .ok (.next w')) (hmore : w.offset < data.length) : ∃ word,
    (readLe32 data w.offset : Run ZiftError Nat) = .ok word ∧ word &&& 0x7FFFFFFF ≠ 0 ∧
      walkBlock data w (decide (word &&& 0x80000000 ≠ 0)) (word &&& 0x7FFFFFFF) = .ok w' := by
  obtain ⟨-, -, word, hword, hblock⟩ := walkTurn_framed h hmore
  by_cases hzero : word &&& 0x7FFFFFFF = 0
  · rw [if_pos hzero] at hblock
    cases hblock
  · rw [if_neg hzero] at hblock
    obtain ⟨w₁, hw₁, heq⟩ := hblock
    cases heq
    exact ⟨word, hword, hzero, hw₁⟩

/-! ## Turns over cut data -/

theorem walkBlock_take {isUncompressed : Bool} {size : Nat} (hpos : 0 < size)
    (h : walkBlock data w isUncompressed size = .ok w') (hw : Totals w) (hk : w'.offset ≤ k) :
    walkBlock (data.take k) w isUncompressed size = .ok w' := by
  obtain ⟨b, hb⟩ := walkBlock_takes hpos h
  have hoffset : w'.offset = w.offset + 4 + size := by rw [hb.next]
  have htotals := (hb.totals hw).cost
  have htotal : w'.totalLiterals = w.totalLiterals + b.literals.length := by rw [hb.next]
  have hend := hb.end_le
  unfold walkBlock at h ⊢
  obtain ⟨_, hsize, h⟩ := Run.bind_eq_ok.mp h
  obtain ⟨_, -, h⟩ := Run.bind_eq_ok.mp h
  obtain ⟨blockData, hslice, h⟩ := Run.bind_eq_ok.mp h
  obtain ⟨literals, hliterals, h⟩ := Run.bind_eq_ok.mp h
  obtain ⟨_, hmax, h⟩ := Run.bind_eq_ok.mp h
  obtain ⟨_, -, h⟩ := Run.bind_eq_ok.mp h
  have hlits : w'.totalLiterals = w.totalLiterals + literals.length := by rw [← Except.ok.inj h]
  have hlen : (data.take k).length = min k data.length := List.length_take
  rw [hsize, Run.ok_bind]
  dsimp only
  rw [failIf_false _ (by omega), Run.ok_bind, slice_take (by omega), hslice, Run.ok_bind, hliterals, Run.ok_bind]
  rw [hmax, Run.ok_bind, failIf_false _ ?_, Run.ok_bind]
  · exact h
  · -- the literals so far are no more than the bytes walked over
    have : (data.take k).length ≤ (data.take k).length * maxDecompressionRatio := Nat.le_mul_of_pos_right _ (by decide)
    omega

theorem walkBlock_short {isUncompressed : Bool} {size : Nat} (h : walkBlock data w isUncompressed size = .ok w')
    (hk : k < w.offset + 4 + size) : ∃ e, walkBlock (data.take k) w isUncompressed size = .error (.err e) := by
  unfold walkBlock at h ⊢
  obtain ⟨_, hsize, -⟩ := Run.bind_eq_ok.mp h
  have hlen : (data.take k).length ≤ k := List.length_take_le _ _
  rw [hsize, Run.ok_bind]
  dsimp only
  rw [failIf_true _ (by omega), Run.error_bind]
  exact ⟨_, rfl⟩

theorem walkTurn_here (h : data.length = w.offset) : walkTurn data true w = .ok (.done w.blocks) := by
  unfold walkTurn
  rw [if_neg (by omega)]
  rfl

theorem walkTurn_word_take {t : Turn Walk (List CompressedBlock)} {word : Nat} (h : walkTurn data true w = .ok t)
    (hword : (readLe32 data w.offset : Run ZiftError Nat) = .ok word) (hk : w.offset + 4 ≤ k) (hlen : k ≤ data.length) :
    walkTurn (data.take k) true w =
      if word &&& 0x7FFFFFFF = 0 then .ok (.done w.blocks)
      else (do
        let w ← walkBlock (data.take k) w (decide (word &&& 0x80000000 ≠ 0)) (word &&& 0x7FFFFFFF)
        pure (.next w)) := by
  have hmany := (walkTurn_framed h (by omega)).1
  have hcut : (data.take k).length = k := List.length_take_of_le hlen
  unfold walkTurn
  rw [if_pos (by omega), failIf_false _ (Nat.not_le_of_lt hmany), Run.ok_bind, if_neg (by omega),
    readLe32_take hk, hword, Run.ok_bind]
  rfl

theorem walkTurn_take (h : walkTurn data true w = .ok (.next w')) (hw : Totals w) (hk : w'.offset ≤ k)
    (hlen : k ≤ data.length) : walkTurn (data.take k) true w = .ok (.next w') := by
  obtain ⟨size, b, hb⟩ := walkTurn_takes h
  have hoffset : w'.offset = w.offset + 4 + size := by rw [hb.next]
  obtain ⟨word, hword, hsome, hblock⟩ := walkTurn_next_block h (by omega)
  rw [walkTurn_word_take h hword (by omega) hlen, if_neg hsome, walkBlock_take (Nat.pos_of_ne_zero hsome) hblock hw hk]
  rfl

theorem walkTurn_short {t : Turn Walk (List CompressedBlock)} {e : Nat} (h : walkTurn data true w = .ok t)
    (hend : t = .done w.blocks ∧ e = w.offset + 4 ∨ ∃ w', t = .next w' ∧ e = w'.offset) (hlt : w.offset < k) (hk : k < e)
    (hlen : k ≤ data.length) : ∃ e, walkTurn (data.take k) true w = .error (.err e) := by
  have hcut : (data.take k).length = k := List.length_take_of_le hlen
  have hmany := (walkTurn_framed h (by omega)).1
  by_cases hshort : k < w.offset + 4
  · unfold walkTurn
    rw [if_pos (by omega), failIf_false _ (Nat.not_le_of_lt hmany), Run.ok_bind, if_pos (by omega),
      if_neg (by simp; omega)]
    exact ⟨_, rfl⟩
  · obtain ⟨-, rfl⟩ | ⟨w', rfl, rfl⟩ := hend
    · exact absurd hk hshort
    · obtain ⟨word, hword, hsome, hblock⟩ := walkTurn_next_block h (by omega)
      obtain ⟨e, he⟩ := walkBlock_short hblock (by rw [← (walkBlock_inv hblock).2.1]; exact hk)
      exact ⟨e, by rw [walkTurn_word_take h hword (Nat.le_of_not_lt hshort) hlen, if_neg hsome, he]; rfl⟩

/-! ## Runs over cut data -/

/-- The walk from `w` returns `bs` at an EndMark that ends at `e`. -/
inductive StopsAt (data : Bytes) (e : Nat) : Walk → List CompressedBlock → Prop where
  | mark {w : Walk} {word : Nat} (hword : (readLe32 data w.offset : Run ZiftError Nat) = .ok word)
      (hzero : word &&& 0x7FFFFFFF = 0) (hend : e = w.offset + 4) (hlen : e ≤ data.length)
      (hturn : walkTurn data true w = .ok (.done w.blocks)) : StopsAt data e w w.blocks
  | next {w w' : Walk} {bs : List CompressedBlock} (hturn : walkTurn data true w = .ok (.next w'))
      (hrest : StopsAt data e w' bs) : StopsAt data e w bs

theorem TakesBlock.blockEnd_eq {size : Nat} {b : CompressedBlock} (h : TakesBlock data w size b w') :
    blockEnd b = w'.offset := by
  rw [blockEnd, h.offset_eq, h.len_eq, h.next]

/-- The blocks still to come end past the walk. -/
theorem StopsAt.blocks {e : Nat} {bs : List CompressedBlock} (h : StopsAt data e w bs) :
    w.offset + 4 ≤ e ∧ e ≤ data.length ∧ ∃ rest, bs = w.blocks ++ rest ∧ ∀ b ∈ rest, w.offset < blockEnd b := by
  induction h with
  | mark _ _ hend hlen _ => exact ⟨Nat.le_of_eq hend.symm, hlen, [], (List.append_nil _).symm, fun _ hb => nomatch hb⟩
  | @next w w' bs hturn _ ih =>
    obtain ⟨size, b, hb⟩ := walkTurn_takes hturn
    obtain ⟨hle, hlen, rest, hbs, hrest⟩ := ih
    have hoffset : w'.offset = w.offset + 4 + size := by rw [hb.next]
    have hblocks : w'.blocks = w.blocks ++ [b] := by rw [hb.next]
    refine ⟨by omega, hlen, b :: rest, by rw [hbs, hblocks, List.append_assoc]; rfl, fun c hc => ?_⟩
    rcases List.mem_cons.mp hc with hc | hc
    · rw [hc, hb.blockEnd_eq]
      omega
    · have := hrest c hc
      omega

theorem StopsAt.runs {e : Nat} {bs : List CompressedBlock} (h : StopsAt data e w bs) : ∀ {n : Nat},
    data.length - w.offset < n → loop (walkTurn data true) n w = .ok bs := by
  induction h with
  | mark hword hzero hend hlen hturn =>
    intro n hn
    obtain ⟨n, rfl⟩ := Nat.exists_eq_succ_of_ne_zero (by omega : n ≠ 0)
    exact loop_done hturn
  | @next w w' bs hturn _ ih =>
    intro n hn
    obtain ⟨n, rfl⟩ := Nat.exists_eq_succ_of_ne_zero (by omega : n ≠ 0)
    obtain ⟨size, b, hb⟩ := walkTurn_takes hturn
    have hoffset : w'.offset = w.offset + 4 + size := by rw [hb.next]
    have hend := hb.end_le
    rw [loop_next hturn]
    exact ih (by omega)

/-- The cut is where the walk stands, or the end of a block further on. -/
def Boundary (k : Nat) (w : Walk) (bs : List CompressedBlock) : Prop :=
  k = w.offset ∨ ∃ b ∈ bs, w.offset < blockEnd b ∧ blockEnd b = k

theorem TakesBlock.boundary {size : Nat} {b : CompressedBlock} {bs : List CompressedBlock}
    (h : TakesBlock data w size b w') (hmem : b ∈ bs) (hk : w'.offset ≤ k) : Boundary k w bs ↔ Boundary k w' bs := by
  have hend := h.blockEnd_eq
  have hoffset : w'.offset = w.offset + 4 + size := by rw [h.next]
  constructor
  · rintro (hk' | ⟨c, hc, -, hck⟩)
    · omega
    · by_cases hhere : k = w'.offset
      · exact .inl hhere
      · exact .inr ⟨c, hc, by omega, hck⟩
  · rintro (hk' | ⟨c, hc, hlt, hck⟩)
    · exact .inr ⟨b, hmem, by omega, by omega⟩
    · exact .inr ⟨c, hc, by omega, hck⟩

theorem StopsAt.filter_here {e : Nat} {bs : List CompressedBlock} (h : StopsAt data e w bs) (hw : Totals w) :
    bs.filter (fun b => blockEnd b ≤ w.offset) = w.blocks := by
  obtain ⟨-, -, rest, rfl, hrest⟩ := h.blocks
  have hold : w.blocks.filter (fun b => blockEnd b ≤ w.offset) = w.blocks :=
    List.filter_eq_self.mpr fun b hb => decide_eq_true (hw.ends_le b hb)
  have hnew : rest.filter (fun b => blockEnd b ≤ w.offset) = [] :=
    List.filter_eq_nil_iff.mpr fun b hb => by simpa using hrest b hb
  rw [List.filter_append, hold, hnew, List.append_nil]

/-- The walk over the cut data goes on as over the whole, up to the turn that the cut falls in. -/
theorem StopsAt.loop_cut {e : Nat} {bs : List CompressedBlock} (h : StopsAt data e w bs) : ∀ {n : Nat}, Totals w →
    w.offset ≤ k → k < e → k - w.offset < n →
    (Boundary k w bs → loop (walkTurn (data.take k) true) n w = .ok (bs.filter fun b => blockEnd b ≤ k)) ∧
      (¬ Boundary k w bs → ∃ err, loop (walkTurn (data.take k) true) n w = .error (.err err)) := by
  induction h with
  | @mark w word hword hzero hend hlen hturn =>
    intro n hw hle hlt hn
    obtain ⟨n, rfl⟩ := Nat.exists_eq_succ_of_ne_zero (by omega : n ≠ 0)
    by_cases hhere : k = w.offset
    · subst hhere
      have hcut : (data.take w.offset).length = w.offset := List.length_take_of_le (by omega)
      refine ⟨fun _ => ?_, fun hno => absurd (.inl rfl) hno⟩
      rw [loop_done (walkTurn_here hcut), StopsAt.filter_here (.mark hword hzero hend hlen hturn) hw]
    · obtain ⟨err, herr⟩ := walkTurn_short hturn (.inl ⟨rfl, hend⟩) (by omega) hlt (by omega)
      refine ⟨fun hb => ?_, fun _ => ⟨err, loop_error herr⟩⟩
      obtain hb | ⟨b, hb, hgt, -⟩ := hb
      · exact absurd hb hhere
      · exact absurd (hw.ends_le b hb) (Nat.not_le_of_lt hgt)
  | @next w w' bs hturn hrest ih =>
    intro n hw hle hlt hn
    obtain ⟨n, rfl⟩ := Nat.exists_eq_succ_of_ne_zero (by omega : n ≠ 0)
    obtain ⟨size, b, hb⟩ := walkTurn_takes hturn
    obtain ⟨-, hlen, rest, hbs, hrest'⟩ := hrest.blocks
    have hoffset : w'.offset = w.offset + 4 + size := by rw [hb.next]
    have hblocks : w'.blocks = w.blocks ++ [b] := by rw [hb.next]
    have hmem : b ∈ bs := by rw [hbs, hblocks]; simp
    by_cases hhere : k = w.offset
    · subst hhere
      have hcut : (data.take w.offset).length = w.offset := List.length_take_of_le (by omega)
      refine ⟨fun _ => ?_, fun hno => absurd (.inl rfl) hno⟩
      rw [loop_done (walkTurn_here hcut), StopsAt.filter_here (.next hturn hrest) hw]
    · by_cases hin : w'.offset ≤ k
      · rw [loop_next (walkTurn_take hturn hw hin (by omega)), hb.boundary hmem hin]
        exact ih (hb.totals hw) hin hlt (by omega)
      · obtain ⟨err, herr⟩ := walkTurn_short hturn (.inr ⟨w', rfl, rfl⟩) (by omega) (Nat.lt_of_not_le hin) (by omega)
        refine ⟨fun hno => ?_, fun _ => ⟨err, loop_error herr⟩⟩
        obtain hno | ⟨c, hc, hgt, hck⟩ := hno
        · exact absurd hno hhere
        · rw [hbs, hblocks] at hc
          rcases List.mem_append.mp hc with hc | hc
          · rcases List.mem_append.mp hc with hc | hc
            · exact absurd (hw.ends_le c hc) (Nat.not_le_of_lt hgt)
            · have := hb.blockEnd_eq
              rw [List.mem_singleton.mp hc] at hck
              omega
          · have := hrest' c hc
            omega

/-! ## The frame descriptor over cut data -/

theorem isFramed_take (hk : 4 ≤ k) : isFramed (data.take k) = isFramed data := by
  unfold isFramed
  rw [List.take_take, Nat.min_eq_left hk, List.length_take]
  simp only [decide_eq_decide, ge_iff_le]
  constructor <;> intro h <;> exact ⟨by omega, h.2⟩

theorem parseFrameHeader_of_magic (h : isFramed data = true) : parseFrameHeader data = (do
    failIf (data.length < 7)
      (.invalidData data.length "truncated lz4 frame header. Fix: use a complete LZ4 stream")
    let flg ← index data 4
    failIf (flg &&& 0xC0 ≠ 0x40)
      (.invalidData 4 "unsupported LZ4 frame version. Fix: use LZ4 frame version 1")
    let pos := 6
    let pos := if flg &&& 0x08 ≠ 0 then pos + 8 else pos
    let pos := if flg &&& 0x01 ≠ 0 then pos + 1 else pos
    failIf (pos ≥ data.length)
      (.invalidData pos "truncated lz4 frame descriptor. Fix: use a complete LZ4 stream")
    pure (pos + 1)) := by
  have h' : data.length ≥ 4 ∧ data.take 4 = lz4FrameMagic := of_decide_eq_true h
  unfold parseFrameHeader
  rw [if_neg (List.ne_nil_of_length_pos (by omega)), if_neg ?_]
  rintro (hlt | hne)
  · omega
  · exact hne h'.2

theorem parseFrameHeader_take {start : Nat} (hframed : isFramed data = true) (h : parseFrameHeader data = .ok start)
    (hk : 4 ≤ k) (hlen : k ≤ data.length) :
    7 ≤ start ∧ (start ≤ k → parseFrameHeader (data.take k) = .ok start) ∧
      (k < start → ∃ e, parseFrameHeader (data.take k) = .error (.err e)) := by
  have hcut : (data.take k).length = k := List.length_take_of_le hlen
  rw [parseFrameHeader_of_magic hframed] at h
  rw [parseFrameHeader_of_magic (by rw [isFramed_take hk]; exact hframed), hcut]
  obtain ⟨_, -, h⟩ := Run.bind_eq_ok.mp h
  obtain ⟨flg, hflg, h⟩ := Run.bind_eq_ok.mp h
  obtain ⟨_, hversion, h⟩ := Run.bind_eq_ok.mp h
  obtain ⟨_, -, h⟩ := Run.bind_eq_ok.mp h
  have hstart := Except.ok.inj h
  have hstart7 : 7 ≤ start := by
    rw [← hstart]
    split <;> split <;> omega
  refine ⟨hstart7, fun hle => ?_, fun hlt => ?_⟩
  · rw [failIf_false _ (by omega), Run.ok_bind, index_take (by omega), hflg, Run.ok_bind, hversion, Run.ok_bind]
    dsimp only at hstart ⊢
    rw [failIf_false _ (by omega), Run.ok_bind, hstart]
    rfl
  · by_cases h7 : k < 7
    · rw [failIf_true _ h7]
      exact ⟨_, rfl⟩
    · rw [failIf_false _ h7, Run.ok_bind, index_take (by omega), hflg, Run.ok_bind, hversion, Run.ok_bind]
      dsimp only at hstart ⊢
      rw [failIf_true _ (by omega)]
      exact ⟨_, rfl⟩

/-- **A cut frame** is the blocks before the cut when the cut ends the descriptor or a block,
and an error when it does not. -/
theorem parseLz4Blocks_take {start e : Nat} {bs : List CompressedBlock} (hframed : isFramed data = true)
    (hstart : parseFrameHeader data = .ok start) (hstops : StopsAt data e ⟨start, [], 0⟩ bs) (hk : 4 ≤ k) (hlt : k < e) :
    parseLz4Blocks data = .ok bs ∧ (∀ bs', parseLz4Blocks (data.take k) = .ok bs' ↔
        (k = start ∨ ∃ b ∈ bs, blockEnd b = k) ∧ bs' = bs.filter fun b => blockEnd b ≤ k) ∧
      (¬ (k = start ∨ ∃ b ∈ bs, blockEnd b = k) → ∃ err, parseLz4Blocks (data.take k) = .error (.err err)) := by
  obtain ⟨hmark, hlen, rest, hbs, hrest⟩ := hstops.blocks
  obtain ⟨hstart7, hin, hout⟩ := parseFrameHeader_take hframed hstart hk (by omega : k ≤ data.length)
  have hne : data.take k ≠ [] := List.ne_nil_of_length_pos (by rw [List.length_take]; omega)
  have hafter : ∀ b ∈ bs, start < blockEnd b := fun b hb => hrest b (by rw [hbs] at hb; exact hb)
  have hwhole : parseLz4Blocks data = .ok bs := by
    unfold parseLz4Blocks
    rw [if_neg (List.ne_nil_of_length_pos (by omega)), hstart, Run.ok_bind, hframed]
    exact hstops.runs (by simp only; omega)
  refine ⟨hwhole, ?_⟩
  unfold parseLz4Blocks
  rw [if_neg hne, isFramed_take hk, hframed]
  by_cases hle : start ≤ k
  · rw [hin hle, Run.ok_bind, List.length_take_of_le (by omega)]
    obtain ⟨hyes, hno⟩ := hstops.loop_cut (k := k) (n := k + 1) (Totals.start start) hle hlt (by simp only; omega)
    have hboundary : Boundary k ⟨start, [], 0⟩ bs ↔ k = start ∨ ∃ b ∈ bs, blockEnd b = k :=
      or_congr_right ⟨fun ⟨b, hb, _, hbk⟩ => ⟨b, hb, hbk⟩, fun ⟨b, hb, hbk⟩ => ⟨b, hb, hafter b hb, hbk⟩⟩
    rw [hboundary] at hyes hno
    refine ⟨fun bs' => ⟨fun hok' => ?_, fun ⟨hcut, hbs'⟩ => by rw [hyes hcut, hbs']⟩, hno⟩
    by_cases hcut : k = start ∨ ∃ b ∈ bs, blockEnd b = k
    · rw [hyes hcut] at hok'
      exact ⟨hcut, (Except.ok.inj hok').symm⟩
    · obtain ⟨err, herr⟩ := hno hcut
      rw [herr] at hok'
      cases hok'
  · obtain ⟨err, herr⟩ := hout (Nat.lt_of_not_le hle)
    rw [herr, Run.error_bind]
    refine ⟨fun bs' => ⟨(fun hok' => nomatch hok'), ?_⟩, fun _ => ⟨err, rfl⟩⟩
    rintro ⟨hcut | ⟨b, hb, hcut⟩, -⟩
    · omega
    · have := hafter b hb
      omega

end

/-- A frame of two stored blocks, `"a"` and `"bc"`. -/
def twoStored : Bytes :=
  [0x04, 0x22, 0x4D, 0x18, 0x40, 0, 0, 1, 0, 0, 0x80, 97, 2, 0, 0, 0x80, 98, 99, 0, 0, 0, 0]

theorem parseLz4Blocks_take_twoStored :
    parseLz4Blocks (twoStored.take 12) = .ok [⟨7, 1, none, [97]⟩] ∧
      ∃ err, parseLz4Blocks (twoStored.take 20) = .error (.err err) := by
  have hturn : walkTurn twoStored true ⟨18, [⟨7, 1, none, [97]⟩, ⟨12, 2, none, [98, 99]⟩], 3⟩ =
      .ok (.done [⟨7, 1, none, [97]⟩, ⟨12, 2, none, [98, 99]⟩]) := rfl
  have hstops : StopsAt twoStored 22 ⟨7, [], 0⟩ [⟨7, 1, none, [97]⟩, ⟨12, 2, none, [98, 99]⟩] :=
    .next (by rfl) (.next (by rfl) (.mark (by rfl) (by decide) rfl (by decide) hturn))
  constructor
  · exact ((parseLz4Blocks_take rfl rfl hstops (by decide) (by decide)).2.1 _).mpr (by decide)
  · exact (parseLz4Blocks_take rfl rfl hstops (by decide) (by decide)).2.2 (by decide)

end Ziftsieve.Lz4
