import Ziftsieve.SnappySound
import Mathlib.Data.List.Forall2

/-!
# The byte spans of Snappy blocks

A block is flushed while the loop stands before the body of the chunk that fills
it, and the next block starts there. The spans are in order, but the chunk that
fills a block is in the next block's span and not in its own.
-/

namespace Ziftsieve.Snappy

/-! ## Chunks in place -/

/-- A chunk that carries literals, and where its body stands. -/
structure Carrier where
  start : Nat
  stop : Nat
  literals : Bytes
  carries : literals ≠ []

/-- A chunk with nothing to carry is no carrier. -/
def Carrier.push (start stop : Nat) (p : Bytes) (cs : List Carrier) : List Carrier :=
  if h : p = [] then cs else ⟨start, stop, p, h⟩ :: cs

/-- The plain walk from byte `pos` on, which keeps the places of the chunks that carry literals. -/
def carriers (ext : External) (pos : Nat) (data : Bytes) : Option (List Carrier) :=
  match data with
  | [] => some []
  | chunkType :: b0 :: b1 :: b2 :: rest =>
    if rest.length < fromLe [b0, b1, b2] then none
    else
      (payload ext chunkType (rest.take (fromLe [b0, b1, b2]))).bind fun p =>
        (carriers ext (pos + 4 + fromLe [b0, b1, b2]) (rest.drop (fromLe [b0, b1, b2]))).map
          (Carrier.push (pos + 4) (pos + 4 + fromLe [b0, b1, b2]) p)
  | _ => none
termination_by data.length
decreasing_by simp only [List.length_drop, List.length_cons]; omega

/-- The blocks' literals are those of the groups, which are all the carriers in order. -/
def Attributes (cs : List Carrier) (bs : List CompressedBlock) (gs : List (List Carrier)) : Prop :=
  gs.flatten = cs ∧ List.Forall₂ (fun b g => b.literals = g.flatMap Carrier.literals) bs gs

/-- The chunk's body is in the block's span. -/
structure Inside (b : CompressedBlock) (c : Carrier) : Prop where
  start : b.compressedOffset ≤ c.start
  stop : c.stop ≤ b.compressedOffset + b.compressedLen

structure Before (b c : CompressedBlock) : Prop where
  lt : b.compressedOffset < c.compressedOffset
  stop : b.compressedOffset + b.compressedLen ≤ c.compressedOffset

/-- The spans are in order, apart, and each has all the chunks of its block inside. -/
structure SpansHold (bs : List CompressedBlock) (gs : List (List Carrier)) : Prop where
  ordered : bs.Pairwise Before
  inside : List.Forall₂ (fun b g => ∀ c ∈ g, Inside b c) bs gs

/-- All literals together fill no block, and no chunk that carries some ends beyond what a span can count. -/
structure Fits (data : Bytes) (cs : List Carrier) : Prop where
  small : (cs.flatMap Carrier.literals).length ≤ 32 * 1024
  near : ∀ c ∈ cs, c.stop ≤ (start data).pos + (2 ^ 32 - 1)

section
variable {ext : External} {data rest : Bytes}

theorem Carrier.push_nil (start stop : Nat) (cs : List Carrier) : push start stop [] cs = cs := by
  unfold push
  rw [dif_pos rfl]

theorem Carrier.push_append (start stop : Nat) (p : Bytes) (cs : List Carrier) :
    push start stop p cs = push start stop p [] ++ cs := by
  unfold push
  by_cases h : p = []
  · rw [dif_pos h, dif_pos h, List.nil_append]
  · rw [dif_neg h, dif_neg h, List.singleton_append]

theorem Carrier.push_literals (start stop : Nat) (p : Bytes) : (push start stop p []).flatMap literals = p := by
  unfold push
  by_cases h : p = []
  · rw [dif_pos h, h]
    rfl
  · rw [dif_neg h, List.flatMap_singleton]

theorem carriers_nil (ext : External) (pos : Nat) : carriers ext pos [] = some [] := by rw [carriers]

theorem carriers_chunk {c : Chunk} {p : Bytes} (pos : Nat) (hp : payload ext c.chunkType c.body = some p) :
    carriers ext pos (c.encode ++ rest) = (carriers ext (pos + 4 + c.body.length) rest).map
      (Carrier.push (pos + 4) (pos + 4 + c.body.length) p) := by
  have hfrom : fromLe (toLe 3 c.body.length) = c.body.length := fromLe_toLe 3 _ c.length_lt
  rw [c.encode_append]
  simp only [toLe, List.cons_append, List.nil_append] at hfrom ⊢
  rw [carriers, hfrom, if_neg (by rw [List.length_append]; omega), List.take_left, List.drop_left, hp, Option.bind_some]

theorem carriers_identifier (h : streamIdentifier <+: data) : carriers ext 0 data = carriers ext 10 (data.drop 10) := by
  obtain ⟨rest, rfl⟩ := h
  have hid : streamIdentifier ++ rest = (Chunk.mk 0xff sNaPpY (by decide)).encode ++ rest := rfl
  rw [hid, carriers_chunk (p := []) 0 rfl]
  have hpush : Carrier.push (0 + 4) (0 + 4 + sNaPpY.length) [] = id := by
    funext cs
    exact Carrier.push_nil _ _ cs
  simp only [hpush, Option.map_id]
  rfl

theorem carriers_start (ext : External) (data : Bytes) :
    carriers ext 0 data = carriers ext (start data).pos (data.drop (start data).pos) := by
  unfold start
  by_cases h : streamIdentifier <+: data
  · simp only [if_pos h]
    exact carriers_identifier h
  · simp only [if_neg h, List.drop_zero]

/-! ## Groups are determined -/

theorem flatMap_literals_eq_nil {cs : List Carrier} (h : cs.flatMap Carrier.literals = []) : cs = [] := by
  cases cs with
  | nil => rfl
  | cons c cs =>
    rw [List.flatMap_cons, List.append_eq_nil_iff] at h
    exact absurd h.1 c.carries

theorem Attributes.unique {bs : List CompressedBlock} : ∀ {cs : List Carrier} {gs gs' : List (List Carrier)},
    Attributes cs bs gs → Attributes cs bs gs' → gs = gs' := by
  induction bs with
  | nil =>
    rintro cs gs gs' ⟨-, h⟩ ⟨-, h'⟩
    cases h
    cases h'
    rfl
  | cons b bs ih =>
    rintro cs _ _ ⟨rfl, h⟩ ⟨hflat, h'⟩
    obtain ⟨g, gs, hg, hgs, rfl⟩ := List.forall₂_cons_left_iff.mp h
    obtain ⟨g', gs', hg', hgs', rfl⟩ := List.forall₂_cons_left_iff.mp h'
    rw [List.flatten_cons, List.flatten_cons] at hflat
    -- the groups of the first block start alike, and what one has more carries nothing
    have heq : g = g' := by
      rcases List.append_eq_append_iff.mp hflat with ⟨more, rfl, -⟩ | ⟨more, rfl, -⟩
      · rw [hg', List.flatMap_append] at hg
        rw [flatMap_literals_eq_nil (List.append_right_eq_self.mp hg.symm), List.append_nil]
      · rw [hg, List.flatMap_append] at hg'
        rw [flatMap_literals_eq_nil (List.append_right_eq_self.mp hg'.symm), List.append_nil]
    subst heq
    rw [ih ⟨rfl, hgs⟩ ⟨List.append_cancel_left hflat, hgs'⟩]

/-! ## The carriers in the data -/

theorem Carrier.mem_push {start stop : Nat} {p : Bytes} {cs : List Carrier} {c : Carrier} (h : c ∈ push start stop p cs) :
    (c.start = start ∧ c.stop = stop) ∨ c ∈ cs := by
  unfold push at h
  by_cases hp : p = []
  · rw [dif_pos hp] at h
    exact .inr h
  · rw [dif_neg hp] at h
    rcases List.mem_cons.mp h with rfl | h
    · exact .inl ⟨rfl, rfl⟩
    · exact .inr h

/-! ## One chunk -/

/-- The carriers whose literals are in the buffer. -/
structure Pending (s : Chunks) (pend : List Carrier) : Prop where
  literals_eq : s.currentLiterals = pend.flatMap Carrier.literals
  small : s.currentLiterals.length ≤ 32 * 1024
  start_le : s.blockStart ≤ s.pos

/-- A block that a chunk has filled: the chunk is beyond its span. -/
structure Outgrows (b : CompressedBlock) (g : List Carrier) : Prop where
  literals_eq : b.literals = g.flatMap Carrier.literals
  large : 32 * 1024 < b.literals.length
  missed : ∃ c ∈ g, b.compressedOffset + b.compressedLen < c.stop

theorem toU32_le (n : Nat) : toU32 n ≤ n := by
  unfold toU32
  split <;> omega

theorem Handles.body_pos {chunkType : UInt8} {body p : Bytes} (h : Handles ext chunkType body p) (hp : p ≠ []) :
    0 < body.length := by
  by_cases h0 : chunkType = 0x00
  · have := (h.compressed h0).1
    omega
  by_cases h1 : chunkType = 0x01
  · have := h.uncompressed h1
    omega
  have hpayload := h.payload_eq
  unfold payload at hpayload
  rw [if_neg h0, if_neg h1] at hpayload
  by_cases hskip : chunkType = 0xfe ∨ chunkType = 0xff
  · rw [if_pos hskip] at hpayload
    exact absurd (Option.some.inj hpayload).symm hp
  · rw [if_neg hskip] at hpayload
    cases hpayload

variable {s : Chunks} {pend : List Carrier}

/-- A chunk goes to the buffer, or fills a block and is flushed with it. -/
theorem Pending.after (hs : Pending s pend) {c : Chunk} {out p : Bytes} (hp : Handles ext c.chunkType c.body p)
    (hout : out = s.currentLiterals ++ p) :
    ((s.after c.body.length out).blocks = s.blocks ∧ (s.after c.body.length out).blockStart = s.blockStart ∧
        Pending (s.after c.body.length out) (pend ++ Carrier.push (s.pos + 4) (s.pos + 4 + c.body.length) p [])) ∨
      ∃ b, (s.after c.body.length out).blocks = s.blocks ++ [b] ∧
        Outgrows b (pend ++ Carrier.push (s.pos + 4) (s.pos + 4 + c.body.length) p []) ∧
          Pending (s.after c.body.length out) [] := by
  have hle := hs.start_le
  have hlits : out = (pend ++ Carrier.push (s.pos + 4) (s.pos + 4 + c.body.length) p []).flatMap Carrier.literals := by
    rw [hout, List.flatMap_append, Carrier.push_literals, hs.literals_eq]
  unfold Chunks.after
  by_cases hflush : out.length > 32 * 1024
  · have hsmall := hs.small
    have hne : p ≠ [] := by
      rintro rfl
      rw [List.append_nil] at hout
      rw [hout] at hflush
      omega
    have hbody := hp.body_pos hne
    have hspan := toU32_le (s.pos + 4 - s.blockStart)
    rw [if_pos hflush]
    refine .inr ⟨_, rfl, ⟨hlits, hflush, ?_⟩, ⟨rfl, Nat.zero_le _, by simp only; omega⟩⟩
    refine ⟨⟨s.pos + 4, s.pos + 4 + c.body.length, p, hne⟩, ?_, by simp only; omega⟩
    unfold Carrier.push
    rw [dif_neg hne]
    exact List.mem_append_right _ (List.mem_singleton_self _)
  · rw [if_neg hflush]
    exact .inl ⟨rfl, rfl, hlits, Nat.le_of_not_lt hflush, by simp only; omega⟩

/-! ## Runs -/

/-- What a run to the end does with the carriers from the position on. -/
structure Gathers (ext : External) (data : Bytes) (s r : Chunks) (pend : List Carrier) (cs : List Carrier)
    (added : List CompressedBlock) (gs : List (List Carrier)) (pend' : List Carrier) : Prop where
  carriers_eq : carriers ext s.pos (data.drop s.pos) = some cs
  pos_eq : r.pos = data.length
  blocks_eq : r.blocks = s.blocks ++ added
  outgrow : List.Forall₂ Outgrows added gs
  flatten_eq : gs.flatten ++ pend' = pend ++ cs
  pending : Pending r pend'
  first : added = [] → r.blockStart = s.blockStart
  within : ∀ c ∈ cs, s.pos ≤ c.start ∧ c.stop ≤ data.length

theorem carriers_after {c : Chunk} {out p : Bytes} {cs : List Carrier} (hat : At data s.pos (c.encode ++ rest))
    (hp : Handles ext c.chunkType c.body p)
    (hcs : carriers ext (s.after c.body.length out).pos (data.drop (s.after c.body.length out).pos) = some cs) :
    carriers ext s.pos (data.drop s.pos) = some (Carrier.push (s.pos + 4) (s.pos + 4 + c.body.length) p cs) := by
  rw [(at_after hat out).drop, s.after_pos] at hcs
  rw [hat.drop, carriers_chunk s.pos hp.payload_eq, hcs]
  rfl

theorem within_after {c : Chunk} {out p : Bytes} {cs : List Carrier} (hat : At data s.pos (c.encode ++ rest))
    (hcs : ∀ d ∈ cs, (s.after c.body.length out).pos ≤ d.start ∧ d.stop ≤ data.length) :
    ∀ d ∈ Carrier.push (s.pos + 4) (s.pos + 4 + c.body.length) p cs, s.pos ≤ d.start ∧ d.stop ≤ data.length := by
  have hle := (at_after hat out).le
  rw [s.after_pos] at hle hcs
  intro d hd
  rcases Carrier.mem_push hd with ⟨hstart, hstop⟩ | hd
  · omega
  · have := hcs d hd
    omega

theorem run_gathers : ∀ {n : Nat} {s r : Chunks} {pend : List Carrier}, loop (chunkTurn ext data) n s = .ok r →
    Pending s pend → s.pos ≤ data.length → ∃ cs added gs pend', Gathers ext data s r pend cs added gs pend'
  | 0, _, _, _, h, _, _ => by cases h
  | n + 1, s, r, pend, h, hs, hpos => by
    rcases loop_ok_iff.mp h with hd | ⟨t, ht, hrun⟩
    · obtain ⟨hend, rfl⟩ := chunkTurn_done hd
      refine ⟨[], [], [], pend, ?_, Nat.le_antisymm hpos hend, (List.append_nil _).symm, .nil, (List.append_nil _).symm, hs,
        fun _ => rfl, fun _ hc => nomatch hc⟩
      rw [List.drop_eq_nil_of_le hend]
      exact carriers_nil ext _
    · rcases chunkTurn_cases ht with ⟨-, hd⟩ | ⟨c, rest, out, hat, hc, ht⟩
      · cases hd
      cases ht
      obtain ⟨p, hp, hout⟩ := handleSnappyChunk_eq_ok.mp hc.handled
      have hnext := at_after hat out
      rcases hs.after hp hout with ⟨hblocks, hstart, ht⟩ | ⟨b, hblocks, hb, ht⟩
      · obtain ⟨cs, added, gs, pend', hg⟩ := run_gathers hrun ht hnext.le
        refine ⟨_, added, gs, pend', carriers_after hat hp hg.carriers_eq, hg.pos_eq, ?_, hg.outgrow, ?_, hg.pending,
          fun hnone => ?_, within_after hat hg.within⟩
        · rw [hg.blocks_eq, hblocks]
        · rw [hg.flatten_eq, Carrier.push_append _ _ p cs, List.append_assoc]
        · rw [hg.first hnone, hstart]
      · obtain ⟨cs, added, gs, pend', hg⟩ := run_gathers hrun ht hnext.le
        refine ⟨_, b :: added, _ :: gs, pend', carriers_after hat hp hg.carriers_eq, hg.pos_eq, ?_, .cons hb hg.outgrow, ?_,
          hg.pending, (fun hnone => nomatch hnone), within_after hat hg.within⟩
        · rw [hg.blocks_eq, hblocks, List.append_assoc, List.singleton_append]
        · rw [List.flatten_cons, List.append_assoc, hg.flatten_eq, List.nil_append, Carrier.push_append _ _ p cs,
            List.append_assoc]

theorem start_pending (data : Bytes) : Pending (start data) [] := ⟨rfl, Nat.zero_le _, Nat.le_refl _⟩

section
variable {r : Chunks} {cs pend' : List Carrier} {added : List CompressedBlock} {gs : List (List Carrier)}

/-- A run that fills no block leaves all carriers in the buffer. -/
theorem Gathers.unflushed (h : Gathers ext data s r [] cs added gs pend') (hnil : added = []) : gs = [] ∧ pend' = cs := by
  have hflat := h.flatten_eq
  subst hnil
  cases h.outgrow
  exact ⟨rfl, hflat⟩

theorem Gathers.small_iff (h : Gathers ext data s r [] cs added gs pend') :
    (cs.flatMap Carrier.literals).length ≤ 32 * 1024 ↔ added = [] := by
  have hflat := h.flatten_eq
  have hsmall := h.pending.small
  rw [List.nil_append] at hflat
  rw [h.pending.literals_eq] at hsmall
  constructor
  · intro hle
    cases h.outgrow with
    | nil => rfl
    | cons hb _ =>
      have hlarge := hb.large
      rw [hb.literals_eq] at hlarge
      rw [← hflat, List.flatten_cons, List.append_assoc, List.flatMap_append, List.length_append] at hle
      omega
  · intro hnil
    rwa [← (h.unflushed hnil).2]

end

/-! ## The order of the spans -/

structure Ordered (s : Chunks) : Prop where
  pairwise : s.blocks.Pairwise Before
  before : ∀ b ∈ s.blocks, b.compressedOffset < s.blockStart ∧ b.compressedOffset + b.compressedLen ≤ s.blockStart
  start_le : s.blockStart ≤ s.pos

theorem Ordered.concat (h : Ordered s) {b : CompressedBlock} (hb : b.compressedOffset = s.blockStart) :
    (s.blocks ++ [b]).Pairwise Before := by
  refine List.pairwise_append.mpr ⟨h.pairwise, List.pairwise_singleton _ _, ?_⟩
  intro c hc d hd
  obtain ⟨hlt, hstop⟩ := h.before c hc
  rw [List.mem_singleton.mp hd]
  exact ⟨hb ▸ hlt, hb ▸ hstop⟩

theorem Ordered.after (h : Ordered s) (len : Nat) (out : Bytes) : Ordered (s.after len out) := by
  have hle := h.start_le
  have hspan := toU32_le (s.pos + 4 - s.blockStart)
  unfold Chunks.after
  by_cases hflush : out.length > 32 * 1024
  · rw [if_pos hflush]
    refine ⟨h.concat rfl, ?_, by simp only; omega⟩
    intro b hb
    rcases List.mem_append.mp hb with hb | hb
    · have := h.before b hb
      simp only
      omega
    · rw [List.mem_singleton.mp hb]
      simp only
      omega
  · rw [if_neg hflush]
    exact ⟨h.pairwise, h.before, by simp only; omega⟩

theorem run_ordered {n : Nat} {r : Chunks} (hs : Ordered s) (h : loop (chunkTurn ext data) n s = .ok r) : Ordered r := by
  refine loop_inv (I := Ordered) ?_ ?_ n s r hs h
  · intro s t hs ht
    rcases chunkTurn_cases ht with ⟨-, hd⟩ | ⟨c, _, out, -, -, ht⟩
    · cases hd
    · cases ht
      exact hs.after _ _
  · intro s r hs hd
    rw [(chunkTurn_done hd).2]
    exact hs

theorem start_ordered (data : Bytes) : Ordered (start data) := ⟨.nil, (fun _ hb => nomatch hb), Nat.le_refl _⟩

/-! ## The spans of the whole run -/

theorem Outgrows.not_inside {b : CompressedBlock} {g : List Carrier} (h : Outgrows b g) : ¬ ∀ c ∈ g, Inside b c := by
  obtain ⟨c, hc, hlt⟩ := h.missed
  intro hin
  exact Nat.not_le.mpr hlt (hin c hc).stop

theorem toU32_le_max (n : Nat) : toU32 n ≤ 2 ^ 32 - 1 := by
  unfold toU32
  split <;> omega

variable {r : Chunks} {cs pend' : List Carrier} {added bs : List CompressedBlock} {gs : List (List Carrier)}

theorem Gathers.literals (h : Gathers ext data s r [] cs added gs pend') :
    List.Forall₂ (fun b g => b.literals = g.flatMap Carrier.literals) added gs :=
  h.outgrow.imp fun _ _ hb => hb.literals_eq

theorem Gathers.added_eq_nil (h : Gathers ext data s r [] cs added gs pend') {last : List CompressedBlock}
    {g : List (List Carrier)} (hin : List.Forall₂ (fun b g => ∀ c ∈ g, Inside b c) (added ++ last) (gs ++ g)) :
    added = [] := by
  cases h.outgrow with
  | nil => rfl
  | cons hb _ =>
    cases hin with
    | cons hi _ => exact absurd hi hb.not_inside

/-- Nothing is left at the end of the run. -/
theorem Gathers.spans_flushed (h : Gathers ext data (start data) r [] cs added gs pend') (hpend : pend' = [])
    (hb : added.Pairwise Before) : Attributes cs added gs ∧ (SpansHold added gs ↔ Fits data cs) := by
  have hflat := h.flatten_eq
  rw [hpend, List.append_nil, List.nil_append] at hflat
  refine ⟨⟨hflat, h.literals⟩, ?_, ?_⟩
  · intro hspans
    have hin := hspans.inside
    rw [← List.append_nil added, ← List.append_nil gs] at hin
    have hnil := h.added_eq_nil hin
    obtain ⟨-, hcs⟩ := h.unflushed hnil
    refine ⟨h.small_iff.mpr hnil, ?_⟩
    rw [← hcs, hpend]
    exact fun _ hc => nomatch hc
  · intro hfits
    have hnil := h.small_iff.mp hfits.small
    obtain ⟨hgs, -⟩ := h.unflushed hnil
    refine ⟨hb, ?_⟩
    rw [hnil, hgs]
    exact .nil

/-- The rest of the literals is the last block. -/
theorem Gathers.spans_last (h : Gathers ext data (start data) r [] cs added gs pend') {b : CompressedBlock}
    (hoffset : b.compressedOffset = r.blockStart) (hlen : b.compressedLen = toU32 (r.pos - r.blockStart))
    (hlits : b.literals = pend'.flatMap Carrier.literals) (hb : (added ++ [b]).Pairwise Before) :
    Attributes cs (added ++ [b]) (gs ++ [pend']) ∧ (SpansHold (added ++ [b]) (gs ++ [pend']) ↔ Fits data cs) := by
  have hflat := h.flatten_eq
  rw [List.nil_append] at hflat
  refine ⟨⟨?_, List.rel_append h.literals (.cons hlits .nil)⟩, ?_, ?_⟩
  · rw [List.flatten_append, List.flatten_singleton, hflat]
  · intro hspans
    have hnil := h.added_eq_nil hspans.inside
    obtain ⟨hgs, hpend⟩ := h.unflushed hnil
    have hin := hspans.inside
    rw [hnil, hgs, hpend] at hin
    have hmax := toU32_le_max (r.pos - r.blockStart)
    have hstart : r.blockStart = (start data).pos := h.first hnil
    refine ⟨h.small_iff.mpr hnil, ?_⟩
    intro c hc
    have hstop := ((List.forall₂_cons.mp hin).1 c hc).stop
    omega
  · intro hfits
    have hnil := h.small_iff.mp hfits.small
    obtain ⟨hgs, hpend⟩ := h.unflushed hnil
    have hstart : r.blockStart = (start data).pos := h.first hnil
    have hpos := h.pos_eq
    refine ⟨hb, ?_⟩
    rw [hnil, hgs, hpend]
    refine .cons (fun c hc => ?_) .nil
    obtain ⟨hlo, hhi⟩ := h.within c hc
    have hnear := hfits.near c hc
    refine ⟨by omega, ?_⟩
    rw [hlen, hoffset]
    unfold toU32
    split <;> omega

theorem extractLiterals_spans_iff (ext : External) (data : Bytes) (bs : List CompressedBlock)
    (h : extractLiterals ext data = .ok bs) :
    ∃ cs gs, carriers ext 0 data = some cs ∧ Attributes cs bs gs ∧ (∀ gs', Attributes cs bs gs' → gs' = gs) ∧
      bs.Pairwise Before ∧ (SpansHold bs gs ↔ Fits data cs) := by
  obtain ⟨r, hrun, hlast⟩ := extractLiterals_inv h
  obtain ⟨cs, added, gs, pend', hg⟩ := run_gathers hrun (start_pending data) (start_pos_le data)
  have hord := run_ordered (start_ordered data) hrun
  have hcs : carriers ext 0 data = some cs := by
    rw [carriers_start]
    exact hg.carriers_eq
  have hadded : r.blocks = added := hg.blocks_eq
  have hlits := hg.pending.literals_eq
  rcases hlast with ⟨hnone, rfl⟩ | ⟨-, n, hb⟩
  · rw [hnone] at hlits
    have hpair := hord.pairwise
    rw [hadded] at hpair ⊢
    obtain ⟨hat, hiff⟩ := hg.spans_flushed (flatMap_literals_eq_nil hlits.symm) hpair
    exact ⟨cs, gs, hcs, hat, fun _ hgs => hgs.unique hat, hpair, hiff⟩
  · obtain ⟨-, heq⟩ := flushBlock_eq_ok.mp hb
    obtain ⟨rfl, -⟩ := Prod.mk.inj heq
    have hpair := hord.concat (b := ⟨r.blockStart, toU32 (r.pos - r.blockStart), some (toU32 r.currentLiterals.length),
      r.currentLiterals⟩) rfl
    rw [hadded] at hpair ⊢
    obtain ⟨hat, hiff⟩ := hg.spans_last rfl rfl hlits hpair
    exact ⟨cs, gs ++ [pend'], hcs, hat, fun _ hgs => hgs.unique hat, hpair, hiff⟩

theorem extractLiterals_spans_ab : ∃ cs gs, carriers decodesA 0
    [0x00, 7, 0, 0, 0, 0, 0, 0, 0x01, 0x00, 0x61, 0xfe, 1, 0, 0, 0, 0x01, 5, 0, 0, 0, 0, 0, 0, 0x62] = some cs ∧
      Attributes cs [⟨0, 25, some 2, [0x61, 0x62]⟩] gs ∧
        (∀ gs', Attributes cs [⟨0, 25, some 2, [0x61, 0x62]⟩] gs' → gs' = gs) ∧
          [(⟨0, 25, some 2, [0x61, 0x62]⟩ : CompressedBlock)].Pairwise Before ∧
            (SpansHold [⟨0, 25, some 2, [0x61, 0x62]⟩] gs ↔
              Fits [0x00, 7, 0, 0, 0, 0, 0, 0, 0x01, 0x00, 0x61, 0xfe, 1, 0, 0, 0, 0x01, 5, 0, 0, 0, 0, 0, 0, 0x62] cs) :=
  extractLiterals_spans_iff decodesA _ _ (by decide)

/-! ## A chunk that fills a block -/

/-- The block of a stream of one large chunk holds the chunk's header and nothing of its body. -/
theorem extractLiterals_large (ext : External) {c : RawChunk} (hlarge : 32 * 1024 < c.data.length)
    (hsize : c.data.length ≤ 65532) :
    extractLiterals ext (encodeStream [c]) = .ok [⟨10, 4, some c.data.length, c.data⟩] := by
  have hat := encodeStream_at [c]
  have hstart := start_encodeStream [c]
  have hlen := c.length_body
  have hlenStream : (encodeStream [c]).length = 10 + (encodeChunks [c]).length := List.length_append
  have hdata : encodeStream [c] ≠ [] := by
    intro h
    rw [h, List.length_nil] at hlenStream
    omega
  unfold encodeChunks at hat
  rw [List.flatMap_cons] at hat
  have hadmits := admits_raw ext c hat (by unfold maxChunkSize; omega) (by rw [hstart]; decide) (by rw [hstart]; simp)
    (by rw [hstart]; unfold maxTotalLiterals; simp; omega)
  have hturn := (chunkTurn_eq_ok c.chunk (by rw [c.encode_chunk]; exact hat)).mpr ⟨_, hadmits, rfl⟩
  have h32 : toU32 c.data.length = c.data.length := toU32_eq (by omega)
  have hafter : (start (encodeStream [c])).after c.body.length ((start (encodeStream [c])).currentLiterals ++ c.data) =
      ⟨10 + 4 + c.body.length, [⟨10, 4, some c.data.length, c.data⟩], 1, c.data.length, [], 14⟩ := by
    rw [hstart]
    unfold Chunks.after
    rw [if_pos (by simpa using hlarge)]
    simp only [List.nil_append, h32, Nat.zero_add]
    rfl
  have hbody : c.chunk.body = c.body := rfl
  rw [hbody, hafter] at hturn
  have hend := hat.skip
  rw [← c.encode_chunk, c.chunk.length_encode, hbody, ← Nat.add_assoc, hstart] at hend
  obtain ⟨n, hn⟩ : ∃ n, (encodeStream [c]).length = n + 1 := ⟨_, (Nat.sub_add_cancel (by omega)).symm⟩
  unfold extractLiterals
  rw [if_neg hdata]
  change (loop (chunkTurn ext (encodeStream [c])) ((encodeStream [c]).length + 1) (start (encodeStream [c])) >>= _) = _
  rw [hn, loop_next hturn, loop_done (chunkTurn_end ext hend)]
  rfl

theorem carriers_large (ext : External) (c : RawChunk) : carriers ext 0 (encodeStream [c]) =
    some (Carrier.push 14 (14 + c.body.length) c.data []) := by
  have hat := encodeStream_at [c]
  rw [carriers_start, hat.drop, start_encodeStream]
  unfold encodeChunks
  rw [List.flatMap_cons, List.flatMap_nil, ← c.encode_chunk, carriers_chunk 10 (c.payload_body ext), carriers_nil]
  rfl

theorem large_not_spans (ext : External) (c : RawChunk) : ∃ cs gs, carriers ext 0 (encodeStream [c]) = some cs ∧
    Attributes cs [⟨10, 4, some c.data.length, c.data⟩] gs ∧ ¬ SpansHold [⟨10, 4, some c.data.length, c.data⟩] gs := by
  have hcs := carriers_large ext c
  have hlits := Carrier.push_literals 14 (14 + c.body.length) c.data
  refine ⟨_, _, hcs, ⟨List.flatten_singleton, .cons hlits.symm .nil⟩, ?_⟩
  intro hspans
  unfold Carrier.push at hspans
  rw [dif_neg (List.ne_nil_of_length_pos c.data_pos)] at hspans
  -- the body ends behind the four bytes of the header
  have hin := (List.forall₂_cons.mp hspans.inside).1 _ (List.mem_singleton_self _)
  have hstop : 14 + c.body.length ≤ 10 + 4 := hin.stop
  rw [c.length_body] at hstop
  omega

end

/-- One byte more than a block is filled with, and its masked CRC-32C. -/
def filling : RawChunk := ⟨0x3555e848, List.replicate 32769 0x61, by rw [List.length_replicate]; omega,
  by rw [List.length_replicate]; omega⟩

theorem extractLiterals_spans_filling : extractLiterals decodesA (encodeStream [filling]) =
    .ok [⟨10, 4, some filling.data.length, filling.data⟩] ∧ ∃ cs gs, carriers decodesA 0 (encodeStream [filling]) = some cs ∧
      Attributes cs [⟨10, 4, some filling.data.length, filling.data⟩] gs ∧
        ¬ SpansHold [⟨10, 4, some filling.data.length, filling.data⟩] gs := by
  have hlen : filling.data.length = 32769 := List.length_replicate
  exact ⟨extractLiterals_large decodesA (by omega) (by omega), large_not_spans decodesA filling⟩

end Ziftsieve.Snappy
