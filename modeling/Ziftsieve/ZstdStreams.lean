import Ziftsieve.ZstdWalkSound

/-!
# Skippable frames, trailing bytes and cuts

No encoding of a frame is the start of another, so a stream is read in one way
only. The header parser counts its turns and not the frames it skips, and takes
whatever starts no frame for the end: streams with a run of three skippable
frames are rejected, and bytes after the last frame are dropped.
-/

namespace Ziftsieve.Zstd

/-! ## One reading -/

section
variable {ys zs : Bytes}

theorem FrameBlock.encode_unique {last last' : Bool} {b b' : FrameBlock}
    (h : b.encode last ++ ys = b'.encode last' ++ zs) : last = last' ∧ ys = zs := by
  have hat := At.start (b.encode last ++ ys)
  have hleft := parseBlock_ok last b hat
  rw [h] at hat hleft
  rw [parseBlock_ok last' b' hat] at hleft
  obtain ⟨-, hlast, hpos⟩ := ParsedBlock.mk.inj (Except.ok.inj hleft)
  exact ⟨hlast.symm, (List.append_inj h (by omega)).2⟩

theorem encodeBlocks_unique {last last' : FrameBlock} : ∀ {init init' : List FrameBlock},
    Frame.encodeBlocks init last ++ ys = Frame.encodeBlocks init' last' ++ zs → ys = zs
  | [], [], h => (FrameBlock.encode_unique h).2
  | [], b' :: init', h => by
    rw [encodeBlocks_cons, List.append_assoc] at h
    have hlast : true = false := (FrameBlock.encode_unique h).1
    cases hlast
  | b :: init, [], h => by
    rw [encodeBlocks_cons, List.append_assoc] at h
    have hlast : false = true := (FrameBlock.encode_unique h).1
    cases hlast
  | b :: init, b' :: init', h => by
    rw [encodeBlocks_cons, encodeBlocks_cons, List.append_assoc, List.append_assoc] at h
    exact encodeBlocks_unique (FrameBlock.encode_unique h).2

theorem Descriptor.encode_unique {d d' : Descriptor} (h : d.encode ++ ys = d'.encode ++ zs) :
    (d.desc &&& 0x04 ≠ 0 ↔ d'.desc &&& 0x04 ≠ 0) ∧ ys = zs := by
  have hat := At.start (d.encode ++ ys)
  have hleft := parseStandardFrameHeader_ok d hat
  rw [h] at hat hleft
  rw [parseStandardFrameHeader_ok d' hat] at hleft
  obtain ⟨hflag, hpos⟩ := Prod.mk.inj (Except.ok.inj hleft)
  have hiff := decide_eq_decide.mp (FrameHeader.mk.inj hflag)
  exact ⟨hiff.symm, (List.append_inj h (by omega)).2⟩

theorem Frame.encode_unique {f f' : Frame} (h : f.encode ++ ys = f'.encode ++ zs) : ys = zs := by
  unfold Frame.encode at h
  rw [List.append_assoc, List.append_assoc, List.append_assoc, List.append_assoc] at h
  obtain ⟨hflag, h⟩ := Descriptor.encode_unique h
  have hsum := encodeBlocks_unique h
  refine (List.append_inj hsum ?_).2
  rw [f.checksum_length, f'.checksum_length]
  exact ite_congr (propext hflag) (fun _ => rfl) fun _ => rfl

theorem Skippable.encode_unique {k k' : Skippable} (h : k.encode ++ ys = k'.encode ++ zs) : ys = zs := by
  have hlen : k.content.length = k'.content.length := by
    unfold Skippable.encode at h
    simp only [List.cons_append, List.append_assoc] at h
    obtain ⟨hsize, -⟩ := List.append_inj (List.cons.inj (List.cons.inj (List.cons.inj (List.cons.inj h).2).2).2).2
      (by rw [length_toLe, length_toLe])
    have hleft := fromLe_toLe 4 k.content.length k.length_lt
    rwa [hsize, fromLe_toLe 4 k'.content.length k'.length_lt, eq_comm] at hleft
  exact (List.append_inj h (by rw [k.length_encode, k'.length_encode, hlen])).2

theorem startsFrame_skip (k : Skippable) (ys : Bytes) : startsFrame (k.encode ++ ys) = true :=
  decide_eq_true (.inr ⟨k.kind_mem.1, k.kind_mem.2, rfl, rfl, rfl⟩)

theorem startsFrame_frame (f : Frame) (ys : Bytes) : startsFrame (f.encode ++ ys) = true := by
  unfold startsFrame
  exact decide_eq_true (.inl rfl)

theorem skip_ne_frame (k : Skippable) (f : Frame) : k.encode ++ ys ≠ f.encode ++ zs := by
  intro h
  cases (List.cons.inj (List.cons.inj h).2).1

/-- No skippable frame stands here. -/
def NoSkip (ys : Bytes) : Prop := ∀ (k : Skippable) (rest : Bytes), ys ≠ k.encode ++ rest

theorem NoSkip.frame (f : Frame) (ys : Bytes) : NoSkip (f.encode ++ ys) := fun k _ h => skip_ne_frame k f h.symm

theorem NoSkip.of_startsFrame (h : startsFrame ys = false) : NoSkip ys := by
  rintro k rest rfl
  rw [startsFrame_skip] at h
  cases h

theorem encodeSkips_unique (hys : NoSkip ys) (hzs : NoSkip zs) : ∀ {ks ks' : List Skippable},
    encodeSkips ks ++ ys = encodeSkips ks' ++ zs → ks.length = ks'.length ∧ ys = zs
  | [], [], h => ⟨rfl, h⟩
  | [], k' :: ks', h => by
    rw [encodeSkips_cons, List.append_assoc] at h
    exact absurd h (hys k' _)
  | k :: ks, [], h => by
    rw [encodeSkips_cons, List.append_assoc] at h
    exact absurd h.symm (hzs k _)
  | k :: ks, k' :: ks', h => by
    rw [encodeSkips_cons, encodeSkips_cons, List.append_assoc, List.append_assoc] at h
    obtain ⟨hlen, hrest⟩ := encodeSkips_unique hys hzs (Skippable.encode_unique h)
    exact ⟨by rw [List.length_cons, List.length_cons, hlen], hrest⟩

end

/-- What one reading of a stream fixes: the runs of skippable frames and the bytes after them. -/
structure SameShape (s t : Stream) : Prop where
  skips : s.segments.map (·.skips.length) = t.segments.map (·.skips.length)
  trail : s.trail.length = t.trail.length
  junk : s.junk = t.junk

theorem encodeSegments_unique {ks ks' : List Skippable} {ys zs : Bytes} (hys : startsFrame ys = false)
    (hzs : startsFrame zs = false) : ∀ {gs gs' : List Segment},
    encodeSegments gs ++ (encodeSkips ks ++ ys) = encodeSegments gs' ++ (encodeSkips ks' ++ zs) →
    gs.map (·.skips.length) = gs'.map (·.skips.length) ∧ ks.length = ks'.length ∧ ys = zs
  | [], [], h => ⟨rfl, encodeSkips_unique (.of_startsFrame hys) (.of_startsFrame hzs) h⟩
  | [], g' :: gs', h => by
    rw [encodeSegments_cons, Segment.encode, List.append_assoc, List.append_assoc] at h
    obtain ⟨-, h⟩ := encodeSkips_unique (.of_startsFrame hys) (.frame _ _) h
    rw [h, startsFrame_frame] at hys
    cases hys
  | g :: gs, [], h => by
    rw [encodeSegments_cons, Segment.encode, List.append_assoc, List.append_assoc] at h
    obtain ⟨-, h⟩ := encodeSkips_unique (.frame _ _) (.of_startsFrame hzs) h
    rw [← show _ = zs from h, startsFrame_frame] at hzs
    cases hzs
  | g :: gs, g' :: gs', h => by
    rw [encodeSegments_cons, encodeSegments_cons, Segment.encode, Segment.encode] at h
    simp only [List.append_assoc] at h
    obtain ⟨hlen, h⟩ := encodeSkips_unique (.frame _ _) (.frame _ _) h
    obtain ⟨hskips, htail⟩ := encodeSegments_unique hys hzs (Frame.encode_unique h)
    exact ⟨by rw [List.map_cons, List.map_cons, hlen, hskips], htail⟩

/-- **A stream is read in one way.** -/
theorem Stream.encode_unique {s t : Stream} (h : s.encode = t.encode) : SameShape s t := by
  obtain ⟨hskips, htrail, hjunk⟩ := encodeSegments_unique s.junk_starts t.junk_starts h
  exact ⟨hskips, htrail, hjunk⟩

/-! ## Skippable frames -/

namespace Stream
variable {s : Stream}

theorem fits_of_extracts {data : Bytes} {bs : List CompressedBlock} (h : extractLiterals data = .ok bs) :
    ∃ s : Stream, s.Fits ∧ data = s.encode := by
  obtain ⟨s, hs, hdata, -⟩ := extractLiterals_eq_ok_iff.mp h
  exact ⟨s, hs, hdata⟩

/-- The frames alone. -/
def stripped (s : Stream) : Stream := ⟨s.frames.map bare, [], [], rfl⟩

theorem frames_stripped (s : Stream) : s.stripped.frames = s.frames := frames_bare s.frames

/-- Extraction gives the literals of the frames' blocks, and the same ones without the
skippable frames. -/
structure Transparent (s : Stream) (bs : List CompressedBlock) : Prop where
  extracts : extractLiterals s.encode = .ok bs
  literals_eq : bs.map (·.literals) = s.frames.flatMap fun f => f.blocks.map (·.literals)
  only_skips : s.frames = [] → bs = []
  same : s.frames ≠ [] → s.stripped.Limits →
    ∃ bs', extractLiterals s.stripped.encode = .ok bs' ∧ bs'.map (·.literals) = bs.map (·.literals)

theorem literals_locate : ∀ (bs : List FrameBlock) (offset : Nat),
    (locate offset bs).map (·.literals) = bs.map (·.literals)
  | [], _ => rfl
  | b :: bs, offset => by rw [locate, List.map_cons, literals_locate bs, List.map_cons]; rfl

theorem literals_locateSegments : ∀ (gs : List Segment) (offset : Nat),
    (locateSegments offset gs).map (·.literals) = (gs.map (·.frame)).flatMap fun f => f.blocks.map (·.literals)
  | [], _ => rfl
  | g :: gs, offset => by
    rw [locateSegments, List.map_append, literals_locate, literals_locateSegments gs, List.map_cons, List.flatMap_cons]

theorem literals_blocks (s : Stream) :
    s.blocks.map (·.literals) = s.frames.flatMap fun f => f.blocks.map (·.literals) :=
  literals_locateSegments s.segments 0

theorem Limits.stripped_fits (h : s.stripped.Limits) (hne : s.frames ≠ []) : s.stripped.Fits := by
  have hlen := length_segments_le s.stripped.segments
  have hpos : 0 < s.stripped.segments.length := by
    unfold stripped
    rw [List.length_map]
    exact List.length_pos_of_ne_nil hne
  refine ⟨h, ?_, Nat.zero_le _, fun hjunk => absurd rfl hjunk, ?_⟩
  · intro g hg
    obtain ⟨f, -, rfl⟩ := List.mem_map.mp hg
    exact Nat.zero_le _
  · intro h0
    have hl := congrArg List.length h0
    unfold encode at hl
    rw [List.length_append, List.length_nil] at hl
    omega

theorem Fits.transparent (h : s.Fits) : s.Transparent s.blocks := by
  refine ⟨h.extracts, literals_blocks s, ?_, ?_⟩
  · intro hframes
    have hsegs : s.segments = [] := List.map_eq_nil_iff.mp hframes
    unfold blocks
    rw [hsegs]
    rfl
  · intro hne hlim
    refine ⟨s.stripped.blocks, (Limits.stripped_fits hlim hne).extracts, ?_⟩
    rw [literals_blocks, literals_blocks, frames_stripped]

theorem SameShape.skips_le {t : Stream} (h : SameShape s t) (ht : ∀ g ∈ t.segments, g.skips.length ≤ 2) :
    ∀ g ∈ s.segments, g.skips.length ≤ 2 := by
  intro g hg
  have hmem : g.skips.length ∈ t.segments.map (·.skips.length) := by
    rw [← h.skips]
    exact List.mem_map_of_mem hg
  obtain ⟨g', hg', heq⟩ := List.mem_map.mp hmem
  rw [← heq]
  exact ht g' hg'

/-- **Skippable frames are transparent** in exactly the streams with no run of three. -/
theorem transparent_iff (h : s.Limits) (hjunk : s.junk = []) :
    (∃ bs, s.Transparent bs) ↔ s.encode ≠ [] ∧ (∀ g ∈ s.segments, g.skips.length ≤ 2) ∧ s.trail.length ≤ 2 := by
  constructor
  · rintro ⟨bs, hbs⟩
    obtain ⟨t, ht, heq⟩ := fits_of_extracts hbs.extracts
    have hshape := encode_unique heq
    refine ⟨by rw [heq]; exact ht.nonempty, SameShape.skips_le hshape ht.skips_le, ?_⟩
    rw [hshape.trail]
    exact ht.trail_le
  · rintro ⟨hne, hskips, htrail⟩
    exact ⟨s.blocks, Fits.transparent ⟨h, hskips, htrail, fun hne => absurd hjunk hne, hne⟩⟩

def emptySkip : Skippable := ⟨0x50, [], by decide, by decide⟩

def skipsBefore (n : Nat) : Stream := ⟨[⟨List.replicate n emptySkip, literalsFrame⟩], [emptySkip], [], rfl⟩

theorem skipsBefore_limits (n : Nat) : (skipsBefore n).Limits := by
  have hlits : 2 ≤ literalLimit (skipsBefore n).encode.length :=
    Nat.le_min.mpr ⟨by decide, Nat.le_trans (by decide) (Nat.le_max_right _ _)⟩
  exact ⟨show 1 ≤ 1000 by decide, fun _ => show 1 < 1000 by decide, ⟨.inl rfl, trivial⟩, hlits⟩

theorem transparent_two : ∃ bs, (skipsBefore 2).Transparent bs :=
  (transparent_iff (skipsBefore_limits 2) rfl).mpr ⟨by simp [encode, skipsBefore, encodeSkips, Skippable.encode], by decide, by decide⟩

/-- Three skippable frames before a frame, and the header parser has no turn left for it. -/
theorem transparent_three : (skipsBefore 3).Limits ∧ ¬ ∃ bs, (skipsBefore 3).Transparent bs := by
  refine ⟨skipsBefore_limits 3, ?_⟩
  rintro ⟨bs, hbs⟩
  have hrun : extractLiterals (skipsBefore 3).encode = .error (.err
    (.invalidData 24 "too many skippable frames. Fix: use a valid Zstd stream")) := by decide
  have hok := hbs.extracts
  rw [hrun] at hok
  cases hok

/-! ## Bytes after the last frame -/

/-- The bytes are complete frames, standard and skippable. -/
def Tiled (data : Bytes) : Prop := ∃ s : Stream, s.junk = [] ∧ data = s.encode

/-- **Accepted bytes are all frames**, but for the streams within the limits that have bytes
after them which start no frame. -/
theorem tiled_iff (data : Bytes) :
    (∀ bs, extractLiterals data = .ok bs → Tiled data) ↔ ¬ ∃ s : Stream, s.Fits ∧ s.junk ≠ [] ∧ data = s.encode := by
  constructor
  · rintro h ⟨s, hs, hjunk, rfl⟩
    obtain ⟨t, ht, heq⟩ := h s.blocks hs.extracts
    have hsame := (encode_unique heq).junk
    rw [ht] at hsame
    exact hjunk hsame
  · intro h bs hbs
    obtain ⟨s, hs, hdata⟩ := fits_of_extracts hbs
    refine ⟨s, ?_, hdata⟩
    by_contra hjunk
    exact h ⟨s, hs, hjunk, hdata⟩

/-- A frame, and a second one with the last byte of its magic changed. -/
def spoiled : Bytes := literalsFrame.encode ++ [0x28, 0xB5, 0x2F, 0xFC, 0x25]

theorem tiled_spoiled : extractLiterals spoiled = .ok [⟨6, 7, some 4, [5, 6]⟩] ∧ ¬ Tiled spoiled := by
  refine ⟨by decide, ?_⟩
  rintro ⟨t, ht, heq⟩
  let s : Stream := ⟨[⟨[], literalsFrame⟩], [], [0x28, 0xB5, 0x2F, 0xFC, 0x25], rfl⟩
  have hshape : SameShape s t := encode_unique heq
  have hsame := hshape.junk
  rw [ht] at hsame
  cases hsame

end Stream

/-! ## Cuts -/

theorem first_skip_ne {ks : List Skippable} {ys zs : Bytes} (hne : ks ≠ []) (f : Frame) :
    encodeSkips ks ++ ys ≠ f.encode ++ zs := by
  obtain ⟨k, ks, rfl⟩ := List.exists_cons_of_ne_nil hne
  rw [encodeSkips_cons, List.append_assoc]
  exact skip_ne_frame k f

/-- What a stream within the limits starts with takes a whole frame, or is not its start. -/
theorem Stream.Fits.eq_frame {s : Stream} (h : s.Fits) {f : Frame} {zs : Bytes} (heq : s.encode ++ zs = f.encode) :
    zs = [] := by
  have hnil : f.encode = f.encode ++ [] := (List.append_nil _).symm
  rw [hnil] at heq
  unfold Stream.encode at heq
  rcases hgs : s.segments with - | ⟨g, gs⟩
  · obtain ⟨hjunk, htrail⟩ := h.no_segments hgs
    rw [hgs, hjunk, List.append_nil] at heq
    exact absurd heq (first_skip_ne htrail f)
  · rw [hgs, encodeSegments_cons, Segment.encode] at heq
    simp only [List.append_assoc] at heq
    have hskips : encodeSkips g.skips ++ _ = encodeSkips [] ++ (f.encode ++ []) := heq
    have hrest := Frame.encode_unique (encodeSkips_unique (.frame _ _) (.frame f []) hskips).2
    simp only [List.append_eq_nil_iff] at hrest
    exact hrest.2.2.2

/-- **A cut frame is rejected**, wherever it is cut. -/
theorem extractLiterals_cut {data : Bytes} {f : Frame} (hdata : data = f.encode) {k : Nat} (hk : k < data.length) :
    ∃ e, extractLiterals (data.take k) = .error (.err e) := by
  cases hrun : extractLiterals (data.take k) with
  | error stop =>
    obtain ⟨e, rfl⟩ := extractLiterals_graceful _ stop hrun
    exact ⟨e, rfl⟩
  | ok bs =>
    obtain ⟨s, hs, hcut⟩ := Stream.fits_of_extracts hrun
    have heq : s.encode ++ data.drop k = f.encode := by
      rw [← hcut, List.take_append_drop, hdata]
    have hrest := congrArg List.length (hs.eq_frame heq)
    rw [List.length_drop, List.length_nil] at hrest
    omega

theorem extractLiterals_cut_checksum : ∃ e, extractLiterals (rleFrame.encode.take 17) = .error (.err e) :=
  extractLiterals_cut rfl (by decide)

end Ziftsieve.Zstd
