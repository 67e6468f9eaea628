import Ziftsieve.SnappySound

/-!
# Chunks to ignore

The framing format has a decoder skip padding and the reserved types from 0x80
on. The chunk loop skips padding: wherever it is put in, the run goes on from
the same buffer. The reserved types it rejects.
-/

namespace Ziftsieve.Snappy

/-! ## Streams with chunks put in -/

/-- A chunk of a type that a decoder skips, of a body within the limit. -/
structure Ignorable extends Chunk where
  type_ge : 0x80 ≤ chunkType
  type_le : chunkType ≤ 0xfe
  length_le : body.length ≤ maxChunkSize

/-- A chunk of a stream, or one put in. -/
inductive Item where
  | kept (c : Chunk)
  | inserted (c : Ignorable)

namespace Item

def chunk : Item → Chunk
  | kept c => c
  | inserted c => c.toChunk

def encode (i : Item) : Bytes := i.chunk.encode

def original : Item → Bytes
  | kept c => c.encode
  | inserted _ => []

end Item

/-- The stream identifier, where the data start with it. -/
def identifier (data : Bytes) : Bytes := if streamIdentifier <+: data then streamIdentifier else []

theorem length_identifier (data : Bytes) : (identifier data).length = (start data).pos := by
  unfold start identifier
  by_cases hid : streamIdentifier <+: data
  · simp only [if_pos hid]
    rfl
  · simp only [if_neg hid]
    rfl

section
variable {ext : External} {data data' rest : Bytes} {s s' t : Chunks}

/-! ## One chunk in two streams -/

/-- The same buffer, and the same literals in the blocks. -/
structure Mirrors (s s' : Chunks) : Prop where
  currentLiterals_eq : s'.currentLiterals = s.currentLiterals
  totalLiterals_eq : s'.totalLiterals = s.totalLiterals
  blocks_eq : s'.blocks.map (·.literals) = s.blocks.map (·.literals)

theorem Mirrors.gathered_eq (h : Mirrors s s') : s'.gathered = s.gathered := by
  unfold Chunks.gathered
  rw [h.currentLiterals_eq, List.flatMap_def, List.flatMap_def, h.blocks_eq]

theorem Mirrors.after (h : Mirrors s s') (len len' : Nat) (out : Bytes) : Mirrors (s.after len out) (s'.after len' out) := by
  unfold Chunks.after
  by_cases hflush : out.length > 32 * 1024
  · rw [if_pos hflush, if_pos hflush]
    exact ⟨rfl, by simp only [h.totalLiterals_eq], by simp only [List.map_append, h.blocks_eq, List.map_singleton]⟩
  · rw [if_neg hflush, if_neg hflush]
    exact ⟨rfl, h.totalLiterals_eq, h.blocks_eq⟩

theorem handleSnappyChunk_padding (body current : Bytes) (pos : Nat) :
    handleSnappyChunk ext 0xfe body current pos = .ok current := rfl

/-- A chunk to ignore that is let through is padding. -/
theorem Ignorable.padding_of_handled (c : Ignorable) {current out : Bytes} {pos : Nat}
    (h : handleSnappyChunk ext c.chunkType c.body current pos = .ok out) : c.chunkType = 0xfe := by
  obtain ⟨p, ⟨hp, -, -⟩, -⟩ := handleSnappyChunk_eq_ok.mp h
  have hge : 128 ≤ c.chunkType.toNat := c.type_ge
  have hle : c.chunkType.toNat ≤ 254 := c.type_le
  unfold payload at hp
  by_cases h0 : c.chunkType = 0x00
  · rw [h0] at hge
    exact absurd hge (by decide)
  rw [if_neg h0] at hp
  by_cases h1 : c.chunkType = 0x01
  · rw [h1] at hge
    exact absurd hge (by decide)
  rw [if_neg h1] at hp
  by_cases hskip : c.chunkType = 0xfe ∨ c.chunkType = 0xff
  · rcases hskip with hskip | hskip
    · exact hskip
    · rw [hskip] at hle
      exact absurd hle (by decide)
  · rw [if_neg hskip] at hp
    cases hp

/-- What `snap` gives for a byte is 64 bytes at most: a copy's two or three bytes stand for no more. -/
def Expands (ext : External) : Prop := ∀ z out, ext.decompressVec z = some out → out.length ≤ 64 * z.length

theorem Expands.payload_le (hexpand : Expands ext) {chunkType : UInt8} {body p : Bytes}
    (h : payload ext chunkType body = some p) : p.length ≤ 64 * body.length := by
  have hdrop : (body.drop 4).length ≤ body.length := by rw [List.length_drop]; omega
  unfold payload at h
  by_cases h0 : chunkType = 0x00
  · rw [if_pos h0] at h
    have hle := hexpand _ _ h
    omega
  rw [if_neg h0] at h
  by_cases h1 : chunkType = 0x01
  · rw [if_pos h1] at h
    rw [← Option.some.inj h]
    omega
  rw [if_neg h1] at h
  by_cases hskip : chunkType = 0xfe ∨ chunkType = 0xff
  · rw [if_pos hskip] at h
    rw [← Option.some.inj h]
    exact Nat.zero_le _
  · rw [if_neg hskip] at h
    cases h

/-! ## Two runs -/

theorem Gathering.length_gathered (h : Gathering s) :
    s.gathered.length = s.totalLiterals + s.currentLiterals.length := by
  rw [Chunks.gathered, List.length_append, List.length_flatMap, h.total_eq]

/-- What holds of the run over the stream and the one over the stream with chunks put in,
before each chunk of the first. -/
structure InStep (s s' : Chunks) : Prop where
  mirrors : Mirrors s s'
  gathering : Gathering s
  buffered : s.currentLiterals.length ≤ 32 * 1024
  cost : s.totalLiterals + s.currentLiterals.length ≤ 64 * s'.pos

theorem InStep.start (data data' : Bytes) : InStep (start data) (start data') :=
  ⟨⟨rfl, rfl, rfl⟩, start_gathering data, Nat.zero_le _, Nat.zero_le _⟩

theorem InStep.ratio_le (h : InStep s s') (hpos : s'.pos ≤ data'.length) :
    s'.totalLiterals + s'.currentLiterals.length ≤ max (data'.length * maxDecompressionRatio) (1024 * 1024) := by
  have hcost := h.cost
  rw [h.mirrors.totalLiterals_eq, h.mirrors.currentLiterals_eq]
  unfold maxDecompressionRatio
  omega

theorem InStep.kept (hexpand : Expands ext) (h : InStep s s') {c : Chunk} {out : Bytes} {rest' : Bytes}
    (hc : Admits ext data s c out) (hat' : At data' s'.pos (c.encode ++ rest'))
    (hcount : s'.chunkCount + 1 < maxChunksPerStream) :
    Admits ext data' s' c out ∧ InStep (s.after c.body.length out) (s'.after c.body.length out) := by
  have hm := h.mirrors
  have hcost := h.cost
  obtain ⟨p, hp, hout⟩ := handleSnappyChunk_eq_ok.mp hc.handled
  have hple := hexpand.payload_le hp.payload_eq
  have hhandled : handleSnappyChunk ext c.chunkType c.body s'.currentLiterals (s'.pos + 4) = .ok out :=
    handleSnappyChunk_eq_ok.mpr ⟨p, hp, by rw [hm.currentLiterals_eq]; exact hout⟩
  have hadmits : Admits ext data' s' c out := by
    refine ⟨hcount, ?_, h.ratio_le hat'.1, hc.size_le, hhandled, ?_⟩
    · rw [hm.totalLiterals_eq, hm.currentLiterals_eq]
      exact hc.total_le
    · rw [hm.totalLiterals_eq]
      exact hc.flush_le
  refine ⟨hadmits, hm.after _ _ out, h.gathering.after hc, ?_, ?_⟩
  · unfold Chunks.after
    split
    · exact Nat.zero_le _
    · exact Nat.le_of_not_lt ‹_›
  · rw [Chunks.after_total, Chunks.after_pos, hout, List.length_append]
    omega

theorem InStep.inserted (h : InStep s s') {c : Ignorable} {rest' : Bytes} (hpad : c.chunkType = 0xfe)
    (htotal : s.totalLiterals + s.currentLiterals.length ≤ maxTotalLiterals)
    (hat' : At data' s'.pos (c.encode ++ rest')) (hcount : s'.chunkCount + 1 < maxChunksPerStream) :
    Admits ext data' s' c.toChunk s'.currentLiterals ∧ InStep s (s'.after c.body.length s'.currentLiterals) := by
  have hm := h.mirrors
  have hcost := h.cost
  have hsmall : ¬ s'.currentLiterals.length > 32 * 1024 := by
    rw [hm.currentLiterals_eq]
    exact Nat.not_lt_of_le h.buffered
  refine ⟨⟨hcount, ?_, h.ratio_le hat'.1, c.length_le, ?_, fun hflush => absurd hflush hsmall⟩, ?_, h.gathering,
    h.buffered, ?_⟩
  · rw [hm.totalLiterals_eq, hm.currentLiterals_eq]
    exact htotal
  · rw [hpad]
    exact handleSnappyChunk_padding _ _ _
  · unfold Chunks.after
    rw [if_neg hsmall]
    exact ⟨hm.currentLiterals_eq, hm.totalLiterals_eq, hm.blocks_eq⟩
  · rw [Chunks.after_pos]
    omega

/-- By induction on the items: the run over the stream stands still at a chunk put in. -/
theorem run_inserted (hexpand : Expands ext) : ∀ {items : List Item} {n n' : Nat} {s s' r : Chunks}, InStep s s' →
    At data s.pos (items.flatMap Item.original) → At data' s'.pos (items.flatMap Item.encode) →
    (∀ c, .inserted c ∈ items → c.chunkType = 0xfe) → loop (chunkTurn ext data) n s = .ok r →
    r.totalLiterals + r.currentLiterals.length ≤ maxTotalLiterals →
    s'.chunkCount + items.length < maxChunksPerStream → items.length < n' →
    ∃ r', loop (chunkTurn ext data') n' s' = .ok r' ∧ Mirrors r r'
  | _, 0, _, _, _, _, _, _, _, _, h, _, _, _ => by cases h
  | _, _ + 1, 0, _, _, _, _, _, _, _, _, _, _, hn' => absurd hn' (Nat.not_lt_zero _)
  | [], n + 1, n' + 1, s, s', r, hs, hat, hat', _, h, _, _, _ => by
    rw [loop_done (chunkTurn_end ext hat)] at h
    cases h
    exact ⟨s', loop_done (chunkTurn_end ext hat'), hs.mirrors⟩
  | .kept c :: items, n + 1, n' + 1, s, s', r, hs, hat, hat', hpad, h, hr, hcount, hn' => by
    rw [List.flatMap_cons] at hat hat'
    rw [List.length_cons] at hcount hn'
    obtain ⟨out, hc, hrun⟩ := loop_chunk hat h
    obtain ⟨hc', hnext⟩ := hs.kept hexpand hc hat' (by omega)
    rw [loop_next ((chunkTurn_eq_ok c hat').mpr ⟨out, hc', rfl⟩)]
    refine run_inserted hexpand hnext (at_after hat out) (at_after hat' out)
      (fun d hd => hpad d (List.mem_cons_of_mem _ hd)) hrun hr ?_ (by omega)
    rw [Chunks.after_chunkCount]
    omega
  | .inserted c :: items, n + 1, n' + 1, s, s', r, hs, hat, hat', hpad, h, hr, hcount, hn' => by
    rw [List.flatMap_cons] at hat hat'
    rw [List.length_cons] at hcount hn'
    have htotal : s.totalLiterals + s.currentLiterals.length ≤ maxTotalLiterals := by
      obtain ⟨ps, -, hgathered, hgr⟩ := chunks_sound h hs.gathering hat.1
      have hlen := congrArg List.length hgathered
      rw [List.length_append, hgr.length_gathered, hs.gathering.length_gathered] at hlen
      omega
    obtain ⟨hc', hnext⟩ := hs.inserted (hpad c List.mem_cons_self) htotal hat' (by omega)
    rw [loop_next ((chunkTurn_eq_ok c.toChunk hat').mpr ⟨_, hc', rfl⟩)]
    refine run_inserted hexpand hnext hat (at_after hat' _) (fun d hd => hpad d (List.mem_cons_of_mem _ hd)) h hr ?_
      (by omega)
    rw [Chunks.after_chunkCount]
    omega

/-- A run that gets past a chunk put in was let through it. -/
theorem run_padding : ∀ {items : List Item} {n : Nat} {s r : Chunks}, At data s.pos (items.flatMap Item.encode) →
    loop (chunkTurn ext data) n s = .ok r → ∀ c, .inserted c ∈ items → c.chunkType = 0xfe
  | [], _, _, _, _, _ => fun _ hc => nomatch hc
  | _ :: _, 0, _, _, _, h => by cases h
  | i :: items, n + 1, s, r, hat, h => by
    rw [List.flatMap_cons] at hat
    obtain ⟨out, hi, hrun⟩ := loop_chunk hat h
    intro c hc
    rcases List.mem_cons.mp hc with rfl | hc
    · exact c.padding_of_handled hi.handled
    · exact run_padding (at_after hat out) hrun c hc

/-! ## Streams -/

theorem start_at (h : data = identifier data ++ rest) : At data (start data).pos rest := by
  refine ⟨start_pos_le data, ?_⟩
  rw [← length_identifier]
  conv => lhs; arg 2; rw [h]
  exact List.drop_left

/-- The identifier is a chunk too. -/
def identifierChunk : Chunk := ⟨0xff, sNaPpY, by decide⟩

theorem encode_identifierChunk : identifierChunk.encode = streamIdentifier := by decide

theorem identifier_encode {c : Chunk} (h : streamIdentifier <+: c.encode ++ rest) :
    c.chunkType = 0xff ∧ c.encode = streamIdentifier := by
  obtain ⟨ys, hys⟩ := h
  rw [← encode_identifierChunk] at hys
  obtain ⟨htype, hbody, -⟩ := Chunk.encode_unique hys
  refine ⟨htype.symm, ?_⟩
  rw [Chunk.encode, ← htype, ← hbody]
  exact encode_identifierChunk

/-- The chunks put in do not make an identifier of the stream's start. -/
theorem identifier_inserted {items : List Item} (h : data = identifier data ++ items.flatMap Item.original) :
    identifier (identifier data ++ items.flatMap Item.encode) = identifier data := by
  by_cases hid : streamIdentifier <+: data
  · have hhead : identifier data = streamIdentifier := if_pos hid
    rw [hhead]
    exact if_pos (List.prefix_append _ _)
  · have hhead : identifier data = [] := if_neg hid
    rw [hhead, List.nil_append] at h ⊢
    refine if_neg fun hpre => ?_
    rcases items with - | ⟨c | c, items⟩
    · have hlen := hpre.length_le
      exact absurd hlen (by decide)
    · have hstart : c.encode = streamIdentifier := (identifier_encode hpre).2
      apply hid
      rw [h, List.flatMap_cons, Item.original, hstart]
      exact List.prefix_append _ _
    · have htype := (identifier_encode hpre).1
      have hle : c.chunkType.toNat ≤ 254 := c.type_le
      have hff : c.chunkType = 0xff := htype
      rw [hff] at hle
      exact absurd hle (by decide)

theorem length_original_le : ∀ items : List Item,
    (items.flatMap Item.original).length ≤ (items.flatMap Item.encode).length ∧
      items.length ≤ (items.flatMap Item.encode).length
  | [] => ⟨Nat.le_refl _, Nat.le_refl _⟩
  | i :: items => by
    obtain ⟨hle, hlen⟩ := length_original_le items
    have hi : i.original.length ≤ i.encode.length ∧ 4 ≤ i.encode.length := by
      rw [Item.encode, i.chunk.length_encode]
      cases i with
      | kept c =>
        rw [Item.original, c.length_encode]
        exact ⟨Nat.le_refl _, Nat.le_add_right _ _⟩
      | inserted c => exact ⟨Nat.zero_le _, Nat.le_add_right _ _⟩
    rw [List.flatMap_cons, List.flatMap_cons, List.length_append, List.length_append, List.length_cons]
    omega

/-- **Chunks to ignore are transparent** when they are padding. -/
theorem ignorable_transparent_iff {items : List Item} {bs : List CompressedBlock} (hexpand : Expands ext)
    (hdata : data = identifier data ++ items.flatMap Item.original) (h : extractLiterals ext data = .ok bs)
    (hcount : items.length < maxChunksPerStream) :
    (∃ bs', extractLiterals ext (identifier data ++ items.flatMap Item.encode) = .ok bs' ∧
      bs'.flatMap (·.literals) = bs.flatMap (·.literals)) ↔ ∀ c, .inserted c ∈ items → c.chunkType = 0xfe := by
  obtain ⟨data', hdata'⟩ : ∃ data', data' = identifier data ++ items.flatMap Item.encode := ⟨_, rfl⟩
  have hat' : At data' (start data').pos (items.flatMap Item.encode) := by
    apply start_at
    rw [hdata', identifier_inserted hdata]
  rw [← hdata']
  constructor
  · rintro ⟨bs', hbs', -⟩
    obtain ⟨r', hrun', -⟩ := extractLiterals_gathered hbs'
    exact run_padding hat' hrun'
  · intro hpad
    obtain ⟨r, hrun, hflat, hmax⟩ := extractLiterals_gathered h
    obtain ⟨hle, hlen⟩ := length_original_le items
    have hlong := hat'.length
    obtain ⟨r', hrun', hm⟩ := run_inserted hexpand (InStep.start data data') (start_at hdata) hat' hpad hrun hmax
      (by have : (start data').chunkCount = 0 := rfl; omega) (by omega : items.length < data'.length + 1)
    have hne : data' ≠ [] := by
      intro hnil
      rw [hnil] at hdata' hlong
      have hhead : identifier data = [] := (List.append_eq_nil_iff.mp hdata'.symm).1
      have horiginal : items.flatMap Item.original = [] := List.eq_nil_of_length_eq_zero (by
        rw [List.length_nil] at hlong
        omega)
      rw [hhead, horiginal, List.append_nil] at hdata
      rw [hdata] at h
      cases h
    have hmax' : r'.totalLiterals + r'.currentLiterals.length ≤ maxTotalLiterals := by
      rw [hm.totalLiterals_eq, hm.currentLiterals_eq]
      exact hmax
    obtain ⟨bs', hbs'⟩ := extractLiterals_ok hne hrun' hmax'
    refine ⟨bs', hbs', ?_⟩
    obtain ⟨r'', hrun'', hflat', -⟩ := extractLiterals_gathered hbs'
    rw [hrun'] at hrun''
    cases hrun''
    rw [hflat', hm.gathered_eq, hflat]

end

def padding : Ignorable := ⟨⟨0xfe, [7, 7], by decide⟩, by decide, by decide, by decide⟩

def skippable : Ignorable := ⟨⟨0x80, [], by decide⟩, by decide, by decide, by decide⟩

/-- `"b"` uncompressed. -/
def rawB : Chunk := ⟨0x01, [0, 0, 0, 0, 0x62], by decide⟩

theorem expands_decodesA : Expands decodesA := by
  intro z out h
  unfold decodesA at h
  by_cases hz : z = [0x01, 0x00, 0x61]
  · simp only [if_pos hz] at h
    cases h
    rw [hz]
    decide
  · simp only [if_neg hz] at h
    cases h

def streamB : Bytes := streamIdentifier ++ rawB.encode

def paddedB : List Item := [.inserted padding, .kept rawB, .inserted padding]

theorem ignorable_transparent_paddedB : ∃ bs',
    extractLiterals decodesA (identifier streamB ++ paddedB.flatMap Item.encode) = .ok bs' ∧
      bs'.flatMap (·.literals) = [0x62] := by
  have hdata : streamB = identifier streamB ++ paddedB.flatMap Item.original := by decide +kernel
  have hok : extractLiterals decodesA streamB = .ok [⟨10, 9, some 1, [0x62]⟩] := by decide +kernel
  have hpad : ∀ c, .inserted c ∈ paddedB → c.chunkType = 0xfe := by
    intro c hc
    simp only [paddedB, List.mem_cons, Item.inserted.injEq, reduceCtorEq, List.not_mem_nil, false_or, or_false, or_self] at hc
    rw [hc]
    rfl
  exact (ignorable_transparent_iff expands_decodesA hdata hok (by decide)).mpr hpad

def skippedB : List Item := [.inserted skippable, .kept rawB]

theorem ignorable_skippedB : ¬ ∃ bs',
    extractLiterals decodesA (identifier streamB ++ skippedB.flatMap Item.encode) = .ok bs' ∧
      bs'.flatMap (·.literals) = [0x62] := by
  rintro ⟨bs', h, -⟩
  have herr : extractLiterals decodesA (identifier streamB ++ skippedB.flatMap Item.encode) =
      .error (.err (.invalidData 14
        "reserved unskippable snappy chunk type 0x80. Fix: use a standard Snappy framing stream")) := by decide +kernel
  rw [herr] at h
  cases h

end Ziftsieve.Snappy
