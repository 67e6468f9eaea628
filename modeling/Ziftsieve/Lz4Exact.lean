import Ziftsieve.Lz4Scans
import Ziftsieve.Lz4StreamSound

/-!
# The language of the stream parser

The parser takes a frame's opening or none, blocks of stored bytes or of
sequences, and an end. The opening is not the format's: the dictionary ID is
one byte of it.
-/

namespace Ziftsieve.Lz4

/-! ## Streams as they are taken -/

inductive Chunk where
  | stored (payload : Bytes)
  | scanned (b : ScannedBlock)

namespace Chunk

def payload : Chunk → Bytes
  | stored payload => payload
  | scanned b => b.encode

def literals : Chunk → Bytes
  | stored payload => payload
  | scanned b => b.literals

def isStored : Chunk → Bool
  | stored _ => true
  | scanned _ => false

def size (c : Chunk) : Nat := c.payload.length

def headerWord (c : Chunk) : Nat := if c.isStored then c.size + 2 ^ 31 else c.size

def encode (c : Chunk) : Bytes := toLe 4 c.headerWord ++ c.payload

def located (offset : Nat) (c : Chunk) : CompressedBlock :=
  { CompressedBlock.new offset c.size with literals := c.literals }

def Scans : Chunk → Prop
  | stored _ => True
  | scanned b => b.Accepted

structure Accepted (c : Chunk) : Prop where
  pos : 0 < c.size
  le : c.size ≤ maxBlockSize
  scans : c.Scans

end Chunk

def encodeChunks (cs : List Chunk) : Bytes := (cs.map Chunk.encode).flatten

def locateChunks : Nat → List Chunk → List CompressedBlock
  | _, [] => []
  | offset, c :: cs => c.located offset :: locateChunks (offset + c.encode.length) cs

def chunkLiterals (cs : List Chunk) : Nat := (cs.map (·.literals.length)).sum

/-- What the parser takes for a frame's header. -/
structure Opening where
  flg : UInt8
  body : Bytes
  version : flg &&& 0xC0 = 0x40
  length_body : body.length =
    2 + (if flg &&& 0x08 ≠ 0 then 8 else 0) + (if flg &&& 0x01 ≠ 0 then 1 else 0)

def Opening.encode (o : Opening) : Bytes := lz4FrameMagic ++ o.flg :: o.body

structure Taken where
  opening : Option Opening
  chunks : List Chunk
  ending : Bytes

namespace Taken

def header (t : Taken) : Bytes := t.opening.elim [] Opening.encode

def encode (t : Taken) : Bytes := t.header ++ (encodeChunks t.chunks ++ t.ending)

def blocks (t : Taken) : List CompressedBlock := locateChunks t.header.length t.chunks

/-- The number of blocks is tested at the end too, unless no bytes are left for it. -/
structure Accepted (t : Taken) : Prop where
  nonempty : t.encode ≠ []
  chunks : ∀ c ∈ t.chunks, c.Accepted
  ends : Ends t.opening.isSome t.ending
  few : t.chunks.length + (if t.ending = [] then 0 else 1) ≤ maxBlocksPerStream
  literals_le : chunkLiterals t.chunks ≤ maxTotalLiterals

end Taken

/-! ## Blocks -/

section
variable {c : Chunk}

theorem Chunk.length_encode (c : Chunk) : c.encode.length = 4 + c.size := by
  rw [encode, List.length_append, length_toLe, size]

theorem Chunk.Accepted.lt (h : c.Accepted) : c.size < 2 ^ 31 := Nat.lt_of_le_of_lt h.le (by decide)

theorem Chunk.headerWord_lt (h : c.size < 2 ^ 31) : c.headerWord < 2 ^ 32 := by
  unfold headerWord; split <;> omega

theorem Chunk.headerWord_low (h : c.size < 2 ^ 31) : c.headerWord % 2 ^ 31 = c.size := by
  unfold headerWord; split <;> omega

theorem Chunk.headerWord_high (h : c.size < 2 ^ 31) : decide (2 ^ 31 ≤ c.headerWord) = c.isStored := by
  unfold headerWord
  cases c.isStored
  · rw [if_neg (by decide)]; exact decide_eq_false (Nat.not_le_of_lt h)
  · rw [if_pos rfl]; exact decide_eq_true (Nat.le_add_left _ _)

theorem ScannedBlock.length_literals_le (b : ScannedBlock) : b.literals.length ≤ b.encode.length := by
  have hseqs : ∀ qs : List Seq, (qs.map (·.literals)).flatten.length ≤ (qs.map encodeSeq).flatten.length := by
    intro qs
    induction qs with
    | nil => exact Nat.le_refl _
    | cons q qs ih =>
      have hq : q.literals.length ≤ (encodeSeq q).length := by
        simp only [encodeSeq, encodeRun, List.length_append, List.length_cons]; omega
      simp only [List.map_cons, List.flatten_cons, List.length_append]; omega
  have hlast : (b.last.elim [] (·.2)).length ≤ b.lastBytes.length := by
    unfold lastBytes
    cases b.last with
    | none => exact Nat.le_refl _
    | some r =>
      simp only [Option.elim_some, encodeRun, List.length_cons, List.length_append]
      omega
  have := hseqs b.seqs
  unfold literals encode
  rw [List.length_append, List.length_append]
  omega

theorem Chunk.length_literals_le : ∀ c : Chunk, c.literals.length ≤ c.size
  | stored _ => Nat.le_refl _
  | scanned b => b.length_literals_le

theorem blockLiterals_iff {isStored : Bool} {payload lits : Bytes} (hsize : payload.length ≤ maxBlockSize) :
    blockLiterals isStored payload = .ok lits ↔
      ∃ c : Chunk, c.Scans ∧ c.isStored = isStored ∧ c.payload = payload ∧ c.literals = lits := by
  cases isStored with
  | false =>
    change extractLiterals payload maxBlockSize = .ok lits ↔ _
    rw [extractLiterals_scans_iff hsize]
    constructor
    · rintro ⟨b, hb, rfl, rfl⟩
      exact ⟨.scanned b, hb, rfl, rfl, rfl⟩
    · rintro ⟨_ | b, hb, hs, rfl, rfl⟩
      · cases hs
      · exact ⟨b, hb, rfl, rfl⟩
  | true =>
    constructor
    · intro h
      cases h
      exact ⟨.stored payload, trivial, rfl, rfl, rfl⟩
    · rintro ⟨payload | _, -, hs, rfl, rfl⟩
      · rfl
      · cases hs

end

/-! ## Turns -/

section
variable {data rest ys : Bytes} {framed : Bool} {w w' : Walk} {c : Chunk}

def Walk.past (w : Walk) (c : Chunk) : Walk :=
  ⟨w.offset + c.encode.length, w.blocks ++ [c.located w.offset], w.totalLiterals + c.literals.length⟩

theorem walkTurn_chunk (hc : c.Accepted) (hn : w.blocks.length < maxBlocksPerStream) (hpos : w.totalLiterals ≤ w.offset)
    (ht : w.totalLiterals + c.literals.length ≤ maxTotalLiterals) (h : At data w.offset (c.encode ++ rest)) :
    walkTurn data framed w = .ok (.next (w.past c)) := by
  have hl := h.length
  have hlit := c.length_literals_le
  have hne : c.size ≠ 0 := Nat.ne_of_gt hc.pos
  rw [List.length_append, c.length_encode] at hl
  rw [Chunk.encode, List.append_assoc] at h
  have hp := h.skip
  rw [length_toLe] at hp
  rw [walkTurn_word hn (Chunk.headerWord_lt hc.lt) h, Chunk.headerWord_low hc.lt, Chunk.headerWord_high hc.lt, if_neg hne]
  unfold walkBlock
  rw [failIf_false _ (Nat.not_lt.mpr hc.le), Run.ok_bind]
  dsimp only
  rw [failIf_false _ (by omega), Run.ok_bind, hp.slice (j := w.offset + 4 + c.size) rfl, Run.ok_bind,
    (blockLiterals_iff hc.le).mpr ⟨c, hc.scans, rfl, rfl, rfl⟩, Run.ok_bind,
    failIf_false _ (Nat.not_lt.mpr ht), Run.ok_bind,
    failIf_false _ (by unfold maxDecompressionRatio; omega), Walk.past, c.length_encode, ← Nat.add_assoc]
  rfl

theorem walkBlock_chunk {word : Nat} (hw : word < 2 ^ 32) (hz : word % 2 ^ 31 ≠ 0)
    (hat : At data w.offset (toLe 4 word ++ ys)) (h : walkBlock data w (decide (2 ^ 31 ≤ word)) (word % 2 ^ 31) = .ok w') :
    ∃ (c : Chunk) (rest : Bytes), c.Accepted ∧ toLe 4 word ++ ys = c.encode ++ rest ∧
      w.totalLiterals + c.literals.length ≤ maxTotalLiterals ∧ w' = w.past c := by
  have hp := hat.skip
  have hl := hp.length
  rw [length_toLe] at hp hl
  unfold walkBlock at h
  simp only [Run.bind_eq_ok] at h
  obtain ⟨_, h1, _, h2, blockData, h3, literals, h4, _, h5, _, -, h⟩ := h
  rw [failIf_eq_ok] at h1 h2 h5
  obtain ⟨payload, rest, rfl, hsize⟩ : ∃ payload rest, ys = payload ++ rest ∧ payload.length = word % 2 ^ 31 :=
    ⟨ys.take (word % 2 ^ 31), ys.drop (word % 2 ^ 31), (List.take_append_drop _ _).symm, by rw [List.length_take]; omega⟩
  rw [hp.slice (congrArg _ hsize.symm)] at h3
  cases h3
  obtain ⟨c, hscans, hstored, rfl, rfl⟩ := (blockLiterals_iff (by omega)).mp h4
  have hword : c.headerWord = word := by
    unfold Chunk.headerWord Chunk.size
    rw [hstored, hsize]
    by_cases hhigh : 2 ^ 31 ≤ word
    · rw [if_pos (decide_eq_true hhigh)]
      omega
    · rw [if_neg (by simpa using hhigh)]
      omega
  refine ⟨c, rest, ⟨?_, ?_, hscans⟩, ?_, Nat.le_of_not_lt h5, ?_⟩
  · rw [Chunk.size, hsize]
    exact Nat.pos_of_ne_zero hz
  · rw [Chunk.size, hsize]
    exact Nat.le_of_not_lt h1
  · rw [Chunk.encode, hword, List.append_assoc]
  · cases h
    rw [← hsize, Walk.past, c.length_encode, ← Nat.add_assoc]
    rfl

/-- A turn finds the end of the stream, or takes a block. -/
theorem walkTurn_inv_chunk {turn : Turn Walk (List CompressedBlock)} (hat : At data w.offset ys)
    (h : walkTurn data framed w = .ok turn) : (ys = [] ∨ w.blocks.length < maxBlocksPerStream) ∧
      ((Ends framed ys ∧ turn = .done w.blocks) ∨ ∃ (c : Chunk) (rest : Bytes), c.Accepted ∧ ys = c.encode ++ rest ∧
        w.totalLiterals + c.literals.length ≤ maxTotalLiterals ∧ turn = .next (w.past c)) := by
  have hl := hat.length
  by_cases hnil : ys = []
  · subst hnil
    unfold walkTurn at h
    rw [if_neg (by rw [hat.eq_end]; exact Nat.lt_irrefl _)] at h
    cases h
    exact ⟨.inl rfl, .inl ⟨.nil, rfl⟩⟩
  have hpos := List.length_pos_of_ne_nil hnil
  have hn : w.blocks.length < maxBlocksPerStream := by
    unfold walkTurn at h
    rw [if_pos (by omega)] at h
    obtain ⟨_, hn, -⟩ := Run.bind_eq_ok.mp h
    rw [failIf_eq_ok] at hn
    exact Nat.lt_of_not_le hn
  refine ⟨.inr hn, ?_⟩
  by_cases hshort : ys.length < 4
  · left
    unfold walkTurn at h
    rw [if_pos (by omega), failIf_false _ (Nat.not_le_of_lt hn), Run.ok_bind, if_pos (by omega)] at h
    cases framed with
    | false =>
      rw [if_pos (.inr (by simp))] at h
      cases h
      exact ⟨.stray rfl hshort, rfl⟩
    | true =>
      rw [if_neg (by simp; omega)] at h
      cases h
  · obtain ⟨b0, b1, b2, b3, rest, rfl⟩ := exists_cons4 (Nat.le_of_not_lt hshort)
    have hw := fromLe_lt_word b0 b1 b2 b3
    have hword : b0 :: b1 :: b2 :: b3 :: rest = toLe 4 (fromLe [b0, b1, b2, b3]) ++ rest :=
      congrArg (· ++ rest) (toLe_fromLe [b0, b1, b2, b3]).symm
    rw [hword] at hat ⊢
    rw [walkTurn_word hn hw hat] at h
    by_cases hz : fromLe [b0, b1, b2, b3] % 2 ^ 31 = 0
    · rw [if_pos hz] at h
      cases h
      exact .inl ⟨.zero hw hz, rfl⟩
    · rw [if_neg hz] at h
      obtain ⟨w', hblock, h⟩ := Run.bind_eq_ok.mp h
      obtain ⟨c, rest', hc, hys, ht, rfl⟩ := walkBlock_chunk hw hz hat hblock
      cases h
      exact .inr ⟨c, rest', hc, hys, ht, rfl⟩

end

/-! ## Runs -/

section
variable {data : Bytes} {framed : Bool}

theorem walk_taken : ∀ (fuel : Nat) {w : Walk} {ys : Bytes} {r : List CompressedBlock}, At data w.offset ys →
    w.blocks.length ≤ maxBlocksPerStream → w.totalLiterals ≤ maxTotalLiterals →
    loop (walkTurn data framed) fuel w = .ok r → ∃ (cs : List Chunk) (ending : Bytes), ys = encodeChunks cs ++ ending ∧
      (∀ c ∈ cs, c.Accepted) ∧ Ends framed ending ∧
      w.blocks.length + cs.length + (if ending = [] then 0 else 1) ≤ maxBlocksPerStream ∧
      w.totalLiterals + chunkLiterals cs ≤ maxTotalLiterals ∧ r = w.blocks ++ locateChunks w.offset cs
  | 0, _, _, _, _, _, _, h => by cases h
  | fuel + 1, w, ys, r, hat, hn, ht, h => by
    rcases loop_ok_iff.mp h with hd | ⟨t, hturn, hrun⟩
    · obtain ⟨hfew, ⟨he, hr⟩ | ⟨_, _, _, _, _, hr⟩⟩ := walkTurn_inv_chunk hat hd
      · cases hr
        refine ⟨[], ys, rfl, List.forall_mem_nil _, he, ?_, ht, (List.append_nil _).symm⟩
        by_cases hnil : ys = []
        · rw [if_pos hnil]
          exact hn
        · rw [if_neg hnil]
          exact hfew.resolve_left hnil
      · cases hr
    · obtain ⟨hfew, ⟨_, hr⟩ | ⟨c, rest, hc, rfl, ht', hr⟩⟩ := walkTurn_inv_chunk hat hturn
      · cases hr
      · cases hr
        have hlt : w.blocks.length < maxBlocksPerStream :=
          hfew.resolve_left (List.append_ne_nil_of_left_ne_nil (List.ne_nil_of_length_pos (by rw [c.length_encode]; omega)) _)
        obtain ⟨cs, ending, rfl, hcs, he, hcount, htotal, rfl⟩ := walk_taken fuel (w := w.past c) hat.skip
          (by rw [Walk.past, List.length_append]; exact hlt) ht' hrun
        refine ⟨c :: cs, ending, ?_, List.forall_mem_cons.mpr ⟨hc, hcs⟩, he, ?_, ?_, ?_⟩
        · simp only [encodeChunks, List.map_cons, List.flatten_cons, List.append_assoc]
        · simp only [Walk.past, List.length_append, List.length_singleton] at hcount
          rw [List.length_cons]
          omega
        · simp only [Walk.past] at htotal
          simp only [chunkLiterals, List.map_cons, List.sum_cons] at htotal ⊢
          omega
        · simp only [Walk.past, locateChunks, List.append_assoc, List.singleton_append]

theorem walk_takes : ∀ {cs : List Chunk} {fuel : Nat} {w : Walk} {ending : Bytes}, (∀ c ∈ cs, c.Accepted) →
    Ends framed ending → w.blocks.length + cs.length + (if ending = [] then 0 else 1) ≤ maxBlocksPerStream →
    w.totalLiterals ≤ w.offset → w.totalLiterals + chunkLiterals cs ≤ maxTotalLiterals →
    At data w.offset (encodeChunks cs ++ ending) → data.length - w.offset < fuel →
    loop (walkTurn data framed) fuel w = .ok (w.blocks ++ locateChunks w.offset cs)
  | [], fuel + 1, w, ending, _, he, hn, _, _, hat, _ => by
    rw [locateChunks, List.append_nil]
    apply loop_done
    by_cases hnil : ending = []
    · subst hnil
      unfold walkTurn
      rw [if_neg (by rw [hat.eq_end]; exact Nat.lt_irrefl _)]
      rfl
    · rw [if_neg hnil] at hn
      exact walkTurn_end he hn hat
  | c :: cs, fuel + 1, w, ending, hcs, he, hn, hpos, ht, hat, hfuel => by
    obtain ⟨hc, hcs⟩ := List.forall_mem_cons.mp hcs
    have hlit := c.length_literals_le
    have hlen := c.length_encode
    rw [encodeChunks, List.map_cons, List.flatten_cons, List.append_assoc] at hat
    have hl := hat.length
    rw [List.length_append] at hl
    rw [List.length_cons] at hn
    simp only [chunkLiterals, List.map_cons, List.sum_cons] at ht
    rw [loop_next (walkTurn_chunk hc (by omega) hpos (by omega) hat),
      walk_takes (w := w.past c) hcs he (by simp only [Walk.past, List.length_append, List.length_singleton]; omega)
        (by simp only [Walk.past]; omega) (by simp only [Walk.past, chunkLiterals]; omega) hat.skip
        (by simp only [Walk.past]; omega)]
    simp only [Walk.past, locateChunks, List.append_assoc, List.singleton_append]

end

/-! ## Openings -/

section
variable {data : Bytes} {offset : Nat}

theorem Opening.length_encode (o : Opening) : o.encode.length =
    7 + (if o.flg &&& 0x08 ≠ 0 then 8 else 0) + (if o.flg &&& 0x01 ≠ 0 then 1 else 0) := by
  rw [encode, List.length_append, List.length_cons, o.length_body, lz4FrameMagic]
  simp only [List.length_cons, List.length_nil]
  omega

theorem isFramed_iff : isFramed data = true ↔ lz4FrameMagic <+: data := by
  rw [List.prefix_iff_eq_take]
  unfold isFramed
  simp only [decide_eq_true_eq]
  constructor
  · exact fun h => h.2.symm
  · intro h
    refine ⟨?_, h.symm⟩
    have hl := congrArg List.length h
    simp only [lz4FrameMagic, List.length_cons, List.length_nil, List.length_take] at hl
    omega

theorem parseFrameHeader_magic {flg : UInt8} {zs : Bytes} (h : data = lz4FrameMagic ++ flg :: zs) :
    parseFrameHeader data = .ok offset ↔ flg &&& 0xC0 = 0x40 ∧
      7 + (if flg &&& 0x08 ≠ 0 then 8 else 0) + (if flg &&& 0x01 ≠ 0 then 1 else 0) ≤ data.length ∧
      offset = 7 + (if flg &&& 0x08 ≠ 0 then 8 else 0) + (if flg &&& 0x01 ≠ 0 then 1 else 0) := by
  subst h
  have hat : At (lz4FrameMagic ++ flg :: zs) 4 (flg :: zs) := At.mid lz4FrameMagic _
  have htake : (lz4FrameMagic ++ flg :: zs).take 4 = lz4FrameMagic := List.take_left' rfl
  have hl := hat.length
  rw [List.length_cons] at hl
  have hdescriptor : (if flg &&& 0x01 ≠ 0 then (if flg &&& 0x08 ≠ 0 then 6 + 8 else 6) + 1
      else if flg &&& 0x08 ≠ 0 then 6 + 8 else 6) + 1 =
        7 + (if flg &&& 0x08 ≠ 0 then 8 else 0) + (if flg &&& 0x01 ≠ 0 then 1 else 0) := by
    split <;> split <;> rfl
  rw [← hdescriptor]
  unfold parseFrameHeader
  rw [if_neg (List.append_ne_nil_of_left_ne_nil (by decide) _), if_neg (not_or.mpr ⟨by omega, fun hne => hne htake⟩)]
  constructor
  · intro h
    obtain ⟨_, hlen, h⟩ := Run.bind_eq_ok.mp h
    rw [hat.index, Run.ok_bind] at h
    obtain ⟨_, hversion, h⟩ := Run.bind_eq_ok.mp h
    obtain ⟨_, hend, h⟩ := Run.bind_eq_ok.mp h
    rw [failIf_eq_ok] at hversion hend
    cases h
    exact ⟨not_not.mp hversion, Nat.lt_of_not_le hend, rfl⟩
  · rintro ⟨hversion, hend, rfl⟩
    have hlen : 7 ≤ (lz4FrameMagic ++ flg :: zs).length := by
      rw [hdescriptor] at hend
      omega
    rw [failIf_false _ (Nat.not_lt_of_le hlen), Run.ok_bind, hat.index, Run.ok_bind, failIf_false _ (not_not.mpr hversion),
      Run.ok_bind]
    dsimp only
    rw [failIf_false _ (Nat.not_le_of_lt hend)]
    rfl

theorem parseFrameHeader_opening (hmagic : lz4FrameMagic <+: data) :
    parseFrameHeader data = .ok offset ↔ ∃ (o : Opening) (rest : Bytes), data = o.encode ++ rest ∧ offset = o.encode.length := by
  constructor
  · intro h
    obtain ⟨ys, rfl⟩ := hmagic
    cases ys with
    | nil => cases h
    | cons flg zs =>
      obtain ⟨hversion, hend, rfl⟩ := (parseFrameHeader_magic rfl).mp h
      have hat : At (lz4FrameMagic ++ flg :: zs) 4 (flg :: zs) := At.mid lz4FrameMagic _
      have hl := hat.length
      rw [List.length_cons] at hl
      generalize hsize : 2 + (if flg &&& 0x08 ≠ 0 then 8 else 0) + (if flg &&& 0x01 ≠ 0 then 1 else 0) = size
      have hbody : (zs.take size).length = size := by
        rw [List.length_take]
        omega
      refine ⟨⟨flg, zs.take size, hversion, hbody.trans hsize.symm⟩, zs.drop size, ?_, ?_⟩
      · rw [Opening.encode, List.append_assoc, List.cons_append, List.take_append_drop]
      · rw [Opening.length_encode]
  · rintro ⟨o, rest, rfl, rfl⟩
    have hmagic : o.encode ++ rest = lz4FrameMagic ++ o.flg :: (o.body ++ rest) := List.append_assoc ..
    refine (parseFrameHeader_magic hmagic).mpr ⟨o.version, ?_, o.length_encode⟩
    rw [← o.length_encode, List.length_append]
    exact Nat.le_add_right _ _

theorem Opening.prefix_encode (o : Opening) (rest : Bytes) : lz4FrameMagic <+: o.encode ++ rest := by
  rw [encode, List.append_assoc]
  exact List.prefix_append _ _

/-- The first four bytes are a size within the limit. -/
def SmallWord (data : Bytes) : Prop := ∀ m : Bytes, m.length = 4 → m <+: data → fromLe m % 2 ^ 31 ≤ maxBlockSize

theorem smallWord_toLe {word : Nat} (hw : word < 2 ^ 32) (h : word % 2 ^ 31 ≤ maxBlockSize) (rest : Bytes) :
    SmallWord (toLe 4 word ++ rest) := by
  intro m hm hbegins
  have heq := List.prefix_iff_eq_take.mp hbegins
  rw [List.take_left' ((length_toLe 4 word).trans hm.symm)] at heq
  rw [heq, fromLe_toLe 4 word hw]
  exact h

theorem SmallWord.not_magic (h : SmallWord data) : ¬ lz4FrameMagic <+: data := by
  intro hmagic
  have hle := h lz4FrameMagic rfl hmagic
  rw [show fromLe lz4FrameMagic = 0x184D2204 from rfl] at hle
  unfold maxBlockSize at hle
  omega

/-- Without a frame, a block or an end begins the stream. -/
theorem Taken.Accepted.smallWord {t : Taken} (ht : t.Accepted) (h : t.opening = none) : SmallWord t.encode := by
  have hheader : t.header = [] := by rw [Taken.header, h]; rfl
  rw [Taken.encode, hheader, List.nil_append]
  cases hchunks : t.chunks with
  | nil =>
    rw [encodeChunks, List.map_nil, List.flatten_nil, List.nil_append]
    have hends := ht.ends
    generalize t.ending = ending at hends ⊢
    have hshort : ∀ {rest : Bytes}, rest.length < 4 → SmallWord rest := by
      intro rest hrest m hm hbegins
      exact absurd hbegins.length_le (by omega)
    cases hends with
    | nil => exact hshort (by decide)
    | stray _ hrest => exact hshort hrest
    | zero hw hz => exact smallWord_toLe hw (hz ▸ Nat.zero_le _) _
  | cons c cs =>
    have hc := ht.chunks c (hchunks ▸ List.mem_cons_self ..)
    rw [encodeChunks, List.map_cons, List.flatten_cons, Chunk.encode, List.append_assoc, List.append_assoc]
    exact smallWord_toLe (Chunk.headerWord_lt hc.lt) (Chunk.headerWord_low hc.lt ▸ hc.le) _

end

/-! ## Streams -/

theorem walk_iff {data ys : Bytes} {framed : Bool} {offset : Nat} {blocks : List CompressedBlock} (hat : At data offset ys) :
    loop (walkTurn data framed) (data.length + 1) ⟨offset, [], 0⟩ = .ok blocks ↔
      ∃ (cs : List Chunk) (ending : Bytes), ys = encodeChunks cs ++ ending ∧ (∀ c ∈ cs, c.Accepted) ∧ Ends framed ending ∧
        cs.length + (if ending = [] then 0 else 1) ≤ maxBlocksPerStream ∧ chunkLiterals cs ≤ maxTotalLiterals ∧
        locateChunks offset cs = blocks := by
  constructor
  · intro h
    obtain ⟨cs, ending, hys, hcs, he, hn, ht, hr⟩ := walk_taken (w := ⟨offset, [], 0⟩) _ hat (Nat.zero_le _) (Nat.zero_le _) h
    exact ⟨cs, ending, hys, hcs, he, by simpa using hn, by simpa using ht, hr.symm⟩
  · rintro ⟨cs, ending, rfl, hcs, he, hn, ht, rfl⟩
    exact walk_takes (w := ⟨offset, [], 0⟩) hcs he (by simpa using hn) (Nat.zero_le _) (by simpa using ht) hat (by simp only; omega)

theorem parse_taken {t : Taken} (ht : t.Accepted) : parseLz4Blocks t.encode = .ok t.blocks := by
  have hat : At t.encode t.header.length (encodeChunks t.chunks ++ t.ending) := At.mid _ _
  have hwalk := (walk_iff hat).mpr ⟨t.chunks, t.ending, rfl, ht.chunks, ht.ends, ht.few, ht.literals_le, rfl⟩
  cases hopening : t.opening with
  | none =>
    have hmagic := (ht.smallWord hopening).not_magic
    have htake : t.encode.take 4 ≠ lz4FrameMagic := fun h => hmagic (h ▸ List.take_prefix _ _)
    have hheader : t.header.length = 0 := by rw [Taken.header, hopening]; rfl
    rw [hopening] at hwalk
    rw [parseLz4Blocks_eq ht.nonempty (parseFrameHeader_raw ht.nonempty htake), isFramed_raw htake, Taken.blocks]
    rw [hheader] at hwalk ⊢
    exact hwalk
  | some o =>
    have hencode : t.encode = o.encode ++ (encodeChunks t.chunks ++ t.ending) := by rw [Taken.encode, Taken.header, hopening]; rfl
    have hheader : t.header.length = o.encode.length := by rw [Taken.header, hopening]; rfl
    have hmagic : lz4FrameMagic <+: t.encode := hencode ▸ o.prefix_encode _
    rw [hopening] at hwalk
    rw [parseLz4Blocks_eq ht.nonempty ((parseFrameHeader_opening hmagic).mpr ⟨o, _, hencode, rfl⟩), isFramed_iff.mpr hmagic,
      ← hheader]
    exact hwalk

theorem taken_of_parse {data : Bytes} {blocks : List CompressedBlock} (h : parseLz4Blocks data = .ok blocks) :
    ∃ t : Taken, t.Accepted ∧ t.encode = data ∧ t.blocks = blocks := by
  have hne : data ≠ [] := by
    rintro rfl
    cases h
  obtain ⟨offset, hoffset⟩ : ∃ offset, parseFrameHeader data = .ok offset := by
    unfold parseLz4Blocks at h
    rw [if_neg hne] at h
    obtain ⟨offset, hoffset, -⟩ := Run.bind_eq_ok.mp h
    exact ⟨offset, hoffset⟩
  rw [parseLz4Blocks_eq hne hoffset] at h
  by_cases hmagic : lz4FrameMagic <+: data
  · obtain ⟨o, rest, rfl, rfl⟩ := (parseFrameHeader_opening hmagic).mp hoffset
    rw [isFramed_iff.mpr hmagic, walk_iff (At.mid _ _)] at h
    obtain ⟨cs, ending, rfl, hcs, he, hn, ht, rfl⟩ := h
    exact ⟨⟨some o, cs, ending⟩, ⟨hne, hcs, he, hn, ht⟩, rfl, rfl⟩
  · have htake : data.take 4 ≠ lz4FrameMagic := fun h => hmagic (h ▸ List.take_prefix _ _)
    rw [parseFrameHeader_raw hne htake] at hoffset
    cases hoffset
    rw [isFramed_raw htake, walk_iff (At.start _)] at h
    obtain ⟨cs, ending, rfl, hcs, he, hn, ht, rfl⟩ := h
    exact ⟨⟨none, cs, ending⟩, ⟨hne, hcs, he, hn, ht⟩, rfl, rfl⟩

/-- **The streams that are parsed.** The parser takes exactly these, and reports each
block at its header with the literals of its sequences. -/
theorem parseLz4Blocks_accepts_iff (data : Bytes) (blocks : List CompressedBlock) :
    parseLz4Blocks data = .ok blocks ↔ ∃ t : Taken, t.Accepted ∧ t.encode = data ∧ t.blocks = blocks := by
  constructor
  · exact taken_of_parse
  · rintro ⟨t, ht, rfl, rfl⟩
    exact parse_taken ht

end Ziftsieve.Lz4
