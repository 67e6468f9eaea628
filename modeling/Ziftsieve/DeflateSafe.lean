import Ziftsieve.GzipFormat
import Ziftsieve.HuffmanSafe

/-!
# Every DEFLATE stream gets an answer, or a sum overflows

Each read leaves the reader in step with its data, at or past where it was. The
only step of a DEFLATE stream that can panic is giving a dynamic block's lengths
to `fromLengths`: which lengths those are, at a given state, is `declaredLengths`.
-/

namespace Ziftsieve.Gzip

/-- In step with the data, at bit `p` or after. -/
def Past (data : Bytes) (p : Nat) (r : BitReader) : Prop := ∃ q, p ≤ q ∧ Synced data q r

theorem Synced.past {data : Bytes} {p : Nat} {r : BitReader} (h : Synced data p r) : Past data p r :=
  ⟨p, Nat.le_refl _, h⟩

theorem Past.mono {data : Bytes} {p q : Nat} {r : BitReader} (h : Past data q r) (hpq : p ≤ q) : Past data p r := by
  obtain ⟨q', hq, hs⟩ := h
  exact ⟨q', Nat.le_trans hpq hq, hs⟩

/-! ## Steps -/

section
variable {P : BitReader → Prop} {α : Type} {Q : α → Prop}

theorem Keeps.lift {x : Run ZiftError α} (h : Safe x Q) : Keeps P (lift x) Q := by
  intro r hr
  cases hx : x with
  | ok a => exact SafeAt.of_ok (t := r) rfl ⟨hr, h.post a hx⟩
  | error e =>
    obtain ⟨e', rfl⟩ := h.graceful e hx
    exact SafeAt.of_error (t := r) rfl

theorem Keeps.withReader {f : BitReader → Read α} (h : ∀ r, P r → Keeps P (f r) Q) : Keeps P (withReader f) Q :=
  fun r hr => ⟨(h r hr r hr).graceful, (h r hr r hr).post⟩

theorem SafeAt.withReader {f : BitReader → Read α} {r : BitReader} {R : α → BitReader → Prop} (h : SafeAt (f r) r R) :
    SafeAt (withReader f) r R := ⟨h.graceful, h.post⟩

theorem Keeps.failHere (reason : String) : Keeps P (failHere reason : Read α) Q :=
  fun r _ => SafeAt.of_error (t := r) rfl

end

section
variable {data : Bytes} {p : Nat}

/-! ## Reads -/

theorem Past.full {r : BitReader} (h : Past data p r) (k : Nat) :
    Past data p (if r.bitsInBuffer < k then r.refill else r) := by
  obtain ⟨q, hq, hs⟩ := h
  by_cases hk : r.bitsInBuffer < k
  · rw [if_pos hk]; exact ⟨q, hq, hs.refill.1⟩
  · rw [if_neg hk]; exact ⟨q, hq, hs⟩

theorem readBits_keeps (k : Nat) : Keeps (Past data p) (readBits k) fun v => v < 2 ^ k := by
  intro r hr
  have hfull := hr.full k
  by_cases h0 : k = 0
  · refine SafeAt.of_ok (a := 0) (t := r) ?_ ⟨hr, Nat.two_pow_pos k⟩
    unfold readBits
    rw [if_pos h0]
  by_cases h32 : k > 32
  · exact SafeAt.of_error (by unfold readBits; rw [if_neg h0, if_pos h32]; rfl)
  by_cases hshort : (if r.bitsInBuffer < k then r.refill else r).bitsInBuffer < k
  · exact SafeAt.of_error (by unfold readBits; rw [if_neg h0, if_neg h32]; simp only; rw [if_pos hshort]; rfl)
  · apply SafeAt.of_ok (by unfold readBits; rw [if_neg h0, if_neg h32]; simp only; rw [if_neg hshort])
    obtain ⟨q, hq, hs⟩ := hfull
    obtain ⟨hv, ht⟩ := hs.takeBits (Nat.le_of_not_lt hshort)
    refine ⟨⟨q + k, by omega, ht⟩, ?_⟩
    rw [hv]
    exact Nat.lt_of_lt_of_le (ofBits_lt _) (Nat.pow_le_pow_right (by decide) (List.length_take_le _ _))

theorem readBitsU8_keeps (k : Nat) : Keeps (Past data p) (readBitsU8 k) fun v => v < 2 ^ k :=
  (readBits_keeps k).bind fun _ hv => Keeps.ite (fun _ => Keeps.failHere _) fun _ => Keeps.pure hv

theorem alignToByte_keeps : Keeps (Past data p) alignToByte fun _ => True :=
  Keeps.withReader fun _ _ =>
    Keeps.ite (fun _ => (readBits_keeps _).bind fun _ _ => Keeps.pure trivial) fun _ => Keeps.pure trivial

theorem peekU8_keeps : Keeps (Past data p) peekU8 fun _ => True := by
  intro r hr
  have hfull := hr.full 8
  by_cases h0 : r.bitPos ≠ 0
  · exact SafeAt.of_error (by unfold peekU8; rw [if_pos h0]; rfl)
  by_cases hshort : (if r.bitsInBuffer < 8 then r.refill else r).bitsInBuffer < 8
  · exact SafeAt.of_error (by unfold peekU8; rw [if_neg h0]; simp only; rw [if_pos hshort]; rfl)
  · exact SafeAt.of_ok (by unfold peekU8; rw [if_neg h0]; simp only; rw [if_neg hshort]) ⟨hfull, trivial⟩

theorem readU8_keeps : Keeps (Past data p) readU8 fun _ => True :=
  Keeps.withReader fun _ _ =>
    Keeps.ite (fun _ => Keeps.failHere _) fun _ => (readBitsU8_keeps 8).imp fun _ _ => trivial

theorem readU16Le_keeps : Keeps (Past data p) readU16Le fun _ => True :=
  readU8_keeps.bind fun _ _ => readU8_keeps.bind fun _ _ => Keeps.pure trivial

theorem readU32Le_keeps : Keeps (Past data p) readU32Le fun _ => True :=
  readU16Le_keeps.bind fun _ _ => readU16Le_keeps.bind fun _ _ => Keeps.pure trivial

theorem readBytes_keeps (count : Nat) : Keeps (Past data p) (readBytes count) fun _ => True := by
  intro r hr
  obtain ⟨q, hq, hs⟩ := hr
  have hb := hs.bytePos_eq
  by_cases h0 : r.bitPos ≠ 0
  · exact SafeAt.of_error (by unfold readBytes; rw [if_pos h0]; rfl)
  by_cases hshort : r.bytePos + count > r.data.length
  · exact SafeAt.of_error (by unfold readBytes; rw [if_neg h0]; simp only; rw [if_pos hshort]; rfl)
  · obtain ⟨bytes, hbytes⟩ : ∃ bytes, (slice r.data r.bytePos (r.bytePos + count) : Run ZiftError Bytes) = .ok bytes := by
      unfold slice
      rw [if_pos (by omega)]
      exact ⟨_, rfl⟩
    refine SafeAt.of_ok (a := bytes) (t := BitReader.new r.data (r.bytePos + count)) ?_ ?_
    · unfold readBytes
      rw [if_neg h0]
      simp only
      rw [if_neg hshort, hbytes]
      rfl
    · have hbit := hs.bitPos_eq
      rw [hs.data_eq] at hshort ⊢
      exact ⟨⟨8 * (r.bytePos + count), by omega, Synced.new (by omega)⟩, trivial⟩

theorem skipBytes_keeps (count : Nat) : Keeps (Past data p) (skipBytes count) fun _ => True :=
  (readBytes_keeps count).bind fun _ _ => Keeps.pure trivial

theorem decodeLoop_keeps {nodes : List HuffmanNode} {n : Nat} (h : WellFormed nodes n) : ∀ (k : Nat) {node : Nat},
    node < nodes.length → Keeps (Past data p) (decodeLoop nodes k node) fun s => s < n
  | 0, _, _ => Keeps.failHere _
  | k + 1, node, hnode => by
    rw [decodeLoop]
    refine (readBitsU8_keeps 1).bind fun bit _ => (Keeps.lift (index_safe hnode)).bind fun nd hnd => ?_
    cases hc : nd.child (bit = 1) with
    | none => exact Keeps.failHere _
    | some next =>
      have hnext := h.child nd (List.mem_of_getElem? hnd) _ _ hc
      refine (Keeps.lift (index_safe hnext)).bind fun m hm => ?_
      cases hs : m.symbol with
      | none => exact decodeLoop_keeps h k hnext
      | some s => exact Keeps.pure (h.symbol m (List.mem_of_getElem? hm) s hs)

theorem decode_keeps {d : HuffmanDecoder} {n : Nat} (h : WellFormed d.nodes n) :
    Keeps (Past data p) d.decode fun s => s < n :=
  Keeps.ite (fun _ => Keeps.failHere _) fun _ => decodeLoop_keeps h _ h.root

/-! ## The lengths of a dynamic block -/

def Lengths (n : Nat) (L : List Nat) : Prop := L.length = n ∧ ∀ l ∈ L, l ≤ 15

theorem Lengths.set {n i v : Nat} {L : List Nat} (h : Lengths n L) (hv : v ≤ 15) : Lengths n (L.set i v) := by
  refine ⟨by rw [List.length_set]; exact h.1, fun l hl => ?_⟩
  rcases List.mem_or_eq_of_mem_set hl with hl | rfl
  · exact h.2 l hl
  · exact hv

theorem Lengths.replicate (n : Nat) : Lengths n (List.replicate n 0) :=
  ⟨List.length_replicate, fun l hl => by rw [List.eq_of_mem_replicate hl]; exact Nat.zero_le _⟩

theorem fillLengths_safe {value : Nat} (hv : value ≤ 15) (offset n : Nat) : ∀ (k : Nat) {s : List Nat × Nat},
    Lengths n s.1 → Safe (fillLengths value offset k s) fun t => Lengths n t.1
  | 0, _, h => Safe.pure h
  | k + 1, (lengths, i), h => by
    rw [fillLengths]
    refine Safe.failIf fun hi => (setAt_safe (Nat.lt_of_not_le hi)).bind fun ys hys => ?_
    rw [hys]
    exact fillLengths_safe hv offset n k (h.set hv)

structure CodeLengths.Bounded (n : Nat) (s : CodeLengths) : Prop where
  lengths : Lengths n s.lengths
  prev_le : s.prev ≤ 15

theorem fillFrom_keeps {P : BitReader → Prop} {n value count : Nat} {s : CodeLengths} (h : s.Bounded n)
    (hv : value ≤ 15) :
    Keeps P (fillFrom s value count) fun t => t.Bounded n ∧ t.instructions = s.instructions :=
  Keeps.withReader fun _ _ => (Keeps.lift (fillLengths_safe hv _ n count h.lengths)).bind fun _ ht =>
    Keeps.pure ⟨⟨ht, h.prev_le⟩, rfl⟩

theorem handleCodeLengthSymbol_keeps {n symbol : Nat} {s : CodeLengths} (h : s.Bounded n) (hi : s.i < s.lengths.length)
    (hs : symbol < 19) :
    Keeps (Past data p) (handleCodeLengthSymbol symbol s) fun t => t.Bounded n ∧ t.instructions = s.instructions := by
  unfold handleCodeLengthSymbol
  refine Keeps.ite (fun h15 => ?_) fun h15 => Keeps.ite (fun _ => ?_) fun h16 => Keeps.ite (fun _ => ?_) fun h17 =>
    Keeps.ite (fun _ => ?_) fun h18 => absurd hs (by omega)
  · refine (Keeps.lift (setAt_safe hi)).bind fun ys hys => Keeps.pure ⟨⟨?_, h15⟩, rfl⟩
    rw [hys]
    exact h.lengths.set h15
  · exact Keeps.ite (fun _ => Keeps.failHere _) fun _ => (readBits_keeps 2).bind fun _ _ => fillFrom_keeps h h.prev_le
  · exact (readBits_keeps 3).bind fun _ _ => fillFrom_keeps h (Nat.zero_le _)
  · exact (readBits_keeps 7).bind fun _ _ => fillFrom_keeps h (Nat.zero_le _)

/-- A turn of the loop is an instruction, and the instructions are limited. -/
theorem codeLengthTurn_keeps {n : Nat} {d : HuffmanDecoder} {s : CodeLengths} (hd : WellFormed d.nodes 19)
    (h : s.Bounded n) :
    Keeps (Past data p) (codeLengthTurn d s) (Turn.Holds (fun t => t.Bounded n ∧
      maxDeflateInstructions + 1 - t.instructions < maxDeflateInstructions + 1 - s.instructions) (Lengths n)) := by
  unfold codeLengthTurn
  refine Keeps.ite (fun hi => Keeps.ite (fun _ => Keeps.failHere _) fun hmax => ?_) fun _ => Keeps.pure h.lengths
  simp only at hmax
  refine (decode_keeps hd).bind fun symbol hsym => ?_
  have hs : ({ s with instructions := s.instructions + 1 } : CodeLengths).Bounded n := ⟨h.lengths, h.prev_le⟩
  refine (handleCodeLengthSymbol_keeps hs hi hsym).bind fun t ht => Keeps.pure ⟨ht.1, ?_⟩
  rw [ht.2]
  simp only
  omega

theorem decodeCodeLengths_keeps {d : HuffmanDecoder} (hd : WellFormed d.nodes 19) (n : Nat) :
    Keeps (Past data p) (decodeCodeLengths d (List.replicate n 0)) (Lengths n) := by
  refine Keeps.loop (I := CodeLengths.Bounded n) (μ := fun s => maxDeflateInstructions + 1 - s.instructions)
    (fun s hs => codeLengthTurn_keeps hd hs) ⟨Lengths.replicate n, Nat.zero_le _⟩ ?_
  simp only
  omega

theorem readCodeLengthLength_keeps {L : List Nat} {symbol : Nat} (hL : L.length = 19 ∧ ∀ l ∈ L, l ≤ 7)
    (hs : symbol < 19) :
    Keeps (Past data p) (readCodeLengthLength L symbol) fun L => L.length = 19 ∧ ∀ l ∈ L, l ≤ 7 := by
  refine (readBitsU8_keeps 3).bind fun len hlen => (Keeps.lift (setAt_safe (by rw [hL.1]; exact hs))).imp fun ys hys => ?_
  rw [hys, List.length_set]
  refine ⟨hL.1, fun l hl => ?_⟩
  rcases List.mem_or_eq_of_mem_set hl with hl | rfl
  · exact hL.2 l hl
  · omega

/-- `parse_dynamic_trees` up to where it splits the lengths: the two vectors it gives to `from_lengths`. -/
def declaredLengths : Read (List Nat × List Nat) := do
  let hlit := (← readBitsUsize 5) + 257
  let hdist := (← readBitsUsize 5) + 1
  let hclen := (← readBitsUsize 4) + 4
  if hlit > 286 ∨ hdist > 30 then
    failHere "invalid dynamic Huffman header sizes. Fix: use a valid gzip stream"
  else do
    let codeLengthLengths ← (hclenOrder.take hclen).foldlM readCodeLengthLength (List.replicate 19 0)
    let codeLengthDecoder ← lift (HuffmanDecoder.fromLengths codeLengthLengths "code length")
    let lengths ← decodeCodeLengths codeLengthDecoder (List.replicate (hlit + hdist) 0)
    pure (lengths.take hlit, lengths.drop hlit)

def treesOf (lits dists : List Nat) : Read (HuffmanDecoder × HuffmanDecoder) := do
  let literalDecoder ← lift (HuffmanDecoder.fromLengths lits "literal/length")
  let distanceDecoder ← lift (HuffmanDecoder.fromLengths dists "distance")
  pure (literalDecoder, distanceDecoder)

theorem failHere_ite_bind {α β : Type} {c : Prop} [Decidable c] (reason : String) (m : Read α) (k : α → Read β) :
    (if c then failHere reason else m) >>= k = if c then failHere reason else m >>= k := by
  by_cases h : c
  · rw [if_pos h, if_pos h]; rfl
  · rw [if_neg h, if_neg h]

theorem parseDynamicTrees_eq : parseDynamicTrees = declaredLengths >>= fun L => treesOf L.1 L.2 := by
  unfold parseDynamicTrees declaredLengths treesOf
  simp only [bind_assoc, failHere_ite_bind, pure_bind]

theorem declaredLengths_keeps : Keeps (Past data p) declaredLengths fun L =>
    (L.1.length < 2 ^ 16 ∧ ∀ l ∈ L.1, l ≤ 15) ∧ (L.2.length < 2 ^ 16 ∧ ∀ l ∈ L.2, l ≤ 15) := by
  unfold declaredLengths
  refine (readBits_keeps 5).bind fun hlit _ => (readBits_keeps 5).bind fun hdist _ =>
    (readBits_keeps 4).bind fun hclen _ => Keeps.ite (fun _ => Keeps.failHere _) fun hsizes => ?_
  have horder : ∀ symbol ∈ hclenOrder, symbol < 19 := by decide
  refine (Keeps.foldlM (I := fun L : List Nat => L.length = 19 ∧ ∀ l ∈ L, l ≤ 7)
    (fun L symbol hsym hL => readCodeLengthLength_keeps hL (horder symbol (List.mem_of_mem_take hsym)))
    ⟨List.length_replicate, fun l hl => by rw [List.eq_of_mem_replicate hl]; exact Nat.zero_le _⟩).bind fun L hL => ?_
  have hfit : CodesFit L := codesFit_of_short hL.2 (by rw [hL.1]; decide)
  refine (Keeps.lift (fromLengths_safe _ (by rw [hL.1]; decide) hfit)).bind fun d hd => ?_
  rw [hL.1] at hd
  refine (decodeCodeLengths_keeps hd _).bind fun lengths hlengths => Keeps.pure ?_
  have hlen := hlengths.1
  refine ⟨⟨?_, fun l hl => hlengths.2 l (List.mem_of_mem_take hl)⟩, ?_, fun l hl => hlengths.2 l (List.mem_of_mem_drop hl)⟩
  · rw [List.length_take]; omega
  · rw [List.length_drop]; omega

/-- What `from_lengths` is given fits; the distances are looked at only if the
literals and lengths give a decoder. -/
def TreesFit (lits dists : List Nat) : Prop :=
  CodesFit lits ∧ ∀ d, HuffmanDecoder.fromLengths lits "literal/length" = .ok d → CodesFit dists

theorem treesOf_keeps {P : BitReader → Prop} {lits dists : List Nat} (hl : lits.length < 2 ^ 16)
    (hd : dists.length < 2 ^ 16) (h : TreesFit lits dists) :
    Keeps P (treesOf lits dists) fun d => WellFormed d.1.nodes lits.length ∧ WellFormed d.2.nodes dists.length := by
  have hlit := fromLengths_safe "literal/length" hl h.1
  refine (Keeps.lift (hlit.and fun d hd => h.2 d hd)).bind fun d hdec => ?_
  exact (Keeps.lift (fromLengths_safe "distance" hd hdec.2)).bind fun e he => Keeps.pure ⟨hdec.1, he⟩

/-- Whatever `from_lengths` is given, it is the only step of the trees that can panic. -/
theorem treesOf_graceful {lits dists : List Nat} {r : BitReader} (hl : lits.length < 2 ^ 16 ∧ ∀ l ∈ lits, l ≤ 15)
    (hd : dists.length < 2 ^ 16 ∧ ∀ l ∈ dists, l ≤ 15) (h : Graceful (treesOf lits dists r).1) : TreesFit lits dists := by
  refine ⟨(fromLengths_graceful_iff _ hl.1 hl.2).mp h.left, fun d hdec => ?_⟩
  have hrest := h.of_bind (a := d) (t := r) (by rw [hdec]; rfl)
  exact (fromLengths_graceful_iff _ hd.1 hd.2).mp hrest.left

/-! ## Blocks -/

theorem parseStoredBlock_keeps (block : CompressedBlock) :
    Keeps (Past data p) (parseStoredBlock block) fun _ => True :=
  alignToByte_keeps.bind fun _ _ => readU16Le_keeps.bind fun len _ => readU16Le_keeps.bind fun _ _ =>
    Keeps.ite (fun _ => Keeps.failHere _) fun _ => Keeps.ite (fun _ => Keeps.fail _) fun _ =>
      (readBytes_keeps len).bind fun _ _ => Keeps.pure trivial

theorem matchPair_keeps {symbol n : Nat} {e : HuffmanDecoder} (he : WellFormed e.nodes n) (hs : symbol ≤ 285) :
    Keeps (Past data p) (matchPair symbol e) fun _ => True := by
  have hextra : ∀ k : Nat, Keeps (Past data p) (if k > 0 then readBits k else pure 0) fun _ => True := fun k =>
    Keeps.ite (fun _ => (readBits_keeps k).imp fun _ _ => trivial) fun _ => Keeps.pure trivial
  unfold matchPair
  refine (Keeps.lift (index_safe ?_)).bind fun extraBits _ => (Keeps.lift (index_safe ?_)).bind fun base _ => ?_
  · exact Nat.lt_of_le_of_lt (Nat.sub_le_sub_right hs _) (by decide)
  · exact Nat.lt_of_le_of_lt (Nat.sub_le_sub_right hs _) (by decide)
  refine (hextra extraBits).bind fun lengthExtra _ => (decode_keeps he).bind fun distSymbol _ => ?_
  refine Keeps.ite (fun _ => Keeps.failHere _) fun h30 => ?_
  have hlt : distSymbol < 30 := Nat.lt_of_not_le h30
  exact (Keeps.lift (index_safe hlt)).bind fun distBase _ => (Keeps.lift (index_safe hlt)).bind fun distExtra _ =>
    (hextra distExtra).bind fun _ _ => Keeps.pure trivial

theorem huffmanTurn_keeps {d e : HuffmanDecoder} {n k m : Nat} (hd : WellFormed d.nodes n) (he : WellFormed e.nodes k)
    (s : HuffmanBlock) :
    Keeps (Past data p) (huffmanTurn d e m s)
      (Turn.Holds (fun t => True ∧ m - t.instructions < m - s.instructions) fun _ => True) := by
  unfold huffmanTurn
  refine Keeps.ite (fun _ => Keeps.failHere _) fun hm => (decode_keeps hd).bind fun symbol _ => ?_
  have hnext : m - (s.instructions + 1) < m - s.instructions := by omega
  refine Keeps.ite (fun _ => Keeps.ite (fun _ => Keeps.fail _) fun _ => Keeps.pure ⟨trivial, hnext⟩) fun _ => ?_
  refine Keeps.ite (fun _ => Keeps.pure trivial) fun _ => Keeps.ite (fun h285 => ?_) fun _ => ?_
  · have hmatch : Keeps (Past data p) (parseMatch symbol e) fun _ => True :=
      (matchPair_keeps he h285).bind fun _ _ => Keeps.pure trivial
    exact hmatch.bind fun _ _ => Keeps.pure ⟨trivial, hnext⟩
  · exact Keeps.ite (fun _ => Keeps.failHere _) fun _ => Keeps.failHere _

theorem parseHuffmanBlock_keeps (block : CompressedBlock) {d e : HuffmanDecoder} {n k : Nat}
    (hd : WellFormed d.nodes n) (he : WellFormed e.nodes k) :
    Keeps (Past data p) (parseHuffmanBlock block d e) fun _ => True :=
  Keeps.loop (I := fun _ => True) (μ := fun s => maxDeflateInstructions - s.instructions)
    (fun s _ => huffmanTurn_keeps hd he s) trivial (Nat.lt_succ_self _)

theorem length_fixedLitlenCodeLengths : fixedLitlenCodeLengths.length = 288 := by
  simp only [fixedLitlenCodeLengths, List.length_append, List.length_replicate]

theorem length_fixedDistCodeLengths : fixedDistCodeLengths.length = 32 := by
  simp only [fixedDistCodeLengths, List.length_replicate]

theorem fixedTrees_keeps {kind : String} {L : List Nat} (h : Kraft 15 L) (hlen : 15 * L.length < 2 ^ 15)
    {P : BitReader → Prop} :
    Keeps P (lift (HuffmanDecoder.fromLengths L kind)) fun d => WellFormed d.nodes L.length := by
  obtain ⟨d, hd, -⟩ := fromLengths_sound h hlen kind
  have hgraceful : Graceful (HuffmanDecoder.fromLengths L kind) := by rw [hd]; exact Graceful.ok d
  exact Keeps.lift (fromLengths_safe kind (by omega) ((fromLengths_graceful_iff kind (by omega) h.le).mp hgraceful))

/-! ## The loop over the blocks -/

/-- At this state of the block loop, a dynamic block declares the two vectors. -/
def Declares (s : Stream) (r : BitReader) (lits dists : List Nat) : Prop :=
  s.blocks.length < maxDeflateBlocksPerMember ∧ ∃ final r₁ r₂ r₃, readBits 1 r = (.ok final, r₁) ∧
    readBits 2 r₁ = (.ok 2, r₂) ∧ declaredLengths r₂ = (.ok (lits, dists), r₃)

theorem parseSingleBlock_safe {blockType : Nat} (block : CompressedBlock) (ht : blockType < 4) {r : BitReader}
    (hr : Past data p r)
    (hfit : blockType = 2 → ∀ lits dists t, declaredLengths r = (.ok (lits, dists), t) → TreesFit lits dists) :
    SafeAt (parseSingleBlock blockType block) r fun _ t => Past data p t ∧ True := by
  match blockType, ht with
  | 0, _ => exact ((parseStoredBlock_keeps block).bind fun _ _ => Keeps.pure trivial) r hr
  | 1, _ =>
    refine Keeps.bind (fixedTrees_keeps kraft_fixedLitlen (by rw [length_fixedLitlenCodeLengths]; decide)) (fun d hd => ?_) r hr
    exact Keeps.bind (fixedTrees_keeps kraft_fixedDist (by rw [length_fixedDistCodeLengths]; decide)) fun e he => parseHuffmanBlock_keeps block hd he
  | 2, _ =>
    unfold parseSingleBlock
    rw [parseDynamicTrees_eq]
    refine SafeAt.bind (Q := fun d t => Past data p t ∧ ∃ n k, WellFormed d.1.nodes n ∧ WellFormed d.2.nodes k) ?_
      fun d t hd => ?_
    · refine (declaredLengths_keeps r hr).bind_eq fun L t hrun hL => ?_
      have htrees := treesOf_keeps (P := Past data p) hL.2.1.1 hL.2.2.1 (hfit rfl L.1 L.2 t hrun)
      exact (htrees t hL.1).imp fun d u hd => ⟨hd.1, _, _, hd.2.1, hd.2.2⟩
    · obtain ⟨hpast, _, _, hlit, hdist⟩ := hd
      exact parseHuffmanBlock_keeps block hlit hdist t hpast
  | 3, _ => exact Keeps.withReader (fun _ _ => Keeps.fail _) r hr

theorem streamTurn_safe {s : Stream} {r : BitReader} (hr : Past data p r)
    (hfit : ∀ lits dists, Declares s r lits dists → TreesFit lits dists) :
    SafeAt (streamTurn s) r fun turn t => Past data p t ∧ turn.Holds (fun s' =>
      maxDeflateBlocksPerMember - s'.blocks.length < maxDeflateBlocksPerMember - s.blocks.length) fun _ => True := by
  unfold streamTurn
  refine SafeAt.ite (fun _ => Keeps.failHere _ r hr) fun hmax => ?_
  have hlt : s.blocks.length < maxDeflateBlocksPerMember := Nat.lt_of_not_le hmax
  refine SafeAt.withReader ((readBits_keeps 1 r hr).bind_eq fun final r₁ h1 hr₁ => ?_)
  refine (readBits_keeps 2 r₁ hr₁.1).bind_eq fun blockType r₂ h2 hr₂ => ?_
  refine (parseSingleBlock_safe _ hr₂.2 hr₂.1 ?_).bind fun b r₃ hr₃ => ?_
  · rintro rfl lits dists t hd
    exact hfit lits dists ⟨hlt, final, r₁, r₂, t, h1, h2, hd⟩
  · refine SafeAt.failIf fun _ => SafeAt.withReader (SafeAt.failIf fun _ => SafeAt.pure ⟨hr₃.1, ?_⟩)
    by_cases hfinal : final = 1
    · rw [if_pos hfinal]; trivial
    · rw [if_neg hfinal]
      simp only [Turn.Holds, List.length_append, List.length_singleton]
      omega

theorem streamTurn_next {s s' : Stream} {r t : BitReader} (h : streamTurn s r = (.ok (.next s'), t)) :
    s.blocks.length < maxDeflateBlocksPerMember ∧ s'.blocks.length = s.blocks.length + 1 := by
  unfold streamTurn at h
  by_cases hmax : s.blocks.length ≥ maxDeflateBlocksPerMember
  · rw [if_pos hmax] at h
    cases h
  · rw [if_neg hmax] at h
    unfold withReader at h
    dsimp only at h
    obtain ⟨final, r₁, -, h⟩ := bind_eq_ok.mp h
    obtain ⟨blockType, r₂, -, h⟩ := bind_eq_ok.mp h
    obtain ⟨b, r₃, -, h⟩ := bind_eq_ok.mp h
    obtain ⟨-, r₄, -, h⟩ := bind_eq_ok.mp h
    obtain ⟨-, r₅, -, h⟩ := bind_eq_ok.mp h
    refine ⟨Nat.lt_of_not_le hmax, ?_⟩
    by_cases hfinal : final = 1
    · rw [if_pos hfinal] at h
      cases h
    · rw [if_neg hfinal] at h
      cases h
      simp

theorem streamTurn_trees {s : Stream} {r : BitReader} {lits dists : List Nat} (hr : Past data p r)
    (hg : Graceful (streamTurn s r).1) (hd : Declares s r lits dists) : TreesFit lits dists := by
  obtain ⟨hlt, final, r₁, r₂, r₃, h1, h2, h3⟩ := hd
  have hr₂ := ((readBits_keeps 2 r₁ ((readBits_keeps 1 r hr).post final r₁ h1).1).post 2 r₂ h2).1
  obtain ⟨-, hl, hd⟩ := (declaredLengths_keeps r₂ hr₂).post (lits, dists) r₃ h3
  unfold streamTurn at hg
  rw [if_neg (Nat.not_le.mpr hlt)] at hg
  unfold withReader at hg
  dsimp only at hg
  have hblock := ((hg.of_bind h1).of_bind h2).left
  unfold parseSingleBlock at hblock
  rw [parseDynamicTrees_eq] at hblock
  exact treesOf_graceful hl hd (hblock.left.of_bind h3)

theorem streamTurns_blocks {s₀ s : Stream} {r₀ r : BitReader} {n : Nat} (h : Turns streamTurn s₀ r₀ n s r) :
    s.blocks.length = s₀.blocks.length + n ∧ n ≤ maxDeflateBlocksPerMember := by
  induction h with
  | start => exact ⟨rfl, Nat.zero_le _⟩
  | next _ hrun ih =>
    obtain ⟨hlt, hlen⟩ := streamTurn_next hrun
    omega

theorem parseDeflateStream_safe {blocks : List CompressedBlock} {totalLiterals : Nat} {r : BitReader}
    (hr : Past data p r)
    (hfit : ∀ n s t lits dists, Turns streamTurn ⟨blocks, totalLiterals, false⟩ r n s t → Declares s t lits dists →
      TreesFit lits dists) :
    SafeAt (parseDeflateStream blocks totalLiterals) r fun _ t => Past data p t := by
  refine SafeAt.loop (I := fun s t => Past data p t ∧ ∃ n, Turns streamTurn ⟨blocks, totalLiterals, false⟩ r n s t)
    (μ := fun s => maxDeflateBlocksPerMember - s.blocks.length) ?_ _ _ r ⟨hr, 0, Turns.start⟩
    (Nat.lt_succ_of_le (Nat.sub_le _ _))
  rintro s t ⟨ht, n, hn⟩
  have hsafe := streamTurn_safe ht fun lits dists hd => hfit n s t lits dists hn hd
  refine ⟨hsafe.graceful, fun turn u hrun => ?_⟩
  obtain ⟨hu, hturn⟩ := hsafe.post turn u hrun
  cases turn with
  | next s' => exact ⟨⟨hu, n + 1, hn.next hrun⟩, hturn⟩
  | done s' => exact hu

/-- By induction on the turns: where the loop does not panic, every turn it gets to is
in step with the data and was given trees that fit. -/
theorem streamTurns_fit {blocks : List CompressedBlock} {totalLiterals n : Nat} {r t : BitReader} {s : Stream}
    (hr : Past data p r) (hg : Graceful (parseDeflateStream blocks totalLiterals r).1)
    (h : Turns streamTurn ⟨blocks, totalLiterals, false⟩ r n s t) :
    Past data p t ∧ ∀ lits dists, Declares s t lits dists → TreesFit lits dists := by
  have hfit : ∀ {n : Nat} {s : Stream} {t : BitReader}, Turns streamTurn ⟨blocks, totalLiterals, false⟩ r n s t →
      Past data p t → ∀ lits dists, Declares s t lits dists → TreesFit lits dists := fun hn ht lits dists hd =>
    streamTurn_trees ht (hn.graceful (Nat.lt_succ_of_le (streamTurns_blocks hn).2) hg) hd
  have hpast : Past data p t := by
    induction h with
    | start => exact hr
    | next hn hrun ih => exact ((streamTurn_safe ih (hfit hn ih)).post _ _ hrun).1
  exact ⟨hpast, hfit h hpast⟩

end

end Ziftsieve.Gzip
