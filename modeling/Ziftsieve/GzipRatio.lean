import Ziftsieve.GzipSound
import Ziftsieve.GzipTraces
import Ziftsieve.LiteralBounds
import Ziftsieve.TreesSound

/-!
# What a gzip stream expands to

The parser decodes the length of every match and drops it. A trace of its run
keeps the lengths: with the literals they are the size the stream implies. A
match is 258 bytes at most and costs two bits or more, so that this is at most
1032 bytes for each byte of the stream. No smaller ratio is checked: a stream of
short matches keeps the documented one because of what they cost.
-/

namespace Ziftsieve.Gzip

/-! ## The pieces of a stream -/

/-- What a token or a stored block stands for in the output. -/
inductive Piece where
  | bytes (n : Nat)
  | pair (length : Nat)

namespace Piece

def kept : Piece → Nat
  | bytes n => n
  | pair _ => 0

def copied : Piece → Nat
  | bytes _ => 0
  | pair length => length

def size (x : Piece) : Nat := x.kept + x.copied

/-- The bits it takes at least: one for a byte, two for a match. -/
def cost : Piece → Nat
  | bytes n => n
  | pair _ => 2

end Piece

/-- What the token read next stands for. -/
def tokenPieces (d e : HuffmanDecoder) : BitReader → List Piece :=
  seen d.decode fun symbol =>
    if symbol ≤ 255 then fun _ => [.bytes 1]
    else if symbol = 256 then fun _ => []
    else if symbol ≤ 285 then seen (matchPair symbol e) fun pair _ => [.pair pair.1]
    else fun _ => []

def huffmanPieces (block : CompressedBlock) (d e : HuffmanDecoder) : BitReader → List Piece :=
  loopTrace (huffmanTurn d e maxDeflateInstructions) (fun _ => tokenPieces d e) (maxDeflateInstructions + 1)
    ⟨block, false, 0⟩

def blockPieces (blockType : Nat) (block : CompressedBlock) : BitReader → List Piece :=
  match blockType with
  | 0 => seen (parseStoredBlock block) fun b _ => [.bytes (b.literals.length - block.literals.length)]
  | 1 =>
    seen (lift (HuffmanDecoder.fromLengths fixedLitlenCodeLengths "fixed")) fun d =>
      seen (lift (HuffmanDecoder.fromLengths fixedDistCodeLengths "fixed distance")) fun e => huffmanPieces block d e
  | 2 => seen parseDynamicTrees fun t => huffmanPieces block t.1 t.2
  | _ => fun _ => []

def streamPieces (r : BitReader) : List Piece :=
  seen (readBits 1) (fun _ => seen (readBits 2) fun blockType =>
    blockPieces blockType (CompressedBlock.new (r.bitOffset / 8) 0)) r

def memberPieces (s : Members) (r : BitReader) : List Piece :=
  (if r.remainingBytes > 0 then
    seen parseGzipHeader fun _ => loopTrace streamTurn (fun _ => streamPieces) (maxDeflateBlocksPerMember + 1)
      ⟨s.blocks, s.totalLiterals, false⟩
  else fun _ => []) r

/-- The pieces of every member, as the parser's run reads them. -/
def pieces (ext : External) (data : Bytes) : List Piece :=
  loopTrace (memberTurn ext) memberPieces 1025 ⟨[], 0, 0⟩ (BitReader.new data 0)

/-- Stored bytes and literal tokens. -/
def keptSize (l : List Piece) : Nat := (l.map Piece.kept).sum

/-- All that the stream expands to: with the bytes, the lengths of the matches. -/
def impliedSize (l : List Piece) : Nat := (l.map Piece.size).sum

def bitCost (l : List Piece) : Nat := (l.map Piece.cost).sum

/-- A byte costs a bit and a match two, so that matches of `m` bytes make `m` bytes for two bits. -/
theorem impliedSize_le_cost {m : Nat} (hm : 2 ≤ m) : ∀ {l : List Piece}, (∀ x ∈ l, x.copied ≤ m) →
    2 * impliedSize l ≤ m * bitCost l
  | [], _ => Nat.zero_le _
  | x :: l, h => by
    have hrest := impliedSize_le_cost hm fun y hy => h y (List.mem_cons_of_mem x hy)
    have hfirst : 2 * x.size ≤ m * x.cost := by
      have hx := h x List.mem_cons_self
      cases x with
      | bytes n => exact Nat.mul_le_mul_right n hm
      | pair length =>
        have hlength : length ≤ m := hx
        simp only [Piece.size, Piece.kept, Piece.copied, Piece.cost]
        omega
    unfold impliedSize bitCost at hrest ⊢
    rw [List.map_cons, List.map_cons, List.sum_cons, List.sum_cons, Nat.mul_add, Nat.mul_add]
    exact Nat.add_le_add hfirst hrest

/-! ## What the pieces cost -/

/-- From bit `p` and `n` literals on, to bit `q` and `m` literals: the literals are those of
the pieces, no match is longer than 258, and the bits are there that the pieces cost. -/
structure Paid (p n q m : Nat) (l : List Piece) : Prop where
  kept_eq : n + keptSize l = m
  cost_le : p + bitCost l ≤ q
  copied_le : ∀ x ∈ l, x.copied ≤ 258

theorem Paid.refl (p n : Nat) : Paid p n p n [] := ⟨rfl, Nat.le_refl _, fun _ hx => absurd hx List.not_mem_nil⟩

theorem Paid.trans {p n q m r k : Nat} {l l' : List Piece} (h : Paid p n q m l) (h' : Paid q m r k l') :
    Paid p n r k (l ++ l') := by
  have hkept := h.kept_eq
  have hkept' := h'.kept_eq
  have hcost := h.cost_le
  have hcost' := h'.cost_le
  unfold keptSize at hkept hkept'
  unfold bitCost at hcost hcost'
  refine ⟨?_, ?_, fun x hx => ?_⟩
  · rw [keptSize, List.map_append, List.sum_append]
    omega
  · rw [bitCost, List.map_append, List.sum_append]
    omega
  · exact (List.mem_append.mp hx).elim (h.copied_le x) (h'.copied_le x)

theorem Paid.add {p n q m : Nat} {l : List Piece} (c : Nat) (h : Paid p n q m l) : Paid p (c + n) q (c + m) l :=
  ⟨by rw [Nat.add_assoc, h.kept_eq], h.cost_le, h.copied_le⟩

theorem Paid.mono {p n q m q' : Nat} {l : List Piece} (h : Paid p n q m l) (hq : q ≤ q') : Paid p n q' m l :=
  ⟨h.kept_eq, Nat.le_trans h.cost_le hq, h.copied_le⟩

theorem Paid.early {p p' n q m : Nat} {l : List Piece} (h : Paid p n q m l) (hp : p' ≤ p) : Paid p' n q m l :=
  ⟨h.kept_eq, Nat.le_trans (Nat.add_le_add_right hp _) h.cost_le, h.copied_le⟩

theorem Paid.bytes {p n q : Nat} (k : Nat) (h : p + k ≤ q) : Paid p n q (n + k) [.bytes k] := by
  refine ⟨rfl, h, fun x hx => ?_⟩
  rw [List.mem_singleton.mp hx]
  exact Nat.zero_le _

theorem Paid.pair {p n q length : Nat} (h : p + 2 ≤ q) (hlen : length ≤ 258) : Paid p n q n [.pair length] := by
  refine ⟨rfl, h, fun x hx => ?_⟩
  rw [List.mem_singleton.mp hx]
  exact hlen

theorem paid_composes : Composes Paid where
  refl := Paid.refl
  trans := Paid.trans
  widen hp hq h := (h.early hp).mono hq

section
variable {data : Bytes} {k p : Nat}

/-! ## Blocks -/

variable {d e : HuffmanDecoder}

theorem huffmanTurn_shows (maxInstructions : Nat) (s : HuffmanBlock) :
    Shows (cutView data k) p (huffmanTurn d e maxInstructions s) (tokenPieces d e) fun q turn l =>
      turn.Holds (fun s' => Paid p s.block.literals.length q s'.block.literals.length l)
        fun r => Paid p s.block.literals.length q r.2.literals.length l := by
  unfold huffmanTurn tokenPieces
  refine Shows.guarded (fun _ => Shows.failHere _) fun _ => Shows.seen (decode_tracks d) fun q symbol hpq hq => ?_
  refine Shows.ite (fun _ => Shows.guarded (fun _ => Shows.stop _) fun _ => ?_) fun _ => ?_
  · refine Shows.const (Tracks.pure ?_)
    simp only [Turn.Holds, List.length_append, List.length_singleton]
    exact Paid.bytes 1 hq
  refine Shows.ite (fun _ => Shows.const (Tracks.pure ((Paid.refl _ _).mono hpq))) fun _ => ?_
  refine Shows.ite (fun _ => ?_) fun _ => Shows.guarded (fun _ => Shows.failHere _) fun _ => Shows.failHere _
  have hpair : Shows (cutView data k) q (parseMatch symbol e) (seen (matchPair symbol e) fun pair _ => [.pair pair.1])
      fun q' _ l => Paid p s.block.literals.length q' s.block.literals.length l :=
    Shows.seen (matchPair_tracks symbol e) fun q' pair _ hpair =>
      Shows.const (Tracks.pure (Paid.pair (by omega) hpair.2))
  exact hpair.andThen fun q' _ l _ hpaid => Tracks.pure hpaid

theorem huffmanPieces_shows (block : CompressedBlock) :
    Shows (cutView data k) p (parseHuffmanBlock block d e) (huffmanPieces block d e) fun q r l =>
      Paid p block.literals.length q r.2.literals.length l :=
  paid_composes.loop (c := fun s => s.block.literals.length) (fun _ s => huffmanTurn_shows _ s) _ ⟨block, false, 0⟩

theorem blockPieces_shows (blockType offset : Nat) :
    Shows (cutView data k) p (parseSingleBlock blockType (CompressedBlock.new offset 0))
      (blockPieces blockType (CompressedBlock.new offset 0)) fun q r l => Paid p 0 q r.2.literals.length l := by
  unfold parseSingleBlock blockPieces
  split
  · have hnew : Costs p p (CompressedBlock.new offset 0) := ⟨rfl, Nat.le_refl p⟩
    refine Shows.seen (parseStoredBlock_tracks hnew) fun q b _ hb => Shows.const (Tracks.pure ?_)
    have hpaid := Paid.bytes (n := 0) b.literals.length hb.literals_le
    rwa [Nat.zero_add] at hpaid
  · refine Shows.seen (Tracks.lift_any _) fun q₁ d h₁ _ => Shows.seen (Tracks.lift_any _) fun q₂ e h₂ _ => ?_
    exact (huffmanPieces_shows _).imp fun _ _ _ _ hpaid => hpaid.early (Nat.le_trans h₁ h₂)
  · refine Shows.seen parseDynamicTrees_tracks fun q t hpq _ => ?_
    exact (huffmanPieces_shows _).imp fun _ _ _ _ hpaid => hpaid.early hpq
  · exact Shows.withReader (g := fun _ _ => []) fun r _ => Shows.stop _
  · exact Shows.stop _

/-! ## Streams and members -/

theorem literalSum_concat (bs : List CompressedBlock) (b : CompressedBlock) :
    literalSum (bs ++ [b]) = literalSum bs + b.literals.length := by
  unfold literalSum
  rw [List.map_append, List.sum_append, List.map_singleton, List.sum_singleton]

theorem streamPieces_shows (s : Stream) :
    Shows (cutView data k) p (streamTurn s) streamPieces fun q turn l =>
      turn.Holds (fun s' => Paid p (literalSum s.blocks) q (literalSum s'.blocks) l)
        fun s' => Paid p (literalSum s.blocks) q (literalSum s'.blocks) l := by
  unfold streamTurn streamPieces
  refine Shows.guarded (fun _ => Shows.failHere _) fun _ => Shows.withReader (g := fun r => seen (readBits 1) fun _ =>
    seen (readBits 2) fun blockType => blockPieces blockType (CompressedBlock.new (r.bitOffset / 8) 0)) fun r _ => ?_
  refine Shows.seen (readBits_tracks 1) fun q₁ final h₁ _ => Shows.seen (readBits_tracks 2) fun q₂ blockType h₂ _ => ?_
  refine (blockPieces_shows blockType _).andThen fun q₃ m l h₃ hpaid => Tracks.failIf fun _ => ?_
  have hpush : ∀ used, Paid p (literalSum s.blocks) q₃
      (literalSum (s.blocks ++ [{ m.2 with compressedLen := used }])) l := by
    intro used
    rw [literalSum_concat]
    exact (hpaid.early (Nat.le_trans h₁ h₂)).add _
  refine Tracks.withReader (fun r r' hr hr' => by rw [hr.bitOffset, hr'.bitOffset]) fun r _ => ?_
  refine Tracks.failIf fun _ => Tracks.pure ?_
  by_cases hfinal : final = 1
  · rw [if_pos hfinal]
    exact hpush _
  · rw [if_neg hfinal]
    exact hpush _

/-- The pieces of an accepted stream are its literals and its matches, and cost no more bits than it has. -/
theorem pieces_paid {ext : External} {bs : List CompressedBlock} (h : extractLiterals ext data = .ok bs) :
    Paid 0 0 (8 * data.length) (literalSum bs) (pieces ext data) := by
  have hJ : Composes fun p bs q cs l => Paid p (literalSum bs) q (literalSum cs) l := paid_composes.comap literalSum
  exact blockTrace_shows hJ (fun _ => streamPieces_shows) h

/-! ## The pieces of a token list -/

def Token.piece : Token → Piece
  | literal _ => .bytes 1
  | pair length _ => .pair (length.value literalLengthBases)

section
variable {rest : List Bool} {lit dist : Nat → List Bool} {r : BitReader}

theorem tokenPieces_token {t : Token} (ht : t.Readable d e lit dist) (h : At (bytesBits data) p (t.bits lit dist ++ rest))
    (hr : Synced data p r) : tokenPieces d e r = [t.piece] := by
  cases t with
  | literal b =>
    have hb : b.toNat < 256 := b.toNat_lt
    refine seen_yields (ht h) (fun r' _ => ?_) hr
    rw [if_pos (by omega)]
    rfl
  | pair l x =>
    have hl : l.idx < 29 := l.idx_lt
    obtain ⟨hd, he⟩ := ht
    simp only [Token.bits, List.append_assoc] at h
    refine seen_yields (hd h) (fun r' hr' => ?_) hr
    rw [if_neg (by omega), if_neg (by omega), if_pos (by omega)]
    exact seen_yields (matchPair_yields he h.skip) (fun _ _ => rfl) hr'

theorem tokenPieces_end (hend : Decodes d lit 256) (h : At (bytesBits data) p (lit 256 ++ rest)) (hr : Synced data p r) :
    tokenPieces d e r = [] :=
  seen_yields (hend h) (fun _ _ => rfl) hr

theorem huffmanTrace_tokens {m : Nat} (hend : Decodes d lit 256) : ∀ {ts : List Token} {s : HuffmanBlock} {n p : Nat}
    {r : BitReader}, (∀ t ∈ ts, t.Readable d e lit dist) → s.instructions + ts.length + 1 ≤ m → ts.length ≤ n →
    s.block.literals.length + (ts.flatMap Token.literals).length ≤ maxBlockLiterals →
    At (bytesBits data) p (ts.flatMap (Token.bits lit dist) ++ (lit 256 ++ rest)) → Synced data p r →
    loopTrace (huffmanTurn d e m) (fun _ => tokenPieces d e) (n + 1) s r = ts.map Token.piece
  | [], s, n, p, r, _, hi, _, _, h, hr => by
    rw [loopTrace_done (huffmanTurn_end hend (by omega) h) hr]
    exact tokenPieces_end hend h hr
  | t :: ts, s, n, p, r, ht, hi, hn, hcap, h, hr => by
    rw [List.length_cons] at hi hn
    obtain ⟨n, rfl⟩ : ∃ m, n = m + 1 := ⟨n - 1, by omega⟩
    rw [List.flatMap_cons, List.length_append] at hcap
    rw [List.flatMap_cons, List.append_assoc] at h
    have hread := ht t List.mem_cons_self
    rw [loopTrace_next (huffmanTurn_token hread (by omega) (by omega) h) (fun r' hr' => ?_) hr,
      tokenPieces_token hread h hr, List.map_cons, List.singleton_append]
    exact huffmanTrace_tokens hend (fun u hu => ht u (List.mem_cons_of_mem _ hu))
      (by simp only [HuffmanBlock.push]; omega) (by omega)
      (by simp only [HuffmanBlock.push, List.length_append]; omega) h.skip hr'

theorem huffmanPieces_tokens (block : CompressedBlock) {ts : List Token} (hend : Decodes d lit 256)
    (ht : ∀ t ∈ ts, t.Readable d e lit dist) (hn : ts.length < maxDeflateInstructions)
    (hcap : block.literals.length + (ts.flatMap Token.literals).length ≤ maxBlockLiterals)
    (h : At (bytesBits data) p (ts.flatMap (Token.bits lit dist) ++ (lit 256 ++ rest))) (hr : Synced data p r) :
    huffmanPieces block d e r = ts.map Token.piece :=
  huffmanTrace_tokens hend (s := ⟨block, false, 0⟩) (n := maxDeflateInstructions) ht (by simp only; omega)
    (by omega) hcap h hr

end

/-! ## Accepted streams -/

theorem keptSize_pieces {ext : External} {bs : List CompressedBlock} (h : extractLiterals ext data = .ok bs) :
    keptSize (pieces ext data) = literalSum bs := by
  have hkept := (pieces_paid h).kept_eq
  rwa [Nat.zero_add] at hkept

/-- A stream whose matches are `m` bytes at most implies `4 * m` bytes for each of its own. -/
theorem impliedSize_le {ext : External} {bs : List CompressedBlock} {m : Nat} (h : extractLiterals ext data = .ok bs)
    (hm : 2 ≤ m) (hcopied : ∀ x ∈ pieces ext data, x.copied ≤ m) :
    impliedSize (pieces ext data) ≤ 4 * m * data.length := by
  have hcost := (pieces_paid h).cost_le
  have hsize : 2 * impliedSize (pieces ext data) ≤ 2 * (4 * m * data.length) := calc
    2 * impliedSize (pieces ext data) ≤ m * bitCost (pieces ext data) := impliedSize_le_cost hm hcopied
    _ ≤ m * (8 * data.length) := Nat.mul_le_mul_left m (by omega)
    _ = 2 * (4 * m * data.length) := by ring
  omega

end

/-! ## A run of one letter -/

def runHeader : Header where
  text := false
  mtime := 0
  extraFlags := 2
  os := 3
  extra := none
  name := none
  comment := none
  headerCrc := none
  extra_lt := by rintro e ⟨⟩
  name_le := by rintro s ⟨⟩
  comment_le := by rintro s ⟨⟩

def runEntries : List LengthEntry :=
  [.longZeros ⟨86, by decide⟩, .length ⟨2, by decide⟩, .longZeros ⟨127, by decide⟩, .longZeros ⟨9, by decide⟩,
    .length ⟨3, by decide⟩, .longZeros ⟨8, by decide⟩, .length ⟨3, by decide⟩, .zeros ⟨5, by decide⟩,
    .length ⟨1, by decide⟩, .length ⟨1, by decide⟩, .length ⟨1, by decide⟩]

theorem runEntries_first (extra : Fin 4) (es : List LengthEntry) : runEntries ≠ .copy extra :: es := by
  intro h
  cases h

def runTrees : Trees where
  hlit := 286
  hdist := 2
  given := [0, 3, 2, 0, 0, 0, 0, 0, 0, 0, 0, 0, 0, 2, 0, 3, 0, 2]
  entries := runEntries
  hlit_ge := by decide
  hlit_le := by decide
  hdist_ge := by decide
  hdist_le := by decide
  given_ge := by decide
  given_le := by decide
  given_lt := by decide
  kraft := ⟨by decide, by decide⟩
  coded := by decide
  fills := by decide
  first := runEntries_first

def longestMatch : Token := .pair ⟨28, 0, by decide, by decide⟩ distanceOne

def lastMatch : Token := .pair ⟨19, 4, by decide, by decide⟩ distanceOne

/-- `"aa"`, and matches at distance 1: 4064 of length 258, then one of length 63. -/
def runTokens : List Token :=
  [.literal 97, .literal 97] ++ (List.replicate 4064 longestMatch ++ [lastMatch])

/-- 1048577 times `"a"`, as `gzip -9` compresses them. -/
def runOfA : Bytes :=
  [31, 139, 8, 0, 0, 0, 0, 0, 2, 3, 237, 193, 49, 1, 0, 0, 0, 194, 160, 172, 235, 95, 194, 16, 190, 64, 1] ++
    (List.replicate 1015 0 ++ [156, 6, 5, 99, 107, 86, 1, 0, 16, 0])

/-- The CRC of its two literals, and its decoding, a chunk of 16 KiB at a time. -/
def runOnly : External :=
  ⟨fun _ => 0, fun _ => 0x078A19D7, fun _ => (List.replicate 64 (List.replicate 16384 97) ++ [[97]], none),
    fun _ => none, fun _ => none⟩

theorem sum_runOnly (member : Bytes) : ((runOnly.gzDecoder member).1.map List.length).sum = 1048577 := by
  simp only [runOnly, List.map_append, List.map_replicate, List.length_replicate, List.sum_append, List.sum_replicate_nat]
  rfl

theorem bytesBits_zeros (n : Nat) : bytesBits (List.replicate n 0) = List.replicate (8 * n) false := by
  induction n with
  | zero => rfl
  | succ n ih => rw [List.replicate_succ, bytesBits_cons, ih, Nat.mul_succ, Nat.add_comm, List.replicate_add]; rfl

/-- The code of the literals and lengths of `runTrees`, and the one of its distances. -/
def runLit : Nat → List Bool := codeBits runTrees.literalLengths
def runDist : Nat → List Bool := codeBits runTrees.distanceLengths

theorem runTokens_bits : runTokens.flatMap (Token.bits runLit runDist) =
    [true, false, true, false] ++ (List.replicate 8128 false ++ [true, true, true, false, false, true, false]) := by
  have hfirst : [.literal 97, .literal 97].flatMap (Token.bits runLit runDist) = [true, false, true, false] := by
    decide +kernel
  have hmatch : longestMatch.bits runLit runDist = List.replicate 2 false := by decide +kernel
  have hlast : [lastMatch].flatMap (Token.bits runLit runDist) = [true, true, true, false, false, true, false] := by
    decide +kernel
  rw [runTokens, List.flatMap_append, List.flatMap_append, List.flatMap_replicate, hfirst, hmatch, hlast,
    List.flatten_replicate_replicate]

theorem length_runTokens_bits : (runTokens.flatMap (Token.bits runLit runDist)).length = 8139 := by
  rw [runTokens_bits, List.length_append, List.length_append, List.length_replicate]
  rfl

theorem runTokens_literals : runTokens.flatMap Token.literals = [97, 97] := by
  have hmatch : longestMatch.literals = List.replicate 0 0 := rfl
  rw [runTokens, List.flatMap_append, List.flatMap_append, List.flatMap_replicate, hmatch,
    List.flatten_replicate_replicate]
  rfl

theorem length_runTokens : runTokens.length = 4067 := by
  rw [runTokens, List.length_append, List.length_append, List.length_replicate]
  rfl

theorem runOfA_bits : bytesBits runOfA = bytesBits runHeader.bytes ++ ([true] ++ ([false, true] ++ (runTrees.bits ++
    (runTokens.flatMap (Token.bits runLit runDist) ++ (runLit 256 ++ (bitsLe 4 0 ++ (bitsLe 32 1449878277 ++
      bitsLe 32 1048577))))))) := by
  have hfront : bytesBits [31, 139, 8, 0, 0, 0, 0, 0, 2, 3, 237, 193, 49, 1, 0, 0, 0, 194, 160, 172, 235, 95, 194, 16, 190,
      64, 1] = bytesBits runHeader.bytes ++ ([true] ++ ([false, true] ++ (runTrees.bits ++ ([true, false, true, false] ++
        List.replicate 6 false)))) := by decide +kernel
  have hback : bytesBits [156, 6, 5, 99, 107, 86, 1, 0, 16, 0] = List.replicate 2 false ++
      ([true, true, true, false, false, true, false] ++ (runLit 256 ++ (bitsLe 4 0 ++ (bitsLe 32 1449878277 ++
        bitsLe 32 1048577)))) := by decide +kernel
  have hzeros : List.replicate 8128 false = List.replicate 6 false ++ (List.replicate (8 * 1015) false ++
      List.replicate 2 false) := by rw [List.replicate_append_replicate, List.replicate_append_replicate]
  rw [runOfA, bytesBits_append, bytesBits_append, hfront, hback, bytesBits_zeros, runTokens_bits, hzeros]
  simp only [List.append_assoc]

theorem runTokens_readable {d e : HuffmanDecoder} (hd : ∀ s, runTrees.literalLengths.getD s 0 ≠ 0 → Decodes d runLit s)
    (he : ∀ s, runTrees.distanceLengths.getD s 0 ≠ 0 → Decodes e runDist s) : ∀ t ∈ runTokens, t.Readable d e runLit runDist := by
  have ha : Decodes d runLit 97 := hd 97 (by decide +kernel)
  have hlong : Decodes d runLit 285 := hd 285 (by decide +kernel)
  have hlast : Decodes d runLit 276 := hd 276 (by decide +kernel)
  have hone : Decodes e runDist 0 := he 0 (by decide +kernel)
  intro t ht
  simp only [runTokens, List.mem_append, List.mem_cons, List.not_mem_nil, or_false, List.mem_replicate] at ht
  rcases ht with (rfl | rfl) | ⟨-, rfl⟩ | rfl
  · exact ha
  · exact ha
  · exact ⟨hlong, hone⟩
  · exact ⟨hlast, hone⟩

theorem runOfA_trees : ∃ d e, Yields (Synced runOfA 83) parseDynamicTrees (d, e) (Synced runOfA 206) ∧
    Decodes d runLit 256 ∧ (∀ t ∈ runTokens, t.Readable d e runLit runDist) ∧
      At (bytesBits runOfA) 206 (runTokens.flatMap (Token.bits runLit runDist) ++ (runLit 256 ++ (bitsLe 4 0 ++
        (bitsLe 32 1449878277 ++ bitsLe 32 1048577)))) := by
  have hat : At (bytesBits runOfA) 0 _ := ⟨Nat.zero_le _, runOfA_bits⟩
  have hbits : runTrees.bits.length = 123 := by decide +kernel
  have htrees := hat.skip.skip.skip
  have htokens := htrees.skip
  rw [hbits] at htokens
  obtain ⟨d, e, hd, he, hyields⟩ := parseDynamicTrees_yields runTrees ⟨by decide +kernel, by decide +kernel⟩
    ⟨by decide +kernel, by decide +kernel⟩ htrees
  rw [hbits] at hyields
  exact ⟨d, e, hyields, hd 256 (by decide +kernel), runTokens_readable hd he, htokens⟩

theorem runOfA_block : Yields (Synced runOfA 83) (parseSingleBlock 2 (CompressedBlock.new 10 0))
      (true, ⟨10, 0, none, [97, 97]⟩) (Synced runOfA 8348) ∧
    ∀ r, Synced runOfA 83 r → blockPieces 2 (CompressedBlock.new 10 0) r = runTokens.map Token.piece := by
  obtain ⟨d, e, htrees, hend, hread, hat⟩ := runOfA_trees
  have hlen : runTokens.length < maxDeflateInstructions := by rw [length_runTokens]; decide
  have hcap : (CompressedBlock.new 10 0).literals.length + (runTokens.flatMap Token.literals).length ≤ maxBlockLiterals := by
    rw [runTokens_literals]; decide
  have hmatch : runTokens.any Token.isMatch = true :=
    List.any_eq_true.mpr ⟨_, List.mem_append_right _ (List.mem_append_right _ (List.mem_singleton_self _)), rfl⟩
  have htokens := parseHuffmanBlock_tokens (CompressedBlock.new 10 0) hend hread hlen hcap hat
  rw [hmatch, runTokens_literals, length_runTokens_bits] at htokens
  exact ⟨htrees.bind htokens, fun r hr =>
    seen_yields htrees (fun r' hr' => huffmanPieces_tokens _ hend hread hlen hcap hat hr') hr⟩

theorem runOfA_turn : Yields (Synced runOfA 80) (streamTurn ⟨[], 0, false⟩)
    (.done ⟨[⟨10, 1034, none, [97, 97]⟩], 2, true⟩) (Synced runOfA 8348) := by
  have hat : At (bytesBits runOfA) 0 _ := ⟨Nat.zero_le _, runOfA_bits⟩
  have hturn := streamTurn_yields (s := ⟨[], 0, false⟩) (w := [false, true]) rfl runOfA_block.1 (by decide) (by decide)
    (by decide) hat.skip
  exact hturn

theorem length_runOfA : runOfA.length = 1052 := by
  rw [runOfA, List.length_append, List.length_append, List.length_replicate]
  rfl

theorem runOfA_readMember : Yields (Synced runOfA 0) (readMember [] 0)
    (0, ⟨[⟨10, 1034, none, [97, 97]⟩], 2, true⟩, 1449878277) (Synced runOfA 8416) := by
  have hat : At (bytesBits runOfA) 0 _ := ⟨Nat.zero_le _, runOfA_bits⟩
  obtain ⟨d, e, -, -, -, htokens⟩ := runOfA_trees
  have hend := htokens.skip
  rw [length_runTokens_bits] at hend
  have hpad := hend.skip
  unfold readMember
  refine yields_withReader fun r hr => ?_
  rw [hr.bytePos_eq]
  refine (parseGzipHeader_yields (by decide) runHeader hat).bind (runOfA_turn.loop_done.bind ?_)
  refine (alignToByte_yields (by decide) hpad).bind ((readU32Le_yields (by decide) (by decide) hpad.skip).bind ?_)
  exact (readU32Le_yields (by decide) (by decide) hpad.skip.skip).bind Yields.pure

theorem runOfA_memberTurn : Yields (Synced runOfA 0) (memberTurn runOnly ⟨[], 0, 0⟩)
    (.next ⟨[⟨10, 1034, none, [97, 97]⟩], 2, 1⟩) (Synced runOfA 8416) := by
  unfold memberTurn
  refine yields_withReader fun r hr => ?_
  rw [(show Synced runOfA (8 * 0) r from hr).remainingBytes, length_runOfA, if_pos (by decide)]
  refine Yields.bind (runOfA_readMember.bind (Yields.bind (a := ()) ?_ Yields.pure)) Yields.pure
  unfold checkMember
  refine yields_withReader fun r hr => ?_
  have hslice : (slice r.data 0 r.bytePos : Run ZiftError Bytes) = .ok runOfA := by
    rw [hr.data_eq, hr.bytePos_eq]
    have hwhole : At runOfA 0 (runOfA ++ []) := ⟨Nat.zero_le _, (List.append_nil _).symm⟩
    exact hwhole.slice (by rw [length_runOfA])
  refine (yields_lift hslice).bind (yields_lift (drainDecoder_ok ?_))
  rw [sum_runOnly]
  decide

theorem runOfA_pieces : pieces runOnly runOfA = runTokens.map Token.piece := by
  have hstart : Synced runOfA 0 (BitReader.new runOfA 0) := Synced.new (i := 0) (Nat.zero_le _)
  have hat : At (bytesBits runOfA) 0 _ := ⟨Nat.zero_le _, runOfA_bits⟩
  have hstream : ∀ r, Synced runOfA 80 r → streamPieces r = runTokens.map Token.piece := by
    intro r hr
    unfold streamPieces
    rw [hr.bitOffset]
    refine seen_yields (readBits_yields (w := [true]) (by decide) hat.skip) (fun r' hr' => ?_) hr
    exact seen_yields (readBits_yields (w := [false, true]) (by decide) hat.skip.skip) (fun r'' => runOfA_block.2 r'') hr'
  have hmember : memberPieces ⟨[], 0, 0⟩ (BitReader.new runOfA 0) = runTokens.map Token.piece := by
    unfold memberPieces
    rw [hstart.remainingBytes (i := 0), length_runOfA, if_pos (by decide)]
    refine seen_yields (parseGzipHeader_yields (by decide) runHeader hat) (fun r hr => ?_) hstart
    rw [loopTrace_done runOfA_turn hr]
    exact hstream r hr
  unfold pieces
  rw [loopTrace_next (l := []) runOfA_memberTurn (fun r hr => ?_) hstart, hmember, List.append_nil]
  rw [loopTrace_done (memberTurn_done (i := 1052) length_runOfA.symm) hr]
  unfold memberPieces
  rw [(show Synced runOfA (8 * 1052) r from hr).remainingBytes, length_runOfA]
  rfl

/-! ## The ratio -/

/-- **The ratio is not enforced.** A stream implies at most 1032 bytes for each of its own, so 1016
bytes or fewer cannot imply more than 1 MiB. A longer stream is within the ratio when it has no match
of more than 62 bytes; the lengths of longer ones are compared with nothing. -/
theorem impliedSize_within (ext : External) (data : Bytes) (bs : List CompressedBlock)
    (h : extractLiterals ext data = .ok bs) :
    keptSize (pieces ext data) = literalSum bs ∧ impliedSize (pieces ext data) ≤ 1032 * data.length ∧
      (data.length ≤ 1016 ∨ (∀ x ∈ pieces ext data, x.copied ≤ 62) →
        impliedSize (pieces ext data) ≤ max (250 * data.length) (1024 * 1024)) := by
  have hsize : impliedSize (pieces ext data) ≤ 1032 * data.length :=
    impliedSize_le h (by decide) (pieces_paid h).copied_le
  refine ⟨keptSize_pieces h, hsize, ?_⟩
  rintro (hfew | hshort)
  · omega
  · have hless : impliedSize (pieces ext data) ≤ 248 * data.length := impliedSize_le h (by decide) hshort
    omega

/-- `"aaaa"`: in one dynamic block, a literal and a match of length 3. -/
def fourTimesA : Bytes :=
  [31, 139, 8, 0, 0, 0, 0, 0, 2, 3, 13, 192, 129, 0, 0, 0, 0, 128, 32, 214, 253, 37, 174, 24, 0, 0, 0, 0, 4, 0, 0, 0]

def fourOnly : External := ⟨fun _ => 0, fun _ => 0, fun _ => ([[97, 97, 97, 97]], none), fun _ => none, fun _ => none⟩

theorem fourTimesA_accepted : extractLiterals fourOnly fourTimesA = .ok [⟨10, 14, none, [97]⟩] := by
  decide +kernel

/-- The first by its length, the second by its matches. -/
theorem impliedSize_within_storedTwice :
    impliedSize (pieces .fnvOnly storedTwice) ≤ 1024 * 1024 ∧ impliedSize (pieces fourOnly fourTimesA) ≤ 1024 * 1024 :=
  have hcopied : ∀ x ∈ pieces fourOnly fourTimesA, x.copied ≤ 62 := by decide +kernel
  ⟨(impliedSize_within .fnvOnly storedTwice _ storedTwice_accepted).2.2 (.inl (by decide)),
    (impliedSize_within fourOnly fourTimesA _ fourTimesA_accepted).2.2 (.inr hcopied)⟩

/-- 1052 bytes are accepted that imply 1 MiB and a byte, and decode to as many. -/
theorem impliedSize_runOfA : (∃ bs, extractLiterals runOnly runOfA = .ok bs) ∧
    ((runOnly.gzDecoder runOfA).1.map List.length).sum = impliedSize (pieces runOnly runOfA) ∧
      max (250 * runOfA.length) (1024 * 1024) < impliedSize (pieces runOnly runOfA) := by
  have hsize : impliedSize (pieces runOnly runOfA) = 1048577 := by
    rw [runOfA_pieces, runTokens]
    simp only [impliedSize, List.map_append, List.sum_append, List.map_replicate, List.sum_replicate_nat]
    decide
  have hrun : extractLiterals runOnly runOfA = .ok [⟨10, 1034, none, [97, 97]⟩] := by
    have hne : runOfA ≠ [] := List.ne_nil_of_length_pos (by rw [length_runOfA]; decide)
    unfold extractLiterals
    rw [if_neg hne]
    have hdone : Yields (Synced runOfA 8416) (memberTurn runOnly ⟨[⟨10, 1034, none, [97, 97]⟩], 2, 1⟩) _ _ :=
      memberTurn_done (i := 1052) length_runOfA.symm
    exact (runOfA_memberTurn.loop_next hdone.loop_done).value (Synced.new (i := 0) (Nat.zero_le _))
  rw [hsize, length_runOfA]
  exact ⟨⟨_, hrun⟩, sum_runOnly _, by decide⟩

end Ziftsieve.Gzip
