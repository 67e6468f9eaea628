import Ziftsieve.GzipSound
import Ziftsieve.HuffmanExact
import Ziftsieve.TreesSound

/-!
# The language of the gzip parser

Streams of members with blocks of all three types, as the parser takes them: the
codes of a dynamic block are those of any vectors that `from_lengths` takes, and
what they code is what decodes back.
-/

namespace Ziftsieve.Gzip

/-! ## Blocks -/

/-- The trees of a dynamic block, given as its header gives them. -/
structure BlockTrees where
  hlit : Nat
  hdist : Nat
  given : List Nat
  entries : List LengthEntry
  hlit_ge : 257 ≤ hlit
  hlit_le : hlit ≤ 286
  hdist_ge : 1 ≤ hdist
  hdist_le : hdist ≤ 30
  given_ge : 4 ≤ given.length
  given_le : given.length ≤ 19
  given_lt : ∀ l ∈ given, l < 2 ^ 3
  builds : Builds (givenLengths given)
  decodable : ∀ e ∈ entries, Decodable (givenLengths given) e.symbol
  fills : (entries.map LengthEntry.count).sum = hlit + hdist
  first : ∀ extra es, entries ≠ .copy extra :: es
  literal_builds : Builds ((decodedEntries entries).take hlit)
  distance_builds : Builds ((decodedEntries entries).drop hlit)

namespace BlockTrees

def literalLengths (t : BlockTrees) : List Nat := (decodedEntries t.entries).take t.hlit

def distanceLengths (t : BlockTrees) : List Nat := (decodedEntries t.entries).drop t.hlit

def entryBits (t : BlockTrees) : List Bool :=
  t.entries.flatMap (LengthEntry.bits (codeBits (givenLengths t.given)))

def bits (t : BlockTrees) : List Bool :=
  bitsLe 5 (t.hlit - 257) ++ (bitsLe 5 (t.hdist - 1) ++ (bitsLe 4 (t.given.length - 4) ++
    (t.given.flatMap (bitsLe 3) ++ t.entryBits)))

end BlockTrees

def Token.Decodable (L V : List Nat) : Token → Prop
  | literal b => Gzip.Decodable L b.toNat
  | pair length distance => Gzip.Decodable L (257 + length.idx) ∧ Gzip.Decodable V distance.idx

/-- Tokens and the end of their block, in the codes of two vectors. -/
def tokenBits (L V : List Nat) (tokens : List Token) : List Bool :=
  tokens.flatMap (Token.bits (codeBits L) (codeBits V)) ++ codeBits L 256

/-- The tokens of a block decode, and are within its limits. -/
structure Legible (L V : List Nat) (tokens : List Token) : Prop where
  decodable : ∀ t ∈ tokens, t.Decodable L V
  ends : Decodable L 256
  few : tokens.length < maxDeflateInstructions
  literals_le : (tokens.flatMap Token.literals).length ≤ maxBlockLiterals

inductive CodedBlock where
  | stored (pad : Nat) (data : Bytes) (length_lt : data.length < 2 ^ 16)
  | fixed (tokens : List Token) (legible : Legible fixedLitlenCodeLengths fixedDistCodeLengths tokens)
  | dynamic (trees : BlockTrees) (tokens : List Token)
      (legible : Legible trees.literalLengths trees.distanceLengths tokens)

namespace CodedBlock

def literals : CodedBlock → Bytes
  | stored _ data _ => data
  | fixed tokens _ | dynamic _ tokens _ => tokens.flatMap Token.literals

def hasMatch : CodedBlock → Bool
  | stored _ _ _ => false
  | fixed tokens _ | dynamic _ tokens _ => tokens.any Token.isMatch

def blockType : CodedBlock → Nat
  | stored _ _ _ => 0
  | fixed _ _ => 1
  | dynamic _ _ _ => 2

/-- What follows the header, at bit `p`: a stored block's data starts on a byte. -/
def body (p : Nat) : CodedBlock → List Bool
  | stored pad data _ => bitsLe (padTo8 p) pad ++
      (bitsLe 16 data.length ++ (bitsLe 16 (2 ^ 16 - 1 - data.length) ++ bytesBits data))
  | fixed tokens _ => tokenBits fixedLitlenCodeLengths fixedDistCodeLengths tokens
  | dynamic trees tokens _ => trees.bits ++ tokenBits trees.literalLengths trees.distanceLengths tokens

def bits (p : Nat) (final : Bool) (b : CodedBlock) : List Bool := final :: (bitsLe 2 b.blockType ++ b.body (p + 3))

def located (p : Nat) (final : Bool) (b : CodedBlock) : CompressedBlock :=
  ⟨p / 8, ((b.bits p final).length + 7) / 8, none, b.literals⟩

end CodedBlock

/-! ## Streams -/

/-- The block marked final is the last. -/
def codedBits : Nat → List CodedBlock → List Bool
  | _, [] => []
  | p, b :: bs => b.bits p bs.isEmpty ++ codedBits (p + (b.bits p bs.isEmpty).length) bs

def locateCoded : Nat → List CodedBlock → List CompressedBlock
  | _, [] => []
  | p, b :: bs => b.located p bs.isEmpty :: locateCoded (p + (b.bits p bs.isEmpty).length) bs

def codedLiterals (bs : List CodedBlock) : Nat := (bs.map (·.literals.length)).sum

/-! ## Members -/

structure CodedMember where
  header : Header
  blocks : List CodedBlock
  pad : Nat
  crc : UInt32
  isize : UInt32
  blocks_ne : blocks ≠ []

namespace CodedMember

def hasMatch (m : CodedMember) : Bool := m.blocks.any CodedBlock.hasMatch

def literals (m : CodedMember) : Bytes := m.blocks.flatMap CodedBlock.literals

def stream (m : CodedMember) : List Bool := codedBits 0 m.blocks

def bits (m : CodedMember) : List Bool :=
  bytesBits m.header.bytes ++ (m.stream ++ (bitsLe (padTo8 m.stream.length) m.pad ++
    (bitsLe 32 m.crc.toNat ++ bitsLe 32 m.isize.toNat)))

def encode (m : CodedMember) : Bytes := pack m.bits

def located (i : Nat) (m : CodedMember) : List CompressedBlock :=
  locateCoded (8 * (i + m.header.bytes.length)) m.blocks

end CodedMember

/-- The read loop over a decoder reaches an empty read or the end without an error, within the limit. -/
structure Drains (reads : List Bytes) (failure : Option String) : Prop where
  total_le : ((reads.takeWhile (· ≠ [])).map List.length).sum ≤ maxTotalLiterals
  ends : [] ∈ reads ∨ failure = none

/-- A member with a match is decoded again; the literals of the others have the CRC of the trailer. -/
def CodedMember.Verified (ext : External) (m : CodedMember) : Prop :=
  if m.hasMatch then Drains (ext.gzDecoder m.encode).1 (ext.gzDecoder m.encode).2
  else m.crc.toNat = ext.crc32 m.literals

/-- The lists of members that the parser takes. -/
structure Legal (ext : External) (ms : List CodedMember) : Prop where
  members_le : ms.length ≤ 1023
  blocks_le : (ms.flatMap (·.blocks)).length ≤ maxDeflateBlocksPerMember
  total_le : codedLiterals (ms.flatMap (·.blocks)) ≤ maxTotalLiterals
  verified : ∀ m ∈ ms, m.Verified ext

def encodeCoded (ms : List CodedMember) : Bytes := ms.flatMap CodedMember.encode

def locateMembersCoded : Nat → List CodedMember → List CompressedBlock
  | _, [] => []
  | i, m :: ms => m.located i ++ locateMembersCoded (i + m.encode.length) ms

end Ziftsieve.Gzip
