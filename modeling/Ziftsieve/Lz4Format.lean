import Ziftsieve.Lz4
import Ziftsieve.Lz77

/-!
# The LZ4 format

What an LZ4 block, a raw stream of blocks and an LZ4 frame are, with their
encodings. The parser of `Lz4` is compared with these definitions: the
decompressed data is `Block.decompress`, what the index is built over is
`Block.literals`.
-/

namespace Ziftsieve.Lz4

/-! ## Blocks -/

structure Seq extends Lz77.Sequence UInt8 where
  offset_lt : offset < 2 ^ 16
  matchLen_ge : 4 ≤ matchLen

/-- Sequences, and the last one, which is literals only. -/
structure Block where
  seqs : List Seq
  last : Bytes

namespace Block

def literals (b : Block) : Bytes := (b.seqs.map (·.literals)).flatten ++ b.last

def decompress (b : Block) : Bytes := Lz77.expand [] (b.seqs.map (·.toSequence)) ++ b.last

end Block

/-- A block whose matches reach only into its own output. -/
structure SelfContained extends Block where
  reaches : Lz77.Reaches 0 (seqs.map (·.toSequence))

/-- The extension bytes of a length whose nibble holds the first 15. -/
def lengthBytes (n : Nat) : Bytes :=
  if n < 15 then [] else List.replicate ((n - 15) / 255) 255 ++ [UInt8.ofNat ((n - 15) % 255)]

def token (literalLen matchLen : Nat) : UInt8 := UInt8.ofNat (16 * min literalLen 15 + min matchLen 15)

def encodeRun (matchLen : Nat) (literals : Bytes) : Bytes :=
  token literals.length matchLen :: (lengthBytes literals.length ++ literals)

def encodeMatch (offset matchLen : Nat) : Bytes := toLe 2 offset ++ lengthBytes matchLen

def encodeSeq (s : Seq) : Bytes :=
  encodeRun (s.matchLen - 4) s.literals ++ encodeMatch s.offset (s.matchLen - 4)

def Block.encode (b : Block) : Bytes := (b.seqs.map encodeSeq).flatten ++ encodeRun 0 b.last

/-- The part of a length that its bytes of 255 hold is within the parser's limit. -/
def LengthFits (n : Nat) : Prop := 15 + 255 * ((n - 15) / 255) ≤ maxBlockSize

instance (n : Nat) : Decidable (LengthFits n) := inferInstanceAs (Decidable (_ ≤ _))

theorem LengthFits.of_le {n : Nat} (h : n ≤ maxBlockSize) : LengthFits n := by
  unfold LengthFits
  unfold maxBlockSize at *
  omega

structure Block.Accepted (b : Block) : Prop where
  few : b.seqs.length + 1 < maxSequencesPerBlock
  fits : ∀ s ∈ b.seqs, LengthFits (s.matchLen - 4)

structure Block.WithinLimits (b : Block) : Prop where
  few : b.seqs.length + 1 < maxSequencesPerBlock
  literals_le : ∀ s ∈ b.seqs, s.literals.length ≤ maxBlockSize
  matchLen_le : ∀ s ∈ b.seqs, s.matchLen ≤ maxBlockSize

theorem Block.WithinLimits.accepted {b : Block} (h : b.WithinLimits) : b.Accepted :=
  ⟨h.few, fun s hs => LengthFits.of_le (Nat.le_trans (Nat.sub_le _ _) (h.matchLen_le s hs))⟩

/-! ## Streams -/

inductive StreamBlock where
  | stored (payload : Bytes)
  | compressed (b : Block)

namespace StreamBlock

def payload : StreamBlock → Bytes
  | stored payload => payload
  | compressed b => b.encode

def literals : StreamBlock → Bytes
  | stored payload => payload
  | compressed b => b.literals

def isStored : StreamBlock → Bool
  | stored _ => true
  | compressed _ => false

def size (b : StreamBlock) : Nat := b.payload.length

def headerWord (b : StreamBlock) : Nat := if b.isStored then b.size + 2 ^ 31 else b.size

def encode (b : StreamBlock) : Bytes := toLe 4 b.headerWord ++ b.payload

def located (offset : Nat) (b : StreamBlock) : CompressedBlock :=
  { CompressedBlock.new offset b.size with literals := b.literals }

structure Sized (b : StreamBlock) : Prop where
  pos : 0 < b.size
  le : b.size ≤ maxBlockSize

def Accepted : StreamBlock → Prop
  | stored _ => True
  | compressed b => b.Accepted

def WithinLimits : StreamBlock → Prop
  | stored _ => True
  | compressed b => b.WithinLimits

theorem WithinLimits.accepted : ∀ {b : StreamBlock}, b.WithinLimits → b.Accepted
  | stored _, _ => trivial
  | compressed _, h => Block.WithinLimits.accepted h

end StreamBlock

def encodeBlocks (bs : List StreamBlock) : Bytes := (bs.map StreamBlock.encode).flatten

def locate : Nat → List StreamBlock → List CompressedBlock
  | _, [] => []
  | offset, b :: bs => b.located offset :: locate (offset + b.encode.length) bs

def totalLiterals (bs : List StreamBlock) : Nat := (bs.map (·.literals.length)).sum

def endMark : Bytes := toLe 4 0

/-- What may follow the last block of a raw stream. -/
def RawTail (tail : Bytes) : Prop := tail.length < 4 ∨ endMark <+: tail

/-! ## Frames -/

structure Descriptor where
  flg : UInt8
  bd : UInt8
  contentSize : Bytes
  dictId : Bytes
  headerChecksum : UInt8
  version : flg &&& 0xC0 = 0x40
  contentSize_length : contentSize.length = if flg &&& 0x08 ≠ 0 then 8 else 0
  dictId_length : dictId.length = if flg &&& 0x01 ≠ 0 then 4 else 0

def Descriptor.encode (d : Descriptor) : Bytes :=
  lz4FrameMagic ++ (d.flg :: d.bd :: (d.contentSize ++ (d.dictId ++ [d.headerChecksum])))

def encodeFrame (d : Descriptor) (bs : List StreamBlock) : Bytes := d.encode ++ (encodeBlocks bs ++ endMark)

def encodeChecked (bs : List (StreamBlock × UInt32)) : Bytes :=
  (bs.map fun b => b.1.encode ++ toLe 4 b.2.toNat).flatten

def locateChecked : Nat → List (StreamBlock × UInt32) → List CompressedBlock
  | _, [] => []
  | offset, b :: bs => b.1.located offset :: locateChecked (offset + b.1.encode.length + 4) bs

/-- Where the checksums stand. -/
def checksumOffsets : Nat → List (StreamBlock × UInt32) → List Nat
  | _, [] => []
  | offset, b :: bs => (offset + b.1.encode.length) :: checksumOffsets (offset + b.1.encode.length + 4) bs

/-- A frame of blocks with their checksums, and what comes after it. -/
def encodeCheckedFrame (d : Descriptor) (bs : List (StreamBlock × UInt32)) (trailer : Bytes) : Bytes :=
  d.encode ++ (encodeChecked bs ++ (endMark ++ trailer))

end Ziftsieve.Lz4
