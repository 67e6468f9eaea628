import Ziftsieve.Zstd

/-!
# The Zstd format

What a standard frame is, with its encoding: a descriptor that says which header
fields follow, one block or more, and the checksum the descriptor announces. A
compressed block is any payload the literals section parser takes.
-/

namespace Ziftsieve.Zstd

/-! ## Blocks -/

inductive Content where
  | raw (data : Bytes)
  | rle (byte : UInt8) (count : Nat)
  | compressed (payload : Bytes)

namespace Content

def blockType : Content → BlockType
  | raw _ => .raw
  | rle _ _ => .rle
  | compressed _ => .compressed

def size : Content → Nat
  | raw data => data.length
  | rle _ count => count
  | compressed payload => payload.length

def stream : Content → Bytes
  | raw data => data
  | rle byte _ => [byte]
  | compressed payload => payload

def read : Content → Run ZiftError Bytes
  | raw data => .ok data
  | rle byte count => .ok (List.replicate count byte)
  | compressed payload => extractLiteralsFromBlock payload

end Content

/-- A block of at most 128 KiB, and the literals it stands for. -/
structure FrameBlock where
  content : Content
  literals : Bytes
  size_le : content.size ≤ maxBlockSize
  read_eq : content.read = .ok literals

def BlockType.code : BlockType → Nat
  | raw => 0
  | rle => 1
  | compressed => 2
  | reserved => 3

def blockHeader (last : Bool) (c : Content) : Nat := last.toNat + 2 * (c.blockType.code + 4 * c.size)

namespace FrameBlock

def encode (last : Bool) (b : FrameBlock) : Bytes := toLe 3 (blockHeader last b.content) ++ b.content.stream

def located (offset : Nat) (b : FrameBlock) : CompressedBlock :=
  ⟨offset, b.content.stream.length + 3, some b.content.size, b.literals⟩

end FrameBlock

def locate : Nat → List FrameBlock → List CompressedBlock
  | _, [] => []
  | offset, b :: bs => b.located offset :: locate (offset + (3 + b.content.stream.length)) bs

def totalLiterals (bs : List FrameBlock) : Nat := (bs.map (·.literals.length)).sum

/-! ## Frames -/

def dictIdSize (dictIdFlag : Nat) : Nat :=
  match dictIdFlag with
  | 0 => 0
  | 1 => 1
  | 2 => 2
  | _ => 4

def contentSizeSize (fcsId singleSegment : Nat) : Nat :=
  match fcsId with
  | 0 => if singleSegment ≠ 0 then 1 else 0
  | 1 => 2
  | 2 => 4
  | _ => 8

structure Descriptor where
  desc : UInt8
  window : Bytes
  dictId : Bytes
  contentSize : Bytes
  reserved : desc &&& 0x08 = 0
  window_length : window.length = if ((desc >>> 5) &&& 0x01).toNat = 0 then 1 else 0
  dictId_length : dictId.length = dictIdSize (desc &&& 0x03).toNat
  contentSize_length : contentSize.length =
    contentSizeSize ((desc >>> 6) &&& 0x03).toNat ((desc >>> 5) &&& 0x01).toNat

def Descriptor.encode (d : Descriptor) : Bytes :=
  zstdMagic ++ (d.desc :: (d.window ++ (d.dictId ++ d.contentSize)))

/-- A frame: the blocks before the last, the last, and the checksum if there is one. -/
structure Frame extends Descriptor where
  init : List FrameBlock
  last : FrameBlock
  checksum : Bytes
  checksum_length : checksum.length = if desc &&& 0x04 ≠ 0 then 4 else 0

namespace Frame

def blocks (f : Frame) : List FrameBlock := f.init ++ [f.last]

def encodeBlocks (init : List FrameBlock) (last : FrameBlock) : Bytes :=
  (init.map (FrameBlock.encode false)).flatten ++ last.encode true

def encode (f : Frame) : Bytes :=
  f.toDescriptor.encode ++ (encodeBlocks f.init f.last ++ f.checksum)

end Frame

def encodeFrames (fs : List Frame) : Bytes := (fs.map Frame.encode).flatten

def locateFrames : Nat → List Frame → List CompressedBlock
  | _, [] => []
  | offset, f :: fs =>
    locate (offset + f.toDescriptor.encode.length) f.blocks ++ locateFrames (offset + f.encode.length) fs

/-! ## Streams -/

/-- A skippable frame: any content, after its length in four bytes. -/
structure Skippable where
  kind : UInt8
  content : Bytes
  kind_mem : kind ≥ 0x50 ∧ kind ≤ 0x57
  length_lt : content.length < 2 ^ 32

def Skippable.encode (k : Skippable) : Bytes :=
  k.kind :: 0x2A :: 0x4D :: 0x18 :: (toLe 4 k.content.length ++ k.content)

def encodeSkips (ks : List Skippable) : Bytes := (ks.map Skippable.encode).flatten

/-- A frame, with the skippable frames before it. -/
structure Segment where
  skips : List Skippable
  frame : Frame

def Segment.encode (g : Segment) : Bytes := encodeSkips g.skips ++ g.frame.encode

def encodeSegments (gs : List Segment) : Bytes := (gs.map Segment.encode).flatten

def locateSegments : Nat → List Segment → List CompressedBlock
  | _, [] => []
  | offset, g :: gs =>
    locate (offset + (encodeSkips g.skips).length + g.frame.toDescriptor.encode.length) g.frame.blocks ++
      locateSegments (offset + g.encode.length) gs

/-- The bytes start with the magic of a frame, standard or skippable. -/
def startsFrame : Bytes → Bool
  | b0 :: b1 :: b2 :: b3 :: _ =>
    [b0, b1, b2, b3] = zstdMagic ∨ (b0 ≥ 0x50 ∧ b0 ≤ 0x57 ∧ b1 = 0x2A ∧ b2 = 0x4D ∧ b3 = 0x18)
  | _ => false

/-- Frames, then skippable frames, then bytes that start no frame. -/
structure Stream where
  segments : List Segment
  trail : List Skippable
  junk : Bytes
  junk_starts : startsFrame junk = false

namespace Stream

def encode (s : Stream) : Bytes := encodeSegments s.segments ++ (encodeSkips s.trail ++ s.junk)

def frames (s : Stream) : List Frame := s.segments.map (·.frame)

def blocks (s : Stream) : List CompressedBlock := locateSegments 0 s.segments

end Stream

end Ziftsieve.Zstd
