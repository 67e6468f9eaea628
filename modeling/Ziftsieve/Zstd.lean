import Ziftsieve.ZstdHuffman

/-!
# Zstd blocks and frames

`zstd/decoder.rs`, `zstd/frame.rs` and `zstd/streaming.rs`: the literals section of
a compressed block, the frame header with its optional fields, and the walk
over the blocks of every frame.
-/

namespace Ziftsieve.Zstd

def maxBlockSize : Nat := 128 * 1024
def maxTotalLiterals : Nat := 256 * 1024 * 1024
def maxDecompressionRatio : Nat := 250

/-! ## The literals section -/

def readRawRleSize (header : UInt8) (data : Bytes) : Run ZiftError (Nat × Nat) :=
  match ((header >>> 2) &&& 0x03).toNat with
  | 0 | 2 => pure ((header >>> 3).toNat, 1)
  | 1 => do
    failIf (data.length < 2)
      (.invalidData 1 "truncated raw/RLE literal size. Fix: use a complete Zstd stream")
    let le16 ← readLe16 data 0
    pure (le16 >>> 4, 2)
  | 3 => do
    failIf (data.length < 3)
      (.invalidData 1 "truncated raw/RLE literal size. Fix: use a complete Zstd stream")
    let b0 ← index data 0
    let b1 ← index data 1
    let b2 ← index data 2
    pure (fromLe [b0, b1, b2, 0] >>> 4, 3)
  | _ => panic -- `unreachable!()`

def readCompressedSize (header : UInt8) (data : Bytes) : Run ZiftError (Nat × Nat × Nat) :=
  match ((header >>> 2) &&& 0x03).toNat with
  | 0 | 1 => do
    failIf (data.length < 3)
      (.invalidData 1 "truncated compressed literal size. Fix: use a complete Zstd stream")
    let b0 ← index data 0
    let b1 ← index data 1
    let b2 ← index data 2
    let le32 := fromLe [b0, b1, b2, 0]
    pure ((le32 >>> 4) &&& 0x3FF, (le32 >>> 14) &&& 0x3FF, 3)
  | 2 => do
    failIf (data.length < 4)
      (.invalidData 1 "truncated compressed literal size. Fix: use a complete Zstd stream")
    let le32 ← readLe32 data 0
    pure ((le32 >>> 4) &&& 0x3FFF, le32 >>> 18, 4)
  | 3 => do
    failIf (data.length < 5)
      (.invalidData 1 "truncated compressed literal size. Fix: use a complete Zstd stream")
    let le32 ← readLe32 data 0
    let b4 ← index data 4
    pure ((le32 >>> 4) &&& 0x3FFFF, (le32 >>> 22) ||| (b4.toNat <<< 10), 5)
  | _ => panic -- `unreachable!()`

/-- `decode_literals(..).ok_or_else(..)`. -/
def okOrInvalid {α : Type} (x : Opt α) (offset : Nat) (reason : String) : Run ZiftError α :=
  match x with
  | .ok a => .ok a
  | .error (.err ()) => fail (.invalidData offset reason)
  | .error .panic => panic
  | .error .fuel => .error .fuel

def extractLiteralsFromBlock (data : Bytes) : Run ZiftError Bytes :=
  if data = [] then pure []
  else do
    let lsHeader ← index data 0
    let pos := 1
    let lhlCode := ((lsHeader >>> 2) &&& 0x03).toNat
    match (lsHeader &&& 0x03).toNat with
    | 0 => do
      let (regeneratedSize, headerSize) ← readRawRleSize lsHeader data
      let pos := pos + (headerSize - 1)
      failIf (pos + regeneratedSize > data.length)
        (.invalidData pos "raw literals exceed block size. Fix: use a valid Zstd stream")
      slice data pos (pos + regeneratedSize)
    | 1 => do
      let (regeneratedSize, headerSize) ← readRawRleSize lsHeader data
      let pos := pos + (headerSize - 1)
      failIf (pos ≥ data.length)
        (.invalidData pos "truncated RLE literal. Fix: use a complete Zstd stream")
      let byte ← index data pos
      pure (List.replicate regeneratedSize byte)
    | 2 => do
      let (regeneratedSize, compressedSize, headerSize) ← readCompressedSize lsHeader data
      let pos := pos + (headerSize - 1)
      if compressedSize = 0 then do
        failIf (pos + regeneratedSize > data.length)
          (.invalidData pos "uncompressed literals exceed block bounds. Fix: use a valid Zstd stream")
        slice data pos (pos + regeneratedSize)
      else do
        failIf (pos + compressedSize > data.length)
          (.invalidData pos "compressed literals exceed block bounds. Fix: use a valid Zstd stream")
        let compressed ← slice data pos (pos + compressedSize)
        let numStreams := if lhlCode = 0 then 1 else 4
        okOrInvalid (decodeLiterals compressed regeneratedSize numStreams) pos
          "Huffman literal decoding failed. Fix: use a valid Zstd stream"
    | 3 =>
      fail (.invalidData pos "treeless compressed literals (dictionary) are not supported. Fix: use a Zstd stream without dictionary compression")
    | _ => panic -- `unreachable!()`

/-! ## Frame headers -/

def zstdMagic : Bytes := [0x28, 0xB5, 0x2F, 0xFD]

structure FrameHeader where
  contentChecksum : Bool
  deriving Repr, DecidableEq

def skipField (data : Bytes) (pos size : Nat) (reason : String) : Run ZiftError Nat := do
  failIf (pos + size > data.length) (.invalidData pos reason)
  pure (pos + size)

def skipDictId (data : Bytes) (pos dictIdFlag : Nat) : Run ZiftError Nat :=
  match dictIdFlag with
  | 0 => pure pos
  | 1 => skipField data pos 1 "truncated dictionary ID. Fix: use a complete Zstd stream"
  | 2 => skipField data pos 2 "truncated dictionary ID. Fix: use a complete Zstd stream"
  | 3 => skipField data pos 4 "truncated dictionary ID. Fix: use a complete Zstd stream"
  | _ => panic -- `unreachable!()`

def frameContentSizeSize (fcsId singleSegment : Nat) : Run ZiftError Nat :=
  match fcsId with
  | 0 => pure (if singleSegment ≠ 0 then 1 else 0)
  | 1 => pure 2
  | 2 => pure 4
  | 3 => pure 8
  | _ => panic -- `unreachable!()`

/-- The header and the position after it. The window size and the dictionary id
are computed in the source and not used. -/
def parseStandardFrameHeader (data : Bytes) (pos : Nat) : Run ZiftError (FrameHeader × Nat) := do
  let pos := pos + 4
  failIf (pos ≥ data.length)
    (.invalidData pos "truncated frame header descriptor. Fix: use a complete Zstd stream")
  let fhDesc ← index data pos
  let pos := pos + 1
  let fcsId := ((fhDesc >>> 6) &&& 0x03).toNat
  let singleSegment := ((fhDesc >>> 5) &&& 0x01).toNat
  let contentChecksumFlag : Bool := fhDesc &&& 0x04 ≠ 0
  failIf (fhDesc &&& 0x08 ≠ 0)
    (.invalidData (pos - 1) "reserved bit set in Zstd frame header descriptor. Fix: use a compliant Zstd stream")
  let dictIdFlag := (fhDesc &&& 0x03).toNat
  let pos ← (if singleSegment = 0 then
      skipField data pos 1 "truncated window descriptor. Fix: use a complete Zstd stream"
    else pure pos)
  let pos ← skipDictId data pos dictIdFlag
  let fcsSize ← frameContentSizeSize fcsId singleSegment
  let pos ← skipField data pos fcsSize "truncated frame content size. Fix: use a complete Zstd stream"
  pure (⟨contentChecksumFlag⟩, pos)

structure HeaderScan where
  pos : Nat
  iterations : Nat

/-- One frame header, or one skippable frame. `u32` to `usize` cannot fail and the
checked additions cannot overflow on a 64-bit target. -/
def headerTurn (data : Bytes) (startPos : Nat) (s : HeaderScan) :
    Run ZiftError (Turn HeaderScan (Option FrameHeader × Nat)) := do
  let pos := s.pos
  failIf (s.iterations ≥ 3)
    (.invalidData pos "too many skippable frames. Fix: use a valid Zstd stream")
  if pos = data.length then
    pure (.done (none, pos))
  else if pos + 4 > data.length then
    if startPos > 0 then
      pure (.done (none, pos))
    else
      fail (.invalidData pos "truncated frame header after skippable frame. Fix: use a complete Zstd stream")
  else do
    let magic ← slice data pos (pos + 4)
    if magic = zstdMagic then do
      let (header, pos) ← parseStandardFrameHeader data pos
      pure (.done (some header, pos))
    else do
      let b0 ← index data pos
      let b1 ← index data (pos + 1)
      let b2 ← index data (pos + 2)
      let b3 ← index data (pos + 3)
      if b0 ≥ 0x50 ∧ b0 ≤ 0x57 ∧ b1 = 0x2A ∧ b2 = 0x4D ∧ b3 = 0x18 then do
        failIf (pos + 8 > data.length)
          (.invalidData pos "truncated skippable frame header. Fix: use a complete Zstd stream")
        let frameSize ← readLe32 data (pos + 4)
        let pos := pos + 8 + frameSize
        failIf (pos > data.length)
          (.invalidData pos "skippable frame extends beyond data. Fix: use a complete Zstd stream")
        pure (.next ⟨pos, s.iterations + 1⟩)
      else if startPos > 0 then
        pure (.done (none, pos))
      else
        fail (.invalidData pos "invalid Zstd magic number. Fix: use a valid Zstd stream")

def parseFrameHeader (data : Bytes) (pos : Nat) : Run ZiftError (Option FrameHeader × Nat) := do
  failIf (data.length < 4)
    (.invalidData 0 "data too short for frame header. Fix: use a complete Zstd stream")
  loop (headerTurn data pos) 4 ⟨pos, 0⟩

/-! ## Blocks -/

inductive BlockType where
  | raw
  | rle
  | compressed
  | reserved
  deriving Repr, DecidableEq

def BlockType.fromU8 : Nat → Option BlockType
  | 0 => some .raw
  | 1 => some .rle
  | 2 => some .compressed
  | 3 => some .reserved
  | _ => none

structure ParsedBlock where
  block : CompressedBlock
  isLast : Bool
  pos : Nat
  deriving Repr, DecidableEq

def blockContent (blockType : BlockType) (blockSize : Nat) (blockData : Bytes) (pos : Nat) :
    Run ZiftError (Bytes × Option Nat) :=
  match blockType with
  | .raw => pure (blockData, some blockSize)
  | .rle =>
    match blockData with
    | [] => pure ([], none)
    | b :: _ => pure (List.replicate blockSize b, some blockSize)
  | .compressed => do
    let literals ← extractLiteralsFromBlock blockData
    pure (literals, some blockSize)
  | .reserved =>
    fail (.invalidData (pos - 3) "reserved block type. Fix: use a valid Zstd stream")

def parseBlock (data : Bytes) (pos : Nat) : Run ZiftError ParsedBlock := do
  failIf (pos + 3 > data.length)
    (.invalidData pos "truncated block header. Fix: use a complete Zstd stream")
  let b0 ← index data pos
  let b1 ← index data (pos + 1)
  let b2 ← index data (pos + 2)
  let pos := pos + 3
  let lastBlock : Bool := b0 &&& 0x01 ≠ 0
  match BlockType.fromU8 ((b0 >>> 1) &&& 0x03).toNat with
  | none => fail (.invalidData (pos - 3) "invalid block type. Fix: use a valid Zstd stream")
  | some blockType => do
    let blockSize := (b0 >>> 3).toNat ||| (b1.toNat <<< 5) ||| (b2.toNat <<< 13)
    failIf (blockSize > maxBlockSize) (.blockTooLarge blockSize maxBlockSize)
    let streamDataSize := if blockType = .rle then 1 else blockSize
    failIf (pos + streamDataSize > data.length)
      (.invalidData pos s!"block data size {streamDataSize} exceeds remaining data {data.length - pos}. Fix: use a complete Zstd stream")
    let blockData ← slice data pos (pos + streamDataSize)
    let (literals, uncompressedLen) ← blockContent blockType blockSize blockData pos
    let block : CompressedBlock := ⟨pos - 3, streamDataSize + 3, uncompressedLen, literals⟩
    pure ⟨block, lastBlock, pos + streamDataSize⟩

/-! ## The stream -/

structure Frames where
  pos : Nat
  blocks : List CompressedBlock
  totalLiterals : Nat
  frameCount : Nat

def blockTurn (data : Bytes) (s : Frames) : Run ZiftError (Turn Frames Frames) := do
  let p ← parseBlock data s.pos
  let totalLiterals := s.totalLiterals + p.block.literals.length
  failIf (totalLiterals > maxTotalLiterals) (.blockTooLarge totalLiterals maxTotalLiterals)
  let maxAllowedLiterals := max (data.length * maxDecompressionRatio) (1024 * 1024)
  failIf (totalLiterals > maxAllowedLiterals)
    (.invalidData p.pos s!"decompression ratio exceeded limit of {maxDecompressionRatio}. Fix: use a non-malicious Zstd stream or increase MAX_DECOMPRESSION_RATIO")
  let s := { s with pos := p.pos, blocks := s.blocks ++ [p.block], totalLiterals := totalLiterals }
  if p.isLast then
    pure (.done s)
  else do
    failIf (s.blocks.length ≥ 100000)
      (.invalidData p.pos "too many blocks (>100K), likely malformed. Fix: use a valid Zstd stream")
    pure (.next s)

/-- One frame. A block takes three bytes or more, which bounds the block loop. -/
def frameTurn (data : Bytes) (s : Frames) : Run ZiftError (Turn Frames (List CompressedBlock)) :=
  if s.pos < data.length then do
    let frameCount := s.frameCount + 1
    failIf (frameCount > 1000)
      (.invalidData s.pos "too many Zstd frames (>1000). Fix: use a valid Zstd stream")
    let (header, pos) ← parseFrameHeader data s.pos
    match header with
    | none => pure (.done s.blocks)
    | some header => do
      let s ← loop (blockTurn data) (data.length + 1) { s with pos := pos, frameCount := frameCount }
      if header.contentChecksum then do
        failIf (s.pos + 4 > data.length)
          (.invalidData s.pos "truncated frame content checksum. Fix: use a complete Zstd stream")
        pure (.next { s with pos := s.pos + 4 })
      else
        pure (.next s)
  else
    pure (.done s.blocks)

def extractLiterals (data : Bytes) : Run ZiftError (List CompressedBlock) :=
  if data = [] then
    fail (.invalidData 0 "empty zstd input. Fix: provide non-empty compressed data")
  else
    loop (frameTurn data) (data.length + 1) ⟨0, [], 0, 0⟩

end Ziftsieve.Zstd
