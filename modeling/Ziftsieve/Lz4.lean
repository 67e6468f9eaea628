import Ziftsieve.Block

/-!
# LZ4 blocks and frames

`lz4.rs`: the scan of one block's token stream, the variable-length lengths,
and the walk over the blocks of a stream with or without a frame header.
Reservations of capacity are left out; they have no effect on the result.
-/

namespace Ziftsieve.Lz4

def maxBlockSize : Nat := 4 * 1024 * 1024
def lz4FrameMagic : Bytes := [0x04, 0x22, 0x4D, 0x18]
def maxSequencesPerBlock : Nat := 100000
def maxBlocksPerStream : Nat := 10000
def maxTotalLiterals : Nat := 256 * 1024 * 1024
def maxDecompressionRatio : Nat := 250

def usizeMax : Nat := 2 ^ 64 - 1

structure Length where
  pos : Nat
  len : Nat

def lengthTurn (data : Bytes) (s : Length) : Run ZiftError (Turn Length (Nat × Nat)) := do
  failIf (s.pos ≥ data.length)
    (.invalidData s.pos "truncated length encoding. Fix: use a complete LZ4 stream")
  let byte ← index data s.pos
  let pos := s.pos + 1
  let len := s.len + byte.toNat
  failIf (len > usizeMax)
    (.invalidData pos "length overflow in variable-length encoding. Fix: use a valid LZ4 stream")
  if byte < 255 then
    pure (.done (len, pos))
  else do
    failIf (len > maxBlockSize) (.blockTooLarge len maxBlockSize)
    pure (.next ⟨pos, len⟩)

def decodeLength (data : Bytes) (pos initial : Nat) : Run ZiftError (Nat × Nat) :=
  loop (lengthTurn data) (data.length + 1) ⟨pos, initial⟩

structure Scan where
  pos : Nat
  literals : Bytes
  sequenceCount : Nat

/-- The match section: two offset bytes and the match length's extension. -/
def skipMatch (compressed : Bytes) (pos matchLen : Nat) : Run ZiftError Nat := do
  failIf (pos + 2 > compressed.length)
    (.invalidData pos "truncated match offset. Fix: use a complete LZ4 stream")
  let pos := pos + 2
  if matchLen = 15 then do
    let (_, pos) ← decodeLength compressed pos matchLen
    pure pos
  else
    pure pos

/-- One sequence. The source's second test of `pos >= compressed.len()`, just
after the loop's own, is not repeated. -/
def scanTurn (compressed : Bytes) (maxOutput : Nat) (s : Scan) : Run ZiftError (Turn Scan Bytes) :=
  if s.pos < compressed.length ∧ s.literals.length < maxOutput then do
    let sequenceCount := s.sequenceCount + 1
    failIf (sequenceCount ≥ maxSequencesPerBlock)
      (.invalidData s.pos s!"too many LZ4 sequences (max {maxSequencesPerBlock}). Fix: use a smaller LZ4 block or increase MAX_SEQUENCES_PER_BLOCK")
    let token ← index compressed s.pos
    let pos := s.pos + 1
    let literalNibble := (token >>> 4).toNat
    let matchLen := (token &&& 0x0F).toNat
    let (literalLen, pos) ←
      (if literalNibble = 15 then decodeLength compressed pos literalNibble else pure (literalNibble, pos))
    failIf (literalLen > maxBlockSize) (.blockTooLarge literalLen maxBlockSize)
    failIf (pos + literalLen > compressed.length)
      (.invalidData pos "literal exceeds block bounds. Fix: use a valid LZ4 stream")
    let remainingOutput := maxOutput - s.literals.length
    let toCopy := min literalLen remainingOutput
    let copied ← (if toCopy > 0 then slice compressed pos (pos + toCopy) else pure [])
    let pos := pos + literalLen
    let pos ← (if pos < compressed.length then skipMatch compressed pos matchLen else pure pos)
    pure (.next ⟨pos, s.literals ++ copied, sequenceCount⟩)
  else
    pure (.done s.literals)

def extractLiterals (compressed : Bytes) (maxOutput : Nat) : Run ZiftError Bytes :=
  loop (scanTurn compressed maxOutput) (compressed.length + 1) ⟨0, [], 0⟩

def parseFrameHeader (data : Bytes) : Run ZiftError Nat :=
  if data = [] then
    fail (.invalidData 0 "empty input is not valid LZ4 data. Fix: provide non-empty LZ4 data")
  else if data.length < 4 ∨ data.take 4 ≠ lz4FrameMagic then
    -- not framed: raw blocks from offset 0
    pure 0
  else do
    failIf (data.length < 7)
      (.invalidData data.length "truncated lz4 frame header. Fix: use a complete LZ4 stream")
    let flg ← index data 4
    failIf (flg &&& 0xC0 ≠ 0x40)
      (.invalidData 4 "unsupported LZ4 frame version. Fix: use LZ4 frame version 1")
    let pos := 6
    let pos := if flg &&& 0x08 ≠ 0 then pos + 8 else pos
    let pos := if flg &&& 0x01 ≠ 0 then pos + 1 else pos
    failIf (pos ≥ data.length)
      (.invalidData pos "truncated lz4 frame descriptor. Fix: use a complete LZ4 stream")
    pure (pos + 1)

structure Walk where
  offset : Nat
  blocks : List CompressedBlock
  totalLiterals : Nat

def blockLiterals (isUncompressed : Bool) (blockData : Bytes) : Run ZiftError Bytes :=
  if isUncompressed then pure blockData else extractLiterals blockData maxBlockSize

/-- The block whose header at `w.offset` gives `size`. On a 64-bit target the two
`try_from` conversions of the source, of the offset and of a size of at most
4 MiB, cannot fail. -/
def walkBlock (data : Bytes) (w : Walk) (isUncompressed : Bool) (size : Nat) : Run ZiftError Walk := do
  failIf (size > maxBlockSize) (.blockTooLarge size maxBlockSize)
  let dataStart := w.offset + 4
  let dataEnd := dataStart + size
  failIf (dataEnd > data.length)
    (.invalidData w.offset "truncated block. Fix: use a complete LZ4 stream")
  let blockData ← slice data dataStart dataEnd
  let literals ← blockLiterals isUncompressed blockData
  let block := { CompressedBlock.new w.offset size with literals := literals }
  let totalLiterals := w.totalLiterals + literals.length
  failIf (totalLiterals > maxTotalLiterals) (.blockTooLarge totalLiterals maxTotalLiterals)
  let maxAllowedLiterals := max (data.length * maxDecompressionRatio) (1024 * 1024)
  failIf (totalLiterals > maxAllowedLiterals)
    (.invalidData w.offset s!"decompression ratio exceeded limit of {maxDecompressionRatio}. Fix: use a non-malicious LZ4 stream or increase MAX_DECOMPRESSION_RATIO")
  pure ⟨dataEnd, w.blocks ++ [block], totalLiterals⟩

def walkTurn (data : Bytes) (isFramed : Bool) (w : Walk) :
    Run ZiftError (Turn Walk (List CompressedBlock)) :=
  if w.offset < data.length then do
    failIf (w.blocks.length ≥ maxBlocksPerStream)
      (.invalidData w.offset s!"too many LZ4 blocks (max {maxBlocksPerStream}). Fix: use a smaller LZ4 stream or increase MAX_BLOCKS_PER_STREAM")
    if w.offset + 4 > data.length then
      if w.offset = data.length ∨ ¬ isFramed then
        pure (.done w.blocks)
      else
        fail (.invalidData w.offset "truncated LZ4 block header. Fix: use a complete LZ4 stream")
    else do
      let blockSize ← readLe32 data w.offset
      let isUncompressed : Bool := blockSize &&& 0x80000000 ≠ 0
      let size := blockSize &&& 0x7FFFFFFF
      if size = 0 then
        pure (.done w.blocks)
      else do
        let w ← walkBlock data w isUncompressed size
        pure (.next w)
  else
    pure (.done w.blocks)

def isFramed (data : Bytes) : Bool := data.length ≥ 4 ∧ data.take 4 = lz4FrameMagic

def parseLz4Blocks (data : Bytes) : Run ZiftError (List CompressedBlock) :=
  if data = [] then
    fail (.invalidData 0 "empty input is not valid LZ4 data. Fix: provide non-empty LZ4 data")
  else do
    let offset ← parseFrameHeader data
    loop (walkTurn data (isFramed data)) (data.length + 1) ⟨offset, [], 0⟩

end Ziftsieve.Lz4
