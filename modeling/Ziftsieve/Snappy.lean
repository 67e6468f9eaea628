import Ziftsieve.Block

/-!
# Snappy framing

`snappy.rs`: the chunk loop, which gathers literals in one buffer and flushes
them as a block when there are more than 32 KiB of them. `snap`'s decompressor is
a parameter.
-/

namespace Ziftsieve.Snappy

def maxChunkSize : Nat := 64 * 1024
def maxChunksPerStream : Nat := 100000
def maxTotalLiterals : Nat := 256 * 1024 * 1024
def maxDecompressionRatio : Nat := 250

def streamIdentifier : Bytes := [0xff, 0x06, 0x00, 0x00, 0x73, 0x4e, 0x61, 0x50, 0x70, 0x59]

def hex02 (b : UInt8) : String := String.ofList ((Nat.toDigits 16 b.toNat).leftpad 2 '0')

def handleSnappyChunk (ext : External) (chunkType : UInt8) (chunkData currentLiterals : Bytes) (pos : Nat) :
    Run ZiftError Bytes :=
  if chunkType = 0x00 then do
    failIf (chunkData.length < 4)
      (.invalidData pos "compressed snappy chunk too short for CRC. Fix: use a valid Snappy stream")
    let compressed ← slice chunkData 4 chunkData.length
    match ext.decompressLen compressed with
    | none => fail (.invalidData pos "invalid snappy compressed chunk. Fix: use a valid Snappy stream")
    | some uncompressedLen => do
      failIf (uncompressedLen > maxTotalLiterals) (.blockTooLarge uncompressedLen maxTotalLiterals)
      match ext.decompressVec compressed with
      | none => fail (.invalidData pos "snappy decompression failed. Fix: use a valid Snappy stream")
      | some literals => pure (currentLiterals ++ literals)
  else if chunkType = 0x01 then do
    failIf (chunkData.length ≤ 4)
      (.invalidData pos "uncompressed snappy chunk too short (needs 4-byte CRC + data). Fix: use a valid Snappy stream")
    let raw ← slice chunkData 4 chunkData.length
    pure (currentLiterals ++ raw)
  else if chunkType = 0xfe ∨ chunkType = 0xff then
    pure currentLiterals
  else
    fail (.invalidData pos s!"reserved unskippable snappy chunk type 0x{hex02 chunkType}. Fix: use a standard Snappy framing stream")

def decodeChunkLen (data : Bytes) (start : Nat) : Run ZiftError (Nat × Nat) := do
  failIf (start + 3 > data.length)
    (.invalidData start "truncated chunk length, need 3 bytes for Snappy framing length. Fix: use a complete Snappy stream")
  let b0 ← index data start
  let b1 ← index data (start + 1)
  let b2 ← index data (start + 2)
  pure (b0.toNat ||| (b1.toNat <<< 8) ||| (b2.toNat <<< 16), 3)

/-- `unwrap_or(u32::MAX)` of a conversion to `u32`. -/
def toU32 (n : Nat) : Nat := if n < 2 ^ 32 then n else 2 ^ 32 - 1

def flushBlock (blocks : List CompressedBlock) (literals : Bytes) (blockStart pos totalLiterals : Nat) :
    Run ZiftError (List CompressedBlock × Nat) := do
  let newTotal := totalLiterals + literals.length
  failIf (newTotal > maxTotalLiterals) (.blockTooLarge newTotal maxTotalLiterals)
  let block : CompressedBlock := ⟨blockStart, toU32 (pos - blockStart), some (toU32 literals.length), literals⟩
  pure (blocks ++ [block], newTotal)

structure Chunks where
  pos : Nat
  blocks : List CompressedBlock
  chunkCount : Nat
  totalLiterals : Nat
  currentLiterals : Bytes
  blockStart : Nat

/-- One chunk. The source's second test of `pos >= data.len()` repeats the loop's. -/
def chunkTurn (ext : External) (data : Bytes) (s : Chunks) : Run ZiftError (Turn Chunks Chunks) :=
  if s.pos < data.length then do
    let chunkCount := s.chunkCount + 1
    failIf (chunkCount ≥ maxChunksPerStream)
      (.invalidData s.pos s!"too many Snappy chunks (max {maxChunksPerStream}). Fix: use a smaller Snappy stream or increase MAX_CHUNKS_PER_STREAM")
    let gathered := s.totalLiterals + s.currentLiterals.length
    failIf (gathered > maxTotalLiterals) (.blockTooLarge gathered maxTotalLiterals)
    let maxAllowedLiterals := max (data.length * maxDecompressionRatio) (1024 * 1024)
    failIf (gathered > maxAllowedLiterals)
      (.invalidData s.pos s!"decompression ratio exceeded limit of {maxDecompressionRatio}. Fix: use a non-malicious Snappy stream or increase MAX_DECOMPRESSION_RATIO")
    let chunkType ← index data s.pos
    let pos := s.pos + 1
    let (chunkLen, tagLen) ← decodeChunkLen data pos
    let pos := pos + tagLen
    failIf (chunkLen > maxChunkSize) (.blockTooLarge chunkLen maxChunkSize)
    failIf (pos + chunkLen > data.length)
      (.invalidData pos "chunk exceeds data bounds. Fix: use a complete Snappy stream")
    let chunkData ← slice data pos (pos + chunkLen)
    let currentLiterals ← handleSnappyChunk ext chunkType chunkData s.currentLiterals pos
    if currentLiterals.length > 32 * 1024 then do
      let (blocks, totalLiterals) ← flushBlock s.blocks currentLiterals s.blockStart pos s.totalLiterals
      pure (.next ⟨pos + chunkLen, blocks, chunkCount, totalLiterals, [], pos⟩)
    else
      pure (.next ⟨pos + chunkLen, s.blocks, chunkCount, s.totalLiterals, currentLiterals, s.blockStart⟩)
  else
    pure (.done s)

def extractLiterals (ext : External) (data : Bytes) : Run ZiftError (List CompressedBlock) :=
  if data = [] then
    fail (.invalidData 0 "empty snappy input. Fix: provide non-empty Snappy data")
  else do
    let pos := if streamIdentifier <+: data then 10 else 0
    let s ← loop (chunkTurn ext data) (data.length + 1) ⟨pos, [], 0, 0, [], pos⟩
    if s.currentLiterals ≠ [] then do
      let (blocks, _) ← flushBlock s.blocks s.currentLiterals s.blockStart s.pos s.totalLiterals
      pure blocks
    else
      pure s.blocks

end Ziftsieve.Snappy
