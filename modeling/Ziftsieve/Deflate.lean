import Ziftsieve.Bitstream

/-!
# DEFLATE blocks

`gzip/deflate.rs`: the tables of RFC 1951, the three block types and the loop
over the blocks of one stream. `gzip/deflate_tables.rs` is not part of the
source's module tree.
-/

namespace Ziftsieve.Gzip

def maxTotalLiterals : Nat := 256 * 1024 * 1024
def maxBlockLiterals : Nat := 16 * 1024 * 1024
def maxDeflateBlocksPerMember : Nat := 100000
def maxDeflateInstructions : Nat := 10000000

def hclenOrder : List Nat := [16, 17, 18, 0, 8, 7, 9, 6, 10, 5, 11, 4, 12, 3, 13, 2, 14, 1, 15]

def fixedLitlenCodeLengths : List Nat :=
  List.replicate 144 8 ++ List.replicate 112 9 ++ List.replicate 24 7 ++ List.replicate 8 8

def fixedDistCodeLengths : List Nat := List.replicate 32 5

def literalLengthBases : List Nat :=
  [3, 4, 5, 6, 7, 8, 9, 10, 11, 13, 15, 17, 19, 23, 27, 31, 35, 43, 51, 59, 67, 83, 99, 115,
   131, 163, 195, 227, 258]

def literalLengthExtraBits : List Nat :=
  [0, 0, 0, 0, 0, 0, 0, 0, 1, 1, 1, 1, 2, 2, 2, 2, 3, 3, 3, 3, 4, 4, 4, 4, 5, 5, 5, 5, 0]

def distanceBases : List Nat :=
  [1, 2, 3, 4, 5, 7, 9, 13, 17, 25, 33, 49, 65, 97, 129, 193, 257, 385, 513, 769, 1025, 1537,
   2049, 3073, 4097, 6145, 8193, 12289, 16385, 24577]

def distanceExtraBits : List Nat :=
  [0, 0, 0, 0, 1, 1, 2, 2, 3, 3, 4, 4, 5, 5, 6, 6, 7, 7, 8, 8, 9, 9, 10, 10, 11, 11, 12, 12, 13, 13]

def fitsLiteralCap (current additional : Nat) : Bool := current + additional ≤ maxBlockLiterals

/-! ## Stored blocks -/

def parseStoredBlock (block : CompressedBlock) : Read CompressedBlock := do
  alignToByte
  let len ← readU16Le
  let nlen ← readU16Le
  if len ≠ (2 ^ 64 - 1 - nlen) &&& 0xFFFF then
    failHere "stored block length mismatch (LEN != ~NLEN). Fix: use a valid gzip stream"
  else if ¬ fitsLiteralCap block.literals.length len then
    fail (.blockTooLarge (block.literals.length + len) maxBlockLiterals)
  else do
    let bytes ← readBytes len
    pure { block with literals := block.literals ++ bytes }

/-! ## Dynamic trees -/

def fillLengths (value offset : Nat) : Nat → List Nat × Nat → Run ZiftError (List Nat × Nat)
  | 0, s => pure s
  | k + 1, (lengths, i) => do
    failIf (i ≥ lengths.length)
      (.invalidData offset "dynamic tree length overflow. Fix: use a valid gzip stream")
    let lengths ← setAt lengths i value
    fillLengths value offset k (lengths, i + 1)

structure CodeLengths where
  lengths : List Nat
  i : Nat
  prev : Nat
  instructions : Nat

def fillFrom (s : CodeLengths) (value repeatCount : Nat) : Read CodeLengths := withReader fun r => do
  let (lengths, i) ← lift (fillLengths value r.bytePos repeatCount (s.lengths, s.i))
  pure { s with lengths := lengths, i := i }

def handleCodeLengthSymbol (symbol : Nat) (s : CodeLengths) : Read CodeLengths :=
  if symbol ≤ 15 then do
    let lengths ← lift (setAt s.lengths s.i symbol)
    pure { s with lengths := lengths, i := s.i + 1, prev := symbol }
  else if symbol = 16 then
    if s.i = 0 then
      failHere "distance code repetition before any length. Fix: use a valid gzip stream"
    else do
      let extra ← readBitsUsize 2
      fillFrom s s.prev (3 + extra)
  else if symbol = 17 then do
    let extra ← readBitsUsize 3
    fillFrom s 0 (3 + extra)
  else if symbol = 18 then do
    let extra ← readBitsUsize 7
    fillFrom s 0 (11 + extra)
  else
    panic -- `unreachable!()`

def codeLengthTurn (decoder : HuffmanDecoder) (s : CodeLengths) : Read (Turn CodeLengths (List Nat)) :=
  if s.i < s.lengths.length then do
    let s := { s with instructions := s.instructions + 1 }
    if s.instructions > maxDeflateInstructions then
      failHere s!"dynamic tree decode exceeded instruction limit ({maxDeflateInstructions}). Fix: use a shorter gzip stream or increase MAX_DEFLATE_INSTRUCTIONS"
    else do
      let symbol ← decoder.decode
      let s ← handleCodeLengthSymbol symbol s
      pure (.next s)
  else
    pure (.done s.lengths)

def decodeCodeLengths (decoder : HuffmanDecoder) (lengths : List Nat) : Read (List Nat) :=
  loop (codeLengthTurn decoder) (maxDeflateInstructions + 2) ⟨lengths, 0, 0, 0⟩

def readCodeLengthLength (lengths : List Nat) (symbol : Nat) : Read (List Nat) := do
  let len ← readBitsU8 3
  lift (setAt lengths symbol len)

def parseDynamicTrees : Read (HuffmanDecoder × HuffmanDecoder) := do
  let hlit := (← readBitsUsize 5) + 257
  let hdist := (← readBitsUsize 5) + 1
  let hclen := (← readBitsUsize 4) + 4
  if hlit > 286 ∨ hdist > 30 then
    failHere "invalid dynamic Huffman header sizes. Fix: use a valid gzip stream"
  else do
    let codeLengthLengths ← (hclenOrder.take hclen).foldlM readCodeLengthLength (List.replicate 19 0)
    let codeLengthDecoder ← lift (HuffmanDecoder.fromLengths codeLengthLengths "code length")
    let lengths ← decodeCodeLengths codeLengthDecoder (List.replicate (hlit + hdist) 0)
    let literalDecoder ← lift (HuffmanDecoder.fromLengths (lengths.take hlit) "literal/length")
    let distanceDecoder ← lift (HuffmanDecoder.fromLengths (lengths.drop hlit) "distance")
    pure (literalDecoder, distanceDecoder)

/-! ## Huffman-coded blocks -/

/-- The length and distance a match stands for; `parse_match` computes both and drops them. -/
def matchPair (symbol : Nat) (distanceDecoder : HuffmanDecoder) : Read (Nat × Nat) := do
  let idx := symbol - 257
  let extraBits ← lift (index literalLengthExtraBits idx)
  let base ← lift (index literalLengthBases idx)
  let lengthExtra ← (if extraBits > 0 then readBits extraBits else pure 0)
  let distSymbol ← distanceDecoder.decode
  if distSymbol ≥ 30 then
    failHere "invalid distance code. Fix: use a valid gzip stream"
  else do
    let distBase ← lift (index distanceBases distSymbol)
    let distExtra ← lift (index distanceExtraBits distSymbol)
    let distanceExtra ← (if distExtra > 0 then readBits distExtra else pure 0)
    pure (base + lengthExtra, distBase + distanceExtra)

def parseMatch (symbol : Nat) (distanceDecoder : HuffmanDecoder) : Read Unit := do
  let _ ← matchPair symbol distanceDecoder
  pure ()

structure HuffmanBlock where
  block : CompressedBlock
  hadMatches : Bool
  instructions : Nat

def huffmanTurn (literalDecoder distanceDecoder : HuffmanDecoder) (maxInstructions : Nat) (s : HuffmanBlock) :
    Read (Turn HuffmanBlock (Bool × CompressedBlock)) := do
  let instructions := s.instructions + 1
  if instructions > maxInstructions then
    failHere s!"DEFLATE instruction limit exceeded ({maxInstructions}). Fix: use a smaller gzip stream or increase MAX_DEFLATE_INSTRUCTIONS"
  else do
    let symbol ← literalDecoder.decode
    if symbol ≤ 255 then
      if ¬ fitsLiteralCap s.block.literals.length 1 then
        fail (.blockTooLarge (s.block.literals.length + 1) maxBlockLiterals)
      else
        pure (.next { s with
          block := { s.block with literals := s.block.literals ++ [UInt8.ofNat symbol] }
          instructions := instructions })
    else if symbol = 256 then
      pure (.done (s.hadMatches, s.block))
    else if symbol ≤ 285 then do
      parseMatch symbol distanceDecoder
      pure (.next { s with hadMatches := true, instructions := instructions })
    else if symbol ≤ 287 then
      failHere "invalid fixed/dynamic literal/length code. Fix: use a valid gzip stream"
    else
      failHere "invalid literal/length code. Fix: use a valid gzip stream"

def parseHuffmanBlockWithLimit (block : CompressedBlock) (literalDecoder distanceDecoder : HuffmanDecoder)
    (maxInstructions : Nat) : Read (Bool × CompressedBlock) :=
  loop (huffmanTurn literalDecoder distanceDecoder maxInstructions) (maxInstructions + 1) ⟨block, false, 0⟩

def parseHuffmanBlock (block : CompressedBlock) (literalDecoder distanceDecoder : HuffmanDecoder) :
    Read (Bool × CompressedBlock) :=
  parseHuffmanBlockWithLimit block literalDecoder distanceDecoder maxDeflateInstructions

/-! ## The stream -/

def parseSingleBlock (blockType : Nat) (block : CompressedBlock) : Read (Bool × CompressedBlock) :=
  match blockType with
  | 0 => do
    let block ← parseStoredBlock block
    pure (false, block)
  | 1 => do
    let literalDecoder ← lift (HuffmanDecoder.fromLengths fixedLitlenCodeLengths "fixed")
    let distanceDecoder ← lift (HuffmanDecoder.fromLengths fixedDistCodeLengths "fixed distance")
    parseHuffmanBlock block literalDecoder distanceDecoder
  | 2 => do
    let (literalDecoder, distanceDecoder) ← parseDynamicTrees
    parseHuffmanBlock block literalDecoder distanceDecoder
  | 3 => withReader fun r =>
    fail (.invalidData (r.bytePos - 1) "reserved DEFLATE block type 3. Fix: use a valid gzip stream")
  | _ => panic -- `unreachable!()`

structure Stream where
  blocks : List CompressedBlock
  totalLiterals : Nat
  hadMatches : Bool

/-- One block of a DEFLATE stream. The block offset fits in `u64` on every target. -/
def streamTurn (s : Stream) : Read (Turn Stream Stream) :=
  if s.blocks.length ≥ maxDeflateBlocksPerMember then
    failHere "too many DEFLATE blocks across all members (likely malformed stream)"
  else withReader fun r => do
    let blockStart := r.bitOffset
    let blockOffset := blockStart / 8
    let isFinal := (← readBits 1) = 1
    let blockType ← readBits 2
    let (isMatched, block) ← parseSingleBlock blockType (CompressedBlock.new blockOffset 0)
    let totalLiterals := s.totalLiterals + block.literals.length
    failIf (totalLiterals > maxTotalLiterals) (.blockTooLarge totalLiterals maxTotalLiterals)
    withReader fun r => do
      let usedBits := r.bitOffset - blockStart
      let usedBytes := (usedBits + 7) / 8
      failIf (usedBytes > 2 ^ 32 - 1) (.blockTooLarge usedBytes (2 ^ 32 - 1))
      let s : Stream :=
        ⟨s.blocks ++ [{ block with compressedLen := usedBytes }], totalLiterals, s.hadMatches || isMatched⟩
      pure (if isFinal then .done s else .next s)

def parseDeflateStream (blocks : List CompressedBlock) (totalLiterals : Nat) : Read Stream :=
  loop streamTurn (maxDeflateBlocksPerMember + 1) ⟨blocks, totalLiterals, false⟩

end Ziftsieve.Gzip
