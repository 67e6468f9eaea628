import Ziftsieve.Bloom
import Ziftsieve.Extract

/-!
# Indexes and their builders

`index.rs` and `builder.rs`: the query over the blocks' filters, the batch
builder, and the streaming builder, whose state a failed chunk leaves as it was.
-/

namespace Ziftsieve

structure BlockWithBloom where
  block : CompressedBlock
  bloom : BloomFilter

structure CompressedIndex where
  format : CompressionFormat
  blocks : List BlockWithBloom

namespace CompressedIndex

def patternMightContain (ext : External) (bloom : BloomFilter) (pattern : Bytes) : Bool :=
  if pattern.length ≤ 4 then bloom.mayContain ext pattern
  else (windows 4 pattern).all (bloom.mayContain ext)

def candidateBlocks (ext : External) (idx : CompressedIndex) (pattern : Bytes) : List Nat :=
  if pattern = [] then List.range idx.blocks.length
  else
    (idx.blocks.zipIdx.filter fun b => patternMightContain ext b.1.bloom pattern).map (·.2)

/-- What `candidate_blocks_iter` yields: the same pipeline without the test for the empty pattern. -/
def candidateBlocksIter (ext : External) (idx : CompressedIndex) (pattern : Bytes) : List Nat :=
  (idx.blocks.zipIdx.filter fun b => patternMightContain ext b.1.bloom pattern).map (·.2)

def getBlock (idx : CompressedIndex) (i : Nat) : Option CompressedBlock := (idx.blocks[i]?).map (·.block)

def blockCount (idx : CompressedIndex) : Nat := idx.blocks.length

end CompressedIndex

/-- Both builders insert the windows of four, three and two bytes, and the bytes. -/
def insertLiterals (ext : External) (bloom : BloomFilter) (literals : Bytes) : BloomFilter :=
  let bloom := (windows 4 literals).foldl (BloomFilter.insert ext) bloom
  let bloom := (windows 3 literals).foldl (BloomFilter.insert ext) bloom
  let bloom := (windows 2 literals).foldl (BloomFilter.insert ext) bloom
  literals.foldl (fun bloom byte => bloom.insert ext [byte]) bloom

/-! ## The batch builder -/

structure CompressedIndexBuilder where
  format : CompressionFormat
  expectedItems : Option Nat
  falsePositiveRate : Option Float
  numBits : Option Nat
  numHashes : Option Nat

namespace CompressedIndexBuilder

def emptyBloom (b : CompressedIndexBuilder) (literalCount numBlocks : Nat) : BloomFilter :=
  match b.numBits, b.numHashes with
  | some bits, some hashes => BloomFilter.withParams bits hashes
  | _, _ =>
    let items := match b.expectedItems with
      | some e => e / numBlocks
      | none => max literalCount 16
    BloomFilter.new (max items 16) (b.falsePositiveRate.getD 0.01)

def buildBlockWithBloom (ext : External) (b : CompressedIndexBuilder) (block : CompressedBlock)
    (numBlocks : Nat) : BlockWithBloom :=
  ⟨block, insertLiterals ext (b.emptyBloom block.literals.length numBlocks) block.literals⟩

def buildFromBytes (ext : External) (b : CompressedIndexBuilder) (data : Bytes) :
    Run ZiftError CompressedIndex := do
  let blocks ← extractFromBytes ext b.format data
  let numBlocks := max blocks.length 1
  pure ⟨b.format, blocks.map fun block => b.buildBlockWithBloom ext block numBlocks⟩

end CompressedIndexBuilder

/-! ## The streaming builder -/

def maxStreamingBlocks : Nat := 1000000

structure StreamingIndexBuilder where
  format : CompressionFormat
  blocks : List BlockWithBloom
  expectedItems : Option Nat
  falsePositiveRate : Option Float
  numBits : Option Nat
  numHashes : Option Nat

namespace StreamingIndexBuilder

def new (format : CompressionFormat) : StreamingIndexBuilder := ⟨format, [], none, none, none, none⟩

def emptyBloom (b : StreamingIndexBuilder) (literalCount : Nat) : BloomFilter :=
  match b.numBits, b.numHashes with
  | some bits, some hashes => BloomFilter.withParams bits hashes
  | _, _ =>
    let items := b.expectedItems.getD (max literalCount 16)
    BloomFilter.new (max items 16) (b.falsePositiveRate.getD 0.01)

def buildBlockWithBloom (ext : External) (b : StreamingIndexBuilder) (block : CompressedBlock) : BlockWithBloom :=
  ⟨block, insertLiterals ext (b.emptyBloom block.literals.length) block.literals⟩

def processChunk (ext : External) (b : StreamingIndexBuilder) (chunk : Bytes) :
    Run ZiftError StreamingIndexBuilder := do
  let newBlocks ← extractFromBytes ext b.format chunk
  failIf (b.blocks.length + newBlocks.length > maxStreamingBlocks)
    (.blockTooLarge (b.blocks.length + newBlocks.length) maxStreamingBlocks)
  pure { b with blocks := b.blocks ++ newBlocks.map (b.buildBlockWithBloom ext) }

/-- A run of `process_chunk` calls: the state goes on from a failed call unchanged. -/
def processChunks (ext : External) (b : StreamingIndexBuilder) (chunks : List Bytes) : StreamingIndexBuilder :=
  chunks.foldl (fun b chunk => match b.processChunk ext chunk with
    | .ok b' => b'
    | .error _ => b) b

def finalize (b : StreamingIndexBuilder) : Run ZiftError CompressedIndex := pure ⟨b.format, b.blocks⟩

end StreamingIndexBuilder

end Ziftsieve
