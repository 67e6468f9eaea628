import Ziftsieve.Fse

/-!
# Zstd Huffman literals

`zstd/huffman.rs`. The source decodes every literals section with a fresh table,
so reading the weights and building the table are functions of the input here.
-/

namespace Ziftsieve.Zstd

def maxMaxNumBits : Nat := 11

/-! ## Weights -/

def skipTurnPadding (s : BitReaderReversed × Nat) : Opt (Turn (BitReaderReversed × Nat) (BitReaderReversed × Nat)) := do
  let (br, skippedBits) := s
  let (val, br) ← br.getBits 1
  let skippedBits := skippedBits + 1
  pure (if val = 1 ∨ skippedBits > 8 then .done (br, skippedBits) else .next (br, skippedBits))

def skipPadding (br : BitReaderReversed) : Opt BitReaderReversed := do
  let (br, skipped) ← loop skipTurnPadding 9 (br, 0)
  failIf (skipped > 8) ()
  pure br

structure WeightState where
  br : BitReaderReversed
  dec1 : Fse.FSEDecoder
  dec2 : Fse.FSEDecoder
  weights : List Nat

def weightTurn (s : WeightState) : Opt (Turn WeightState (List Nat)) := do
  let weights := s.weights ++ [s.dec1.decodeSymbol]
  let (dec1, br) ← s.dec1.updateState s.br
  let remaining ← br.bitsRemainingIsize
  if remaining ≤ -1 then
    pure (.done (weights ++ [s.dec2.decodeSymbol]))
  else do
    let weights := weights ++ [s.dec2.decodeSymbol]
    let (dec2, br) ← s.dec2.updateState br
    let remaining ← br.bitsRemainingIsize
    if remaining ≤ -1 then
      pure (.done (weights ++ [dec1.decodeSymbol]))
    else do
      failIf (weights.length > 255) ()
      pure (.next ⟨br, dec1, dec2, weights⟩)

/-- `read_weights` for a header byte below 128: FSE-compressed weights. -/
def readFseWeights (header : Nat) (fseStream : Bytes) : Opt (List Nat × Nat) := do
  failIf (header > fseStream.length) ()
  let (table, bytesUsedByFseHeader) ← (Fse.FSETable.new 255).buildDecoder fseStream 6
  failIf (bytesUsedByFseHeader > header) ()
  let compressedStart := bytesUsedByFseHeader
  let compressedLength := header - bytesUsedByFseHeader
  let compressedWeights ← slice fseStream compressedStart fseStream.length
  failIf (compressedWeights.length < compressedLength) ()
  let compressedWeights ← slice compressedWeights 0 compressedLength
  let bits ← mulU 32 ((bytesUsedByFseHeader + compressedLength) % 2 ^ 32) 8
  let bitsRead ← addU 32 8 bits
  let br ← skipPadding (BitReaderReversed.new compressedWeights)
  let (dec1, br) ← (Fse.FSEDecoder.new table).initState br
  let (dec2, br) ← (Fse.FSEDecoder.new table).initState br
  let weights ← loop weightTurn 257 ⟨br, dec1, dec2, []⟩
  pure (weights, bitsRead)

def directTurn (weightsRaw : Bytes) (weights : List Nat) (idx : Nat) : Opt (List Nat) := do
  let b ← index weightsRaw (idx / 2)
  setAt weights idx (if idx % 2 = 0 then b.toNat >>> 4 else b.toNat &&& 0x0F)

/-- `read_weights` for a header byte from 128 on: four bits a weight. -/
def readDirectWeights (header : Nat) (weightsRaw : Bytes) : Opt (List Nat × Nat) := do
  let numWeights := header - 127
  let bytesNeeded := if numWeights % 2 = 0 then numWeights / 2 else numWeights / 2 + 1
  failIf (weightsRaw.length < bytesNeeded) ()
  let weights ← (List.range numWeights).foldlM (directTurn weightsRaw) (List.replicate numWeights 0)
  pure (weights, 8 + 4 * numWeights)

def readWeights (source : Bytes) : Opt (List Nat × Nat) := do
  failIf (source = []) ()
  let b ← index source 0
  let header := b.toNat
  let rest ← slice source 1 source.length
  let (weights, bitsRead) ← (if header ≤ 127 then readFseWeights header rest else readDirectWeights header rest)
  pure (weights, if bitsRead % 8 = 0 then bitsRead / 8 else bitsRead / 8 + 1)

/-! ## The table -/

structure HuffmanEntry where
  symbol : Nat
  numBits : Nat
  deriving Repr, DecidableEq

structure HuffmanTable where
  decode : List HuffmanEntry
  maxNumBits : Nat
  deriving Repr, DecidableEq

def addWeight (weightSum w : Nat) : Opt Nat := do
  failIf (w > maxMaxNumBits) ()
  let share ← (if w > 0 then shlU 32 1 (w - 1) else pure 0)
  addU 32 weightSum share

def isPowerOfTwo (n : Nat) : Bool := n ≠ 0 ∧ 2 ^ Nat.log2 n = n

def bitsOfWeight (maxBits w : Nat) : Opt Nat :=
  if w > 0 then do
    let top ← addU 8 maxBits 1
    subU top w
  else pure 0

def countRank (bitRanks : List Nat) (numBits : Nat) : Opt (List Nat) := do
  let c ← index bitRanks numBits
  let c ← addU 32 c 1
  setAt bitRanks numBits c

def rankTurn (maxBits : Nat) (bitRanks : List Nat) (rankIndexes : List Nat) (bits : Nat) : Opt (List Nat) := do
  let above ← index rankIndexes bits
  let count ← index bitRanks bits
  let shift ← subU maxBits bits
  let width ← shlU 64 1 shift
  let cells ← mulU 64 count width
  let index ← addU 64 above cells
  let below ← subU bits 1
  setAt rankIndexes below index

def fillEntry (base symbol bits : Nat) (decode : List HuffmanEntry) (idx : Nat) : Opt (List HuffmanEntry) := do
  let i ← addU 64 base idx
  setAt decode i ⟨symbol % 2 ^ 8, bits⟩

def fillTurn (maxBits : Nat) (s : List HuffmanEntry × List Nat) (p : Nat × Nat) :
    Opt (List HuffmanEntry × List Nat) := do
  let (decode, rankIndexes) := s
  let (bitsForSymbol, symbol) := p
  if bitsForSymbol ≠ 0 then do
    let baseIdx ← index rankIndexes bitsForSymbol
    let shift ← subU maxBits bitsForSymbol
    let len ← shlU 64 1 shift
    let next ← addU 64 baseIdx len
    let rankIndexes ← setAt rankIndexes bitsForSymbol next
    let decode ← (List.range len).foldlM (fillEntry baseIdx symbol bitsForSymbol) decode
    pure (decode, rankIndexes)
  else
    pure (decode, rankIndexes)

def buildTableFromWeights (weights : List Nat) : Opt HuffmanTable := do
  let weightSum ← weights.foldlM addWeight 0
  failIf (weightSum = 0) ()
  let maxBits := highestBitSet weightSum % 2 ^ 8
  let full ← shlU 32 1 maxBits
  let leftOver ← subU full weightSum
  failIf (¬ isPowerOfTwo leftOver) ()
  let lastWeight := highestBitSet leftOver % 2 ^ 8
  let bits ← weights.mapM (bitsOfWeight maxBits)
  let top ← addU 8 maxBits 1
  let lastBits ← subU top lastWeight
  let bits := bits ++ [lastBits]
  failIf (maxBits > maxMaxNumBits) ()
  let ranks ← addU 8 maxBits 1
  let bitRanks ← bits.foldlM countRank (List.replicate ranks 0)
  let tableSize ← shlU 64 1 maxBits
  let decode := List.replicate tableSize (HuffmanEntry.mk 0 0)
  let rankIndexes ← (List.range' 1 maxBits).reverse.foldlM (rankTurn maxBits bitRanks) (List.replicate ranks 0)
  let total ← index rankIndexes 0
  failIf (total ≠ decode.length) ()
  let (decode, _) ← bits.zipIdx.foldlM (fillTurn maxBits) (decode, rankIndexes)
  pure ⟨decode, maxBits⟩

def HuffmanTable.buildDecoder (source : Bytes) : Opt (HuffmanTable × Nat) := do
  let (weights, bytesUsed) ← readWeights source
  let table ← buildTableFromWeights weights
  pure (table, bytesUsed)

/-! ## The streams -/

structure HuffmanState where
  br : BitReaderReversed
  state : Nat
  out : Bytes

def HuffmanTable.symbolTurn (table : HuffmanTable) (s : HuffmanState) : Opt (Turn HuffmanState Bytes) := do
  let remaining ← s.br.bitsRemainingIsize
  if remaining > -(table.maxNumBits : Int) then do
    let entry ← index table.decode s.state
    let out := s.out ++ [UInt8.ofNat entry.symbol]
    let (newBits, br) ← s.br.getBits entry.numBits
    let state ← shlU 64 s.state entry.numBits
    let mask ← subU table.decode.length 1
    pure (.next ⟨br, (state &&& mask) ||| newBits, out⟩)
  else
    pure (.done s.out)

/-- The output with the stream's symbols appended. Each symbol takes a bit or
more of a stream that ends `max_num_bits` bits past its source. -/
def decodeStream (table : HuffmanTable) (stream out : Bytes) : Opt Bytes :=
  if stream = [] then pure out
  else do
    let br ← skipPadding (BitReaderReversed.new stream)
    let (state, br) ← br.getBits table.maxNumBits
    loop table.symbolTurn (stream.length * 8 + table.maxNumBits + 2) ⟨br, state, out⟩

def decodeLiterals (data : Bytes) (numLiterals numStreams : Nat) : Opt Bytes := do
  failIf (numLiterals > 128 * 1024) ()
  failIf (data.length > 128 * 1024) ()
  if numLiterals = 0 then
    pure []
  else do
    let (table, treeBytes) ← HuffmanTable.buildDecoder data
    failIf (treeBytes ≥ data.length) ()
    let payload ← slice data treeBytes data.length
    let out ←
      (if numStreams = 1 then decodeStream table payload []
      else if numStreams = 4 then do
        failIf (payload.length < 6) ()
        let jump1 ← readLe16 payload 0
        let second ← readLe16 payload 2
        let third ← readLe16 payload 4
        let jump2 := jump1 + second
        let jump3 := jump2 + third
        let streamsData ← slice payload 6 payload.length
        failIf (jump3 > streamsData.length) ()
        let s1 ← slice streamsData 0 jump1
        let s2 ← slice streamsData jump1 jump2
        let s3 ← slice streamsData jump2 jump3
        let s4 ← slice streamsData jump3 streamsData.length
        let out ← decodeStream table s1 []
        let out ← decodeStream table s2 out
        let out ← decodeStream table s3 out
        decodeStream table s4 out
      else fail () : Opt Bytes)
    failIf (out.length ≠ numLiterals) ()
    pure out

end Ziftsieve.Zstd
