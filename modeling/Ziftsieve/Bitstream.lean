import Ziftsieve.Block

/-!
# The DEFLATE bit reader and Huffman decoder

`gzip/bitstream.rs`. A reader keeps its state when an operation fails, so the
operations are in `Read`: a state monad under the error. The `u64` bit buffer is
a number below `2 ^ 64`; in the decoder's nodes, `none` stands for the source's
`-1`. Additions of `u16` are checked, as in an overflow-checked build.
-/

namespace Ziftsieve.Gzip

structure BitReader where
  data : Bytes
  bytePos : Nat
  bitPos : Nat
  buffer : Nat
  bitsInBuffer : Nat
  nextByteToPull : Nat
  deriving Repr, DecidableEq

abbrev Read (α : Type) := ExceptT (Stop ZiftError) (StateM BitReader) α

def lift {α : Type} (x : Run ZiftError α) : Read α := fun r => (x, r)

def withReader {α : Type} (f : BitReader → Read α) : Read α := fun r => f r r

/-- Fail with the reader's byte position as the offset. -/
def failHere {α : Type} (reason : String) : Read α := withReader fun r => fail (.invalidData r.bytePos reason)

namespace BitReader

def new (data : Bytes) (start : Nat) : BitReader := ⟨data, start, 0, 0, 0, start⟩

def bitOffset (r : BitReader) : Nat := r.bytePos * 8 + r.bitPos

def remainingBytes (r : BitReader) : Nat := (r.data.length - r.nextByteToPull) + r.bitsInBuffer / 8

/-- The refill loop; a turn adds a byte, so eight turns take the count past 56. -/
def refillLoop : Nat → BitReader → BitReader
  | 0, r => r
  | n + 1, r =>
    match r.data[r.nextByteToPull]? with
    | some b =>
      if r.bitsInBuffer ≤ 56 then
        refillLoop n { r with
          buffer := r.buffer ||| (b.toNat <<< r.bitsInBuffer) % 2 ^ 64
          nextByteToPull := r.nextByteToPull + 1
          bitsInBuffer := r.bitsInBuffer + 8 }
      else r
    | none => r

def refill (r : BitReader) : BitReader := refillLoop 8 r

def takeBits (r : BitReader) (bits : Nat) : Nat × BitReader :=
  let newBitPos := r.bitPos + bits
  (r.buffer &&& (1 <<< bits - 1),
   { r with
     buffer := r.buffer >>> bits
     bitsInBuffer := r.bitsInBuffer - bits
     bytePos := r.bytePos + newBitPos / 8
     bitPos := newBitPos % 8 })

end BitReader

def readBits (bits : Nat) : Read Nat := fun r =>
  if bits = 0 then (.ok 0, r)
  else if bits > 32 then
    failHere s!"requested too many bits: {bits} (max 32). Fix: use a valid gzip stream" r
  else
    let r := if r.bitsInBuffer < bits then r.refill else r
    if r.bitsInBuffer < bits then
      failHere "truncated bitstream. Fix: use a complete gzip stream" r
    else
      let (out, r) := r.takeBits bits
      (.ok out, r)

def readBitsU8 (bits : Nat) : Read Nat := do
  let v ← readBits bits
  if v > 255 then failHere "bit value does not fit in u8. Fix: use a valid gzip stream" else pure v

def readBit : Read Nat := readBitsU8 1

/-- `read_bits_usize`; a `u32` fits in `usize`. -/
def readBitsUsize (bits : Nat) : Read Nat := readBits bits

def alignToByte : Read Unit := withReader fun r =>
  if r.bitPos ≠ 0 then do
    let _ ← readBits (8 - r.bitPos)
    pure ()
  else pure ()

def peekU8 : Read Nat := fun r =>
  if r.bitPos ≠ 0 then failHere "peek_u8 must be byte-aligned. Fix: use a valid gzip stream" r
  else
    let r := if r.bitsInBuffer < 8 then r.refill else r
    if r.bitsInBuffer < 8 then failHere "truncated byte peek. Fix: use a complete gzip stream" r
    else (.ok (r.buffer &&& 0xFF), r)

def readU8 : Read Nat := withReader fun r =>
  if r.bitPos ≠ 0 then failHere "expected byte boundary. Fix: use a valid gzip stream"
  else readBitsU8 8

def readU16Le : Read Nat := do
  let lo ← readU8
  let hi ← readU8
  pure (lo + 256 * hi)

def readU32Le : Read Nat := do
  let lo ← readU16Le
  let hi ← readU16Le
  pure (lo ||| (hi <<< 16))

def readBytes (count : Nat) : Read Bytes := fun r =>
  if r.bitPos ≠ 0 then failHere "byte read must be aligned. Fix: use a valid gzip stream" r
  else
    let start := r.bytePos
    let stop := start + count
    if stop > r.data.length then failHere "truncated byte data. Fix: use a complete gzip stream" r
    else
      (slice r.data start stop,
       { r with bytePos := stop, bitPos := 0, buffer := 0, bitsInBuffer := 0, nextByteToPull := stop })

def skipBytes (count : Nat) : Read Unit := do
  let _ ← readBytes count
  pure ()

/-! ## The decoder -/

def deflateMaxBits : Nat := 15

structure HuffmanNode where
  child0 : Option Nat
  child1 : Option Nat
  symbol : Option Nat
  deriving Repr, DecidableEq

def HuffmanNode.empty : HuffmanNode := ⟨none, none, none⟩

def HuffmanNode.child (n : HuffmanNode) (bit : Bool) : Option Nat := if bit then n.child1 else n.child0

def HuffmanNode.setChild (n : HuffmanNode) (bit : Bool) (c : Nat) : HuffmanNode :=
  if bit then { n with child1 := some c } else { n with child0 := some c }

structure HuffmanDecoder where
  nodes : List HuffmanNode
  maxBits : Nat
  deriving Repr, DecidableEq

def addU16 (a b : Nat) : Run ZiftError Nat := if a + b < 2 ^ 16 then .ok (a + b) else panic

def insertBit (code : Nat) (s : List HuffmanNode × Nat) (i : Nat) : Run ZiftError (List HuffmanNode × Nat) := do
  let (nodes, node) := s
  let bit := code.testBit i
  let n ← index nodes node
  match n.child bit with
  | none => do
    let nextIdx := nodes.length
    failIf (nextIdx > 32767) (.invalidData 0 "invalid huffman tree size. Fix: use a valid gzip stream")
    pure ((nodes ++ [HuffmanNode.empty]).set node (n.setChild bit nextIdx), nextIdx)
  | some next => pure (nodes, next)

def insert (nodes : List HuffmanNode) (code bits symbol : Nat) : Run ZiftError (List HuffmanNode) := do
  let (nodes, node) ← (List.range bits).foldlM (insertBit code) (nodes, 0)
  let n ← index nodes node
  failIf (n.symbol ≠ none) (.invalidData 0 "duplicate huffman code. Fix: use a valid gzip stream")
  failIf (symbol > 32767) (.invalidData 0 "huffman symbol out of range. Fix: use a valid gzip stream")
  setAt nodes node { n with symbol := some symbol }

def reverseLoop : Nat → Nat → Nat → Nat
  | 0, _, out => out
  | n + 1, value, out => reverseLoop n (value >>> 1) ((out <<< 1) % 2 ^ 16 ||| value &&& 1)

def reverseBits (value len : Nat) : Nat := reverseLoop len value 0

def countLength (kind : String) (count : List Nat) (len : Nat) : Run ZiftError (List Nat) :=
  if len > 0 then do
    failIf (len ≥ count.length) (.invalidData 0 s!"invalid {kind} code length. Fix: use a valid gzip stream")
    let c ← index count len
    let c ← addU16 c 1
    setAt count len c
  else pure count

def nextCodeTurn (count : List Nat) (s : Nat × List Nat) (bits : Nat) : Run ZiftError (Nat × List Nat) := do
  let (code, nextCode) := s
  let c ← index count (bits - 1)
  let sum ← addU16 code c
  let code := (sum <<< 1) % 2 ^ 16
  let nextCode ← setAt nextCode bits code
  pure (code, nextCode)

def calculateNextCodes (max : Nat) (count : List Nat) : Run ZiftError (List Nat) := do
  let (_, nextCode) ← (List.range' 1 max).foldlM (nextCodeTurn count) (0, List.replicate (max + 1) 0)
  pure nextCode

def populateTurn (max : Nat) (s : List HuffmanNode × List Nat) (entry : Nat × Nat) :
    Run ZiftError (List HuffmanNode × List Nat) := do
  let (nodes, nextCode) := s
  let (len, symbol) := entry
  if len = 0 ∨ len > max then
    pure (nodes, nextCode)
  else do
    let code ← index nextCode len
    let nextCode ← setAt nextCode len ((code + 1) % 2 ^ 16)
    failIf (symbol > 65535) (.invalidData 0 "huffman symbol does not fit in u16. Fix: use a valid gzip stream")
    let nodes ← insert nodes (reverseBits code len) len symbol
    pure (nodes, nextCode)

def populateNodes (nodes : List HuffmanNode) (lengths nextCode : List Nat) (max : Nat) :
    Run ZiftError (List HuffmanNode) := do
  let (nodes, _) ← lengths.zipIdx.foldlM (populateTurn max) (nodes, nextCode)
  pure nodes

def HuffmanDecoder.fromLengths (lengths : List Nat) (kind : String) : Run ZiftError HuffmanDecoder :=
  let nodes := [HuffmanNode.empty]
  let max := lengths.foldl Nat.max 0
  if max > deflateMaxBits then
    fail (.invalidData 0 s!"invalid {kind} code length {max} > 15. Fix: use a valid gzip stream")
  else if max = 0 then
    pure ⟨nodes, 0⟩
  else do
    let count ← lengths.foldlM (countLength kind) (List.replicate (max + 1) 0)
    let nextCode ← calculateNextCodes max count
    let nodes ← populateNodes nodes lengths nextCode max
    pure ⟨nodes, max⟩

def decodeLoop (nodes : List HuffmanNode) : Nat → Nat → Read Nat
  | 0, _ => failHere "huffman decode exceeded max symbol length. Fix: use a valid gzip stream"
  | k + 1, node => do
    let bit ← readBit
    let n ← lift (index nodes node)
    match n.child (bit = 1) with
    | none => failHere "invalid huffman code. Fix: use a valid gzip stream"
    | some next => do
      let m ← lift (index nodes next)
      match m.symbol with
      | some symbol => pure symbol
      | none => decodeLoop nodes k next

def HuffmanDecoder.decode (d : HuffmanDecoder) : Read Nat :=
  if d.maxBits = 0 then failHere "huffman decoder is empty. Fix: use a valid gzip stream"
  else decodeLoop d.nodes d.maxBits 0

end Ziftsieve.Gzip
