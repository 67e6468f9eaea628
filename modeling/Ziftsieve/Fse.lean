import Ziftsieve.BitIo

/-!
# FSE tables

`zstd/fse.rs`: the probabilities of a table, its decoding entries, and the
decoder's state.
-/

namespace Ziftsieve.Zstd

def accLogOffset : Nat := 5

def highestBitSet (x : Nat) : Nat := if x = 0 then 0 else Nat.log2 x + 1

namespace Fse

structure Entry where
  baseLine : Nat
  numBits : Nat
  symbol : Nat
  deriving Repr, DecidableEq

def Entry.zero : Entry := ⟨0, 0, 0⟩

structure FSETable where
  maxSymbol : Nat
  decode : List Entry
  accuracyLog : Nat
  symbolProbabilities : List Int

def FSETable.new (maxSymbol : Nat) : FSETable := ⟨maxSymbol, [], 0, []⟩

/-! ## Probabilities -/

structure Probabilities where
  br : BitReader
  probs : List Int
  counter : Nat

/-- Zeros after a zero probability, two bits a turn. -/
def zeroRunTurn (s : BitReader × List Int) : Opt (Turn (BitReader × List Int) (BitReader × List Int)) := do
  let (br, probs) := s
  let (skipAmount, br) ← br.getBits 2
  let probs := probs ++ List.replicate skipAmount 0
  pure (if skipAmount ≠ 3 then .done (br, probs) else .next (br, probs))

def readValue (br : BitReader) (maxRemainingValue : Nat) : Opt (Nat × BitReader) := do
  let bitsToRead := highestBitSet maxRemainingValue
  let (uncheckedValue, br) ← br.getBits bitsToRead
  let uncheckedValue := uncheckedValue % 2 ^ 32
  let full ← shlU 32 1 bitsToRead
  let full ← subU full 1
  let lowThreshold ← subU full maxRemainingValue
  let half ← subU bitsToRead 1
  let half ← shlU 32 1 half
  let mask ← subU half 1
  let smallValue := uncheckedValue &&& mask
  if smallValue < lowThreshold then do
    let br ← br.returnBits 1
    pure (smallValue, br)
  else if uncheckedValue > mask then do
    let value ← subU uncheckedValue lowThreshold
    pure (value, br)
  else
    pure (uncheckedValue, br)

def probabilityTurn (fuel probabilitySum : Nat) (s : Probabilities) : Opt (Turn Probabilities Probabilities) :=
  if s.counter < probabilitySum then do
    let rest ← subU probabilitySum s.counter
    let maxRemainingValue ← addU 32 rest 1
    let (value, br) ← readValue s.br maxRemainingValue
    let prob : Int := (value : Int) - 1
    let probs := s.probs ++ [prob]
    if prob ≠ 0 then
      if prob > 0 then do
        let counter ← addU 32 s.counter prob.toNat
        pure (.next ⟨br, probs, counter⟩)
      else if prob = -1 then do
        let counter ← addU 32 s.counter 1
        pure (.next ⟨br, probs, counter⟩)
      else
        fail ()
    else do
      let (br, probs) ← loop zeroRunTurn fuel (br, probs)
      pure (.next ⟨br, probs, s.counter⟩)
  else
    pure (.done s)

/-- The accuracy log, the probabilities and the bytes read. Each turn of either
loop reads a bit or more, so the source's bit count bounds both. -/
def readProbabilities (maxSymbol : Nat) (source : Bytes) (maxLog : Nat) : Opt (Nat × List Int × Nat) := do
  let fuel := source.length * 8 + 1
  let (v, br) ← (BitReader.new source).getBits 4
  let accuracyLog ← addU 8 accLogOffset (v % 2 ^ 8)
  failIf (accuracyLog > maxLog) ()
  failIf (accuracyLog = 0) ()
  let probabilitySum ← shlU 32 1 accuracyLog
  let s ← loop (probabilityTurn fuel probabilitySum) fuel ⟨br, [], 0⟩
  failIf (s.counter ≠ probabilitySum) ()
  failIf (s.probs.length > maxSymbol + 1) ()
  let bytesRead := if s.br.bitsRead % 8 = 0 then s.br.bitsRead / 8 else s.br.bitsRead / 8 + 1
  pure (accuracyLog, s.probs, bytesRead)

/-! ## The decoding table -/

def nextPosition (p tableSize : Nat) : Opt Nat := do
  let step ← addU 64 (tableSize >>> 1) (tableSize >>> 3)
  let step ← addU 64 step 3
  let p ← addU 64 p step
  let mask ← subU tableSize 1
  pure (p &&& mask)

def calcBaselineAndNumbits (numStatesTotal numStatesSymbol stateNumber : Nat) : Opt (Nat × Nat) :=
  if numStatesSymbol = 0 then pure (0, 0)
  else do
    let low ← subU (highestBitSet numStatesSymbol) 1
    let floor ← shlU 32 1 low
    let numStateSlices ← (if floor = numStatesSymbol then pure numStatesSymbol
      else shlU 32 1 (highestBitSet numStatesSymbol))
    let numDouble ← subU numStateSlices numStatesSymbol
    let numSingle ← subU numStatesSymbol numDouble
    let sliceWidth ← (if numStateSlices = 0 then panic else pure (numStatesTotal / numStateSlices))
    let numBits ← subU (highestBitSet sliceWidth) 1
    if stateNumber < numDouble then do
      let a ← mulU 32 numSingle sliceWidth
      let b ← mulU 32 stateNumber sliceWidth
      let b ← mulU 32 b 2
      let baseline ← addU 32 a b
      let nb ← addU 8 (numBits % 2 ^ 8) 1
      pure (baseline, nb)
    else do
      let indexShifted ← subU stateNumber numDouble
      let baseline ← mulU 32 indexShifted sliceWidth
      pure (baseline, numBits % 2 ^ 8)

def negativeTurn (accuracyLog : Nat) (s : List Entry × Nat) (p : Int × Nat) : Opt (List Entry × Nat) := do
  let (decode, negativeIdx) := s
  let (prob, symbol) := p
  if prob = -1 then do
    let negativeIdx ← subU negativeIdx 1
    let decode ← setAt decode negativeIdx ⟨0, accuracyLog, symbol % 2 ^ 8⟩
    pure (decode, negativeIdx)
  else
    pure (decode, negativeIdx)

def skipTurn (tableSize negativeIdx position : Nat) : Opt (Turn Nat Nat) :=
  if position ≥ negativeIdx then do
    let position ← nextPosition position tableSize
    pure (.next position)
  else
    pure (.done position)

def spreadOne (tableSize negativeIdx symbol : Nat) (s : List Entry × Nat) : Opt (List Entry × Nat) := do
  let (decode, position) := s
  let entry ← index decode position
  let decode ← setAt decode position { entry with symbol := symbol }
  let position ← nextPosition position tableSize
  let position ← loop (skipTurn tableSize negativeIdx) (tableSize + 1) position
  pure (decode, position)

def spreadTurn (tableSize negativeIdx : Nat) (s : List Entry × Nat) (p : Int × Nat) : Opt (List Entry × Nat) :=
  let (prob, idx) := p
  if prob ≤ 0 then pure s
  else (List.replicate prob.toNat ()).foldlM (fun s _ => spreadOne tableSize negativeIdx (idx % 2 ^ 8) s) s

def numberTurn (tableSize accuracyLog : Nat) (probs : List Int) (s : List Entry × List Nat) (idx : Nat) :
    Opt (List Entry × List Nat) := do
  let (decode, symbolCounter) := s
  let entry ← index decode idx
  let prob ← index probs entry.symbol
  let symbolCount ← index symbolCounter entry.symbol
  let (bl, nb) ← calcBaselineAndNumbits (tableSize % 2 ^ 32) (prob % 2 ^ 32).toNat symbolCount
  failIf (nb > accuracyLog) ()
  let count ← addU 32 symbolCount 1
  let symbolCounter ← setAt symbolCounter entry.symbol count
  let decode ← setAt decode idx { entry with baseLine := bl, numBits := nb }
  pure (decode, symbolCounter)

def buildDecodingTable (maxSymbol accuracyLog : Nat) (probs : List Int) : Opt (List Entry) := do
  failIf (probs.length > maxSymbol + 1) ()
  let tableSize ← shlU 64 1 accuracyLog
  let decode := List.replicate tableSize Entry.zero
  let (decode, negativeIdx) ← probs.zipIdx.foldlM (negativeTurn accuracyLog) (decode, tableSize)
  let (decode, _) ← probs.zipIdx.foldlM (spreadTurn tableSize negativeIdx) (decode, 0)
  let (decode, _) ← (List.range negativeIdx).foldlM (numberTurn tableSize accuracyLog probs)
    (decode, List.replicate probs.length 0)
  pure decode

def FSETable.buildDecoder (t : FSETable) (source : Bytes) (maxLog : Nat) : Opt (FSETable × Nat) := do
  let (accuracyLog, probs, bytesRead) ← readProbabilities t.maxSymbol source maxLog
  let decode ← buildDecodingTable t.maxSymbol accuracyLog probs
  pure ({ t with accuracyLog := accuracyLog, symbolProbabilities := probs, decode := decode }, bytesRead)

/-! ## The decoder -/

structure FSEDecoder where
  state : Entry
  table : FSETable

def FSEDecoder.new (table : FSETable) : FSEDecoder := ⟨table.decode.headD Entry.zero, table⟩

def FSEDecoder.initState (d : FSEDecoder) (bits : BitReaderReversed) : Opt (FSEDecoder × BitReaderReversed) := do
  failIf (d.table.accuracyLog = 0) ()
  let (newState, bits) ← bits.getBits d.table.accuracyLog
  let state ← index d.table.decode newState
  pure ({ d with state := state }, bits)

def FSEDecoder.updateState (d : FSEDecoder) (bits : BitReaderReversed) : Opt (FSEDecoder × BitReaderReversed) := do
  let (add, bits) ← bits.getBits d.state.numBits
  let newState ← addU 32 d.state.baseLine (add % 2 ^ 32)
  let state ← index d.table.decode newState
  pure ({ d with state := state }, bits)

def FSEDecoder.decodeSymbol (d : FSEDecoder) : Nat := d.state.symbol

end Fse

end Ziftsieve.Zstd
