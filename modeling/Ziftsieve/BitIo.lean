import Ziftsieve.Block

/-!
# The Zstd bit readers

`zstd/bit_io.rs`. The functions of the entropy decoders return an `Option`, so
their error is `Unit`; machine arithmetic that the source leaves unchecked
panics where it leaves its type's range, and so do its debug assertions.
-/

namespace Ziftsieve.Zstd

/-- A function of the source that returns an `Option`, or panics. -/
abbrev Opt (α : Type) := Run Unit α

def addU (w a b : Nat) : Opt Nat := if a + b < 2 ^ w then .ok (a + b) else panic

def subU (a b : Nat) : Opt Nat := if b ≤ a then .ok (a - b) else panic

def mulU (w a b : Nat) : Opt Nat := if a * b < 2 ^ w then .ok (a * b) else panic

def shlU (w a n : Nat) : Opt Nat := if n < w then .ok ((a <<< n) % 2 ^ w) else panic

def shrU (w a n : Nat) : Opt Nat := if n < w then .ok (a >>> n) else panic

/-! ## The forward reader -/

structure BitReader where
  idx : Nat
  source : Bytes

namespace BitReader

def new (source : Bytes) : BitReader := ⟨0, source⟩

def bitsLeft (r : BitReader) : Opt Nat := do
  let bits ← mulU 64 r.source.length 8
  subU bits r.idx

def bitsRead (r : BitReader) : Nat := r.idx

def returnBits (r : BitReader) (n : Nat) : Opt BitReader := do
  let idx ← subU r.idx n
  pure { r with idx := idx }

def fullByte (source : Bytes) (s : Nat × Nat × Nat) : Opt (Nat × Nat × Nat) := do
  let (value, idx, bitShift) := s
  let b ← index source (idx / 8)
  let shifted ← shlU 64 b.toNat bitShift
  let idx ← addU 64 idx 8
  let bitShift ← addU 64 bitShift 8
  pure (value ||| shifted, idx, bitShift)

def getBits (r : BitReader) (n : Nat) : Opt (Nat × BitReader) := do
  failIf (n > 64) ()
  let bitsLeft ← r.bitsLeft
  failIf (bitsLeft < n) ()
  let bitsLeftInCurrentByte := 8 - r.idx % 8
  let bitsNotNeededInCurrentByte := 8 - bitsLeftInCurrentByte
  let b ← index r.source (r.idx / 8)
  let value := b.toNat >>> bitsNotNeededInCurrentByte
  if bitsLeftInCurrentByte ≥ n then do
    let one ← shlU 64 1 n
    let mask ← subU one 1
    let idx ← addU 64 r.idx n
    pure (value &&& mask, { r with idx := idx })
  else do
    let idx ← addU 64 r.idx bitsLeftInCurrentByte
    let fullBytesNeeded := (n - bitsLeftInCurrentByte) / 8
    let bitsInLastByteNeeded := n - bitsLeftInCurrentByte - fullBytesNeeded * 8
    let (value, idx, bitShift) ← (List.replicate fullBytesNeeded ()).foldlM (fun s _ => fullByte r.source s)
      (value, idx, bitsLeftInCurrentByte)
    if bitsInLastByteNeeded > 0 then do
      let b ← index r.source (idx / 8)
      let one ← shlU 64 1 bitsInLastByteNeeded
      let mask ← subU one 1
      let shifted ← shlU 64 (b.toNat &&& mask) bitShift
      let idx ← addU 64 idx bitsInLastByteNeeded
      pure (value ||| shifted, { r with idx := idx })
    else
      pure (value, { r with idx := idx })

end BitReader

/-! ## The reversed reader -/

/-- `as isize` -/
def toIsize (n : Nat) : Int := Int.bmod n (2 ^ 64)

def checkedIsize (x : Int) : Opt Int := if -2 ^ 63 ≤ x ∧ x < 2 ^ 63 then .ok x else panic

structure BitReaderReversed where
  index : Nat
  bitsConsumed : Nat
  extraBits : Nat
  source : Bytes
  bitContainer : Nat

namespace BitReaderReversed

/-- `bits_remaining`, an `isize`. -/
def bitsRemainingIsize (r : BitReaderReversed) : Opt Int := do
  let bits ← checkedIsize (toIsize r.index * 8)
  let unread ← checkedIsize (64 - toIsize r.bitsConsumed)
  let left ← checkedIsize (bits + unread)
  checkedIsize (left - toIsize r.extraBits)

/-- The number that `bits_remaining` counts, whatever its size. -/
def bitsRemaining (r : BitReaderReversed) : Int := (r.index : Int) * 8 + (64 - r.bitsConsumed) - r.extraBits

def new (source : Bytes) : BitReaderReversed := ⟨source.length, 64, 0, source, 0⟩

/-- Shift the consumed bits out of the container; the zeros shifted in are extra bits. -/
def shiftOut (r : BitReaderReversed) : Opt BitReaderReversed := do
  let c ← shlU 64 r.bitContainer r.bitsConsumed
  let extraBits ← addU 64 r.extraBits r.bitsConsumed
  pure { r with bitContainer := c, extraBits := extraBits, bitsConsumed := 0 }

def refill (r : BitReaderReversed) : Opt BitReaderReversed := do
  let bytesConsumed := r.bitsConsumed / 8
  if bytesConsumed = 0 then
    pure r
  else do
    let r ←
      (if r.index ≥ bytesConsumed then do
        let i := r.index - bytesConsumed
        let word ← slice r.source i (i + 8)
        pure { r with index := i, bitsConsumed := r.bitsConsumed &&& 7, bitContainer := fromLe word }
      else if r.index > 0 then do
        let word ← (if r.source.length ≥ 8 then slice r.source 0 8
          else pure (r.source ++ List.replicate (8 - r.source.length) 0))
        let bits ← mulU 8 8 (r.index % 2 ^ 8)
        let bitsConsumed ← subU r.bitsConsumed bits
        shiftOut { r with bitContainer := fromLe word, bitsConsumed := bitsConsumed, index := 0 }
      else if r.bitsConsumed < 64 then
        shiftOut r
      else do
        let extraBits ← addU 64 r.extraBits r.bitsConsumed
        pure { r with extraBits := extraBits, bitsConsumed := 0, bitContainer := 0 } : Opt BitReaderReversed)
    -- `debug_assert!(self.bits_consumed < 8)`
    if r.bitsConsumed < 8 then pure r else panic

def peekBits (r : BitReaderReversed) (n : Nat) : Opt Nat :=
  if n = 0 then pure 0
  else do
    let one ← shlU 64 1 n
    let mask ← subU one 1
    let left ← subU 64 r.bitsConsumed
    let shiftBy ← subU left n
    let v ← shrU 64 r.bitContainer shiftBy
    pure (v &&& mask)

def consume (r : BitReaderReversed) (n : Nat) : Opt BitReaderReversed := do
  let bitsConsumed ← addU 8 r.bitsConsumed n
  -- `debug_assert!(self.bits_consumed <= 64)`
  if bitsConsumed ≤ 64 then pure { r with bitsConsumed := bitsConsumed } else panic

def getBits (r : BitReaderReversed) (n : Nat) : Opt (Nat × BitReaderReversed) := do
  let wanted ← addU 8 r.bitsConsumed n
  let r ← (if wanted > 64 then r.refill else pure r)
  let value ← r.peekBits n
  let r ← r.consume n
  pure (value, r)

end BitReaderReversed

end Ziftsieve.Zstd
