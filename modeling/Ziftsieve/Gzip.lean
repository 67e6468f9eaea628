import Ziftsieve.Deflate

/-!
# Gzip members

`gzip/header.rs` and `gzip/mod.rs`. Checking a member with a match is left to
`flate2`'s decoder, whose reads are a parameter.
-/

namespace Ziftsieve.Gzip

def gzipMagic : Nat × Nat := (0x1f, 0x8b)
def maxHeaderFieldLen : Nat := 1024

/-! ## The header -/

def skipTurn (count : Nat) : Read (Turn Nat Unit) :=
  if count > maxHeaderFieldLen then
    failHere s!"header field exceeds maximum length ({maxHeaderFieldLen} bytes)"
  else do
    let value ← readU8
    pure (if value = 0 then .done () else .next (count + 1))

def skipZeroTerminated : Read Unit := loop skipTurn (maxHeaderFieldLen + 2) 0

def parseGzipExtraFields (flags : Nat) : Read Unit := do
  (if flags &&& 0x04 ≠ 0 then do
    let xlen ← readU16Le
    skipBytes xlen
  else pure ())
  (if flags &&& 0x08 ≠ 0 then skipZeroTerminated else pure ())
  (if flags &&& 0x10 ≠ 0 then skipZeroTerminated else pure ())
  (if flags &&& 0x02 ≠ 0 then skipBytes 2 else pure ())

def expectMagic (magic : Nat) : Read Unit := do
  let b ← peekU8
  if b ≠ magic then failHere "invalid gzip magic number. Fix: use a valid gzip stream"
  else do
    let _ ← readU8
    pure ()

def failBefore {α : Type} (reason : String) : Read α :=
  withReader fun r => fail (.invalidData (r.bytePos - 1) reason)

def parseGzipHeader : Read Unit := withReader fun r =>
  if r.bitPos ≠ 0 then failHere "gzip header must start on byte boundary. Fix: use a valid gzip stream"
  else if r.remainingBytes < 10 then failHere "truncated gzip header. Fix: use a complete gzip stream"
  else do
    expectMagic gzipMagic.1
    expectMagic gzipMagic.2
    let compressionMethod ← readU8
    if compressionMethod ≠ 8 then
      failBefore "unsupported gzip compression method (expected DEFLATE). Fix: use DEFLATE-compressed gzip data"
    else do
      let flags ← readU8
      if flags &&& 0xE0 ≠ 0 then failBefore "invalid gzip flag bits. Fix: use a valid gzip stream"
      else do
        skipBytes 4
        let _ ← readU8
        let _ ← readU8
        parseGzipExtraFields flags

/-! ## Members -/

/-- `{n:08x}`. -/
def hex08 (n : Nat) : String := String.ofList ((Nat.toDigits 16 n).leftpad 8 '0')

/-- The read loop over `GzDecoder`: it stops at an empty read, at an I/O error, or past the limit. -/
def drainDecoder : List Bytes → Option String → Nat → Run ZiftError Unit
  | [], none, _ => pure ()
  | [], some e, _ => fail (.io e)
  | chunk :: reads, failure, decompressed =>
    if chunk.length = 0 then pure ()
    else do
      let decompressed := decompressed + chunk.length
      failIf (decompressed > maxTotalLiterals) (.blockTooLarge decompressed maxTotalLiterals)
      drainDecoder reads failure decompressed

/-- `parse_gzip_member` up to the trailer: where the member starts, its stream, and the CRC the trailer gives. -/
def readMember (blocks : List CompressedBlock) (totalLiterals : Nat) : Read (Nat × Stream × Nat) :=
  withReader fun r => do
    let memberStart := r.bytePos
    parseGzipHeader
    let s ← parseDeflateStream blocks totalLiterals
    alignToByte
    let expectedCrc32 ← readU32Le
    let _ ← readU32Le
    pure (memberStart, s, expectedCrc32)

/-- The rest of it, over the blocks from `startIdx` on: decode the member again, or compare the CRC. -/
def checkMember (ext : External) (startIdx memberStart : Nat) (s : Stream) (expectedCrc32 : Nat) : Read Unit :=
  let actualCrc32 := ext.crc32 ((s.blocks.drop startIdx).flatMap (·.literals))
  withReader fun r =>
    if s.hadMatches then do
      let memberData ← lift (slice r.data memberStart r.bytePos)
      let (reads, failure) := ext.gzDecoder memberData
      lift (drainDecoder reads failure 0)
    else
      failIf (expectedCrc32 ≠ actualCrc32)
        (.invalidData r.bytePos s!"CRC32 mismatch for literal stream: expected {hex08 expectedCrc32}, got {hex08 actualCrc32}. Fix: use an uncorrupted gzip stream")

def parseGzipMember (ext : External) (blocks : List CompressedBlock) (totalLiterals : Nat) :
    Read (List CompressedBlock × Nat) := do
  let startIdx := blocks.length
  let (memberStart, s, expectedCrc32) ← readMember blocks totalLiterals
  checkMember ext startIdx memberStart s expectedCrc32
  pure (s.blocks, s.totalLiterals)

structure Members where
  blocks : List CompressedBlock
  totalLiterals : Nat
  members : Nat

def memberTurn (ext : External) (s : Members) : Read (Turn Members (List CompressedBlock)) :=
  withReader fun r =>
    if r.remainingBytes > 0 then do
      let (blocks, totalLiterals) ← parseGzipMember ext s.blocks s.totalLiterals
      let members := s.members + 1
      if members ≥ 1024 then
        failHere "too many gzip members, likely malformed input. Fix: use a valid gzip stream"
      else
        pure (.next ⟨blocks, totalLiterals, members⟩)
    else
      pure (.done s.blocks)

def extractLiterals (ext : External) (data : Bytes) : Run ZiftError (List CompressedBlock) :=
  if data = [] then
    fail (.invalidData 0 "empty gzip input. Fix: provide non-empty compressed data")
  else
    (loop (memberTurn ext) 1025 ⟨[], 0, 0⟩ (BitReader.new data 0)).1

end Ziftsieve.Gzip
