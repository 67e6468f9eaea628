import Ziftsieve.Block

/-!
# Gzip-wrapped tar archives

`extract/tarball.rs`. A member's name is compared and reported as the text that
`String::from_utf8_lossy` makes of its bytes. The reads of `flate2`'s
`MultiGzDecoder` are a parameter. A nested archive is walked by the function that
walks the archive around it; the number of such calls is bounded by fuel, so
that the depth limit is a theorem. On a 64-bit target the checked additions of
positions within a slice and of a size of twelve octal digits cannot overflow.
-/

namespace Ziftsieve.Tarball

def maxTarballBytes : Nat := 256 * 1024 * 1024
def tarBlockSize : Nat := 512
def maxTarMembers : Nat := 8192
def maxNestedDepth : Nat := 5
def usizeMax : Nat := 2 ^ 64 - 1

/-! ## Text -/

/-- A character begun: the bytes still to come, the range of the next one, and the value so far. -/
structure Utf8 where
  need : Nat
  lo : UInt8
  hi : UInt8
  code : Nat
  deriving Repr, DecidableEq

def replacementChar : Char := Char.ofNat 0xFFFD

/-- What a leading byte begins; `none` if no character begins so. -/
def beginChar (b : UInt8) : Option Utf8 :=
  if 0xC2 ≤ b ∧ b ≤ 0xDF then some ⟨1, 0x80, 0xBF, b.toNat % 32⟩
  else if b = 0xE0 then some ⟨2, 0xA0, 0xBF, 0⟩
  else if b = 0xED then some ⟨2, 0x80, 0x9F, 13⟩
  else if 0xE1 ≤ b ∧ b ≤ 0xEF then some ⟨2, 0x80, 0xBF, b.toNat % 16⟩
  else if b = 0xF0 then some ⟨3, 0x90, 0xBF, 0⟩
  else if 0xF1 ≤ b ∧ b ≤ 0xF3 then some ⟨3, 0x80, 0xBF, b.toNat % 8⟩
  else if b = 0xF4 then some ⟨3, 0x80, 0x8F, 4⟩
  else none

/-- A byte where a character may begin: what it gives at once, and what it begins. -/
def leadByte (b : UInt8) : List Char × Option Utf8 :=
  if b < 0x80 then ([Char.ofNat b.toNat], none)
  else match beginChar b with
    | some u => ([], some u)
    | none => ([replacementChar], none)

/-- A byte after a character begun; one that cannot continue it ends it, and is read anew. -/
def nextByte (u : Utf8) (b : UInt8) : List Char × Option Utf8 :=
  if u.lo ≤ b ∧ b ≤ u.hi then
    let code := u.code * 64 + b.toNat % 64
    if u.need = 1 then ([Char.ofNat code], none) else ([], some ⟨u.need - 1, 0x80, 0xBF, code⟩)
  else
    let (out, begun) := leadByte b
    (replacementChar :: out, begun)

def lossyFrom : Option Utf8 → Bytes → List Char
  | none, [] => []
  | some _, [] => [replacementChar]
  | none, b :: bs =>
    let (out, begun) := leadByte b
    out ++ lossyFrom begun bs
  | some u, b :: bs =>
    let (out, begun) := nextByte u b
    out ++ lossyFrom begun bs

/-- `String::from_utf8_lossy`: each maximal part of no character is one U+FFFD. -/
def fromUtf8Lossy (bytes : Bytes) : List Char := lossyFrom none bytes

/-! ## Headers -/

structure TarHeader where
  contentOffset : Nat
  contentSize : Nat
  isRegularFile : Bool
  isSymlink : Bool
  isHardlink : Bool
  name : List Char
  deriving Repr, DecidableEq

/-- The digits of an octal field: blanks before the first are skipped, one after it ends the field. -/
def octalFrom (offset : Nat) : Nat → Bool → Bytes → Run ZiftError Nat
  | value, _, [] => pure value
  | value, found, byte :: bytes =>
    if byte = 0 ∨ byte = 0x20 then
      if found then pure value else octalFrom offset value found bytes
    else do
      failIf (¬ (0x30 ≤ byte ∧ byte ≤ 0x37))
        (.invalidData offset "invalid octal digit in tar header. Fix: use a valid tar archive")
      let value := value * 8 + (byte - 0x30).toNat
      failIf (value > usizeMax)
        (.invalidData offset "tar member size overflows usize. Fix: use a smaller tar archive")
      octalFrom offset value true bytes

def parseTarOctalUsize (data : Bytes) (offset : Nat) : Run ZiftError Nat := octalFrom offset 0 false data

def isEndOfArchiveBlock (header : Bytes) : Bool := header.all (· = 0)

def isRegularFile (typeflag : UInt8) : Bool := typeflag = 0x30 ∨ typeflag = 0

def isSymlink (typeflag : UInt8) : Bool := typeflag = 0x32

def isHardlink (typeflag : UInt8) : Bool := typeflag = 0x31

/-- `rest` is what follows a leading `./`, if anything does. -/
def containsPathTraversal (name : List Char) : Bool :=
  if name = ['.', '.'] then true
  else if ['.', '.', '/'] <+: name ∨ ['/', '.', '.'] <:+ name then true
  else if ['/', '.', '.', '/'] <:+: name then true
  else match name with
    | '.' :: '/' :: c :: rest =>
      if c = '.' ∨ '/' ∈ c :: rest then containsPathTraversal (c :: rest) else false
    | _ => false

/-- `& !511` rounds down to a multiple of 512. -/
def nextMemberOffset (offset contentSize : Nat) : Nat :=
  let paddedSize := (contentSize + (tarBlockSize - 1)) / tarBlockSize * tarBlockSize
  offset + tarBlockSize + paddedSize

def readTarMember (content : Bytes) (start offset : Nat) : Run ZiftError TarHeader := do
  let headerEnd := start + tarBlockSize
  failIf (headerEnd > content.length)
    (.invalidData offset "truncated tar member header. Fix: use a complete tar archive")
  let header ← slice content start headerEnd
  failIf (isEndOfArchiveBlock header)
    (.invalidData offset "end of tar archive marker. Fix: use a valid tar archive")
  let sizeField ← slice header 124 136
  let size ← parseTarOctalUsize sizeField (offset + 124)
  let typeflag ← index header 156
  let nameBytes ← slice header 0 100
  let name := fromUtf8Lossy (nameBytes.takeWhile (· ≠ 0))
  failIf (containsPathTraversal name)
    (.invalidData offset s!"tar entry name contains path traversal: {String.ofList name}. Fix: remove '..' sequences from tar entry names")
  let contentEnd := headerEnd + size
  failIf (contentEnd > content.length)
    (.invalidData offset "truncated tar member content. Fix: use a complete tar archive")
  pure ⟨headerEnd, size, isRegularFile typeflag, isSymlink typeflag, isHardlink typeflag, name⟩

/-! ## Decompression -/

/-- The read loop over `MultiGzDecoder`: it stops at an empty read, at an I/O error, or past the limit. -/
def drainReads (offset : Nat) : List Bytes → Option String → Bytes → Run ZiftError Bytes
  | [], none, out => pure out
  | [], some e, _ => fail (.io e)
  | chunk :: reads, failure, out =>
    if chunk.length = 0 then pure out
    else do
      let newLen := out.length + chunk.length
      failIf (newLen > maxTarballBytes)
        (.invalidData offset s!"decompressed tarball size exceeds {maxTarballBytes}-byte limit. Fix: use a smaller tarball or increase MAX_TARBALL_BYTES")
      drainReads offset reads failure (out ++ chunk)

section
variable (multiGzDecoder : Bytes → List Bytes × Option String)

def decompressGzipMembers (data : Bytes) : Run ZiftError Bytes :=
  let (reads, failure) := multiGzDecoder data
  drainReads data.length reads failure []

/-- The checksum field counts as blanks. -/
def headerChecksum (header : Bytes) : Nat :=
  (header.zipIdx.map fun b => if 148 ≤ b.2 ∧ b.2 < 156 then 0x20 else b.1.toNat).sum

def ustarMagic : Bytes := [0x75, 0x73, 0x74, 0x61, 0x72]

def firstTarBlockHasUstarMagic (tarData : Bytes) : Run ZiftError Bool :=
  if tarData.length < tarBlockSize then pure false
  else do
    let header ← slice tarData 0 tarBlockSize
    if isEndOfArchiveBlock header then pure false
    else if (tarData.drop 257).take 5 = ustarMagic then pure true
    else do
      let field ← slice header 148 156
      match parseTarOctalUsize field 0 with
      | .ok stored => pure (headerChecksum header = stored)
      | .error (.err _) => pure false
      | .error e => .error e

/-! ## The walk -/

structure TarWalk where
  pos : Nat
  members : Nat
  blocks : List CompressedBlock
  totalLiterals : Nat

def gzipMagic : Bytes := [0x1f, 0x8b]

/-- `nested` walks an archive one level down. A nested archive is one that decompresses
to something with a valid first header; the source returns whether it was. -/
def addRegularFileBlocks (nested : Bytes → Run ZiftError (List CompressedBlock)) (tarData : Bytes)
    (member : TarHeader) (pos : Nat) (blocks : List CompressedBlock) (totalLiterals : Nat) :
    Run ZiftError (Bool × List CompressedBlock × Nat) := do
  let literals ← slice tarData member.contentOffset (member.contentOffset + member.contentSize)
  let inner ← (if literals ≠ [] ∧ literals.take 2 = gzipMagic then do
      let tarInner ← decompressGzipMembers multiGzDecoder literals
      let isTar ← firstTarBlockHasUstarMagic tarInner
      pure (if isTar then some tarInner else none)
    else pure none)
  match inner with
  | some tarInner => do
    let found ← nested tarInner
    let nestedLiterals := (found.map (·.literals.length)).sum
    let totalLiterals := totalLiterals + nestedLiterals
    failIf (totalLiterals > maxTarballBytes)
      (.invalidData pos s!"extracted tar literals exceed {maxTarballBytes}-byte limit")
    pure (true, blocks ++ found, totalLiterals)
  | none => do
    let literalLen := member.contentSize
    failIf (literalLen > 2 ^ 32 - 1)
      (.invalidData pos "tar member size exceeds 4GiB limit. Fix: use smaller tar members")
    let block : CompressedBlock :=
      { CompressedBlock.new pos literalLen with literals := literals, uncompressedLen := some literalLen }
    let totalLiterals := totalLiterals + literalLen
    failIf (totalLiterals > maxTarballBytes)
      (.invalidData pos s!"extracted tar literals exceed {maxTarballBytes}-byte limit. Fix: use a smaller tarball or increase MAX_TARBALL_BYTES")
    pure (false, blocks ++ [block], totalLiterals)

/-- One member. Whether it was a nested archive makes no difference to what follows. -/
def memberTurn (nested : Bytes → Run ZiftError (List CompressedBlock)) (tarData : Bytes) (s : TarWalk) :
    Run ZiftError (Turn TarWalk (List CompressedBlock)) :=
  if s.pos < tarData.length then do
    let pos := s.pos
    failIf (s.members ≥ maxTarMembers)
      (.invalidData pos s!"tar archive contains too many members (max {maxTarMembers}). Fix: use a smaller tar archive or increase MAX_TAR_MEMBERS")
    failIf (pos + tarBlockSize > tarData.length)
      (.invalidData pos "truncated tar header block. Fix: use a complete tar archive")
    let header ← slice tarData pos (pos + tarBlockSize)
    if isEndOfArchiveBlock header then
      pure (.done s.blocks)
    else do
      let member ← readTarMember tarData pos pos
      failIf member.isSymlink
        (.invalidData pos s!"tar entry '{String.ofList member.name}' is a symbolic link - symlinks are not supported for security. Fix: remove symlinks from the tar archive")
      failIf member.isHardlink
        (.invalidData pos s!"tar entry '{String.ofList member.name}' is a hard link - hardlinks are not supported for security. Fix: remove hard links from the tar archive")
      let (blocks, totalLiterals) ← (if member.isRegularFile then do
          let (_, blocks, totalLiterals) ←
            addRegularFileBlocks multiGzDecoder nested tarData member pos s.blocks s.totalLiterals
          pure (blocks, totalLiterals)
        else pure (s.blocks, s.totalLiterals))
      pure (.next ⟨nextMemberOffset pos member.contentSize, s.members + 1, blocks, totalLiterals⟩)
  else
    pure (.done s.blocks)

/-- `fuel` is how many archives may be walked one inside the other. -/
def scanDecompressedTarGzArchive : Nat → Bytes → Nat → Run ZiftError (List CompressedBlock)
  | 0, _, _ => .error .fuel
  | fuel + 1, tarData, depth => do
    failIf (depth > maxNestedDepth)
      (.invalidData 0 s!"nested archive depth exceeds limit ({maxNestedDepth}). Fix: use a flatter archive structure")
    loop (memberTurn multiGzDecoder (fun tarInner => scanDecompressedTarGzArchive fuel tarInner (depth + 1)) tarData)
      (tarData.length + 1) ⟨0, 0, [], 0⟩

/-- Enough for every depth up to the limit, and for the call that finds it exceeded. -/
def scanFuel : Nat := maxNestedDepth + 2

def scanTarballLiteralsWithDepth (data : Bytes) (depth : Nat) : Run ZiftError (List CompressedBlock) := do
  failIf (depth > maxNestedDepth)
    (.invalidData 0 s!"nested archive depth exceeds limit ({maxNestedDepth}). Fix: use a flatter archive structure")
  failIf (data.length < 2 ∨ data.take 2 ≠ gzipMagic)
    (.invalidData 0 "input is not a gzip stream for tarball scanning. Fix: provide a gzip-compressed tar archive")
  let tarData ← decompressGzipMembers multiGzDecoder data
  if tarData = [] then pure []
  else scanDecompressedTarGzArchive multiGzDecoder scanFuel tarData depth

def scanTarballLiterals (data : Bytes) : Run ZiftError (List CompressedBlock) :=
  scanTarballLiteralsWithDepth multiGzDecoder data 0

end

end Ziftsieve.Tarball
