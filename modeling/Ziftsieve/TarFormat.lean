import Ziftsieve.Tarball

/-!
# Tar archives

What an archive is, apart from the walk: where its members are, what the fields of
their headers say, and which of them are archives themselves.
-/

namespace Ziftsieve.Tarball

/-! ## Headers -/

/-- The header at a position, unless the archive ends there. -/
def headerAt (tarData : Bytes) (pos : Nat) : Option Bytes :=
  let header := (tarData.drop pos).take tarBlockSize
  if pos + tarBlockSize ≤ tarData.length ∧ ¬ isEndOfArchiveBlock header then some header else none

def memberSize (header : Bytes) : Option Nat := (parseTarOctalUsize ((header.drop 124).take 12) 0).toOption

def typeflag (header : Bytes) : UInt8 := header.getD 156 0

def isLink (header : Bytes) : Bool := isSymlink (typeflag header) || isHardlink (typeflag header)

/-- A field of text ends at its first zero byte, if it has one. -/
def textField (header : Bytes) (i j : Nat) : Bytes := ((header.drop i).take (j - i)).takeWhile (· ≠ 0)

def nameField (header : Bytes) : Bytes := textField header 0 100

def prefixField (header : Bytes) : Bytes := textField header 345 500

def hasUstarMagic (header : Bytes) : Bool := (header.drop 257).take 5 = ustarMagic

def separator : UInt8 := 0x2f

/-- `..` -/
def parentDir : Bytes := [0x2e, 0x2e]

def ustarPath (header : Bytes) : Bytes :=
  if hasUstarMagic header ∧ prefixField header ≠ [] then prefixField header ++ separator :: nameField header
  else nameField header

/-- Some component of the path is `..`. -/
def Traverses (path : Bytes) : Prop := parentDir ∈ path.splitOn separator

instance (path : Bytes) : Decidable (Traverses path) := inferInstanceAs (Decidable (_ ∈ _))

/-! ## Members -/

/-- The members before the end marker: each begins where the one before it, padded, ends. -/
inductive MemberAt (tarData : Bytes) : Nat → Bytes → Prop
  | first {header : Bytes} : headerAt tarData 0 = some header → MemberAt tarData 0 header
  | next {pos size : Nat} {header header' : Bytes} : MemberAt tarData pos header → memberSize header = some size →
      headerAt tarData (nextMemberOffset pos size) = some header' →
      MemberAt tarData (nextMemberOffset pos size) header'

def contentAt (tarData : Bytes) (pos size : Nat) : Bytes := (tarData.drop (pos + tarBlockSize)).take size

section
variable (multiGzDecoder : Bytes → List Bytes × Option String)

/-- A regular member is an archive if it decompresses to something with a valid first header. -/
def Opens (tarData : Bytes) (pos : Nat) (header tarInner : Bytes) : Prop :=
  isRegularFile (typeflag header) = true ∧ ∃ size, memberSize header = some size ∧
    (contentAt tarData pos size).take 2 = gzipMagic ∧
    decompressGzipMembers multiGzDecoder (contentAt tarData pos size) = .ok tarInner ∧
    firstTarBlockHasUstarMagic tarInner = .ok true

/-- The archives within an archive, and how many levels down. No limit on the levels is meant. -/
inductive Nested (tarData : Bytes) : Nat → Bytes → Prop
  | root : Nested tarData 0 tarData
  | member {depth pos : Nat} {outer header tarInner : Bytes} : Nested tarData depth outer → MemberAt outer pos header →
      Opens multiGzDecoder outer pos header tarInner → Nested tarData (depth + 1) tarInner

end

/-! ## Archiving -/

/-- `k` octal digits, the highest first. -/
def octalDigits : Nat → Nat → Bytes
  | 0, _ => []
  | k + 1, n => octalDigits k (n / 8) ++ [0x30 + UInt8.ofNat (n % 8)]

/-- A member as any tar variant writes it: the bytes of its header that no field below
is about are anything. -/
structure TarMember where
  header : Bytes
  content : Bytes
  length_header : header.length = tarBlockSize
  name_ne_nil : nameField header ≠ []
  name_inside : ¬ Traverses (nameField header)
  no_link : isLink header = false
  /-- The byte that ends the digits. -/
  terminator : UInt8
  terminator_blank : terminator = 0 ∨ terminator = 0x20
  size_field : (header.drop 124).take 12 = octalDigits 11 content.length ++ [terminator]
  not_gzip : ¬ gzipMagic <+: content

def TarMember.padding (m : TarMember) : Nat :=
  (tarBlockSize - m.content.length % tarBlockSize) % tarBlockSize

def TarMember.encode (m : TarMember) : Bytes := m.header ++ m.content ++ List.replicate m.padding 0

/-- The members, the end marker, and whatever follows it. -/
def encodeArchive (ms : List TarMember) (rest : Bytes) : Bytes :=
  ms.flatMap TarMember.encode ++ List.replicate tarBlockSize 0 ++ rest

def totalContent (ms : List TarMember) : Nat := (ms.map (·.content.length)).sum

/-- The block of a regular file whose header is at `offset`. -/
def TarMember.block (m : TarMember) (offset : Nat) : CompressedBlock where
  compressedOffset := offset
  compressedLen := m.content.length
  uncompressedLen := some m.content.length
  literals := m.content

/-- The blocks of the regular files, where the members stand one after the other. -/
def locateFiles : Nat → List TarMember → List CompressedBlock
  | _, [] => []
  | offset, m :: ms =>
    if isRegularFile (typeflag m.header) then m.block offset :: locateFiles (offset + m.encode.length) ms
    else locateFiles (offset + m.encode.length) ms

def padTo (n : Nat) (bytes : Bytes) : Bytes := bytes ++ List.replicate (n - bytes.length) 0

/-- A header with these fields, and zeros in all others. -/
def buildHeader (name size : Bytes) (flag : UInt8) (magic pathPrefix : Bytes) : Bytes :=
  padTo 124 name ++ padTo 32 size ++ padTo 101 [flag] ++ padTo 88 magic ++ padTo 167 pathPrefix

end Ziftsieve.Tarball
