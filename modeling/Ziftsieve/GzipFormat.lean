import Ziftsieve.CanonicalSound
import Ziftsieve.Gzip
import Ziftsieve.Lz77

/-!
# The gzip format

What a member is, with its encoding: a header with its optional fields, a
DEFLATE stream of stored blocks and blocks under the fixed Huffman codes, and a
trailer. A stream is bits, and what stands in the bits up to a byte boundary is
arbitrary.
-/

namespace Ziftsieve.Gzip

/-! ## Tokens -/

/-- An entry of a table of ranges, and the extra bits that pick a value of its range. -/
structure Ranged (extraBits : List Nat) where
  idx : Nat
  extra : Nat
  idx_lt : idx < extraBits.length
  extra_lt : extra < 2 ^ extraBits[idx]

namespace Ranged
variable {extraBits : List Nat}

def value (bases : List Nat) (x : Ranged extraBits) : Nat := bases.getD x.idx 0 + x.extra

def bits (x : Ranged extraBits) : List Bool := bitsLe (extraBits.getD x.idx 0) x.extra

end Ranged

inductive Token where
  | literal (b : UInt8)
  | pair (length : Ranged literalLengthExtraBits) (distance : Ranged distanceExtraBits)

namespace Token

def literals : Token → Bytes
  | literal b => [b]
  | pair _ _ => []

def isMatch : Token → Bool
  | literal _ => false
  | pair _ _ => true

def write (out : Bytes) : Token → Bytes
  | literal b => out ++ [b]
  | pair length distance => Lz77.copyBack (distance.value distanceBases) (length.value literalLengthBases) out

def bits (lit dist : Nat → List Bool) : Token → List Bool
  | literal b => lit b.toNat
  | pair length distance => lit (257 + length.idx) ++ (length.bits ++ (dist distance.idx ++ distance.bits))

end Token

/-! ## Fixed codes -/

def fixedLitlen (s : Nat) : List Bool :=
  if s < 144 then (bitsLe 8 (48 + s)).reverse
  else if s < 256 then (bitsLe 9 (400 + (s - 144))).reverse
  else if s < 280 then (bitsLe 7 (s - 256)).reverse
  else (bitsLe 8 (192 + (s - 280))).reverse

def fixedDist (s : Nat) : List Bool := (bitsLe 5 s).reverse

/-! ## Blocks -/

inductive DeflateBlock where
  | stored (pad : Nat) (data : Bytes) (length_lt : data.length < 2 ^ 16)
  | fixed (tokens : List Token)

namespace DeflateBlock

def literals : DeflateBlock → Bytes
  | stored _ data _ => data
  | fixed tokens => tokens.flatMap Token.literals

def hasMatch : DeflateBlock → Bool
  | stored _ _ _ => false
  | fixed tokens => tokens.any Token.isMatch

def write (out : Bytes) : DeflateBlock → Bytes
  | stored _ data _ => out ++ data
  | fixed tokens => tokens.foldl Token.write out

def tokenCount : DeflateBlock → Nat
  | stored _ _ _ => 0
  | fixed tokens => tokens.length

def typeBits : DeflateBlock → List Bool
  | stored _ _ _ => [false, false]
  | fixed _ => [true, false]

/-- What follows the header, at bit `p`: a stored block's data starts on a byte. -/
def body (p : Nat) : DeflateBlock → List Bool
  | stored pad data _ => bitsLe (padTo8 p) pad ++
      (bitsLe 16 data.length ++ (bitsLe 16 (2 ^ 16 - 1 - data.length) ++ bytesBits data))
  | fixed tokens => tokens.flatMap (Token.bits fixedLitlen fixedDist) ++ fixedLitlen 256

def bits (p : Nat) (final : Bool) (b : DeflateBlock) : List Bool := final :: (b.typeBits ++ b.body (p + 3))

end DeflateBlock

def streamBits : Nat → List DeflateBlock → List Bool
  | _, [] => []
  | p, b :: bs => b.bits p bs.isEmpty ++ streamBits (p + (b.bits p bs.isEmpty).length) bs

/-! ## Members -/

structure Header where
  text : Bool
  mtime : UInt32
  extraFlags : UInt8
  os : UInt8
  extra : Option Bytes
  name : Option Bytes
  comment : Option Bytes
  headerCrc : Option UInt16
  extra_lt : ∀ e ∈ extra, e.length < 2 ^ 16
  name_le : ∀ s ∈ name, s.length ≤ maxHeaderFieldLen ∧ 0 ∉ s
  comment_le : ∀ s ∈ comment, s.length ≤ maxHeaderFieldLen ∧ 0 ∉ s

namespace Header

def flags (h : Header) : Nat :=
  h.text.toNat + 2 * h.headerCrc.isSome.toNat + 4 * h.extra.isSome.toNat + 8 * h.name.isSome.toNat +
    16 * h.comment.isSome.toNat

def extraBytes (h : Header) : Bytes := h.extra.elim [] fun e => toLe 2 e.length ++ e

def textBytes (s : Option Bytes) : Bytes := s.elim [] fun s => s ++ [0]

def crcBytes (h : Header) : Bytes := h.headerCrc.elim [] fun c => toLe 2 c.toNat

def bytes (h : Header) : Bytes :=
  0x1f :: 0x8b :: 8 :: UInt8.ofNat h.flags :: (toLe 4 h.mtime.toNat ++
    (h.extraFlags :: h.os :: (h.extraBytes ++ (textBytes h.name ++ (textBytes h.comment ++ h.crcBytes)))))

end Header

structure Member where
  header : Header
  blocks : List DeflateBlock
  pad : Nat
  crc : UInt32
  isize : UInt32
  blocks_ne : blocks ≠ []

namespace Member

def hasMatch (m : Member) : Bool := m.blocks.any DeflateBlock.hasMatch

def decompress (m : Member) : Bytes := m.blocks.foldl DeflateBlock.write []

def stream (m : Member) : List Bool := streamBits 0 m.blocks

def bits (m : Member) : List Bool :=
  bytesBits m.header.bytes ++ (m.stream ++ (bitsLe (padTo8 m.stream.length) m.pad ++
    (bitsLe 32 m.crc.toNat ++ bitsLe 32 m.isize.toNat)))

def encode (m : Member) : Bytes := pack m.bits

end Member

def encodeMembers (ms : List Member) : Bytes := ms.flatMap Member.encode

def blockLiterals (ms : List Member) : List Bytes := (ms.flatMap (·.blocks)).map DeflateBlock.literals

/-! ## Lengths and output -/

theorem padTo8_bytes (i p : Nat) : padTo8 (8 * i + p) = padTo8 p := by
  unfold padTo8; omega

theorem DeflateBlock.bits_bytes (i p : Nat) (final : Bool) (b : DeflateBlock) :
    b.bits (8 * i + p) final = b.bits p final := by
  cases b with
  | stored pad data h => rw [bits, bits, body, body, Nat.add_assoc, padTo8_bytes]
  | fixed tokens => rfl

theorem streamBits_bytes (i : Nat) : ∀ (p : Nat) (bs : List DeflateBlock), streamBits (8 * i + p) bs = streamBits p bs
  | _, [] => rfl
  | p, b :: bs => by rw [streamBits, streamBits, DeflateBlock.bits_bytes, Nat.add_assoc, streamBits_bytes]

theorem Member.bytesBits_encode (m : Member) : bytesBits m.encode = m.bits := by
  have hpad := padTo8_add m.stream.length
  apply bytesBits_pack (m.bits.length / 8) m.bits
  have hlen : m.bits.length = 8 * m.header.bytes.length + (m.stream.length + padTo8 m.stream.length + 64) := by
    simp only [bits, List.length_append, length_bytesBits, length_bitsLe]; omega
  omega

theorem Member.length_bits (m : Member) : m.bits.length = 8 * m.encode.length := by
  rw [← bytesBits_encode, length_bytesBits]

theorem bytesBits_encodeMembers : ∀ ms : List Member, bytesBits (encodeMembers ms) = ms.flatMap Member.bits
  | [] => rfl
  | m :: ms => by
    have ih := bytesBits_encodeMembers ms
    unfold encodeMembers at ih ⊢
    rw [List.flatMap_cons, List.flatMap_cons, bytesBits_append, m.bytesBits_encode, ih]

theorem tokens_write {ts : List Token} {out : Bytes} (h : ts.any Token.isMatch = false) :
    ts.foldl Token.write out = out ++ ts.flatMap Token.literals := by
  induction ts generalizing out with
  | nil => simp
  | cons t ts ih =>
    rw [List.any_cons, Bool.or_eq_false_iff] at h
    cases t with
    | literal b => rw [List.foldl_cons, ih h.2, List.flatMap_cons, Token.write, Token.literals, List.append_assoc]
    | pair l d => exact absurd h.1 (by simp [Token.isMatch])

theorem blocks_write {bs : List DeflateBlock} {out : Bytes} (h : bs.any DeflateBlock.hasMatch = false) :
    bs.foldl DeflateBlock.write out = out ++ bs.flatMap DeflateBlock.literals := by
  induction bs generalizing out with
  | nil => simp
  | cons b bs ih =>
    rw [List.any_cons, Bool.or_eq_false_iff] at h
    rw [List.foldl_cons, ih h.2, List.flatMap_cons, ← List.append_assoc]
    cases b with
    | stored pad data hl => rfl
    | fixed ts => rw [DeflateBlock.write, tokens_write h.1, DeflateBlock.literals]

theorem Member.decompress_of_no_match {m : Member} (h : m.hasMatch = false) :
    m.decompress = m.blocks.flatMap DeflateBlock.literals := by
  unfold decompress
  rw [blocks_write h, List.nil_append]

/-! ## The fixed codes are canonical -/

theorem kraft_fixedLitlen : Kraft 15 fixedLitlenCodeLengths where
  le := by
    intro l hl
    simp only [fixedLitlenCodeLengths, List.mem_append, List.mem_replicate] at hl
    omega
  sum_le := by
    simp only [fixedLitlenCodeLengths, kraftUpTo_append, kraftUpTo_replicate]
    decide

theorem kraft_fixedDist : Kraft 15 fixedDistCodeLengths where
  le := by
    intro l hl
    rw [(List.mem_replicate.mp hl).2]
    decide
  sum_le := by
    rw [fixedDistCodeLengths, kraftUpTo_replicate]
    decide

theorem count_fixedLitlen (l : Nat) : fixedLitlenCodeLengths.count l =
    (if 8 = l then 144 else 0) + (if 9 = l then 112 else 0) + (if 7 = l then 24 else 0) + (if 8 = l then 8 else 0) := by
  simp only [fixedLitlenCodeLengths, List.count_append, List.count_replicate, beq_iff_eq]

theorem firstCode_fixedLitlen : firstCode fixedLitlenCodeLengths 7 = 0 ∧ firstCode fixedLitlenCodeLengths 8 = 48 ∧
    firstCode fixedLitlenCodeLengths 9 = 400 := by
  simp only [firstCode, count_fixedLitlen]
  decide

theorem codeBits_fixedLitlen {s : Nat} (h : s < 288) : codeBits fixedLitlenCodeLengths s = fixedLitlen s := by
  obtain ⟨h7, h8, h9⟩ := firstCode_fixedLitlen
  have e0 : fixedLitlenCodeLengths = [] ++ (List.replicate 144 8 ++ (List.replicate 112 9 ++
      (List.replicate 24 7 ++ List.replicate 8 8))) := by
    simp only [fixedLitlenCodeLengths, List.append_assoc, List.nil_append]
  have e1 : fixedLitlenCodeLengths = List.replicate 144 8 ++ (List.replicate 112 9 ++
      (List.replicate 24 7 ++ List.replicate 8 8)) := e0
  have e2 : fixedLitlenCodeLengths = (List.replicate 144 8 ++ List.replicate 112 9) ++
      (List.replicate 24 7 ++ List.replicate 8 8) := by rw [e1, List.append_assoc]
  have e3 : fixedLitlenCodeLengths = (List.replicate 144 8 ++ List.replicate 112 9 ++ List.replicate 24 7) ++
      (List.replicate 8 8 ++ []) := by rw [List.append_nil]; rfl
  have l2 : (List.replicate 144 8 ++ List.replicate 112 9).length = 256 := by
    rw [List.length_append, List.length_replicate, List.length_replicate]
  have l3 : (List.replicate 144 8 ++ List.replicate 112 9 ++ List.replicate 24 7).length = 280 := by
    rw [List.length_append, l2, List.length_replicate]
  unfold fixedLitlen
  by_cases c1 : s < 144
  · rw [if_pos c1, codeBits_run e0 (Nat.zero_le _) (by simpa using c1), h8]
    simp
  by_cases c2 : s < 256
  · rw [if_neg c1, if_pos c2, codeBits_run e1 (by simp; omega) (by simp; omega), h9]
    simp
  by_cases c3 : s < 280
  · rw [if_neg c1, if_neg c2, if_pos c3, codeBits_run e2 (by omega) (by omega), h7, l2]
    simp only [List.count_append, List.count_replicate]
    simp
  · rw [if_neg c1, if_neg c2, if_neg c3, codeBits_run e3 (by omega) (by omega), h8, l3, ← Nat.add_assoc]
    simp only [List.count_append, List.count_replicate]
    simp

theorem codeBits_fixedDist {s : Nat} (h : s < 32) : codeBits fixedDistCodeLengths s = fixedDist s := by
  have e : fixedDistCodeLengths = [] ++ (List.replicate 32 5 ++ []) := by rw [List.append_nil]; rfl
  have h5 : firstCode fixedDistCodeLengths 5 = 0 := by decide
  rw [codeBits_run e (Nat.zero_le _) (by simpa using h), h5]
  simp [fixedDist]

end Ziftsieve.Gzip
