import Ziftsieve.WeightCode
import Ziftsieve.Zstd

/-!
# The literals section

A section says its kind, how it gives its size, and the size. Raw literals
follow as they are and a repeated one once; Huffman literals follow as the
weights of their code and one stream or four, each to be read from its end.
-/

namespace Ziftsieve.Zstd

/-! ## Codes and streams -/

/-- The weights two to a byte; a last one alone has any four bits beside it. -/
def nibbles (spare : Nat) : List Nat → Bytes
  | [] => []
  | [w] => [UInt8.ofNat (16 * w + spare)]
  | v :: w :: ws => UInt8.ofNat (16 * v + w) :: nibbles spare ws

/-- A complete code whose weights a section gives directly, but for the last. -/
structure DirectCode where
  explicit : List Nat
  last : Nat
  maxBits : Nat
  spare : Nat
  explicit_le : explicit.length ≤ 128
  last_pos : 0 < last
  maxBits_le : maxBits ≤ 11
  spare_lt : spare < 16
  complete : CompleteWeights maxBits (explicit ++ [last])

namespace DirectCode

def weights (c : DirectCode) : List Nat := c.explicit ++ [c.last]

def tree (c : DirectCode) : Bytes := UInt8.ofNat (127 + c.explicit.length) :: nibbles c.spare c.explicit

def word (c : DirectCode) (b : UInt8) : List Bool := weightCode c.maxBits c.weights b.toNat

def HasWord (c : DirectCode) (b : UInt8) : Prop := 0 < c.weights.getD b.toNat 0

instance (c : DirectCode) (b : UInt8) : Decidable (c.HasWord b) := inferInstanceAs (Decidable (_ < _))

end DirectCode

/-- The bits of a stream from its end: padding, the marker and `w`. -/
def marked (padding : Nat) (w : List Bool) : List Bool := List.replicate padding false ++ true :: w

def encodeStream (word : UInt8 → List Bool) (ys : Bytes) : Bytes :=
  pack (marked (padTo8 (1 + (ys.flatMap word).length)) (ys.flatMap word)).reverse

/-! ## Sections -/

/-- How a raw or a repeated section gives its size: in one byte, in two or in three. -/
inductive SizeFormat where
  | one
  | two
  | three
  deriving Repr, DecidableEq

def SizeFormat.limit : SizeFormat → Nat
  | one => 2 ^ 5
  | two => 2 ^ 12
  | three => 2 ^ 20

def SizeFormat.header (kind size : Nat) : SizeFormat → Bytes
  | one => toLe 1 (kind + 8 * size)
  | two => toLe 2 (kind + 4 * (1 + 4 * size))
  | three => toLe 3 (kind + 4 * (3 + 4 * size))

/-- How a section of four streams gives its two sizes: in 10 bits each, in 14 or in 18. -/
inductive FourFormat where
  | bits10
  | bits14
  | bits18
  deriving Repr, DecidableEq

def FourFormat.limit : FourFormat → Nat
  | bits10 => 2 ^ 10
  | bits14 => 2 ^ 14
  | bits18 => 2 ^ 18

def FourFormat.header (size compressedSize : Nat) : FourFormat → Bytes
  | bits10 => toLe 3 (2 + 4 * (1 + 4 * (size + 2 ^ 10 * compressedSize)))
  | bits14 => toLe 4 (2 + 4 * (2 + 4 * (size + 2 ^ 14 * compressedSize)))
  | bits18 => toLe 5 (2 + 4 * (3 + 4 * (size + 2 ^ 18 * compressedSize)))

inductive LiteralsSection where
  | raw (format : SizeFormat) (ys : Bytes)
  | rle (format : SizeFormat) (byte : UInt8) (count : Nat)
  | single (code : DirectCode) (ys : Bytes)
  | four (format : FourFormat) (code : DirectCode) (ys₁ ys₂ ys₃ ys₄ : Bytes)

/-- Four streams behind the lengths of the first three. -/
def jumpStreams (s₁ s₂ s₃ s₄ : Bytes) : Bytes :=
  toLe 2 s₁.length ++ (toLe 2 s₂.length ++ (toLe 2 s₃.length ++ (s₁ ++ (s₂ ++ (s₃ ++ s₄)))))

namespace LiteralsSection

def literals : LiteralsSection → Bytes
  | raw _ ys => ys
  | rle _ byte count => List.replicate count byte
  | single _ ys => ys
  | four _ _ ys₁ ys₂ ys₃ ys₄ => ys₁ ++ (ys₂ ++ (ys₃ ++ ys₄))

/-- What follows the header. -/
def payload : LiteralsSection → Bytes
  | raw _ ys => ys
  | rle _ byte _ => [byte]
  | single code ys => code.tree ++ encodeStream code.word ys
  | four _ code ys₁ ys₂ ys₃ ys₄ => code.tree ++ jumpStreams (encodeStream code.word ys₁) (encodeStream code.word ys₂)
      (encodeStream code.word ys₃) (encodeStream code.word ys₄)

def header (l : LiteralsSection) : Bytes :=
  match l with
  | raw format ys => format.header 0 ys.length
  | rle format _ count => format.header 1 count
  | single _ ys => toLe 3 (2 + 4 * (0 + 4 * (ys.length + 2 ^ 10 * l.payload.length)))
  | four format _ _ _ _ _ => format.header l.literals.length l.payload.length

def encode (l : LiteralsSection) : Bytes := l.header ++ l.payload

/-- The sizes fit their fields, and Huffman literals are some, in the code, and within a block. -/
def Fits (l : LiteralsSection) : Prop :=
  match l with
  | raw format ys => ys.length < format.limit
  | rle format _ count => count < format.limit
  | single code ys => (∀ b ∈ ys, code.HasWord b) ∧ 1 ≤ ys.length ∧ ys.length < 2 ^ 10 ∧ l.payload.length < 2 ^ 10
  | four format code ys₁ ys₂ ys₃ _ => (∀ b ∈ l.literals, code.HasWord b) ∧ 1 ≤ l.literals.length ∧
      l.literals.length ≤ 131072 ∧ l.payload.length ≤ 131072 ∧
      l.literals.length < format.limit ∧ l.payload.length < format.limit ∧
      (encodeStream code.word ys₁).length < 65536 ∧ (encodeStream code.word ys₂).length < 65536 ∧
      (encodeStream code.word ys₃).length < 65536

end LiteralsSection

end Ziftsieve.Zstd
