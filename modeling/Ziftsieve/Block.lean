import Ziftsieve.Cursor

/-!
# Blocks, formats and errors

The data every parser shares: `lib.rs` and the first half of `extract/mod.rs`.
Lengths, offsets and positions (`usize`, `u64`) are natural numbers: a slice is
shorter than `isize::MAX`, so none of the sums below reaches a machine bound.
-/

namespace Ziftsieve

inductive CompressionFormat where
  | lz4
  | snappy
  | gzip
  | zstd
  deriving Repr, DecidableEq

inductive ZiftError where
  | invalidData (offset : Nat) (reason : String)
  | blockTooLarge (size max : Nat)
  | io (reason : String)
  deriving Repr, DecidableEq

structure CompressedBlock where
  compressedOffset : Nat
  compressedLen : Nat
  uncompressedLen : Option Nat
  literals : Bytes
  deriving Repr, DecidableEq

def CompressedBlock.new (offset compressedLen : Nat) : CompressedBlock :=
  ⟨offset, compressedLen, none, []⟩

def CompressedBlock.verifyContains (b : CompressedBlock) (pattern : Bytes) : Bool :=
  if pattern = [] then true
  else if pattern.length > b.literals.length then false
  else if pattern.length = 1 then b.literals.contains (pattern.headD 0)
  else (windows pattern.length b.literals).any (· == pattern)

theorem verifyContains_iff (b : CompressedBlock) (p : Bytes) :
    b.verifyContains p = true ↔ p <:+: b.literals := by
  unfold CompressedBlock.verifyContains
  split
  · rename_i h; subst h; simp
  · rename_i hne
    split
    · rename_i hl
      simp only [Bool.false_eq_true, false_iff]
      exact fun h => absurd h.length_le (by omega)
    · split
      · rename_i h1
        obtain ⟨x, rfl⟩ := List.length_eq_one_iff.mp h1
        rw [List.headD_cons, List.contains_iff_mem, List.singleton_infix_iff]
      · rw [List.any_eq_true]
        constructor
        · rintro ⟨w, hw, he⟩
          rw [← eq_of_beq he]; exact (mem_windows.mp hw).2
        · exact fun h => ⟨p, mem_windows.mpr ⟨rfl, h⟩, beq_self_eq_true p⟩

/-- The parts of the program that live in other crates. -/
structure External where
  /-- `hashkit::fnv::fnv1a_64` -/
  fnv1a64 : Bytes → UInt64
  /-- `crc32fast::Hasher` over the given bytes -/
  crc32 : Bytes → Nat
  /-- `flate2::read::GzDecoder`: what its successive reads return before the end or an I/O error -/
  gzDecoder : Bytes → List Bytes × Option String
  /-- `snap::raw::decompress_len` -/
  decompressLen : Bytes → Option Nat
  /-- `snap::raw::Decoder::decompress_vec` -/
  decompressVec : Bytes → Option Bytes

end Ziftsieve
