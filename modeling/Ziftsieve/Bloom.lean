import Ziftsieve.Block

/-!
# The bloom filter

`bloom/hash.rs` and `bloom/filter.rs`. A filter carries what its constructors
establish and `insert` and `clear` keep: it has a bit and a hash round or more,
and its bit vector is at least as long as `num_bits`, so every index the hash
rounds compute is in range. The sizing of `new` is in `Float`; only the final
clamps matter below.
-/

namespace Ziftsieve

/-! ## Hashes -/

/-- The offset and prime of `hash_fnv1a_alt`. -/
def hashFnv1aAlt (data : Bytes) : UInt64 :=
  data.foldl (fun hash byte => (hash ^^^ byte.toUInt64) * 0x0100000001b3) 0x14650FB0739D0383

/-- Standard 64-bit FNV-1a, which `hashkit` documents its `fnv1a_64` to be. -/
def fnv1a64 (data : Bytes) : UInt64 :=
  data.foldl (fun hash byte => (hash ^^^ byte.toUInt64) * 0x0100000001b3) 0xcbf29ce484222325

/-- Standard FNV-1a, and nothing of the other crates: all that filters and LZ4 streams need. -/
def External.fnvOnly : External := ⟨Ziftsieve.fnv1a64, fun _ => 0, fun _ => ([], none), fun _ => none, fun _ => none⟩

def hashPair (ext : External) (item : Bytes) : UInt64 × UInt64 := (ext.fnv1a64 item, hashFnv1aAlt item)

def nthHash (h1 h2 : UInt64) (n numBits : Nat) : Nat := (h1 + UInt64.ofNat n * h2).toNat % numBits

theorem nthHash_lt (h1 h2 : UInt64) (n : Nat) {numBits : Nat} (h : 0 < numBits) :
    nthHash h1 h2 n numBits < numBits := Nat.mod_lt _ h

/-! ## Filters -/

def maxBloomBits : Nat := 2 ^ 30

def clampNat (lo hi x : Nat) : Nat := max lo (min hi x)

theorem clampNat_ge {lo hi x : Nat} : lo ≤ clampNat lo hi x := Nat.le_max_left _ _

theorem clampNat_le {lo hi x : Nat} (h : lo ≤ hi) : clampNat lo hi x ≤ hi := by
  unfold clampNat; omega

def clampFloat (lo hi x : Float) : Float := if x < lo then lo else if x > hi then hi else x

structure BloomFilter where
  bits : List Bool
  numHashes : Nat
  numBits : Nat
  numBits_pos : 0 < numBits
  numBits_le : numBits ≤ bits.length
  numHashes_pos : 0 < numHashes
  numHashes_le : numHashes ≤ 32

namespace BloomFilter

def withParams (numBits numHashes : Nat) : BloomFilter :=
  let numBits := clampNat 1 maxBloomBits numBits
  { bits := List.replicate numBits false
    numHashes := clampNat 1 32 numHashes
    numBits := numBits
    numBits_pos := clampNat_ge
    numBits_le := by rw [List.length_replicate]
    numHashes_pos := clampNat_ge
    numHashes_le := clampNat_le (by decide) }

/-- The sizing formulas `m = -n ln p / (ln 2)^2` and `k = m/n ln 2`. -/
def new (expectedItems : Nat) (falsePositiveRate : Float) : BloomFilter :=
  let n := Float.ofNat (max expectedItems 1)
  let p := if falsePositiveRate.isNaN then 0.01 else clampFloat 0.0001 0.9999 falsePositiveRate
  let ln2 := Float.log 2.0
  let mFloat := (-n * p.log / (ln2 * ln2)).ceil
  let m := clampNat 64 maxBloomBits
    (if mFloat > Float.ofNat maxBloomBits then maxBloomBits else mFloat.toUInt64.toNat)
  let kFloat := ((Float.ofNat m / n) * ln2).round
  let k := clampNat 1 32 (if kFloat > Float.ofNat (2 ^ 32 - 1) then 2 ^ 32 - 1 else kFloat.toUInt32.toNat)
  { bits := List.replicate m false
    numHashes := k
    numBits := m
    numBits_pos := Nat.lt_of_lt_of_le (show 0 < 64 by decide) clampNat_ge
    numBits_le := by rw [List.length_replicate]
    numHashes_pos := clampNat_ge
    numHashes_le := clampNat_le (by decide) }

theorem length_setAll (f : BloomFilter) (h1 h2 : UInt64) : ∀ (is : List Nat) (bits : List Bool),
    (is.foldl (fun bits i => bits.set (nthHash h1 h2 i f.numBits) true) bits).length = bits.length
  | [], _ => rfl
  | i :: is, bits => by rw [List.foldl_cons, length_setAll f h1 h2 is, List.length_set]

def insert (ext : External) (f : BloomFilter) (item : Bytes) : BloomFilter :=
  let h := hashPair ext item
  { f with
    bits := (List.range f.numHashes).foldl (fun bits i => bits.set (nthHash h.1 h.2 i f.numBits) true) f.bits
    numBits_le := by rw [length_setAll]; exact f.numBits_le }

def mayContain (ext : External) (f : BloomFilter) (item : Bytes) : Bool :=
  let h := hashPair ext item
  (List.range f.numHashes).all fun i => (f.bits[nthHash h.1 h.2 i f.numBits]?).getD false

/-- `BitVec::clear` zeroes the bits in place and `grow` appends. -/
def clear (f : BloomFilter) : BloomFilter :=
  { f with
    bits := List.replicate f.bits.length false ++ List.replicate f.numBits false
    numBits_le := by
      have := f.numBits_le
      rw [List.length_append, List.length_replicate]; omega }

def fromBits (bits : List Bool) (numHashes : Nat) : Run ZiftError BloomFilter :=
  if h : bits.length = 0 then
    fail (.invalidData 0 "BloomFilter requires at least 1 bit. Fix: pass a non-empty bit vector")
  else
    .ok
      { bits := bits
        numHashes := clampNat 1 32 numHashes
        numBits := bits.length
        numBits_pos := Nat.pos_of_ne_zero h
        numBits_le := Nat.le_refl _
        numHashes_pos := clampNat_ge
        numHashes_le := clampNat_le (by decide) }

end BloomFilter

end Ziftsieve
