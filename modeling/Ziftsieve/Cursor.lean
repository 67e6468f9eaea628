import Ziftsieve.Outcome
import Mathlib.Algebra.Order.Ring.Int
import Mathlib.Algebra.Order.Ring.Nat
import Mathlib.Data.List.Infix

/-!
# Reading a list by position

A parser holds a whole input and a position in it. `At xs i ys` says that the
input from position `i` on is `ys`: the parser's reads at `i` are then facts
about the head of `ys`, whatever stands before `i`.
-/

namespace Ziftsieve

abbrev Bytes := List UInt8

section
variable {ε α : Type}

/-- `xs[i]`. -/
def index (xs : List α) (i : Nat) : Run ε α :=
  match xs[i]? with
  | some x => .ok x
  | none => panic

/-- `&xs[i..j]`. -/
def slice (xs : List α) (i j : Nat) : Run ε (List α) :=
  if i ≤ j ∧ j ≤ xs.length then .ok ((xs.drop i).take (j - i)) else panic

theorem index_eq_ok {xs : List α} {i : Nat} {x : α} : (index xs i : Run ε α) = .ok x ↔ xs[i]? = some x := by
  unfold index
  cases xs[i]? with
  | none => simp
  | some y => simp

theorem slice_eq_ok {xs ys : List α} {i j : Nat} :
    (slice xs i j : Run ε (List α)) = .ok ys ↔ (i ≤ j ∧ j ≤ xs.length) ∧ (xs.drop i).take (j - i) = ys := by
  unfold slice
  by_cases h : i ≤ j ∧ j ≤ xs.length
  · rw [if_pos h]; simp [h]
  · rw [if_neg h]; simp [h]

theorem index_graceful {xs : List α} {i : Nat} (h : i < xs.length) : Graceful (index xs i : Run ε α) := by
  unfold index
  rw [List.getElem?_eq_getElem h]
  exact Graceful.ok _

theorem slice_graceful {xs : List α} {i j : Nat} (h : i ≤ j ∧ j ≤ xs.length) :
    Graceful (slice xs i j : Run ε (List α)) := by
  unfold slice
  rw [if_pos h]
  exact Graceful.ok _

theorem index_safe {xs : List α} {i : Nat} (h : i < xs.length) :
    Safe (index xs i : Run ε α) fun x => xs[i]? = some x :=
  ⟨index_graceful h, fun _ hx => index_eq_ok.mp hx⟩

theorem index3_safe {β : Type} {xs : List α} {i : Nat} {k : α → α → α → Run ε β} {Q : β → Prop} (h : i + 3 ≤ xs.length)
    (hk : ∀ a b c, Safe (k a b c) Q) :
    Safe (do
      let a ← index xs i
      let b ← index xs (i + 1)
      let c ← index xs (i + 2)
      k a b c) Q := by
  refine (index_safe (by omega)).bind fun a _ => ?_
  refine (index_safe (by omega)).bind fun b _ => ?_
  exact (index_safe (by omega)).bind fun c _ => hk a b c

theorem slice_safe {xs : List α} {i j : Nat} (h : i ≤ j ∧ j ≤ xs.length) :
    Safe (slice xs i j : Run ε (List α)) fun ys => ys.length = j - i := by
  refine ⟨slice_graceful h, fun ys hys => ?_⟩
  rw [← (slice_eq_ok.mp hys).2, List.length_take, List.length_drop]; omega

/-! Reads of a part are reads of the whole. -/

theorem index_take {xs : List α} {i k : Nat} (h : i < k) : (index (xs.take k) i : Run ε α) = index xs i := by
  unfold index
  rw [List.getElem?_take_of_lt h]

theorem slice_take {xs : List α} {i j k : Nat} (h : j ≤ k) :
    (slice (xs.take k) i j : Run ε (List α)) = slice xs i j := by
  unfold slice
  by_cases hij : i ≤ j ∧ j ≤ xs.length
  · rw [if_pos hij, if_pos ⟨hij.1, by rw [List.length_take]; omega⟩, List.drop_take, List.take_take,
      Nat.min_eq_left (by omega)]
  · rw [if_neg hij, if_neg (by rw [List.length_take]; omega)]

structure At (xs : List α) (i : Nat) (ys : List α) : Prop where
  le : i ≤ xs.length
  drop : xs.drop i = ys

theorem At.start (xs : List α) : At xs 0 xs := ⟨Nat.zero_le _, rfl⟩

variable {xs ys zs : List α} {i : Nat}

theorem At.length (h : At xs i ys) : i + ys.length = xs.length := by
  have hl := h.le
  rw [← h.drop, List.length_drop]; omega

theorem At.mid (as bs : List α) : At (as ++ bs) as.length bs :=
  ⟨by simp, by simp⟩

theorem At.skip (h : At xs i (ys ++ zs)) : At xs (i + ys.length) zs := by
  have hl := h.length
  rw [List.length_append] at hl
  exact ⟨by omega, by rw [← List.drop_drop, h.drop, List.drop_left]⟩

theorem At.tail {y : α} (h : At xs i (y :: ys)) : At xs (i + 1) ys := by
  rw [← List.singleton_append] at h
  exact h.skip

theorem At.lt {y : α} (h : At xs i (y :: ys)) : i < xs.length := by
  have hl := h.length
  simp only [List.length_cons] at hl; omega

theorem At.eq_end (h : At xs i []) : i = xs.length := h.length

theorem exists_cons3 {xs : List α} (h : 3 ≤ xs.length) : ∃ a b c ys, xs = a :: b :: c :: ys := by
  match xs, h with
  | a :: b :: c :: ys, _ => exact ⟨a, b, c, ys, rfl⟩

theorem exists_cons4 {xs : List α} (h : 4 ≤ xs.length) : ∃ a b c d ys, xs = a :: b :: c :: d :: ys := by
  match xs, h with
  | a :: b :: c :: d :: ys, _ => exact ⟨a, b, c, d, ys, rfl⟩

theorem index_of_get {y : α} (h : xs[i]? = some y) : (index xs i : Run ε α) = .ok y := by
  unfold index; rw [h]

theorem At.index {y : α} (h : At xs i (y :: ys)) : (Ziftsieve.index xs i : Run ε α) = .ok y := by
  have hg := congrArg (·[0]?) h.drop
  simp only [List.getElem?_drop, List.getElem?_cons_zero, Nat.add_zero] at hg
  exact index_of_get hg

theorem At.slice (h : At xs i (ys ++ zs)) {j : Nat} (hj : j = i + ys.length) :
    (Ziftsieve.slice xs i j : Run ε (List α)) = .ok ys := by
  have hl := h.length
  rw [List.length_append] at hl
  unfold Ziftsieve.slice
  rw [if_pos (by omega), h.drop, show j - i = ys.length by omega, List.take_left]

theorem At.slice_rest (h : At xs i ys) : (Ziftsieve.slice xs i xs.length : Run ε (List α)) = .ok ys := by
  rw [← List.append_nil ys] at h
  exact h.slice (by rw [← h.length, List.append_nil])

end

/-! ## Little-endian numbers -/

def toLe : Nat → Nat → Bytes
  | 0, _ => []
  | k + 1, n => UInt8.ofNat n :: toLe k (n / 256)

/-- `from_le_bytes`. -/
def fromLe : Bytes → Nat
  | [] => 0
  | b :: bs => b.toNat + 256 * fromLe bs

theorem or_shiftLeft {a k : Nat} (h : a < 2 ^ k) (b : Nat) : a ||| b <<< k = a + 2 ^ k * b := by
  rw [Nat.or_comm, ← Nat.shiftLeft_add_eq_or_of_lt h, Nat.shiftLeft_eq, Nat.mul_comm, Nat.add_comm]

@[simp] theorem length_toLe (k n : Nat) : (toLe k n).length = k := by
  induction k generalizing n with
  | zero => rfl
  | succ k ih => rw [toLe, List.length_cons, ih]

theorem fromLe_toLe : ∀ (k n : Nat), n < 256 ^ k → fromLe (toLe k n) = n
  | 0, n, h => by
    rw [Nat.pow_zero] at h
    simp only [toLe, fromLe]; omega
  | k + 1, n, h => by
    have hd : n / 256 < 256 ^ k := by
      rw [Nat.div_lt_iff_lt_mul (by decide)]; rwa [Nat.pow_succ] at h
    have hb : (UInt8.ofNat n).toNat = n % 256 := by simp
    rw [toLe, fromLe, fromLe_toLe k _ hd, hb]
    omega

theorem fromLe_lt : ∀ (bs : Bytes), fromLe bs < 256 ^ bs.length
  | [] => by decide
  | b :: bs => by
    have hb := b.toNat_lt
    have := fromLe_lt bs
    rw [fromLe, List.length_cons, Nat.pow_succ]; omega

theorem toLe_fromLe : ∀ bs : Bytes, toLe bs.length (fromLe bs) = bs
  | [] => rfl
  | b :: bs => by
    have hb := b.toNat_lt
    have hd : (b.toNat + 256 * fromLe bs) / 256 = fromLe bs := by omega
    have hm : UInt8.ofNat (b.toNat + 256 * fromLe bs) = b := by
      apply UInt8.toNat_inj.mp
      rw [UInt8.toNat_ofNat']; omega
    rw [fromLe, List.length_cons, toLe, hd, hm, toLe_fromLe bs]

theorem toLe_mod : ∀ (k n : Nat), toLe k (n % 256 ^ k) = toLe k n
  | 0, _ => rfl
  | k + 1, n => by
    have h1 : n % 256 ^ (k + 1) / 256 = n / 256 % 256 ^ k := by
      rw [Nat.pow_succ, Nat.mul_comm, Nat.mod_mul_right_div_self]
    have h2 : UInt8.ofNat (n % 256 ^ (k + 1)) = UInt8.ofNat n := by
      apply UInt8.toNat_inj.mp
      simp only [UInt8.toNat_ofNat']
      exact Nat.mod_mod_of_dvd n (by rw [Nat.pow_succ]; exact Nat.dvd_mul_left _ _)
    rw [toLe, toLe, h1, h2, toLe_mod k]

section
variable {ε : Type}

def readLe16 (xs : Bytes) (i : Nat) : Run ε Nat := do
  let b0 ← index xs i
  let b1 ← index xs (i + 1)
  pure (fromLe [b0, b1])

def readLe32 (xs : Bytes) (i : Nat) : Run ε Nat := do
  let b0 ← index xs i
  let b1 ← index xs (i + 1)
  let b2 ← index xs (i + 2)
  let b3 ← index xs (i + 3)
  pure (fromLe [b0, b1, b2, b3])

theorem readLe32_take {xs : Bytes} {i k : Nat} (h : i + 4 ≤ k) :
    (readLe32 (xs.take k) i : Run ε Nat) = readLe32 xs i := by
  unfold readLe32
  rw [index_take (by omega), index_take (by omega), index_take (by omega), index_take (by omega)]

theorem readLe16_safe {xs : Bytes} {i : Nat} (h : i + 2 ≤ xs.length) :
    Safe (readLe16 xs i : Run ε Nat) fun _ => True := by
  unfold readLe16
  refine (index_safe (by omega)).bind fun b0 _ => ?_
  exact (index_safe (by omega)).bind fun b1 _ => Safe.pure trivial

theorem readLe32_safe {xs : Bytes} {i : Nat} (h : i + 4 ≤ xs.length) :
    Safe (readLe32 xs i : Run ε Nat) fun _ => True := by
  unfold readLe32
  refine index3_safe (by omega) fun b0 b1 b2 => ?_
  exact (index_safe (by omega)).bind fun b3 _ => Safe.pure trivial

theorem At.readLe32 {xs ys : Bytes} {i : Nat} {b0 b1 b2 b3 : UInt8} (h : At xs i (b0 :: b1 :: b2 :: b3 :: ys)) :
    (Ziftsieve.readLe32 xs i : Run ε Nat) = .ok (fromLe [b0, b1, b2, b3]) := by
  unfold Ziftsieve.readLe32
  rw [h.index, Run.ok_bind, h.tail.index, Run.ok_bind, h.tail.tail.index, Run.ok_bind,
    h.tail.tail.tail.index]
  rfl

theorem At.readLe16_toLe {xs ys : Bytes} {i n : Nat} (hn : n < 2 ^ 16) (h : At xs i (toLe 2 n ++ ys)) :
    (Ziftsieve.readLe16 xs i : Run ε Nat) = .ok n := by
  have he : fromLe (toLe 2 n) = n := fromLe_toLe 2 n (by simpa using hn)
  simp only [toLe, List.cons_append, List.nil_append] at h he
  unfold Ziftsieve.readLe16
  rw [h.index, Run.ok_bind, h.tail.index, Run.ok_bind, he]
  rfl

theorem At.readLe32_toLe {xs ys : Bytes} {i n : Nat} (hn : n < 2 ^ 32) (h : At xs i (toLe 4 n ++ ys)) :
    (Ziftsieve.readLe32 xs i : Run ε Nat) = .ok n := by
  have he : fromLe (toLe 4 n) = n := fromLe_toLe 4 n (by simpa using hn)
  simp only [toLe, List.cons_append, List.nil_append] at h he
  rw [h.readLe32, he]

end

theorem toNat_and_lt (x : UInt8) {y : UInt8} {n : Nat} (h : y.toNat < n) : (x &&& y).toNat < n := by
  rw [UInt8.toNat_and]
  exact Nat.lt_of_le_of_lt Nat.and_le_right h

/-! ## Windows -/

section
variable {α : Type}

/-- `xs.windows(n)`. -/
def windows (n : Nat) (xs : List α) : List (List α) :=
  (List.range (xs.length + 1 - n)).map fun i => (xs.drop i).take n

theorem mem_windows {n : Nat} {xs w : List α} : w ∈ windows n xs ↔ w.length = n ∧ w <:+: xs := by
  unfold windows
  simp only [List.mem_map, List.mem_range]
  constructor
  · rintro ⟨i, hi, rfl⟩
    refine ⟨by rw [List.length_take, List.length_drop]; omega, ?_⟩
    exact (List.take_prefix n _).isInfix.trans (List.drop_suffix i xs).isInfix
  · rintro ⟨rfl, s, t, rfl⟩
    refine ⟨s.length, by simp only [List.length_append]; omega, ?_⟩
    rw [List.append_assoc, List.drop_left, List.take_left]

end

end Ziftsieve
