import Ziftsieve.CanonicalSound
import Ziftsieve.Deflate

/-!
# The code-length alphabet

What RFC 1951 section 3.2.7 makes of a list of entries, and what the decoder
makes of it. The decoder copies the last length it read as such, where the RFC
copies the last length written: they differ for a copy of a run of zeros, and
how far they agree is told exactly.
-/

namespace Ziftsieve.Gzip

/-- An entry of the code-length alphabet, with the value of its extra bits. -/
inductive LengthEntry where
  | length (l : Fin 16)
  | copy (extra : Fin 4)
  | zeros (extra : Fin 8)
  | longZeros (extra : Fin 128)

namespace LengthEntry

def symbol : LengthEntry → Nat
  | length l => l
  | copy _ => 16
  | zeros _ => 17
  | longZeros _ => 18

def extraBits : LengthEntry → List Bool
  | length _ => []
  | copy extra => bitsLe 2 extra
  | zeros extra => bitsLe 3 extra
  | longZeros extra => bitsLe 7 extra

def bits (code : Nat → List Bool) (e : LengthEntry) : List Bool := code e.symbol ++ e.extraBits

def count : LengthEntry → Nat
  | length _ => 1
  | copy extra => 3 + extra
  | zeros extra => 3 + extra
  | longZeros extra => 11 + extra

/-- The length an entry writes, where a copy is one of `prev`. -/
def value (prev : Nat) : LengthEntry → Nat
  | length l => l
  | copy _ => prev
  | zeros _ => 0
  | longZeros _ => 0

def run (prev : Nat) (e : LengthEntry) : List Nat := List.replicate e.count (e.value prev)

/-- The source's `prev` after an entry. -/
def keep (prev : Nat) : LengthEntry → Nat
  | length l => l
  | copy _ => prev
  | zeros _ => prev
  | longZeros _ => prev

/-- Whether the last length written, if a copy is one of such, is from a run of zeros. -/
def zeroed (before : Bool) : LengthEntry → Bool
  | length _ => false
  | copy _ => before
  | zeros _ => true
  | longZeros _ => true

theorem count_pos : ∀ e : LengthEntry, 0 < e.count
  | length _ => Nat.one_pos
  | copy _ => by simp only [count]; omega
  | zeros _ => by simp only [count]; omega
  | longZeros _ => by simp only [count]; omega

@[simp] theorem length_run (prev : Nat) (e : LengthEntry) : (e.run prev).length = e.count := List.length_replicate

theorem getLastD_run (out : List Nat) (prev : Nat) (e : LengthEntry) :
    (out ++ e.run prev).getLastD 0 = e.value prev := by
  obtain ⟨n, hn⟩ : ∃ n, e.count = n + 1 := ⟨e.count - 1, by have := e.count_pos; omega⟩
  rw [run, hn, List.replicate_succ', ← List.append_assoc]
  simp

theorem run_inj {e : LengthEntry} {p q : Nat} (h : e.run p = e.run q) : e.value p = e.value q := by
  have := e.count_pos
  exact (List.replicate_inj.mp h).2.resolve_left (by omega)

end LengthEntry

/-! ## The array of the RFC -/

/-- A copy is one of the length written just before. -/
def expandEntries (es : List LengthEntry) : List Nat := es.foldl (fun out e => out ++ e.run (out.getLastD 0)) []

def lastLength (es : List LengthEntry) : Nat := es.foldl LengthEntry.keep 0

def afterZeros (es : List LengthEntry) : Bool := es.foldl LengthEntry.zeroed false

/-- No copy of a run of zeros stands after a length other than zero. -/
def CopiesAgree (es : List LengthEntry) : Prop :=
  ∀ pre extra post, es = pre ++ .copy extra :: post → afterZeros pre = true → lastLength pre = 0

/-! ## The array of the decoder -/

/-- A copy is one of the last length that was read as such. -/
def decodedEntries (es : List LengthEntry) : List Nat :=
  (es.foldl (fun s e => (s.1 ++ e.run s.2, e.keep s.2)) (([] : List Nat), 0)).1

section
variable (es : List LengthEntry) (e : LengthEntry)

theorem expandEntries_concat : expandEntries (es ++ [e]) = expandEntries es ++ e.run ((expandEntries es).getLastD 0) := by
  unfold expandEntries
  rw [List.foldl_append]
  rfl

theorem lastLength_concat : lastLength (es ++ [e]) = e.keep (lastLength es) := by
  unfold lastLength
  rw [List.foldl_append]
  rfl

theorem afterZeros_concat : afterZeros (es ++ [e]) = e.zeroed (afterZeros es) := by
  unfold afterZeros
  rw [List.foldl_append]
  rfl

theorem decoded_snd : ∀ es : List LengthEntry,
    (es.foldl (fun s e => (s.1 ++ e.run s.2, e.keep s.2)) (([] : List Nat), 0)).2 = lastLength es := by
  intro es
  induction es using List.reverseRecOn with
  | nil => rfl
  | append_singleton es e ih =>
    rw [List.foldl_append, lastLength_concat, ← ih]
    rfl

theorem decodedEntries_concat : decodedEntries (es ++ [e]) = decodedEntries es ++ e.run (lastLength es) := by
  unfold decodedEntries
  rw [List.foldl_append, ← decoded_snd]
  rfl

end

theorem expandEntries_last (es : List LengthEntry) :
    (expandEntries es).getLastD 0 = if afterZeros es then 0 else lastLength es := by
  induction es using List.reverseRecOn with
  | nil => rfl
  | append_singleton es e ih =>
    rw [expandEntries_concat, LengthEntry.getLastD_run, afterZeros_concat, lastLength_concat, ih]
    cases e <;> rfl

theorem copiesAgree_concat (es : List LengthEntry) (e : LengthEntry) :
    CopiesAgree (es ++ [e]) ↔ CopiesAgree es ∧ e.value (lastLength es) = e.value ((expandEntries es).getLastD 0) := by
  have hlast : e.value (lastLength es) = e.value ((expandEntries es).getLastD 0) ↔
      ∀ extra, e = .copy extra → afterZeros es = true → lastLength es = 0 := by
    rw [expandEntries_last]
    cases e <;> simp [LengthEntry.value]
  rw [hlast]
  constructor
  · intro h
    refine ⟨fun pre extra post he => h pre extra (post ++ [e]) (by rw [he]; simp), ?_⟩
    rintro extra rfl
    exact h es extra [] rfl
  · rintro ⟨hes, hcopy⟩ pre extra post he
    rcases List.eq_nil_or_concat post with rfl | ⟨post', x, rfl⟩
    · obtain ⟨rfl, hx⟩ := List.append_inj' he rfl
      exact hcopy extra (List.singleton_inj.mp hx)
    · rw [List.concat_eq_append, ← List.cons_append, ← List.append_assoc] at he
      exact hes pre extra post' (List.append_inj' he rfl).1

theorem decoded_eq_expand (es : List LengthEntry) : decodedEntries es = expandEntries es ↔ CopiesAgree es := by
  induction es using List.reverseRecOn with
  | nil =>
    refine iff_of_true rfl fun pre extra post he => ?_
    exact absurd he.symm (by simp)
  | append_singleton es e ih =>
    rw [decodedEntries_concat, expandEntries_concat, copiesAgree_concat, ← ih]
    constructor
    · intro h
      obtain ⟨hout, hrun⟩ := List.append_inj' h (by rw [LengthEntry.length_run, LengthEntry.length_run])
      exact ⟨hout, LengthEntry.run_inj hrun⟩
    · rintro ⟨hout, hv⟩
      rw [hout, LengthEntry.run, LengthEntry.run, hv]

/-! ## Reading the entries -/

def padded (n : Nat) (out : List Nat) : List Nat := out ++ List.replicate (n - out.length) 0

theorem length_padded {n : Nat} {out : List Nat} (h : out.length ≤ n) : (padded n out).length = n := by
  rw [padded, List.length_append, List.length_replicate]; omega

theorem setAt_padded {ε : Type} {n : Nat} {out : List Nat} (h : out.length < n) (v : Nat) :
    (setAt (padded n out) out.length v : Run ε (List Nat)) = .ok (padded n (out ++ [v])) := by
  obtain ⟨m, hm⟩ : ∃ m, n - out.length = m + 1 := ⟨n - out.length - 1, by omega⟩
  have hm' : n - (out ++ [v]).length = m := by rw [List.length_append, List.length_singleton]; omega
  rw [setAt_eq (by rw [length_padded (by omega)]; exact h), padded, padded, hm, hm', List.set_append_right _ _ (by omega),
    Nat.sub_self, List.replicate_succ, List.set_cons_zero, List.append_assoc, List.singleton_append]

theorem fillLengths_padded (value offset n : Nat) : ∀ (k : Nat) {out : List Nat}, out.length + k ≤ n →
    fillLengths value offset k (padded n out, out.length) =
      .ok (padded n (out ++ List.replicate k value), (out ++ List.replicate k value).length)
  | 0, out, _ => by rw [List.replicate_zero, List.append_nil]; rfl
  | k + 1, out, h => by
    have hroom : (out ++ [value]).length + k ≤ n := by rw [List.length_append, List.length_singleton]; omega
    have ih := fillLengths_padded value offset n k hroom
    rw [List.append_assoc, List.singleton_append, ← List.replicate_succ] at ih
    rw [fillLengths, failIf_false _ (by rw [length_padded (by omega)]; omega), Run.ok_bind, setAt_padded (by omega),
      Run.ok_bind, ← ih, List.length_append, List.length_singleton]

section
variable {data : Bytes} {p n : Nat} {rest : List Bool} {d : HuffmanDecoder} {code : Nat → List Bool}

theorem fillFrom_yields {P : BitReader → Prop} {out : List Nat} (prev k value count : Nat)
    (h : out.length + count ≤ n) :
    Yields P (fillFrom ⟨padded n out, out.length, prev, k⟩ value count)
      ⟨padded n (out ++ List.replicate count value), (out ++ List.replicate count value).length, prev, k⟩ P :=
  yields_withReader fun r _ =>
    (yields_lift (fillLengths_padded value r.bytePos n count h)).bind Yields.pure

theorem handleCodeLengthSymbol_yields {out : List Nat} {prev k : Nat} (e : LengthEntry)
    (hroom : out.length + e.count ≤ n) (hcopy : ∀ extra, e = .copy extra → out ≠ [])
    (h : At (bytesBits data) p (e.extraBits ++ rest)) :
    Yields (Synced data p) (handleCodeLengthSymbol e.symbol ⟨padded n out, out.length, prev, k⟩)
      ⟨padded n (out ++ e.run prev), (out ++ e.run prev).length, e.keep prev, k⟩
      (Synced data (p + e.extraBits.length)) := by
  unfold handleCodeLengthSymbol
  cases e with
  | length l =>
    have hl : (LengthEntry.length l).symbol ≤ 15 := Nat.le_of_lt_succ l.isLt
    rw [if_pos hl]
    refine (yields_lift (setAt_padded hroom l)).bind ?_
    rw [show (out ++ LengthEntry.run prev (.length l)).length = out.length + 1 by simp [LengthEntry.count]]
    exact Yields.pure
  | copy extra =>
    have hne : out.length ≠ 0 := fun h0 => hcopy extra rfl (List.length_eq_zero_iff.mp h0)
    have hread := readBits_yields (by rw [LengthEntry.extraBits, length_bitsLe]; decide) h
    rw [LengthEntry.extraBits, length_bitsLe, ofBits_bitsLe_of_lt extra.isLt] at hread
    rw [if_neg (by simp [LengthEntry.symbol]), if_pos (show (LengthEntry.copy extra).symbol = 16 from rfl), if_neg hne]
    exact hread.bind (fillFrom_yields prev k prev (3 + extra) hroom)
  | zeros extra =>
    have hread := readBits_yields (by rw [LengthEntry.extraBits, length_bitsLe]; decide) h
    rw [LengthEntry.extraBits, length_bitsLe, ofBits_bitsLe_of_lt extra.isLt] at hread
    rw [if_neg (by simp [LengthEntry.symbol]), if_neg (by simp [LengthEntry.symbol]),
      if_pos (show (LengthEntry.zeros extra).symbol = 17 from rfl)]
    exact hread.bind (fillFrom_yields prev k 0 (3 + extra) hroom)
  | longZeros extra =>
    have hread := readBits_yields (by rw [LengthEntry.extraBits, length_bitsLe]; decide) h
    rw [LengthEntry.extraBits, length_bitsLe, ofBits_bitsLe_of_lt extra.isLt] at hread
    rw [if_neg (by simp [LengthEntry.symbol]), if_neg (by simp [LengthEntry.symbol]),
      if_neg (by simp [LengthEntry.symbol]), if_pos (show (LengthEntry.longZeros extra).symbol = 18 from rfl)]
    exact hread.bind (fillFrom_yields prev k 0 (11 + extra) hroom)

theorem codeLengthTurn_entry {out : List Nat} {prev k : Nat} {e : LengthEntry} (hd : Decodes d code e.symbol)
    (hk : k < maxDeflateInstructions) (hroom : out.length + e.count ≤ n)
    (hcopy : ∀ extra, e = .copy extra → out ≠ []) (h : At (bytesBits data) p (e.bits code ++ rest)) :
    Yields (Synced data p) (codeLengthTurn d ⟨padded n out, out.length, prev, k⟩)
      (.next ⟨padded n (out ++ e.run prev), (out ++ e.run prev).length, e.keep prev, k + 1⟩)
      (Synced data (p + (e.bits code).length)) := by
  have hpos := e.count_pos
  have hbits : p + (e.bits code).length = p + (code e.symbol).length + e.extraBits.length := by
    rw [LengthEntry.bits, List.length_append, Nat.add_assoc]
  rw [LengthEntry.bits, List.append_assoc] at h
  rw [hbits]
  unfold codeLengthTurn
  rw [if_pos (by simp only; rw [length_padded (by omega)]; omega)]
  simp only
  rw [if_neg (by omega)]
  exact (hd h).bind ((handleCodeLengthSymbol_yields e hroom hcopy h.skip).bind Yields.pure)

/-- By induction on the entries, from the array as far as it is written. -/
theorem codeLengthLoop_yields : ∀ {es : List LengthEntry} {out : List Nat} {prev k p fuel : Nat},
    (∀ e ∈ es, Decodes d code e.symbol) → k + es.length ≤ maxDeflateInstructions → es.length < fuel →
    out.length + (es.map LengthEntry.count).sum = n → (∀ extra es', es = .copy extra :: es' → out ≠ []) →
    At (bytesBits data) p (es.flatMap (LengthEntry.bits code) ++ rest) →
    Yields (Synced data p) (loop (codeLengthTurn d) fuel ⟨padded n out, out.length, prev, k⟩)
      (es.foldl (fun s e => (s.1 ++ e.run s.2, e.keep s.2)) (out, prev)).1
      (Synced data (p + (es.flatMap (LengthEntry.bits code)).length))
  | _, _, _, _, _, 0, _, _, hf, _, _, _ => absurd hf (Nat.not_lt_zero _)
  | [], out, prev, k, p, fuel + 1, _, _, _, hn, _, _ => by
    rw [List.map_nil, List.sum_nil, Nat.add_zero] at hn
    apply Yields.loop_done
    unfold codeLengthTurn
    rw [if_neg (by simp only; rw [length_padded (by omega)]; omega), padded, hn, Nat.sub_self]
    rw [List.replicate_zero, List.append_nil]
    exact Yields.pure
  | e :: es, out, prev, k, p, fuel + 1, hd, hk, hf, hn, hcopy, h => by
    rw [List.map_cons, List.sum_cons] at hn
    rw [List.length_cons] at hk hf
    rw [List.flatMap_cons, List.append_assoc] at h
    rw [List.flatMap_cons, List.length_append, ← Nat.add_assoc, List.foldl_cons]
    have hroom : out.length + e.count ≤ n := by omega
    have hlt : k < maxDeflateInstructions := by omega
    refine (codeLengthTurn_entry (hd e List.mem_cons_self) hlt hroom (fun extra he => hcopy extra es (by rw [he]))
      h).loop_next ?_
    refine codeLengthLoop_yields (fun e' h' => hd e' (List.mem_cons_of_mem _ h')) (by omega) (by omega) ?_ ?_ h.skip
    · rw [List.length_append, LengthEntry.length_run]; omega
    · intro _ _ _ hnil
      have hlen := congrArg List.length hnil
      have hpos := e.count_pos
      rw [List.length_append, LengthEntry.length_run, List.length_nil] at hlen
      omega

end

theorem length_le_counts : ∀ es : List LengthEntry, es.length ≤ (es.map LengthEntry.count).sum
  | [] => Nat.le_refl _
  | e :: es => by
    have ih := length_le_counts es
    have hpos := e.count_pos
    rw [List.length_cons, List.map_cons, List.sum_cons]; omega

theorem decodeCodeLengths_yields {data : Bytes} {p n : Nat} {rest : List Bool} {d : HuffmanDecoder}
    {code : Nat → List Bool} {es : List LengthEntry} (hd : ∀ e ∈ es, Decodes d code e.symbol)
    (hn : n ≤ maxDeflateInstructions) (hfill : (es.map LengthEntry.count).sum = n)
    (hfirst : ∀ extra es', es ≠ .copy extra :: es')
    (h : At (bytesBits data) p (es.flatMap (LengthEntry.bits code) ++ rest)) :
    Yields (Synced data p) (decodeCodeLengths d (List.replicate n 0)) (decodedEntries es)
      (Synced data (p + (es.flatMap (LengthEntry.bits code)).length)) := by
  have hlen := length_le_counts es
  have hout : ([] : List Nat).length + (es.map LengthEntry.count).sum = n := by rw [List.length_nil]; omega
  have hrun := @codeLengthLoop_yields _ _ _ _ _ es [] 0 0 p (maxDeflateInstructions + 2) hd (by omega) (by omega) hout
    (fun extra es' he => absurd he (hfirst extra es')) h
  exact hrun

/-- **The code-length alphabet.** The lengths of a dynamic block's codes are read as
RFC 1951 has them exactly when no copy repeats a run of zeros that stands after a
length other than zero. -/
theorem decodeCodeLengths_iff {L : List Nat} (hK : Kraft 7 L) (hL : L.length = 19) {es : List LengthEntry} {n : Nat}
    (hn : n ≤ maxDeflateInstructions) (hfill : (es.map LengthEntry.count).sum = n)
    (hfirst : ∀ extra es', es ≠ .copy extra :: es') (hcoded : ∀ e ∈ es, L.getD e.symbol 0 ≠ 0) {data : Bytes} {p : Nat}
    {rest : List Bool} (hat : At (bytesBits data) p (es.flatMap (LengthEntry.bits (codeBits L)) ++ rest))
    {r : BitReader} (hr : Synced data p r) :
    ∃ d, HuffmanDecoder.fromLengths L "code length" = .ok d ∧
      ((decodeCodeLengths d (List.replicate n 0) r).1 = .ok (expandEntries es) ↔ CopiesAgree es) := by
  obtain ⟨d, hd, hdec⟩ := fromLengths_coded (hK.mono (by decide)) (by omega) "code length"
  refine ⟨d, hd, ?_⟩
  have hread : ∀ e ∈ es, Decodes d (codeBits L) e.symbol := fun e he => hdec e.symbol (hcoded e he)
  rw [(decodeCodeLengths_yields hread hn hfill hfirst hat).value hr, ← decoded_eq_expand, Except.ok.injEq]

def fourLengths : List Nat := [0, 2, 0, 0, 0, 0, 0, 0, 0, 0, 0, 0, 0, 0, 0, 0, 2, 2, 2]

theorem kraft_fourLengths : Kraft 7 fourLengths := ⟨by decide, by decide⟩

def copiedOnes : List LengthEntry := [.length 1, .copy 0, .longZeros 127, .longZeros 105]

theorem decodeCodeLengths_copiedOnes :
    ∃ d, HuffmanDecoder.fromLengths fourLengths "code length" = .ok d ∧
      ((decodeCodeLengths d (List.replicate 258 0) (BitReader.new [200, 255, 211] 0)).1 =
        .ok (expandEntries copiedOnes) ↔ CopiesAgree copiedOnes) :=
  decodeCodeLengths_iff kraft_fourLengths rfl (by decide) (by decide) (by simp [copiedOnes]) (by decide)
    (p := 0) ⟨Nat.zero_le _, (show _ = copiedOnes.flatMap (LengthEntry.bits (codeBits fourLengths)) ++ [] by decide)⟩
    (Synced.new (i := 0) (Nat.zero_le _))

/-- The length 1, three zeros, and three copies of the last of them. -/
def copiedZeros : List LengthEntry := [.length 1, .zeros 0, .copy 0, .longZeros 127, .longZeros 102]

theorem decodeCodeLengths_copiedZeros :
    ∃ d, HuffmanDecoder.fromLengths fourLengths "code length" = .ok d ∧
      (decodeCodeLengths d (List.replicate 258 0) (BitReader.new [4, 249, 191, 25] 0)).1 ≠
        .ok (expandEntries copiedZeros) := by
  obtain ⟨d, hd, hdec⟩ := fromLengths_sound (kraft_fourLengths.mono (by decide)) (by decide) "code length"
  have hread : ∀ e ∈ copiedZeros, Decodes d (codeBits fourLengths) e.symbol := by
    intro e he
    simp only [copiedZeros, List.mem_cons, List.not_mem_nil, or_false] at he
    rcases he with rfl | rfl | rfl | rfl | rfl <;> exact hdec _ 2 (by decide) (by decide)
  have hat : At (bytesBits [4, 249, 191, 25]) 0
      (copiedZeros.flatMap (LengthEntry.bits (codeBits fourLengths)) ++ [false, false, false]) :=
    ⟨Nat.zero_le _, by decide⟩
  have hyields := decodeCodeLengths_yields (n := 258) hread (by decide) (by decide) (by simp [copiedZeros]) hat
  refine ⟨d, hd, ?_⟩
  rw [hyields.value (Synced.new (i := 0) (Nat.zero_le _)), ne_eq, Except.ok.injEq, decoded_eq_expand]
  intro h
  have hlast := h [.length 1, .zeros 0] 0 [.longZeros 127, .longZeros 102] rfl rfl
  revert hlast
  decide

end Ziftsieve.Gzip
