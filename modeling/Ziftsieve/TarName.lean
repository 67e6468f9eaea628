import Ziftsieve.Split
import Ziftsieve.TarFormat
import Mathlib

/-!
# Path traversal in member names

The check runs on the text that `String::from_utf8_lossy` makes of a name's
bytes. A separator or a dot in the text is that byte of the name and nothing
else, so the check finds exactly the components `..` of the bytes.
-/

namespace Ziftsieve.Tarball

/-- Neither of the characters the check looks for. -/
def NotPath (c : Char) : Prop := c.toNat ≠ 0x2e ∧ c.toNat ≠ 0x2f

theorem notPath_replacementChar : NotPath replacementChar := by
  unfold NotPath
  decide

theorem ofNat_notPath {n : Nat} (h : 0x80 ≤ n) : NotPath (Char.ofNat n) := by
  unfold NotPath
  rw [Char.toNat_ofNat]
  split
  · omega
  · omega

/-- A character begun is not ASCII, whatever bytes go on with it. -/
structure Begun (u : Utf8) : Prop where
  lo : 0x80 ≤ u.lo.toNat
  hi : u.hi.toNat ≤ 0xBF
  code : 2 ≤ u.code * 64 + (u.lo.toNat - 0x80)
  last : u.need = 1 → 0x80 ≤ u.code * 64 + (u.lo.toNat - 0x80)

theorem beginChar_begun {b : UInt8} {u : Utf8} (h : beginChar b = some u) : Begun u := by
  have hb := b.toNat_lt
  unfold beginChar at h
  simp only [UInt8.le_iff_toNat_le, ← UInt8.toNat_inj, UInt8.reduceToNat] at h
  split at h
  · cases h
    exact ⟨Nat.le_refl _, Nat.le_refl _, by simp only; omega, by simp only; omega⟩
  split at h
  · cases h
    exact ⟨by decide, by decide, by decide, by decide⟩
  split at h
  · cases h
    exact ⟨by decide, by decide, by decide, by decide⟩
  split at h
  · cases h
    exact ⟨Nat.le_refl _, Nat.le_refl _, by simp only; omega, by simp⟩
  split at h
  · cases h
    exact ⟨by decide, by decide, by decide, by decide⟩
  split at h
  · cases h
    exact ⟨Nat.le_refl _, Nat.le_refl _, by simp only; omega, by simp⟩
  split at h
  · cases h
    exact ⟨by decide, by decide, by decide, by decide⟩
  · cases h

/-! ## The text of a path -/

theorem lossyFrom_cons (st : Option Utf8) (b : UInt8) (bs : Bytes) : lossyFrom st (b :: bs) =
    (match st with | none => leadByte b | some u => nextByte u b).1 ++
      lossyFrom (match st with | none => leadByte b | some u => nextByte u b).2 bs := by
  cases st with
  | none => rfl
  | some u => rfl

/-- An ASCII byte ends what was begun, and is a character of its own. -/
theorem lossyFrom_ascii {st : Option Utf8} (hst : ∀ u, st = some u → Begun u) {b : UInt8} (hb : b < 0x80) (bs : Bytes) :
    lossyFrom st (b :: bs) = lossyFrom st [] ++ Char.ofNat b.toNat :: lossyFrom none bs := by
  rw [lossyFrom_cons]
  cases st with
  | none =>
    simp only [leadByte, if_pos hb]
    rfl
  | some u =>
    have hlo := (hst u rfl).lo
    have hout : ¬ (u.lo ≤ b ∧ b ≤ u.hi) := by
      simp only [UInt8.lt_iff_toNat_lt, UInt8.reduceToNat] at hb
      simp only [UInt8.le_iff_toNat_le]
      omega
    simp only [nextByte, if_neg hout, leadByte, if_pos hb]
    rfl

/-- A byte that is not ASCII gives no character of a path: another one, or the beginning of one. -/
theorem lossyFrom_high {st : Option Utf8} (hst : ∀ u, st = some u → Begun u) {b : UInt8} (hb : ¬ b < 0x80) :
    ∃ out st', (∀ bs, lossyFrom st (b :: bs) = out ++ lossyFrom st' bs) ∧ (∀ c ∈ out, NotPath c) ∧
      (∀ u, st' = some u → Begun u) ∧ (out = [] → st' ≠ none) := by
  have hlead : (∀ c ∈ (leadByte b).1, NotPath c) ∧ (∀ u, (leadByte b).2 = some u → Begun u) ∧
      ((leadByte b).1 = [] → (leadByte b).2 ≠ none) := by
    unfold leadByte
    rw [if_neg hb]
    cases hbegin : beginChar b with
    | none => simpa using notPath_replacementChar
    | some u => simpa using beginChar_begun hbegin
  cases st with
  | none => exact ⟨_, _, fun bs => lossyFrom_cons none b bs, hlead⟩
  | some u =>
    refine ⟨_, _, fun bs => lossyFrom_cons (some u) b bs, ?_⟩
    simp only [nextByte]
    split
    · rename_i hin
      obtain ⟨hlo, hhi, hcode, hlast⟩ := hst u rfl
      have hlow := UInt8.le_iff_toNat_le.mp hin.1
      have hhigh := UInt8.le_iff_toNat_le.mp hin.2
      split
      · rename_i hneed
        have := hlast hneed
        have hchar : NotPath (Char.ofNat (u.code * 64 + b.toNat % 64)) := ofNat_notPath (by omega)
        simpa using hchar
      · refine ⟨by simp, ?_, by simp⟩
        intro v hv
        cases hv
        exact ⟨Nat.le_refl _, Nat.le_refl _, by simp only; omega, fun _ => by simp only; omega⟩
    · obtain ⟨hout, hbegun, -⟩ := hlead
      refine ⟨?_, hbegun, by simp⟩
      intro c hc
      rcases List.mem_cons.mp hc with rfl | hc
      · exact notPath_replacementChar
      · exact hout c hc

theorem toNat_ofNat_ascii {b : UInt8} (hb : b < 0x80) : (Char.ofNat b.toNat).toNat = b.toNat := by
  simp only [UInt8.lt_iff_toNat_lt, UInt8.reduceToNat] at hb
  rw [Char.toNat_ofNat, if_pos (.inl (by omega))]

theorem begun_none : ∀ u, (none : Option Utf8) = some u → Begun u := fun _ h => nomatch h

theorem lossyFrom_append_separator : ∀ {st : Option Utf8}, (∀ u, st = some u → Begun u) → ∀ xs ys : Bytes,
    lossyFrom st (xs ++ separator :: ys) = lossyFrom st xs ++ '/' :: lossyFrom none ys
  | st, hst, [], ys => lossyFrom_ascii hst (by decide) ys
  | st, hst, b :: xs, ys => by
    rw [List.cons_append]
    by_cases hb : b < 0x80
    · rw [lossyFrom_ascii hst hb, lossyFrom_ascii hst hb, lossyFrom_append_separator begun_none xs ys,
        List.append_assoc, List.cons_append]
    · obtain ⟨out, st', hcons, -, hst', -⟩ := lossyFrom_high hst hb
      rw [hcons, hcons, lossyFrom_append_separator hst' xs ys, List.append_assoc]

theorem separator_not_mem : ∀ {st : Option Utf8}, (∀ u, st = some u → Begun u) → ∀ xs : Bytes, separator ∉ xs →
    '/' ∉ lossyFrom st xs
  | none, _, [], _ => by simp [lossyFrom]
  | some u, _, [], _ => by simp [lossyFrom, replacementChar]
  | st, hst, b :: xs, hx => by
    rw [List.mem_cons, not_or] at hx
    by_cases hb : b < 0x80
    · rw [lossyFrom_ascii hst hb, List.mem_append, List.mem_cons, not_or, not_or]
      refine ⟨separator_not_mem hst [] List.not_mem_nil, ?_, separator_not_mem begun_none xs hx.2⟩
      intro he
      have hb' := toNat_ofNat_ascii hb
      rw [← he] at hb'
      exact hx.1 (UInt8.toNat_inj.mp hb')
    · obtain ⟨out, st', hcons, hout, hst', -⟩ := lossyFrom_high hst hb
      rw [hcons, List.mem_append, not_or]
      exact ⟨fun h => (hout _ h).2 rfl, separator_not_mem hst' xs hx.2⟩

theorem eq_dots : ∀ {st : Option Utf8}, (∀ u, st = some u → Begun u) → ∀ xs : Bytes,
    (∀ c ∈ lossyFrom st xs, c = '.') → st = none ∧ xs = List.replicate (lossyFrom st xs).length 0x2e
  | none, _, [], _ => ⟨rfl, rfl⟩
  | some u, _, [], h => by
    have hr := h replacementChar (by simp [lossyFrom])
    exact absurd hr (by decide)
  | st, hst, b :: xs, h => by
    by_cases hb : b < 0x80
    · rw [lossyFrom_ascii hst hb] at h ⊢
      simp only [List.mem_append, List.mem_cons] at h
      obtain ⟨rfl, -⟩ := eq_dots hst [] fun c hc => h c (.inl hc)
      obtain ⟨-, hxs⟩ := eq_dots begun_none xs fun c hc => h c (.inr (.inr hc))
      have hdot := h (Char.ofNat b.toNat) (.inr (.inl rfl))
      have hb' : b = 0x2e := by
        rw [← UInt8.toNat_inj, ← toNat_ofNat_ascii hb, hdot]
        rfl
      refine ⟨rfl, ?_⟩
      rw [lossyFrom, List.nil_append, List.length_cons, List.replicate_succ, ← hxs, hb']
    · obtain ⟨out, st', hcons, hout, hst', hsome⟩ := lossyFrom_high hst hb
      rw [hcons] at h
      simp only [List.mem_append] at h
      have hnil : out = [] := by
        cases out with
        | nil => rfl
        | cons c out =>
          have hc := h c (.inl List.mem_cons_self)
          exact absurd (hc ▸ rfl) (hout c List.mem_cons_self).1
      exact absurd (eq_dots hst' xs fun c hc => h c (.inr hc)).1 (hsome hnil)

theorem fromUtf8Lossy_parentDir {bytes : Bytes} : fromUtf8Lossy bytes = ['.', '.'] ↔ bytes = parentDir := by
  constructor
  · intro h
    have hdots := (eq_dots begun_none bytes fun c hc => by
      rw [show lossyFrom none bytes = ['.', '.'] from h] at hc
      simpa using hc).2
    rw [show lossyFrom none bytes = ['.', '.'] from h] at hdots
    exact hdots
  · rintro rfl
    decide

/-! ## The check -/

theorem parentDir_not_mem_splitOn {name : List Char} (hne : name ≠ ['.', '.'])
    (hends : ¬ (['.', '.', '/'] <+: name ∨ ['/', '.', '.'] <:+ name)) (hmid : ¬ ['/', '.', '.', '/'] <:+: name) :
    ['.', '.'] ∉ name.splitOn '/' := by
  intro h
  rcases (mem_splitOn.mp h).2 with h | h | h | h
  · exact hne h
  · exact hends (.inl h)
  · exact hends (.inr h)
  · exact hmid h

theorem containsPathTraversal_iff (name : List Char) :
    containsPathTraversal name = true ↔ ['.', '.'] ∈ name.splitOn '/' := by
  have hsep : '/' ∉ ['.', '.'] := by decide
  fun_induction containsPathTraversal name with
  | case1 => decide
  | case2 name hne hends => exact iff_of_true rfl (mem_splitOn.mpr ⟨hsep, .inr (hends.imp id .inl)⟩)
  | case3 name hne hends hmid => exact iff_of_true rfl (mem_splitOn.mpr ⟨hsep, .inr (.inr (.inr hmid))⟩)
  | case4 c rest hc hne hends hmid ih =>
    -- the leading `.` is a component of its own
    have hdot : ['.', '.'] ∉ ['.'].splitOn '/' := by decide
    exact ih.trans ((mem_splitOn_append_cons ['.'] (c :: rest)).trans (or_iff_right hdot)).symm
  | case5 c rest hc hne hends hmid => exact iff_of_false Bool.false_ne_true (parentDir_not_mem_splitOn hne hends hmid)
  | case6 name hne hends hmid hrest => exact iff_of_false Bool.false_ne_true (parentDir_not_mem_splitOn hne hends hmid)

theorem containsPathTraversal_dotSlash (name : List Char) :
    containsPathTraversal ('.' :: '/' :: name) = containsPathTraversal name := by
  have hdot : ['.', '.'] ∉ ['.'].splitOn '/' := by decide
  rw [Bool.eq_iff_iff, containsPathTraversal_iff, containsPathTraversal_iff]
  exact (mem_splitOn_append_cons ['.'] name).trans (or_iff_right hdot)

/-- The check on a string: exact, blind to a leading `./`, and silent about dots inside a component. -/
theorem containsPathTraversal_exact :
    (∀ s : String, containsPathTraversal s.toList = true ↔ "..".toList ∈ s.toList.splitOn '/') ∧
      (∀ s : String, containsPathTraversal ("./" ++ s).toList = containsPathTraversal s.toList) ∧
      containsPathTraversal "..valid..name..".toList = false ∧ containsPathTraversal "a/..b".toList = false := by
  refine ⟨?_, ?_, by decide, by decide⟩
  · intro s
    exact containsPathTraversal_iff s.toList
  · intro s
    rw [String.toList_append]
    exact containsPathTraversal_dotSlash s.toList

theorem splitOn_fromUtf8Lossy (bytes : Bytes) :
    (fromUtf8Lossy bytes).splitOn '/' = (bytes.splitOn separator).map fromUtf8Lossy :=
  splitOn_map (lossyFrom_append_separator begun_none) (separator_not_mem begun_none) bytes

/-- The check finds the components `..` of a name's bytes. -/
theorem containsPathTraversal_fromUtf8Lossy (bytes : Bytes) :
    containsPathTraversal (fromUtf8Lossy bytes) = true ↔ Traverses bytes := by
  unfold Traverses
  rw [containsPathTraversal_iff, splitOn_fromUtf8Lossy, List.mem_map]
  constructor
  · rintro ⟨part, hpart, h⟩
    rwa [← fromUtf8Lossy_parentDir.mp h]
  · exact fun h => ⟨parentDir, h, fromUtf8Lossy_parentDir.mpr rfl⟩

end Ziftsieve.Tarball
