import Mathlib.Data.List.Infix

/-!
# The parts of a list between separators

A word is one of the parts exactly when it has no separator and stands between
two ends, each the list's own or a separator.
-/

namespace Ziftsieve

section
variable {α β : Type} [BEq α] [LawfulBEq α] [BEq β] [LawfulBEq β] {a : α} {b : β} {w : List α}

theorem splitOn_induction {P : List α → List (List α) → Prop} (last : ∀ l, a ∉ l → P l [l])
    (more : ∀ xs ys, a ∉ xs → P ys (ys.splitOn a) → P (xs ++ a :: ys) (xs :: ys.splitOn a)) (l : List α) :
    P l (l.splitOn a) := by
  by_cases h : a ∈ l
  · obtain ⟨xs, ys, rfl, hxs⟩ := List.eq_append_cons_of_mem h
    rw [List.splitOn_append_cons_self_of_not_mem hxs]
    exact more xs ys hxs (splitOn_induction last more ys)
  · rw [List.splitOn_eq_singleton h]
    exact last l h
termination_by l.length
decreasing_by subst_vars; simp; omega

theorem mem_splitOn {l : List α} : w ∈ l.splitOn a ↔
    a ∉ w ∧ (l = w ∨ w ++ [a] <+: l ∨ a :: w <:+ l ∨ a :: w ++ [a] <:+: l) := by
  constructor
  · refine splitOn_induction (P := fun l ws => w ∈ ws → a ∉ w ∧ (l = w ∨ w ++ [a] <+: l ∨ a :: w <:+ l ∨
      a :: w ++ [a] <:+: l)) ?_ ?_ l
    · intro l hl hw
      rw [List.mem_singleton] at hw
      subst hw
      exact ⟨hl, .inl rfl⟩
    · intro xs ys hxs ih hw
      rcases List.mem_cons.mp hw with rfl | hw
      · exact ⟨hxs, .inr (.inl ⟨ys, by simp⟩)⟩
      obtain ⟨hsep, h⟩ := ih hw
      have hsuffix : a :: ys <:+ xs ++ a :: ys := List.suffix_append xs (a :: ys)
      refine ⟨hsep, .inr (.inr ?_)⟩
      rcases h with rfl | hp | hs | hi
      · exact .inl hsuffix
      · exact .inr ((List.prefix_cons_inj a).mpr hp |>.isInfix.trans hsuffix.isInfix)
      · exact .inl ((hs.trans (List.suffix_cons a ys)).trans hsuffix)
      · exact .inr ((hi.trans (List.suffix_cons a ys).isInfix).trans hsuffix.isInfix)
  · rintro ⟨hw, rfl | ⟨ys, rfl⟩ | ⟨xs, rfl⟩ | ⟨xs, ys, rfl⟩⟩
    · rw [List.splitOn_eq_singleton hw]
      exact List.mem_singleton_self l
    · rw [List.append_assoc, List.singleton_append, List.splitOn_append_cons_self_of_not_mem hw]
      exact List.mem_cons_self
    · rw [List.splitOn_append_cons_self, List.splitOn_eq_singleton hw]
      simp
    · rw [List.append_assoc, List.append_assoc, List.cons_append, List.singleton_append,
        List.splitOn_append_cons_self, List.splitOn_append_cons_self_of_not_mem hw]
      simp

theorem mem_splitOn_append_cons (xs ys : List α) :
    w ∈ (xs ++ a :: ys).splitOn a ↔ w ∈ xs.splitOn a ∨ w ∈ ys.splitOn a := by
  rw [List.splitOn_append_cons_self, List.mem_append]

/-- A map that keeps separators, and makes none, maps the parts. -/
theorem splitOn_map {f : List α → List β} (hsep : ∀ xs ys, f (xs ++ a :: ys) = f xs ++ b :: f ys)
    (hnone : ∀ xs, a ∉ xs → b ∉ f xs) (l : List α) : (f l).splitOn b = (l.splitOn a).map f := by
  refine splitOn_induction (P := fun l ws => (f l).splitOn b = ws.map f) ?_ ?_ l
  · intro l hl
    rw [List.splitOn_eq_singleton (hnone l hl)]
    rfl
  · intro xs ys hxs ih
    rw [hsep, List.splitOn_append_cons_self_of_not_mem (hnone xs hxs), ih, List.map_cons]

end

end Ziftsieve
