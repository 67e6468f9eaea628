import Mathlib.Data.List.Infix

/-!
# Sequences and their expansion

The output of a dictionary coder of the LZ77 family: runs of literals, and
matches that copy from the output so far, possibly from what they are just
writing. Whatever the matches are, every element of the output was a literal
once.
-/

namespace Ziftsieve.Lz77

variable {α : Type}

/-- `n` times the element `off` back. -/
def copyBack (off : Nat) : Nat → List α → List α
  | 0, out => out
  | n + 1, out => copyBack off n (out ++ (out[out.length - off]?).toList)

structure Sequence (α : Type) where
  literals : List α
  offset : Nat
  matchLen : Nat
  deriving Repr, DecidableEq

def expand : List α → List (Sequence α) → List α
  | out, [] => out
  | out, s :: ss => expand (copyBack s.offset s.matchLen (out ++ s.literals)) ss

/-- After `n` elements of output, every match reaches only into what is there. -/
def Reaches : Nat → List (Sequence α) → Prop
  | _, [] => True
  | n, s :: ss =>
    1 ≤ s.offset ∧ s.offset ≤ n + s.literals.length ∧ Reaches (n + s.literals.length + s.matchLen) ss

theorem mem_copyBack {off : Nat} {x : α} : ∀ {n : Nat} {out : List α}, x ∈ copyBack off n out ↔ x ∈ out
  | 0, _ => Iff.rfl
  | n + 1, out => by
    rw [copyBack, mem_copyBack, List.mem_append, Option.mem_toList]
    constructor
    · rintro (h | h)
      · exact h
      · exact List.mem_of_getElem? h
    · exact Or.inl

theorem mem_expand {x : α} : ∀ {ss : List (Sequence α)} {out : List α},
    x ∈ expand out ss ↔ x ∈ out ∨ x ∈ (ss.map (·.literals)).flatten
  | [], out => by simp [expand]
  | s :: ss, out => by
    rw [expand, mem_expand, mem_copyBack, List.mem_append, List.map_cons, List.flatten_cons, List.mem_append,
      or_assoc]

end Ziftsieve.Lz77
