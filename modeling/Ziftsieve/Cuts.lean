import Ziftsieve.Triples

/-!
# Runs over a whole input and over a part of it

A computation reads its input through a state that stands at a position. It
tracks its input when a run that succeeds moves on, and gives the same result
from the state that stands at the same position of the input cut off at a limit,
as long as it ends within the limit; when it ends past it, the run over the part
ends in an error. Each step of a run has one rule.
-/

namespace Ziftsieve

/-- The states that stand at a position of the whole input, and of the part before the limit. -/
structure CutView (σ : Type) where
  whole : Nat → σ → Prop
  cut : Nat → σ → Prop
  limit : Nat
  cut_le : ∀ {p : Nat} {s : σ}, cut p s → p ≤ limit

section
variable {ε σ α β : Type}

/-- Where the run over the part ends, when the one over the whole ends at `q` with `a`. -/
structure Follows (V : CutView σ) (q : Nat) (a : α) (run : Except (Stop ε) α × σ) : Prop where
  within : q ≤ V.limit → ∃ t, run = (.ok a, t) ∧ V.cut q t
  beyond : V.limit < q → ∃ e t, run = (.error (.err e), t)

def Tracks (V : CutView σ) (p : Nat) (m : ExceptT (Stop ε) (StateM σ) α) (Q : Nat → α → Prop) : Prop :=
  ∀ s a t, V.whole p s → m s = (.ok a, t) →
    ∃ q, p ≤ q ∧ V.whole q t ∧ Q q a ∧ ∀ s', V.cut p s' → Follows V q a (m s')

variable {V : CutView σ} {p : Nat} {m : ExceptT (Stop ε) (StateM σ) α} {f : α → ExceptT (Stop ε) (StateM σ) β}
variable {Q : Nat → α → Prop} {R : Nat → β → Prop}

theorem Follows.here {a : α} {s : σ} (h : V.cut p s) : Follows V p a ((.ok a : Except (Stop ε) α), s) :=
  ⟨fun _ => ⟨s, rfl, h⟩, fun hlt => absurd (V.cut_le h) (Nat.not_le.mpr hlt)⟩

theorem Tracks.pure {a : α} (h : Q p a) : Tracks V p (pure a : ExceptT (Stop ε) (StateM σ) α) Q := by
  intro s b t hs hrun
  cases hrun
  exact ⟨p, Nat.le_refl p, hs, h, fun s' hs' => Follows.here hs'⟩

theorem Tracks.stop (e : Stop ε) : Tracks V p (Stops.stop e : ExceptT (Stop ε) (StateM σ) α) Q := by
  intro s a t _ hrun
  cases hrun

theorem Tracks.fail (e : ε) : Tracks V p (fail e : ExceptT (Stop ε) (StateM σ) α) Q := Tracks.stop _

theorem Tracks.bind (hm : Tracks V p m Q) (hf : ∀ q a, p ≤ q → Q q a → Tracks V q (f a) R) : Tracks V p (m >>= f) R := by
  intro s b u hs hrun
  obtain ⟨a, t, hmt, hfu⟩ := bind_eq_ok.mp hrun
  obtain ⟨q, hpq, ht, hq, hcut⟩ := hm s a t hs hmt
  obtain ⟨q', hqq, hu, hr, hcut'⟩ := hf q a hpq hq t b u ht hfu
  refine ⟨q', Nat.le_trans hpq hqq, hu, hr, fun s' hs' => ?_⟩
  by_cases hlim : q ≤ V.limit
  · obtain ⟨t', hmt', ht'⟩ := (hcut s' hs').within hlim
    rw [bind_of_ok hmt']
    exact hcut' t' ht'
  · obtain ⟨e, t', hmt'⟩ := (hcut s' hs').beyond (Nat.lt_of_not_le hlim)
    refine ⟨fun hle => absurd (Nat.le_trans hqq hle) hlim, fun _ => ⟨e, t', bind_of_error hmt'⟩⟩

theorem Tracks.imp {Q' : Nat → α → Prop} (hm : Tracks V p m Q) (h : ∀ q a, p ≤ q → Q q a → Q' q a) :
    Tracks V p m Q' := by
  intro s a t hs hrun
  obtain ⟨q, hpq, ht, hq, hcut⟩ := hm s a t hs hrun
  exact ⟨q, hpq, ht, h q a hpq hq, hcut⟩

theorem Tracks.failIf {c : Prop} [Decidable c] {e : ε} {k : Unit → ExceptT (Stop ε) (StateM σ) β}
    (hk : ¬ c → Tracks V p (k ()) R) : Tracks V p (failIf c e >>= k) R := by
  unfold Ziftsieve.failIf
  by_cases h : c
  · rw [if_pos h]
    exact (Tracks.fail (Q := fun _ _ => False) e).bind fun _ _ _ h => h.elim
  · rw [if_neg h]
    exact hk h

theorem Tracks.check {c : Prop} [Decidable c] {Q : Nat → Unit → Prop} (e : ε) (h : ¬ c → Q p ()) :
    Tracks V p (Ziftsieve.failIf c e : ExceptT (Stop ε) (StateM σ) Unit) Q := by
  unfold Ziftsieve.failIf
  by_cases hc : c
  · rw [if_pos hc]
    exact Tracks.fail e
  · rw [if_neg hc]
    exact Tracks.pure (h hc)

theorem Tracks.ite {c : Prop} [Decidable c] {m' : ExceptT (Stop ε) (StateM σ) α} (h : c → Tracks V p m Q)
    (h' : ¬ c → Tracks V p m' Q) : Tracks V p (if c then m else m') Q := by
  by_cases hc : c
  · rw [if_pos hc]; exact h hc
  · rw [if_neg hc]; exact h' hc

theorem Tracks.foldlM {g : β → α → ExceptT (Stop ε) (StateM σ) β} {I : Nat → β → Prop} : ∀ {l : List α} {p : Nat} {b : β},
    (∀ p b a, a ∈ l → I p b → Tracks V p (g b a) I) → I p b → Tracks V p (l.foldlM g b) I
  | [], _, _, _, hI => Tracks.pure hI
  | a :: l, p, b, hg, hI => by
    rw [List.foldlM_cons]
    exact (hg p b a List.mem_cons_self hI).bind fun q b' _ hb' =>
      Tracks.foldlM (fun p c a' h => hg p c a' (List.mem_cons_of_mem _ h)) hb'

end

section
variable {ε σ τ ρ : Type} {V : CutView σ} {body : τ → ExceptT (Stop ε) (StateM σ) (Turn τ ρ)}

/-- **The invariant rule.** The invariant is of the position and the loop's own state. -/
theorem Tracks.loop {I : Nat → τ → Prop} {Q : Nat → ρ → Prop}
    (hb : ∀ p x, I p x → Tracks V p (body x) fun q turn => turn.Holds (I q) (Q q)) :
    ∀ (n : Nat) {p : Nat} {x : τ}, I p x → Tracks V p (loop body n x) Q
  | 0, _, _, _ => Tracks.stop .fuel
  | n + 1, p, x, hI => by
    rw [Ziftsieve.loop]
    refine (hb p x hI).bind fun q turn _ h => ?_
    cases turn with
    | done r => exact Tracks.pure h
    | next y => exact Tracks.loop hb n h

end

end Ziftsieve
