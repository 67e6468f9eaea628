import Ziftsieve.Cuts

/-!
# What a run shows

A trace lists what the steps of a run show, each from the state it starts in. It
is read off the run's own computations, so it says nothing about runs that the
computations do not make. What a run that succeeds shows is related to its
value, and to the position it ends at, step by step.
-/

namespace Ziftsieve

section
variable {ε σ τ ρ α β γ : Type}

/-- What is shown from where `m` ends, and nothing when it stops. -/
def seen (m : ExceptT (Stop ε) (StateM σ) α) (f : α → σ → List γ) (s : σ) : List γ :=
  match m s with
  | (.ok a, t) => f a t
  | (.error _, _) => []

/-- What the turns of a loop show. -/
def loopTrace (body : τ → ExceptT (Stop ε) (StateM σ) (Turn τ ρ)) (shown : τ → σ → List γ) : Nat → τ → σ → List γ
  | 0, _, _ => []
  | n + 1, x, s => shown x s ++ seen (body x) (fun turn => match turn with
    | .done _ => fun _ => []
    | .next y => loopTrace body shown n y) s

variable {m : ExceptT (Stop ε) (StateM σ) α} {f : α → ExceptT (Stop ε) (StateM σ) β} {w : σ → List γ}

theorem seen_of_ok {g : α → σ → List γ} {s t : σ} {a : α} (h : m s = (.ok a, t)) : seen m g s = g a t := by
  unfold seen
  rw [h]

section
variable {P Q : σ → Prop} {a : α} {g : α → σ → List γ} {l : List γ} {s : σ}

theorem seen_yields (hm : Yields P m a Q) (hg : ∀ t, Q t → g a t = l) (hs : P s) : seen m g s = l := by
  obtain ⟨t, hmt, ht⟩ := hm s hs
  rw [seen_of_ok hmt, hg t ht]

variable {body : τ → ExceptT (Stop ε) (StateM σ) (Turn τ ρ)} {shown : τ → σ → List γ} {n : Nat} {x y : τ} {r : ρ}

theorem loopTrace_next (hb : Yields P (body x) (.next y) Q) (hl : ∀ t, Q t → loopTrace body shown n y t = l)
    (hs : P s) : loopTrace body shown (n + 1) x s = shown x s ++ l := by
  rw [loopTrace, seen_yields hb hl hs]

theorem loopTrace_done (hb : Yields P (body x) (.done r) Q) (hs : P s) :
    loopTrace body shown (n + 1) x s = shown x s := by
  rw [loopTrace, seen_yields (l := []) hb (fun _ _ => rfl) hs, List.append_nil]

end

/-! ## Traces of runs that succeed -/

/-- From position `p`, the run's position, its value and what it shows are as in `Q`. -/
def Shows (V : CutView σ) (p : Nat) (m : ExceptT (Stop ε) (StateM σ) α) (w : σ → List γ)
    (Q : Nat → α → List γ → Prop) : Prop :=
  ∀ s a t, V.whole p s → m s = (.ok a, t) → ∃ q, p ≤ q ∧ V.whole q t ∧ Q q a (w s)

variable {V : CutView σ} {p : Nat} {Q : Nat → α → List γ → Prop} {R : Nat → β → List γ → Prop}

theorem Shows.stop (e : Stop ε) : Shows V p (Stops.stop e : ExceptT (Stop ε) (StateM σ) α) w Q := by
  intro s a t _ hrun
  cases hrun

theorem Shows.const {l : List γ} (h : Tracks V p m fun q a => Q q a l) : Shows V p m (fun _ => l) Q := by
  intro s a t hs hrun
  obtain ⟨q, hpq, ht, hq, -⟩ := h s a t hs hrun
  exact ⟨q, hpq, ht, hq⟩

theorem Shows.const_at {l : List γ} (hw : ∀ s, V.whole p s → w s = l) (h : Tracks V p m fun q a => Q q a l) :
    Shows V p m w Q := by
  intro s a t hs hrun
  obtain ⟨q, hpq, ht, hq, -⟩ := h s a t hs hrun
  rw [hw s hs]
  exact ⟨q, hpq, ht, hq⟩

theorem Shows.seen {T : Nat → α → Prop} {g : α → σ → List γ} (hm : Tracks V p m T)
    (hf : ∀ q a, p ≤ q → T q a → Shows V q (f a) (g a) R) : Shows V p (m >>= f) (seen m g) R := by
  intro s b u hs hrun
  obtain ⟨a, t, hmt, hfu⟩ := bind_eq_ok.mp hrun
  obtain ⟨q, hpq, ht, hq, -⟩ := hm s a t hs hmt
  obtain ⟨q', hqq, hu, hr⟩ := hf q a hpq hq t b u ht hfu
  rw [seen_of_ok hmt]
  exact ⟨q', Nat.le_trans hpq hqq, hu, hr⟩

theorem Shows.andThen (hm : Shows V p m w Q)
    (hf : ∀ q a l, p ≤ q → Q q a l → Tracks V q (f a) fun r b => R r b l) : Shows V p (m >>= f) w R := by
  intro s b u hs hrun
  obtain ⟨a, t, hmt, hfu⟩ := bind_eq_ok.mp hrun
  obtain ⟨q, hpq, ht, hq⟩ := hm s a t hs hmt
  obtain ⟨q', hqq, hu, hr, -⟩ := hf q a _ hpq hq t b u ht hfu
  exact ⟨q', Nat.le_trans hpq hqq, hu, hr⟩

theorem Shows.imp {Q' : Nat → α → List γ → Prop} (hm : Shows V p m w Q) (h : ∀ q a l, p ≤ q → Q q a l → Q' q a l) :
    Shows V p m w Q' := by
  intro s a t hs hrun
  obtain ⟨q, hpq, ht, hq⟩ := hm s a t hs hrun
  exact ⟨q, hpq, ht, h q a _ hpq hq⟩

theorem Shows.ite {c : Prop} [Decidable c] {m' : ExceptT (Stop ε) (StateM σ) α} {w' : σ → List γ} (h : c → Shows V p m w Q)
    (h' : ¬ c → Shows V p m' w' Q) : Shows V p (if c then m else m') (if c then w else w') Q := by
  by_cases hc : c
  · rw [if_pos hc, if_pos hc]; exact h hc
  · rw [if_neg hc, if_neg hc]; exact h' hc

theorem Shows.guarded {c : Prop} [Decidable c] {m' : ExceptT (Stop ε) (StateM σ) α} (h : c → Shows V p m w Q)
    (h' : ¬ c → Shows V p m' w Q) : Shows V p (if c then m else m') w Q := by
  by_cases hc : c
  · rw [if_pos hc]; exact h hc
  · rw [if_neg hc]; exact h' hc

/-- **The invariant rule.** The invariant is of the position, the loop's own state and what was shown. -/
theorem Shows.loop {body : τ → ExceptT (Stop ε) (StateM σ) (Turn τ ρ)} {shown : τ → σ → List γ}
    {I : Nat → τ → List γ → Prop} {Q : Nat → ρ → List γ → Prop}
    (hb : ∀ p x l, I p x l → Shows V p (body x) (shown x) fun q turn k =>
      turn.Holds (fun y => I q y (l ++ k)) fun r => Q q r (l ++ k)) :
    ∀ (n : Nat) {p : Nat} {x : τ} {l : List γ}, I p x l →
      Shows V p (loop body n x) (loopTrace body shown n x) fun q r k => Q q r (l ++ k)
  | 0, _, _, _, _ => Shows.stop .fuel
  | n + 1, p, x, l, hI => by
    intro s r u hs hrun
    rw [Ziftsieve.loop] at hrun
    obtain ⟨turn, t, hbody, hrest⟩ := bind_eq_ok.mp hrun
    obtain ⟨q, hpq, ht, hturn⟩ := hb p x l hI s turn t hs hbody
    simp only [loopTrace, seen_of_ok hbody, ← List.append_assoc]
    cases turn with
    | done r' =>
      cases hrest
      rw [List.append_nil]
      exact ⟨q, hpq, ht, hturn⟩
    | next y =>
      obtain ⟨q', hqq, hu, hr⟩ := Shows.loop hb n hturn t r u ht hrest
      exact ⟨q', Nat.le_trans hpq hqq, hu, hr⟩

end

/-- A relation between where a part of a run starts, where it ends and what it shows, that parts
one after the other are in together, and that leaves room at both ends. -/
structure Composes {ι γ : Type} (J : Nat → ι → Nat → ι → List γ → Prop) : Prop where
  refl : ∀ p x, J p x p x []
  trans : ∀ {p q r x y z l k}, J p x q y l → J q y r z k → J p x r z (l ++ k)
  widen : ∀ {p p' q q' x y l}, p' ≤ p → q ≤ q' → J p x q y l → J p' x q' y l

theorem Composes.comap {ι κ γ : Type} {J : Nat → ι → Nat → ι → List γ → Prop} (hJ : Composes J) (f : κ → ι) :
    Composes fun p x q y l => J p (f x) q (f y) l where
  refl p x := hJ.refl p (f x)
  trans := hJ.trans
  widen := hJ.widen

/-- A loop is in the relation when its turns are. -/
theorem Composes.loop {ε σ τ ρ ι γ : Type} {J : Nat → ι → Nat → ι → List γ → Prop} (hJ : Composes J) {V : CutView σ}
    {body : τ → ExceptT (Stop ε) (StateM σ) (Turn τ ρ)} {shown : τ → σ → List γ} {c : τ → ι} {c' : ρ → ι}
    (hb : ∀ p x, Shows V p (body x) (shown x) fun q turn l =>
      turn.Holds (fun y => J p (c x) q (c y) l) fun r => J p (c x) q (c' r) l) {p : Nat} (n : Nat) (x : τ) :
    Shows V p (Ziftsieve.loop body n x) (loopTrace body shown n x) fun q r l => J p (c x) q (c' r) l := by
  refine Shows.loop (I := fun q y l => J p (c x) q (c y) l) (x := x) (l := []) (fun q y l hy => ?_) n (hJ.refl _ _)
  refine (hb q y).imp fun q' turn l' _ hturn => ?_
  cases turn with
  | next z => exact hJ.trans hy hturn
  | done r => exact hJ.trans hy hturn

end Ziftsieve
