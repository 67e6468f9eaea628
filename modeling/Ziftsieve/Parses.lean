import Ziftsieve.Triples

/-!
# What a run has read

A computation reads its input through a state that stands at a position. One
judgement says of every run that succeeds which piece of the input lies between
the position before it and the position after: what its value was read from. The
other says that a run succeeds on these pieces and on no others: the computation
recognizes a grammar. Each step of a run has one rule.
-/

namespace Ziftsieve

/-- The states that stand at a position of an input. -/
structure InputView (σ γ : Type) where
  input : List γ
  stands : Nat → σ → Prop
  le : ∀ {p : Nat} {s : σ}, stands p s → p ≤ input.length

section
variable {ε σ γ α β : Type}

def Parses (V : InputView σ γ) (p : Nat) (m : ExceptT (Stop ε) (StateM σ) α) (Q : α → List γ → Prop) : Prop :=
  ∀ s a t, V.stands p s → m s = (.ok a, t) →
    ∃ w rest, At V.input p (w ++ rest) ∧ V.stands (p + w.length) t ∧ Q a w

variable {V : InputView σ γ} {p : Nat} {m : ExceptT (Stop ε) (StateM σ) α} {f : α → ExceptT (Stop ε) (StateM σ) β}
variable {Q : α → List γ → Prop} {R : β → List γ → Prop}

theorem Parses.pure {a : α} (h : Q a []) : Parses V p (pure a : ExceptT (Stop ε) (StateM σ) α) Q := by
  intro s b t hs hrun
  cases hrun
  exact ⟨[], V.input.drop p, ⟨V.le hs, rfl⟩, hs, h⟩

theorem Parses.stop (e : Stop ε) : Parses V p (Stops.stop e : ExceptT (Stop ε) (StateM σ) α) Q := by
  intro s a t _ hrun
  cases hrun

theorem Parses.fail (e : ε) : Parses V p (fail e : ExceptT (Stop ε) (StateM σ) α) Q := Parses.stop _

/-- What follows a step may look back at what the step has read. -/
theorem Parses.bind_at (hm : Parses V p m Q)
    (hf : ∀ a w rest, At V.input p (w ++ rest) → Q a w → Parses V (p + w.length) (f a) fun b v => R b (w ++ v)) :
    Parses V p (m >>= f) R := by
  intro s b u hs hrun
  obtain ⟨a, t, hmt, hfu⟩ := bind_eq_ok.mp hrun
  obtain ⟨w, rest, hat, ht, hq⟩ := hm s a t hs hmt
  obtain ⟨v, rest', hat', hu, hr⟩ := hf a w rest hat hq t b u ht hfu
  refine ⟨w ++ v, rest', ⟨hat.le, ?_⟩, ?_, hr⟩
  · rw [hat.drop, List.append_assoc, ← hat'.drop, ← hat.skip.drop]
  · rw [List.length_append, ← Nat.add_assoc]
    exact hu

theorem Parses.bind (hm : Parses V p m Q)
    (hf : ∀ a w, Q a w → Parses V (p + w.length) (f a) fun b v => R b (w ++ v)) : Parses V p (m >>= f) R :=
  hm.bind_at fun a w _ _ hq => hf a w hq

theorem Parses.imp {Q' : α → List γ → Prop} (hm : Parses V p m Q) (h : ∀ a w, Q a w → Q' a w) : Parses V p m Q' := by
  intro s a t hs hrun
  obtain ⟨w, rest, hat, ht, hq⟩ := hm s a t hs hrun
  exact ⟨w, rest, hat, ht, h a w hq⟩

/-- What is done with the value after does not change what it was read from. -/
theorem Parses.of_map {g : α → β} {R : β → List γ → Prop}
    (h : Parses V p (m >>= fun a => Pure.pure (g a)) R) : Parses V p m fun a w => R (g a) w := by
  intro s a t hs hrun
  refine h s (g a) t hs ?_
  rw [bind_of_ok hrun]
  rfl

theorem Parses.map {g : α → β} {R : β → List γ → Prop} (h : Parses V p m fun a w => R (g a) w) :
    Parses V p (m >>= fun a => Pure.pure (g a)) R :=
  h.bind fun a w hw => Parses.pure (by rw [List.append_nil]; exact hw)

theorem Parses.failIf {c : Prop} [Decidable c] {e : ε} {k : Unit → ExceptT (Stop ε) (StateM σ) β}
    (hk : ¬ c → Parses V p (k ()) R) : Parses V p (failIf c e >>= k) R := by
  unfold Ziftsieve.failIf
  by_cases h : c
  · rw [if_pos h]
    exact (Parses.fail (Q := fun _ _ => False) e).bind fun _ _ h => h.elim
  · rw [if_neg h]
    exact hk h

theorem Parses.ite {c : Prop} [Decidable c] {m' : ExceptT (Stop ε) (StateM σ) α} (h : c → Parses V p m Q)
    (h' : ¬ c → Parses V p m' Q) : Parses V p (if c then m else m') Q := by
  by_cases hc : c
  · rw [if_pos hc]; exact h hc
  · rw [if_neg hc]; exact h' hc

end

section
variable {ε σ γ τ ρ : Type} {V : InputView σ γ} {body : τ → ExceptT (Stop ε) (StateM σ) (Turn τ ρ)}

/-- **The loop rule.** `Q` of the position, the loop's state, the result and the piece: a turn that leaves has it, and a
turn that goes round again carries it over from the state it goes on with. -/
theorem Parses.loop {I : Nat → τ → Prop} {Q : Nat → τ → ρ → List γ → Prop}
    (hb : ∀ p x, I p x → Parses V p (body x) fun turn w => turn.Holds
      (fun y => I (p + w.length) y ∧ ∀ r v, Q (p + w.length) y r v → Q p x r (w ++ v)) fun r => Q p x r w) :
    ∀ (n : Nat) {p : Nat} {x : τ}, I p x → Parses V p (loop body n x) (Q p x)
  | 0, _, _, _ => Parses.stop .fuel
  | n + 1, p, x, hI => by
    rw [Ziftsieve.loop]
    refine (hb p x hI).bind fun turn w h => ?_
    cases turn with
    | done r =>
      refine Parses.pure ?_
      rw [List.append_nil]
      exact h
    | next y => exact (Parses.loop hb n h.1).imp h.2

end

/-! ## Recognizing a grammar -/

section
variable {ε σ γ α β : Type}

/-- Between two positions a run gives `a` exactly when `Q` has the piece between them for it. -/
structure Recognizes (V : InputView σ γ) (p : Nat) (m : ExceptT (Stop ε) (StateM σ) α) (Q : α → List γ → Prop) :
    Prop where
  parses : Parses V p m Q
  yields : ∀ {a w rest}, Q a w → At V.input p (w ++ rest) → Yields (V.stands p) m a (V.stands (p + w.length))

variable {V : InputView σ γ} {p : Nat} {m : ExceptT (Stop ε) (StateM σ) α} {f : α → ExceptT (Stop ε) (StateM σ) β}
variable {Q : α → List γ → Prop}

theorem Recognizes.congr {Q' : α → List γ → Prop} (h : Recognizes V p m Q) (hQ : ∀ a w, Q a w ↔ Q' a w) :
    Recognizes V p m Q' where
  parses := h.parses.imp fun a w => (hQ a w).mp
  yields hq := h.yields ((hQ _ _).mpr hq)

theorem Recognizes.pure (a : α) :
    Recognizes V p (pure a : ExceptT (Stop ε) (StateM σ) α) fun b w => b = a ∧ w = [] where
  parses := Parses.pure ⟨rfl, rfl⟩
  yields := by
    rintro b w rest ⟨rfl, rfl⟩ _
    exact Yields.pure

theorem Recognizes.fail (e : ε) : Recognizes V p (fail e : ExceptT (Stop ε) (StateM σ) α) fun _ _ => False where
  parses := Parses.fail e
  yields h := h.elim

theorem Recognizes.bind_at {R : α → List γ → β → List γ → Prop} (hm : Recognizes V p m Q)
    (hf : ∀ a w rest, At V.input p (w ++ rest) → Q a w → Recognizes V (p + w.length) (f a) (R a w)) :
    Recognizes V p (m >>= f) fun b u => ∃ a w v, Q a w ∧ R a w b v ∧ u = w ++ v where
  parses := hm.parses.bind_at fun a w rest hat hq =>
    ((hf a w rest hat hq).parses).imp fun b v hr => ⟨a, w, v, hq, hr, rfl⟩
  yields := by
    rintro b u rest ⟨a, w, v, hq, hr, rfl⟩ hat
    rw [List.append_assoc] at hat
    rw [List.length_append, ← Nat.add_assoc]
    exact (hm.yields hq hat).bind ((hf a w (v ++ rest) hat hq).yields hr hat.skip)

theorem Recognizes.bind {R : α → List γ → β → List γ → Prop} (hm : Recognizes V p m Q)
    (hf : ∀ a w, Q a w → Recognizes V (p + w.length) (f a) (R a w)) :
    Recognizes V p (m >>= f) fun b u => ∃ a w v, Q a w ∧ R a w b v ∧ u = w ++ v :=
  hm.bind_at fun a w _ _ hq => hf a w hq

theorem Recognizes.failIf (c : Prop) [Decidable c] (e : ε) :
    Recognizes V p (failIf c e : ExceptT (Stop ε) (StateM σ) Unit) fun _ w => ¬ c ∧ w = [] := by
  unfold Ziftsieve.failIf
  by_cases h : c
  · rw [if_pos h]
    exact (Recognizes.fail e).congr fun _ _ => ⟨False.elim, fun hc => hc.1 h⟩
  · rw [if_neg h]
    exact (Recognizes.pure ()).congr fun _ w => ⟨fun hw => ⟨h, hw.2⟩, fun hw => ⟨rfl, hw.2⟩⟩

theorem Recognizes.ite {c : Prop} [Decidable c] {m' : ExceptT (Stop ε) (StateM σ) α} {Q' : α → List γ → Prop}
    (h : c → Recognizes V p m Q) (h' : ¬ c → Recognizes V p m' Q') :
    Recognizes V p (if c then m else m') fun a w => if c then Q a w else Q' a w := by
  by_cases hc : c
  · simp only [if_pos hc]
    exact h hc
  · simp only [if_neg hc]
    exact h' hc

/-- **What is recognized is read in one way.** No piece that is recognized goes on to another one, and each has one
value, where a state stands at one position only. -/
theorem Recognizes.unique (h : Recognizes V p m Q) (hpos : ∀ {q r s}, V.stands q s → V.stands r s → q = r) {s : σ}
    (hs : V.stands p s) {a b : α} {w v x y : List γ} (hw : Q a w) (hv : Q b v) (hat : At V.input p (w ++ x))
    (heq : w ++ x = v ++ y) : a = b ∧ w = v ∧ x = y := by
  obtain ⟨t, hrun, ht⟩ := h.yields hw hat s hs
  rw [heq] at hat
  obtain ⟨t', hrun', ht'⟩ := h.yields hv hat s hs
  rw [hrun] at hrun'
  cases hrun'
  have hlen := hpos ht ht'
  obtain ⟨rfl, rfl⟩ := List.append_inj heq (by omega)
  exact ⟨rfl, rfl, rfl⟩

end

section
variable {ε σ γ τ ρ : Type} {V : InputView σ γ} {body : τ → ExceptT (Stop ε) (StateM σ) (Turn τ ρ)}

/-- The turns of a run, each with the piece it reads. -/
inductive Runs (T : Nat → τ → Turn τ ρ → List γ → Prop) : Nat → τ → ρ → List γ → Prop
  | done {p : Nat} {x : τ} {r : ρ} {w : List γ} : T p x (.done r) w → Runs T p x r w
  | next {p : Nat} {x y : τ} {r : ρ} {w v : List γ} : T p x (.next y) w → Runs T (p + w.length) y r v →
      Runs T p x r (w ++ v)

/-- **The loop rule.** Within its fuel a loop recognizes the runs of what its turns recognize. -/
theorem Recognizes.loop {I : Nat → τ → Prop} {μ : τ → Nat} {T : Nat → τ → Turn τ ρ → List γ → Prop}
    (hb : ∀ p x, I p x → Recognizes V p (body x) (T p x))
    (hI : ∀ p x y w, I p x → T p x (.next y) w → I (p + w.length) y ∧ μ y < μ x) :
    ∀ (n : Nat) {p : Nat} {x : τ}, I p x → μ x < n → Recognizes V p (loop body n x) (Runs T p x)
  | 0, _, _, _, h => absurd h (Nat.not_lt_zero _)
  | n + 1, p, x, hx, hμ => by
    constructor
    · rw [Ziftsieve.loop]
      refine (hb p x hx).parses.bind fun turn w h => ?_
      cases turn with
      | done r =>
        refine Parses.pure ?_
        rw [List.append_nil]
        exact Runs.done h
      | next y =>
        obtain ⟨hy, hlt⟩ := hI p x y w hx h
        exact (Recognizes.loop hb hI n hy (by omega)).parses.imp fun r v hv => Runs.next h hv
    · intro r w rest hrun hat
      cases hrun with
      | done h => exact ((hb p x hx).yields h hat).loop_done
      | @next _ _ y _ w v h hv =>
        obtain ⟨hy, hlt⟩ := hI p x y w hx h
        rw [List.append_assoc] at hat
        rw [List.length_append, ← Nat.add_assoc]
        exact ((hb p x hx).yields h hat).loop_next
          ((Recognizes.loop hb hI n hy (by omega)).yields hv hat.skip)

end

end Ziftsieve
