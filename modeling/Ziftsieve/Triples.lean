import Ziftsieve.Cursor

/-!
# Runs over a state

Three judgements about a run that carries a state and can stop: from every state
in `P` it gives the value `a` and ends in `Q`; from every state in `P` it stops
with an error; from the state `s` it ends in a value, with `Q`, or in an error.
Each step of a run has one rule.
-/

namespace Ziftsieve

section
variable {ε σ α β : Type}

def Yields (P : σ → Prop) (m : ExceptT (Stop ε) (StateM σ) α) (a : α) (Q : σ → Prop) : Prop :=
  ∀ s, P s → ∃ t, m s = (.ok a, t) ∧ Q t

def Rejects (P : σ → Prop) (m : ExceptT (Stop ε) (StateM σ) α) : Prop :=
  ∀ s, P s → ∃ e t, m s = (.error (.err e), t)

variable {P Q R : σ → Prop} {m : ExceptT (Stop ε) (StateM σ) α} {f : α → ExceptT (Stop ε) (StateM σ) β} {a : α} {b : β}

theorem bind_apply (s : σ) : (m >>= f) s = ExceptT.bindCont f (m s).1 (m s).2 := rfl

theorem bind_of_ok {s t : σ} (h : m s = (.ok a, t)) : (m >>= f) s = f a t := by
  rw [bind_apply, h]; rfl

theorem bind_of_error {s t : σ} {e : Stop ε} (h : m s = (.error e, t)) : (m >>= f) s = (.error e, t) := by
  rw [bind_apply, h]; rfl

theorem Yields.pure : Yields P (pure a : ExceptT (Stop ε) (StateM σ) α) a P := fun s h => ⟨s, rfl, h⟩

theorem Yields.bind (hm : Yields P m a Q) (hf : Yields Q (f a) b R) : Yields P (m >>= f) b R := by
  intro s hs
  obtain ⟨t, hmt, ht⟩ := hm s hs
  rw [bind_of_ok hmt]
  exact hf t ht

theorem Yields.bind_rejects (hm : Yields P m a Q) (hf : Rejects Q (f a)) : Rejects P (m >>= f) := by
  intro s hs
  obtain ⟨t, hmt, ht⟩ := hm s hs
  rw [bind_of_ok hmt]
  exact hf t ht

theorem Rejects.bind (hm : Rejects P m) : Rejects P (m >>= f) := by
  intro s hs
  obtain ⟨e, t, h⟩ := hm s hs
  exact ⟨e, t, bind_of_error h⟩

theorem Rejects.fail (e : ε) : Rejects P (fail e : ExceptT (Stop ε) (StateM σ) α) := fun s _ => ⟨e, s, rfl⟩

theorem Yields.failIf {c : Prop} [Decidable c] (e : ε) (h : ¬ c) :
    Yields P (failIf c e : ExceptT (Stop ε) (StateM σ) Unit) () P := by
  unfold Ziftsieve.failIf; rw [if_neg h]; exact Yields.pure

theorem Rejects.failIf {c : Prop} [Decidable c] (e : ε) (h : c) :
    Rejects P (failIf c e : ExceptT (Stop ε) (StateM σ) Unit) := by
  unfold Ziftsieve.failIf; rw [if_pos h]; exact Rejects.fail e

theorem Yields.value (h : Yields P m a Q) {s : σ} (hs : P s) : (m s).1 = .ok a := by
  obtain ⟨t, ht, -⟩ := h s hs
  rw [ht]

theorem Rejects.value (h : Rejects P m) {s : σ} (hs : P s) : ∃ e, (m s).1 = .error (.err e) := by
  obtain ⟨e, t, ht⟩ := h s hs
  exact ⟨e, by rw [ht]⟩

end

/-! ## Loops -/

section
variable {ε σ τ ρ : Type} {P Q R : σ → Prop} {body : τ → ExceptT (Stop ε) (StateM σ) (Turn τ ρ)}
variable {n : Nat} {x y : τ} {r : ρ}

theorem Yields.loop_next (hb : Yields P (body x) (.next y) Q) (hl : Yields Q (loop body n y) r R) :
    Yields P (loop body (n + 1) x) r R := by
  rw [Ziftsieve.loop]
  exact hb.bind hl

theorem Yields.loop_done (hb : Yields P (body x) (.done r) Q) : Yields P (loop body (n + 1) x) r Q := by
  rw [Ziftsieve.loop]
  exact hb.bind Yields.pure

theorem Yields.loop_next_rejects (hb : Yields P (body x) (.next y) Q) (hl : Rejects Q (loop body n y)) :
    Rejects P (loop body (n + 1) x) := by
  rw [Ziftsieve.loop]
  exact hb.bind_rejects hl

theorem Rejects.loop (hb : Rejects P (body x)) : Rejects P (loop body (n + 1) x) := by
  rw [Ziftsieve.loop]
  exact hb.bind

end

/-! ## Values or errors -/

structure SafeAt {ε σ α : Type} (m : ExceptT (Stop ε) (StateM σ) α) (s : σ) (Q : α → σ → Prop) : Prop where
  graceful : Graceful (m s).1
  post : ∀ a t, m s = (.ok a, t) → Q a t

section
variable {ε σ α β : Type} {m : ExceptT (Stop ε) (StateM σ) α} {f : α → ExceptT (Stop ε) (StateM σ) β}
variable {Q : α → σ → Prop} {R : β → σ → Prop} {s : σ}

theorem SafeAt.pure {a : α} (h : Q a s) : SafeAt (pure a : ExceptT (Stop ε) (StateM σ) α) s Q :=
  ⟨Graceful.ok a, fun _ _ hp => by cases hp; exact h⟩

theorem SafeAt.of_ok {a : α} {t : σ} (h : m s = (.ok a, t)) (hq : Q a t) : SafeAt m s Q :=
  ⟨by rw [h]; exact Graceful.ok a, fun b u hb => by rw [h] at hb; cases hb; exact hq⟩

theorem SafeAt.of_error {e : ε} {t : σ} (h : m s = (.error (.err e), t)) : SafeAt m s Q :=
  ⟨by rw [h]; exact Graceful.fail e, fun b u hb => by rw [h] at hb; cases hb⟩

theorem SafeAt.fail (e : ε) : SafeAt (fail e : ExceptT (Stop ε) (StateM σ) α) s Q :=
  ⟨Graceful.fail e, fun _ _ hp => by cases hp⟩

/-- What follows a step may assume how the step ran. -/
theorem SafeAt.bind_eq (hm : SafeAt m s Q) (hf : ∀ a t, m s = (.ok a, t) → Q a t → SafeAt (f a) t R) :
    SafeAt (m >>= f) s R := by
  obtain ⟨hg, hp⟩ := hm
  cases hrun : m s with
  | mk x t =>
    cases x with
    | ok a =>
      have hstep : (m >>= f) s = f a t := bind_of_ok hrun
      obtain ⟨hg', hp'⟩ := hf a t hrun (hp a t hrun)
      exact ⟨by rw [hstep]; exact hg', fun b u h => hp' b u (by rw [← hstep]; exact h)⟩
    | error e =>
      obtain ⟨e', rfl⟩ := hg e (by rw [hrun])
      have hstop : (m >>= f) s = (.error (.err e'), t) := bind_of_error hrun
      exact ⟨by rw [hstop]; exact Graceful.fail e', fun b u h => by rw [hstop] at h; cases h⟩

theorem SafeAt.bind (hm : SafeAt m s Q) (hf : ∀ a t, Q a t → SafeAt (f a) t R) : SafeAt (m >>= f) s R :=
  hm.bind_eq fun a t _ h => hf a t h

theorem SafeAt.imp {Q' : α → σ → Prop} (hm : SafeAt m s Q) (h : ∀ a t, Q a t → Q' a t) : SafeAt m s Q' :=
  ⟨hm.graceful, fun a t hp => h a t (hm.post a t hp)⟩

theorem SafeAt.failIf {c : Prop} [Decidable c] {e : ε} {k : Unit → ExceptT (Stop ε) (StateM σ) β}
    (hk : ¬ c → SafeAt (k ()) s R) : SafeAt (failIf c e >>= k) s R := by
  unfold Ziftsieve.failIf
  by_cases h : c
  · rw [if_pos h]
    exact (SafeAt.fail (Q := fun _ _ => False) e).bind fun _ _ h => h.elim
  · rw [if_neg h]
    exact hk h

theorem SafeAt.ite {c : Prop} [Decidable c] {m' : ExceptT (Stop ε) (StateM σ) α} (h : c → SafeAt m s Q)
    (h' : ¬ c → SafeAt m' s Q) : SafeAt (if c then m else m') s Q := by
  by_cases hc : c
  · rw [if_pos hc]; exact h hc
  · rw [if_neg hc]; exact h' hc

theorem bind_eq_ok {b : β} {u : σ} : (m >>= f) s = (.ok b, u) ↔ ∃ a t, m s = (.ok a, t) ∧ f a t = (.ok b, u) := by
  cases hrun : m s with
  | mk x t =>
    cases x with
    | ok a =>
      rw [bind_of_ok hrun]
      constructor
      · exact fun h => ⟨a, t, rfl, h⟩
      · rintro ⟨_, _, ha, h⟩
        cases ha; exact h
    | error e =>
      rw [bind_of_error hrun]
      constructor
      · intro h; cases h
      · rintro ⟨_, _, ha, _⟩
        cases ha

theorem Graceful.of_bind {a : α} {t : σ} (h : Graceful ((m >>= f) s).1) (hm : m s = (.ok a, t)) :
    Graceful (f a t).1 := by rwa [bind_of_ok hm] at h

theorem Graceful.left (h : Graceful ((m >>= f) s).1) : Graceful (m s).1 := by
  cases hrun : m s with
  | mk x t =>
    cases x with
    | ok a => exact Graceful.ok a
    | error e =>
      rw [bind_of_error hrun] at h
      intro s hs
      cases hs
      exact h e rfl

end

/-- Every run from a state in `P` ends in a value in `Q`, the state still in `P`, or
in an error. -/
def Keeps {ε σ α : Type} (P : σ → Prop) (m : ExceptT (Stop ε) (StateM σ) α) (Q : α → Prop) : Prop :=
  ∀ s, P s → SafeAt m s fun a t => P t ∧ Q a

section
variable {ε σ α β : Type} {m : ExceptT (Stop ε) (StateM σ) α} {f : α → ExceptT (Stop ε) (StateM σ) β}
variable {P : σ → Prop} {Q : α → Prop} {R : β → Prop}

theorem Keeps.pure {a : α} (h : Q a) : Keeps P (pure a : ExceptT (Stop ε) (StateM σ) α) Q :=
  fun _ hs => SafeAt.pure ⟨hs, h⟩

theorem Keeps.fail (e : ε) : Keeps P (fail e : ExceptT (Stop ε) (StateM σ) α) Q := fun _ _ => SafeAt.fail e

theorem Keeps.bind (hm : Keeps P m Q) (hf : ∀ a, Q a → Keeps P (f a) R) : Keeps P (m >>= f) R :=
  fun s hs => (hm s hs).bind fun a t h => hf a h.2 t h.1

theorem Keeps.imp {Q' : α → Prop} (hm : Keeps P m Q) (h : ∀ a, Q a → Q' a) : Keeps P m Q' :=
  fun s hs => (hm s hs).imp fun a _ hq => ⟨hq.1, h a hq.2⟩

theorem Keeps.failIf {c : Prop} [Decidable c] {e : ε} {k : Unit → ExceptT (Stop ε) (StateM σ) β}
    (hk : ¬ c → Keeps P (k ()) R) : Keeps P (failIf c e >>= k) R :=
  fun s hs => SafeAt.failIf fun hc => hk hc s hs

theorem Keeps.ite {c : Prop} [Decidable c] {m' : ExceptT (Stop ε) (StateM σ) α} (h : c → Keeps P m Q)
    (h' : ¬ c → Keeps P m' Q) : Keeps P (if c then m else m') Q :=
  fun s hs => SafeAt.ite (fun hc => h hc s hs) fun hc => h' hc s hs

theorem Keeps.foldlM {g : β → α → ExceptT (Stop ε) (StateM σ) β} {I : β → Prop} : ∀ {l : List α} {b : β},
    (∀ b a, a ∈ l → I b → Keeps P (g b a) I) → I b → Keeps P (l.foldlM g b) I
  | [], _, _, hI => Keeps.pure hI
  | a :: l, b, hg, hI => by
    rw [List.foldlM_cons]
    exact (hg b a List.mem_cons_self hI).bind fun b' hb' =>
      Keeps.foldlM (fun c a' h => hg c a' (List.mem_cons_of_mem _ h)) hb'

end

section
variable {ε σ τ ρ : Type} {body : τ → ExceptT (Stop ε) (StateM σ) (Turn τ ρ)}

/-- **The variant rule**, with the state. -/
theorem SafeAt.loop {I : τ → σ → Prop} {Q : ρ → σ → Prop} {μ : τ → Nat}
    (hb : ∀ x s, I x s → SafeAt (body x) s fun turn t => turn.Holds (fun y => I y t ∧ μ y < μ x) (Q · t)) :
    ∀ (n : Nat) (x : τ) (s : σ), I x s → μ x < n → SafeAt (loop body n x) s Q
  | 0, _, _, _, h => absurd h (Nat.not_lt_zero _)
  | n + 1, x, s, hI, hμ => by
    rw [Ziftsieve.loop]
    refine (hb x s hI).bind fun turn t h => ?_
    cases turn with
    | done r => exact SafeAt.pure h
    | next y => exact SafeAt.loop hb n y t h.1 (by have := h.2; omega)

theorem Keeps.loop {P : σ → Prop} {I : τ → Prop} {Q : ρ → Prop} {μ : τ → Nat}
    (hb : ∀ x, I x → Keeps P (body x) (Turn.Holds (fun y => I y ∧ μ y < μ x) Q))
    {n : Nat} {x : τ} (hI : I x) (hμ : μ x < n) : Keeps P (loop body n x) Q := by
  intro s hs
  refine SafeAt.loop (I := fun x s => P s ∧ I x) (μ := μ) ?_ n x s ⟨hs, hI⟩ hμ
  intro y t hy
  refine (hb y hy.2 t hy.1).imp fun turn u h => ?_
  cases turn with
  | next z => exact ⟨⟨h.1, h.2.1⟩, h.2.2⟩
  | done r => exact h

/-- `n` turns lead from one state to another. -/
inductive Turns (body : τ → ExceptT (Stop ε) (StateM σ) (Turn τ ρ)) (x : τ) (s : σ) : Nat → τ → σ → Prop
  | start : Turns body x s 0 x s
  | next {n : Nat} {y z : τ} {t u : σ} : Turns body x s n y t → body y t = (.ok (.next z), u) → Turns body x s (n + 1) z u

theorem Turns.graceful_loop {x y : τ} {s t : σ} {n k : Nat} (h : Turns body x s n y t)
    (hg : Graceful (Ziftsieve.loop body (n + k) x s).1) : Graceful (Ziftsieve.loop body k y t).1 := by
  induction h generalizing k with
  | start => rwa [Nat.zero_add] at hg
  | next _ hrun ih =>
    rw [Nat.add_assoc, Nat.add_comm 1] at hg
    have hloop := ih hg
    rw [Ziftsieve.loop] at hloop
    exact hloop.of_bind hrun

/-- A loop that stops gracefully does so in every turn it reaches. -/
theorem Turns.graceful {x y : τ} {s t : σ} {n k : Nat} (h : Turns body x s n y t) (hk : n < k)
    (hg : Graceful (Ziftsieve.loop body k x s).1) : Graceful (body y t).1 := by
  obtain ⟨j, rfl⟩ := Nat.exists_eq_add_of_lt hk
  have hloop := h.graceful_loop (k := j + 1) (by rwa [← Nat.add_assoc])
  rw [Ziftsieve.loop] at hloop
  exact hloop.left

end

end Ziftsieve
