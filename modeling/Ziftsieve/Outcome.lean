import Mathlib.Data.List.Induction

/-!
# Runs that can fail

A run of a function of the source returns a value, returns an error, or
panics. A `while` loop is one turn, iterated; the number of turns is bounded by
fuel, and running out of fuel is a third way to stop, so that a loop's
termination is a theorem about its body and not a convention of the model.
-/

namespace Ziftsieve

inductive Stop (ε : Type) where
  | err (e : ε)
  | panic
  | fuel
  deriving Repr, DecidableEq

abbrev Run (ε α : Type) := Except (Stop ε) α

/-- One turn of a loop: go round again, or leave the loop with a result. -/
inductive Turn (σ ρ : Type) where
  | next (s : σ)
  | done (r : ρ)
  deriving Repr, DecidableEq

/-- `I` of the state a turn goes on from, or `Q` of the result it leaves with. -/
def Turn.Holds {σ ρ : Type} (I : σ → Prop) (Q : ρ → Prop) : Turn σ ρ → Prop
  | .next s => I s
  | .done r => Q r

class Stops (ε : outParam Type) (m : Type → Type) where
  stop {α : Type} : Stop ε → m α

instance {ε : Type} : Stops ε (Except (Stop ε)) := ⟨Except.error⟩

instance {ε σ : Type} : Stops ε (ExceptT (Stop ε) (StateM σ)) := ⟨fun e s => (.error e, s)⟩

section
variable {ε : Type} {m : Type → Type} [Monad m] [Stops ε m]

def fail {α : Type} (e : ε) : m α := Stops.stop (.err e)

def panic {α : Type} : m α := Stops.stop .panic

/-- `if c { return Err(e) }`. -/
def failIf (c : Prop) [Decidable c] (e : ε) : m Unit :=
  if c then fail e else pure ()

def loop {σ ρ : Type} (body : σ → m (Turn σ ρ)) : Nat → σ → m ρ
  | 0, _ => Stops.stop .fuel
  | n + 1, s => do
    match ← body s with
    | .next t => loop body n t
    | .done r => pure r

end

/-! ## Running the bind -/

section
variable {ε α β : Type}

@[simp] theorem Run.ok_bind (a : α) (f : α → Run ε β) : ((Except.ok a : Run ε α) >>= f) = f a := rfl

@[simp] theorem Run.error_bind (e : Stop ε) (f : α → Run ε β) :
    ((Except.error e : Run ε α) >>= f) = Except.error e := rfl

@[simp] theorem Run.pure_eq (a : α) : (pure a : Run ε α) = Except.ok a := rfl

@[simp] theorem Run.fail_eq (e : ε) : (fail e : Run ε α) = Except.error (.err e) := rfl

@[simp] theorem Run.panic_eq : (panic : Run ε α) = Except.error .panic := rfl

theorem Run.bind_eq_ok {x : Run ε α} {f : α → Run ε β} {b : β} :
    (x >>= f) = .ok b ↔ ∃ a, x = .ok a ∧ f a = .ok b := by
  cases x <;> simp

theorem failIf_false {c : Prop} [Decidable c] (e : ε) (h : ¬ c) : (failIf c e : Run ε Unit) = .ok () := by
  unfold failIf; rw [if_neg h]; rfl

theorem failIf_true {c : Prop} [Decidable c] (e : ε) (h : c) : (failIf c e : Run ε Unit) = .error (.err e) := by
  unfold failIf; rw [if_pos h]; rfl

@[simp] theorem failIf_eq_ok {c : Prop} [Decidable c] (e : ε) (u : Unit) :
    (failIf c e : Run ε Unit) = .ok u ↔ ¬ c := by
  by_cases h : c
  · rw [failIf_true e h]; simp [h]
  · rw [failIf_false e h]; simp [h]

end

/-! ## Loops -/

section
variable {ε σ ρ : Type} {body : σ → Run ε (Turn σ ρ)}

theorem loop_next {n : Nat} {s t : σ} (h : body s = .ok (.next t)) :
    loop body (n + 1) s = loop body n t := by
  rw [loop, h]; rfl

theorem loop_done {n : Nat} {s : σ} {r : ρ} (h : body s = .ok (.done r)) :
    loop body (n + 1) s = .ok r := by
  rw [loop, h]; rfl

theorem loop_error {n : Nat} {s : σ} {e : Stop ε} (h : body s = .error e) :
    loop body (n + 1) s = .error e := by
  rw [loop, h]; rfl

/-- The turns of a run that gives a result: each goes round again, and the last
leaves. -/
theorem loop_ok_iff {n : Nat} {s : σ} {r : ρ} :
    loop body (n + 1) s = .ok r ↔
      body s = .ok (.done r) ∨ ∃ t, body s = .ok (.next t) ∧ loop body n t = .ok r := by
  cases hb : body s with
  | error e => rw [loop_error hb]; simp
  | ok turn =>
    cases turn with
    | next t => rw [loop_next hb]; simp
    | done q => rw [loop_done hb]; simp

/-- **The invariant rule.** What every turn keeps, and every way out turns into
`Q`, makes `Q` hold of the result. -/
theorem loop_inv {I : σ → Prop} {Q : ρ → Prop}
    (hnext : ∀ s t, I s → body s = .ok (.next t) → I t)
    (hdone : ∀ s r, I s → body s = .ok (.done r) → Q r) :
    ∀ (n : Nat) (s : σ) (r : ρ), I s → loop body n s = .ok r → Q r
  | 0, _, _, _, h => by cases h
  | n + 1, s, r, hI, h => by
    rcases loop_ok_iff.mp h with hd | ⟨t, hn, ht⟩
    · exact hdone s r hI hd
    · exact loop_inv hnext hdone n t r (hnext s t hI hn) ht

end

/-! ## Runs that end in a value or an error -/

def Graceful {ε α : Type} (x : Run ε α) : Prop := ∀ s, x = .error s → ∃ e, s = .err e

section
variable {ε σ ρ α β : Type} {x : Run ε α} {f : α → Run ε β} {body : σ → Run ε (Turn σ ρ)}

theorem Graceful.ok (a : α) : Graceful (.ok a : Run ε α) := fun _ h => nomatch h

theorem Graceful.fail (e : ε) : Graceful (fail e : Run ε α) := by
  intro s h
  cases h
  exact ⟨e, rfl⟩

theorem Graceful.bind (hx : Graceful x) (hf : ∀ a, x = .ok a → Graceful (f a)) : Graceful (x >>= f) := by
  cases h : x with
  | ok a => rw [Run.ok_bind]; exact hf a h
  | error e =>
    obtain ⟨e', he⟩ := hx e h
    intro s hs
    rw [Run.error_bind, he] at hs
    cases hs
    exact ⟨e', rfl⟩

/-- What follows a check may assume that it passed. -/
theorem Graceful.failIf {c : Prop} [Decidable c] {e : ε} {k : Unit → Run ε β} (hk : ¬ c → Graceful (k ())) :
    Graceful (failIf c e >>= k) := by
  by_cases h : c
  · rw [failIf_true e h, Run.error_bind]
    intro s hs
    cases hs
    exact ⟨e, rfl⟩
  · rw [failIf_false e h, Run.ok_bind]
    exact hk h

theorem Graceful.ite {c : Prop} [Decidable c] {y : Run ε α} (hx : c → Graceful x) (hy : ¬ c → Graceful y) :
    Graceful (if c then x else y) := by
  by_cases h : c
  · rw [if_pos h]; exact hx h
  · rw [if_neg h]; exact hy h

/-- **The variant rule.** A loop whose turns keep `I` and decrease `μ` ends
within any fuel above `μ`. -/
theorem Graceful.loop {I : σ → Prop} {μ : σ → Nat} (hb : ∀ s, I s → Graceful (body s))
    (hnext : ∀ s t, I s → body s = .ok (.next t) → I t ∧ μ t < μ s) :
    ∀ (n : Nat) (s : σ), I s → μ s < n → Graceful (loop body n s)
  | 0, _, _, h => absurd h (Nat.not_lt_zero _)
  | n + 1, s, hI, hμ => by
    rw [Ziftsieve.loop]
    refine Graceful.bind (hb s hI) fun turn h => ?_
    cases turn with
    | done r => exact Graceful.ok r
    | next t =>
      obtain ⟨hI', hlt⟩ := hnext s t hI h
      exact Graceful.loop hb hnext n t hI' (by omega)

end

/-! ## Runs that end in a value with a property, or an error -/

structure Safe {ε α : Type} (x : Run ε α) (Q : α → Prop) : Prop where
  graceful : Graceful x
  post : ∀ a, x = .ok a → Q a

section
variable {ε σ ρ α β : Type} {x : Run ε α} {f : α → Run ε β} {Q : α → Prop} {R : β → Prop}

theorem Safe.ok {a : α} (h : Q a) : Safe (.ok a : Run ε α) Q := ⟨Graceful.ok a, fun _ hb => by cases hb; exact h⟩

theorem Safe.pure {a : α} (h : Q a) : Safe (pure a : Run ε α) Q := Safe.ok h

theorem Safe.fail (e : ε) : Safe (fail e : Run ε α) Q := ⟨Graceful.fail e, fun _ h => by cases h⟩

theorem Safe.of_ok {a : α} (hx : x = .ok a) (h : Q a) : Safe x Q := by rw [hx]; exact Safe.ok h

theorem Safe.bind (hx : Safe x Q) (hf : ∀ a, Q a → Safe (f a) R) : Safe (x >>= f) R where
  graceful := hx.graceful.bind fun a ha => (hf a (hx.post a ha)).graceful
  post b hb := by
    obtain ⟨a, ha, hb⟩ := Run.bind_eq_ok.mp hb
    exact (hf a (hx.post a ha)).post b hb

theorem Safe.imp {Q' : α → Prop} (hx : Safe x Q) (h : ∀ a, Q a → Q' a) : Safe x Q' :=
  ⟨hx.graceful, fun a ha => h a (hx.post a ha)⟩

theorem Safe.and {Q' : α → Prop} (hx : Safe x Q) (h : ∀ a, x = .ok a → Q' a) : Safe x fun a => Q a ∧ Q' a :=
  ⟨hx.graceful, fun a ha => ⟨hx.post a ha, h a ha⟩⟩

theorem Safe.failIf {c : Prop} [Decidable c] {e : ε} {k : Unit → Run ε β} (hk : ¬ c → Safe (k ()) R) :
    Safe (failIf c e >>= k) R := by
  by_cases h : c
  · rw [failIf_true e h, Run.error_bind]
    exact Safe.fail e
  · rw [failIf_false e h, Run.ok_bind]
    exact hk h

theorem Safe.ite {c : Prop} [Decidable c] {y : Run ε α} (hx : c → Safe x Q) (hy : ¬ c → Safe y Q) :
    Safe (if c then x else y) Q := by
  by_cases h : c
  · rw [if_pos h]; exact hx h
  · rw [if_neg h]; exact hy h

theorem Safe.foldlM {g : β → α → Run ε β} {I : β → Prop} : ∀ {l : List α} {b : β},
    (∀ b a, a ∈ l → I b → Safe (g b a) I) → I b → Safe (l.foldlM g b) I
  | [], _, _, hI => Safe.ok hI
  | a :: l, b, hg, hI => by
    rw [List.foldlM_cons]
    exact (hg b a List.mem_cons_self hI).bind fun b' hb' =>
      Safe.foldlM (fun c a' h => hg c a' (List.mem_cons_of_mem _ h)) hb'

theorem Safe.mapM {g : α → Run ε β} : ∀ {l : List α}, (∀ a ∈ l, Safe (g a) R) →
    Safe (l.mapM g) fun bs => bs.length = l.length ∧ ∀ b ∈ bs, R b
  | [], _ => by
    rw [List.mapM_nil]
    exact Safe.pure ⟨rfl, fun _ h => nomatch h⟩
  | a :: l, hg => by
    rw [List.mapM_cons]
    refine (hg a List.mem_cons_self).bind fun b hb => ?_
    refine (Safe.mapM fun a' h => hg a' (List.mem_cons_of_mem _ h)).bind fun bs hbs => Safe.pure ⟨?_, ?_⟩
    · rw [List.length_cons, List.length_cons, hbs.1]
    · intro b' hb'
      rcases List.mem_cons.mp hb' with rfl | hb'
      · exact hb
      · exact hbs.2 b' hb'

/-- `I` may speak of the elements that a fold has come past. -/
theorem Safe.foldlM_prefix {g : β → α → Run ε β} {I : List α → β → Prop} {b : β} {l : List α}
    (hg : ∀ pre a, pre ++ [a] <+: l → ∀ b, I pre b → Safe (g b a) (I (pre ++ [a]))) (hI : I [] b) :
    Safe (l.foldlM g b) (I l) := by
  induction l using List.reverseRecOn with
  | nil => exact Safe.ok hI
  | append_singleton l a ih =>
    rw [List.foldlM_append]
    refine (ih fun pre a' h => hg pre a' (h.trans (List.prefix_append l [a]))).bind fun b hb => ?_
    rw [List.foldlM_cons]
    exact (hg l a (List.prefix_refl _) b hb).bind fun b' hb' => Safe.ok hb'

/-- `I` may say of a fold over a range how far it has come. -/
theorem Safe.foldlM_range {g : β → Nat → Run ε β} {I : Nat → β → Prop} {b : β} : ∀ {n : Nat},
    (∀ i < n, ∀ b, I i b → Safe (g b i) (I (i + 1))) → I 0 b → Safe ((List.range n).foldlM g b) (I n)
  | 0, _, hI => Safe.ok hI
  | n + 1, hg, hI => by
    rw [List.range_succ, List.foldlM_append]
    refine (Safe.foldlM_range (fun i hi => hg i (Nat.lt_succ_of_lt hi)) hI).bind fun b hb => ?_
    rw [List.foldlM_cons]
    exact (hg n (Nat.lt_succ_self n) b hb).bind fun b' hb' => Safe.ok hb'

/-- A loop whose turns keep `I`, decrease `μ` when they go round again, and leave
with `Q`. -/
theorem Safe.loop {body : σ → Run ε (Turn σ ρ)} {I : σ → Prop} {Q : ρ → Prop} {μ : σ → Nat}
    (hb : ∀ s, I s → Safe (body s) (Turn.Holds (fun t => I t ∧ μ t < μ s) Q)) :
    ∀ (n : Nat) (s : σ), I s → μ s < n → Safe (loop body n s) Q
  | 0, _, _, h => absurd h (Nat.not_lt_zero _)
  | n + 1, s, hI, hμ => by
    rw [Ziftsieve.loop]
    refine (hb s hI).bind fun turn h => ?_
    cases turn with
    | done r => exact Safe.ok h
    | next t => exact Safe.loop hb n t h.1 (by have := h.2; omega)

end

theorem Run.mapM_eq_ok {ε α β : Type} {g : α → Run ε β} {f : α → β} : ∀ {l : List α}, (∀ a ∈ l, g a = .ok (f a)) →
    l.mapM g = .ok (l.map f)
  | [], _ => rfl
  | a :: l, h => by
    rw [List.mapM_cons, h a List.mem_cons_self, Run.ok_bind,
      Run.mapM_eq_ok fun b hb => h b (List.mem_cons_of_mem _ hb)]
    rfl

/-! ## Runs that end in a value with a property -/

def Gives {ε α : Type} (x : Run ε α) (Q : α → Prop) : Prop := ∃ a, x = .ok a ∧ Q a

section
variable {ε α β : Type} {x : Run ε α} {f : α → Run ε β} {Q : α → Prop} {R : β → Prop}

theorem Gives.ok {a : α} (h : Q a) : Gives (.ok a : Run ε α) Q := ⟨a, rfl, h⟩

theorem Gives.bind (hx : Gives x Q) (hf : ∀ a, Q a → Gives (f a) R) : Gives (x >>= f) R := by
  obtain ⟨a, rfl, ha⟩ := hx
  exact hf a ha

theorem Gives.imp {Q' : α → Prop} (hx : Gives x Q) (h : ∀ a, Q a → Q' a) : Gives x Q' := by
  obtain ⟨a, hx, ha⟩ := hx
  exact ⟨a, hx, h a ha⟩

theorem Gives.safe (hx : Gives x Q) : Safe x Q := by
  obtain ⟨a, hx, ha⟩ := hx
  exact Safe.of_ok hx ha

theorem Gives.foldlM_prefix {g : β → α → Run ε β} {I : List α → β → Prop} {b : β} {l : List α}
    (hg : ∀ pre a, pre ++ [a] <+: l → ∀ b, I pre b → Gives (g b a) (I (pre ++ [a]))) (hI : I [] b) :
    Gives (l.foldlM g b) (I l) := by
  induction l using List.reverseRecOn with
  | nil => exact Gives.ok hI
  | append_singleton l a ih =>
    rw [List.foldlM_append]
    refine (ih fun pre a' h => hg pre a' (h.trans (List.prefix_append l [a]))).bind fun b hb => ?_
    rw [List.foldlM_cons]
    exact (hg l a (List.prefix_refl _) b hb).bind fun b' hb' => Gives.ok hb'

theorem Gives.foldlM_range {g : β → Nat → Run ε β} {I : Nat → β → Prop} {b : β} : ∀ {n : Nat},
    (∀ i < n, ∀ b, I i b → Gives (g b i) (I (i + 1))) → I 0 b → Gives ((List.range n).foldlM g b) (I n)
  | 0, _, hI => Gives.ok hI
  | n + 1, hg, hI => by
    rw [List.range_succ, List.foldlM_append]
    refine (Gives.foldlM_range (fun i hi => hg i (Nat.lt_succ_of_lt hi)) hI).bind fun b hb => ?_
    rw [List.foldlM_cons]
    exact (hg n (Nat.lt_succ_self n) b hb).bind fun b' hb' => Gives.ok hb'

end

/-! ## Writes -/

section
variable {ε α : Type} {xs : List α} {i : Nat} {v : α}

/-- `xs[i] = v`. -/
def setAt (xs : List α) (i : Nat) (v : α) : Run ε (List α) := if i < xs.length then .ok (xs.set i v) else panic

theorem setAt_eq (h : i < xs.length) : (setAt xs i v : Run ε (List α)) = .ok (xs.set i v) := if_pos h

theorem setAt_safe (h : i < xs.length) : Safe (setAt xs i v : Run ε (List α)) fun ys => ys = xs.set i v := by
  rw [setAt_eq h]
  exact Safe.ok rfl

end

end Ziftsieve
