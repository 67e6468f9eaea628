import Ziftsieve.BitstreamSound
import Ziftsieve.PrefixCode

/-!
# The Huffman decoder is sound

The nodes of a decoder are a trie: a path from the root reaches a node at most
one way, and a node's symbol is the one coded by its path. `insert` adds one
path; `fromLengths` adds the canonical code of each symbol; `decode` follows
the bits of a code to its symbol. Paths are written last bit first.
-/

namespace Ziftsieve.Gzip

/-! ## Tables -/

def tab {α : Type} (n : Nat) (f : Nat → α) : List α := (List.range n).map f

section
variable {α ε : Type} {n i : Nat} {f g : Nat → α}

theorem replicate_eq_tab (a : α) : List.replicate n a = tab n fun _ => a := by
  unfold tab
  rw [List.map_const', List.length_range]

theorem index_tab (h : i < n) : (index (tab n f) i : Run ε α) = .ok (f i) := by
  unfold index tab
  rw [List.getElem?_map, List.getElem?_range h]; rfl

theorem setAt_tab (v : α) (h : i < n) :
    (setAt (tab n f) i v : Run ε (List α)) = .ok (tab n (Function.update f i v)) := by
  unfold tab
  rw [setAt_eq (by rwa [List.length_map, List.length_range])]
  congr 1
  apply List.ext_getElem (by simp)
  intro j h1 h2
  simp only [List.length_map, List.length_range] at h2
  rw [List.getElem_set, List.getElem_map, List.getElem_map, List.getElem_range, Function.update_apply]
  exact if_congr eq_comm rfl rfl

end

/-! ## Tries -/

def childAt (nodes : List HuffmanNode) (i : Nat) (b : Bool) : Option Nat := nodes[i]?.bind (·.child b)

def symbolAt (nodes : List HuffmanNode) (i : Nat) : Option Nat := nodes[i]?.bind (·.symbol)

def walk (nodes : List HuffmanNode) : List Bool → Option Nat
  | [] => some 0
  | b :: u => (walk nodes u).bind fun i => childAt nodes i b

structure Trie (nodes : List HuffmanNode) (S : List Bool → Nat → Prop) : Prop where
  closed : ∀ {u i}, walk nodes u = some i → i < nodes.length
  inj : ∀ {u v i}, walk nodes u = some i → walk nodes v = some i → u = v
  symbol : ∀ {u i}, walk nodes u = some i → ∀ s, symbolAt nodes i = some s ↔ S u s
  complete : ∀ {u s}, S u s → ∃ i, walk nodes u = some i

theorem Trie.node {nodes : List HuffmanNode} {S : List Bool → Nat → Prop} (hT : Trie nodes S) {u : List Bool} {i : Nat}
    (h : walk nodes u = some i) : ∃ n, nodes[i]? = some n :=
  ⟨_, List.getElem?_eq_getElem (hT.closed h)⟩

theorem walk_cons {nodes : List HuffmanNode} {b : Bool} {u : List Bool} {i : Nat} :
    walk nodes (b :: u) = some i ↔ ∃ j, walk nodes u = some j ∧ childAt nodes j b = some i := by
  rw [walk, Option.bind_eq_some_iff]

theorem walk_of_append {nodes : List HuffmanNode} {u : List Bool} : ∀ {v : List Bool} {i : Nat},
    walk nodes (v ++ u) = some i → ∃ j, walk nodes u = some j
  | [], i, h => ⟨i, h⟩
  | b :: v, i, h => by
    obtain ⟨j, hj, -⟩ := walk_cons.mp h
    exact walk_of_append hj

theorem Trie.empty : Trie [HuffmanNode.empty] fun _ _ => False := by
  have hroot : ∀ {u i}, walk [HuffmanNode.empty] u = some i → u = [] ∧ i = 0 := by
    intro u
    induction u with
    | nil => intro i h; exact ⟨rfl, (Option.some.inj h).symm⟩
    | cons b u ih =>
      intro i h
      obtain ⟨j, hj, hc⟩ := walk_cons.mp h
      rw [(ih hj).2] at hc
      cases b <;> cases hc
  exact {
    closed := fun h => by rw [(hroot h).2]; exact Nat.one_pos
    inj := fun hu hv => by rw [(hroot hu).1, (hroot hv).1]
    symbol := fun h s => by rw [(hroot h).2]; simp [symbolAt, HuffmanNode.empty]
    complete := fun h => h.elim }

/-! ## Adding a node -/

theorem HuffmanNode.child_setChild (n : HuffmanNode) (b c : Bool) (k : Nat) :
    (n.setChild b k).child c = if c = b then some k else n.child c := by
  cases b <;> cases c <;> rfl

theorem HuffmanNode.symbol_setChild (n : HuffmanNode) (b : Bool) (k : Nat) : (n.setChild b k).symbol = n.symbol := by
  cases b <;> rfl

def grow (nodes : List HuffmanNode) (i : Nat) (n : HuffmanNode) (b : Bool) : List HuffmanNode :=
  (nodes ++ [HuffmanNode.empty]).set i (n.setChild b nodes.length)

section
variable {nodes : List HuffmanNode} {S : List Bool → Nat → Prop} {i j : Nat} {n : HuffmanNode} {b c : Bool}
variable {u v : List Bool}

@[simp] theorem length_grow : (grow nodes i n b).length = nodes.length + 1 := by simp [grow]

theorem grow_get (hj : j < nodes.length) :
    (grow nodes i n b)[j]? = if j = i then some (n.setChild b nodes.length) else nodes[j]? := by
  unfold grow
  rw [List.getElem?_set]
  by_cases h : i = j
  · rw [if_pos h, if_pos (by rw [List.length_append]; omega), if_pos h.symm]
  · rw [if_neg h, if_neg (Ne.symm h), List.getElem?_append_left hj]

theorem grow_get_last (hn : nodes[i]? = some n) : (grow nodes i n b)[nodes.length]? = some HuffmanNode.empty := by
  obtain ⟨hi, -⟩ := List.getElem?_eq_some_iff.mp hn
  unfold grow
  rw [List.getElem?_set_ne (by omega), List.getElem?_append_right (Nat.le_refl _), Nat.sub_self]; rfl

theorem childAt_grow (hn : nodes[i]? = some n) (hj : j < nodes.length) :
    childAt (grow nodes i n b) j c = if j = i ∧ c = b then some nodes.length else childAt nodes j c := by
  unfold childAt
  rw [grow_get hj]
  by_cases h : j = i
  · rw [if_pos h, h, hn, Option.bind_some, Option.bind_some, HuffmanNode.child_setChild]
    exact if_congr (by simp) rfl rfl
  · rw [if_neg h, if_neg (by simp [h])]

theorem symbolAt_grow (hn : nodes[i]? = some n) (hj : j < nodes.length) :
    symbolAt (grow nodes i n b) j = symbolAt nodes j := by
  unfold symbolAt
  rw [grow_get hj]
  by_cases h : j = i
  · rw [if_pos h, h, hn, Option.bind_some, Option.bind_some, HuffmanNode.symbol_setChild]
  · rw [if_neg h]

/-- The new node is reached by its parent's path and its own bit, and by no other path. -/
theorem walk_grow (hT : Trie nodes S) (hu : walk nodes u = some i) (hn : nodes[i]? = some n) (hc : n.child b = none) :
    ∀ {v : List Bool} {k : Nat},
      walk (grow nodes i n b) v = some k ↔ walk nodes v = some k ∨ (v = b :: u ∧ k = nodes.length)
  | [], k => by simp [walk]
  | c :: v, k => by
    rw [walk_cons]
    constructor
    · rintro ⟨j, hj, hck⟩
      rcases (walk_grow hT hu hn hc).mp hj with hold | ⟨rfl, rfl⟩
      · rw [childAt_grow hn (hT.closed hold)] at hck
        by_cases hji : j = i ∧ c = b
        · rw [if_pos hji] at hck
          obtain ⟨rfl, rfl⟩ := hji
          exact .inr ⟨by rw [hT.inj hold hu], (Option.some.inj hck).symm⟩
        · rw [if_neg hji] at hck
          exact .inl (walk_cons.mpr ⟨j, hold, hck⟩)
      · unfold childAt at hck
        rw [grow_get_last hn] at hck
        cases c <;> cases hck
    · rintro (hold | ⟨he, rfl⟩)
      · obtain ⟨j, hj, hck⟩ := walk_cons.mp hold
        refine ⟨j, (walk_grow hT hu hn hc).mpr (.inl hj), ?_⟩
        rw [childAt_grow hn (hT.closed hj), if_neg, hck]
        rintro ⟨rfl, rfl⟩
        rw [childAt, hn, Option.bind_some, hc] at hck
        cases hck
      · obtain ⟨hcb, hvu⟩ := List.cons.inj he
        rw [hcb, hvu]
        refine ⟨i, (walk_grow hT hu hn hc).mpr (.inl hu), ?_⟩
        rw [childAt_grow hn (hT.closed hu), if_pos ⟨rfl, rfl⟩]

theorem Trie.grow (hT : Trie nodes S) (hu : walk nodes u = some i) (hn : nodes[i]? = some n) (hc : n.child b = none) :
    Trie (grow nodes i n b) S := by
  have hfresh : ∀ s, ¬ S (b :: u) s := by
    intro s hs
    obtain ⟨k, hk⟩ := hT.complete hs
    obtain ⟨j, hj, hjk⟩ := walk_cons.mp hk
    rw [hu] at hj
    rw [← Option.some.inj hj, childAt, hn, Option.bind_some, hc] at hjk
    cases hjk
  exact {
    closed := by
      intro v k h
      rw [length_grow]
      rcases (walk_grow hT hu hn hc).mp h with hold | ⟨-, rfl⟩
      · exact Nat.lt_succ_of_lt (hT.closed hold)
      · exact Nat.lt_succ_self _
    inj := by
      intro v w k hv hw
      rcases (walk_grow hT hu hn hc).mp hv with hv | ⟨rfl, rfl⟩ <;>
        rcases (walk_grow hT hu hn hc).mp hw with hw | ⟨rfl, h⟩
      · exact hT.inj hv hw
      · exact absurd (hT.closed hv) (by omega)
      · exact absurd (hT.closed hw) (Nat.lt_irrefl _)
      · rfl
    symbol := by
      intro v k h s
      rcases (walk_grow hT hu hn hc).mp h with hold | ⟨rfl, rfl⟩
      · rw [symbolAt_grow hn (hT.closed hold)]
        exact hT.symbol hold s
      · unfold symbolAt
        rw [grow_get_last hn]
        exact ⟨fun h => (nomatch h), fun h => (hfresh s h).elim⟩
    complete := by
      intro v s h
      obtain ⟨k, hk⟩ := hT.complete h
      exact ⟨k, (walk_grow hT hu hn hc).mpr (.inl hk)⟩ }

/-! ## Inserting a code -/

theorem insertBit_trie (code k : Nat) (hT : Trie nodes S) (hu : walk nodes u = some i) (hsize : nodes.length ≤ 32767) :
    ∃ nodes' i', insertBit code (nodes, i) k = .ok (nodes', i') ∧ Trie nodes' S ∧
      walk nodes' (code.testBit k :: u) = some i' ∧ nodes'.length ≤ nodes.length + 1 := by
  obtain ⟨n, hn⟩ := hT.node hu
  unfold insertBit index
  simp only [hn, Run.ok_bind]
  cases hc : n.child (code.testBit k) with
  | none =>
    simp only
    rw [failIf_false _ (by omega), Run.ok_bind]
    refine ⟨grow nodes i n (code.testBit k), _, rfl, hT.grow hu hn hc, ?_, by rw [length_grow]⟩
    exact (walk_grow hT hu hn hc).mpr (.inr ⟨rfl, rfl⟩)
  | some next =>
    refine ⟨_, _, rfl, hT, ?_, Nat.le_succ _⟩
    exact walk_cons.mpr ⟨i, hu, by rw [childAt, hn, Option.bind_some, hc]⟩

theorem insertBits_trie (code : Nat) (hT : Trie nodes S) : ∀ k : Nat, nodes.length + k ≤ 32768 →
    ∃ nodes' i', (List.range k).foldlM (insertBit code) (nodes, 0) = .ok (nodes', i') ∧ Trie nodes' S ∧
      walk nodes' (bitsLe k code).reverse = some i' ∧ nodes'.length ≤ nodes.length + k
  | 0, _ => ⟨nodes, 0, rfl, hT, rfl, Nat.le_refl _⟩
  | k + 1, hsize => by
    obtain ⟨nodes₁, i₁, h₁, hT₁, hw₁, hl₁⟩ := insertBits_trie code hT k (by omega)
    obtain ⟨nodes₂, i₂, h₂, hT₂, hw₂, hl₂⟩ := insertBit_trie code k hT₁ hw₁ (by omega)
    refine ⟨nodes₂, i₂, ?_, hT₂, ?_, by omega⟩
    · rw [List.range_succ, List.foldlM_append, h₁, Run.ok_bind, List.foldlM_cons, h₂]; rfl
    · rw [bitsLe_succ_right, List.reverse_append]; exact hw₂

def label (nodes : List HuffmanNode) (i : Nat) (n : HuffmanNode) (symbol : Nat) : List HuffmanNode :=
  nodes.set i { n with symbol := some symbol }

theorem label_get {symbol : Nat} (hn : nodes[i]? = some n) :
    (label nodes i n symbol)[j]? = if j = i then some { n with symbol := some symbol } else nodes[j]? := by
  obtain ⟨hi, -⟩ := List.getElem?_eq_some_iff.mp hn
  unfold label
  rw [List.getElem?_set]
  by_cases h : i = j
  · rw [if_pos h, if_pos hi, if_pos h.symm]
  · rw [if_neg h, if_neg (Ne.symm h)]

theorem childAt_label {symbol : Nat} (hn : nodes[i]? = some n) :
    childAt (label nodes i n symbol) j c = childAt nodes j c := by
  unfold childAt
  rw [label_get hn]
  by_cases h : j = i
  · rw [if_pos h, h, hn]; rfl
  · rw [if_neg h]

theorem symbolAt_label {symbol : Nat} (hn : nodes[i]? = some n) :
    symbolAt (label nodes i n symbol) j = if j = i then some symbol else symbolAt nodes j := by
  unfold symbolAt
  rw [label_get hn]
  by_cases h : j = i
  · rw [if_pos h, if_pos h]; rfl
  · rw [if_neg h, if_neg h]

theorem walk_label {symbol : Nat} (hn : nodes[i]? = some n) :
    ∀ v : List Bool, walk (label nodes i n symbol) v = walk nodes v
  | [] => rfl
  | c :: v => by simp only [walk, walk_label hn v, childAt_label hn]

/-- The node of a path that codes nothing yet takes a symbol. -/
theorem Trie.label {symbol : Nat} (hT : Trie nodes S) (hu : walk nodes u = some i) (hn : nodes[i]? = some n)
    (hfree : ∀ s, ¬ S u s) : Trie (label nodes i n symbol) fun v s => S v s ∨ (v = u ∧ s = symbol) where
  closed h := by
    rw [walk_label hn] at h
    rw [Gzip.label, List.length_set]
    exact hT.closed h
  inj hv hw := by
    rw [walk_label hn] at hv hw
    exact hT.inj hv hw
  symbol := by
    intro v k hv s
    rw [walk_label hn] at hv
    rw [symbolAt_label hn]
    by_cases h : k = i
    · have hvu : v = u := hT.inj (h ▸ hv) hu
      rw [if_pos h, hvu]
      constructor
      · intro he; exact .inr ⟨rfl, (Option.some.inj he).symm⟩
      · rintro (hs | ⟨-, rfl⟩)
        · exact (hfree s hs).elim
        · rfl
    · have hvu : v ≠ u := by rintro rfl; exact h (Option.some.inj (hv.symm.trans hu))
      rw [if_neg h, hT.symbol hv s]
      exact ⟨.inl, fun hs => hs.resolve_right fun he => hvu he.1⟩
  complete := by
    rintro v s (hs | ⟨rfl, -⟩)
    · rw [walk_label hn]; exact hT.complete hs
    · exact ⟨i, by rw [walk_label hn]; exact hu⟩

theorem insert_trie {code bits symbol : Nat} (hT : Trie nodes S) (hsize : nodes.length + bits ≤ 32768)
    (hsym : symbol ≤ 32767) (hfree : ∀ s, ¬ S (bitsLe bits code).reverse s) :
    ∃ nodes', insert nodes code bits symbol = .ok nodes' ∧
      Trie nodes' (fun v s => S v s ∨ (v = (bitsLe bits code).reverse ∧ s = symbol)) ∧
      nodes'.length ≤ nodes.length + bits := by
  obtain ⟨nodes₁, i, hrun, hT₁, hw, hl⟩ := insertBits_trie code hT bits hsize
  obtain ⟨n, hn⟩ := hT₁.node hw
  have hnone : n.symbol = none := by
    by_contra hne
    obtain ⟨s, hs⟩ := Option.ne_none_iff_exists'.mp hne
    exact hfree s ((hT₁.symbol hw s).mp (by rw [symbolAt, hn, Option.bind_some, hs]))
  refine ⟨_, ?_, hT₁.label hw hn hfree, by rw [label, List.length_set]; exact hl⟩
  unfold insert index setAt
  rw [hrun, Run.ok_bind]
  simp only [hn, Run.ok_bind]
  rw [failIf_false _ (by rw [hnone]; simp), Run.ok_bind, failIf_false _ (by omega), Run.ok_bind,
    if_pos (hT₁.closed hw)]
  rfl

/-- The end node of a path that is taken has its symbol already. -/
theorem insert_taken {code bits symbol s : Nat} (hT : Trie nodes S) (hsize : nodes.length + bits ≤ 32768)
    (hs : S (bitsLe bits code).reverse s) : ∃ e, insert nodes code bits symbol = .error e := by
  obtain ⟨nodes₁, i, hrun, hT₁, hw, -⟩ := insertBits_trie code hT bits hsize
  obtain ⟨n, hn⟩ := hT₁.node hw
  have hsym : n.symbol = some s := by
    have := (hT₁.symbol hw s).mpr hs
    rwa [symbolAt, hn, Option.bind_some] at this
  unfold insert index
  rw [hrun, Run.ok_bind]
  simp only [hn, Run.ok_bind]
  rw [failIf_true _ (by rw [hsym]; exact Option.some_ne_none s)]
  exact ⟨_, rfl⟩

end

/-! ## Decoding -/

/-- `decode` walks the bits `w` from a node of path `u` to the symbol they lead to. -/
theorem decodeLoop_yields {data : Bytes} {nodes : List HuffmanNode} {S : List Bool → Nat → Prop} (hT : Trie nodes S)
    {s : Nat} {rest : List Bool} : ∀ {w u : List Bool} {k i p : Nat}, w ≠ [] → w.length ≤ k → walk nodes u = some i →
      S (w.reverse ++ u) s → (∀ v t, S v t → v <:+ w.reverse ++ u → v = w.reverse ++ u) →
      At (bytesBits data) p (w ++ rest) →
      Yields (Synced data p) (decodeLoop nodes k i) s (Synced data (p + w.length))
  | [], _, _, _, _, hne, _, _, _, _, _ => absurd rfl hne
  | _ :: _, _, 0, _, _, _, hk, _, _, _, _ => absurd hk (Nat.not_succ_le_zero _)
  | b :: w, u, k + 1, i, p, _, hk, hu, hS, hfree, hat => by
    have hpath : (b :: w).reverse ++ u = w.reverse ++ (b :: u) := by
      rw [List.reverse_cons, List.append_assoc]; rfl
    rw [hpath] at hS hfree
    obtain ⟨_, hend⟩ := hT.complete hS
    obtain ⟨next, hnext⟩ := walk_of_append hend
    obtain ⟨j, hj, hchild⟩ := walk_cons.mp hnext
    rw [hu] at hj
    rw [← Option.some.inj hj] at hchild
    obtain ⟨n, hn⟩ := hT.node hu
    obtain ⟨m, hm⟩ := hT.node hnext
    rw [childAt, hn, Option.bind_some] at hchild
    have hsym : symbolAt nodes next = m.symbol := by rw [symbolAt, hm, Option.bind_some]
    have hb : decide (b.toNat = 1) = b := by cases b <;> rfl
    rw [decodeLoop]
    refine (readBit_yields hat).bind ((yields_lift (index_of_get hn)).bind ?_)
    simp only [hb, hchild]
    refine (yields_lift (index_of_get hm)).bind ?_
    cases hs : m.symbol with
    | some t =>
      have hSt : S (b :: u) t := (hT.symbol hnext t).mp (hsym.trans hs)
      have hw : w = [] := by
        have := congrArg List.length (hfree _ t hSt (List.suffix_append _ _))
        rw [List.length_append, List.length_reverse, List.length_cons] at this
        exact List.length_eq_zero_iff.mp (by omega)
      rw [hw] at hS
      have hts : t = s := Option.some.inj (((hT.symbol hnext t).mpr hSt).symm.trans ((hT.symbol hnext s).mpr hS))
      rw [hw, hts]
      exact Yields.pure
    | none =>
      have hw : w ≠ [] := by
        rintro rfl
        have := (hT.symbol hnext s).mpr hS
        rw [hsym, hs] at this; cases this
      have hstep := decodeLoop_yields hT hw (Nat.le_of_succ_le_succ hk) hnext hS hfree hat.tail
      rw [Nat.add_assoc, Nat.add_comm 1] at hstep
      exact hstep

end Ziftsieve.Gzip
