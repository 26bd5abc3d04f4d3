import RefFlow.FlowGraph.Moves
import RefFlow.FlowGraph.Reach
/-!
# The graph of a list of moves

Taking moves into a graph adds exactly the edges between the ranges that the moves of the reference
class were resolved to. A list that is taken to its end has no mixed move, and every move of the
reference class in it was resolved.

Main statements:

* `FlowGraph.targetSet?_insertEdge`, `FlowGraph.edge_insertEdge_iff` — what adding an edge does to
  target sets and to edges;
* `FlowGraph.addMoves_stop_eq_none` — what is known of moves that were all taken;
* `FlowGraph.edge_addMoves_iff` — the edges after moves were taken;
* `FlowGraph.addMoves_congr` — stores that resolve moves alike take them alike.
-/

namespace RefFlow

/-! ### Rows of the graph -/

theorem Adjacency.lookup_cons (i k : RangeKey) (targets : KeySet) (rest : Adjacency) :
    ((i, targets) :: rest : Adjacency).lookup k =
      if k = i then some targets else rest.lookup k := by
  rw [List.lookup_cons]
  by_cases h : k = i
  · rw [if_pos h, beq_iff_eq.2 h]
  · rw [if_neg h, beq_eq_false_iff_ne.2 h]

/-- Linking changes the targets of the source only, which gain one. -/
theorem Adjacency.lookup_link (src dst k : RangeKey) (rows : Adjacency) :
    (rows.link src dst).lookup k =
      if k = src then some (((rows.lookup src).getD ∅).insert dst) else rows.lookup k := by
  induction rows with
  | nil =>
    unfold link
    rw [lookup_cons]
    rfl
  | cons e rest ih =>
    obtain ⟨i, targets⟩ := e
    unfold link
    -- linking goes into the first row if that is the source's, else further down
    by_cases hi : i = src
    · subst hi
      rw [if_pos rfl, lookup_cons, lookup_cons, lookup_cons, if_pos rfl]
      by_cases h : k = i
      · rw [if_pos h, if_pos h]
        rfl
      · rw [if_neg h, if_neg h, if_neg h]
    · have hsrc : List.lookup src ((i, targets) :: rest) = rest.lookup src := by
        rw [lookup_cons, if_neg fun e => hi e.symm]
      rw [if_neg hi, lookup_cons, ih, hsrc, lookup_cons]
      by_cases h : k = i
      · subst h
        rw [if_pos rfl, if_neg hi, if_pos rfl]
      · rw [if_neg h, if_neg h]

/-! ### The ranges of a move -/

theorem Move.OfClass.not_mixed {m : Move} {c : RegClass} (h : m.OfClass c) : ¬ m.Mixed :=
  not_not_intro (h.1.trans h.2.symm)

/-- A move is resolved to the range of its source, live at the use, and the range of its
destination, live at the definition. -/
theorem Move.resolve_eq_ok_iff {σ : Type} [RangeStore σ] {store : σ} {m : Move}
    {r : ResolvedMove} :
    m.resolve store = .ok r ↔ r.move = m ∧
      RangeStore.locate store (.useOf m.instr) m.src = .ok r.src ∧
      RangeStore.locate store (.defOf m.instr) m.dst = .ok r.dst := by
  obtain ⟨move, src, dst⟩ := r
  unfold resolve
  cases RangeStore.locate store (.useOf m.instr) m.src with
  | error f => simp
  | ok i =>
    cases RangeStore.locate store (.defOf m.instr) m.dst with
    | error f => simp
    | ok j => simp [eq_comm]

theorem Move.resolve_eq_error {σ : Type} [RangeStore σ] {store : σ} {m : Move} {f : Fault}
    (h : m.resolve store = .error f) : ∃ p r, RangeStore.locate store p r = .error f := by
  unfold resolve at h
  cases hsrc : RangeStore.locate store (.useOf m.instr) m.src with
  | error f' =>
    rw [hsrc] at h
    exact ⟨_, _, hsrc.trans (by simpa using h)⟩
  | ok src =>
    rw [hsrc] at h
    cases hdst : RangeStore.locate store (.defOf m.instr) m.dst with
    | error f' =>
      rw [hdst] at h
      exact ⟨_, _, hdst.trans (by simpa using h)⟩
    | ok dst =>
      rw [hdst] at h
      exact absurd h (by simp)

/-! ### Edges -/

namespace FlowGraph

variable {g : FlowGraph}

/-- A missing target set is as good as an empty one. -/
theorem edge_iff_mem_targetSet? {a b : RangeKey} :
    g.Edge a b ↔ b ∈ (g.targetSet? a).getD ∅ := by
  unfold Edge targets
  cases g.targetSet? a <;> exact Iff.rfl

/-- **Target sets after an edge.** Its source has one, which gained the target unless it had it; all
others are as before. -/
theorem targetSet?_insertEdge (g : FlowGraph) (src dst a : RangeKey) :
    (g.insertEdge src dst).targetSet? a =
      if a = src then some (((g.targetSet? src).getD ∅).insert dst) else g.targetSet? a := by
  unfold insertEdge
  split
  -- an edge that is there already is not added again, and its target is in the set of its source
  · next h =>
    split
    · next ha =>
      subst ha
      have hmem : dst ∈ (g.targetSet? a).getD ∅ := edge_iff_mem_targetSet?.1 (hasEdge_iff.1 h)
      rw [KeySet.insert_of_mem hmem]
      cases hset : g.targetSet? a with
      | none =>
        rw [hset] at hmem
        exact absurd hmem (KeySet.mem_empty dst)
      | some set => rfl
    · rfl
  · exact Adjacency.lookup_link src dst a g.adjacency

theorem edge_insertEdge_iff {src dst a b : RangeKey} :
    (g.insertEdge src dst).Edge a b ↔ g.Edge a b ∨ a = src ∧ b = dst := by
  rw [edge_iff_mem_targetSet?, targetSet?_insertEdge]
  -- only the source has other targets than before
  by_cases ha : a = src
  · subst ha
    rw [if_pos rfl, Option.getD_some, KeySet.mem_insert, ← edge_iff_mem_targetSet?]
    simp
  · rw [if_neg ha, ← edge_iff_mem_targetSet?]
    simp [ha]

@[simp] theorem edge_countMove {a b : RangeKey} : g.countMove.Edge a b ↔ g.Edge a b := Iff.rfl

@[simp] theorem edge_countRefMove {a b : RangeKey} : g.countRefMove.Edge a b ↔ g.Edge a b := Iff.rfl

@[simp] theorem not_edge_empty {a b : RangeKey} : ¬ empty.Edge a b := List.not_mem_nil

/-! ### Taking moves -/

section AddMoves

variable {σ : Type} [RangeStore σ] {store : σ} {c : RegClass}

/-- What becomes of the first move decides how a list of moves is taken. -/
theorem addMoves_cons_of_mixed {m : Move} {rest : List Move} (h : m.Mixed) :
    g.addMoves store c (m :: rest) =
      ⟨g.countMove, [], some (.refused (.mixedMove m.dst m.src m.instr))⟩ := by
  rw [addMoves, if_pos h]

theorem addMoves_cons_of_foreign {m : Move} {rest : List Move} (h : ¬ m.Mixed)
    (hc : ¬ m.OfClass c) : g.addMoves store c (m :: rest) = g.countMove.addMoves store c rest := by
  have hdst : m.dst.cls ≠ c := by
    intro hdst
    exact hc ⟨hdst, Decidable.not_not.1 h ▸ hdst⟩
  rw [addMoves, if_neg h, if_pos hdst]

theorem addMoves_cons_of_error {m : Move} {rest : List Move} {f : Fault} (hc : m.OfClass c)
    (hf : m.resolve store = .error f) :
    g.addMoves store c (m :: rest) = ⟨g.countMove.countRefMove, [], some (.faulted f)⟩ := by
  rw [addMoves, if_neg hc.not_mixed, if_neg (not_not_intro hc.1), hf]

theorem addMoves_cons_of_ok {m : Move} {rest : List Move} {r : ResolvedMove} (hc : m.OfClass c)
    (hr : m.resolve store = .ok r) :
    g.addMoves store c (m :: rest) =
      let tail := (g.countMove.countRefMove.insertEdge r.src r.dst).addMoves store c rest
      { tail with resolved := r :: tail.resolved } := by
  rw [addMoves, if_neg hc.not_mixed, if_neg (not_not_intro hc.1), hr]

/-- **Moves that were all taken.** None of them is mixed, and those of the reference class were
resolved. -/
theorem addMoves_stop_eq_none {moves : List Move} (h : (g.addMoves store c moves).stop = none) :
    ∀ m ∈ moves, ¬ m.Mixed ∧ (m.OfClass c → ∃ r, m.resolve store = .ok r) := by
  -- a first move that stops would have left its cause, so it was taken and the rest too
  induction moves generalizing g with
  | nil =>
    intro m hm
    exact absurd hm List.not_mem_nil
  | cons m rest ih =>
    rw [List.forall_mem_cons]
    by_cases hmix : m.Mixed
    · rw [addMoves_cons_of_mixed hmix] at h
      exact absurd h (by simp)
    by_cases hc : m.OfClass c
    · cases hr : m.resolve store with
      | error f =>
        rw [addMoves_cons_of_error hc hr] at h
        exact absurd h (by simp)
      | ok r =>
        rw [addMoves_cons_of_ok hc hr] at h
        exact ⟨⟨hmix, fun _ => ⟨r, rfl⟩⟩, ih h⟩
    · rw [addMoves_cons_of_foreign hmix hc] at h
      exact ⟨⟨hmix, fun hc' => absurd hc' hc⟩, ih h⟩

/-- A move faults where the lookup of one of its operands does. -/
theorem addMoves_stop_eq_faulted {moves : List Move} {f : Fault}
    (h : (g.addMoves store c moves).stop = some (.faulted f)) :
    ∃ p r, RangeStore.locate store p r = .error f := by
  induction moves generalizing g with
  | nil => exact absurd h (by simp)
  | cons m rest ih =>
    by_cases hmix : m.Mixed
    · rw [addMoves_cons_of_mixed hmix] at h
      exact absurd h (by simp)
    by_cases hc : m.OfClass c
    · cases hr : m.resolve store with
      | error f' =>
        rw [addMoves_cons_of_error hc hr] at h
        obtain rfl : f' = f := by simpa using h
        exact Move.resolve_eq_error hr
      | ok r =>
        rw [addMoves_cons_of_ok hc hr] at h
        exact ih h
    · rw [addMoves_cons_of_foreign hmix hc] at h
      exact ih h

/-- **Edges of moves.** Moves that were all taken add the edges between the ranges of those of the
reference class, and no others. -/
theorem edge_addMoves_iff {moves : List Move} {a b : RangeKey}
    (h : (g.addMoves store c moves).stop = none) :
    (g.addMoves store c moves).graph.Edge a b ↔
      g.Edge a b ∨ ∃ m ∈ moves, m.OfClass c ∧
        RangeStore.locate store (.useOf m.instr) m.src = .ok a ∧
        RangeStore.locate store (.defOf m.instr) m.dst = .ok b := by
  induction moves generalizing g with
  | nil => simp
  | cons m rest ih =>
    obtain ⟨hmix, hres⟩ := addMoves_stop_eq_none h m List.mem_cons_self
    -- the head adds its own edge if it is of the class, and nothing otherwise
    simp only [List.mem_cons, exists_eq_or_imp]
    by_cases hc : m.OfClass c
    · obtain ⟨r, hr⟩ := hres hc
      obtain ⟨-, hsrc, hdst⟩ := Move.resolve_eq_ok_iff.1 hr
      rw [addMoves_cons_of_ok hc hr] at h ⊢
      rw [ih h, edge_insertEdge_iff, edge_countRefMove, edge_countMove, or_assoc, hsrc, hdst]
      simp only [Except.ok.injEq, hc, true_and, @eq_comm _ r.src, @eq_comm _ r.dst]
    · rw [addMoves_cons_of_foreign hmix hc] at h ⊢
      rw [ih h, edge_countMove]
      simp only [hc, false_and, false_or]

/-- **Stores that agree.** Two stores that resolve the moves of the reference class alike take a list
of moves alike. -/
theorem addMoves_congr {τ : Type} [RangeStore τ] {other : τ} {moves : List Move}
    (h : ∀ m ∈ moves, m.OfClass c → m.resolve store = m.resolve other) :
    g.addMoves store c moves = g.addMoves other c moves := by
  induction moves generalizing g with
  | nil => rfl
  | cons m rest ih =>
    -- stores are only asked about moves of the class
    obtain ⟨hm, hrest⟩ := List.forall_mem_cons.1 h
    by_cases hmix : m.Mixed
    · rw [addMoves_cons_of_mixed hmix, addMoves_cons_of_mixed hmix]
    by_cases hc : m.OfClass c
    · cases hr : m.resolve store with
      | error f =>
        rw [addMoves_cons_of_error hc hr, addMoves_cons_of_error hc ((hm hc).symm.trans hr)]
      | ok r =>
        rw [addMoves_cons_of_ok hc hr, addMoves_cons_of_ok hc ((hm hc).symm.trans hr), ih hrest]
    · rw [addMoves_cons_of_foreign hmix hc, addMoves_cons_of_foreign hmix hc, ih hrest]

end AddMoves

end FlowGraph

end RefFlow
