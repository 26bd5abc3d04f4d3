import RefFlow.Proofs.GraphHistory
/-!
# Intakes one after another

An intake may start from any graph. If it comes to its end, every move of the reference class in it
has brought one pair of ranges, and the graph gains these pairs: a pair that is new goes behind the
other targets of its source, one that was there before or came in earlier changes nothing.

An intake that ends early has done what an intake of the moves before the last one would do, and has
counted that last move besides. So nothing is lost by giving the moves in parts: after an intake that
came to its end, the next one goes on as if all moves had been given at once.

Main definitions and statements:

* `Move.Brings`, `FlowGraph.newEdges` — the pair of a move, and the pairs that a graph gains;
* `FlowGraph.targets_insertEdges` — where gained pairs go;
* `FlowGraph.addMoves_append` — two intakes are one;
* `FlowGraph.addMoves_exact` — what any intake leaves behind.
-/

namespace RefFlow

variable {σ : Type} [RangeStore σ] {store : σ} {c : RegClass} {moves : List Move}

/-! ### One move -/

/-- The pair of ranges that a move brings: that of its source, live at the use, and that of its
destination, live at the definition. -/
def Move.Brings (store : σ) (m : Move) (e : RangeKey × RangeKey) : Prop :=
  RangeStore.locate store (.useOf m.instr) m.src = .ok e.1 ∧
    RangeStore.locate store (.defOf m.instr) m.dst = .ok e.2

/-- The edges of moves that can be resolved are the pairs they bring. -/
theorem Move.forall₂_brings (h : ∀ m ∈ moves, m.OfClass c → ∃ r, m.resolve store = .ok r) :
    List.Forall₂ (Brings store) (moves.filter fun m => decide (m.OfClass c))
      (moves.filterMap (edge? store c)) := by
  -- move by move; those of other classes are passed over in both lists
  induction moves with
  | nil => exact .nil
  | cons m rest ih =>
    obtain ⟨hm, hrest⟩ := List.forall_mem_cons.1 h
    by_cases hc : m.OfClass c
    · obtain ⟨r, hr⟩ := hm hc
      obtain ⟨-, hsrc, hdst⟩ := resolve_eq_ok_iff.1 hr
      rw [List.filter_cons_of_pos (by simpa using hc),
        List.filterMap_cons_some (edge?_of_ok hc hr)]
      exact .cons ⟨hsrc, hdst⟩ (ih hrest)
    · rw [List.filter_cons_of_neg (by simpa using hc),
        List.filterMap_cons_none (edge?_of_foreign hc)]
      exact ih hrest

/-- A move is refused for its operands' classes and for nothing else. -/
theorem Move.stop?_eq_refused_iff {m : Move} {r : Refusal} :
    m.stop? store c = some (.refused r) ↔ m.Mixed ∧ r = .mixedMove m.dst m.src m.instr := by
  by_cases hmix : m.Mixed
  · rw [stop?_of_mixed hmix]
    simp [hmix, eq_comm]
  · refine iff_of_false ?_ fun h => hmix h.1
    by_cases hc : m.OfClass c
    · cases hr : m.resolve store with
      | error f => simp [stop?_of_error hc hr]
      | ok x => simp [stop?_of_ok hc hr]
    · simp [stop?_of_foreign hmix hc]

namespace FlowGraph

variable {g : FlowGraph} {pairs : List (RangeKey × RangeKey)}

/-! ### Pairs that are new -/

/-- The pairs of a list that are no edges yet, each where it comes in first. -/
def newEdges (g : FlowGraph) (pairs : List (RangeKey × RangeKey)) : List (RangeKey × RangeKey) :=
  (pairs.filter fun e => !g.hasEdge e.1 e.2).eraseDups

theorem newEdges_concat_of_old {e : RangeKey × RangeKey} (h : g.Edge e.1 e.2 ∨ e ∈ pairs) :
    g.newEdges (pairs ++ [e]) = g.newEdges pairs := by
  unfold newEdges
  rw [List.filter_append, List.filter_singleton]
  -- an edge is left out at once, and a pair from before as a repetition
  by_cases hedge : g.Edge e.1 e.2
  · rw [hasEdge_iff.2 hedge, Bool.not_true, cond_false, List.append_nil]
  · have hno : g.hasEdge e.1 e.2 = false := by simpa [← hasEdge_iff] using hedge
    have hmem : e ∈ pairs.filter fun e => !g.hasEdge e.1 e.2 :=
      List.mem_filter.2 ⟨h.resolve_left hedge, by rw [hno, Bool.not_false]⟩
    rw [hno, Bool.not_false, cond_true, eraseDups_concat, if_pos hmem]

theorem newEdges_concat_of_new {e : RangeKey × RangeKey} (h : ¬ (g.Edge e.1 e.2 ∨ e ∈ pairs)) :
    g.newEdges (pairs ++ [e]) = g.newEdges pairs ++ [e] := by
  obtain ⟨hedge, hmem⟩ := not_or.1 h
  have hno : g.hasEdge e.1 e.2 = false := by simpa [← hasEdge_iff] using hedge
  have hmem' : e ∉ pairs.filter fun e => !g.hasEdge e.1 e.2 := fun h => hmem (List.mem_filter.1 h).1
  unfold newEdges
  rw [List.filter_append, List.filter_singleton, hno, Bool.not_false, cond_true, eraseDups_concat,
    if_neg hmem']

theorem insertEdges_concat (g : FlowGraph) (pairs : List (RangeKey × RangeKey))
    (e : RangeKey × RangeKey) :
    g.insertEdges (pairs ++ [e]) = (g.insertEdges pairs).insertEdge e.1 e.2 :=
  List.foldl_concat _ g e pairs

/-- Inserting edges unites a graph with them. -/
theorem edge_insertEdges_iff {a b : RangeKey} :
    (g.insertEdges pairs).Edge a b ↔ g.Edge a b ∨ (a, b) ∈ pairs := by
  -- from the back, as the last pair is inserted last
  induction pairs using List.reverseRecOn with
  | nil => simp [insertEdges]
  | append_singleton pairs e ih =>
    rw [insertEdges_concat, edge_insertEdge_iff, ih, or_assoc, List.mem_append,
      List.mem_singleton, Prod.ext_iff]

/-- A new edge goes behind the other targets of its source. -/
theorem targets_insertEdge_of_new {src dst : RangeKey} (h : ¬ g.Edge src dst) (a : RangeKey) :
    (g.insertEdge src dst).targets a =
      if a = src then g.targets a ++ [dst] else g.targets a := by
  unfold targets
  rw [targetSet?_insertEdge]
  -- a source without a target set gets one of the new edge alone
  split
  · next ha =>
    subst ha
    rw [edge_iff_mem_targetSet?] at h
    rw [Option.elim_some, KeySet.toList_insert_of_notMem h]
    cases g.targetSet? a <;> rfl
  · rfl

/-- A pair that is no new edge changes nothing when it is inserted last. -/
theorem insertEdges_concat_of_old {e : RangeKey × RangeKey} (h : g.Edge e.1 e.2 ∨ e ∈ pairs) :
    g.insertEdges (pairs ++ [e]) = g.insertEdges pairs := by
  rw [insertEdges_concat]
  exact if_pos (hasEdge_iff.2 (edge_insertEdges_iff.2 h))

/-- **Where edges go.** Inserted in order, those that are new stand behind the targets from before. -/
theorem targets_insertEdges (g : FlowGraph) (pairs : List (RangeKey × RangeKey)) (a : RangeKey) :
    (g.insertEdges pairs).targets a = g.targets a ++ destinations (g.newEdges pairs) a := by
  induction pairs using List.reverseRecOn with
  | nil => exact (List.append_nil _).symm
  | append_singleton pairs e ih =>
    -- the last pair is an edge by now, or goes behind the targets of its source
    by_cases hold : g.Edge e.1 e.2 ∨ e ∈ pairs
    · rw [insertEdges_concat_of_old hold, newEdges_concat_of_old hold, ih]
    · have hnew : ¬ (g.insertEdges pairs).Edge e.1 e.2 := fun h => hold (edge_insertEdges_iff.1 h)
      calc (g.insertEdges (pairs ++ [e])).targets a
          = if a = e.1 then (g.insertEdges pairs).targets a ++ [e.2]
            else (g.insertEdges pairs).targets a := by
            rw [insertEdges_concat]
            exact targets_insertEdge_of_new hnew a
        _ = g.targets a ++ destinations (g.newEdges pairs ++ [e]) a := by
          rw [ih, destinations_concat]
          split
          · exact List.append_assoc _ _ _
          · rfl
        _ = g.targets a ++ destinations (g.newEdges (pairs ++ [e])) a := by
          rw [newEdges_concat_of_new hold]

/-- Edges that are new are counted, and no others. -/
theorem edges_insertEdges (g : FlowGraph) (pairs : List (RangeKey × RangeKey)) :
    (g.insertEdges pairs).edges = g.edges + UInt32.ofNat (g.newEdges pairs).length := by
  induction pairs using List.reverseRecOn with
  | nil => exact (UInt32.add_zero _).symm
  | append_singleton pairs e ih =>
    by_cases hold : g.Edge e.1 e.2 ∨ e ∈ pairs
    · rw [insertEdges_concat_of_old hold, newEdges_concat_of_old hold, ih]
    · have hnew : ¬ (g.insertEdges pairs).hasEdge e.1 e.2 = true := fun h =>
        hold (edge_insertEdges_iff.1 (hasEdge_iff.1 h))
      calc (g.insertEdges (pairs ++ [e])).edges
          = (g.insertEdges pairs).edges + 1 := by
            rw [insertEdges_concat, insertEdge, if_neg hnew]
        _ = g.edges + UInt32.ofNat (g.newEdges (pairs ++ [e])).length := by
          rw [ih, newEdges_concat_of_new hold, List.length_append, UInt32.ofNat_add, UInt32.add_assoc]
          rfl

/-! ### Two intakes -/

/-- What became of an intake and the next one, if they are taken for a single one. -/
def Intake.followed (first second : Intake) : Intake :=
  { second with resolved := first.resolved ++ second.resolved }

/-- **Two intakes are one.** After an intake that came to its end the next one goes on. -/
theorem addMoves_append (h : (g.addMoves store c moves).stop = none) (later : List Move) :
    g.addMoves store c (moves ++ later) =
      (g.addMoves store c moves).followed
        ((g.addMoves store c moves).graph.addMoves store c later) := by
  induction moves generalizing g with
  | nil => rfl
  | cons m rest ih =>
    obtain ⟨hmix, hres⟩ := addMoves_stop_eq_none h m List.mem_cons_self
    rw [List.cons_append]
    -- the first move was taken, so the others start from the graph that it leaves
    by_cases hc : m.OfClass c
    · obtain ⟨r, hr⟩ := hres hc
      rw [addMoves_cons_of_ok hc hr] at h ⊢
      rw [addMoves_cons_of_ok hc hr]
      dsimp only at h ⊢
      rw [ih h]
      rfl
    · rw [addMoves_cons_of_foreign hmix hc] at h ⊢
      rw [addMoves_cons_of_foreign hmix hc, ih h]

/-- A refusal is for the first move that is mixed, and there is nothing to it but the count. -/
theorem addMoves_of_refused {r : Refusal} (h : (g.addMoves store c moves).stop = some (.refused r)) :
    ∃ before m after, moves = before ++ m :: after ∧ (∀ b ∈ before, ¬ b.Mixed) ∧ m.Mixed ∧
      r = .mixedMove m.dst m.src m.instr ∧ (g.addMoves store c before).stop = none ∧
      g.addMoves store c moves =
        ⟨(g.addMoves store c before).graph.countMove, (g.addMoves store c before).resolved,
          some (.refused r)⟩ := by
  rw [addMoves_stop, List.findSome?_eq_some_iff] at h
  obtain ⟨before, m, after, rfl, hm, hbefore⟩ := h
  obtain ⟨hmix, rfl⟩ := Move.stop?_eq_refused_iff.1 hm
  -- no move before it stops, so the intake of those comes to its end
  have hend : (g.addMoves store c before).stop = none := by
    rw [addMoves_stop, List.findSome?_eq_none_iff]
    exact hbefore
  refine ⟨before, m, after, rfl, fun b hb => (addMoves_stop_eq_none hend b hb).1, hmix, rfl, hend, ?_⟩
  rw [addMoves_append hend, addMoves_cons_of_mixed hmix, Intake.followed, List.append_nil]

/-! ### Any intake -/

/-- **What an intake leaves behind**, over any store and from any graph:

* if it comes to its end, the moves of the class have each brought a pair of ranges; the edges are
  those from before and these pairs, and the pairs that are new stand behind the targets from before in
  the order of the moves; the counts have grown by the pairs that are new, by all moves, and by the
  moves of the class;
* if it is refused, that is for the first move whose operands differ in class, and all is as the moves
  before it leave it, but for one more move counted;
* if it comes to its end, an intake after it goes on as if all moves had been given at once. -/
theorem addMoves_exact (store : σ) (c : RegClass) (g : FlowGraph) (moves : List Move) :
    ((g.addMoves store c moves).stop = none →
      ∃ pairs, List.Forall₂ (Move.Brings store) (moves.filter fun m => decide (m.OfClass c)) pairs ∧
        (∀ a b, (g.addMoves store c moves).graph.Edge a b ↔ g.Edge a b ∨ (a, b) ∈ pairs) ∧
        (∀ a, (g.addMoves store c moves).graph.targets a =
          g.targets a ++ destinations (g.newEdges pairs) a) ∧
        (g.addMoves store c moves).graph.edges =
          g.edges + UInt32.ofNat (g.newEdges pairs).length ∧
        (g.addMoves store c moves).graph.moves = g.moves + UInt32.ofNat moves.length ∧
        (g.addMoves store c moves).graph.refMoves =
          g.refMoves + UInt32.ofNat (moves.filter fun m => decide (m.OfClass c)).length) ∧
    (∀ r, (g.addMoves store c moves).stop = some (.refused r) →
      ∃ before m after, moves = before ++ m :: after ∧ (∀ b ∈ before, ¬ b.Mixed) ∧ m.Mixed ∧
        r = .mixedMove m.dst m.src m.instr ∧ (g.addMoves store c before).stop = none ∧
        g.addMoves store c moves =
          ⟨(g.addMoves store c before).graph.countMove, (g.addMoves store c before).resolved,
            some (.refused r)⟩) ∧
    ((g.addMoves store c moves).stop = none → ∀ later,
      g.addMoves store c (moves ++ later) =
        (g.addMoves store c moves).followed
          ((g.addMoves store c moves).graph.addMoves store c later)) := by
  refine ⟨?_, fun r => addMoves_of_refused, addMoves_append⟩
  intro h
  -- none stopped, so every move has brought its pair
  have hbrought : broughtEdges store c moves = moves.filterMap (Move.edge? store c) := by
    rw [broughtEdges, taken_of_stop_eq_none h]
  refine ⟨broughtEdges store c moves, ?_, ?_⟩
  · rw [hbrought]
    exact Move.forall₂_brings fun m hm => (addMoves_stop_eq_none h m hm).2
  · rw [graph_addMoves, examined_of_stop_eq_none h, moves_insertEdges, refMoves_insertEdges,
      ← List.countP_eq_length_filter]
    -- other counts of moves change neither edges nor their count, nor which pairs are new
    exact ⟨fun _ _ => edge_insertEdges_iff, targets_insertEdges _ _, edges_insertEdges _ _, rfl, rfl⟩

/-- The ranges of `Liveness.looping` with their directory. -/
def loopingStore : Indexed := ⟨Liveness.looping, .ofLiveness Liveness.looping⟩

/-- One of the edges that the moves round the loop bring, and one more from a source of theirs. -/
def knotted : FlowGraph := after [.edge ⟨1⟩ ⟨2⟩, .edge ⟨2⟩ ⟨7⟩]

/-- A copy of another class, whose registers have no ranges, then one between classes, and one that is
no longer examined. -/
def tangledMoves : List Move := [
  ⟨⟨.virtual, .f32, 8⟩, ⟨.virtual, .f32, 7⟩, 1, 1⟩,
  ⟨⟨.virtual, .f64, 9⟩, ⟨.virtual, .i64, 0⟩, 1, 1⟩, ⟨⟨.virtual, .i64, 0⟩, ⟨.virtual, .f32, 7⟩, 1, 1⟩]

theorem addMoves_exact_knotted :
    (knotted.addMoves loopingStore .i64 Liveness.loopingMoves).stop = none ∧
      (∃ pairs, List.Forall₂ (Move.Brings loopingStore)
          (Liveness.loopingMoves.filter fun m => decide (m.OfClass .i64)) pairs ∧
        ∀ a, (knotted.addMoves loopingStore .i64 Liveness.loopingMoves).graph.targets a =
          knotted.targets a ++ destinations (knotted.newEdges pairs) a) ∧
      (knotted.addMoves loopingStore .i64 Liveness.loopingMoves).graph.targets ⟨2⟩ = [⟨7⟩, ⟨1⟩] ∧
      knotted.addMoves loopingStore .i64 (Liveness.loopingMoves ++ tangledMoves) =
        (knotted.addMoves loopingStore .i64 Liveness.loopingMoves).followed
          ((knotted.addMoves loopingStore .i64 Liveness.loopingMoves).graph.addMoves loopingStore
            .i64 tangledMoves) ∧
      (knotted.addMoves loopingStore .i64 tangledMoves).stop =
        some (.refused (.mixedMove ⟨.virtual, .f64, 9⟩ ⟨.virtual, .i64, 0⟩ 1)) ∧
      ∃ before m after, tangledMoves = before ++ m :: after ∧ (∀ b ∈ before, ¬ b.Mixed) ∧ m.Mixed ∧
        (knotted.addMoves loopingStore .i64 tangledMoves).graph =
          (knotted.addMoves loopingStore .i64 before).graph.countMove := by
  have hfirst : (knotted.addMoves loopingStore .i64 Liveness.loopingMoves).stop = none := by
    decide +kernel
  have hstopped : (knotted.addMoves loopingStore .i64 tangledMoves).stop =
      some (.refused (.mixedMove ⟨.virtual, .f64, 9⟩ ⟨.virtual, .i64, 0⟩ 1)) := by decide +kernel
  obtain ⟨hgain, -, hnext⟩ := addMoves_exact loopingStore .i64 knotted Liveness.loopingMoves
  obtain ⟨-, hrefused, -⟩ := addMoves_exact loopingStore .i64 knotted tangledMoves
  obtain ⟨pairs, hpairs, -, htargets, -⟩ := hgain hfirst
  obtain ⟨before, m, after, hsplit, hbefore, hm, -, -, hleft⟩ := hrefused _ hstopped
  refine ⟨hfirst, ⟨pairs, hpairs, htargets⟩, by decide +kernel, hnext hfirst tangledMoves, hstopped,
    before, m, after, hsplit, hbefore, hm, ?_⟩
  exact congrArg Intake.graph hleft

end FlowGraph

end RefFlow
