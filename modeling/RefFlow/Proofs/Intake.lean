import RefFlow.Proofs.Verdict
import Mathlib.Data.List.TakeWhile
/-!
# What an intake does to a graph

Moves are examined in order, and an intake ends with the first move that stops it. The moves before
that one are taken: those of the reference class bring their edges, the others nothing. All moves that
are examined are counted, the last one too. So whatever comes of an intake, the graph is the one from
before with other counts and with some edges inserted (`FlowGraph.graph_addMoves`), and what is true
of every inserted edge is true of intakes.

Main definitions and statements:

* `FlowGraph.taken`, `FlowGraph.examined` — the moves that are taken, and those that are examined;
* `FlowGraph.insertEdges` — inserts edges in order;
* `FlowGraph.graph_addMoves` — the graph after any intake.
-/

namespace RefFlow

section Edge

variable {σ : Type} [RangeStore σ] {store : σ} {c : RegClass} {m : Move}

/-! ### The edge of one move -/

/-- The edge that a move brings when it is taken, between its ranges; `none` if it is of another class. -/
def Move.edge? (store : σ) (c : RegClass) (m : Move) : Option (RangeKey × RangeKey) :=
  if m.OfClass c then
    match m.resolve store with
    | .ok r => some (r.src, r.dst)
    | .error _ => none
  else none

theorem Move.edge?_of_foreign (hc : ¬ m.OfClass c) : m.edge? store c = none := if_neg hc

theorem Move.edge?_of_ok {r : ResolvedMove} (hc : m.OfClass c) (hr : m.resolve store = .ok r) :
    m.edge? store c = some (r.src, r.dst) := by
  unfold edge?
  rw [if_pos hc, hr]

end Edge

namespace FlowGraph

/-! ### The part of a list of moves -/

section Prefixes

variable {σ : Type} [RangeStore σ] {store : σ} {c : RegClass} {m : Move} {rest moves : List Move}

/-- The moves before the first one that stops. -/
def taken (store : σ) (c : RegClass) (moves : List Move) : List Move :=
  moves.takeWhile fun m => (m.stop? store c).isNone

/-- The moves that are taken and the one, if any, that stops. -/
def examined (store : σ) (c : RegClass) (moves : List Move) : List Move :=
  moves.take ((taken store c moves).length + 1)

/-- The edges that the taken moves bring, in order. -/
def broughtEdges (store : σ) (c : RegClass) (moves : List Move) : List (RangeKey × RangeKey) :=
  (taken store c moves).filterMap (Move.edge? store c)

theorem taken_cons_of_stop {stop : Stop} (h : m.stop? store c = some stop) :
    taken store c (m :: rest) = [] := by
  refine List.takeWhile_cons_of_neg ?_
  rw [h]
  exact Bool.false_ne_true

theorem taken_cons_of_none (h : m.stop? store c = none) :
    taken store c (m :: rest) = m :: taken store c rest := by
  refine List.takeWhile_cons_of_pos ?_
  rw [h]
  rfl

theorem examined_cons_of_stop {stop : Stop} (h : m.stop? store c = some stop) :
    examined store c (m :: rest) = [m] := by
  unfold examined
  rw [taken_cons_of_stop h]
  rfl

theorem examined_cons_of_none (h : m.stop? store c = none) :
    examined store c (m :: rest) = m :: examined store c rest := by
  unfold examined
  rw [taken_cons_of_none h]
  rfl

theorem broughtEdges_cons_of_stop {stop : Stop} (h : m.stop? store c = some stop) :
    broughtEdges store c (m :: rest) = [] := by
  unfold broughtEdges
  rw [taken_cons_of_stop h]
  rfl

theorem broughtEdges_cons_of_none (h : m.stop? store c = none) :
    broughtEdges store c (m :: rest) = (m.edge? store c).toList ++ broughtEdges store c rest := by
  unfold broughtEdges
  rw [taken_cons_of_none h, List.filterMap_cons]
  cases m.edge? store c <;> rfl

/-- If nothing stops, all moves are taken. -/
theorem taken_of_stop_eq_none {g : FlowGraph} (h : (g.addMoves store c moves).stop = none) :
    taken store c moves = moves := by
  rw [addMoves_stop, List.findSome?_eq_none_iff] at h
  rw [taken, List.takeWhile_eq_self_iff]
  intro m hm
  rw [h m hm]
  rfl

/-- If nothing stops, all moves are examined. -/
theorem examined_of_stop_eq_none {g : FlowGraph} (h : (g.addMoves store c moves).stop = none) :
    examined store c moves = moves := by
  rw [examined, taken_of_stop_eq_none h]
  exact List.take_of_length_le (Nat.le_succ _)

end Prefixes

/-! ### Inserting edges -/

variable {g : FlowGraph}

/-- Inserts edges in order. -/
def insertEdges (g : FlowGraph) (pairs : List (RangeKey × RangeKey)) : FlowGraph :=
  pairs.foldl (fun g p => g.insertEdge p.1 p.2) g

/-- The graph with other counts of moves. -/
def recount (g : FlowGraph) (moves refMoves : UInt32) : FlowGraph := { g with moves, refMoves }

/-- Edges and counts of moves do not see each other. -/
theorem recount_insertEdge (src dst : RangeKey) (moves refMoves : UInt32) :
    (g.insertEdge src dst).recount moves refMoves =
      (g.recount moves refMoves).insertEdge src dst := by
  -- whether an edge is new is not asked of the counts
  have hsame : (g.recount moves refMoves).hasEdge src dst = g.hasEdge src dst := rfl
  unfold insertEdge
  rw [hsame]
  split <;> rfl

theorem moves_insertEdge (g : FlowGraph) (src dst : RangeKey) :
    (g.insertEdge src dst).moves = g.moves := by
  unfold insertEdge
  split <;> rfl

theorem refMoves_insertEdge (g : FlowGraph) (src dst : RangeKey) :
    (g.insertEdge src dst).refMoves = g.refMoves := by
  unfold insertEdge
  split <;> rfl

/-- What holds of a graph, and goes on to hold when an edge is inserted, holds when edges are. -/
theorem insertEdges_induction {P : FlowGraph → Prop} (hg : P g)
    (hstep : ∀ g src dst, P g → P (g.insertEdge src dst)) (pairs : List (RangeKey × RangeKey)) :
    P (g.insertEdges pairs) := by
  induction pairs generalizing g with
  | nil => exact hg
  | cons p pairs ih => exact ih (hstep g p.1 p.2 hg)

theorem moves_insertEdges (g : FlowGraph) (pairs : List (RangeKey × RangeKey)) :
    (g.insertEdges pairs).moves = g.moves :=
  insertEdges_induction (P := fun h => h.moves = g.moves) rfl
    (fun h a b hh => (moves_insertEdge h a b).trans hh) pairs

theorem refMoves_insertEdges (g : FlowGraph) (pairs : List (RangeKey × RangeKey)) :
    (g.insertEdges pairs).refMoves = g.refMoves :=
  insertEdges_induction (P := fun h => h.refMoves = g.refMoves) rfl
    (fun h a b hh => (refMoves_insertEdge h a b).trans hh) pairs

theorem recount_insertEdges (pairs : List (RangeKey × RangeKey)) (moves refMoves : UInt32) :
    (g.insertEdges pairs).recount moves refMoves =
      (g.recount moves refMoves).insertEdges pairs := by
  induction pairs generalizing g with
  | nil => rfl
  | cons p pairs ih =>
    show ((g.insertEdge p.1 p.2).insertEdges pairs).recount moves refMoves = _
    rw [ih, recount_insertEdge]
    rfl

/-! ### Any intake -/

section Intake

variable {σ : Type} [RangeStore σ] {store : σ} {c : RegClass}

private theorem add_one_add_ofNat (w : UInt32) (n : Nat) :
    w + 1 + UInt32.ofNat n = w + UInt32.ofNat (n + 1) := by
  rw [UInt32.ofNat_add, UInt32.add_assoc, UInt32.add_comm 1]
  rfl

/-- **The graph after an intake**, whether it came to its end or not: the moves that were examined are
counted, and the edges of those that were taken are inserted. -/
theorem graph_addMoves (g : FlowGraph) (moves : List Move) :
    (g.addMoves store c moves).graph =
      (g.recount (g.moves + UInt32.ofNat (examined store c moves).length)
        (g.refMoves + UInt32.ofNat ((examined store c moves).countP fun m =>
          decide (m.OfClass c)))).insertEdges (broughtEdges store c moves) := by
  -- by the moves; each changes the graph that the rest starts from
  induction moves generalizing g with
  | nil =>
    have hmoves : g.moves + UInt32.ofNat 0 = g.moves := UInt32.add_zero _
    have hrefMoves : g.refMoves + UInt32.ofNat 0 = g.refMoves := UInt32.add_zero _
    change g = g.recount (g.moves + UInt32.ofNat 0) (g.refMoves + UInt32.ofNat 0)
    rw [hmoves, hrefMoves]
    rfl
  | cons m rest ih =>
    by_cases hmix : m.Mixed
    -- a mixed move is counted, and ends the intake
    · have hc : ¬ m.OfClass c := fun hc => hc.not_mixed hmix
      have hstop : m.stop? store c = some (.refused (.mixedMove m.dst m.src m.instr)) :=
        Move.stop?_of_mixed hmix
      rw [addMoves_cons_of_mixed hmix, examined_cons_of_stop hstop,
        broughtEdges_cons_of_stop hstop, List.countP_singleton, if_neg (by simpa using hc)]
      change g.countMove = g.recount (g.moves + 1) (g.refMoves + 0)
      rw [UInt32.add_zero]
      rfl
    by_cases hc : m.OfClass c
    · cases hr : m.resolve store with
      -- so does one that lacks a range, which is of the class and counted as such
      | error f =>
        have hstop := Move.stop?_of_error hc hr
        rw [addMoves_cons_of_error hc hr, examined_cons_of_stop hstop,
          broughtEdges_cons_of_stop hstop, List.countP_singleton, if_pos (by simpa using hc)]
        rfl
      | ok r =>
        have hstop := Move.stop?_of_ok hc hr
        rw [addMoves_cons_of_ok hc hr, examined_cons_of_none hstop,
          broughtEdges_cons_of_none hstop, Move.edge?_of_ok hc hr, List.length_cons,
          List.countP_cons_of_pos (by simpa using hc)]
        dsimp only
        -- the edge of the move is inserted before the counts of the rest are added
        rw [ih, recount_insertEdge, moves_insertEdge, refMoves_insertEdge,
          ← add_one_add_ofNat g.moves, ← add_one_add_ofNat g.refMoves]
        rfl
    -- a move of another class is only counted
    · have hstop : m.stop? store c = none := Move.stop?_of_foreign hmix hc
      rw [addMoves_cons_of_foreign hmix hc, examined_cons_of_none hstop,
        broughtEdges_cons_of_none hstop, Move.edge?_of_foreign hc, List.length_cons,
        List.countP_cons_of_neg (by simpa using hc), ih, ← add_one_add_ofNat g.moves]
      rfl

end Intake

end FlowGraph

end RefFlow
