import RefFlow.FlowGraph.Basic
import RefFlow.Refusal
import RefFlow.Store.Basic
/-!
# From moves to edges

Each move of the class that carries references becomes an edge from the range of its source, live
where the instruction uses its operands, to the range of its destination, live where the
instruction defines its results. Moves of other classes are passed over before their registers are
looked up: they carry no reference, and their registers need not have ranges at all.

Main definitions:

* `Move.resolve` finds the two ranges of a move;
* `FlowGraph.addMoves` takes the moves in order and stops at the first that cannot be taken.
-/

namespace RefFlow

/-- A move together with the ranges it copies between. -/
structure ResolvedMove where
  move : Move
  src : RangeKey
  dst : RangeKey
  deriving DecidableEq, Repr

namespace ResolvedMove

/-- The resolved move as a line of the log. -/
def line (r : ResolvedMove) : String :=
  "move from " ++ r.move.src.text ++ " (range " ++ r.src.text ++ ") to " ++ r.move.dst.text
    ++ " (range " ++ r.dst.text ++ ") at inst " ++ toString r.move.instr

end ResolvedMove

/-- The ranges of a move: of its source at the use point, then of its destination at the definition
point. If both are missing, the source is the one reported. -/
def Move.resolve {σ : Type} [RangeStore σ] (store : σ) (m : Move) : Except Fault ResolvedMove :=
  match RangeStore.locate store (.useOf m.instr) m.src with
  | .error f => .error f
  | .ok src =>
    match RangeStore.locate store (.defOf m.instr) m.dst with
    | .error f => .error f
    | .ok dst => .ok ⟨m, src, dst⟩

namespace FlowGraph

/-- What became of a list of moves: the graph with all that was taken, the moves that were resolved
in their order, and why the rest was not taken. -/
structure Intake where
  graph : FlowGraph
  resolved : List ResolvedMove
  stop : Option Stop
  deriving DecidableEq, Repr

/-- Takes the moves in order into the graph, whatever it holds already. Every move that is examined is
counted, also one that is not taken and ends the intake. -/
def addMoves {σ : Type} [RangeStore σ] (store : σ) (c : RegClass) (g : FlowGraph) :
    List Move → Intake
  | [] => ⟨g, [], none⟩
  | m :: rest =>
    -- classes are compared before anything is looked up
    if m.Mixed then ⟨g.countMove, [], some (.refused (.mixedMove m.dst m.src m.instr))⟩
    else if m.dst.cls ≠ c then addMoves store c g.countMove rest
    else
      -- a move that then faults was counted all the same
      let counted := g.countMove.countRefMove
      match m.resolve store with
      | .error f => ⟨counted, [], some (.faulted f)⟩
      | .ok r =>
        let tail := addMoves store c (counted.insertEdge r.src r.dst) rest
        { tail with resolved := r :: tail.resolved }

@[simp] theorem addMoves_nil {σ : Type} [RangeStore σ] (store : σ) (c : RegClass) (g : FlowGraph) :
    addMoves store c g [] = ⟨g, [], none⟩ := rfl

end FlowGraph

end RefFlow
