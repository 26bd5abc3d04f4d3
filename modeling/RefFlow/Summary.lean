import RefFlow.FlowGraph.Basic
/-!
# The counts of a run

What a run that came to its end reports, in 32-bit words.
-/

namespace RefFlow

structure Summary where
  moves : UInt32
  refMoves : UInt32
  edges : UInt32
  seedRanges : UInt32
  markedReal : UInt32
  markedVirtual : UInt32
  deriving DecidableEq, Repr, Inhabited

namespace Summary

/-- The counts of a graph, of the seeds' ranges and of the ranges that were marked. -/
def ofSets (g : FlowGraph) (seeds reached : KeySet) : Summary where
  moves := g.moves
  refMoves := g.refMoves
  edges := g.edges
  seedRanges := UInt32.ofNat seeds.size
  markedReal := UInt32.ofNat (reached.toList.countP (·.kind == .real))
  markedVirtual := UInt32.ofNat (reached.toList.countP (·.kind == .virtual))

/-- The number of marked ranges of both kinds. -/
def marked (s : Summary) : UInt32 := s.markedReal + s.markedVirtual

def line (s : Summary) : String :=
  "reftypes: " ++ toString s.moves.toNat ++ " moves, "
    ++ toString s.refMoves.toNat ++ " reference class moves, "
    ++ toString s.edges.toNat ++ " edges, "
    ++ toString s.seedRanges.toNat ++ " seed ranges, marked "
    ++ toString s.markedReal.toNat ++ " real and "
    ++ toString s.markedVirtual.toNat ++ " virtual ranges"

def text (s : Summary) : String := s.line ++ "\n"

end Summary

end RefFlow
