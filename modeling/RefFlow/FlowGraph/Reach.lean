import RefFlow.FlowGraph.Basic
/-!
# Reachability

`FlowGraph.Reaches g a b` says that a path of edges leads from `a` to `b`, possibly of no edges at
all. It is what the search of a graph is measured against.
-/

namespace RefFlow

namespace FlowGraph

/-- There is an edge from `a` to `b`. -/
def Edge (g : FlowGraph) (a b : RangeKey) : Prop := b ∈ g.targets a

instance (g : FlowGraph) (a b : RangeKey) : Decidable (g.Edge a b) :=
  inferInstanceAs (Decidable (b ∈ g.targets a))

/-- A path of zero or more edges leads from `a` to the other range. -/
inductive Reaches (g : FlowGraph) (a : RangeKey) : RangeKey → Prop
  | refl : Reaches g a a
  | tail {b c : RangeKey} : Reaches g a b → g.Edge b c → Reaches g a c

theorem hasEdge_iff {g : FlowGraph} {a b : RangeKey} : g.hasEdge a b = true ↔ g.Edge a b := by
  simp [hasEdge, Edge]

end FlowGraph

end RefFlow
