import RefFlow.KeySet
/-!
# The flow graph

An edge from one range to another says that a move copies the first into the second. The graph
keeps, for every range with an outgoing edge, its targets in the order in which they came in, and
it counts what it was built from. The counts are 32-bit words.

Main definitions:

* `FlowGraph.insertEdge` adds an edge that is not there yet;
* `FlowGraph.targetSet?` is the target set of a range, if it has one;
* `FlowGraph.lines` is the printed graph.
-/

namespace RefFlow

/-- Target sets by source, in the order in which the sources came in. -/
abbrev Adjacency := List (RangeKey × KeySet)

/-- Adds a target to a source, which becomes the last one if it is new. -/
def Adjacency.link (src dst : RangeKey) : Adjacency → Adjacency
  | [] => [(src, (∅ : KeySet).insert dst)]
  | (k, targets) :: rest =>
    if k = src then (k, targets.insert dst) :: rest else (k, targets) :: link src dst rest

/-- Edges between ranges, the number of edges, and the numbers of moves examined: of all classes,
and of the class that carries references. -/
structure FlowGraph where
  adjacency : Adjacency
  edges : UInt32
  moves : UInt32
  refMoves : UInt32
  deriving DecidableEq, Repr

namespace FlowGraph

def empty : FlowGraph := ⟨[], 0, 0, 0⟩

instance : Inhabited FlowGraph := ⟨empty⟩

/-- The targets of a range; `none` if it has no outgoing edge. -/
def targetSet? (g : FlowGraph) (k : RangeKey) : Option KeySet := g.adjacency.lookup k

/-- The targets of a range in the order in which they came in. -/
def targets (g : FlowGraph) (k : RangeKey) : List RangeKey :=
  (g.targetSet? k).elim [] KeySet.toList

/-- Whether there is an edge from `src` to `dst`. -/
def hasEdge (g : FlowGraph) (src dst : RangeKey) : Bool := decide (dst ∈ g.targets src)

/-- Adds an edge and counts it; an edge that is already there changes nothing. -/
def insertEdge (g : FlowGraph) (src dst : RangeKey) : FlowGraph :=
  if g.hasEdge src dst then g
  else { g with adjacency := g.adjacency.link src dst, edges := g.edges + 1 }

/-- Adds an edge, and tells whether it was not there yet. -/
def addEdge (g : FlowGraph) (src dst : RangeKey) : Bool × FlowGraph :=
  (!g.hasEdge src dst, g.insertEdge src dst)

/-- Counts a move that was examined. -/
def countMove (g : FlowGraph) : FlowGraph := { g with moves := g.moves + 1 }

/-- Counts a move of the class that carries references. -/
def countRefMove (g : FlowGraph) : FlowGraph := { g with refMoves := g.refMoves + 1 }

/-- The number of ranges with an outgoing edge. -/
def sourceCount (g : FlowGraph) : Nat := g.adjacency.length

@[simp] theorem targets_countMove (g : FlowGraph) (k : RangeKey) :
    g.countMove.targets k = g.targets k := rfl

@[simp] theorem targets_countRefMove (g : FlowGraph) (k : RangeKey) :
    g.countRefMove.targets k = g.targets k := rfl

/-! ### The printed graph -/

/-- The printed targets of one range. -/
def adjacencyLine (e : RangeKey × KeySet) : String :=
  "  " ++ e.1.text ++ " ->" ++ String.join (e.2.toList.map (" " ++ ·.text))

/-- The sources with their targets, in the order of the sources' printed names. -/
def byName (g : FlowGraph) : Adjacency :=
  g.adjacency.mergeSort fun a b => !decide (b.1.text < a.1.text)

/-- The first line of the printed graph. -/
def header (g : FlowGraph) : String :=
  "MoveGraph: " ++ toString g.sourceCount ++ " sources, " ++ toString g.edges.toNat ++ " edges"

/-- The printed graph: a header, then a line for each range with an outgoing edge. -/
def lines (g : FlowGraph) : List String := g.header :: g.byName.map adjacencyLine

end FlowGraph

end RefFlow
