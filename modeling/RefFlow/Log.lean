import RefFlow.FlowGraph.Moves
import RefFlow.Summary
/-!
# The log of a run

A run leaves a list of entries. Each belongs to a channel, and switches say which channels are
shown. What a run does never depends on the switches.
-/

namespace RefFlow

inductive Entry
  | banner
  | census (pinned virtuals moves : Nat)
  | resolved (r : ResolvedMove)
  | graph (g : FlowGraph)
  | seed (n : SeedNote)
  | reached (k : RangeKey)
  | summary (s : Summary)
  deriving DecidableEq, Repr

/-- Which entries are shown: the steps of the analysis, the graph, the counts. -/
structure Switches where
  steps : Bool
  graph : Bool
  summary : Bool
  deriving DecidableEq, Repr, Inhabited

namespace Switches

def off : Switches := ⟨false, false, false⟩

def shows (sw : Switches) : Entry → Bool
  | .graph _ => sw.graph
  | .summary _ => sw.summary
  | _ => sw.steps

end Switches

namespace Entry

def lines : Entry → List String
  | banner => ["********** REFTYPES ANALYSIS **********"]
  | census pinned virtuals moves =>
    ["********** " ++ toString pinned ++ " real ranges, " ++ toString virtuals
      ++ " virtual ranges, " ++ toString moves ++ " moves"]
  | resolved r => [r.line]
  | graph g => g.lines
  | seed n => [n.line]
  | reached k => [" -> range " ++ k.text ++ " is reffy"]
  | summary s => [s.line]

end Entry

end RefFlow
