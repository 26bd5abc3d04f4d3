import RefFlow.FlowGraph.Search
import RefFlow.Log
import RefFlow.Seeding
/-!
# Surveying a request

Everything the analysis finds out before it marks anything: the graph of the moves and the ranges of
the seeds. A survey only reads the store, so a request that is refused, or that faults, leaves no
trace in it.

Main definitions:

* `Survey` — the graph and the seeds' ranges, with what can be reached from them;
* `survey` takes the moves into a graph and then collects the seeds, with a log of both.
-/

namespace RefFlow

/-- What a request comes to: the graph of its moves and the ranges of its seeds. -/
structure Survey where
  graph : FlowGraph
  seeds : KeySet
  deriving DecidableEq, Repr

namespace Survey

/-- All ranges that a reference can get to. -/
def reached (s : Survey) : KeySet := s.graph.closure s.seeds

/-- The counts of a run that marks what is reached. -/
def summary (s : Survey) : Summary := Summary.ofSets s.graph s.seeds s.reached

/-- The ranges to mark, in the order of their printed names. -/
def marking (s : Survey) : List RangeKey := s.reached.byName

/-- The end of the log of a run that marks them: each range and then the counts. -/
def markingLog (s : Survey) : List Entry := s.marking.map .reached ++ [.summary s.summary]

end Survey

/-- Surveys a request: first the moves, then the seeds. The first stage that stops ends the survey.
The log has the moves that were resolved, the graph if it is complete, and what was found for the
seeds. -/
def survey {σ : Type} [RangeStore σ] (store : σ) (moves : List Move) (req : Request) :
    Except Stop Survey × List Entry :=
  let intake := FlowGraph.empty.addMoves store req.refClass moves
  let moveLog := intake.resolved.map Entry.resolved
  match intake.stop with
  | some stop => (.error stop, moveLog)
  | none =>
    -- no seed is looked at before all moves were taken
    let seeding := Seeding.collect store req ∅
    let log := moveLog ++ .graph intake.graph :: seeding.notes.map .seed
    match seeding.stop with
    | some stop => (.error stop, log)
    | none => (.ok ⟨intake.graph, seeding.set⟩, log)

end RefFlow
