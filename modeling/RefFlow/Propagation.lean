import RefFlow.Store.Indexed
import RefFlow.Survey
/-!
# The analysis

Starting from the registers declared to hold a reference, the analysis finds and marks all ranges
that a reference can reach through moves:

1. the moves become a graph of ranges;
2. the seeds become a set of ranges;
3. all that can be reached from the set is marked.

The first two stages are a survey, which changes nothing.

Main definitions and statements:

* `propagate` runs the analysis over any store of ranges;
* `Liveness.propagate` runs it over a function's live ranges;
* `propagate_of_error`, `propagate_of_ok` — how a run follows from its survey.
-/

namespace RefFlow

/-- How a run ends. -/
inductive Outcome
  | finished (s : Summary)
  | refused (r : Refusal)
  | faulted (f : Fault)
  deriving DecidableEq, Repr

def Stop.outcome : Stop → Outcome
  | refused r => .refused r
  | faulted f => .faulted f

/-- What a run leaves behind: how it ended, the store with its marks, and the log. -/
structure Run (σ : Type) where
  outcome : Outcome
  store : σ
  log : List Entry

namespace Run

/-- A run with the entries of `before` in front of its log, as far as they are shown. -/
def headed {σ : Type} (sw : Switches) (before : List Entry) (r : Run σ) : Run σ :=
  { r with log := before.filter sw.shows ++ r.log }

def logLines {σ : Type} (r : Run σ) : List String := r.log.flatMap Entry.lines

end Run

/-- Marks all that can be reached from the seeds along the moves of the class that carries
references. A survey that stops ends the run before anything is marked. -/
def propagate {σ : Type} [RangeStore σ] (sw : Switches) (store : σ) (moves : List Move)
    (req : Request) : Run σ :=
  match survey store moves req with
  | (.error stop, log) => ⟨stop.outcome, store, log.filter sw.shows⟩
  | (.ok found, log) =>
    ⟨.finished found.summary, markAll store found.marking,
      (log ++ found.markingLog).filter sw.shows⟩

/-- A survey that stops ends the run with the store untouched. -/
theorem propagate_of_error {σ : Type} [RangeStore σ] {sw : Switches} {store : σ}
    {moves : List Move} {req : Request} {stop : Stop} {log : List Entry}
    (h : survey store moves req = (.error stop, log)) :
    propagate sw store moves req = ⟨stop.outcome, store, log.filter sw.shows⟩ := by
  unfold propagate
  rw [h]

/-- A survey that comes to its end has all that it reached marked. -/
theorem propagate_of_ok {σ : Type} [RangeStore σ] {sw : Switches} {store : σ}
    {moves : List Move} {req : Request} {found : Survey} {log : List Entry}
    (h : survey store moves req = (.ok found, log)) :
    propagate sw store moves req =
      ⟨.finished found.summary, markAll store found.marking,
        (log ++ found.markingLog).filter sw.shows⟩ := by
  unfold propagate
  rw [h]

/-- The analysis of a function's live ranges, found through a directory. -/
def Liveness.propagate (sw : Switches) (live : Liveness) (dir : Directory) (moves : List Move)
    (req : Request) : Run Indexed :=
  let before := [.banner, .census live.pinned.size live.virtuals.size moves.length]
  (RefFlow.propagate sw (Indexed.mk live dir) moves req).headed sw before

end RefFlow
