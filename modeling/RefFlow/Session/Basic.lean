import RefFlow.Session.Command
/-!
# Sessions

A session holds the live ranges of a function, a directory of them, a table, moves and a request, a
graph and a set of keys. Commands change these or ask about them. The directory is brought up to
date by command alone, so a client can see what an outdated one leads to.

Main definitions:

* `Session.step` carries out one command;
* `Session.run` carries out commands until one faults, which ends the session.
-/

namespace RefFlow

structure Session where
  live : Liveness
  dir : Directory
  table : RowTable
  moves : List Move
  request : Request
  graph : FlowGraph
  set : KeySet

namespace Session

/-- A fresh session: everything is empty, and 64-bit integers carry references. -/
def start : Session :=
  ⟨.empty, .empty, .empty, [], ⟨.i64, []⟩, .empty, ∅⟩

/-- A question to one of the two stores. -/
def ask {α : Type} (s : Session) (f : ∀ {σ : Type} [RangeStore σ], σ → α) : Via → α
  | .liveness => f (Indexed.mk s.live s.dir)
  | .table => f s.table

/-- Marks a list of ranges in one of the two stores. -/
def markAll (s : Session) (ks : List RangeKey) : Via → Session
  | .liveness => { s with live := (RefFlow.markAll (Indexed.mk s.live s.dir) ks).live }
  | .table => { s with table := RefFlow.markAll s.table ks }

def marks (s : Session) : Marks := ⟨s.live.pinnedMarks, s.live.virtualMarks, s.table.rowMarks⟩

def clear (s : Session) : Part → Session
  | .moves => { s with moves := [] }
  | .seeds => { s with request.seeds := [] }
  | .graph => { s with graph := .empty }
  | .set => { s with set := ∅ }
  | .marks => { s with live := s.live.unmarkAll, table := s.table.unmarkAll }

/-- A result that holds unless a precondition was broken. -/
def checked {α : Type} (r : Except Violation α) : Except Halt α :=
  r.mapError fun v => ⟨.violation v, .liveness⟩

/-- A result that holds unless a store faulted. -/
def answered {α : Type} (via : Via) (r : Except Fault α) : Except Halt α :=
  r.mapError fun f => ⟨f, via⟩

/-- The refusal in a stop, if it is one; a fault ends the session. -/
def refusal? (via : Via) : Option Stop → Except Halt (Option Refusal)
  | none => .ok none
  | some (.refused r) => .ok (some r)
  | some (.faulted f) => .error ⟨f, via⟩

/-- Runs the analysis over one of the two stores. -/
def analyse (s : Session) (sw : Switches) : Via → Outcome × List String × Session
  | .liveness =>
    let r := s.live.propagate sw s.dir s.moves s.request
    (r.outcome, r.logLines, { s with live := r.store.live })
  | .table =>
    let r := propagate sw s.table s.moves s.request
    (r.outcome, r.logLines, { s with table := r.store })

/-- Carries out one command: the next state and the reply, or the fault that ends the session. -/
def step (s : Session) : Command → Except Halt (Session × Reply)
  | .segment ends trust => do
    let seg ← checked (ends.segment trust)
    return ({ s with live := s.live.pushSegment seg }, .entered s.live.pool.size seg.text)
  | .pinned reg refs trust => do
    let segs ← checked (SegmentRefs.ofIndices trust s.live.pool refs)
    let r ← checked (PinnedRange.make? reg segs)
    return ({ s with live := s.live.pushPinned r }, .entered s.live.pinned.size r.text)
  | .vreg reg ends trust => do
    let segs ← checked (Ends.segments trust ends)
    let r ← checked (VregRange.make? reg segs)
    return ({ s with live := s.live.pushVreg r }, .entered s.live.virtuals.size r.text)
  | .assign index reg => do
    let live := s.live.assign index reg
    -- nothing is assigned past the end, but the printed form is read there
    let some r := live.virtuals[index]? | .error ⟨.stray, .liveness⟩
    return ({ s with live }, .printed r.text)
  | .ranges =>
    return (s, .ranges (s.live.pinned.toList.map (·.text)) (s.live.virtuals.toList.map (·.text)))
  | .index =>
    let dir := Directory.ofLiveness s.live
    return ({ s with dir }, .directory dir)
  | .setIndex dir => return ({ s with dir }, .directory dir)
  | .row reg first last => do
    let row ← checked (s.table.nextRow reg first last)
    return ({ s with table := s.table.add row }, .key row.key)
  | .move m => return ({ s with moves := s.moves ++ [m] }, .moveAdded (s.moves.length + 1) m.freq)
  | .seed reg =>
    let seeds := s.request.seeds ++ [reg]
    return ({ s with request.seeds := seeds }, .seedAdded seeds.length)
  | .refClass c => return ({ s with request.refClass := c }, .refClass c)
  | .clear part => return (s.clear part, .cleared)
  | .run via sw =>
    match s.analyse (sw.getD .off) via with
    | (.finished summary, log, s') => return (s', .finished summary s'.marks (sw.map fun _ => log))
    | (.refused r, log, s') => return (s', .refused r s'.marks (sw.map fun _ => log))
    -- a fault ends the session, so its state does not matter
    | (.faulted f, _, _) => .error ⟨f, via⟩
  | .marks => return (s, .marks s.marks)
  | .find via point reg => do
    let k ← answered via (s.ask (fun store => RangeStore.locate store point reg) via)
    return (s, .key k)
  | .insert via reg => do
    let found ← answered via (s.ask (fun store => RangeStore.seed store reg) via)
    let set := s.set.insertAll found.keys
    return ({ s with set }, .set set.ascending)
  | .add name => do
    let k ← checked name.key
    let set := s.set.insert k
    return ({ s with set }, .added (decide (¬ k ∈ s.set)) set.ascending)
  | .collect via => do
    let seeding := s.ask (fun store => Seeding.collect store s.request s.set) via
    let refusal ← refusal? via seeding.stop
    return ({ s with set := seeding.set }, .collected refusal seeding.set.ascending)
  | .mark via name => do
    let k ← checked name.key
    let s' := s.markAll [k] via
    return (s', .marks s'.marks)
  | .markSet via =>
    let s' := s.markAll s.set.byName via
    return (s', .marks s'.marks)
  | .edge src dst => do
    let a ← checked src.key
    let b ← checked dst.key
    let (new, graph) := s.graph.addEdge a b
    return ({ s with graph }, .edge new graph.counts)
  | .addMoves via => do
    let intake := s.ask (fun store => s.graph.addMoves store s.request.refClass s.moves) via
    let refusal ← refusal? via intake.stop
    return ({ s with graph := intake.graph }, .movesAdded refusal intake.graph.counts)
  | .targets name => do
    let k ← checked name.key
    return (s, .targets ((s.graph.targetSet? k).map (·.toList)))
  | .graph => return (s, .graph s.graph.counts s.graph.lines)
  | .closure keep =>
    let set := s.graph.closure s.set
    return (if keep then { s with set } else s, .set set.ascending)

/-- Carries out commands in order. The replies end with the first fault, if there is one; what was
to come after it is not carried out. -/
def run (s : Session) : List Command → List (Except Halt Reply)
  | [] => []
  | c :: rest =>
    match s.step c with
    | .error h => [.error h]
    | .ok (s', reply) => .ok reply :: run s' rest

end Session

end RefFlow
