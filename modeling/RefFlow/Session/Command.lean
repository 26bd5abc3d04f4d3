import RefFlow.Propagation
import RefFlow.Session.Input
import RefFlow.Store.RowTable
/-!
# Commands and replies

The vocabulary of a session: what a client can ask, and what it is told.
-/

namespace RefFlow

/-- Which store of ranges a command is about. -/
inductive Via
  | liveness
  | table
  deriving DecidableEq, Repr, Inhabited

/-- How a missing range is reported by a store. -/
def Via.absence : Via → MissingRange → String
  | .liveness => RangeStore.absence Indexed
  | .table => RangeStore.absence RowTable

inductive Part
  | moves
  | seeds
  | graph
  | set
  | marks
  deriving DecidableEq, Repr

inductive Command
  | segment (ends : Ends) (trust : Trust)
  | pinned (reg : Reg) (refs : Array Nat) (trust : Trust)
  | vreg (reg : Reg) (segs : List Ends) (trust : Trust)
  /-- Assigns a real register to a range of a virtual one, or takes the assignment back. -/
  | assign (index : Nat) (reg : Option Reg)
  | ranges
  | index
  | setIndex (dir : Directory)
  | row (reg : Reg) (first last : Nat)
  | move (m : Move)
  | seed (reg : Reg)
  | refClass (c : RegClass)
  | clear (part : Part)
  /-- Runs the analysis. A client who gives switches, be they all off, is told the log. -/
  | run (via : Via) (switches : Option Switches)
  | marks
  | find (via : Via) (point : Point) (reg : Reg)
  | insert (via : Via) (reg : Reg)
  | add (key : KeyName)
  | collect (via : Via)
  | mark (via : Via) (key : KeyName)
  | markSet (via : Via)
  | edge (src dst : KeyName)
  | addMoves (via : Via)
  | targets (key : KeyName)
  | graph
  /-- Computes what can be reached from the set, which it may replace. -/
  | closure (keep : Bool)

/-- All marks: of the ranges of each kind, and the counts of the table's rows. -/
structure Marks where
  pinned : List Bool
  virtuals : List Bool
  rows : List UInt32
  deriving DecidableEq, Repr

structure GraphCounts where
  sources : Nat
  edges : UInt32
  moves : UInt32
  refMoves : UInt32
  deriving DecidableEq, Repr

def FlowGraph.counts (g : FlowGraph) : GraphCounts :=
  ⟨g.sourceCount, g.edges, g.moves, g.refMoves⟩

inductive Reply
  | entered (index : Nat) (text : String)
  | printed (text : String)
  | ranges (pinned virtuals : List String)
  | directory (dir : Directory)
  /-- The range that was found, or that a new row was given. -/
  | key (k : RangeKey)
  | moveAdded (count freq : Nat)
  | seedAdded (count : Nat)
  | refClass (c : RegClass)
  | cleared
  /-- The analysis came to its end. The log is told if it was asked for. -/
  | finished (s : Summary) (marks : Marks) (log : Option (List String))
  /-- The analysis refused the request. The log is told if it was asked for. -/
  | refused (r : Refusal) (marks : Marks) (log : Option (List String))
  /-- All marks as they are now. -/
  | marks (m : Marks)
  | set (keys : List RangeKey)
  /-- Whether a key is new to the set, and the set as it is now. -/
  | added (new : Bool) (keys : List RangeKey)
  | collected (refusal : Option Refusal) (keys : List RangeKey)
  /-- Whether an edge is new to the graph, and the counts as they are now. -/
  | edge (new : Bool) (counts : GraphCounts)
  /-- Why a move was refused, if one was, and the counts as they are now. -/
  | movesAdded (refusal : Option Refusal) (counts : GraphCounts)
  | targets (keys : Option (List RangeKey))
  | graph (counts : GraphCounts) (lines : List String)

/-- A fault that ends a session, with the store it arose in. -/
structure Halt where
  fault : Fault
  via : Via
  deriving DecidableEq, Repr

def Halt.message (h : Halt) : String := h.fault.message h.via.absence

end RefFlow
