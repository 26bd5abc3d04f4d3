import RefFlow.RangeKey
import RefFlow.Segment.Inline
import RefFlow.Segment.Pooled
/-!
# Live ranges

A live range says of one register at which points it holds one of its values. Ranges of real
registers share a pool of segments; ranges of virtual registers hold their own. Every range
carries a mark, which says that it may hold a reference and has to be reported to the collector.

Main definitions:

* `PinnedRange`, `VregRange` — ranges of real and of virtual registers;
* `Liveness` — the segment pool and all ranges of a function, each kind in an order of its own.
-/

namespace RefFlow

/-- A range of a real register. -/
structure PinnedRange where
  reg : Reg
  segs : SegmentRefs
  marked : Bool
  deriving DecidableEq, Repr, Inhabited

/-- A range of a virtual register, with the real register assigned to it if there is one yet. -/
structure VregRange where
  reg : Reg
  assigned : Option Reg
  segs : Segments
  marked : Bool
  deriving DecidableEq, Repr, Inhabited

/-- How a mark shows in a printed range. -/
def markText (marked : Bool) : String := if marked then ", ref" else ""

namespace PinnedRange

/-- An unmarked range of a register, which has to be real. -/
def make? (reg : Reg) (segs : SegmentRefs) : Except Violation PinnedRange :=
  if reg.kind = .real then .ok ⟨reg, segs, false⟩ else .error .registerNotReal

/-- The printed form, such as `(RR: r1:I64, frags { 0 1 }, ref)`. -/
def text (r : PinnedRange) : String :=
  "(RR: " ++ r.reg.text ++ ", frags " ++ r.segs.text ++ markText r.marked ++ ")"

end PinnedRange

namespace VregRange

/-- An unmarked, unassigned range of a register, which has to be virtual. -/
def make? (reg : Reg) (segs : Segments) : Except Violation VregRange :=
  if reg.kind = .virtual then .ok ⟨reg, none, segs, false⟩ else .error .registerNotVirtual

/-- The printed form, such as `(VR: v1:I64 -> r3:I64, frags { [0/d, 2/u] })`. -/
def text (r : VregRange) : String :=
  "(VR: " ++ r.reg.text ++ (r.assigned.elim "" fun a => " -> " ++ a.text) ++ ", frags "
    ++ r.segs.text ++ markText r.marked ++ ")"

end VregRange

/-- The live ranges of a function. -/
structure Liveness where
  pool : Pool
  pinned : Array PinnedRange
  virtuals : Array VregRange
  deriving DecidableEq, Repr, Inhabited

namespace Liveness

def empty : Liveness := ⟨#[], #[], #[]⟩

/-! ### Growing -/

/-- Adds a segment to the pool. Ranges hold indices, so this changes no range. -/
def pushSegment (l : Liveness) (s : Segment) : Liveness := { l with pool := l.pool.push s }

def pushPinned (l : Liveness) (r : PinnedRange) : Liveness :=
  { l with pinned := l.pinned.push r }

def pushVreg (l : Liveness) (r : VregRange) : Liveness :=
  { l with virtuals := l.virtuals.push r }

/-- Sets or removes the assignment of the `i`-th range of a virtual register. -/
def assign (l : Liveness) (i : Nat) (a : Option Reg) : Liveness :=
  { l with virtuals := l.virtuals.modify i fun r => { r with assigned := a } }

/-! ### Marks -/

/-- Marks the range that a key names. A key that names no range of its kind changes nothing. -/
def mark (l : Liveness) (k : RangeKey) : Liveness :=
  match k.kind with
  | .real => { l with pinned := l.pinned.modify k.index fun r => { r with marked := true } }
  | .virtual => { l with virtuals := l.virtuals.modify k.index fun r => { r with marked := true } }

def unmarkAll (l : Liveness) : Liveness :=
  { l with
    pinned := l.pinned.map fun r => { r with marked := false }
    virtuals := l.virtuals.map fun r => { r with marked := false } }

/-- Which ranges of real registers are marked, in their order. -/
def pinnedMarks (l : Liveness) : List Bool := l.pinned.toList.map (·.marked)

/-- Which ranges of virtual registers are marked, in their order. -/
def virtualMarks (l : Liveness) : List Bool := l.virtuals.toList.map (·.marked)

end Liveness

end RefFlow
