import RefFlow.Liveness.Basic
import RefFlow.Store.RowTable
/-!
# Entering the same ranges into both stores

A range that is live on one stretch of points can be entered into a table, as a row, and into live
ranges, as a range with one segment. Entering a list of them into both makes two stores that can be
compared.

Main definitions:

* `Stretch` — a register with the instructions from which and up to which it is live;
* `RowTable.ofStretches`, `Liveness.ofStretches` — both stores of a list of stretches.
-/

namespace RefFlow

/-- A register that is live from the definitions of one instruction to the uses of another one. -/
structure Stretch where
  reg : Reg
  first : Nat
  last : Nat
  deriving DecidableEq, Repr, Inhabited

/-- The points of a stretch, of which there may be none. -/
def Stretch.segment (e : Stretch) : Segment := ⟨.defOf e.first, .useOf e.last⟩

namespace RowTable

/-- Adds the row of a stretch behind the others. -/
def enter (t : RowTable) (e : Stretch) : Except Violation RowTable :=
  (t.nextRow e.reg e.first e.last).map t.add

/-- The table with a row for each stretch, in their order. -/
def ofStretches (es : List Stretch) : Except Violation RowTable := es.foldlM enter empty

end RowTable

namespace Liveness

/-- Adds the range of a stretch behind the others of its kind. The segment of a real register goes
into the pool. -/
def enter (l : Liveness) (e : Stretch) : Except Violation Liveness := do
  let s ← Segment.make? (.defOf e.first) (.useOf e.last)
  match e.reg.kind with
  | .real =>
    -- the pool is larger by the segment before the range refers to it
    let grown := l.pushSegment s
    let segs ← SegmentRefs.make? grown.pool #[l.pool.size]
    let r ← PinnedRange.make? e.reg segs
    return grown.pushPinned r
  | .virtual =>
    let segs ← Segments.make? #[s]
    let r ← VregRange.make? e.reg segs
    return l.pushVreg r

/-- The live ranges with a range for each stretch, in their order. -/
def ofStretches (es : List Stretch) : Except Violation Liveness := es.foldlM enter empty

end Liveness

end RefFlow
