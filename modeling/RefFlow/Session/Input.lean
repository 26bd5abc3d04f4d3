import RefFlow.Segment.Inline
import RefFlow.Segment.Pooled
import RefFlow.RangeKey
/-!
# Values as a client gives them

A client names segments by their ends and ranges by kind and index. Turning these into segments and
keys checks the preconditions of the library; a client that vouches for its segments may skip the
checks on them.
-/

namespace RefFlow

/-- Whether segments that a client gives are checked. -/
inductive Trust
  | checked
  | vouched
  deriving DecidableEq, Repr, Inhabited

structure Ends where
  first : Point
  last : Point
  deriving DecidableEq, Repr, Inhabited

namespace Ends

def segment (e : Ends) : Trust → Except Violation Segment
  | .checked => Segment.make? e.first e.last
  | .vouched => .ok ⟨e.first, e.last⟩

/-- The segments with the given ends, in order; the first that fails its check is the fault. -/
def pool (trust : Trust) (es : List Ends) : Except Violation Pool :=
  (es.mapM (segment · trust)).map List.toArray

/-- The segments of a range that holds them in place: first each segment is checked, then their
order. -/
def segments (trust : Trust) (es : List Ends) : Except Violation Segments := do
  let items ← pool trust es
  match trust with
  | .checked => Segments.make? items
  | .vouched => .ok ⟨items⟩

end Ends

/-- The segments of a range that holds indices into a pool. -/
def SegmentRefs.ofIndices (trust : Trust) (pool : Pool) (refs : Array Nat) :
    Except Violation SegmentRefs :=
  match trust with
  | .checked => SegmentRefs.make? pool refs
  | .vouched => .ok ⟨refs⟩

structure KeyName where
  kind : RegKind
  index : Nat
  deriving DecidableEq, Repr, Inhabited

def KeyName.key (n : KeyName) : Except Violation RangeKey := RangeKey.make? n.kind n.index

end RefFlow
