import RefFlow.Segment.Search
/-!
# Segments held in place

The segments of a range of a virtual register are held by the range itself.

Main definitions:

* `Segments.make?` refuses segments that are not in order;
* `Segments.covers` asks for a point by halving;
* `Segments.Covers` says the same by looking at every segment.
-/

namespace RefFlow

/-- The segments of one range, held in place. -/
structure Segments where
  items : Array Segment
  deriving DecidableEq, Repr, Inhabited

namespace Segments

/-- Whether every segment ends strictly before the next one starts. -/
def inOrder (s : Segments) : Bool := Segment.inOrder s.items.toList

/-- Segments in order; others are refused. -/
def make? (items : Array Segment) : Except Violation Segments :=
  if (mk items).inOrder then .ok ⟨items⟩ else .error .segmentsUnordered

/-- Whether the last segment that starts at or before `p` holds `p`. For segments in order this is
`Covers`; in general an earlier segment may hold `p` as well. -/
def covers (s : Segments) (p : Point) : Bool :=
  (holds? (s.items[·]?) s.items.size p).getD false

def Covers (s : Segments) (p : Point) : Prop := ∃ g ∈ s.items, p ∈ g

instance (s : Segments) (p : Point) : Decidable (s.Covers p) :=
  inferInstanceAs (Decidable (∃ g ∈ s.items, p ∈ g))

def text (s : Segments) : String :=
  "\x7b" ++ String.join (s.items.toList.map (" " ++ ·.text)) ++ " \x7d"

end Segments

end RefFlow
