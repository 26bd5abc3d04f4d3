import RefFlow.Fault
/-!
# Segments

A segment is a closed stretch of program points. Ranges are live on a list of segments, which is
expected to be in order: each segment ends strictly before the next one starts.

Main definitions:

* `Segment`, with `p ∈ s` for "the point lies in the segment" and `Segment.make?`, which refuses
  a segment that ends before it starts;
* `Segment.inOrder`, the test of adjacent pairs that the segments of a range have to pass.
-/

namespace RefFlow

/-- All points from `first` to `last`, both included. -/
structure Segment where
  first : Point
  last : Point
  deriving DecidableEq, Repr, Inhabited

namespace Segment

instance : Membership Point Segment := ⟨fun s p => s.first ≤ p ∧ p ≤ s.last⟩

instance (p : Point) (s : Segment) : Decidable (p ∈ s) :=
  inferInstanceAs (Decidable (s.first ≤ p ∧ p ≤ s.last))

theorem mem_def {p : Point} {s : Segment} : p ∈ s ↔ s.first ≤ p ∧ p ≤ s.last := Iff.rfl

/-- A segment that holds at least one point. -/
def Valid (s : Segment) : Prop := s.first ≤ s.last

instance (s : Segment) : Decidable s.Valid := inferInstanceAs (Decidable (s.first ≤ s.last))

/-- The segment from `first` to `last`, refused if it ends before it starts. -/
def make? (first last : Point) : Except Violation Segment :=
  if first ≤ last then .ok ⟨first, last⟩ else .error .segmentReversed

theorem make?_eq_ok_iff {first last : Point} {s : Segment} :
    make? first last = .ok s ↔ s = ⟨first, last⟩ ∧ s.Valid := by
  unfold make? Valid
  by_cases h : first ≤ last
  · simp only [h, if_true, Except.ok.injEq]
    exact ⟨fun e => e ▸ ⟨rfl, h⟩, fun e => e.1.symm⟩
  · simp only [h, if_false, reduceCtorEq, false_iff]
    rintro ⟨rfl, hv⟩
    exact h hv

/-- The printed form, such as `[2/d, 5/u]`. -/
def text (s : Segment) : String := "[" ++ s.first.text ++ ", " ++ s.last.text ++ "]"

/-! ### Lists in order -/

/-- Whether every segment ends strictly before the next one starts. -/
def inOrder : List Segment → Bool
  | a :: b :: rest => decide (a.last < b.first) && inOrder (b :: rest)
  | _ => true

@[simp] theorem inOrder_nil : inOrder [] = true := rfl

@[simp] theorem inOrder_singleton (a : Segment) : inOrder [a] = true := rfl

@[simp] theorem inOrder_cons_cons (a b : Segment) (rest : List Segment) :
    inOrder (a :: b :: rest) = (decide (a.last < b.first) && inOrder (b :: rest)) := rfl

end Segment

/-- The shared store of segments that ranges of real registers refer to by index. -/
abbrev Pool := Array Segment

end RefFlow
