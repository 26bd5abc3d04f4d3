import RefFlow.Proofs.OrderTest
/-!
# The same segments in both containers

Segments are held in place or as indices into a pool, and each container has an order test and a
search of its own. A register must not be live at other points for being real, so the two have to
answer alike when they hold the same segments.

They do, whatever the segments are: reversed, overlapping, in any order, the same one several times.
Of the indices it is asked only that each denotes a segment. The order test then compares
neighbours in both. The search relies on starts that do not descend, and gives the answer of the
last segment that starts at or before the point.

Main definitions and statements:

* `SegmentRefs.inPlace` — the denoted segments, held in place;
* `SegmentRefs.resolve_eq_inPlace` — they are what the indices are resolved to;
* `Segment.inOrder_iff_neighbours` — the order test of any segments;
* `refs_agree_with_inPlace` — the two containers answer alike.
-/

namespace RefFlow

/-! ### Denoted segments -/

namespace SegmentRefs

variable {pool : Pool} {s : SegmentRefs}

/-- The denoted segments, held in place. An index that denotes none is left out. -/
def inPlace (pool : Pool) (s : SegmentRefs) : Segments := ⟨s.refs.filterMap (pool[·]?)⟩

/-- Indices that are all in range are resolved to the segments held in place. -/
theorem resolve_eq_inPlace (h : ∀ i ∈ s.refs, i < pool.size) :
    s.resolve pool = some (s.inPlace pool).items.toList := by
  obtain ⟨⟨refs⟩⟩ := s
  -- index by index: the first one is resolved, and the rest is in range too
  induction refs with
  | nil => rfl
  | cons i rest ih =>
    obtain ⟨hi, hrest⟩ : i < pool.size ∧ ∀ j ∈ rest, j < pool.size := by simpa using h
    have hget : pool[i]? = some pool[i] := Array.getElem?_eq_getElem hi
    rw [resolve_cons_of_lt hi, ih (by simpa using hrest)]
    simp [inPlace, hget]

/-- Held in place, the segment of each index stands at the position of the index. -/
theorem getElem?_inPlace (h : ∀ i ∈ s.refs, i < pool.size) (j : Nat) :
    (s.inPlace pool).items[j]? = s.read pool j := by
  rw [(read_of_resolve (resolve_eq_inPlace h)).2, Array.getElem?_toList]

/-- The order test of indices is that of the segments they denote. -/
theorem inOrder_eq_inPlace (h : ∀ i ∈ s.refs, i < pool.size) :
    s.inOrder pool = (s.inPlace pool).inOrder := by
  rw [inOrder_eq, resolve_eq_inPlace h, Option.any_some]
  rfl

end SegmentRefs

/-! ### The answers -/

/-- **The order test of any segments** compares neighbours. -/
theorem Segment.inOrder_iff_neighbours {segs : List Segment} :
    inOrder segs = true ↔
      ∀ (j : Nat) (a b : Segment), segs[j]? = some a → segs[j + 1]? = some b →
        a.last < b.first := by
  induction segs with
  | nil => simp
  | cons a rest ih =>
    cases rest with
    | nil => simp
    | cons b rest =>
      rw [inOrder_cons_cons, Bool.and_eq_true, decide_eq_true_iff, ih]
      constructor
      -- neighbours are the first two, or neighbours of the rest
      · rintro ⟨hab, hrest⟩ j c d hc hd
        cases j with
        | zero =>
          obtain rfl : a = c := by simpa using hc
          obtain rfl : b = d := by simpa using hd
          exact hab
        | succ j => exact hrest j c d (by simpa using hc) (by simpa using hd)
      · intro h
        refine ⟨h 0 a b rfl rfl, fun j c d hc hd => ?_⟩
        exact h (j + 1) c d (by simpa using hc) (by simpa using hd)

/-- The search in place has an answer wherever starts do not descend. -/
theorem Segments.holds?_eq_lastStarting {s : Segments}
    (h : s.items.toList.Pairwise fun a b => a.first ≤ b.first) (p : Point) :
    holds? (s.items[·]?) s.items.size p =
      some ((Segment.lastStarting s.items.toList p).any fun g => decide (p ∈ g)) := by
  rw [← Array.length_toList]
  exact RefFlow.holds?_eq_lastStarting (fun i => Array.getElem?_toList.symm) h

theorem Segments.covers_eq_lastStarting {s : Segments}
    (h : s.items.toList.Pairwise fun a b => a.first ≤ b.first) (p : Point) :
    s.covers p = (Segment.lastStarting s.items.toList p).any fun g => decide (p ∈ g) := by
  unfold covers
  rw [holds?_eq_lastStarting h p, Option.getD_some]

/-- **The containers answer alike.** If each index denotes a segment, then compared with the denoted
segments held in place:

* every position reads the same segment;
* the order tests agree, and so does the pass over the indices: each segment ends before its
  neighbour starts;
* if no start is before an earlier one, both searches have an answer for every point, and it is the
  same: that of the last segment that starts at or before the point. -/
theorem refs_agree_with_inPlace {pool : Pool} {s : SegmentRefs} (h : ∀ i ∈ s.refs, i < pool.size) :
    (∀ j, s.read pool j = (s.inPlace pool).items[j]?) ∧
    s.inOrder pool = (s.inPlace pool).inOrder ∧
    (s.test pool).answer = some (s.inPlace pool).inOrder ∧
    ((s.inPlace pool).inOrder = true ↔
      ∀ (j : Nat) (a b : Segment), (s.inPlace pool).items[j]? = some a →
        (s.inPlace pool).items[j + 1]? = some b → a.last < b.first) ∧
    ((s.inPlace pool).items.toList.Pairwise (fun a b => a.first ≤ b.first) → ∀ p : Point,
      s.covers pool p = some ((s.inPlace pool).covers p) ∧
      holds? ((s.inPlace pool).items[·]?) (s.inPlace pool).items.size p =
        some ((s.inPlace pool).covers p) ∧
      (s.inPlace pool).covers p =
        (Segment.lastStarting (s.inPlace pool).items.toList p).any fun g => decide (p ∈ g)) := by
  have hread : ∀ j, s.read pool j = (s.inPlace pool).items[j]? := fun j =>
    (SegmentRefs.getElem?_inPlace h j).symm
  have horder : s.inOrder pool = (s.inPlace pool).inOrder := SegmentRefs.inOrder_eq_inPlace h
  refine ⟨hread, horder, ?_, ?_, fun hstarts p => ?_⟩
  · rw [SegmentRefs.answer_test, horder]
  · unfold Segments.inOrder
    simp only [Segment.inOrder_iff_neighbours, Array.getElem?_toList]
  -- both searches are the search for the last start, over the same segments
  · have hcovers := Segments.covers_eq_lastStarting hstarts p
    refine ⟨?_, ?_, hcovers⟩
    -- the indices are as many as the segments they denote
    · have hsize := (SegmentRefs.read_of_resolve (SegmentRefs.resolve_eq_inPlace h)).1
      unfold SegmentRefs.covers
      rw [hcovers, hsize]
      exact RefFlow.holds?_eq_lastStarting (fun j => (hread j).trans Array.getElem?_toList.symm)
        hstarts
    · rw [Segments.holds?_eq_lastStarting hstarts p, hcovers]

/-- Segments that cross each other. The first ends before it starts, the next two start at one
point. -/
def crossing : Pool :=
  #[⟨.defOf 3, .useOf 1⟩, ⟨.defOf 0, .useOf 9⟩, ⟨.defOf 0, .useOf 2⟩, ⟨.defOf 2, .useOf 4⟩]

/-- All starts ascend in the first list of indices, and the reversed segment comes last. The second
list passes the order test although its starts descend, the third repeats an index. -/
theorem refs_agree_with_inPlace_crossing :
    (∀ i ∈ #[1, 2, 0], i < crossing.size) ∧
      (SegmentRefs.mk #[1, 2, 0]).covers crossing (.useOf 1) = some true ∧
      -- the long segment holds the point, but is not the last one to start before it
      Point.useOf 5 ∈ crossing[1] ∧
      (SegmentRefs.mk #[1, 2, 0]).covers crossing (.useOf 5) =
        some (((SegmentRefs.mk #[1, 2, 0]).inPlace crossing).covers (.useOf 5)) ∧
      ((SegmentRefs.mk #[1, 2, 0]).inPlace crossing).covers (.useOf 5) = false ∧
      (SegmentRefs.mk #[0, 3]).inOrder crossing = true ∧
      (SegmentRefs.mk #[3, 3]).inOrder crossing = false := by
  have hrange : ∀ i ∈ #[1, 2, 0], i < crossing.size := by decide
  have hstarts : ((SegmentRefs.mk #[1, 2, 0]).inPlace crossing).items.toList.Pairwise
      fun a b => a.first ≤ b.first := by decide
  obtain ⟨-, -, -, -, hsearch⟩ := refs_agree_with_inPlace (s := ⟨#[1, 2, 0]⟩) hrange
  obtain ⟨hfirst, -, hfirst'⟩ := hsearch hstarts (.useOf 1)
  obtain ⟨hlast, -, hlast'⟩ := hsearch hstarts (.useOf 5)
  have hreversed : ∀ i ∈ #[0, 3], i < crossing.size := by decide
  have hrepeated : ∀ i ∈ #[3, 3], i < crossing.size := by decide
  obtain ⟨-, hpass, -⟩ := refs_agree_with_inPlace (s := ⟨#[0, 3]⟩) hreversed
  obtain ⟨-, hfail, -⟩ := refs_agree_with_inPlace (s := ⟨#[3, 3]⟩) hrepeated
  refine ⟨hrange, ?_, by decide, hlast, hlast'.trans (by decide), hpass.trans (by decide),
    hfail.trans (by decide)⟩
  rw [hfirst, hfirst']
  decide

end RefFlow
