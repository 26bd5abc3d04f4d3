import RefFlow.Proofs.SameSegments
/-!
# The search in segments that nobody checked

A client who vouches for its segments can hand in such that overlap, start at one point, or end before
they start. As long as no start is before an earlier one, the searches by halving keep to a rule that
does not depend on how many segments there are and where the halves fall: they ask the last segment
that starts at or before the point, and nothing else.

So a yes can be relied on, for the segment that was asked holds the point. A no cannot: an earlier
segment may reach past the one that was asked.

Main definitions and statements:

* `Segment.LastStart` — of the segments that start at or before a point, the one that stands last;
* `Segment.lastStarting_eq_some_iff` — it is the one that `Segment.lastStarting` takes;
* `Segment.AnsweredByLast` — an answer that follows the rule;
* `searches_ask_last` — the searches of both containers.
-/

namespace RefFlow

namespace Segment

variable {segs : List Segment} {p : Point} {g : Segment}

/-! ### The last segment to start -/

/-- The segment starts at or before the point, and all that stand behind it start after it. -/
def LastStart (segs : List Segment) (p : Point) (g : Segment) : Prop :=
  ∃ before after, segs = before ++ g :: after ∧ g.first ≤ p ∧ ∀ h ∈ after, p < h.first

/-- A segment that does not start at or before a point starts after it. -/
theorem lt_first_iff : p < g.first ↔ ¬ g.first ≤ p := by
  rw [Point.lt_iff_pos_lt, Point.le_iff_pos_le, Nat.not_le]

theorem filter_first_le_eq_nil_iff :
    segs.filter (fun g => decide (g.first ≤ p)) = [] ↔ ∀ h ∈ segs, p < h.first := by
  rw [List.filter_eq_nil_iff]
  simp only [decide_eq_true_iff, lt_first_iff]

theorem lastStarting_eq_none_iff : lastStarting segs p = none ↔ ∀ h ∈ segs, p < h.first := by
  unfold lastStarting
  rw [List.getLast?_eq_none_iff, filter_first_le_eq_nil_iff]

/-- What is taken is the last segment to start. -/
theorem lastStarting_eq_some_iff : lastStarting segs p = some g ↔ LastStart segs p g := by
  unfold lastStarting
  rw [List.getLast?_eq_some_iff]
  constructor
  -- behind the place of the last segment that is kept, none was kept
  · rintro ⟨kept, hkept⟩
    obtain ⟨before, rest, rfl, -, hrest⟩ := List.filter_eq_append_iff.1 hkept
    obtain ⟨between, after, rfl, -, hg, hafter⟩ := List.filter_eq_cons_iff.1 hrest
    refine ⟨before ++ between, after, ?_, of_decide_eq_true hg, filter_first_le_eq_nil_iff.1 hafter⟩
    rw [List.append_assoc]
  · rintro ⟨before, after, rfl, hg, hafter⟩
    refine ⟨before.filter fun h => decide (h.first ≤ p), ?_⟩
    rw [List.filter_append, List.filter_cons, if_pos (decide_eq_true hg),
      filter_first_le_eq_nil_iff.2 hafter]

/-! ### The rule -/

/-- The answer is that of the last segment that starts at or before the point, and no if there is
none. -/
structure AnsweredByLast (segs : List Segment) (p : Point) (answer : Bool) : Prop where
  /-- There is none, or there is a last one. -/
  cases : (∀ g ∈ segs, p < g.first) ∨ ∃ g, LastStart segs p g
  none_starts : (∀ g ∈ segs, p < g.first) → answer = false
  last_decides : ∀ g, LastStart segs p g → answer = decide (p ∈ g)
  /-- A yes comes from a segment that holds the point. -/
  sound : answer = true → ∃ g ∈ segs, p ∈ g

/-- The answer of the segment that is taken follows the rule, in whatever order the segments are. -/
theorem answeredByLast (segs : List Segment) (p : Point) :
    AnsweredByLast segs p ((lastStarting segs p).any fun g => decide (p ∈ g)) where
  cases := by
    cases hlast : lastStarting segs p with
    | none => exact .inl (lastStarting_eq_none_iff.1 hlast)
    | some g => exact .inr ⟨g, lastStarting_eq_some_iff.1 hlast⟩
  none_starts h := by
    rw [lastStarting_eq_none_iff.2 h]
    rfl
  last_decides g h := by
    rw [lastStarting_eq_some_iff.2 h]
    rfl
  sound h := by
    obtain ⟨g, hlast, hp⟩ := Option.any_eq_true _ _ |>.1 h
    -- the segment that answers is one of them
    obtain ⟨before, after, rfl, -⟩ := lastStarting_eq_some_iff.1 hlast
    exact ⟨g, List.mem_append_right _ List.mem_cons_self, of_decide_eq_true hp⟩

end Segment

/-- An outer segment; two in it that start at one point; and one that ends before it starts. -/
def nested : Pool :=
  #[⟨.defOf 0, .useOf 9⟩, ⟨.defOf 2, .useOf 3⟩, ⟨.defOf 2, .useOf 5⟩, ⟨.defOf 6, .useOf 4⟩]

/-- **What the searches ask.** Let no start be before an earlier one; otherwise the segments may be
any. Then, for every point:

* the search in segments in place reads these alone, and its answer is that of the last segment that
  starts at or before the point, or no if there is none;
* so it is for indices, all of which denote segments, and the segments they denote.

A yes is right. A no may be wrong, in both containers: the last segment to start misses the point, and
one that started earlier holds it. -/
theorem searches_ask_last :
    (∀ s : Segments, s.items.toList.Pairwise (fun a b => a.first ≤ b.first) → ∀ p : Point,
      holds? (s.items[·]?) s.items.size p = some (s.covers p) ∧
        Segment.AnsweredByLast s.items.toList p (s.covers p)) ∧
    (∀ (pool : Pool) (s : SegmentRefs), (∀ i ∈ s.refs, i < pool.size) →
      (s.inPlace pool).items.toList.Pairwise (fun a b => a.first ≤ b.first) → ∀ p : Point,
        ∃ answer, s.covers pool p = some answer ∧
          Segment.AnsweredByLast (s.inPlace pool).items.toList p answer) ∧
    ∃ (pool : Pool) (s : SegmentRefs) (p : Point), (∀ i ∈ s.refs, i < pool.size) ∧
      (s.inPlace pool).items.toList.Pairwise (fun a b => a.first ≤ b.first) ∧
      s.covers pool p = some false ∧ s.Covers pool p ∧
      (s.inPlace pool).covers p = false ∧ (s.inPlace pool).Covers p := by
  refine ⟨fun s h p => ?_, fun pool s hrange h p => ?_, ?_⟩
  · rw [Segments.holds?_eq_lastStarting h p, Segments.covers_eq_lastStarting h p]
    exact ⟨rfl, Segment.answeredByLast _ p⟩
  -- through the indices the same segments are read
  · obtain ⟨hsize, hread⟩ := SegmentRefs.read_of_resolve (SegmentRefs.resolve_eq_inPlace hrange)
    refine ⟨_, ?_, Segment.answeredByLast _ p⟩
    unfold SegmentRefs.covers
    rw [hsize]
    exact holds?_eq_lastStarting hread h
  -- the segment that ends before it starts hides the outer one
  · exact ⟨nested, ⟨#[0, 1, 2, 3]⟩, .useOf 8, by decide, by decide, by decide +kernel, by decide,
      by decide +kernel, by decide⟩

/-- Of two segments with one start the later decides; before all starts the answer is no. -/
theorem searches_ask_last_nested :
    nested.toList.Pairwise (fun a b => a.first ≤ b.first) ∧
      (∀ i ∈ #[0, 1, 2], i < nested.size) ∧
      Segment.LastStart nested.toList (.useOf 4) ⟨.defOf 2, .useOf 5⟩ ∧
      (Segments.mk nested).covers (.useOf 4) = true ∧
      (Segments.mk nested).covers (.useOf 0) = false ∧
      (SegmentRefs.mk #[0, 1, 2]).covers nested (.useOf 6) = some false ∧
      Point.useOf 6 ∈ nested[0] := by
  have hstarts : nested.toList.Pairwise fun a b => a.first ≤ b.first := by decide
  have hrange : ∀ i ∈ #[0, 1, 2], i < nested.size := by decide
  have hlast : Segment.LastStart nested.toList (.useOf 4) ⟨.defOf 2, .useOf 5⟩ :=
    ⟨nested.toList.take 2, nested.toList.drop 3, by decide, by decide, by decide⟩
  have hlast' : Segment.LastStart ((SegmentRefs.mk #[0, 1, 2]).inPlace nested).items.toList
      (.useOf 6) ⟨.defOf 2, .useOf 5⟩ :=
    ⟨nested.toList.take 2, [], by decide, by decide, by decide⟩
  obtain ⟨hplace, hrefs, -⟩ := searches_ask_last
  obtain ⟨answer, hanswer, hrule⟩ := hrefs nested ⟨#[0, 1, 2]⟩ hrange (by decide) (.useOf 6)
  have hyes := (hplace ⟨nested⟩ hstarts (.useOf 4)).2.last_decides _ hlast
  have hno := (hplace ⟨nested⟩ hstarts (.useOf 0)).2.none_starts (by decide)
  have hmiss := hrule.last_decides _ hlast'
  refine ⟨hstarts, hrange, hlast, hyes.trans (by decide), hno, ?_, by decide⟩
  rw [hanswer, hmiss]
  decide

end RefFlow
