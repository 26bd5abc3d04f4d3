import RefFlow.Liveness.WellFormed
/-!
# What the search by halving answers

Both containers of segments answer by halving whether a point is covered. As long as starts do not
descend, the answer is that of the last segment that starts at or before the point. On segments in
ascending order it is the one that looking at every segment gives.

Main definitions and statements:

* `Segment.first_le_iff_lt_countP` — where starts ascend, the segments that start at or before a
  point are the leading ones;
* `Segment.lastStarting` — the last of these;
* `holds?_eq_lastStarting` — the search through any reading of segments whose starts ascend;
* `holds?_eq_of_ascending` — the search through any reading of ascending segments;
* `Segments.covers_eq_true_iff`, `SegmentRefs.covers_eq_some` — the search in the two containers.
-/

namespace RefFlow

/-! ### Ascending segments -/

namespace Segment

/-- A segment that ends before another one starts, and holds a point, starts no later than it. -/
theorem Ascending.first_le {segs : List Segment} (h : Ascending segs) :
    segs.Pairwise fun a b => a.first ≤ b.first := by
  refine h.disjoint.imp_of_mem fun {a b} ha _ hab => ?_
  have hvalid : a.first ≤ a.last := h.valid a ha
  rw [Point.lt_iff_pos_lt] at hab
  rw [Point.le_iff_pos_le] at hvalid ⊢
  omega

/-- Where starts ascend, the segments that start at or before a point are the leading ones. -/
theorem first_le_iff_lt_countP {segs : List Segment} {p : Point}
    (h : segs.Pairwise fun a b => a.first ≤ b.first) (i : Nat) (hi : i < segs.length) :
    segs[i].first ≤ p ↔ i < segs.countP fun s => decide (s.first ≤ p) := by
  induction segs generalizing i with
  | nil => exact absurd hi (Nat.not_lt_zero i)
  | cons a rest ih =>
    obtain ⟨hhead, htail⟩ := List.pairwise_cons.1 h
    by_cases ha : a.first ≤ p
    · rw [List.countP_cons_of_pos (by simpa using ha)]
      cases i with
      | zero => simpa using ha
      | succ i =>
        rw [List.getElem_cons_succ, ih htail i (by simpa using hi)]
        omega
    -- once a start lies beyond the point, so do all later ones
    · have hlate : ∀ s ∈ a :: rest, ¬ s.first ≤ p := by
        intro s hs
        rcases List.mem_cons.1 hs with rfl | hs
        · exact ha
        · have has := hhead s hs
          rw [Point.le_iff_pos_le] at ha has ⊢
          omega
      have hzero : (a :: rest).countP (fun s => decide (s.first ≤ p)) = 0 :=
        List.countP_eq_zero.2 fun s hs => by simpa using hlate s hs
      rw [hzero]
      exact iff_of_false (hlate _ (List.getElem_mem hi)) (Nat.not_lt_zero i)

/-- Of the segments that start at or before a point, the one that stands last. -/
def lastStarting (segs : List Segment) (p : Point) : Option Segment :=
  (segs.filter fun g => decide (g.first ≤ p)).getLast?

/-- Keeping the segments that start at or before a point is taking the leading ones. -/
theorem filter_first_le {segs : List Segment} (h : segs.Pairwise fun a b => a.first ≤ b.first)
    (p : Point) :
    segs.filter (fun g => decide (g.first ≤ p)) =
      segs.take (segs.countP fun g => decide (g.first ≤ p)) := by
  have hstart := @first_le_iff_lt_countP segs p h
  generalize segs.countP (fun g => decide (g.first ≤ p)) = k at hstart ⊢
  have hleading : (segs.take k).filter (fun g => decide (g.first ≤ p)) = segs.take k := by
    rw [List.filter_eq_self]
    intro g hg
    obtain ⟨i, hi, rfl⟩ := List.mem_take_iff_getElem.1 hg
    exact decide_eq_true ((hstart i (by omega)).2 (by omega))
  have hrest : (segs.drop k).filter (fun g => decide (g.first ≤ p)) = [] := by
    rw [List.filter_eq_nil_iff]
    intro g hg
    obtain ⟨i, hi, rfl⟩ := List.mem_drop_iff_getElem.1 hg
    rw [decide_eq_true_iff, hstart _ (by omega)]
    omega
  calc segs.filter (fun g => decide (g.first ≤ p))
      = (segs.take k ++ segs.drop k).filter (fun g => decide (g.first ≤ p)) := by
        rw [List.take_append_drop]
    _ = segs.take k := by rw [List.filter_append, hleading, hrest, List.append_nil]

/-- Of ascending segments only the last one that starts at or before a point can hold it. -/
theorem Ascending.exists_mem_iff {segs : List Segment} {p : Point} (h : Ascending segs) :
    (∃ s ∈ segs, p ∈ s) ↔ ∃ g, lastStarting segs p = some g ∧ p ∈ g := by
  unfold lastStarting
  constructor
  · rintro ⟨s, hs, hfirst, hlast⟩
    have hmem : s ∈ segs.filter fun g => decide (g.first ≤ p) :=
      List.mem_filter.2 ⟨hs, decide_eq_true hfirst⟩
    obtain ⟨g, hg⟩ := Option.isSome_iff_exists.1 (List.getLast?_isSome.2 (List.ne_nil_of_mem hmem))
    have hstart : g.first ≤ p := of_decide_eq_true (List.mem_filter.1 (List.mem_of_getLast? hg)).2
    refine ⟨g, hg, ?_⟩
    obtain ⟨before, hsplit⟩ := List.getLast?_eq_some_iff.1 hg
    have hdisjoint := h.disjoint.filter fun g => decide (g.first ≤ p)
    rw [hsplit] at hmem hdisjoint
    rcases List.mem_append.1 hmem with hs | hs
    -- an earlier segment ends before this one starts, hence before the point
    · have hgap : s.last < g.first :=
        (List.pairwise_append.1 hdisjoint).2.2 s hs g List.mem_cons_self
      rw [Point.le_iff_pos_le] at hstart hlast
      rw [Point.lt_iff_pos_lt] at hgap
      omega
    · obtain rfl := List.mem_singleton.1 hs
      exact ⟨hfirst, hlast⟩
  · rintro ⟨g, hg, hp⟩
    exact ⟨g, (List.mem_filter.1 (List.mem_of_getLast? hg)).1, hp⟩

end Segment

/-! ### The search -/

/-- **What the search selects.** On segments whose starts do not descend, it asks the last one that
starts at or before the point, whether or not others hold the point as well. -/
theorem holds?_eq_lastStarting {read : Nat → Option Segment} {segs : List Segment} {p : Point}
    (hread : ∀ i, read i = segs[i]?) (h : segs.Pairwise fun a b => a.first ≤ b.first) :
    holds? read segs.length p =
      some ((Segment.lastStarting segs p).any fun g => decide (p ∈ g)) := by
  have hstart := @Segment.first_le_iff_lt_countP segs p h
  have hlen : segs.countP (fun g => decide (g.first ≤ p)) ≤ segs.length := List.countP_le_length
  unfold Segment.lastStarting
  rw [Segment.filter_first_le h]
  generalize segs.countP (fun g => decide (g.first ≤ p)) = k at hstart hlen ⊢
  -- the search wants a total reading; past the last segment it does not matter what is read
  have hget : ∀ i (hi : i < segs.length), segs[i]?.getD default = segs[i] := by
    intro i hi
    rw [List.getElem?_eq_getElem hi, Option.getD_some]
  have hread' : ∀ i < segs.length, read i = some (segs[i]?.getD default) := by
    intro i hi
    rw [hread, hget i hi, List.getElem?_eq_getElem hi]
  have hstart' : ∀ i < segs.length, (segs[i]?.getD default).first ≤ p ↔ i < k := by
    intro i hi
    rw [hget i hi, hstart i hi]
  rw [@holds?_eq read segs.length k p (fun i => segs[i]?.getD default) hlen hread' hstart']
  cases k with
  | zero => simp
  | succ k => simp [List.getLast?_take, List.getElem?_eq_getElem hlen]

/-- **The search on ascending segments** answers whether one of them holds the point. -/
theorem holds?_eq_of_ascending {read : Nat → Option Segment} {segs : List Segment} {p : Point}
    (hread : ∀ i, read i = segs[i]?) (h : Segment.Ascending segs) :
    holds? read segs.length p = some (decide (∃ s ∈ segs, p ∈ s)) := by
  rw [holds?_eq_lastStarting hread h.first_le, Option.some.injEq, Bool.eq_iff_iff,
    Option.any_eq_true, decide_eq_true_iff, h.exists_mem_iff]
  simp only [decide_eq_true_iff]

/-- **Segments in place.** On ascending segments, the search finds a covering one if there is one. -/
theorem Segments.covers_eq_true_iff {s : Segments} {p : Point}
    (h : Segment.Ascending s.items.toList) : s.covers p = true ↔ s.Covers p := by
  unfold covers Covers
  rw [← Array.length_toList, holds?_eq_of_ascending (fun i => by simp) h, Option.getD_some,
    decide_eq_true_iff]
  simp only [Array.mem_toList_iff]

namespace SegmentRefs

/-- If all indices denote segments, reading a position is looking into the list of them. -/
theorem read_of_resolve {pool : Pool} {s : SegmentRefs} {segs : List Segment}
    (h : s.resolve pool = some segs) : s.refs.size = segs.length ∧ ∀ i, s.read pool i = segs[i]? := by
  obtain ⟨⟨refs⟩⟩ := s
  unfold read
  simp only [List.size_toArray, List.getElem?_toArray]
  induction refs generalizing segs with
  | nil =>
    obtain rfl : segs = [] := by simpa [resolve] using h.symm
    exact ⟨rfl, fun i => by simp⟩
  | cons i rest ih =>
    obtain ⟨g, gs, hg, hgs, rfl⟩ := resolve_cons.1 h
    obtain ⟨hlen, hread⟩ := ih hgs
    refine ⟨by simp [hlen], fun j => ?_⟩
    cases j with
    | zero => simpa using hg
    | succ j => simpa using hread j

theorem lt_size_of_resolve {pool : Pool} {s : SegmentRefs} {segs : List Segment}
    (h : s.resolve pool = some segs) : ∀ i ∈ s.refs, i < pool.size := by
  obtain ⟨hlen, hread⟩ := read_of_resolve h
  intro i hi
  obtain ⟨j, hj, rfl⟩ := Array.getElem_of_mem hi
  -- what stands at the position of the index can be read, so it is in the pool
  have hget : s.refs[j]?.bind (pool[·]?) = some segs[j] :=
    (hread j).trans (List.getElem?_eq_getElem (hlen ▸ hj))
  rw [Array.getElem?_eq_getElem hj, Option.bind_some] at hget
  exact (Array.getElem?_eq_some_iff.1 hget).1

/-- If all indices denote segments, a point is covered if one of these holds it. -/
theorem covers_iff_of_resolve {pool : Pool} {s : SegmentRefs} {segs : List Segment}
    (h : s.resolve pool = some segs) (p : Point) : s.Covers pool p ↔ ∃ g ∈ segs, p ∈ g := by
  obtain ⟨hlen, hread⟩ := read_of_resolve h
  unfold Covers
  constructor
  -- an index and the segment it denotes stand at the same position
  · rintro ⟨i, hi, g, hg, hp⟩
    obtain ⟨j, hj, rfl⟩ := Array.getElem_of_mem hi
    have hj' := hread j
    unfold read at hj'
    rw [Array.getElem?_eq_getElem hj, Option.bind_some, hg] at hj'
    exact ⟨g, List.mem_of_getElem? hj'.symm, hp⟩
  · rintro ⟨g, hg, hp⟩
    obtain ⟨j, hj, rfl⟩ := List.getElem_of_mem hg
    have hj' := hread j
    unfold read at hj'
    rw [List.getElem?_eq_getElem hj] at hj'
    obtain ⟨i, hi, hget⟩ := Option.bind_eq_some_iff.1 hj'
    exact ⟨i, Array.mem_of_getElem? hi, _, hget, hp⟩

/-- **Segments as indices.** On indices of ascending segments, the search has an answer, and finds a
covering segment if there is one. -/
theorem covers_eq_some {pool : Pool} {s : SegmentRefs} {segs : List Segment} {p : Point}
    (hres : s.resolve pool = some segs) (h : Segment.Ascending segs) :
    ∃ b, s.covers pool p = some b ∧ (b = true ↔ s.Covers pool p) := by
  obtain ⟨hlen, hread⟩ := read_of_resolve hres
  refine ⟨decide (∃ g ∈ segs, p ∈ g), ?_, ?_⟩
  · unfold covers
    rw [hlen, holds?_eq_of_ascending hread h]
  · rw [decide_eq_true_iff, covers_iff_of_resolve hres]

end SegmentRefs

end RefFlow
