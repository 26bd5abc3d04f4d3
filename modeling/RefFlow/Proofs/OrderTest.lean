import RefFlow.Proofs.Covering
import RefFlow.Proofs.WellFormed
/-!
# What the order test says

Both containers of segments test whether their segments are in order by comparing neighbours. As no
segment ends before it starts, an earlier neighbour passes the comparison on, and the test speaks for
all pairs: each segment lies wholly before all that follow it.

A container that holds indices also has to see that they denote segments, and does so in the same pass.
What that pass answers and what it does to the pool is known for all lists of indices, however malformed
(`SegmentRefs.answer_test`, `SegmentRefs.guarded_test`). So the test of indices is the test of the
segments that they denote, and a failed one if some index denotes none.

Search by halving relies on the order of all segments. So in containers that pass the test it finds
every point that some segment holds.

Main statements:

* `Segment.inOrder_iff_ascending` — the test of neighbours and all pairs;
* `SegmentRefs.inOrder_iff` — the test of indices;
* `inOrder_iff_disjoint` — both containers;
* `covers_eq_exhaustive` — searching what passed the test.
-/

namespace RefFlow

/-! ### Neighbours and pairs -/

namespace Segment

/-- What holds of all pairs holds of neighbours. -/
theorem inOrder_of_pairwise {segs : List Segment} (h : segs.Pairwise fun a b => a.last < b.first) :
    inOrder segs = true := by
  induction segs with
  | nil => rfl
  | cons a rest ih =>
    obtain ⟨hhead, htail⟩ := List.pairwise_cons.1 h
    cases rest with
    | nil => rfl
    | cons b rest =>
      have hab : a.last < b.first := hhead b List.mem_cons_self
      rw [inOrder_cons_cons, ih htail, Bool.and_true]
      exact decide_eq_true hab

/-- **The test of neighbours** speaks for all pairs. -/
theorem inOrder_iff_ascending {segs : List Segment} (hvalid : ∀ s ∈ segs, s.Valid) :
    inOrder segs = true ↔ Ascending segs :=
  ⟨ascending_of_inOrder hvalid, fun h => inOrder_of_pairwise h.disjoint⟩

namespace Ascending

variable {segs : List Segment} (h : Ascending segs)
include h

/-- Starts and ends ascend together. -/
theorem first_lt_and_last_lt :
    segs.Pairwise fun a b => a.first < b.first ∧ a.last < b.last := by
  -- a segment lies between its ends, and the next one behind both
  refine h.disjoint.imp_of_mem fun {a b} ha hb hab => ?_
  have hfrom : a.first ≤ a.last := h.valid a ha
  have hto : b.first ≤ b.last := h.valid b hb
  rw [Point.le_iff_pos_le] at hfrom hto
  rw [Point.lt_iff_pos_lt] at hab
  rw [Point.lt_iff_pos_lt, Point.lt_iff_pos_lt]
  exact ⟨by omega, by omega⟩

/-- No point lies in two of the segments. -/
theorem eq_of_mem {i j : Nat} {p : Point} (hi : i < segs.length) (hj : j < segs.length)
    (hpi : p ∈ segs[i]) (hpj : p ∈ segs[j]) : i = j := by
  -- the earlier one of two would end before the point
  have hnot : ∀ a b (ha : a < segs.length) (hb : b < segs.length), p ∈ segs[a] → p ∈ segs[b] →
      ¬ a < b := by
    intro a b ha hb hpa hpb hlt
    have hgap := List.pairwise_iff_getElem.1 h.disjoint a b ha hb hlt
    have hend : p ≤ segs[a].last := hpa.2
    have hstart : segs[b].first ≤ p := hpb.1
    rw [Point.le_iff_pos_le] at hend hstart
    rw [Point.lt_iff_pos_lt] at hgap
    omega
  exact Nat.le_antisymm (Nat.not_lt.1 (hnot j i hj hi hpj hpi)) (Nat.not_lt.1 (hnot i j hi hj hpi hpj))

end Ascending

end Segment

/-! ### Indices -/

namespace SegmentRefs

variable {pool : Pool}

/-- Indices that are all in range denote segments. -/
theorem exists_resolve {s : SegmentRefs} (h : ∀ i ∈ s.refs, i < pool.size) :
    ∃ segs, s.resolve pool = some segs := by
  obtain ⟨⟨refs⟩⟩ := s
  induction refs with
  | nil => exact ⟨[], rfl⟩
  | cons i rest ih =>
    obtain ⟨hi, hrest⟩ : i < pool.size ∧ ∀ j ∈ rest, j < pool.size := by simpa using h
    -- each index adds its own segment in front
    obtain ⟨segs, hsegs⟩ := ih (by simpa using hrest)
    exact ⟨pool[i] :: segs, resolve_cons.2 ⟨_, _, Array.getElem?_eq_getElem hi, hsegs, rfl⟩⟩

/-- **The test of indices** asks whether they all denote segments, and these are ascending. -/
theorem inOrder_iff {s : SegmentRefs} (hvalid : ∀ g ∈ pool, g.Valid) :
    s.inOrder pool = true ↔ ∃ segs, s.resolve pool = some segs ∧ Segment.Ascending segs := by
  rw [inOrder_eq, Option.any_eq_true]
  refine exists_congr fun segs => and_congr_right fun hres => ?_
  exact Segment.inOrder_iff_ascending fun g hg => hvalid g (mem_of_resolve hres g hg)

/-- Pairs of denoted segments are pairs of segments that can be read. -/
theorem pairwise_iff_read {s : SegmentRefs} {segs : List Segment} (hres : s.resolve pool = some segs)
    (R : Segment → Segment → Prop) :
    segs.Pairwise R ↔
      ∀ j k a b, j < k → s.read pool j = some a → s.read pool k = some b → R a b := by
  -- what is read at a position is the segment at this place
  obtain ⟨-, hread⟩ := read_of_resolve hres
  rw [List.pairwise_iff_getElem]
  constructor
  · intro h j k a b hjk hj hk
    rw [hread] at hj hk
    obtain ⟨hjlt, rfl⟩ := List.getElem?_eq_some_iff.1 hj
    obtain ⟨hklt, rfl⟩ := List.getElem?_eq_some_iff.1 hk
    exact h j k hjlt hklt hjk
  · intro h j k hj hk hjk
    refine h j k _ _ hjk ?_ ?_
    · rw [hread, List.getElem?_eq_getElem hj]
    · rw [hread, List.getElem?_eq_getElem hk]

/-- Ascending segments are denoted by different indices. -/
theorem nodup_of_ascending {s : SegmentRefs} {segs : List Segment} (hres : s.resolve pool = some segs)
    (h : Segment.Ascending segs) : s.refs.toList.Nodup := by
  obtain ⟨hlen, hread⟩ := read_of_resolve hres
  refine List.pairwise_iff_getElem.2 fun j k hj hk hjk hsame => ?_
  have hlt : j < segs.length := by
    rwa [← hlen, ← Array.length_toList]
  -- an index at two positions would denote a segment that starts before itself
  have hjread : s.read pool j = some segs[j] := by
    rw [hread]
    exact List.getElem?_eq_getElem hlt
  have hkread : s.read pool k = s.read pool j := by
    unfold read
    rw [← Array.getElem?_toList, ← Array.getElem?_toList, List.getElem?_eq_getElem hj,
      List.getElem?_eq_getElem hk, hsame]
  have hself := ((pairwise_iff_read hres _).1 h.first_lt_and_last_lt j k _ _ hjk hjread
    (hkread.trans hjread)).1
  rw [Point.lt_iff_pos_lt] at hself
  exact Nat.lt_irrefl _ hself

end SegmentRefs

/-! ### Both containers -/

namespace Segments

variable {s : Segments}

theorem pairwise_iff_getElem (R : Segment → Segment → Prop) :
    s.items.toList.Pairwise R ↔
      ∀ i j (hi : i < s.items.size) (hj : j < s.items.size), i < j → R s.items[i] s.items[j] := by
  rw [List.pairwise_iff_getElem]
  simp only [Array.length_toList, Array.getElem_toList]

/-- **The test of segments in place** asks whether they are ascending. -/
theorem inOrder_iff (hvalid : ∀ g ∈ s.items, g.Valid) :
    s.inOrder = true ↔ Segment.Ascending s.items.toList :=
  Segment.inOrder_iff_ascending fun g hg => hvalid g (Array.mem_toList_iff.1 hg)

end Segments

/-- **The order test means disjointness.** If no segment ends before it starts:

* segments in place pass the test if and only if each of them ends strictly before every later one
  starts; then their starts and their ends ascend strictly, and no point lies in two of them;
* indices pass it, whatever they are, if and only if all of them are in range and the denoted segments
  have that property; then no index repeats.

For any pool, the answer is that of one pass over the indices, which reads at no index that it did not
find in range before. -/
theorem inOrder_iff_disjoint :
    (∀ s : Segments, (∀ g ∈ s.items, g.Valid) →
      (s.inOrder = true ↔
        ∀ i j (hi : i < s.items.size) (hj : j < s.items.size), i < j →
          s.items[i].last < s.items[j].first) ∧
      (s.inOrder = true →
        (∀ i j (hi : i < s.items.size) (hj : j < s.items.size), i < j →
          s.items[i].first < s.items[j].first ∧ s.items[i].last < s.items[j].last) ∧
        ∀ i j (hi : i < s.items.size) (hj : j < s.items.size) (p : Point),
          p ∈ s.items[i] → p ∈ s.items[j] → i = j)) ∧
    ∀ (pool : Pool) (s : SegmentRefs),
      ((∀ g ∈ pool, g.Valid) →
        (s.inOrder pool = true ↔
          (∀ i ∈ s.refs, i < pool.size) ∧
            ∀ j k a b, j < k → s.read pool j = some a → s.read pool k = some b →
              a.last < b.first) ∧
        (s.inOrder pool = true → s.refs.toList.Nodup)) ∧
      (s.test pool).answer = some (s.inOrder pool) ∧
      PoolAccess.Guarded pool (s.test pool).accesses := by
  refine ⟨?_, ?_⟩
  · intro s hvalid
    rw [Segments.inOrder_iff hvalid]
    have hvalid' : ∀ g ∈ s.items.toList, g.Valid := fun g hg => hvalid g (Array.mem_toList_iff.1 hg)
    refine ⟨?_, fun hasc => ⟨?_, ?_⟩⟩
    · rw [← Segments.pairwise_iff_getElem fun a b => a.last < b.first]
      exact ⟨fun hasc => hasc.disjoint, fun hdisjoint => ⟨hvalid', hdisjoint⟩⟩
    · exact (Segments.pairwise_iff_getElem _).1 hasc.first_lt_and_last_lt
    · intro i j hi hj p hpi hpj
      exact hasc.eq_of_mem (by simpa using hi) (by simpa using hj) (by simpa using hpi)
        (by simpa using hpj)
  · intro pool s
    refine ⟨?_, SegmentRefs.answer_test pool s, SegmentRefs.guarded_test pool s⟩
    intro hvalid
    rw [SegmentRefs.inOrder_iff hvalid]
    refine ⟨⟨?_, ?_⟩, ?_⟩
    · rintro ⟨segs, hres, hasc⟩
      exact ⟨SegmentRefs.lt_size_of_resolve hres,
        (SegmentRefs.pairwise_iff_read hres _).1 hasc.disjoint⟩
    · rintro ⟨hrange, hdisjoint⟩
      obtain ⟨segs, hres⟩ := SegmentRefs.exists_resolve hrange
      have hsegs : ∀ g ∈ segs, g.Valid := fun g hg =>
        hvalid g (SegmentRefs.mem_of_resolve hres g hg)
      exact ⟨segs, hres, hsegs, (SegmentRefs.pairwise_iff_read hres _).2 hdisjoint⟩
    · rintro ⟨segs, hres, hasc⟩
      exact SegmentRefs.nodup_of_ascending hres hasc

/-- Segments of which the first two touch at the use and the definition of one instruction, and the
second is a single point. -/
def touching : Pool := #[⟨.defOf 0, .useOf 1⟩, ⟨.defOf 1, .defOf 1⟩, ⟨.defOf 2, .useOf 3⟩]

theorem inOrder_iff_disjoint_touching :
    (∀ g ∈ touching, g.Valid) ∧
      (Segments.mk touching).inOrder = true ∧
      touching[0].last < touching[2].first ∧
      (∀ i j (hi : i < touching.size) (hj : j < touching.size) (p : Point),
        p ∈ touching[i] → p ∈ touching[j] → i = j) ∧
      (SegmentRefs.mk #[0, 2]).inOrder touching = true ∧ [0, 2].Nodup ∧
      (SegmentRefs.mk #[0, 2, 0xFFFFFFFF, 0]).inOrder touching = false ∧
      ((SegmentRefs.mk #[0, 2, 0xFFFFFFFF, 0]).test touching).accesses =
        [.compare 0, .compare 2, .read 0, .read 2, .compare 0xFFFFFFFF] ∧
      PoolAccess.Guarded touching
        ((SegmentRefs.mk #[0, 2, 0xFFFFFFFF, 0]).test touching).accesses := by
  have hvalid : ∀ g ∈ touching, g.Valid := by decide
  have hplace : (Segments.mk touching).inOrder = true := by decide
  have hrefs : (SegmentRefs.mk #[0, 2]).inOrder touching = true := by decide
  obtain ⟨hsegments, hindices⟩ := inOrder_iff_disjoint
  obtain ⟨hiff, hdisjoint⟩ := hsegments ⟨touching⟩ hvalid
  obtain ⟨hpass, -, -⟩ := hindices touching ⟨#[0, 2]⟩
  obtain ⟨-, hanswer, hguarded⟩ := hindices touching ⟨#[0, 2, 0xFFFFFFFF, 0]⟩
  exact ⟨hvalid, hplace, hiff.1 hplace 0 2 (by decide) (by decide) (by decide),
    (hdisjoint hplace).2, hrefs, (hpass hvalid).2 hrefs,
    Option.some.inj (hanswer.symm.trans (by decide)), by decide, hguarded⟩

/-! ### Searching what passed the test -/

/-- **The search misses nothing in what passes the test.** If no segment ends before it starts, the
search by halving in a container that passes the order test has an answer for every point, the one that
looking at every segment gives: whether some segment holds the point. -/
theorem covers_eq_exhaustive :
    (∀ s : Segments, (∀ g ∈ s.items, g.Valid) → s.inOrder = true → ∀ p : Point,
      holds? (s.items[·]?) s.items.size p = some (s.covers p) ∧
        s.covers p = decide (s.Covers p)) ∧
    ∀ pool : Pool, (∀ g ∈ pool, g.Valid) → ∀ s : SegmentRefs, s.inOrder pool = true →
      ∀ p : Point, s.covers pool p = some (decide (s.Covers pool p)) := by
  refine ⟨?_, ?_⟩
  · intro s hvalid horder p
    -- what passed is ascending, and in ascending segments the search is right
    have hasc := (Segments.inOrder_iff hvalid).1 horder
    have hcovers : s.covers p = decide (s.Covers p) :=
      Bool.eq_iff_iff.2 ((Segments.covers_eq_true_iff hasc).trans decide_eq_true_iff.symm)
    refine ⟨?_, hcovers⟩
    rw [hcovers, ← Array.length_toList, holds?_eq_of_ascending (fun i => by simp) hasc]
    simp only [Array.mem_toList_iff]
    rfl
  · intro pool hvalid s horder p
    obtain ⟨segs, hres, hasc⟩ := (SegmentRefs.inOrder_iff hvalid).1 horder
    obtain ⟨b, hanswer, hiff⟩ := SegmentRefs.covers_eq_some hres hasc
    have hb : b = decide (s.Covers pool p) :=
      Bool.eq_iff_iff.2 (hiff.trans decide_eq_true_iff.symm)
    rw [hanswer, hb]

theorem covers_eq_exhaustive_touching :
    (∀ g ∈ touching, g.Valid) ∧
      (Segments.mk touching).inOrder = true ∧ (SegmentRefs.mk #[0, 2]).inOrder touching = true ∧
      -- where two segments touch, in the hole that the second one leaves, and behind the last one
      (Segments.mk touching).covers (.defOf 1) = true ∧
      (SegmentRefs.mk #[0, 2]).covers touching (.defOf 1) = some false ∧
      (SegmentRefs.mk #[0, 2]).covers touching (.defOf 3) = some false := by
  have hvalid : ∀ g ∈ touching, g.Valid := by decide
  have hplace : (Segments.mk touching).inOrder = true := by decide
  have hrefs : (SegmentRefs.mk #[0, 2]).inOrder touching = true := by decide
  obtain ⟨hsegments, hindices⟩ := covers_eq_exhaustive
  have hanswer := hindices touching hvalid ⟨#[0, 2]⟩ hrefs
  exact ⟨hvalid, hplace, hrefs, (hsegments _ hvalid hplace (.defOf 1)).2.trans (by decide),
    (hanswer (.defOf 1)).trans (by decide), (hanswer (.defOf 3)).trans (by decide)⟩

end RefFlow
