import RefFlow.Liveness.Site
import RefFlow.Store.Indexed
import RefFlow.Store.RowTable
/-!
# What marking changes

Marking a range changes its mark and nothing else: with all marks removed, the live ranges are the
same as before.

Main statements:

* `Liveness.unmarkAll_mark` — a mark is all that marking changes;
* `Liveness.marked_mark_iff` — the ranges marked after one more mark;
* `Liveness.eq_of_marked_iff` — live ranges with the same marks, and otherwise the same, are equal;
* `Indexed.unmarkAll_markAll`, `Indexed.marked_markAll_iff` — the same for a list of marks.
-/

namespace RefFlow

namespace Liveness

/-! ### Frame -/

/-- Modifying an entry does not show under a map that does not see the modification. -/
theorem map_modify {α β : Type} {f : α → β} {g : α → α} (h : ∀ a, f (g a) = f a)
    (xs : Array α) (i : Nat) : (xs.modify i g).map f = xs.map f := by
  apply Array.ext_getElem?
  intro j
  rw [Array.getElem?_map, Array.getElem?_map, Array.getElem?_modify]
  split
  · rw [Option.map_map]
    exact congrArg (Option.map · xs[j]?) (funext h)
  · rfl

/-- **Frame.** With all marks removed nothing shows that a range was marked. -/
theorem unmarkAll_mark (l : Liveness) (k : RangeKey) : (l.mark k).unmarkAll = l.unmarkAll := by
  -- one array is modified, in a field that removing marks overwrites
  unfold mark unmarkAll
  cases k.kind with
  | real =>
    dsimp only
    congr 1
    exact map_modify (by intro r; rfl) l.pinned k.index
  | virtual =>
    dsimp only
    congr 1
    exact map_modify (by intro r; rfl) l.virtuals k.index

/-- Removing marks keeps the register of every range. -/
theorem reg?_unmarkAll (l : Liveness) (x : Site) : l.unmarkAll.reg? x = l.reg? x := by
  unfold reg? unmarkAll
  cases x.kind <;> simp [Function.comp_def]

/-- Removing marks keeps the points at which every range is live. -/
theorem covers_unmarkAll {l : Liveness} {x : Site} {p : Point} :
    l.unmarkAll.Covers x p ↔ l.Covers x p := by
  unfold Covers unmarkAll
  cases x.kind <;> simp only [Array.getElem?_map, Option.map_eq_some_iff]
  all_goals
    constructor
    · rintro ⟨_, ⟨r, hr, rfl⟩, hc⟩
      exact ⟨r, hr, hc⟩
    · rintro ⟨r, hr, hc⟩
      exact ⟨_, ⟨r, hr, rfl⟩, hc⟩

/-- Live ranges that differ in marks alone have the same registers. -/
theorem reg?_eq_of_unmarkAll {l l' : Liveness} (h : l'.unmarkAll = l.unmarkAll) (x : Site) :
    l'.reg? x = l.reg? x := by
  rw [← reg?_unmarkAll l', h, reg?_unmarkAll]

/-- Live ranges that differ in marks alone are live at the same points. -/
theorem covers_iff_of_unmarkAll {l l' : Liveness} (h : l'.unmarkAll = l.unmarkAll) {x : Site}
    {p : Point} : l'.Covers x p ↔ l.Covers x p := by
  rw [← covers_unmarkAll (l := l'), h, covers_unmarkAll]

/-! ### Marks -/

theorem marked_real_iff {l : Liveness} {i : Nat} :
    l.Marked ⟨.real, i⟩ ↔ l.pinnedMarks[i]? = some true := by
  unfold Marked pinnedMarks
  rw [List.getElem?_map, Array.getElem?_toList, Option.map_eq_some_iff]

theorem marked_virtual_iff {l : Liveness} {i : Nat} :
    l.Marked ⟨.virtual, i⟩ ↔ l.virtualMarks[i]? = some true := by
  unfold Marked virtualMarks
  rw [List.getElem?_map, Array.getElem?_toList, Option.map_eq_some_iff]

/-- Where no mark is set, no range is marked. -/
theorem unmarked_of_marks {l : Liveness} (hpinned : true ∉ l.pinnedMarks)
    (hvirtuals : true ∉ l.virtualMarks) : l.Unmarked := by
  rintro ⟨kind, i⟩ hx
  cases kind with
  | real => exact hpinned (List.mem_of_getElem? (marked_real_iff.1 hx))
  | virtual => exact hvirtuals (List.mem_of_getElem? (marked_virtual_iff.1 hx))

theorem unmarked_unmarkAll (l : Liveness) : l.unmarkAll.Unmarked := by
  refine unmarked_of_marks ?_ ?_
  · simp [pinnedMarks, unmarkAll]
  · simp [virtualMarks, unmarkAll]

/-- **One more mark.** Exactly the range that the key names is marked in addition, if there is one. -/
theorem marked_mark_iff {l : Liveness} {k : RangeKey} {x : Site} :
    (l.mark k).Marked x ↔ l.Marked x ∨ k.site = x ∧ (l.reg? x).isSome := by
  obtain ⟨kind, i⟩ := x
  have hsite : k.site = ⟨kind, i⟩ ↔ k.kind = kind ∧ k.index = i := by simp [RangeKey.site]
  rw [hsite]
  -- a key of the other kind leaves the ranges of this kind alone
  unfold Marked mark reg?
  cases hk : k.kind <;> cases kind <;> simp only [reduceCtorEq, false_and, or_false, true_and]
  -- the place that is modified may be beyond the ranges, and then nothing is marked
  · by_cases hi : k.index = i
    · cases hget : l.pinned[i]? <;> simp [Array.getElem?_modify, hi, hget]
    · simp [Array.getElem?_modify, hi]
  · by_cases hi : k.index = i
    · cases hget : l.virtuals[i]? <;> simp [Array.getElem?_modify, hi, hget]
    · simp [Array.getElem?_modify, hi]

/-- Arrays that look alike under a map are the same if it tells apart what stands at one place. -/
private theorem eq_of_map_eq {α β : Type} {f : α → β} {xs ys : Array α} (hmap : xs.map f = ys.map f)
    (h : ∀ (i : Nat) (a b : α), xs[i]? = some a → ys[i]? = some b → f a = f b → a = b) :
    xs = ys := by
  apply Array.ext_getElem?
  intro i
  have hi : xs[i]?.map f = ys[i]?.map f := by
    rw [← Array.getElem?_map, hmap, Array.getElem?_map]
  -- the arrays end at one place, and before it hold what looks alike
  cases hx : xs[i]? with
  | none =>
    rw [hx] at hi
    exact (Option.map_eq_none_iff.1 hi.symm).symm
  | some a =>
    rw [hx] at hi
    obtain ⟨b, hy, hab⟩ := Option.map_eq_some_iff.1 hi.symm
    rw [hy, h i a b hx hy hab.symm]

/-- **Nothing but marks.** Live ranges that differ in marks alone, and have the same ranges marked, are
the same. -/
theorem eq_of_marked_iff {l l' : Liveness} (h : l'.unmarkAll = l.unmarkAll)
    (hmarked : ∀ x, l'.Marked x ↔ l.Marked x) : l' = l := by
  -- the pool is not touched, and of two ranges at one place at most the marks differ
  have hpool : l'.unmarkAll.pool = l.unmarkAll.pool := congrArg pool h
  have hpinned : l'.pinned = l.pinned := by
    refine eq_of_map_eq (congrArg pinned h) ?_
    rintro i ⟨reg, segs, m⟩ ⟨reg', segs', m'⟩ hr hr' hrest
    obtain ⟨rfl, rfl, -⟩ := PinnedRange.mk.inj hrest
    have hm : m = true ↔ m' = true := by simpa [Marked, hr, hr'] using hmarked ⟨.real, i⟩
    rw [Bool.eq_iff_iff.2 hm]
  have hvirtuals : l'.virtuals = l.virtuals := by
    refine eq_of_map_eq (congrArg virtuals h) ?_
    rintro i ⟨reg, a, segs, m⟩ ⟨reg', a', segs', m'⟩ hr hr' hrest
    obtain ⟨rfl, rfl, rfl, -⟩ := VregRange.mk.inj hrest
    have hm : m = true ↔ m' = true := by simpa [Marked, hr, hr'] using hmarked ⟨.virtual, i⟩
    rw [Bool.eq_iff_iff.2 hm]
  exact congr (congr (congrArg mk hpool) hpinned) hvirtuals

end Liveness

/-! ### Lists of marks -/

namespace Indexed

theorem unmarkAll_markAll (s : Indexed) (ks : List RangeKey) :
    (markAll s ks).live.unmarkAll = s.live.unmarkAll := by
  induction ks generalizing s with
  | nil => rfl
  | cons k ks ih => rw [markAll_cons, ih, ← Liveness.unmarkAll_mark s.live k]; rfl

/-- **A list of marks.** Exactly the ranges named in the list are marked in addition. -/
theorem marked_markAll_iff {s : Indexed} {ks : List RangeKey} {x : Site} :
    (markAll s ks).live.Marked x ↔
      s.live.Marked x ∨ (s.live.reg? x).isSome ∧ ∃ k ∈ ks, k.site = x := by
  -- mark by mark; the registers stay, so what is a range stays one
  induction ks generalizing s with
  | nil => simp
  | cons k ks ih =>
    have hreg : (s.live.mark k).reg? x = s.live.reg? x :=
      Liveness.reg?_eq_of_unmarkAll (Liveness.unmarkAll_mark s.live k) x
    rw [markAll_cons, ih]
    show (s.live.mark k).Marked x ∨ ((s.live.mark k).reg? x).isSome ∧ _ ↔ _
    rw [hreg, Liveness.marked_mark_iff]
    simp only [List.mem_cons, exists_eq_or_imp]
    rw [or_assoc, and_comm, ← and_or_left]

end Indexed

/-- A table counts all marks of a list. -/
theorem RowTable.count_markAll {t : RowTable} {ks : List RangeKey} {k : RangeKey} :
    (markAll t ks).marks.count k = ks.count k + t.marks.count k := by
  induction ks generalizing t with
  | nil => simp
  | cons j ks ih =>
    rw [markAll_cons, ih, List.count_cons]
    show ks.count k + (j :: t.marks).count k = _
    rw [List.count_cons]
    omega

end RefFlow
