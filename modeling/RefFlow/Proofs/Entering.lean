import RefFlow.Entering
import RefFlow.Proofs.Covering
import RefFlow.Proofs.Lookup
import RefFlow.Proofs.WellFormed
/-!
# Both stores of one list of stretches

Entering a stretch adds one range and changes no other (`Liveness.Entered`), whether the range has
its segment in place or in the pool. So a table and live ranges that are grown in step hold the same
ranges under the same keys (`Mirrors`).

Main statements:

* `Liveness.WellFormed.enter_eq_ok` — a stretch can be entered, and what is different then;
* `Mirrors.enter` — both stores stay alike as a stretch is entered into both;
* `Mirrors.ofStretches` — both stores of a list of stretches are alike.
-/

namespace RefFlow

namespace Liveness

variable {l : Liveness} {x : Site} {p : Point}

/-! ### One more range -/

/-- The site that the next range of a kind gets. -/
def fresh (l : Liveness) (kind : RegKind) : Site := ⟨kind, l.count kind⟩

private theorem exists_push_iff {α : Type} {P : α → Prop} {xs : Array α} {a : α} {i : Nat} :
    (∃ b, (xs.push a)[i]? = some b ∧ P b) ↔
      (∃ b, xs[i]? = some b ∧ P b) ∨ i = xs.size ∧ P a := by
  rw [Array.getElem?_push]
  split
  · next h =>
    subst h
    simp
  · next h => simp [h]

theorem reg?_pushPinned (r : PinnedRange) :
    (l.pushPinned r).reg? x = if x = l.fresh .real then some r.reg else l.reg? x := by
  obtain ⟨kind, i⟩ := x
  cases kind with
  | real =>
    show ((l.pinned.push r)[i]?).map _ = _
    rw [Array.getElem?_push, apply_ite (Option.map _)]
    simp [fresh, count, reg?]
  | virtual => simp [fresh, pushPinned, reg?]

theorem reg?_pushVreg (r : VregRange) :
    (l.pushVreg r).reg? x = if x = l.fresh .virtual then some r.reg else l.reg? x := by
  obtain ⟨kind, i⟩ := x
  cases kind with
  | real => simp [fresh, pushVreg, reg?]
  | virtual =>
    show ((l.virtuals.push r)[i]?).map _ = _
    rw [Array.getElem?_push, apply_ite (Option.map _)]
    simp [fresh, count, reg?]

theorem covers_pushPinned_iff (r : PinnedRange) :
    (l.pushPinned r).Covers x p ↔
      l.Covers x p ∨ x = l.fresh .real ∧ r.segs.Covers l.pool p := by
  obtain ⟨kind, i⟩ := x
  cases kind with
  | real =>
    show (∃ q, (l.pinned.push r)[i]? = some q ∧ q.segs.Covers l.pool p) ↔ _
    rw [exists_push_iff]
    simp [fresh, count, Covers]
  | virtual => simp [fresh, pushPinned, Covers]

theorem covers_pushVreg_iff (r : VregRange) :
    (l.pushVreg r).Covers x p ↔ l.Covers x p ∨ x = l.fresh .virtual ∧ r.segs.Covers p := by
  obtain ⟨kind, i⟩ := x
  cases kind with
  | real => simp [fresh, pushVreg, Covers]
  | virtual =>
    show (∃ q, (l.virtuals.push r)[i]? = some q ∧ q.segs.Covers p) ↔ _
    rw [exists_push_iff]
    simp [fresh, count, Covers]

theorem marked_pushPinned_iff {r : PinnedRange} (hr : r.marked = false) :
    (l.pushPinned r).Marked x ↔ l.Marked x := by
  obtain ⟨kind, i⟩ := x
  cases kind with
  | real =>
    show (∃ q, (l.pinned.push r)[i]? = some q ∧ q.marked = true) ↔ _
    rw [exists_push_iff]
    simp [hr, Marked]
  | virtual => simp [pushPinned, Marked]

theorem marked_pushVreg_iff {r : VregRange} (hr : r.marked = false) :
    (l.pushVreg r).Marked x ↔ l.Marked x := by
  obtain ⟨kind, i⟩ := x
  cases kind with
  | real => simp [pushVreg, Marked]
  | virtual =>
    show (∃ q, (l.virtuals.push r)[i]? = some q ∧ q.marked = true) ↔ _
    rw [exists_push_iff]
    simp [hr, Marked]

theorem count_pushPinned (r : PinnedRange) (kind : RegKind) :
    (l.pushPinned r).count kind = l.count kind + if .real = kind then 1 else 0 := by
  cases kind <;> simp [count, pushPinned]

theorem count_pushVreg (r : VregRange) (kind : RegKind) :
    (l.pushVreg r).count kind = l.count kind + if .virtual = kind then 1 else 0 := by
  cases kind <;> simp [count, pushVreg]

/-- Indices of well-formed ranges do not see the pool grow. -/
theorem WellFormed.covers_pushSegment_iff (hw : l.WellFormed) (g : Segment) :
    (l.pushSegment g).Covers x p ↔ l.Covers x p := by
  obtain ⟨kind, i⟩ := x
  cases kind with
  | virtual => exact Iff.rfl
  | real =>
    show (∃ r, l.pinned[i]? = some r ∧ r.segs.Covers (l.pool.push g) p) ↔ _
    refine exists_congr fun r => and_congr_right fun hr => ?_
    -- both pools resolve the indices to the same segments
    obtain ⟨segs, hres, -⟩ := (hw.pinned r (Array.mem_of_getElem? hr)).segs
    rw [SegmentRefs.covers_iff_of_resolve (SegmentRefs.resolve_push hres g),
      SegmentRefs.covers_iff_of_resolve hres]

/-! ### One more stretch -/

/-- What is different after a stretch was entered: one more range of its kind, without a mark. -/
structure Entered (l : Liveness) (e : Stretch) (l' : Liveness) : Prop where
  reg : ∀ x, l'.reg? x = if x = l.fresh e.reg.kind then some e.reg else l.reg? x
  covers : ∀ x p, l'.Covers x p ↔ l.Covers x p ∨ x = l.fresh e.reg.kind ∧ p ∈ e.segment
  marked : ∀ x, l'.Marked x ↔ l.Marked x
  count : ∀ kind, l'.count kind = l.count kind + if e.reg.kind = kind then 1 else 0

end Liveness

/-- A stretch that ends after it starts has a point. -/
theorem Stretch.segment_valid {e : Stretch} (h : e.first < e.last) : e.segment.Valid := by
  show Point.defOf e.first ≤ Point.useOf e.last
  rw [Point.le_iff_pos_le]
  unfold Point.pos Point.defOf Point.useOf Slot.rank
  dsimp only
  omega

namespace Liveness

variable {l : Liveness}

/-- The range of a stretch of a real register, with its segment at the end of the pool. -/
def pinStretch (l : Liveness) (e : Stretch) : Liveness :=
  (l.pushSegment e.segment).pushPinned ⟨e.reg, ⟨#[l.pool.size]⟩, false⟩

/-- The range of a stretch of a virtual register, with its segment in place. -/
def placeStretch (l : Liveness) (e : Stretch) : Liveness :=
  l.pushVreg ⟨e.reg, none, ⟨#[e.segment]⟩, false⟩

/-- The index of the segment just added denotes it. -/
theorem resolve_last (l : Liveness) (g : Segment) :
    (SegmentRefs.mk #[l.pool.size]).resolve (l.pool.push g) = some [g] := by
  simp [SegmentRefs.resolve]

theorem enter_of_real {e : Stretch} (hkind : e.reg.kind = .real) (hlt : e.first < e.last) :
    l.enter e = .ok (l.pinStretch e) := by
  have hsegment : Segment.make? (.defOf e.first) (.useOf e.last) = .ok e.segment :=
    Segment.make?_eq_ok_iff.2 ⟨rfl, Stretch.segment_valid hlt⟩
  -- one index alone is in order, whatever segment it denotes
  have hrefs : SegmentRefs.make? (l.pool.push e.segment) #[l.pool.size] =
      .ok ⟨#[l.pool.size]⟩ := by
    unfold SegmentRefs.make?
    rw [SegmentRefs.inOrder_eq, resolve_last]
    rfl
  have hrange : PinnedRange.make? e.reg ⟨#[l.pool.size]⟩ =
      .ok ⟨e.reg, ⟨#[l.pool.size]⟩, false⟩ := if_pos hkind
  unfold enter
  rw [hsegment, hkind]
  show (SegmentRefs.make? (l.pool.push e.segment) #[l.pool.size]).bind _ = _
  rw [hrefs]
  show (PinnedRange.make? e.reg _).bind _ = _
  rw [hrange]
  rfl

theorem enter_of_virtual {e : Stretch} (hkind : e.reg.kind = .virtual) (hlt : e.first < e.last) :
    l.enter e = .ok (l.placeStretch e) := by
  have hsegment : Segment.make? (.defOf e.first) (.useOf e.last) = .ok e.segment :=
    Segment.make?_eq_ok_iff.2 ⟨rfl, Stretch.segment_valid hlt⟩
  have hrange : VregRange.make? e.reg ⟨#[e.segment]⟩ = .ok ⟨e.reg, none, ⟨#[e.segment]⟩, false⟩ :=
    if_pos hkind
  unfold enter
  rw [hsegment, hkind]
  show (VregRange.make? e.reg ⟨#[e.segment]⟩).bind _ = _
  rw [hrange]
  rfl

theorem WellFormed.entered_pinStretch (hw : l.WellFormed) {e : Stretch}
    (hkind : e.reg.kind = .real) : l.Entered e (l.pinStretch e) where
  reg x := by
    rw [hkind]
    exact reg?_pushPinned _
  covers x p := by
    unfold pinStretch
    rw [covers_pushPinned_iff, hw.covers_pushSegment_iff, hkind]
    refine or_congr_right (and_congr_right fun _ => ?_)
    show SegmentRefs.Covers (l.pool.push e.segment) _ p ↔ _
    rw [SegmentRefs.covers_iff_of_resolve (resolve_last l e.segment)]
    simp
  marked x := marked_pushPinned_iff rfl
  count kind := by
    rw [hkind]
    exact count_pushPinned _ kind

theorem entered_placeStretch {e : Stretch} (hkind : e.reg.kind = .virtual) :
    l.Entered e (l.placeStretch e) where
  reg x := by
    rw [hkind]
    exact reg?_pushVreg _
  covers x p := by
    unfold placeStretch
    rw [covers_pushVreg_iff, hkind]
    refine or_congr_right (and_congr_right fun _ => ?_)
    simp [Segments.Covers]
  marked x := marked_pushVreg_iff rfl
  count kind := by
    rw [hkind]
    exact count_pushVreg _ kind

/-- **A stretch can be entered** if it has a point and there is a key left for its range. -/
theorem WellFormed.enter_eq_ok (hw : l.WellFormed) {e : Stretch} (hlt : e.first < e.last)
    (hindex : e.reg.index < 0xFFFFFFFF) (hcount : l.count e.reg.kind ≤ RangeKey.lastIndex) :
    ∃ l', l.enter e = .ok l' ∧ l'.WellFormed ∧ l.Entered e l' := by
  -- a single segment that is valid passes every check
  have hasc : Segment.Ascending [e.segment] :=
    ⟨List.forall_mem_singleton.2 (Stretch.segment_valid hlt), List.pairwise_singleton _ _⟩
  cases hkind : e.reg.kind with
  | real =>
    rw [hkind] at hcount
    have hrange := (hw.pushSegment e.segment).pushPinned
      (r := ⟨e.reg, ⟨#[l.pool.size]⟩, false⟩) ⟨hkind, _, resolve_last l e.segment, hasc⟩ hindex hcount
    exact ⟨l.pinStretch e, enter_of_real hkind hlt, hrange, hw.entered_pinStretch hkind⟩
  | virtual =>
    rw [hkind] at hcount
    have hrange := hw.pushVreg (r := ⟨e.reg, none, ⟨#[e.segment]⟩, false⟩) ⟨hkind, hasc⟩ hindex hcount
    exact ⟨l.placeStretch e, enter_of_virtual hkind hlt, hrange, entered_placeStretch hkind⟩

end Liveness

/-! ### Stores alike -/

/-- A table and live ranges hold the same ranges, under the same keys and in the same order. -/
structure Mirrors (t : RowTable) (l : Liveness) : Prop where
  reg : ∀ row ∈ t.rows, l.reg? row.key.site = some row.reg
  covers : ∀ row ∈ t.rows, ∀ p, l.Covers row.key.site p ↔ p ∈ row.segment
  exists_row : ∀ x, (l.reg? x).isSome → ∃ row ∈ t.rows, row.key.site = x
  ordered : t.rows.Pairwise fun a b => a.reg.kind = b.reg.kind → a.key.index < b.key.index
  count : ∀ kind, t.countKind kind = l.count kind

theorem mirrors_empty : Mirrors .empty .empty where
  reg _ hrow := absurd hrow List.not_mem_nil
  covers _ hrow := absurd hrow List.not_mem_nil
  exists_row x hx := by
    rw [Liveness.isSome_reg?_iff] at hx
    obtain ⟨kind, i⟩ := x
    cases kind <;> exact absurd hx (Nat.not_lt_zero i)
  ordered := .nil
  count kind := by cases kind <;> rfl

namespace Mirrors

variable {t : RowTable} {l : Liveness} (h : Mirrors t l)
include h

/-- A row's key is in use. -/
theorem index_lt {row : Row} (hrow : row ∈ t.rows) :
    row.key.index < l.count row.key.kind :=
  Liveness.lt_count_of_reg? (h.reg row hrow)

/-- The site of a row is not that of the next range. -/
theorem site_ne_fresh {row : Row} (hrow : row ∈ t.rows) (kind : RegKind) :
    row.key.site ≠ l.fresh kind := by
  intro heq
  -- the index of the next range is that of no range yet
  have hlt := h.index_lt hrow
  have hkind : row.key.kind = kind := congrArg Site.kind heq
  have hindex : row.key.index = l.count kind := congrArg Site.index heq
  rw [hkind, hindex] at hlt
  exact Nat.lt_irrefl _ hlt

/-- **Entering in step.** The stores stay alike as a stretch is entered into both. -/
theorem add (hw : l.WellFormed) {l' : Liveness} {e : Stretch} {k : RangeKey} (hl : l.Entered e l')
    (hk : k.site = l.fresh e.reg.kind) : Mirrors (t.add ⟨e.reg, e.segment, k⟩) l' where
  reg := by
    intro row hrow
    rw [hl.reg]
    -- a row from before, or the new one
    rcases List.mem_append.1 hrow with hrow | hrow
    · rw [if_neg (h.site_ne_fresh hrow _)]
      exact h.reg row hrow
    · obtain rfl := List.mem_singleton.1 hrow
      exact if_pos hk
  covers := by
    intro row hrow p
    rw [hl.covers]
    rcases List.mem_append.1 hrow with hrow | hrow
    · rw [h.covers row hrow]
      exact or_iff_left fun hfresh => h.site_ne_fresh hrow _ hfresh.1
    · obtain rfl := List.mem_singleton.1 hrow
      -- where the new range is there was none that could be live
      have hnone : ¬ l.Covers (l.fresh e.reg.kind) p := fun hcov =>
        Nat.lt_irrefl _ (Liveness.isSome_reg?_iff.1 (Liveness.isSome_reg?_of_covers hcov))
      simp only [hk, hnone, true_and, false_or]
  exists_row := by
    intro x hx
    rw [hl.reg] at hx
    split at hx
    · next heq =>
      exact ⟨_, List.mem_append_right _ List.mem_cons_self, hk.trans heq.symm⟩
    · obtain ⟨row, hrow, hsite⟩ := h.exists_row x hx
      exact ⟨row, List.mem_append_left _ hrow, hsite⟩
  ordered := by
    refine List.pairwise_append.2 ⟨h.ordered, List.pairwise_singleton _ _, ?_⟩
    intro a ha b hb hkind
    obtain rfl := List.mem_singleton.1 hb
    -- the new row has the first index that is not in use
    have hlt := h.index_lt ha
    have hkey : a.key.kind = e.reg.kind := (hw.reg?_kind (h.reg a ha)).symm.trans hkind
    have hindex : k.index = l.count e.reg.kind := congrArg Site.index hk
    rw [hkey] at hlt
    exact hindex ▸ hlt
  count := by
    intro kind
    rw [hl.count, ← h.count]
    unfold RowTable.countKind RowTable.add
    rw [List.countP_append, List.countP_singleton]
    simp only [beq_iff_eq]

/-- One more stretch can be entered into both stores, and they stay alike. -/
theorem enter (hw : l.WellFormed) {e : Stretch} (hlt : e.first < e.last)
    (hindex : e.reg.index < 0xFFFFFFFF) (hcount : l.count e.reg.kind ≤ RangeKey.lastIndex) :
    ∃ k l', t.enter e = .ok (t.add ⟨e.reg, e.segment, k⟩) ∧ l.enter e = .ok l' ∧
      Mirrors (t.add ⟨e.reg, e.segment, k⟩) l' ∧ l'.WellFormed ∧ l.Entered e l' := by
  obtain ⟨k, hk, hsite⟩ := RangeKey.exists_make? e.reg.kind hcount
  obtain ⟨l', hrun, hw', hl⟩ := hw.enter_eq_ok hlt hindex hcount
  refine ⟨k, l', ?_, hrun, h.add hw hl hsite, hw', hl⟩
  -- the table counts its own rows, which are as many as there are ranges
  unfold RowTable.enter RowTable.nextRow
  rw [h.count, hk]
  rfl

/-- A list of stretches can be entered into both stores, and they stay alike. -/
theorem foldlM_enter (hw : l.WellFormed) {es : List Stretch} (hlt : ∀ e ∈ es, e.first < e.last)
    (hindex : ∀ e ∈ es, e.reg.index < 0xFFFFFFFF)
    (hcount : ∀ kind, l.count kind + es.countP (·.reg.kind == kind) ≤ RangeKey.lastIndex + 1) :
    ∃ t' l', es.foldlM RowTable.enter t = .ok t' ∧ es.foldlM Liveness.enter l = .ok l' ∧
      Mirrors t' l' ∧ l'.WellFormed ∧ t'.marks = t.marks ∧ (∀ x, l'.Marked x ↔ l.Marked x) ∧
      t'.rows.map (·.reg) = t.rows.map (·.reg) ++ es.map (·.reg) := by
  -- over the stretches, with both stores as they are when the first one is entered
  induction es generalizing t l with
  | nil => exact ⟨t, l, rfl, rfl, h, hw, rfl, fun _ => Iff.rfl, (List.append_nil _).symm⟩
  | cons e rest ih =>
    obtain ⟨hlt, hltrest⟩ := List.forall_mem_cons.1 hlt
    obtain ⟨hindex, hindexrest⟩ := List.forall_mem_cons.1 hindex
    -- the stretch itself is counted in, so there is a key for its range
    have hroom : l.count e.reg.kind ≤ RangeKey.lastIndex := by
      have hle := hcount e.reg.kind
      rw [List.countP_cons, if_pos (beq_self_eq_true _)] at hle
      omega
    obtain ⟨k, l₁, ht, hl, h₁, hw₁, hentered⟩ := h.enter hw hlt hindex hroom
    have hcount₁ : ∀ kind, l₁.count kind + rest.countP (·.reg.kind == kind) ≤
        RangeKey.lastIndex + 1 := by
      intro kind
      have hle := hcount kind
      rw [List.countP_cons] at hle
      rw [hentered.count]
      simp only [beq_iff_eq] at hle
      omega
    obtain ⟨t', l', ht', hl', h', hw', hmarks, hmarked, hregs⟩ :=
      ih h₁ hw₁ hltrest hindexrest hcount₁
    refine ⟨t', l', ?_, ?_, h', hw', hmarks, ?_, ?_⟩
    · rw [List.foldlM_cons, ht]
      exact ht'
    · rw [List.foldlM_cons, hl]
      exact hl'
    · intro x
      rw [hmarked, hentered.marked]
    · rw [hregs]
      simp [RowTable.add]

end Mirrors

/-- **Both stores of a list of stretches** exist and are alike, if all stretches have points and there
are keys for all ranges. -/
theorem Mirrors.ofStretches {es : List Stretch} (hlt : ∀ e ∈ es, e.first < e.last)
    (hindex : ∀ e ∈ es, e.reg.index < 0xFFFFFFFF)
    (hcount : ∀ kind, es.countP (·.reg.kind == kind) ≤ RangeKey.lastIndex + 1) :
    ∃ t l, RowTable.ofStretches es = .ok t ∧ Liveness.ofStretches es = .ok l ∧
      Mirrors t l ∧ l.WellFormed ∧ t.marks = [] ∧ l.Unmarked ∧
      t.rows.map (·.reg) = es.map (·.reg) := by
  have hzero : ∀ kind, Liveness.empty.count kind = 0 := by
    intro kind
    cases kind <;> rfl
  obtain ⟨t, l, ht, hl, h, hw, hmarks, hmarked, hregs⟩ :=
    mirrors_empty.foldlM_enter Liveness.wellFormed_empty hlt hindex
      fun kind => by rw [hzero, Nat.zero_add]; exact hcount kind
  refine ⟨t, l, ht, hl, h, hw, hmarks, ?_, hregs⟩
  intro x hx
  obtain ⟨kind, i⟩ := x
  cases kind <;> simpa [Liveness.Marked, Liveness.empty] using (hmarked _).1 hx

end RefFlow
