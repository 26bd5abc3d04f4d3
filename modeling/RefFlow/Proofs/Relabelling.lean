import RefFlow.Proofs.Counts
import RefFlow.Proofs.Stages
import RefFlow.Proofs.Verdict
/-!
# Live ranges that answer alike

The analysis learns three things of the ranges: of which kind and register they are, and which of a
register's ranges is the first one live at a point. So if a bijection of sites carries the ranges of
one function to those of another one and respects these three (`Liveness.Relabels`), runs over both have
the same outcome and mark corresponding ranges. Nothing else about the ranges matters: not where they
stand, not which segments make up the points at which they are live, not their assignments.

Seeds and copies correspond, hence what a reference gets to; the counts of a summary count
corresponding sets; and a run that is stopped is stopped by the first bad move or seed, which is the
same one.

Main statements:

* `Liveness.Relabels.reached_iff`, `Liveness.Relabels.absent_iff` — what corresponds;
* `Liveness.Relabels.outcome_eq`, `Liveness.Relabels.marked_iff` — runs correspond;
* `Liveness.analyse_eq_of_samePoints` — segments matter through the points they hold alone.
-/

namespace RefFlow

/-- Two segments that meet without a gap hold the points of one. -/
theorem Segment.mem_or_mem_iff_of_meet {a b c d p : Point} (hab : a ≤ b) (hcd : c ≤ d)
    (hmeet : b.pos + 1 = c.pos) : p ∈ mk a b ∨ p ∈ mk c d ↔ p ∈ mk a d := by
  rw [mem_def, mem_def, mem_def]
  simp only [Point.le_iff_pos_le] at hab hcd ⊢
  omega

namespace Liveness

/-- The bijection `e` carries the ranges of `l` to ranges of `l'` of the same kind and register, and the
first range of a register that is live at a point to the first such range. -/
structure Relabels (l l' : Liveness) (e : Site ≃ Site) : Prop where
  kind : ∀ x, (e x).kind = x.kind
  reg : ∀ x, l'.reg? (e x) = l.reg? x
  firstLive : ∀ r p x, l'.FirstLive r p (e x) ↔ l.FirstLive r p x

/-- Sets that correspond under a bijection have the same number of members. -/
private theorem ncard_eq_of_equiv {α β : Type} (e : α ≃ β) {P : α → Prop} {Q : β → Prop}
    (h : ∀ x, Q (e x) ↔ P x) : {y | Q y}.ncard = {x | P x}.ncard := by
  have hsub : {y | Q y} ⊆ Set.range e := by
    intro y _
    exact e.surjective y
  have hpreimage : {x | Q (e x)} = {x | P x} := by
    ext x
    exact h x
  rw [← hpreimage]
  exact (Set.ncard_preimage_of_injective_subset_range e.injective hsub).symm

/-- A run that is stopped leaves the ranges as they are. -/
theorem live_eq_of_stopped {l : Liveness} {sw : Switches} {moves : List Move} {req : Request}
    (hstopped : ∀ s, (l.analyse sw moves req).outcome ≠ .finished s) :
    (l.analyse sw moves req).store.live = l := by
  have hrun := propagate_leads sw (Indexed.mk l (.ofLiveness l)) moves req
  exact congrArg Indexed.live (store_eq_of_stopped hstopped hrun)

namespace Relabels

variable {l l' : Liveness} {e : Site ≃ Site} {moves : List Move} {req : Request} {sw : Switches}
  (h : l.Relabels l' e)
include h

theorem symm : l'.Relabels l e.symm where
  kind x := by rw [← h.kind (e.symm x), e.apply_symm_apply]
  reg x := by rw [← h.reg (e.symm x), e.apply_symm_apply]
  firstLive r p x := by rw [← h.firstLive r p (e.symm x), e.apply_symm_apply]

/-! ### What corresponds -/

theorem seeded_iff {seeds : List Reg} {x : Site} : l'.Seeded seeds (e x) ↔ l.Seeded seeds x := by
  unfold Seeded
  rw [h.kind, h.reg]

theorem copies_iff {c : RegClass} {a b : Site} :
    l'.Copies c moves (e a) (e b) ↔ l.Copies c moves a b := by
  unfold Copies
  simp only [h.firstLive]

theorem reached {x : Site} (hx : l.Reached moves req x) : l'.Reached moves req (e x) := by
  induction hx with
  | seed hseed => exact .seed (h.seeded_iff.2 hseed)
  | copy _ hcopy ih => exact .copy ih (h.copies_iff.2 hcopy)

/-- **A reference gets to corresponding ranges.** -/
theorem reached_iff {x : Site} : l'.Reached moves req (e x) ↔ l.Reached moves req x := by
  refine ⟨fun hx => ?_, h.reached⟩
  -- the other way round the inverse carries it back
  have hback := h.symm.reached hx
  rwa [e.symm_apply_apply] at hback

/-! ### Runs over well-formed ranges -/

variable (hw : l.WellFormed) (hw' : l'.WellFormed)
include hw hw'

/-- A register is missing at the same points. -/
theorem absent_iff {r : Reg} {p : Point} : l'.Absent r p ↔ l.Absent r p := by
  rw [hw.absent_iff_not_firstLive, hw'.absent_iff_not_firstLive]
  exact (e.forall_congr fun x => (not_congr (h.firstLive r p x)).symm).symm

/-- The summaries of surveys that come to their end are the same. -/
theorem summary_eq {found found' : Survey} {log log' : List Entry}
    (hs : survey (Indexed.mk l (.ofLiveness l)) moves req = (.ok found, log))
    (hs' : survey (Indexed.mk l' (.ofLiveness l')) moves req = (.ok found', log')) :
    found'.summary = found.summary := by
  -- each count is of a set, and the sets correspond
  have hcopies : (l'.copySet req.refClass moves).ncard = (l.copySet req.refClass moves).ncard :=
    ncard_eq_of_equiv (e.prodCongr e) fun _ => h.copies_iff
  have hseeded : {x | l'.Seeded req.seeds x}.ncard = {x | l.Seeded req.seeds x}.ncard :=
    ncard_eq_of_equiv e fun _ => h.seeded_iff
  have hreached : ∀ kind, {x | l'.Reached moves req x ∧ x.kind = kind}.ncard =
      {x | l.Reached moves req x ∧ x.kind = kind}.ncard := by
    intro kind
    refine ncard_eq_of_equiv e fun x => ?_
    rw [h.reached_iff, h.kind]
  rw [hw.summary_eq hs, hw'.summary_eq hs', hcopies, hseeded, hreached, hreached]

/-- **Outcomes.** Runs over live ranges that answer alike end alike. -/
theorem outcome_eq : (l'.analyse sw moves req).outcome = (l.analyse sw moves req).outcome := by
  -- moves stop for what is missing, and seeds for what they are
  have hmoves : (FlowGraph.empty.addMoves (Indexed.mk l' (.ofLiveness l')) req.refClass moves).stop =
      (FlowGraph.empty.addMoves (Indexed.mk l (.ofLiveness l)) req.refClass moves).stop := by
    rw [FlowGraph.addMoves_stop, FlowGraph.addMoves_stop]
    congr 1
    ext1 m
    exact hw.stop?_congr hw' (fun r p => h.absent_iff hw hw') m
  have hseeds : (Seeding.collect (Indexed.mk l' (.ofLiveness l')) req ∅).stop =
      (Seeding.collect (Indexed.mk l (.ofLiveness l)) req ∅).stop := by
    rw [hw.collect_stop, hw'.collect_stop]
  cases hm : (FlowGraph.empty.addMoves (Indexed.mk l (.ofLiveness l)) req.refClass moves).stop with
  | some stop =>
    have hrun := propagate_outcome_of_move sw hm
    have hrun' := propagate_outcome_of_move sw (hmoves.trans hm)
    exact hrun'.trans hrun.symm
  | none =>
    cases hs : (Seeding.collect (Indexed.mk l (.ofLiveness l)) req ∅).stop with
    | some stop =>
      have hrun := propagate_outcome_of_seed sw hm hs
      have hrun' := propagate_outcome_of_seed sw (hmoves.trans hm) (hseeds.trans hs)
      exact hrun'.trans hrun.symm
    -- both come to their end, and then it is the counts that have to agree
    | none =>
      obtain ⟨s, hrun⟩ := (exists_outcome_eq_finished_iff sw).2 ⟨hm, hs⟩
      obtain ⟨s', hrun'⟩ := (exists_outcome_eq_finished_iff sw).2 ⟨hmoves.trans hm, hseeds.trans hs⟩
      obtain ⟨found, log, hsurvey, rfl, -⟩ := propagate_eq_finished hrun
      obtain ⟨found', log', hsurvey', rfl, -⟩ := propagate_eq_finished hrun'
      have hsummary := h.summary_eq hw hw' hsurvey hsurvey'
      exact hrun'.trans ((congrArg Outcome.finished hsummary).trans hrun.symm)

/-- **Marks.** If marks correspond before a run, they correspond after it. -/
theorem marked_iff (hmarked : ∀ x, l'.Marked (e x) ↔ l.Marked x) (x : Site) :
    (l'.analyse sw moves req).store.live.Marked (e x) ↔
      (l.analyse sw moves req).store.live.Marked x := by
  have houtcome : (l'.analyse sw moves req).outcome = (l.analyse sw moves req).outcome :=
    h.outcome_eq hw hw'
  -- what is marked is marked before or reached, unless the run is stopped
  by_cases hend : ∃ s, (l.analyse sw moves req).outcome = .finished s
  · obtain ⟨s, hs⟩ := hend
    rw [hw.marked_analyse_iff hs, hw'.marked_analyse_iff (houtcome.trans hs), hmarked,
      h.reached_iff]
  · have hstopped : ∀ s, (l.analyse sw moves req).outcome ≠ .finished s := not_exists.1 hend
    have hstopped' : ∀ s, (l'.analyse sw moves req).outcome ≠ .finished s := by
      rw [houtcome]
      exact hstopped
    rw [live_eq_of_stopped hstopped, live_eq_of_stopped hstopped']
    exact hmarked x

end Relabels

/-! ### The same points -/

/-- Two functions have the same ranges as far as registers, marks and points go: place by place the
registers and the marks are the same, and so are the points that some segment of a range holds. Which
segments these are, and where in the pool they stand, may differ. -/
structure SamePoints (l l' : Liveness) : Prop where
  reg : ∀ x, l'.reg? x = l.reg? x
  marked : ∀ x, l'.Marked x ↔ l.Marked x
  covers : ∀ x p, l'.Covers x p ↔ l.Covers x p

variable {l l' : Liveness}

namespace SamePoints

theorem symm (h : l.SamePoints l') : l'.SamePoints l where
  reg x := (h.reg x).symm
  marked x := (h.marked x).symm
  covers x p := (h.covers x p).symm

theorem numbered_iff (h : l.SamePoints l') {r : Reg} {x : Site} :
    l'.Numbered r x ↔ l.Numbered r x := by
  unfold Numbered
  rw [h.reg]

theorem firstLive (h : l.SamePoints l') {r : Reg} {p : Point} {x : Site}
    (hx : l.FirstLive r p x) : l'.FirstLive r p x where
  numbered := h.numbered_iff.2 hx.numbered
  covers := (h.covers x p).2 hx.covers
  -- the ranges before it stand at the same places
  first y hy hlt := by
    rw [h.covers]
    exact hx.first y (h.numbered_iff.1 hy) hlt

theorem relabels (h : l.SamePoints l') : l.Relabels l' (Equiv.refl Site) where
  kind _ := rfl
  reg := h.reg
  firstLive _ _ _ := ⟨h.symm.firstLive, h.firstLive⟩

end SamePoints

/-- **Segments matter through their points alone.** Over well-formed live ranges that are the same as
far as registers, marks and points go, runs have the same outcome and leave the same marks. -/
theorem analyse_eq_of_samePoints (hw : l.WellFormed) (hw' : l'.WellFormed) (h : l.SamePoints l')
    (sw : Switches) (moves : List Move) (req : Request) :
    (l'.analyse sw moves req).outcome = (l.analyse sw moves req).outcome ∧
      ∀ x, (l'.analyse sw moves req).store.live.Marked x ↔
        (l.analyse sw moves req).store.live.Marked x := by
  -- every range corresponds to the one at its own place
  have hrelabels := h.relabels
  exact ⟨hrelabels.outcome_eq hw hw', hrelabels.marked_iff hw hw' h.marked⟩

/-- The ranges of `looping` with the segments of `r3` and of `v1` cut in two, and with a pool in
another order that holds a segment of no range as well. -/
def loopingCut : Liveness where
  pool := #[⟨⟨2, .reload⟩, .useOf 2⟩, ⟨.useOf 7, .defOf 9⟩, ⟨.defOf 1, ⟨1, .spill⟩⟩]
  pinned := #[⟨⟨.real, .i64, 3⟩, ⟨#[2, 0]⟩, false⟩]
  virtuals := #[
    ⟨⟨.virtual, .i64, 0⟩, none, ⟨#[⟨.defOf 0, .useOf 1⟩]⟩, false⟩,
    ⟨⟨.virtual, .i64, 1⟩, none, ⟨#[⟨.defOf 2, .defOf 3⟩, ⟨⟨3, .spill⟩, .useOf 5⟩]⟩, false⟩,
    ⟨⟨.virtual, .i64, 0⟩, none, ⟨#[⟨.defOf 3, .useOf 4⟩]⟩, false⟩,
    ⟨⟨.virtual, .f64, 9⟩, none, ⟨#[⟨.defOf 0, .useOf 4⟩]⟩, true⟩]

theorem samePoints_loopingCut : looping.SamePoints loopingCut where
  reg := by
    rintro ⟨kind, i⟩
    cases kind with
    | real => match i with | 0 => rfl | _ + 1 => rfl
    | virtual => match i with | 0 => rfl | 1 => rfl | 2 => rfl | 3 => rfl | _ + 4 => rfl
  marked := by
    rintro ⟨kind, i⟩
    cases kind with
    | real => rw [marked_real_iff, marked_real_iff]; rfl
    | virtual => rw [marked_virtual_iff, marked_virtual_iff]; rfl
  covers := by
    rintro ⟨kind, i⟩ p
    cases kind with
    | real =>
      match i with
      | 0 =>
        have hcut := @Segment.mem_or_mem_iff_of_meet (.defOf 1) ⟨1, .spill⟩ ⟨2, .reload⟩ (.useOf 2) p
          (by decide) (by decide) (by decide)
        simpa [Covers, SegmentRefs.Covers, looping, loopingCut] using hcut
      | _ + 1 => simp [Covers, looping, loopingCut]
    | virtual =>
      match i with
      | 0 | 2 | 3 => exact Iff.rfl
      | 1 =>
        have hcut := @Segment.mem_or_mem_iff_of_meet (.defOf 2) (.defOf 3) ⟨3, .spill⟩ (.useOf 5) p
          (by decide) (by decide) (by decide)
        simpa [Covers, Segments.Covers, looping, loopingCut] using hcut
      | _ + 4 => simp [Covers, looping, loopingCut]

theorem analyse_eq_of_samePoints_loopingCut :
    looping.WellFormed ∧ loopingCut.WellFormed ∧ looping.SamePoints loopingCut ∧
      (loopingCut.analyse .off loopingMoves ⟨.i64, [⟨.virtual, .i64, 0⟩]⟩).outcome =
        (looping.analyse .off loopingMoves ⟨.i64, [⟨.virtual, .i64, 0⟩]⟩).outcome ∧
      ∀ x, (loopingCut.analyse .off loopingMoves
          ⟨.i64, [⟨.virtual, .i64, 0⟩]⟩).store.live.Marked x ↔
        (looping.analyse .off loopingMoves ⟨.i64, [⟨.virtual, .i64, 0⟩]⟩).store.live.Marked x := by
  have hw : looping.WellFormed := by decide
  have hw' : loopingCut.WellFormed := by decide
  exact ⟨hw, hw', samePoints_loopingCut,
    analyse_eq_of_samePoints hw hw' samePoints_loopingCut .off loopingMoves _⟩

end Liveness

end RefFlow
