import RefFlow.Proofs.Relabelling
/-!
# Requests as sets

Which moves there are, and which seeds, decides what a run comes to; in which order they are given, and
how often each, hardly does. A request with more moves or more seeds reaches at least as much
(`Liveness.Reached.mono`), so requests with the same moves and the same seeds reach the same. They
are stopped or come to their end together, for what stops a run is a bad move or a bad seed wherever it
stands; only which of several causes is reported depends on the order. And the counts of a summary
are of sets, but for the two that count moves, and these do not depend on the order either.

Main statements:

* `Liveness.Reached.mono` — more moves and seeds reach more;
* `Liveness.reached_append_iff` — seeds reach what some of them reach;
* `Liveness.analyse_eq_of_mem_iff` — order and repetition do not matter.
-/

namespace RefFlow

namespace Liveness

variable {l : Liveness} {c : RegClass} {moves moves' : List Move} {seeds seeds' : List Reg}

/-! ### More moves, more seeds -/

theorem Copies.mono (h : moves ⊆ moves') {a b : Site} (hcopy : l.Copies c moves a b) :
    l.Copies c moves' a b := by
  obtain ⟨m, hm, hclass, hsrc, hdst⟩ := hcopy
  exact ⟨m, h hm, hclass, hsrc, hdst⟩

theorem Seeded.mono (h : seeds ⊆ seeds') {x : Site} (hx : l.Seeded seeds x) :
    l.Seeded seeds' x := by
  obtain ⟨hkind, q, hq, r, hr, hindex⟩ := hx
  exact ⟨hkind, q, hq, r, h hr, hindex⟩

/-- **More moves and seeds reach more.** -/
theorem Reached.mono (hmoves : moves ⊆ moves') (hseeds : seeds ⊆ seeds') {x : Site}
    (hx : l.Reached moves ⟨c, seeds⟩ x) : l.Reached moves' ⟨c, seeds'⟩ x := by
  induction hx with
  | seed hseed => exact .seed (hseed.mono hseeds)
  | copy _ hcopy ih => exact .copy ih (hcopy.mono hmoves)

theorem seeded_append_iff {as bs : List Reg} {x : Site} :
    l.Seeded (as ++ bs) x ↔ l.Seeded as x ∨ l.Seeded bs x := by
  constructor
  · rintro ⟨hkind, q, hq, r, hr, hindex⟩
    rcases List.mem_append.1 hr with hr | hr
    · exact Or.inl ⟨hkind, q, hq, r, hr, hindex⟩
    · exact Or.inr ⟨hkind, q, hq, r, hr, hindex⟩
  · rintro (hx | hx)
    · exact hx.mono (List.subset_append_left as bs)
    · exact hx.mono (List.subset_append_right as bs)

/-- **Seeds reach** what some of them reach: copies have one source each, so no two references are
needed to get anywhere. -/
theorem reached_append_iff {as bs : List Reg} {x : Site} :
    l.Reached moves ⟨c, as ++ bs⟩ x ↔ l.Reached moves ⟨c, as⟩ x ∨ l.Reached moves ⟨c, bs⟩ x := by
  constructor
  -- along the way that a reference takes; it starts at a seed of one of the two lists
  · intro hx
    induction hx with
    | seed hseed => exact (seeded_append_iff.1 hseed).imp .seed .seed
    | copy _ hcopy ih => exact ih.imp (.copy · hcopy) (.copy · hcopy)
  · rintro (hx | hx)
    · exact hx.mono (List.Subset.refl moves) (List.subset_append_left as bs)
    · exact hx.mono (List.Subset.refl moves) (List.subset_append_right as bs)

/-! ### The same moves, the same seeds -/

section SameMembers

variable (hmoves : ∀ m, m ∈ moves' ↔ m ∈ moves) (hseeds : ∀ r, r ∈ seeds' ↔ r ∈ seeds)

include hmoves in
theorem copies_iff_of_mem_iff {a b : Site} : l.Copies c moves' a b ↔ l.Copies c moves a b :=
  ⟨.mono fun m => (hmoves m).1, .mono fun m => (hmoves m).2⟩

include hseeds in
theorem seeded_iff_of_mem_iff {x : Site} : l.Seeded seeds' x ↔ l.Seeded seeds x :=
  ⟨.mono fun r => (hseeds r).1, .mono fun r => (hseeds r).2⟩

include hmoves hseeds in
theorem reached_iff_of_mem_iff {x : Site} :
    l.Reached moves' ⟨c, seeds'⟩ x ↔ l.Reached moves ⟨c, seeds⟩ x :=
  ⟨.mono (fun m => (hmoves m).1) fun r => (hseeds r).1,
    .mono (fun m => (hmoves m).2) fun r => (hseeds r).2⟩

variable (hw : l.WellFormed)
include hmoves hseeds hw

theorem finishes_iff_of_mem_iff (sw : Switches) :
    (∃ s, (l.analyse sw moves' ⟨c, seeds'⟩).outcome = .finished s) ↔
      ∃ s, (l.analyse sw moves ⟨c, seeds⟩).outcome = .finished s := by
  rw [hw.exists_analyse_eq_finished_iff, hw.exists_analyse_eq_finished_iff]
  simp only [hmoves, hseeds]

/-- Whether a run comes to its end or not, it leaves the same live ranges. -/
theorem live_eq_of_mem_iff (sw : Switches) :
    (l.analyse sw moves' ⟨c, seeds'⟩).store.live = (l.analyse sw moves ⟨c, seeds⟩).store.live := by
  have hfinishes := finishes_iff_of_mem_iff (c := c) hmoves hseeds hw sw
  by_cases hend : ∃ s, (l.analyse sw moves ⟨c, seeds⟩).outcome = .finished s
  · obtain ⟨s', hs'⟩ := hfinishes.2 hend
    obtain ⟨s, hs⟩ := hend
    refine eq_of_marked_iff ?_ ?_
    · rw [unmarkAll_analyse, unmarkAll_analyse]
    · intro x
      rw [hw.marked_analyse_iff hs, hw.marked_analyse_iff hs', reached_iff_of_mem_iff hmoves hseeds]
  -- runs that are stopped leave what was there before
  · have hend' := fun hfinished => hend (hfinishes.1 hfinished)
    rw [live_eq_of_stopped (not_exists.1 hend), live_eq_of_stopped (not_exists.1 hend')]

/-- The counts that are not of moves are the same. -/
theorem counts_eq_of_mem_iff {sw : Switches} {s s' : Summary}
    (hs : (l.analyse sw moves ⟨c, seeds⟩).outcome = .finished s)
    (hs' : (l.analyse sw moves' ⟨c, seeds'⟩).outcome = .finished s') :
    s'.edges = s.edges ∧ s'.seedRanges = s.seedRanges ∧ s'.markedReal = s.markedReal ∧
      s'.markedVirtual = s.markedVirtual := by
  obtain ⟨found, log, hsurvey, rfl, -⟩ := analyse_eq_finished hs
  obtain ⟨found', log', hsurvey', rfl, -⟩ := analyse_eq_finished hs'
  have hcopies : l.copySet c moves' = l.copySet c moves := by
    ext p
    exact copies_iff_of_mem_iff hmoves
  have hseeded : ∀ x, l.Seeded seeds' x ↔ l.Seeded seeds x := fun _ => seeded_iff_of_mem_iff hseeds
  have hreached : ∀ x, l.Reached moves' ⟨c, seeds'⟩ x ↔ l.Reached moves ⟨c, seeds⟩ x :=
    fun _ => reached_iff_of_mem_iff hmoves hseeds
  -- each of them is the size of a set that the two requests have in common
  rw [hw.summary_eq hsurvey, hw.summary_eq hsurvey']
  simp only [hcopies, hseeded, hreached, and_self]

end SameMembers

/-- Moves are counted one by one, so their order does not show. -/
theorem WellFormed.moveCounts_eq_of_perm (hw : l.WellFormed) (hperm : moves'.Perm moves)
    {sw : Switches} {s s' : Summary}
    (hs : (l.analyse sw moves ⟨c, seeds⟩).outcome = .finished s)
    (hs' : (l.analyse sw moves' ⟨c, seeds'⟩).outcome = .finished s') :
    s'.moves = s.moves ∧ s'.refMoves = s.refMoves := by
  obtain ⟨found, log, hsurvey, rfl, -⟩ := analyse_eq_finished hs
  obtain ⟨found', log', hsurvey', rfl, -⟩ := analyse_eq_finished hs'
  rw [hw.summary_eq hsurvey, hw.summary_eq hsurvey']
  dsimp only
  rw [hperm.length_eq, hperm.countP_eq]
  exact ⟨rfl, rfl⟩

/-- **Order and repetition do not matter.** Over well-formed live ranges, let two requests have the
same moves and the same seeds, each in any order and any number of times, and the same class. Then
their runs come to their end together; they leave the same live ranges, hence the same marks; and if they
come to their end, their summaries count the same edges, ranges of seeds and marked ranges of each kind.
If the lists of moves differ in order alone, the summaries are the same. -/
theorem analyse_eq_of_mem_iff (hw : l.WellFormed) (hmoves : ∀ m, m ∈ moves' ↔ m ∈ moves)
    (hseeds : ∀ r, r ∈ seeds' ↔ r ∈ seeds) (sw : Switches) (c : RegClass) :
    ((∃ s, (l.analyse sw moves' ⟨c, seeds'⟩).outcome = .finished s) ↔
      ∃ s, (l.analyse sw moves ⟨c, seeds⟩).outcome = .finished s) ∧
    (l.analyse sw moves' ⟨c, seeds'⟩).store.live = (l.analyse sw moves ⟨c, seeds⟩).store.live ∧
    ∀ s s', (l.analyse sw moves ⟨c, seeds⟩).outcome = .finished s →
      (l.analyse sw moves' ⟨c, seeds'⟩).outcome = .finished s' →
        s'.edges = s.edges ∧ s'.seedRanges = s.seedRanges ∧ s'.markedReal = s.markedReal ∧
          s'.markedVirtual = s.markedVirtual ∧ (moves'.Perm moves → s' = s) := by
  refine ⟨finishes_iff_of_mem_iff hmoves hseeds hw sw, live_eq_of_mem_iff hmoves hseeds hw sw, ?_⟩
  intro s s' hs hs'
  obtain ⟨hedges, hranges, hreal, hvirtual⟩ := counts_eq_of_mem_iff hmoves hseeds hw hs hs'
  refine ⟨hedges, hranges, hreal, hvirtual, ?_⟩
  -- the two counts that repetition changes are those of a list, up to its order
  intro hperm
  obtain ⟨hlength, hcount⟩ := hw.moveCounts_eq_of_perm hperm hs hs'
  calc s'
      = ⟨s'.moves, s'.refMoves, s'.edges, s'.seedRanges, s'.markedReal, s'.markedVirtual⟩ := rfl
    _ = ⟨s.moves, s.refMoves, s.edges, s.seedRanges, s.markedReal, s.markedVirtual⟩ := by
      rw [hlength, hcount, hedges, hranges, hreal, hvirtual]

/-- The moves of `looping` backwards, and its seed twice. -/
theorem analyse_eq_of_mem_iff_looping :
    looping.WellFormed ∧
      (∀ m, m ∈ loopingMoves.reverse ↔ m ∈ loopingMoves) ∧
      (looping.analyse .off loopingMoves.reverse
        ⟨.i64, [⟨.virtual, .i64, 0⟩, ⟨.virtual, .i64, 0⟩]⟩).outcome =
          .finished ⟨4, 4, 4, 2, 1, 3⟩ ∧
      (looping.analyse .off loopingMoves.reverse
        ⟨.i64, [⟨.virtual, .i64, 0⟩, ⟨.virtual, .i64, 0⟩]⟩).store.live =
          (looping.analyse .off loopingMoves ⟨.i64, [⟨.virtual, .i64, 0⟩]⟩).store.live := by
  have hw : looping.WellFormed := by decide
  have hmoves : ∀ m, m ∈ loopingMoves.reverse ↔ m ∈ loopingMoves := fun _ => List.mem_reverse
  have hseeds : ∀ r, r ∈ [(⟨.virtual, .i64, 0⟩ : Reg), ⟨.virtual, .i64, 0⟩] ↔
      r ∈ [(⟨.virtual, .i64, 0⟩ : Reg)] := by simp
  have hrun : (looping.analyse .off loopingMoves ⟨.i64, [⟨.virtual, .i64, 0⟩]⟩).outcome =
      .finished ⟨4, 4, 4, 2, 1, 3⟩ := by decide +kernel
  obtain ⟨hfinishes, hlive, hsummaries⟩ := analyse_eq_of_mem_iff hw hmoves hseeds .off .i64
  obtain ⟨s', hs'⟩ := hfinishes.2 ⟨_, hrun⟩
  obtain ⟨-, -, -, -, hperm⟩ := hsummaries _ _ hrun hs'
  have hsummary : s' = ⟨4, 4, 4, 2, 1, 3⟩ := hperm (List.reverse_perm loopingMoves)
  rw [hsummary] at hs'
  exact ⟨hw, hmoves, hs', hlive⟩

end Liveness

end RefFlow
