import RefFlow.Proofs.Influence
import RefFlow.Proofs.Requests
/-!
# Runs one after another

A run leaves live ranges that differ from those before in marks alone, and the directory as it was. No
later run reads the marks, so it comes to the survey that it would have come to at first, and adds its
own marks to those that are there. Hence runs with one request are idempotent, and runs with two lists
of seeds come to what a single run with all these seeds comes to.

Main definitions and statements:

* `Indexed.analyse`, `Indexed.rerun` — a run over what is stored, and runs over what runs left;
* `Indexed.rerun_eq` — running again changes nothing, over any live ranges and any directory;
* `Liveness.analyse_of_bare_eq` — marks, assignments and execution counts never influence a run;
* `Liveness.analyse_append_seeds` — two runs and the single run with the seeds of both.
-/

namespace RefFlow

namespace Indexed

/-! ### What a run leaves to the next one -/

/-- The analysis of the live ranges with the directory that is stored with them. -/
def analyse (s : Indexed) (sw : Switches) (moves : List Move) (req : Request) : Run Indexed :=
  s.live.propagate sw s.dir moves req

/-- The last of `n + 1` runs with one request, each over the store that the one before it left. -/
def rerun (s : Indexed) (sw : Switches) (moves : List Move) (req : Request) : Nat → Run Indexed
  | 0 => s.analyse sw moves req
  | n + 1 => (s.rerun sw moves req n).store.analyse sw moves req

theorem dir_markAll (s : Indexed) (ks : List RangeKey) : (markAll s ks).dir = s.dir := by
  induction ks generalizing s with
  | nil => rfl
  | cons k ks ih =>
    rw [markAll_cons, ih]
    rfl

/-- Marks that are set already do not have to be set again. -/
theorem markAll_markAll (s : Indexed) (ks : List RangeKey) :
    markAll (markAll s ks) ks = markAll s ks := by
  -- the second time the same sites are named again, and marks are all that could differ
  have hlive : (markAll (markAll s ks) ks).live = (markAll s ks).live := by
    refine Liveness.eq_of_marked_iff (unmarkAll_markAll _ ks) fun x => ?_
    have hreg : (markAll s ks).live.reg? x = s.live.reg? x :=
      Liveness.reg?_eq_of_unmarkAll (unmarkAll_markAll s ks) x
    rw [marked_markAll_iff, hreg, marked_markAll_iff, or_assoc, or_self]
  calc markAll (markAll s ks) ks
      = ⟨(markAll (markAll s ks) ks).live, (markAll (markAll s ks) ks).dir⟩ := rfl
    _ = ⟨(markAll s ks).live, (markAll s ks).dir⟩ := by rw [hlive, dir_markAll]

/-- Runs over stores that differ in marks alone come to the same survey. -/
theorem analyse_of_unmarkAll {s t : Indexed} (hlive : t.live.unmarkAll = s.live.unmarkAll)
    (hdir : t.dir = s.dir) (sw : Switches) (moves : List Move) (req : Request) :
    (t.analyse sw moves req).outcome = (s.analyse sw moves req).outcome ∧
      ∃ ks, (t.analyse sw moves req).store = markAll t ks ∧
        (s.analyse sw moves req).store = markAll s ks := by
  obtain ⟨live, dir⟩ := s
  obtain ⟨live', dir'⟩ := t
  obtain rfl : dir' = dir := hdir
  -- marks are not read, so the surveys are the same
  have hbare : live'.bare = live.bare := Liveness.bare_eq_of_unmarkAll hlive
  exact propagate_of_survey_eq (survey_eq_of_bare hbare rfl dir' req) sw

/-- **Running again.** A run over what a run with the same request left ends like that one and
leaves what that one left. -/
theorem analyse_again (s : Indexed) (sw : Switches) (moves : List Move) (req : Request) :
    ((s.analyse sw moves req).store.analyse sw moves req).outcome =
        (s.analyse sw moves req).outcome ∧
      ((s.analyse sw moves req).store.analyse sw moves req).store =
        (s.analyse sw moves req).store := by
  obtain ⟨-, ks, hstore, -⟩ := analyse_of_unmarkAll (s := s) rfl rfl sw moves req
  rw [hstore]
  obtain ⟨houtcome, js, hagain, hfirst⟩ :=
    analyse_of_unmarkAll (unmarkAll_markAll s ks) (dir_markAll s ks) sw moves req
  refine ⟨houtcome, ?_⟩
  -- both runs mark `js`, so the second one finds its marks set
  have hmarks : markAll s ks = markAll s js := hstore.symm.trans hfirst
  rw [hagain, hmarks, markAll_markAll]

/-- **Idempotence.** However often the run is repeated, it ends like the first one and leaves what the
first one left. -/
theorem rerun_eq (s : Indexed) (sw : Switches) (moves : List Move) (req : Request) (n : Nat) :
    (s.rerun sw moves req n).outcome = (s.analyse sw moves req).outcome ∧
      (s.rerun sw moves req n).store = (s.analyse sw moves req).store := by
  -- each run starts from what the first one left, and leaves just that
  induction n with
  | zero => exact ⟨rfl, rfl⟩
  | succ n ih =>
    obtain ⟨-, hstore⟩ := ih
    unfold rerun
    rw [hstore]
    exact analyse_again s sw moves req

end Indexed

namespace Liveness

variable {l l' : Liveness} {moves moves' : List Move} {c : RegClass}

/-- A run leaves a directory that is up to date, so the next run is one over the live ranges left. -/
theorem analyse_store_analyse (l : Liveness) (sw : Switches) (moves : List Move)
    (req req' : Request) :
    (l.analyse sw moves req).store.analyse sw moves req' =
      (l.analyse sw moves req).store.live.analyse sw moves req' := by
  have hdir : (l.analyse sw moves req).store.dir =
      .ofLiveness (l.analyse sw moves req).store.live := by
    rw [ofLiveness_eq_of_bare (bare_eq_of_unmarkAll (unmarkAll_analyse l sw moves req))]
    obtain ⟨-, ks, hstore, -⟩ :=
      Indexed.analyse_of_unmarkAll (s := ⟨l, .ofLiveness l⟩) rfl rfl sw moves req
    exact (congrArg Indexed.dir hstore).trans (Indexed.dir_markAll _ ks)
  unfold Indexed.analyse
  rw [hdir]
  rfl

/-! ### Runs with one request -/

/-- **Marks, assignments and execution counts never influence a run.** Let two functions have the same
live ranges but for marks and assignments, and the same moves but for execution counts. Then the runs
with one request have the same outcome. If they come to their end, each adds to its own marks the ranges
that a reference gets to, which are the same ranges for both. So runs are idempotent: repeated however
often, a run ends as it did at first and leaves the store as it was left then. -/
theorem analyse_of_bare_eq (hw : l.WellFormed) (hlive : l'.bare = l.bare)
    (hmoves : moves'.map Move.unweighted = moves.map Move.unweighted) (sw : Switches)
    (req : Request) :
    (l'.analyse sw moves' req).outcome = (l.analyse sw moves req).outcome ∧
    (∀ s, (l.analyse sw moves req).outcome = .finished s → ∀ x,
      ((l.analyse sw moves req).store.live.Marked x ↔ l.Marked x ∨ l.Reached moves req x) ∧
      ((l'.analyse sw moves' req).store.live.Marked x ↔ l'.Marked x ∨ l.Reached moves req x)) ∧
    ∀ n, (Indexed.rerun ⟨l, .ofLiveness l⟩ sw moves req n).outcome =
        (l.analyse sw moves req).outcome ∧
      (Indexed.rerun ⟨l, .ofLiveness l⟩ sw moves req n).store = (l.analyse sw moves req).store := by
  refine ⟨outcome_eq_of_bare hlive hmoves sw req, ?_, ?_⟩
  · intro s hs x
    exact ⟨hw.marked_analyse_iff hs, hw.marked_iff_of_bare hlive hmoves hs⟩
  · intro n
    exact Indexed.rerun_eq ⟨l, .ofLiveness l⟩ sw moves req n

/-- The ranges of `looping` with the mark on another one and with a register assigned to `v1`. -/
def loopingAssigned : Liveness where
  pool := looping.pool
  pinned := #[⟨⟨.real, .i64, 3⟩, ⟨#[0]⟩, true⟩]
  virtuals := #[
    ⟨⟨.virtual, .i64, 0⟩, none, ⟨#[⟨.defOf 0, .useOf 1⟩]⟩, false⟩,
    ⟨⟨.virtual, .i64, 1⟩, some ⟨.real, .i64, 5⟩, ⟨#[⟨.defOf 2, .useOf 5⟩]⟩, false⟩,
    ⟨⟨.virtual, .i64, 0⟩, none, ⟨#[⟨.defOf 3, .useOf 4⟩]⟩, false⟩,
    ⟨⟨.virtual, .f64, 9⟩, none, ⟨#[⟨.defOf 0, .useOf 4⟩]⟩, false⟩]

/-- The moves of `looping`, each executed a thousand times as often. -/
def loopingHot : List Move := loopingMoves.map fun m => { m with freq := 1000 * m.freq }

theorem analyse_of_bare_eq_looping :
    looping.WellFormed ∧ loopingAssigned.bare = looping.bare ∧
      loopingHot.map Move.unweighted = loopingMoves.map Move.unweighted ∧
      (loopingAssigned.analyse .off loopingHot ⟨.i64, [⟨.virtual, .i64, 0⟩]⟩).outcome =
        .finished ⟨4, 4, 4, 2, 1, 3⟩ ∧
      (∀ x, (loopingAssigned.analyse .off loopingHot
          ⟨.i64, [⟨.virtual, .i64, 0⟩]⟩).store.live.Marked x ↔
        loopingAssigned.Marked x ∨ looping.Reached loopingMoves ⟨.i64, [⟨.virtual, .i64, 0⟩]⟩ x) ∧
      (Indexed.rerun ⟨looping, .ofLiveness looping⟩ .off loopingMoves
        ⟨.i64, [⟨.virtual, .i64, 0⟩]⟩ 7).outcome = .finished ⟨4, 4, 4, 2, 1, 3⟩ := by
  have hw : looping.WellFormed := by decide
  have hlive : loopingAssigned.bare = looping.bare := by decide +kernel
  have hmoves : loopingHot.map Move.unweighted = loopingMoves.map Move.unweighted := by decide
  have hrun : (looping.analyse .off loopingMoves ⟨.i64, [⟨.virtual, .i64, 0⟩]⟩).outcome =
      .finished ⟨4, 4, 4, 2, 1, 3⟩ := by decide +kernel
  obtain ⟨houtcome, hmarked, hrerun⟩ :=
    analyse_of_bare_eq hw hlive hmoves .off ⟨.i64, [⟨.virtual, .i64, 0⟩]⟩
  exact ⟨hw, hlive, hmoves, houtcome.trans hrun, fun x => (hmarked _ hrun x).2,
    (hrerun 7).1.trans hrun⟩

/-! ### Runs with several lists of seeds -/

/-- A second run has the outcome that it would have had at first. -/
theorem outcome_analyse_second (l : Liveness) (sw : Switches) (moves : List Move)
    (req req' : Request) :
    ((l.analyse sw moves req).store.analyse sw moves req').outcome =
      (l.analyse sw moves req').outcome := by
  rw [analyse_store_analyse]
  exact outcome_eq_of_bare (bare_eq_of_unmarkAll (unmarkAll_analyse l sw moves req)) rfl sw req'

/-- A second run adds to the marks of the first one. -/
theorem WellFormed.marked_second_iff (hw : l.WellFormed) {sw : Switches} {req req' : Request}
    {s s' : Summary} {x : Site} (hs : (l.analyse sw moves req).outcome = .finished s)
    (hs' : (l.analyse sw moves req').outcome = .finished s') :
    ((l.analyse sw moves req).store.analyse sw moves req').store.live.Marked x ↔
      (l.Marked x ∨ l.Reached moves req x) ∨ l.Reached moves req' x := by
  -- the first run has changed marks alone, so the second reaches what it would have from the start
  have hlive := bare_eq_of_unmarkAll (unmarkAll_analyse l sw moves req)
  rw [analyse_store_analyse, hw.marked_iff_of_bare hlive rfl hs', hw.marked_analyse_iff hs]

theorem finishes_append_iff (hw : l.WellFormed) {sw : Switches} {as bs : List Reg} :
    (∃ s, (l.analyse sw moves ⟨c, as⟩).outcome = .finished s) ∧
        (∃ s, (l.analyse sw moves ⟨c, bs⟩).outcome = .finished s) ↔
      ∃ s, (l.analyse sw moves ⟨c, as ++ bs⟩).outcome = .finished s := by
  rw [hw.exists_analyse_eq_finished_iff, hw.exists_analyse_eq_finished_iff,
    hw.exists_analyse_eq_finished_iff, List.forall_mem_append]
  exact and_and_left.symm

/-- **Runs compose over seeds.** A run with the seeds `as`, and after it one with the seeds `bs` over
what the first run left, both come to their end if and only if the single run with the seeds of both
does. Then they leave the same live ranges, hence the same marks, as the single run does. The single
run counts at least as many marked ranges as each of the two, and at most as many as both together:
what both reach is counted twice then. -/
theorem analyse_append_seeds (hw : l.WellFormed) (sw : Switches) (moves : List Move) (c : RegClass)
    (as bs : List Reg) :
    ((∃ s, (l.analyse sw moves ⟨c, as⟩).outcome = .finished s) ∧
        (∃ s, ((l.analyse sw moves ⟨c, as⟩).store.analyse sw moves ⟨c, bs⟩).outcome = .finished s) ↔
      ∃ s, (l.analyse sw moves ⟨c, as ++ bs⟩).outcome = .finished s) ∧
    ∀ s₁ s₂ s, (l.analyse sw moves ⟨c, as⟩).outcome = .finished s₁ →
      ((l.analyse sw moves ⟨c, as⟩).store.analyse sw moves ⟨c, bs⟩).outcome = .finished s₂ →
      (l.analyse sw moves ⟨c, as ++ bs⟩).outcome = .finished s →
        ((l.analyse sw moves ⟨c, as⟩).store.analyse sw moves ⟨c, bs⟩).store.live =
            (l.analyse sw moves ⟨c, as ++ bs⟩).store.live ∧
          s.marked.toNat ≤ s₁.marked.toNat + s₂.marked.toNat ∧
          s₁.marked.toNat ≤ s.marked.toNat ∧ s₂.marked.toNat ≤ s.marked.toNat := by
  rw [outcome_analyse_second]
  -- what stops a run is a bad move, or a bad seed in one of the two lists
  refine ⟨finishes_append_iff hw, ?_⟩
  intro s₁ s₂ s h₁ h₂ h
  refine ⟨?_, ?_⟩
  · refine eq_of_marked_iff ?_ fun x => ?_
    · rw [analyse_store_analyse, unmarkAll_analyse, unmarkAll_analyse, unmarkAll_analyse]
    · rw [hw.marked_second_iff h₁ h₂, hw.marked_analyse_iff h, reached_append_iff, or_assoc]
  -- the counts are the sizes of two sets and of their union
  · have hunion : {x | l.Reached moves ⟨c, as ++ bs⟩ x} =
        {x | l.Reached moves ⟨c, as⟩ x} ∪ {x | l.Reached moves ⟨c, bs⟩ x} := by
      ext x
      exact reached_append_iff
    have hfinite : {x | l.Reached moves ⟨c, as ++ bs⟩ x}.Finite := WellFormed.finite_reached
    rw [hunion] at hfinite
    rw [hw.marked_toNat h₁, hw.marked_toNat h₂, hw.marked_toNat h, hunion]
    exact ⟨Set.ncard_union_le _ _, Set.ncard_le_ncard Set.subset_union_left hfinite,
      Set.ncard_le_ncard Set.subset_union_right hfinite⟩

/-- The seeds `v0` and `v1` of `looping`. Both reach all that there is to reach. -/
theorem analyse_append_seeds_looping :
    looping.WellFormed ∧
      (∃ s, ((looping.analyse .off loopingMoves ⟨.i64, [⟨.virtual, .i64, 0⟩]⟩).store.analyse .off
        loopingMoves ⟨.i64, [⟨.virtual, .i64, 1⟩]⟩).outcome = .finished s) ∧
      ((looping.analyse .off loopingMoves ⟨.i64, [⟨.virtual, .i64, 0⟩]⟩).store.analyse .off
        loopingMoves ⟨.i64, [⟨.virtual, .i64, 1⟩]⟩).store.live =
          (looping.analyse .off loopingMoves
            ⟨.i64, [⟨.virtual, .i64, 0⟩, ⟨.virtual, .i64, 1⟩]⟩).store.live := by
  have hw : looping.WellFormed := by decide
  have hrun : (looping.analyse .off loopingMoves
      ⟨.i64, [⟨.virtual, .i64, 0⟩, ⟨.virtual, .i64, 1⟩]⟩).outcome =
        .finished ⟨4, 4, 4, 3, 1, 3⟩ := by decide +kernel
  obtain ⟨hfinishes, hsame⟩ := analyse_append_seeds hw .off loopingMoves .i64
    [⟨.virtual, .i64, 0⟩] [⟨.virtual, .i64, 1⟩]
  obtain ⟨⟨s₁, h₁⟩, ⟨s₂, h₂⟩⟩ := hfinishes.2 ⟨_, hrun⟩
  exact ⟨hw, ⟨s₂, h₂⟩, (hsame s₁ s₂ _ h₁ h₂ hrun).1⟩

end Liveness

end RefFlow
