import RefFlow.Proofs.Closure
import RefFlow.Proofs.FlowGraph
import RefFlow.Proofs.Seeding
import RefFlow.Propagation
/-!
# What a survey finds

A survey that comes to its end knows the ranges of the seeds, the edges of the moves, and what can be
reached along them. All three are said here of the store's own answers, whatever store it is.

Main statements:

* `propagate_eq_finished` — a run that comes to its end marks what its survey reached;
* `survey_edge_iff`, `survey_mem_seeds_iff` — the edges and the seeds' ranges of a survey;
* `survey_mem_reached_iff` — the ranges that a survey reaches.
-/

namespace RefFlow

variable {σ : Type} [RangeStore σ] {store : σ} {moves : List Move} {req : Request}

/-- A run that comes to its end marks what its survey reached. -/
theorem propagate_eq_finished {sw : Switches} {s : Summary}
    (h : (propagate sw store moves req).outcome = .finished s) :
    ∃ found log, survey store moves req = (.ok found, log) ∧ s = found.summary ∧
      (propagate sw store moves req).store = markAll store found.marking := by
  cases hsurvey : survey store moves req with
  | mk result log =>
    cases result with
    -- no stop has a summary for its outcome
    | error stop =>
      rw [propagate_of_error hsurvey] at h
      cases stop <;> simp [Stop.outcome] at h
    | ok found =>
      rw [propagate_of_ok hsurvey] at h ⊢
      exact ⟨found, log, rfl, (Outcome.finished.inj h).symm, rfl⟩

/-- A survey that comes to its end went through both of its stages. -/
theorem survey_eq_ok {found : Survey} {log : List Entry}
    (h : survey store moves req = (.ok found, log)) :
    (FlowGraph.empty.addMoves store req.refClass moves).stop = none ∧
      (Seeding.collect store req ∅).stop = none ∧
      found = ⟨(FlowGraph.empty.addMoves store req.refClass moves).graph,
        (Seeding.collect store req ∅).set⟩ := by
  unfold survey at h
  dsimp only at h
  -- either stage would have ended the survey with an error
  cases hmoves : (FlowGraph.empty.addMoves store req.refClass moves).stop with
  | some stop =>
    rw [hmoves] at h
    exact absurd (Prod.mk.inj h).1 (by simp)
  | none =>
    rw [hmoves] at h
    dsimp only at h
    cases hseeds : (Seeding.collect store req ∅).stop with
    | some stop =>
      rw [hseeds] at h
      exact absurd (Prod.mk.inj h).1 (by simp)
    | none =>
      rw [hseeds] at h
      exact ⟨rfl, rfl, (Except.ok.inj (Prod.mk.inj h).1).symm⟩

/-- A survey that stops was stopped by one of its stages. -/
theorem survey_eq_error {stop : Stop} {log : List Entry}
    (h : survey store moves req = (.error stop, log)) :
    (FlowGraph.empty.addMoves store req.refClass moves).stop = some stop ∨
      (Seeding.collect store req ∅).stop = some stop := by
  unfold survey at h
  dsimp only at h
  cases hmoves : (FlowGraph.empty.addMoves store req.refClass moves).stop with
  | some cause =>
    rw [hmoves] at h
    exact Or.inl (congrArg some (Except.error.inj (Prod.mk.inj h).1))
  | none =>
    rw [hmoves] at h
    dsimp only at h
    cases hseeds : (Seeding.collect store req ∅).stop with
    | some cause =>
      rw [hseeds] at h
      exact Or.inr (congrArg some (Except.error.inj (Prod.mk.inj h).1))
    | none =>
      rw [hseeds] at h
      exact absurd (Prod.mk.inj h).1 (by simp)

/-- A run faults where the store does, in a lookup or for a seed. -/
theorem propagate_eq_faulted {sw : Switches} {f : Fault}
    (h : (propagate sw store moves req).outcome = .faulted f) :
    (∃ p r, RangeStore.locate store p r = .error f) ∨ ∃ r, RangeStore.seed store r = .error f := by
  cases hsurvey : survey store moves req with
  | mk result log =>
    cases result with
    | error stop =>
      rw [propagate_of_error hsurvey] at h
      obtain rfl : stop = .faulted f := by
        cases stop with
        | refused r => exact absurd h (by simp [Stop.outcome])
        | faulted f' => rw [Outcome.faulted.inj h]
      -- moves fault at a lookup; seeds are checked first, and then their ranges are asked for
      rcases survey_eq_error hsurvey with hstop | hstop
      · exact Or.inl (FlowGraph.addMoves_stop_eq_faulted hstop)
      · obtain ⟨r, -, -, hseed⟩ := Seeding.collect_stop_eq_faulted hstop
        exact Or.inr ⟨r, hseed⟩
    | ok found =>
      rw [propagate_of_ok hsurvey] at h
      exact absurd h (by simp)

/-- **Stores that agree.** Two stores that resolve the moves of the reference class alike, and know the
same ranges of all virtual seeds, come to the same survey. -/
theorem survey_congr {τ : Type} [RangeStore τ] {other : τ}
    (hmoves : ∀ m ∈ moves, m.OfClass req.refClass → m.resolve store = m.resolve other)
    (hseeds : ∀ r ∈ req.seeds, r.kind = .virtual →
      (RangeStore.seed store r).map (·.keys) = (RangeStore.seed other r).map (·.keys)) :
    (survey store moves req).1 = (survey other moves req).1 := by
  -- the notes on the seeds may differ, which the survey itself does not show
  obtain ⟨hset, hstop⟩ := Seeding.collect_congr hseeds ∅
  unfold survey
  rw [FlowGraph.addMoves_congr hmoves]
  dsimp only
  cases (FlowGraph.empty.addMoves other req.refClass moves).stop with
  | some stop => rfl
  | none =>
    dsimp only
    rw [hstop, hset]
    cases (Seeding.collect other req ∅).stop <;> rfl

section Found

variable {found : Survey} {log : List Entry} (h : survey store moves req = (.ok found, log))
include h

theorem survey_edge_iff {a b : RangeKey} :
    found.graph.Edge a b ↔ ∃ m ∈ moves, m.OfClass req.refClass ∧
      RangeStore.locate store (.useOf m.instr) m.src = .ok a ∧
      RangeStore.locate store (.defOf m.instr) m.dst = .ok b := by
  obtain ⟨hmoves, -, rfl⟩ := survey_eq_ok h
  rw [FlowGraph.edge_addMoves_iff hmoves, or_iff_right FlowGraph.not_edge_empty]

theorem survey_mem_seeds_iff {k : RangeKey} :
    k ∈ found.seeds ↔
      ∃ r ∈ req.seeds, ∃ f, RangeStore.seed store r = .ok f ∧ k ∈ f.keys := by
  obtain ⟨-, hseeds, rfl⟩ := survey_eq_ok h
  rw [Seeding.mem_collect_iff hseeds, or_iff_right (KeySet.mem_empty k)]

theorem survey_seed_mem {r : Reg} (hr : r ∈ req.seeds) :
    r.kind = .virtual ∧ r.cls = req.refClass := by
  obtain ⟨-, hseeds, -⟩ := survey_eq_ok h
  obtain ⟨hkind, hcls, -⟩ := Seeding.collect_stop_eq_none hseeds hr
  exact ⟨hkind, hcls⟩

omit h in
theorem Survey.mem_reached_iff {k : RangeKey} :
    k ∈ found.reached ↔ ∃ a, a ∈ found.seeds ∧ found.graph.Reaches a k :=
  FlowGraph.mem_closure_iff

omit h in
theorem Survey.mem_marking_iff {k : RangeKey} : k ∈ found.marking ↔ k ∈ found.reached :=
  KeySet.mem_byName

omit h in
theorem Survey.nodup_marking : found.marking.Nodup := found.reached.nodup_byName

end Found

end RefFlow
