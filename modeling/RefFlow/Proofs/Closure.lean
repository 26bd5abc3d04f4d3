import RefFlow.FlowGraph.Reach
import RefFlow.FlowGraph.Search
/-!
# The search finds what can be reached

The search keeps one invariant, `Search.Inv`: what was visited can be reached from the seeds, and
whatever is visited but no longer waits has all its targets visited. When nothing waits any more, the
visited ranges contain the seeds and are closed under edges, so they are all that can be reached.

Main statement: `FlowGraph.mem_closure_iff` — a range is in the closure of a set if and only if a
path leads to it from a member of the set.
-/

namespace RefFlow

variable {g : FlowGraph} {seeds : KeySet}

theorem FlowGraph.Reaches.of_edge_closed {P : RangeKey → Prop}
    (hclosed : ∀ i j, P i → g.Edge i j → P j) {a b : RangeKey} (h : g.Reaches a b) (ha : P a) :
    P b := by
  induction h with
  | refl => exact ha
  | tail _ hedge ih => exact hclosed _ _ ih hedge

namespace Search

/-! ### Expanding -/

section Examine

variable {s : Search} {e : RangeKey × RangeKey} {es : List (RangeKey × RangeKey)} {j : RangeKey}

theorem mem_visited_examine : j ∈ (s.examine e).visited ↔ j ∈ s.visited ∨ j = e.2 := by
  unfold examine
  split
  · next h =>
    refine ⟨Or.inl, ?_⟩
    rintro (hj | rfl)
    · exact hj
    · exact h
  · exact KeySet.mem_insert

theorem mem_stack_examine :
    j ∈ (s.examine e).stack ↔ j ∈ s.stack ∨ j = e.2 ∧ ¬ e.2 ∈ s.visited := by
  unfold examine
  split
  · next h => exact ⟨Or.inl, fun hj => hj.resolve_right fun hk => hk.2 h⟩
  · next h =>
    rw [List.mem_cons]
    exact ⟨fun hj => hj.symm.imp_right fun hk => ⟨hk, h⟩, fun hj => hj.symm.imp_left And.left⟩

theorem mem_visited_foldl_examine :
    j ∈ (es.foldl examine s).visited ↔ j ∈ s.visited ∨ j ∈ es.map Prod.snd := by
  induction es generalizing s with
  | nil => simp
  | cons e es ih =>
    rw [List.foldl_cons, ih, mem_visited_examine, List.map_cons, List.mem_cons, or_assoc]

theorem mem_stack_foldl_examine :
    j ∈ (es.foldl examine s).stack ↔ j ∈ s.stack ∨ j ∈ es.map Prod.snd ∧ ¬ j ∈ s.visited := by
  induction es generalizing s with
  | nil => simp
  | cons e es ih =>
    rw [List.foldl_cons, ih, mem_stack_examine, mem_visited_examine, List.map_cons, List.mem_cons]
    -- the destination just examined, one examined later, or a range that waited before
    by_cases hje : j = e.2
    · subst hje
      by_cases hv : e.2 ∈ s.visited <;> simp [hv]
    · simp [hje]

end Examine

theorem map_snd_edgesFrom (g : FlowGraph) (k : RangeKey) :
    (g.edgesFrom k).map Prod.snd = g.targets k := by
  unfold FlowGraph.edgesFrom
  rw [List.map_map]
  exact List.map_id _

theorem mem_visited_expand {s : Search} {j k : RangeKey} :
    j ∈ (s.expand g k).visited ↔ j ∈ s.visited ∨ g.Edge k j := by
  unfold expand
  rw [mem_visited_foldl_examine, map_snd_edgesFrom]
  rfl

/-- What waits after a range was expanded waited before, or is a target that is new. -/
theorem mem_stack_expand {s : Search} {j k : RangeKey} :
    j ∈ (s.expand g k).stack ↔ j ∈ s.stack.erase k ∨ g.Edge k j ∧ ¬ j ∈ s.visited := by
  unfold expand
  rw [mem_stack_foldl_examine, map_snd_edgesFrom]
  rfl

/-! ### The invariant -/

/-- What holds of a search from `seeds` at every moment. -/
structure Inv (g : FlowGraph) (seeds : KeySet) (s : Search) : Prop where
  seeds_visited : ∀ k, k ∈ seeds → k ∈ s.visited
  visited_reached : ∀ k, k ∈ s.visited → ∃ a, a ∈ seeds ∧ g.Reaches a k
  stack_visited : ∀ k, k ∈ s.stack → k ∈ s.visited
  expanded : ∀ k, k ∈ s.visited → ¬ k ∈ s.stack → ∀ j, g.Edge k j → j ∈ s.visited

theorem Inv.start (g : FlowGraph) (seeds : KeySet) : Inv g seeds (start seeds) where
  seeds_visited _ hk := hk
  visited_reached k hk := ⟨k, hk, .refl⟩
  stack_visited _ hk := hk
  expanded _ hk hns := absurd hk hns

/-- **Expanding a range keeps the invariant**, whichever range it is. -/
theorem Inv.expands {s t : Search} (h : Inv g seeds s) (hst : s.Expands g t) : Inv g seeds t := by
  obtain ⟨k, hkstack, rfl⟩ := hst
  have hk : k ∈ s.visited := h.stack_visited k hkstack
  refine ⟨?_, ?_, ?_, ?_⟩
  · intro j hj
    exact mem_visited_expand.2 (Or.inl (h.seeds_visited j hj))
  -- what is new is a target of `k`, one step further than `k` itself
  · intro j hj
    rcases mem_visited_expand.1 hj with hj | hj
    · exact h.visited_reached j hj
    · obtain ⟨a, ha, hak⟩ := h.visited_reached k hk
      exact ⟨a, ha, .tail hak hj⟩
  · intro j hj
    rw [mem_visited_expand]
    rcases mem_stack_expand.1 hj with hj | ⟨hj, -⟩
    · exact Or.inl (h.stack_visited j (List.mem_of_mem_erase hj))
    · exact Or.inr hj
  -- a range that does not wait was visited before: what is new goes on the stack
  · intro i hi hns j hij
    rw [mem_stack_expand, not_or] at hns
    rw [mem_visited_expand]
    have hi' : i ∈ s.visited := by
      rcases mem_visited_expand.1 hi with hi | hi
      · exact hi
      · exact Decidable.byContradiction fun hnot => hns.2 ⟨hi, hnot⟩
    by_cases hik : i = k
    -- the range just taken off the stack: its targets are the ones visited now
    · exact Or.inr (hik ▸ hij)
    · refine Or.inl (h.expanded i hi' ?_ j hij)
      intro histack
      exact hns.1 ((List.mem_erase_of_ne hik).2 histack)

/-- The invariant holds when the search ends, and then nothing waits. -/
theorem Inv.run {s : Search} (h : Inv g seeds s) : Inv g seeds (run g s) ∧ (run g s).stack = [] := by
  fun_induction Search.run g s with
  | case1 s hnone =>
    -- a search stops only on an empty stack
    exact ⟨h, step_eq_none_iff.1 hnone⟩
  | case2 s t hsome ih => exact ih (h.expands (expands_of_step hsome))

/-- Graphs with the same targets are searched alike. -/
theorem run_congr {h : FlowGraph} (htargets : ∀ k, h.targets k = g.targets k) (s : Search) :
    run h s = run g s := by
  have hstep : ∀ s : Search, s.step h = s.step g := by
    intro s
    unfold step expand FlowGraph.edgesFrom
    simp only [htargets]
  fun_induction Search.run g s with
  | case1 s hnone =>
    rw [run]
    split
    · rfl
    · next t hsome => exact absurd ((hstep s).symm.trans hsome) (by simp [hnone])
  | case2 s t hsome ih =>
    rw [run]
    split
    · next hnone => exact absurd ((hstep s).symm.trans hnone) (by simp [hsome])
    · next u hu =>
      obtain rfl : u = t := Option.some.inj (hu.symm.trans ((hstep s).trans hsome))
      exact ih

/-- **When nothing waits any more**, what was visited is what can be reached: it holds the seeds and is
closed under edges. -/
theorem Inv.mem_visited_iff {s : Search} (h : Inv g seeds s) (hempty : s.stack = [])
    {k : RangeKey} : k ∈ s.visited ↔ ∃ a, a ∈ seeds ∧ g.Reaches a k := by
  constructor
  · exact h.visited_reached k
  · rintro ⟨a, ha, hak⟩
    refine hak.of_edge_closed ?_ (h.seeds_visited a ha)
    intro i j hi hij
    refine h.expanded i hi ?_ j hij
    rw [hempty]
    exact List.not_mem_nil

end Search

/-- **The closure is what can be reached**, in zero or more steps, from the given ranges. -/
theorem FlowGraph.mem_closure_iff {k : RangeKey} :
    k ∈ g.closure seeds ↔ ∃ a, a ∈ seeds ∧ g.Reaches a k := by
  obtain ⟨hinv, hempty⟩ := (Search.Inv.start g seeds).run
  exact hinv.mem_visited_iff hempty

theorem FlowGraph.closure_congr {h : FlowGraph} (htargets : ∀ k, h.targets k = g.targets k)
    (seeds : KeySet) : h.closure seeds = g.closure seeds := by
  unfold closure
  rw [Search.run_congr htargets]

end RefFlow
