import RefFlow.Proofs.Closure
import RefFlow.Session.Basic
import Mathlib.Logic.Relation
/-!
# The order of a search does not matter

A set of keys has no order of its own, and a stack is only one way to choose the range to expand next.
Here a search may start with the seeds in any order and expand any range that waits. The invariant
`Search.Inv` asks for neither order, and each expansion brings the search nearer to its end; so every
such search ends, and what it has visited then is the same set.

Main definitions and statements:

* `Search.Leads` — a search goes on, by expansions in some order;
* `Search.wellFounded_expands` — no search goes on for ever;
* `FlowGraph.search_exact` — what every search has visited at its end.
-/

namespace RefFlow

variable {g : FlowGraph} {seeds : KeySet}

/-- A path has no edges and ends where it starts, or it has an edge. -/
theorem FlowGraph.reaches_iff {a b : RangeKey} :
    g.Reaches a b ↔ b = a ∨ Relation.TransGen g.Edge a b := by
  rw [← Relation.reflTransGen_iff_eq_or_transGen]
  -- edges are added at the far end on both sides
  constructor
  · intro h
    induction h with
    | refl => exact .refl
    | tail _ hedge ih => exact ih.tail hedge
  · intro h
    induction h with
    | refl => exact .refl
    | tail _ hedge ih => exact ih.tail hedge

namespace Search

/-! ### Searches in any order -/

/-- From one state of a search to a later one, by expanding one waiting range after the other. -/
def Leads (g : FlowGraph) : Search → Search → Prop := Relation.ReflTransGen (Expands g)

variable {s t : Search}

/-- **Every search ends**, in whatever order it goes on. -/
theorem wellFounded_expands (g : FlowGraph) : WellFounded fun t s : Search => s.Expands g t :=
  Subrelation.wf (fun h => h.pending_lt) (measure (pending g)).wf

/-- As long as a range waits, the search can go on. -/
theorem exists_expands (h : s.stack ≠ []) : ∃ t, s.Expands g t := by
  obtain ⟨k, hk⟩ := List.exists_mem_of_ne_nil s.stack h
  exact ⟨_, k, hk, rfl⟩

/-- The invariant holds at the start, in whatever order the seeds wait. -/
theorem Inv.of_perm {order : List RangeKey} (h : order.Perm seeds.toList) :
    Inv g seeds ⟨seeds, order⟩ where
  seeds_visited _ hk := hk
  visited_reached k hk := ⟨k, hk, .refl⟩
  stack_visited _ hk := h.mem_iff.1 hk
  -- all that is visited waits, so nothing has to be expanded yet
  expanded _ hk hns := absurd (h.mem_iff.2 hk) hns

/-- A search keeps the invariant. -/
theorem Inv.leads (h : Inv g seeds s) (hst : Leads g s t) : Inv g seeds t := by
  induction hst with
  | refl => exact h
  | tail _ hexpands ih => exact ih.expands hexpands

/-- The search that always expands the topmost range is one of those in any order. -/
theorem leads_run (g : FlowGraph) (s : Search) : Leads g s (s.run g) := by
  -- each round of the run is one expansion, of the topmost range
  fun_induction Search.run g s with
  | case1 s hnone => exact .refl
  | case2 s t hsome ih => exact .head (expands_of_step hsome) ih

/-- At its end a search has visited the seeds and what a path with edges leads to from a seed. -/
theorem Inv.mem_visited_iff_transGen (h : Inv g seeds s) (hempty : s.stack = []) {k : RangeKey} :
    k ∈ s.visited ↔ k ∈ seeds ∨ ∃ a, a ∈ seeds ∧ Relation.TransGen g.Edge a k := by
  rw [h.mem_visited_iff hempty]
  -- the path without edges is the seed itself
  simp only [FlowGraph.reaches_iff, and_or_left, exists_or, exists_eq_right']

end Search

/-- The closure is what the search has visited at its end, when nothing waits. -/
theorem FlowGraph.leads_closure (g : FlowGraph) (seeds : KeySet) :
    Search.Leads g (.start seeds) ⟨g.closure seeds, []⟩ := by
  -- a run stops only when nothing waits
  have hempty : ((Search.start seeds).run g).stack = [] := (Search.Inv.start g seeds).run.2
  have hend : (Search.start seeds).run g = ⟨g.closure seeds, []⟩ := by
    unfold closure
    rw [← hempty]
  rw [← hend]
  exact Search.leads_run g (.start seeds)

/-- **Searches are exact, in any order.** Whatever the graph and the seeds, in whatever order the seeds
wait and the waiting ranges are expanded: a search cannot go on for ever, it goes on as long as a range
waits, and when none does it has visited the seeds and what a path with edges leads to from a seed. The
closure is what such a search has visited at its end. Computing it leaves a session as it was, with the
graph and the set in it. -/
theorem FlowGraph.search_exact (g : FlowGraph) (seeds : KeySet) :
    (WellFounded fun t s : Search => s.Expands g t) ∧
    (∀ order : List RangeKey, order.Perm seeds.toList → ∀ t, Search.Leads g ⟨seeds, order⟩ t →
      (t.stack ≠ [] → ∃ u, t.Expands g u) ∧
      (t.stack = [] → ∀ k, k ∈ t.visited ↔
        k ∈ seeds ∨ ∃ a, a ∈ seeds ∧ Relation.TransGen g.Edge a k)) ∧
    Search.Leads g (.start seeds) ⟨g.closure seeds, []⟩ ∧
    ∀ s : Session, s.graph = g → s.set = seeds →
      s.step (.closure false) = .ok (s, .set (g.closure seeds).ascending) := by
  refine ⟨Search.wellFounded_expands g, ?_, g.leads_closure seeds, ?_⟩
  -- the invariant asks for no order, so it holds from any order of the seeds on
  · intro order horder t ht
    have hinv : Search.Inv g seeds t := (Search.Inv.of_perm horder).leads ht
    exact ⟨Search.exists_expands, fun hempty k => hinv.mem_visited_iff_transGen hempty⟩
  -- a closure that is not kept leaves the session alone
  · rintro s rfl rfl
    rfl

/-- A diamond from `VR0` to `VR3` over `VR1` and `RR0`, with a way back, a range with an edge to itself,
and an edge that no seed below reaches. -/
def FlowGraph.diamond : FlowGraph :=
  [(0, 1), (0, 0x80000000), (1, 3), (0x80000000, 3), (3, 0), (3, 3), (5, 1)].foldl
    (fun g e => g.insertEdge ⟨e.1⟩ ⟨e.2⟩) .empty

/-- The seeds `VR0` and `VR9`, the latter without an edge, expanded from `VR9` on. -/
theorem FlowGraph.search_exact_diamond :
    [RangeKey.mk 9, ⟨0⟩].Perm (KeySet.insertAll ∅ [⟨0⟩, ⟨9⟩]).toList ∧
      Search.Leads diamond ⟨KeySet.insertAll ∅ [⟨0⟩, ⟨9⟩], [⟨9⟩, ⟨0⟩]⟩
        (Search.run diamond ⟨KeySet.insertAll ∅ [⟨0⟩, ⟨9⟩], [⟨9⟩, ⟨0⟩]⟩) ∧
      (Search.run diamond ⟨KeySet.insertAll ∅ [⟨0⟩, ⟨9⟩], [⟨9⟩, ⟨0⟩]⟩).stack = [] ∧
      (Search.run diamond ⟨KeySet.insertAll ∅ [⟨0⟩, ⟨9⟩], [⟨9⟩, ⟨0⟩]⟩).visited.toList =
        [⟨0⟩, ⟨9⟩, ⟨1⟩, ⟨0x80000000⟩, ⟨3⟩] ∧
      ∀ k, k ∈ (Search.run diamond ⟨KeySet.insertAll ∅ [⟨0⟩, ⟨9⟩], [⟨9⟩, ⟨0⟩]⟩).visited ↔
        k ∈ KeySet.insertAll ∅ [⟨0⟩, ⟨9⟩] ∨
          ∃ a, a ∈ KeySet.insertAll ∅ [⟨0⟩, ⟨9⟩] ∧ Relation.TransGen diamond.Edge a k := by
  have horder : [RangeKey.mk 9, ⟨0⟩].Perm (KeySet.insertAll ∅ [⟨0⟩, ⟨9⟩]).toList := by decide
  have hempty : (Search.run diamond ⟨KeySet.insertAll ∅ [⟨0⟩, ⟨9⟩], [⟨9⟩, ⟨0⟩]⟩).stack = [] := by
    decide +kernel
  have hleads := Search.leads_run diamond ⟨KeySet.insertAll ∅ [⟨0⟩, ⟨9⟩], [⟨9⟩, ⟨0⟩]⟩
  have hend := ((search_exact diamond (KeySet.insertAll ∅ [⟨0⟩, ⟨9⟩])).2.1 _ horder _ hleads).2
  exact ⟨horder, hleads, hempty, by decide +kernel, hend hempty⟩

end RefFlow
