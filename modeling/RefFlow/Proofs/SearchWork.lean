import RefFlow.Proofs.Counts
import RefFlow.Proofs.SearchOrder
/-!
# The work of a search

A search is cheap because it visits a range when it puts it on the stack, and puts on only what it
has not visited. Here a search writes down what it does (`Search.Trace`): which ranges it took off
the stack, which it put on, and which edges it examined. It may start with the seeds in any order
and take off any range that waits; the edges of a range that was taken off are examined one by one,
and whatever holds does so between two of them too.

The invariant `Trace.Inv` has three clauses. The ranges put on are those visited, each once
(`visited`); they were either taken off again or still wait (`waiting`); and the edges examined,
with those still ahead, are the edges of the ranges taken off, range by range (`work`). From the
first two it follows that no range waits twice or comes back, from all three what the whole search
costs: one round for each range visited, and one look at each edge that leaves from one.

What a search visits is not proved anew. With the edges ahead examined (`Trace.settled`) it is a
search that expands range by range, and these have visited the closure when they end.

Main definitions and statements:

* `Search.Trace`, `Trace.Step` — a search with what it did, and its single actions;
* `Trace.Leads.settled` — edge by edge a search goes the way that it goes range by range;
* `Trace.Inv`, `Trace.Inv.step` — the invariant, and that an action keeps it;
* `Search.rounds`, `Trace.exists_leads_run` — how often the search proper goes round, and its trace;
* `FlowGraph.search_linear` — the work of every search.
-/

namespace RefFlow

/-! ### Edges by source -/

namespace FlowGraph

variable {g : FlowGraph}

theorem nodup_targets (g : FlowGraph) (a : RangeKey) : (g.targets a).Nodup := by
  unfold targets
  cases g.targetSet? a with
  | none => exact List.nodup_nil
  | some set => exact set.nodup

theorem mem_edgesFrom {a : RangeKey} {e : RangeKey × RangeKey} :
    e ∈ g.edgesFrom a ↔ e.1 = a ∧ g.Edge e.1 e.2 := by
  obtain ⟨b, c⟩ := e
  unfold edgesFrom
  rw [List.mem_map]
  constructor
  · rintro ⟨d, hd, he⟩
    obtain ⟨rfl, rfl⟩ := Prod.mk.inj he
    exact ⟨rfl, hd⟩
  · rintro ⟨rfl, hedge⟩
    exact ⟨c, hedge, rfl⟩

theorem mem_flatMap_edgesFrom {ks : List RangeKey} {e : RangeKey × RangeKey} :
    e ∈ ks.flatMap g.edgesFrom ↔ e.1 ∈ ks ∧ g.Edge e.1 e.2 := by
  simp only [List.mem_flatMap, mem_edgesFrom]
  constructor
  · rintro ⟨a, ha, rfl, hedge⟩
    exact ⟨ha, hedge⟩
  · rintro ⟨ha, hedge⟩
    exact ⟨e.1, ha, rfl, hedge⟩

/-- Different ranges have no edge in common, and no range has one twice. -/
theorem nodup_flatMap_edgesFrom {ks : List RangeKey} (h : ks.Nodup) :
    (ks.flatMap g.edgesFrom).Nodup := by
  refine List.nodup_flatMap.2 ⟨?_, h.imp fun {a b} hab => ?_⟩
  -- the targets of one range are a set, and an edge of another has another source
  · intro a _
    exact (g.nodup_targets a).map fun _ _ he => (Prod.mk.inj he).2
  · intro e hea heb
    exact hab ((mem_edgesFrom.1 hea).1.symm.trans (mem_edgesFrom.1 heb).1)

end FlowGraph

namespace Search

/-! ### Searches that write down what they do -/

/-- A search with what it has done so far, and the edges it is about to examine: those of the range
taken off the stack last that are still left. -/
structure Trace where
  now : Search
  ahead : List (RangeKey × RangeKey)
  /-- The ranges taken off the stack, the first one first. -/
  taken : List RangeKey
  /-- The ranges put on the stack, the seeds before all others. -/
  put : List RangeKey
  examined : List (RangeKey × RangeKey)
  deriving DecidableEq, Repr

namespace Trace

/-- The seeds are visited and wait in the given order. -/
def start (seeds : KeySet) (order : List RangeKey) : Trace := ⟨⟨seeds, order⟩, [], [], order, []⟩

/-- Takes a range off the stack. Its edges are ahead. -/
def takeOff (g : FlowGraph) (k : RangeKey) (t : Trace) : Trace :=
  { t with
    now := t.now.takeOff k
    ahead := g.edgesFrom k
    taken := t.taken ++ [k] }

/-- Examines an edge. A destination that was not visited before is put on. -/
def examine (e : RangeKey × RangeKey) (rest : List (RangeKey × RangeKey)) (t : Trace) : Trace :=
  { t with
    now := t.now.examine e
    ahead := rest
    put := if e.2 ∈ t.now.visited then t.put else t.put ++ [e.2]
    examined := t.examined ++ [e] }

section Examine

variable {e : RangeKey × RangeKey} {rest : List (RangeKey × RangeKey)} {t : Trace}

/-- A destination that was visited before is neither visited nor put on again. -/
theorem examine_of_mem (h : e.2 ∈ t.now.visited) :
    t.examine e rest = { t with ahead := rest, examined := t.examined ++ [e] } := by
  simp only [examine, Search.examine, if_pos h]

theorem examine_of_notMem (h : e.2 ∉ t.now.visited) :
    t.examine e rest = ⟨⟨t.now.visited.insert e.2, e.2 :: t.now.stack⟩, rest, t.taken,
      t.put ++ [e.2], t.examined ++ [e]⟩ := by
  simp only [examine, Search.examine, if_neg h]

end Examine

/-- One action of a search. A range is taken off only when no edge is left to examine. -/
inductive Step (g : FlowGraph) : Trace → Trace → Prop
  | takeOff {t : Trace} {k : RangeKey} : t.ahead = [] → k ∈ t.now.stack → Step g t (t.takeOff g k)
  | examine {t : Trace} {e : RangeKey × RangeKey} {rest : List (RangeKey × RangeKey)} :
      t.ahead = e :: rest → Step g t (t.examine e rest)

/-- From one moment of a search to a later one. -/
def Leads (g : FlowGraph) : Trace → Trace → Prop := Relation.ReflTransGen (Step g)

/-- Nothing waits, and no edge is left to examine. -/
def Ended (t : Trace) : Prop := t.now.stack = [] ∧ t.ahead = []

variable {g : FlowGraph} {seeds : KeySet} {order : List RangeKey} {t u : Trace}

/-- A search goes on until it has ended. -/
theorem exists_step (h : ¬ t.Ended) : ∃ u, Step g t u := by
  -- edges ahead come first; if there are none, a range still waits
  cases hahead : t.ahead with
  | cons e rest => exact ⟨_, .examine hahead⟩
  | nil =>
    have hstack : t.now.stack ≠ [] := fun hempty => h ⟨hempty, hahead⟩
    obtain ⟨k, hk⟩ := List.exists_mem_of_ne_nil _ hstack
    exact ⟨_, .takeOff hahead hk⟩

/-- What was taken off the stack stays written down. -/
theorem Leads.taken_subset (h : Leads g t u) : t.taken ⊆ u.taken := by
  induction h with
  | refl => exact List.Subset.refl t.taken
  | tail _ hstep ih =>
    cases hstep with
    | takeOff => exact List.Subset.trans ih (List.subset_append_left _ _)
    | examine => exact ih

/-- The search when the edges ahead have been examined. -/
def settled (t : Trace) : Search := t.ahead.foldl Search.examine t.now

theorem settled_of_ended (h : t.Ended) : t.settled = t.now := by
  unfold settled
  rw [h.2]
  rfl

/-- Taking a range off and examining its edges expands it. -/
theorem Step.settled (h : Step g t u) : u.settled = t.settled ∨ t.settled.Expands g u.settled := by
  cases h with
  | @takeOff k hahead hk =>
    -- nothing was ahead, so only the edges of this range are now
    have hnow : t.settled = t.now := by
      unfold Trace.settled
      rw [hahead]
      rfl
    rw [hnow]
    exact Or.inr ⟨k, hk, rfl⟩
  | @examine e rest hahead =>
    -- the edge was ahead, and settling looked at it first
    refine Or.inl ?_
    unfold Trace.settled
    rw [hahead]
    rfl

/-- Edge by edge a search goes the way that it goes range by range. -/
theorem Leads.settled (h : Leads g t u) : Search.Leads g t.settled u.settled := by
  induction h with
  | refl => exact .refl
  | tail _ hstep ih =>
    rcases hstep.settled with hsame | hexpands
    · rwa [hsame]
    · exact ih.tail hexpands

/-- What a search from the seeds has visited at any moment can be reached from them. -/
theorem Leads.visited_subset (horder : order.Perm seeds.toList)
    (h : Leads g (start seeds order) t) :
    t.now.visited.toList ⊆ (g.closure seeds).toList := by
  intro k hk
  have hinv : Search.Inv g seeds t.settled := (Search.Inv.of_perm horder).leads h.settled
  -- what is visited now stays visited while the edges ahead are examined
  exact FlowGraph.mem_closure_iff.2
    (hinv.visited_reached k (mem_visited_foldl_examine.2 (.inl hk)))

/-- At its end it has visited all that can be reached. -/
theorem Leads.mem_visited_iff (horder : order.Perm seeds.toList) (h : Leads g (start seeds order) t)
    (hend : t.Ended) {k : RangeKey} : k ∈ t.now.visited ↔ k ∈ g.closure seeds := by
  have hinv : Search.Inv g seeds t.settled := (Search.Inv.of_perm horder).leads h.settled
  rw [settled_of_ended hend] at hinv
  exact (hinv.mem_visited_iff hend.1).trans FlowGraph.mem_closure_iff.symm

/-! ### The invariant -/

/-- What holds of a search at every moment, in terms of what it did. -/
structure Inv (g : FlowGraph) (t : Trace) : Prop where
  visited : t.put.Perm t.now.visited.toList
  waiting : t.put.Perm (t.taken ++ t.now.stack)
  work : t.examined ++ t.ahead = t.taken.flatMap g.edgesFrom

theorem Inv.start (g : FlowGraph) (h : order.Perm seeds.toList) : Inv g (start seeds order) :=
  ⟨h, List.Perm.refl order, rfl⟩

/-- **An action keeps the invariant**: a range moves from the stack to those taken off, or an edge
moves from those ahead to those examined, and its destination, if that is new, is put on. -/
theorem Inv.step (h : Inv g t) (hstep : Step g t u) : Inv g u := by
  cases hstep with
  | @takeOff k hahead hk =>
    refine ⟨h.visited, ?_, ?_⟩
    -- the range goes from the stack to those taken off
    · have hmoved : (t.taken ++ t.now.stack).Perm (t.taken ++ [k] ++ t.now.stack.erase k) := by
        rw [List.append_assoc]
        exact (List.perm_cons_erase hk).append_left t.taken
      exact h.waiting.trans hmoved
    -- it is taken off only when all edges of those before it were examined
    · have hdone : t.examined = t.taken.flatMap g.edgesFrom := by
        rw [← h.work, hahead, List.append_nil]
      show t.examined ++ g.edgesFrom k = (t.taken ++ [k]).flatMap g.edgesFrom
      rw [List.flatMap_append, List.flatMap_singleton, hdone]
  | @examine e rest hahead =>
    have hwork : t.examined ++ [e] ++ rest = t.taken.flatMap g.edgesFrom := by
      rw [← h.work, hahead, List.append_assoc, List.singleton_append]
    -- to a range that was visited before the edge is only written down
    by_cases hold : e.2 ∈ t.now.visited
    · rw [examine_of_mem hold]
      exact ⟨h.visited, h.waiting, hwork⟩
    · rw [examine_of_notMem hold]
      refine ⟨?_, ?_, hwork⟩
      · show (t.put ++ [e.2]).Perm (t.now.visited.insert e.2).toList
        rw [KeySet.toList_insert_of_notMem hold]
        exact h.visited.append_right [e.2]
      · show (t.put ++ [e.2]).Perm (t.taken ++ e.2 :: t.now.stack)
        exact (h.waiting.append_right [e.2]).trans (by
          rw [List.append_assoc]
          exact (List.perm_append_singleton e.2 t.now.stack).append_left t.taken)

theorem Inv.leads (h : Inv g t) (hlead : Leads g t u) : Inv g u := by
  induction hlead with
  | refl => exact h
  | tail _ hstep ih => exact ih.step hstep

namespace Inv

variable (h : Inv g t)
include h

/-! ### What the invariant says -/

/-- No range is put on the stack twice. -/
theorem nodup_put : t.put.Nodup := h.visited.nodup_iff.2 t.now.visited.nodup

/-- No range waits twice or is taken off twice, and none waits that was taken off. -/
theorem nodup_taken_append_stack : (t.taken ++ t.now.stack).Nodup :=
  h.waiting.nodup_iff.1 h.nodup_put

theorem mem_visited_of_mem_stack {k : RangeKey} (hk : k ∈ t.now.stack) : k ∈ t.now.visited := by
  have hput : k ∈ t.put := h.waiting.mem_iff.2 (List.mem_append_right _ hk)
  exact h.visited.mem_iff.1 hput

/-- **A range that was taken off** does not wait, now or later. -/
theorem notMem_stack_of_leads (hlead : Leads g t u) {k : RangeKey} (hk : k ∈ t.taken) :
    k ∉ u.now.stack := by
  have hnodup := (h.leads hlead).nodup_taken_append_stack
  exact List.disjoint_of_nodup_append hnodup (hlead.taken_subset hk)

/-- The ranges taken off are among those visited, and none of them is there twice. -/
theorem taken_subperm : t.taken.Subperm t.now.visited.toList := by
  have hprefix : t.taken.Sublist (t.taken ++ t.now.stack) := List.sublist_append_left _ _
  exact hprefix.subperm.trans (h.waiting.symm.trans h.visited).subperm

/-- No edge is examined twice. -/
theorem nodup_examined : t.examined.Nodup := by
  have hwork : (t.examined ++ t.ahead).Nodup := by
    rw [h.work]
    exact FlowGraph.nodup_flatMap_edgesFrom h.nodup_taken_append_stack.of_append_left
  exact hwork.of_append_left

/-- What is examined are edges. -/
theorem length_examined_le : t.examined.length ≤ g.edgeSet.ncard := by
  rw [length_eq_ncard h.nodup_examined]
  -- an edge of a range that was taken off is one of the graph
  refine Set.ncard_le_ncard (fun e he => ?_) (Set.toFinite _)
  have hmem : e ∈ t.taken.flatMap g.edgesFrom := by
    rw [← h.work]
    exact List.mem_append_left _ he
  exact (FlowGraph.mem_flatMap_edgesFrom.1 hmem).2

/-! ### The whole work -/

section Ended

variable (hend : t.Ended)
include hend

/-- At the end all ranges that were visited have been taken off. -/
theorem taken_perm_visited : t.taken.Perm t.now.visited.toList := by
  have hall : t.taken ++ t.now.stack = t.taken := by rw [hend.1, List.append_nil]
  have hwaiting := h.waiting
  rw [hall] at hwaiting
  exact hwaiting.symm.trans h.visited

/-- **Each edge that leaves from a visited range** was examined once, and no other edge was. -/
theorem count_examined (a b : RangeKey) :
    t.examined.count (a, b) = if a ∈ t.now.visited ∧ g.Edge a b then 1 else 0 := by
  have hall : t.examined = t.taken.flatMap g.edgesFrom := by
    rw [← h.work, hend.2, List.append_nil]
  have hmem : (a, b) ∈ t.examined ↔ a ∈ t.now.visited ∧ g.Edge a b := by
    rw [hall, FlowGraph.mem_flatMap_edgesFrom, (h.taken_perm_visited hend).mem_iff]
    exact Iff.rfl
  -- what stands in a list without repeats is counted once
  rw [h.nodup_examined.count]
  exact if_congr hmem rfl rfl

end Ended

end Inv

end Trace

/-! ### The search proper -/

/-- How many ranges a search that always goes on with the topmost one takes off the stack until
nothing waits. -/
def rounds (g : FlowGraph) (s : Search) : Nat :=
  match _h : s.step g with
  | none => 0
  | some t => rounds g t + 1
termination_by pending g s
decreasing_by exact (expands_of_step _h).pending_lt

theorem rounds_of_none {g : FlowGraph} {s : Search} (h : s.step g = none) : rounds g s = 0 := by
  rw [rounds]
  split
  · rfl
  · next hsome => exact nomatch h.symm.trans hsome

theorem rounds_of_some {g : FlowGraph} {s t : Search} (h : s.step g = some t) :
    rounds g s = rounds g t + 1 := by
  rw [rounds]
  split
  · next hnone => exact nomatch h.symm.trans hnone
  · next hsome =>
    obtain rfl := Option.some.inj (h.symm.trans hsome)
    rfl

namespace Trace

variable {g : FlowGraph} {t : Trace}

/-- The edges ahead are examined one after the other. -/
theorem exists_leads_examined (g : FlowGraph) (t : Trace) :
    ∃ u, Leads g t u ∧ u.now = t.settled ∧ u.ahead = [] ∧ u.taken = t.taken := by
  unfold settled
  generalize hahead : t.ahead = edges
  -- by the edges that are ahead; each of them leads to another trace
  induction edges generalizing t with
  | nil => exact ⟨t, .refl, rfl, hahead, rfl⟩
  | cons e rest ih =>
    obtain ⟨u, hlead, hnow, hnone, htaken⟩ := ih (t.examine e rest) rfl
    exact ⟨u, .head (.examine hahead) hlead, hnow, hnone, htaken⟩

/-- **One round** of the search proper: the topmost range is taken off, its edges are examined. -/
theorem exists_leads_step {s : Search} (hstep : t.now.step g = some s) (hahead : t.ahead = []) :
    ∃ u, Leads g t u ∧ u.now = s ∧ u.ahead = [] ∧ u.taken.length = t.taken.length + 1 := by
  obtain ⟨k, hk, rfl⟩ := step_eq_some_iff.1 hstep
  obtain ⟨u, hlead, hnow, hnone, htaken⟩ := exists_leads_examined g (t.takeOff g k)
  refine ⟨u, .head (.takeOff hahead (List.mem_of_mem_head? hk)) hlead, hnow, hnone, ?_⟩
  rw [htaken]
  exact List.length_append

/-- **The trace of the search proper**: it takes off a range in each of its rounds. -/
theorem exists_leads_run (s : Search) (hnow : t.now = s) (hahead : t.ahead = []) :
    ∃ u, Leads g t u ∧ u.now = s.run g ∧ u.ahead = [] ∧
      u.taken.length = t.taken.length + rounds g s := by
  -- by the rounds of the search, each of which ends as it starts: with no edge ahead
  fun_induction Search.run g s generalizing t with
  | case1 s hnone =>
    refine ⟨t, .refl, hnow, hahead, ?_⟩
    rw [rounds_of_none hnone, Nat.add_zero]
  | case2 s s' hsome ih =>
    obtain ⟨u, hround, hu, huahead, hlength⟩ := exists_leads_step (hnow ▸ hsome) hahead
    obtain ⟨v, hrest, hv, hvahead, htotal⟩ := ih hu huahead
    refine ⟨v, hround.trans hrest, hv, hvahead, ?_⟩
    rw [rounds_of_some hsome, htotal, hlength, Nat.add_assoc, Nat.add_comm 1]

end Trace

end Search

/-- **The work of a search is linear.** Take any graph and any seeds, and let the seeds wait in any
order and the waiting ranges be taken off the stack in any order. At every moment of the search

* all ranges on the stack are visited, and none is there twice;
* no range was put on the stack twice, and none that was taken off is on it again at any later
  moment;
* no more ranges were taken off than the closure has members, and no more edges examined than there
  are;
* if the search has ended, it has visited the closure, it took off as many ranges as that has
  members, and it examined each edge that leaves from a member once and no other edge; else it can
  go on.

The search proper is one of these, and goes round as often as the closure has members. -/
theorem FlowGraph.search_linear (g : FlowGraph) {seeds : KeySet} {order : List RangeKey}
    (horder : order.Perm seeds.toList) :
    (∀ t, Search.Trace.Leads g (.start seeds order) t →
      (∀ k ∈ t.now.stack, k ∈ t.now.visited) ∧ t.now.stack.Nodup ∧
      t.put.Nodup ∧ (∀ u, Search.Trace.Leads g t u → ∀ k ∈ t.taken, k ∉ u.now.stack) ∧
      t.taken.length ≤ (g.closure seeds).size ∧ t.examined.length ≤ g.edgeSet.ncard ∧
      (t.Ended → (∀ k, k ∈ t.now.visited ↔ k ∈ g.closure seeds) ∧
        t.taken.length = (g.closure seeds).size ∧
        ∀ a b, t.examined.count (a, b) = if a ∈ g.closure seeds ∧ g.Edge a b then 1 else 0) ∧
      (¬ t.Ended → ∃ u, Search.Trace.Step g t u)) ∧
    (∃ t, Search.Trace.Leads g (.start seeds order) t ∧ t.Ended ∧
      t.now = Search.run g ⟨seeds, order⟩ ∧ t.taken.length = Search.rounds g ⟨seeds, order⟩) ∧
    Search.rounds g ⟨seeds, order⟩ = (g.closure seeds).size := by
  have hstart : Search.Trace.Inv g (.start seeds order) := .start g horder
  -- at the end the ranges taken off are those visited, and these are the closure
  have hlength : ∀ t, Search.Trace.Leads g (.start seeds order) t → t.Ended →
      t.taken.length = (g.closure seeds).size := by
    intro t ht hend
    have hmembers : t.now.visited.toList.Perm (g.closure seeds).toList :=
      (List.perm_ext_iff_of_nodup t.now.visited.nodup (g.closure seeds).nodup).2 fun _ =>
        ht.mem_visited_iff horder hend
    exact (((hstart.leads ht).taken_perm_visited hend).trans hmembers).length_eq
  obtain ⟨t, ht, hnow, hahead, hrounds⟩ :=
    Search.Trace.exists_leads_run (g := g) (t := .start seeds order) ⟨seeds, order⟩ rfl rfl
  have hend : t.Ended := by
    refine ⟨?_, hahead⟩
    rw [hnow]
    exact (Search.Inv.of_perm horder).run.2
  have hrounds : t.taken.length = Search.rounds g ⟨seeds, order⟩ := hrounds.trans (Nat.zero_add _)
  refine ⟨?_, ⟨t, ht, hend, hnow, hrounds⟩, hrounds.symm.trans (hlength t ht hend)⟩
  -- the search proper is done with; from here on for any search at any moment
  intro u hu
  have hinv := hstart.leads hu
  -- all that is visited before the end is visited at the end too, so in the closure
  have htaken : u.taken.Subperm (g.closure seeds).toList :=
    hinv.taken_subperm.trans (List.subperm_of_subset u.now.visited.nodup (hu.visited_subset horder))
  refine ⟨fun k => hinv.mem_visited_of_mem_stack, hinv.nodup_taken_append_stack.of_append_right,
    hinv.nodup_put, fun v hv k => hinv.notMem_stack_of_leads hv, htaken.length_le,
    hinv.length_examined_le, ?_, Search.Trace.exists_step⟩
  intro hended
  have hmem : ∀ k, k ∈ u.now.visited ↔ k ∈ g.closure seeds := fun _ =>
    hu.mem_visited_iff horder hended
  refine ⟨hmem, hlength u hu hended, fun a b => ?_⟩
  rw [hinv.count_examined hended]
  simp only [hmem]

/-- From `VR9` and then `VR0` the search goes round for each of the five ranges that it visits. The
edge from `VR3` to itself is examined once, and the one from `VR5`, which is not visited, never. -/
theorem FlowGraph.search_linear_diamond :
    [RangeKey.mk 9, ⟨0⟩].Perm (KeySet.insertAll ∅ [⟨0⟩, ⟨9⟩]).toList ∧
      Search.rounds diamond ⟨KeySet.insertAll ∅ [⟨0⟩, ⟨9⟩], [⟨9⟩, ⟨0⟩]⟩ = 5 ∧
      ∃ t, Search.Trace.Leads diamond (.start (KeySet.insertAll ∅ [⟨0⟩, ⟨9⟩]) [⟨9⟩, ⟨0⟩]) t ∧
        t.Ended ∧ t.put.Nodup ∧ t.taken.length = 5 ∧
        t.examined.count (⟨3⟩, ⟨3⟩) = 1 ∧ t.examined.count (⟨5⟩, ⟨1⟩) = 0 := by
  have horder : [RangeKey.mk 9, ⟨0⟩].Perm (KeySet.insertAll ∅ [⟨0⟩, ⟨9⟩]).toList := by decide
  have hsize : (diamond.closure (KeySet.insertAll ∅ [⟨0⟩, ⟨9⟩])).size = 5 := by decide +kernel
  have hself : RangeKey.mk 3 ∈ diamond.closure (KeySet.insertAll ∅ [⟨0⟩, ⟨9⟩]) ∧
      diamond.Edge ⟨3⟩ ⟨3⟩ := by decide +kernel
  have hother : ¬ (RangeKey.mk 5 ∈ diamond.closure (KeySet.insertAll ∅ [⟨0⟩, ⟨9⟩]) ∧
      diamond.Edge ⟨5⟩ ⟨1⟩) := by decide +kernel
  obtain ⟨hevery, ⟨t, ht, hend, -, -⟩, hrounds⟩ := search_linear diamond horder
  obtain ⟨-, -, hput, -, -, -, hended, -⟩ := hevery t ht
  obtain ⟨-, htaken, hcount⟩ := hended hend
  refine ⟨horder, hrounds.trans hsize, t, ht, hend, hput, htaken.trans hsize, ?_, ?_⟩
  · rw [hcount, if_pos hself]
  · rw [hcount, if_neg hother]

end RefFlow
