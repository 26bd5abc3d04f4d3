import RefFlow.Proofs.SuccessiveIntakes
/-!
# Closing in stages

A set may be closed before the graph is complete and before all seeds are known. Filling a graph
only ever adds edges, whether an intake comes to its end or not, so what was reached stays reachable
(`Extends.closure_mono`); and what can be reached from ranges that were reached is reached from
where these were (`mem_closure_closure_iff`). Hence the ranges found in an early stage serve a later
one as seeds, and closing them together with further seeds over the grown graph is closing all seeds
over it.

The later search has most of its result visited from the start. It expands these ranges all the
same, for they are its seeds; so it does not matter whether the new edges leave from ranges that the
first stage reached, or lead back to them.

Main definitions and statements:

* `FlowGraph.grow`, `FlowGraph.edge_grow_iff` — a graph after further calls, and its edges;
* `FlowGraph.Extends` — a graph has all edges of another one;
* `KeySet.ascending_congr` — sets with the same members are listed alike;
* `FlowGraph.closure_in_stages` — closing in two stages and closing once.
-/

namespace RefFlow

/-! ### Sets -/

namespace KeySet

/-- The members of both sets, those of the second one behind the others. -/
instance : Union KeySet := ⟨fun s t => s.insertAll t.toList⟩

variable {s t : KeySet} {k : RangeKey}

@[simp] theorem mem_union : k ∈ s ∪ t ↔ k ∈ s ∨ k ∈ t := mem_insertAll

/-- The ascending listing does not show in which order the members came in. -/
theorem ascending_congr (h : ∀ k, k ∈ s ↔ k ∈ t) : s.ascending = t.ascending := by
  have hsorted : ∀ u : KeySet, u.ascending.Pairwise fun a b => decide (a.bits ≤ b.bits) = true := by
    intro u
    refine List.pairwise_mergeSort ?_ ?_ u.toList
    · intro a b c hab hbc
      exact decide_eq_true (UInt32.le_trans (of_decide_eq_true hab) (of_decide_eq_true hbc))
    · intro a b
      simpa using UInt32.le_total a.bits b.bits
  -- two sorted listings of the same members are one
  have hmembers : s.toList.Perm t.toList := (List.perm_ext_iff_of_nodup s.nodup t.nodup).2 h
  have hperm : s.ascending.Perm t.ascending :=
    (List.mergeSort_perm _ _).trans (hmembers.trans (List.mergeSort_perm _ _).symm)
  refine hperm.eq_of_pairwise ?_ (hsorted s) (hsorted t)
  -- no two keys have the same word
  intro a b _ _ hab hba
  exact congrArg RangeKey.mk (UInt32.le_antisymm (of_decide_eq_true hab) (of_decide_eq_true hba))

end KeySet

namespace FlowGraph

variable {g h : FlowGraph} {s t : KeySet} {a b c k : RangeKey}

/-! ### Graphs that grow -/

/-- A graph after further calls, each of which fills it from where the one before it left it. -/
def grow (g : FlowGraph) (calls : List Call) : FlowGraph :=
  calls.foldl (fun g call => call.apply g) g

/-- A call adds its edges, whether it came to its end or not. -/
theorem edge_apply_iff (call : Call) :
    (call.apply g).Edge a b ↔ g.Edge a b ∨ (a, b) ∈ call.added := by
  cases call with
  | edge src dst =>
    have hadded : (a, b) ∈ (Call.edge src dst).added ↔ a = src ∧ b = dst := by simp [Call.added]
    rw [hadded]
    exact edge_insertEdge_iff
  | moves store cls ms =>
    change (g.addMoves store cls ms).graph.Edge a b ↔ _
    rw [graph_addMoves]
    exact edge_insertEdges_iff

theorem edge_grow_iff (calls : List Call) :
    (g.grow calls).Edge a b ↔ g.Edge a b ∨ (a, b) ∈ calls.flatMap Call.added := by
  -- call by call, from the graph that the one before has left
  induction calls generalizing g with
  | nil => simp [grow]
  | cons call rest ih =>
    rw [List.flatMap_cons, List.mem_append, ← or_assoc, ← edge_apply_iff]
    exact ih

/-- All edges of `g` are edges of `h`. -/
def Extends (h g : FlowGraph) : Prop := ∀ a b, g.Edge a b → h.Edge a b

theorem extends_grow (g : FlowGraph) (calls : List Call) : (g.grow calls).Extends g :=
  fun _ _ hedge => (edge_grow_iff calls).2 (.inl hedge)

/-! ### Closures -/

theorem Reaches.trans (hab : g.Reaches a b) (hbc : g.Reaches b c) : g.Reaches a c := by
  induction hbc with
  | refl => exact hab
  | tail _ hedge ih => exact ih.tail hedge

theorem Extends.reaches (hext : h.Extends g) (hab : g.Reaches a b) : h.Reaches a b := by
  induction hab with
  | refl => exact .refl
  | tail _ hedge ih => exact ih.tail (hext _ _ hedge)

/-- Seeds are reached. -/
theorem mem_closure_of_mem (hk : k ∈ s) : k ∈ g.closure s := mem_closure_iff.2 ⟨k, hk, .refl⟩

/-- **More edges and seeds reach more.** -/
theorem Extends.closure_mono (hext : h.Extends g) (hst : ∀ k, k ∈ s → k ∈ t)
    (hk : k ∈ g.closure s) : k ∈ h.closure t := by
  obtain ⟨a, ha, hak⟩ := mem_closure_iff.1 hk
  exact mem_closure_iff.2 ⟨a, hst a ha, hext.reaches hak⟩

/-- **What was reached** reaches nothing new. -/
theorem mem_closure_closure_iff : k ∈ g.closure (g.closure s) ↔ k ∈ g.closure s := by
  refine ⟨?_, mem_closure_of_mem⟩
  intro hk
  -- the way to what was reached, and on from there, is one way
  obtain ⟨b, hb, hbk⟩ := mem_closure_iff.1 hk
  obtain ⟨a, ha, hab⟩ := mem_closure_iff.1 hb
  exact mem_closure_iff.2 ⟨a, ha, hab.trans hbk⟩

/-- **A later stage** may start from what an earlier one reached in a part of the graph. -/
theorem Extends.mem_closure_union_iff (hext : h.Extends g) :
    k ∈ h.closure (g.closure s ∪ t) ↔ k ∈ h.closure (s ∪ t) := by
  have hrefl : h.Extends h := fun _ _ hedge => hedge
  constructor
  · intro hk
    -- all that the later stage starts from is reached from the seeds of both
    have hstart : ∀ j, j ∈ g.closure s ∪ t → j ∈ h.closure (s ∪ t) := by
      intro j hj
      rcases KeySet.mem_union.1 hj with hj | hj
      · exact hext.closure_mono (fun _ hi => KeySet.mem_union.2 (.inl hi)) hj
      · exact mem_closure_of_mem (KeySet.mem_union.2 (.inr hj))
    exact mem_closure_closure_iff.1 (hrefl.closure_mono hstart hk)
  · refine hrefl.closure_mono fun j hj => ?_
    exact KeySet.mem_union.2 ((KeySet.mem_union.1 hj).imp_left mem_closure_of_mem)

/-- **Closing in stages is closing once.** Take any graph and any seeds, and let any calls fill the
graph further: edges one by one, and intakes of moves over any stores, taken to their end or not.
Over the graph that results, the closure of what the first seeds reached before, together with any
further seeds, has the same members as the closure of all seeds, and is listed alike. These are the
ranges that a path in that graph leads to from a seed of either kind. -/
theorem closure_in_stages (g : FlowGraph) (calls : List Call) (s t : KeySet) :
    (∀ k, k ∈ (g.grow calls).closure (g.closure s ∪ t) ↔ k ∈ (g.grow calls).closure (s ∪ t)) ∧
    ((g.grow calls).closure (g.closure s ∪ t)).ascending =
      ((g.grow calls).closure (s ∪ t)).ascending ∧
    ∀ k, k ∈ (g.grow calls).closure (g.closure s ∪ t) ↔
      ∃ a, (a ∈ s ∨ a ∈ t) ∧ (g.grow calls).Reaches a k := by
  have hstages : ∀ k, k ∈ (g.grow calls).closure (g.closure s ∪ t) ↔
      k ∈ (g.grow calls).closure (s ∪ t) := fun _ => (extends_grow g calls).mem_closure_union_iff
  refine ⟨hstages, KeySet.ascending_congr hstages, ?_⟩
  intro k
  rw [hstages, mem_closure_iff]
  simp only [KeySet.mem_union]

end FlowGraph

end RefFlow
