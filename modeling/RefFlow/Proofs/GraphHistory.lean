import RefFlow.Proofs.Counts
/-!
# What a graph remembers of its history

A graph is filled by edges added one by one and by intakes of moves, in any order, over any stores,
and an intake may stop halfway. Each of these inserts edges and counts moves (`graph_addMoves`), so
what a graph remembers is a function of the list of all edges that were ever added, repetitions and
all, and of the moves that were examined.

`Records g added` says how `g` remembers `added`: the target set of a range holds its destinations in
the order in which they first came in, a range without destinations has no target set, and the sizes
of the target sets add up to the number of edges. Inserting one edge keeps this with that edge put
behind the others, and so does every history.

Main definitions and statements:

* `FlowGraph.Call` — one way to fill a graph, `FlowGraph.after` a graph with its history;
* `FlowGraph.Records` — the invariant, `Records.insertEdge` its step;
* `FlowGraph.records_after`, `FlowGraph.counters_after` — what holds after every history;
* `FlowGraph.queries_after` — what the queries answer then.
-/

namespace RefFlow

/-! ### Sets by insertion -/

/-- A last entry that came in before is dropped, any other one stays. -/
theorem eraseDups_concat {α : Type} [BEq α] [LawfulBEq α] (xs : List α) (x : α) :
    (xs ++ [x]).eraseDups = if x ∈ xs then xs.eraseDups else xs.eraseDups ++ [x] := by
  rw [List.eraseDups_append]
  split
  · next hx =>
    have hremoved : [x].removeAll xs = [] := by simp [List.removeAll, hx]
    rw [hremoved, List.eraseDups_nil, List.append_nil]
  · next hx =>
    have hkept : [x].removeAll xs = [x] := by simp [List.removeAll, hx]
    rw [hkept]
    rfl

namespace KeySet

theorem insertAll_concat (s : KeySet) (ks : List RangeKey) (k : RangeKey) :
    s.insertAll (ks ++ [k]) = (s.insertAll ks).insert k :=
  List.foldl_concat insert s k ks

/-- A set that keys were inserted into lists each of them once, where it came in first. -/
theorem toList_insertAll_empty (ks : List RangeKey) :
    (insertAll ∅ ks).toList = ks.eraseDups := by
  -- from the back, as the key inserted last is the one that is new
  induction ks using List.reverseRecOn with
  | nil => rfl
  | append_singleton ks k ih =>
    rw [insertAll_concat, eraseDups_concat, ← ih]
    -- the last key came in before, or it goes behind the others
    split
    · next hk =>
      have hmem : k ∈ insertAll ∅ ks := mem_insertAll.2 (.inr hk)
      rw [insert_of_mem hmem]
    · next hk =>
      have hmem : ¬ k ∈ insertAll ∅ ks := by simp [hk]
      exact toList_insert_of_notMem hmem

theorem size_insert_of_notMem {s : KeySet} {k : RangeKey} (h : ¬ k ∈ s) :
    (s.insert k).size = s.size + 1 := by
  unfold size
  rw [toList_insert_of_notMem h, List.length_append]
  rfl

end KeySet

/-! ### Rows of the graph -/

namespace Adjacency

/-- Linking keeps the sources and their order, with a new one behind the others. -/
theorem fst_link (src dst : RangeKey) (rows : Adjacency) :
    (rows.link src dst).map Prod.fst =
      if src ∈ rows.map Prod.fst then rows.map Prod.fst else rows.map Prod.fst ++ [src] := by
  induction rows with
  | nil => rfl
  | cons e rest ih =>
    obtain ⟨i, targets⟩ := e
    unfold link
    -- the row of the source is the first one, or it is further down
    by_cases hi : i = src
    · subst hi
      simp
    · rw [if_neg hi, List.map_cons, ih, List.map_cons]
      by_cases hmem : src ∈ rest.map Prod.fst
      · rw [if_pos hmem, if_pos (List.mem_cons_of_mem _ hmem)]
      · have hmem' : src ∉ i :: rest.map Prod.fst := by
          rw [List.mem_cons, not_or]
          exact ⟨Ne.symm hi, hmem⟩
        rw [if_neg hmem, if_neg hmem']
        rfl

theorem nodup_link {src dst : RangeKey} {rows : Adjacency} (h : (rows.map Prod.fst).Nodup) :
    ((rows.link src dst).map Prod.fst).Nodup := by
  rw [fst_link]
  split
  · exact h
  · next hnew =>
    rw [← List.concat_eq_append]
    exact h.concat hnew

/-- Linking a new target makes one target set larger by one. -/
theorem sum_size_link {src dst : RangeKey} {rows : Adjacency}
    (h : ¬ dst ∈ (rows.lookup src).getD ∅) :
    ((rows.link src dst).map (·.2.size)).sum = (rows.map (·.2.size)).sum + 1 := by
  induction rows with
  | nil => rfl
  | cons e rest ih =>
    obtain ⟨i, targets⟩ := e
    unfold link
    rw [lookup_cons] at h
    by_cases hi : i = src
    · subst hi
      rw [if_pos rfl] at h
      have hsize : (targets.insert dst).size = targets.size + 1 := KeySet.size_insert_of_notMem h
      -- the one row that grows; those behind it are left as they are
      rw [if_pos rfl, List.map_cons, List.sum_cons, hsize, List.map_cons, List.sum_cons]
      exact Nat.add_right_comm _ _ _
    · rw [if_neg (Ne.symm hi)] at h
      rw [if_neg hi, List.map_cons, List.sum_cons, ih h, List.map_cons, List.sum_cons]
      exact (Nat.add_assoc _ _ _).symm

/-- Among rows of different sources each is the one that is looked up. -/
theorem lookup_of_mem {rows : Adjacency} (h : (rows.map Prod.fst).Nodup)
    {e : RangeKey × KeySet} (he : e ∈ rows) : rows.lookup e.1 = some e.2 := by
  obtain ⟨before, after, rfl⟩ := List.append_of_mem he
  refine List.lookup_eq_some_iff.2 ⟨before, after, rfl, ?_⟩
  intro p hp
  -- no row before it has its source, so the lookup gets as far as it
  rw [List.map_append, List.nodup_append] at h
  have hne := h.2.2 p.1 (List.mem_map_of_mem hp) e.1 (by simp)
  exact bne_iff_ne.2 (Ne.symm hne)

end Adjacency

namespace FlowGraph

/-! ### Edges by source -/

/-- The destinations of a range among the edges of a list, in order, with repetitions. -/
def destinations (added : List (RangeKey × RangeKey)) (a : RangeKey) : List RangeKey :=
  (added.filter (·.1 == a)).map Prod.snd

theorem mem_destinations {added : List (RangeKey × RangeKey)} {a b : RangeKey} :
    b ∈ destinations added a ↔ (a, b) ∈ added := by
  simp [destinations]

theorem destinations_eq_nil {added : List (RangeKey × RangeKey)} {a : RangeKey} :
    destinations added a = [] ↔ ∀ b, (a, b) ∉ added := by
  rw [List.eq_nil_iff_forall_not_mem]
  exact forall_congr' fun b => not_congr mem_destinations

theorem destinations_concat (added : List (RangeKey × RangeKey)) (src dst a : RangeKey) :
    destinations (added ++ [(src, dst)]) a =
      if a = src then destinations added a ++ [dst] else destinations added a := by
  unfold destinations
  rw [List.filter_append, List.map_append]
  by_cases ha : a = src
  · subst ha
    simp
  · have hne : src ≠ a := Ne.symm ha
    simp [ha, hne]

/-! ### The invariant -/

/-- How a graph remembers the edges that were added to it, in order and with repetitions. -/
structure Records (g : FlowGraph) (added : List (RangeKey × RangeKey)) : Prop where
  nodup : (g.adjacency.map Prod.fst).Nodup
  targetSet? : ∀ a, g.targetSet? a =
    if destinations added a = [] then none else some (KeySet.insertAll ∅ (destinations added a))
  sizes : (g.adjacency.map (·.2.size)).sum = g.edgeSet.ncard
  counted : g.EdgesCounted

theorem records_empty : Records empty [] where
  nodup := List.nodup_nil
  targetSet? _ := rfl
  -- no edges and no rows to add up
  sizes := by
    have hnone : empty.edgeSet = ∅ := Set.eq_empty_of_forall_notMem fun _ => not_edge_empty
    rw [hnone, Set.ncard_empty]
    rfl
  counted := edgesCounted_empty

namespace Records

variable {g : FlowGraph} {added : List (RangeKey × RangeKey)}

/-- Counts of moves are no part of the record. -/
theorem recount (h : Records g added) (moves refMoves : UInt32) :
    Records (g.recount moves refMoves) added := ⟨h.nodup, h.targetSet?, h.sizes, h.counted⟩

/-- The target set of a range before it may be missing, which is as if it were empty. -/
theorem getD_targetSet? (h : Records g added) (a : RangeKey) :
    (g.targetSet? a).getD ∅ = KeySet.insertAll ∅ (destinations added a) := by
  rw [h.targetSet?]
  split
  · next hnone =>
    rw [hnone]
    rfl
  · rfl

/-- **One more edge** is remembered as added last. -/
theorem insertEdge (h : Records g added) (src dst : RangeKey) :
    Records (g.insertEdge src dst) (added ++ [(src, dst)]) where
  nodup := by
    unfold FlowGraph.insertEdge
    split
    · exact h.nodup
    · exact Adjacency.nodup_link h.nodup
  targetSet? a := by
    rw [targetSet?_insertEdge, h.getD_targetSet?, destinations_concat]
    -- only the target set of the source changes
    by_cases ha : a = src
    · subst ha
      rw [if_pos rfl, if_pos rfl, if_neg (List.append_ne_nil_of_right_ne_nil _ (by simp)),
        KeySet.insertAll_concat]
    · rw [if_neg ha, if_neg ha]
      exact h.targetSet? a
  sizes := by
    rw [edgeSet_insertEdge]
    -- an edge that is there leaves all rows alone, a new one makes one target set larger
    by_cases hold : g.hasEdge src dst = true
    · have hmem : (src, dst) ∈ g.edgeSet := hasEdge_iff.1 hold
      rw [Set.insert_eq_of_mem hmem, FlowGraph.insertEdge, if_pos hold]
      exact h.sizes
    · have hmem : (src, dst) ∉ g.edgeSet := fun hedge => hold (hasEdge_iff.2 hedge)
      have hnew : ¬ dst ∈ (g.adjacency.lookup src).getD ∅ := fun hdst =>
        hmem (edge_iff_mem_targetSet?.2 hdst)
      rw [Set.ncard_insert_of_notMem hmem (Set.toFinite _), FlowGraph.insertEdge, if_neg hold,
        ← h.sizes]
      exact Adjacency.sum_size_link hnew
  counted := h.counted.insertEdge src dst

/-- Edges are remembered in the order in which they were inserted. -/
theorem insertEdges (h : Records g added) (pairs : List (RangeKey × RangeKey)) :
    Records (g.insertEdges pairs) (added ++ pairs) := by
  -- the record grows with the graph, so both are generalized
  induction pairs generalizing g added with
  | nil =>
    rw [List.append_nil]
    exact h
  | cons p pairs ih =>
    rw [List.append_cons]
    exact ih (h.insertEdge p.1 p.2)

/-! ### What the queries answer -/

theorem targets_eq (h : Records g added) (a : RangeKey) :
    g.targets a = (destinations added a).eraseDups := by
  unfold FlowGraph.targets
  rw [h.targetSet?, ← KeySet.toList_insertAll_empty]
  split
  · next hnone =>
    rw [hnone]
    rfl
  · rfl

theorem edge_iff (h : Records g added) {a b : RangeKey} : g.Edge a b ↔ (a, b) ∈ added := by
  rw [edge_iff_mem_targetSet?, h.getD_targetSet?, KeySet.mem_insertAll, mem_destinations]
  simp

theorem targetSet?_eq_none_iff (h : Records g added) {a : RangeKey} :
    g.targetSet? a = none ↔ ∀ b, (a, b) ∉ added := by
  rw [h.targetSet?, ← destinations_eq_nil]
  simp

theorem hasEdge_eq (h : Records g added) (a b : RangeKey) :
    g.hasEdge a b = decide ((a, b) ∈ added) := by
  rw [Bool.eq_iff_iff, hasEdge_iff, decide_eq_true_iff]
  exact h.edge_iff

/-- No target set is empty. -/
theorem targets_ne_nil (h : Records g added) {e : RangeKey × KeySet} (he : e ∈ g.adjacency) :
    e.2.toList ≠ [] := by
  have hset : g.targetSet? e.1 = some e.2 := Adjacency.lookup_of_mem h.nodup he
  rw [h.targetSet?] at hset
  split at hset
  · cases hset
  · next hsome =>
    -- a row is only there for a destination that was added
    obtain ⟨b, hb⟩ := List.exists_mem_of_ne_nil _ hsome
    have hmem : b ∈ KeySet.insertAll ∅ (destinations added e.1) := KeySet.mem_insertAll.2 (.inr hb)
    rw [Option.some.inj hset] at hmem
    exact List.ne_nil_of_mem hmem

theorem edgeSet_eq (h : Records g added) : g.edgeSet = {p | p ∈ added} := by
  ext p
  exact h.edge_iff

theorem mem_sources_iff (h : Records g added) {a : RangeKey} :
    a ∈ g.adjacency.map Prod.fst ↔ ∃ b, (a, b) ∈ added := by
  have hset : (∃ set, g.targetSet? a = some set) ↔ ∃ b, (a, b) ∈ added := by
    rw [← Option.ne_none_iff_exists', ne_eq, h.targetSet?_eq_none_iff, not_forall_not]
  -- sources are different, so a row that is there is the one that is found
  rw [← hset, List.mem_map]
  constructor
  · rintro ⟨e, he, rfl⟩
    exact ⟨e.2, Adjacency.lookup_of_mem h.nodup he⟩
  · rintro ⟨set, hlookup⟩
    obtain ⟨before, after, hsplit, -⟩ := List.lookup_eq_some_iff.1 hlookup
    exact ⟨(a, set), hsplit ▸ List.mem_append_right _ List.mem_cons_self, rfl⟩

theorem sourceCount_eq (h : Records g added) : g.sourceCount = {a | ∃ b, (a, b) ∈ added}.ncard := by
  have hsources : {a | ∃ b, (a, b) ∈ added} = {a | a ∈ g.adjacency.map Prod.fst} := by
    ext a
    exact h.mem_sources_iff.symm
  rw [hsources, ← length_eq_ncard h.nodup, List.length_map]
  rfl

/-- A source has at least one edge. -/
theorem sourceCount_le (h : Records g added) : g.sourceCount ≤ {p | p ∈ added}.ncard := by
  have himage : {a | ∃ b, (a, b) ∈ added} = Prod.fst '' {p | p ∈ added} := by
    ext a
    simp
  rw [h.sourceCount_eq, himage]
  exact Set.ncard_image_le (List.finite_toSet added)

/-- Unless it has wrapped, the counter is the number of edges. -/
theorem edges_toNat (h : Records g added) (hlt : {p | p ∈ added}.ncard < 2 ^ 32) :
    g.edges.toNat = {p | p ∈ added}.ncard := by
  have hcount : g.edges = UInt32.ofNat g.edgeSet.ncard := h.counted
  rw [hcount, h.edgeSet_eq]
  exact UInt32.toNat_ofNat_of_lt' hlt

end Records

/-! ### Histories -/

/-- One way to fill a graph: with one edge, or with moves between the ranges of some store. -/
inductive Call : Type 1
  | edge (src dst : RangeKey)
  | moves {σ : Type} [RangeStore σ] (store : σ) (c : RegClass) (moves : List Move)

namespace Call

/-- The graph after a call, whether it came to its end or not. -/
def apply : Call → FlowGraph → FlowGraph
  | edge src dst, g => (g.addEdge src dst).2
  | @moves _ _ store c ms, g => (g.addMoves store c ms).graph

/-- The edges that a call adds, new or not. -/
def added : Call → List (RangeKey × RangeKey)
  | edge src dst => [(src, dst)]
  | @moves _ _ store c ms => broughtEdges store c ms

/-- The moves that a call examines. -/
def examined : Call → List Move
  | edge _ _ => []
  | @moves _ _ store c ms => FlowGraph.examined store c ms

/-- Those of them that are of the reference class. -/
def refExamined : Call → List Move
  | edge _ _ => []
  | @moves _ _ store c ms => (FlowGraph.examined store c ms).filter fun m => decide (m.OfClass c)

theorem refExamined_sublist (call : Call) : call.refExamined.Sublist call.examined := by
  cases call with
  | edge src dst => exact List.Sublist.refl []
  | moves store c ms => exact List.filter_sublist

end Call

/-- An empty graph filled by calls. -/
def after (calls : List Call) : FlowGraph := calls.foldl (fun g call => call.apply g) empty

variable {g : FlowGraph}

/-- What one call does to the record. -/
theorem Records.apply {added : List (RangeKey × RangeKey)} (h : Records g added) (call : Call) :
    Records (call.apply g) (added ++ call.added) := by
  cases call with
  | edge src dst => exact h.insertEdge src dst
  | moves store c ms =>
    -- an intake counts moves and inserts edges, and counts are not recorded
    change Records (g.addMoves store c ms).graph _
    rw [graph_addMoves]
    exact (h.recount _ _).insertEdges _

/-- What one call does to the counts of moves. -/
theorem counters_apply (g : FlowGraph) (call : Call) :
    (call.apply g).moves = g.moves + UInt32.ofNat call.examined.length ∧
      (call.apply g).refMoves = g.refMoves + UInt32.ofNat call.refExamined.length := by
  cases call with
  | edge src dst =>
    exact ⟨(moves_insertEdge g src dst).trans (UInt32.add_zero _).symm,
      (refMoves_insertEdge g src dst).trans (UInt32.add_zero _).symm⟩
  | moves store c ms =>
    change (g.addMoves store c ms).graph.moves = _ ∧ (g.addMoves store c ms).graph.refMoves = _
    rw [graph_addMoves, moves_insertEdges, refMoves_insertEdges, List.countP_eq_length_filter]
    exact ⟨rfl, rfl⟩

/-- **Edges of a history.** A graph remembers the edges of all calls, one call after the other. -/
theorem records_after (calls : List Call) : Records (after calls) (calls.flatMap Call.added) := by
  unfold after
  -- from the back: the last call comes on top of the history before it
  induction calls using List.reverseRecOn with
  | nil => exact records_empty
  | append_singleton calls call ih =>
    rw [List.foldl_concat, List.flatMap_append, List.flatMap_singleton]
    exact ih.apply call

/-- **Moves of a history** are counted in all calls together. -/
theorem counters_after (calls : List Call) :
    (after calls).moves = UInt32.ofNat (calls.flatMap Call.examined).length ∧
      (after calls).refMoves = UInt32.ofNat (calls.flatMap Call.refExamined).length := by
  unfold after
  induction calls using List.reverseRecOn with
  | nil => exact ⟨rfl, rfl⟩
  | append_singleton calls call ih =>
    obtain ⟨hmoves, hrefMoves⟩ := counters_apply (calls.foldl (fun g call => call.apply g) empty) call
    rw [List.foldl_concat, hmoves, hrefMoves, ih.1, ih.2]
    simp only [List.flatMap_append, List.flatMap_singleton, List.length_append, UInt32.ofNat_add,
      and_self]

/-- The moves of the reference class are among the moves. -/
theorem length_refExamined_le (calls : List Call) :
    (calls.flatMap Call.refExamined).length ≤ (calls.flatMap Call.examined).length := by
  induction calls with
  | nil => exact Nat.le_refl 0
  | cons call rest ih =>
    rw [List.flatMap_cons, List.length_append, List.flatMap_cons, List.length_append]
    exact Nat.add_le_add call.refExamined_sublist.length_le ih

/-- **The graph and its history.** After any calls, as long as the moves examined and the different
edges fit the 32-bit counts:

* the targets of a range are the destinations ever added for it, each once, in the order in which they
  first came in;
* a range has a target set if and only if an edge from it was ever added, and none is empty;
* adding an edge tells whether it was never added before, and if it was, changes nothing;
* the edge count is the sum of the sizes of the target sets, and the number of different edges;
* the source count is the number of ranges that an edge starts at, so no more than that of edges;
* the move counts are the numbers of moves examined, of all classes and of the reference class, so the
  latter is no larger. -/
theorem queries_after (calls : List Call)
    (hmoves : (calls.flatMap Call.examined).length < 2 ^ 32)
    (hedges : {p | p ∈ calls.flatMap Call.added}.ncard < 2 ^ 32) :
    (∀ a, (after calls).targets a = (destinations (calls.flatMap Call.added) a).eraseDups) ∧
    (∀ a, (after calls).targetSet? a = none ↔ ∀ b, (a, b) ∉ calls.flatMap Call.added) ∧
    (∀ e ∈ (after calls).adjacency, e.2.toList ≠ []) ∧
    (∀ a b, (((after calls).addEdge a b).1 = true ↔ (a, b) ∉ calls.flatMap Call.added) ∧
      (((after calls).addEdge a b).1 = false → ((after calls).addEdge a b).2 = after calls)) ∧
    (after calls).edges.toNat = ((after calls).adjacency.map (·.2.size)).sum ∧
    (after calls).edges.toNat = {p | p ∈ calls.flatMap Call.added}.ncard ∧
    (after calls).sourceCount = {a | ∃ b, (a, b) ∈ calls.flatMap Call.added}.ncard ∧
    (after calls).sourceCount ≤ (after calls).edges.toNat ∧
    (after calls).moves.toNat = (calls.flatMap Call.examined).length ∧
    (after calls).refMoves.toNat = (calls.flatMap Call.refExamined).length ∧
    (after calls).refMoves.toNat ≤ (after calls).moves.toNat := by
  -- the record gives sets and edges, the counters are read off the history
  have hrec : Records (after calls) (calls.flatMap Call.added) := records_after calls
  obtain ⟨hcount, hrefCount⟩ := counters_after calls
  have hle := length_refExamined_le calls
  have hmovesNat : (after calls).moves.toNat = (calls.flatMap Call.examined).length := by
    rw [hcount]
    exact UInt32.toNat_ofNat_of_lt' hmoves
  have hrefNat : (after calls).refMoves.toNat = (calls.flatMap Call.refExamined).length := by
    rw [hrefCount]
    exact UInt32.toNat_ofNat_of_lt' (lt_of_le_of_lt hle hmoves)
  have hedgesNat := hrec.edges_toNat hedges
  have hsources : (after calls).sourceCount ≤ (after calls).edges.toNat := by
    rw [hedgesNat]
    exact hrec.sourceCount_le
  have hrefMoves : (after calls).refMoves.toNat ≤ (after calls).moves.toNat := by
    rw [hrefNat, hmovesNat]
    exact hle
  refine ⟨hrec.targets_eq, fun _ => hrec.targetSet?_eq_none_iff, fun _ => hrec.targets_ne_nil, ?_, ?_,
    hedgesNat, hrec.sourceCount_eq, hsources, hmovesNat, hrefNat, hrefMoves⟩
  · intro a b
    unfold addEdge
    refine ⟨?_, ?_⟩
    · rw [hrec.hasEdge_eq]
      simp
    -- an edge that is there is not inserted
    · intro hold
      exact if_pos (by simpa using hold)
  · rw [hedgesNat, hrec.sizes, hrec.edgeSet_eq]

/-- Edges one by one, one of them twice and one from a range to itself; copies between the ranges of
`Liveness.looping`, taken to their end and then others that are not; and copies between the rows of a
table, of which the second has operands of different classes. -/
def mixedCalls : List Call := [
  .edge ⟨1⟩ ⟨5⟩, .edge ⟨7⟩ ⟨7⟩, .edge ⟨1⟩ ⟨5⟩,
  .moves (Indexed.mk Liveness.looping (.ofLiveness Liveness.looping)) .i64 Liveness.loopingMoves,
  .moves (Indexed.mk Liveness.looping (.ofLiveness Liveness.looping)) .i64 Liveness.hastyMoves,
  .moves (RowTable.mk [⟨⟨.virtual, .i64, 0⟩, ⟨.defOf 0, .useOf 9⟩, ⟨1⟩⟩] []) .i64
    [⟨⟨.virtual, .i64, 0⟩, ⟨.virtual, .i64, 0⟩, 3, 1⟩,
      ⟨⟨.virtual, .f64, 0⟩, ⟨.virtual, .i64, 0⟩, 3, 1⟩]]

theorem queries_after_mixedCalls :
    (mixedCalls.flatMap Call.examined).length = 9 ∧
      {p | p ∈ mixedCalls.flatMap Call.added}.ncard = 7 ∧
      (after mixedCalls).targets ⟨1⟩ = [⟨5⟩, ⟨2⟩, ⟨1⟩] ∧
      ((after mixedCalls).addEdge ⟨7⟩ ⟨7⟩).1 = false ∧
      ((after mixedCalls).addEdge ⟨7⟩ ⟨8⟩).1 = true ∧
      (after mixedCalls).edges.toNat = 7 ∧
      (after mixedCalls).refMoves.toNat ≤ (after mixedCalls).moves.toNat := by
  have hexamined : (mixedCalls.flatMap Call.examined).length = 9 := by decide +kernel
  have hadded : {p | p ∈ mixedCalls.flatMap Call.added}.ncard = 7 := by
    rw [← List.coe_toFinset, Set.ncard_coe_finset]
    decide +kernel
  obtain ⟨htargets, -, -, hadd, -, hedges, -, -, -, -, hle⟩ :=
    queries_after mixedCalls (by rw [hexamined]; decide) (by rw [hadded]; decide)
  refine ⟨hexamined, hadded, (htargets ⟨1⟩).trans (by decide +kernel), ?_,
    (hadd ⟨7⟩ ⟨8⟩).1.2 (by decide +kernel), hedges.trans hadded, hle⟩
  rw [← Bool.not_eq_true, (hadd ⟨7⟩ ⟨7⟩).1]
  decide +kernel

end FlowGraph

end RefFlow
