import RefFlow.Proofs.Intake
import Mathlib.Data.Set.Card
/-!
# What a summary counts

The counts of a summary are gathered along the way: moves and edges by counters of the graph, seeds'
ranges and marked ranges as sizes of lists. All of them count sets that can be read off the live
ranges: moves in the list, pairs of ranges with a copy between them, ranges numbered like a seed,
ranges that a reference gets to. Counters are 32-bit words, and so are the counts.

Keys are finitely many, so every set of keys is finite, and sites of ranges correspond to keys
(`Liveness.WellFormed.ncard_keys`).

Main statements:

* `FlowGraph.counters_addMoves` — the counters count moves and edges;
* `KeySet.size_eq_ncard`, `KeySet.countP_kind_eq_ncard` — a list without repetition counts its members;
* `Liveness.WellFormed.summary_eq` — a summary in terms of the live ranges;
* `KeySet.size_lt`, `Survey.marked_summary` — the count of marked ranges of both kinds, for any store;
* `Liveness.WellFormed.marked_toNat` — the same in terms of the live ranges.
-/

namespace RefFlow

/-! ### Sets of keys -/

instance : Finite RangeKey := by
  -- a key is a word
  refine Finite.of_injective (fun k => (⟨k.bits.toNat, k.bits.toNat_lt⟩ : Fin (2 ^ 32))) ?_
  intro j k h
  have hbits : j.bits.toNat = k.bits.toNat := congrArg Fin.val h
  exact congrArg RangeKey.mk (UInt32.toNat_inj.1 hbits)

/-- A list without repetition has as many entries as it has members. -/
theorem length_eq_ncard {α : Type} [DecidableEq α] {xs : List α} (h : xs.Nodup) :
    xs.length = {x | x ∈ xs}.ncard := by
  rw [← List.toFinset_card_of_nodup h, ← Set.ncard_coe_finset, List.coe_toFinset]

namespace KeySet

theorem size_eq_ncard (s : KeySet) : s.size = {k | k ∈ s}.ncard := length_eq_ncard s.nodup

/-- The members of one kind are as many as are counted in the list. -/
theorem countP_kind_eq_ncard (s : KeySet) (kind : RegKind) :
    s.toList.countP (·.kind == kind) = {k | k ∈ s ∧ k.kind = kind}.ncard := by
  rw [List.countP_eq_length_filter, length_eq_ncard (s.nodup.filter _)]
  congr 1
  ext k
  simp [mem_iff]

/-- Keys of ranges leave words free, so a set of them is counted by a word. -/
theorem size_lt {s : KeySet} (h : ∀ k, k ∈ s → k.index ≤ RangeKey.lastIndex) :
    s.size < 2 ^ 32 := by
  have hnodup : (s.toList.map fun k => k.bits.toNat).Nodup :=
    s.nodup.map_on fun _ _ _ _ hbits => congrArg RangeKey.mk (UInt32.toNat_inj.1 hbits)
  -- the largest word is not among those of the set
  have hwords : (s.toList.map fun k => k.bits.toNat).toFinset ⊆ Finset.range 0xFFFFFFFF := by
    intro w hw
    obtain ⟨k, hk, rfl⟩ := List.mem_map.1 (List.mem_toFinset.1 hw)
    have hindex := h k hk
    rw [RangeKey.index_eq] at hindex
    unfold RangeKey.lastIndex at hindex
    have hlt := k.bits.toNat_lt
    rw [Finset.mem_range]
    omega
  have hcard := Finset.card_le_card hwords
  rw [List.toFinset_card_of_nodup hnodup, List.length_map, Finset.card_range] at hcard
  unfold size
  omega

end KeySet

/-- The counts of marked ranges of both kinds add up to the ranges that were reached. -/
theorem Survey.marked_summary (found : Survey) :
    found.summary.marked = UInt32.ofNat found.reached.size := by
  -- each key is of one kind or the other
  have hsplit : found.reached.size = found.reached.toList.countP (·.kind == .real) +
      found.reached.toList.countP (·.kind == .virtual) := by
    unfold KeySet.size
    rw [List.length_eq_countP_add_countP (·.kind == .real)]
    congr 2
    funext k
    cases k.kind <;> rfl
  rw [hsplit, UInt32.ofNat_add]
  rfl

/-! ### Counters of a graph -/

namespace FlowGraph

/-- The edges of a graph as pairs of keys. -/
def edgeSet (g : FlowGraph) : Set (RangeKey × RangeKey) := {p | g.Edge p.1 p.2}

/-- The edge counter has counted the edges. -/
def EdgesCounted (g : FlowGraph) : Prop := g.edges = UInt32.ofNat g.edgeSet.ncard

theorem edgesCounted_empty : empty.EdgesCounted := by
  have hnone : empty.edgeSet = ∅ := Set.eq_empty_of_forall_notMem fun _ => not_edge_empty
  unfold EdgesCounted
  rw [hnone, Set.ncard_empty]
  rfl

theorem edgeSet_insertEdge (g : FlowGraph) (src dst : RangeKey) :
    (g.insertEdge src dst).edgeSet = insert (src, dst) g.edgeSet := by
  ext ⟨a, b⟩
  simp only [edgeSet, Set.mem_ofPred_eq, Set.mem_insert_iff, Prod.mk.injEq, edge_insertEdge_iff]
  exact or_comm

/-- **One more edge** is counted if and only if it is new. -/
theorem EdgesCounted.insertEdge {g : FlowGraph} (h : g.EdgesCounted) (src dst : RangeKey) :
    (g.insertEdge src dst).EdgesCounted := by
  unfold EdgesCounted at h ⊢
  rw [edgeSet_insertEdge]
  unfold FlowGraph.insertEdge
  -- an edge that is there is not counted again, and the set does not grow
  split
  · next hold =>
    have hmem : (src, dst) ∈ g.edgeSet := hasEdge_iff.1 hold
    rw [Set.insert_eq_of_mem hmem]
    exact h
  · next hnew =>
    have hmem : (src, dst) ∉ g.edgeSet := fun hedge => hnew (hasEdge_iff.2 hedge)
    rw [Set.ncard_insert_of_notMem hmem (Set.toFinite _), UInt32.ofNat_add, ← h]
    rfl

section AddMoves

variable {σ : Type} [RangeStore σ] {store : σ} {c : RegClass}

/-- **Counters after moves.** Moves that were all taken leave every edge counted, and are counted
themselves: all of them, and apart from these the ones of the class. -/
theorem counters_addMoves {g : FlowGraph} {moves : List Move} (hg : g.EdgesCounted)
    (h : (g.addMoves store c moves).stop = none) :
    (g.addMoves store c moves).graph.EdgesCounted ∧
      (g.addMoves store c moves).graph.moves = g.moves + UInt32.ofNat moves.length ∧
      (g.addMoves store c moves).graph.refMoves =
        g.refMoves + UInt32.ofNat (moves.countP fun m => decide (m.OfClass c)) := by
  rw [graph_addMoves, examined_of_stop_eq_none h, moves_insertEdges, refMoves_insertEdges]
  refine ⟨?_, rfl, rfl⟩
  -- edge by edge, from a graph whose edges are counted
  refine insertEdges_induction ?_ (fun _ src dst hcounted => hcounted.insertEdge src dst) _
  exact hg

end AddMoves

end FlowGraph

/-! ### Counts of live ranges -/

/-- There are finitely many ranges. -/
theorem Liveness.finite_ranges (l : Liveness) : {x | (l.reg? x).isSome}.Finite := by
  have hsub : {x | (l.reg? x).isSome} ⊆
      (Finset.range (l.count .real)).image (Site.mk .real) ∪
        (Finset.range (l.count .virtual)).image (Site.mk .virtual) := by
    rintro ⟨kind, i⟩ hx
    have hlt := isSome_reg?_iff.1 hx
    cases kind <;> simpa using hlt
  exact ((Finset.finite_toSet _).union (Finset.finite_toSet _)).subset hsub

/-- A copy is made between ranges. -/
theorem Liveness.isSome_reg?_of_copies {l : Liveness} {c : RegClass} {moves : List Move} {a b : Site}
    (h : l.Copies c moves a b) : (l.reg? a).isSome ∧ (l.reg? b).isSome := by
  obtain ⟨m, -, -, hsrc, hdst⟩ := h
  exact ⟨isSome_reg?_of_numbered hsrc.numbered, isSome_reg?_of_numbered hdst.numbered⟩

/-- The pairs of ranges with a copy between them. -/
def Liveness.copySet (l : Liveness) (c : RegClass) (moves : List Move) : Set (Site × Site) :=
  {p | l.Copies c moves p.1 p.2}

namespace Liveness.WellFormed

variable {l : Liveness} {moves : List Move} {req : Request} (hw : l.WellFormed)
include hw

/-- Ranges are as many as their keys. -/
theorem ncard_keys {P : Site → Prop} (hP : ∀ x, P x → (l.reg? x).isSome) :
    {k : RangeKey | P k.site}.ncard = {x | P x}.ncard := by
  have hinj : Function.Injective RangeKey.site := fun _ _ h => RangeKey.site_inj.1 h
  -- every range has a key, and no two have the same
  have hsub : {x | P x} ⊆ Set.range RangeKey.site := by
    intro x hx
    obtain ⟨k, -, hk⟩ := hw.exists_key (isSome_reg?_iff.1 (hP x hx))
    exact ⟨k, hk⟩
  exact Set.ncard_preimage_of_injective_subset_range hinj hsub

/-- Pairs of ranges are as many as the pairs of their keys. -/
theorem ncard_keyPairs {P : Site → Site → Prop}
    (hP : ∀ x y, P x y → (l.reg? x).isSome ∧ (l.reg? y).isSome) :
    {p : RangeKey × RangeKey | P p.1.site p.2.site}.ncard = {p : Site × Site | P p.1 p.2}.ncard := by
  have hsite : Function.Injective RangeKey.site := fun _ _ h => RangeKey.site_inj.1 h
  have hsub : {p : Site × Site | P p.1 p.2} ⊆ Set.range (Prod.map RangeKey.site RangeKey.site) := by
    rintro ⟨x, y⟩ hxy
    obtain ⟨hx, hy⟩ := hP x y hxy
    obtain ⟨j, -, hj⟩ := hw.exists_key (isSome_reg?_iff.1 hx)
    obtain ⟨k, -, hk⟩ := hw.exists_key (isSome_reg?_iff.1 hy)
    exact ⟨(j, k), Prod.ext hj hk⟩
  exact Set.ncard_preimage_of_injective_subset_range (hsite.prodMap hsite) hsub

/-- **The counts of a run.** A summary counts moves, moves of the reference class, pairs of ranges with
a copy between them, ranges numbered like a seed, and the ranges of each kind that a reference gets
to. -/
theorem summary_eq {found : Survey} {log : List Entry}
    (h : survey (Indexed.mk l (.ofLiveness l)) moves req = (.ok found, log)) :
    found.summary =
      { moves := UInt32.ofNat moves.length
        refMoves := UInt32.ofNat (moves.countP fun m => decide (m.OfClass req.refClass))
        edges := UInt32.ofNat (l.copySet req.refClass moves).ncard
        seedRanges := UInt32.ofNat {x | l.Seeded req.seeds x}.ncard
        markedReal := UInt32.ofNat {x | l.Reached moves req x ∧ x.kind = .real}.ncard
        markedVirtual := UInt32.ofNat {x | l.Reached moves req x ∧ x.kind = .virtual}.ncard } := by
  obtain ⟨hmoves, -, hfound⟩ := survey_eq_ok h
  obtain ⟨hedges, hlength, hcount⟩ := FlowGraph.counters_addMoves FlowGraph.edgesCounted_empty hmoves
  have hgraph : (FlowGraph.empty.addMoves (Indexed.mk l (.ofLiveness l)) req.refClass moves).graph =
      found.graph := by
    rw [hfound]
  rw [hgraph] at hedges hlength hcount
  -- each set of keys is that of the ranges it stands for: of edges, of seeds, of what is reached
  have hcopies : found.graph.edgeSet.ncard = (l.copySet req.refClass moves).ncard := by
    unfold copySet
    rw [← hw.ncard_keyPairs fun _ _ => isSome_reg?_of_copies]
    congr 1
    ext p
    exact hw.edge_iff_copies h
  have hseeds : found.seeds.size = {x | l.Seeded req.seeds x}.ncard := by
    have hrange : ∀ x, l.Seeded req.seeds x → (l.reg? x).isSome := fun x hx =>
      isSome_reg?_of_reached (.seed hx : l.Reached moves req x)
    rw [KeySet.size_eq_ncard, ← hw.ncard_keys hrange]
    congr 1
    ext k
    exact hw.mem_seeds_iff_seeded h
  have hreached : ∀ kind, found.reached.toList.countP (·.kind == kind) =
      {x | l.Reached moves req x ∧ x.kind = kind}.ncard := by
    intro kind
    rw [KeySet.countP_kind_eq_ncard, ← hw.ncard_keys fun x hx => isSome_reg?_of_reached hx.1]
    congr 1
    ext k
    exact and_congr_left fun _ => hw.mem_reached_iff h
  calc found.summary
      = ⟨found.graph.moves, found.graph.refMoves, found.graph.edges, UInt32.ofNat found.seeds.size,
          UInt32.ofNat (found.reached.toList.countP (·.kind == .real)),
          UInt32.ofNat (found.reached.toList.countP (·.kind == .virtual))⟩ := rfl
    _ = _ := by
      rw [hlength, hcount, hedges, hcopies, hseeds, hreached, hreached]
      congr 1
      · exact UInt32.zero_add _
      · exact UInt32.zero_add _

/-! ### Both kinds together -/

/-- The ranges that a survey reaches are those that a reference gets to. -/
theorem ncard_reached {found : Survey} {log : List Entry}
    (h : survey (Indexed.mk l (.ofLiveness l)) moves req = (.ok found, log)) :
    {x | l.Reached moves req x}.ncard = found.reached.size := by
  rw [KeySet.size_eq_ncard, ← hw.ncard_keys fun x hx => isSome_reg?_of_reached hx]
  congr 1
  ext k
  exact (hw.mem_reached_iff h).symm

omit hw in
/-- A reference gets to ranges only. -/
theorem finite_reached : {x | l.Reached moves req x}.Finite :=
  (finite_ranges l).subset fun _ => isSome_reg?_of_reached

/-- **The count of marked ranges** does not wrap: ranges of both kinds together are fewer than there
are words. -/
theorem marked_toNat {sw : Switches} {s : Summary}
    (h : (l.analyse sw moves req).outcome = .finished s) :
    s.marked.toNat = {x | l.Reached moves req x}.ncard := by
  obtain ⟨found, log, hsurvey, rfl, -⟩ := analyse_eq_finished h
  -- what is reached is a range, so its index is one that keys can have
  have hindex : ∀ k, k ∈ found.reached → k.index ≤ RangeKey.lastIndex := by
    intro k hk
    have hlt := isSome_reg?_iff.1 (isSome_reg?_of_reached ((hw.mem_reached_iff hsurvey).1 hk))
    have hle := hw.count_le k.kind
    exact Nat.le_of_lt_succ (Nat.lt_of_lt_of_le hlt hle)
  rw [found.marked_summary, hw.ncard_reached hsurvey]
  exact UInt32.toNat_ofNat_of_lt' (KeySet.size_lt hindex)

end Liveness.WellFormed

end RefFlow
