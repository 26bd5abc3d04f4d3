import RefFlow.FlowGraph.Basic
/-!
# Searching the graph

A depth-first search with an explicit stack collects all that can be reached from a set of ranges.
A range counts as visited as soon as it is put on the stack, so it is put there at most once. Whatever
a search does is one of two actions: it takes a range off the stack, or it examines an edge.

Main definitions and statements:

* `Search.takeOff`, `Search.examine` — the two actions;
* `Search.expand` takes a range off the stack and examines the edges that leave from it;
* `Search.step` expands the topmost range, `Search.Expands` any range on the stack;
* `Search.Expands.pending_lt` — the ranges on the stack and the occurrences of unvisited targets in
  the graph become fewer in every step, so the search ends, in whatever order it goes on;
* `FlowGraph.closure` is the set that the search has visited when its stack is empty.
-/

namespace RefFlow

/-- The edges that leave from a range, in the order in which they came in. -/
def FlowGraph.edgesFrom (g : FlowGraph) (a : RangeKey) : List (RangeKey × RangeKey) :=
  (g.targets a).map fun b => (a, b)

/-- The state of a search: what was visited, and what of it still has to be expanded, the next one
first. -/
structure Search where
  visited : KeySet
  stack : List RangeKey
  deriving DecidableEq, Repr

namespace Search

/-- The start of a search: the given ranges are visited and wait to be expanded. -/
def start (seeds : KeySet) : Search := ⟨seeds, seeds.toList⟩

/-- Takes a range off the stack. -/
def takeOff (s : Search) (k : RangeKey) : Search := { s with stack := s.stack.erase k }

/-- Examines an edge: its destination is visited and put on the stack, unless it was visited before. -/
def examine (s : Search) (e : RangeKey × RangeKey) : Search :=
  if e.2 ∈ s.visited then s else ⟨s.visited.insert e.2, e.2 :: s.stack⟩

/-- Takes a range off the stack and examines the edges that leave from it, one after the other. -/
def expand (g : FlowGraph) (s : Search) (k : RangeKey) : Search :=
  (g.edgesFrom k).foldl examine (s.takeOff k)

/-- Expands the next range on the stack; `none` if there is no next range. -/
def step (g : FlowGraph) (s : Search) : Option Search := s.stack.head?.map (s.expand g)

/-- One range on the stack is expanded, whichever it is. -/
def Expands (g : FlowGraph) (s t : Search) : Prop := ∃ k ∈ s.stack, t = s.expand g k

/-- A step expands the next range. -/
theorem step_eq_some_iff {g : FlowGraph} {s t : Search} :
    s.step g = some t ↔ ∃ k, s.stack.head? = some k ∧ t = s.expand g k := by
  unfold step
  rw [Option.map_eq_some_iff]
  exact exists_congr fun k => and_congr_right fun _ => eq_comm

theorem step_eq_none_iff {g : FlowGraph} {s : Search} : s.step g = none ↔ s.stack = [] := by
  unfold step
  rw [Option.map_eq_none_iff, List.head?_eq_none_iff]

theorem expands_of_step {g : FlowGraph} {s t : Search} (h : s.step g = some t) :
    s.Expands g t := by
  obtain ⟨k, hk, rfl⟩ := step_eq_some_iff.1 h
  exact ⟨k, List.mem_of_mem_head? hk, rfl⟩

/-! ### The search ends -/

/-- All targets in the graph, those of several ranges several times. -/
def allTargets (g : FlowGraph) : List RangeKey := g.adjacency.flatMap (·.2.toList)

/-- A bound for the steps still to come: the waiting ranges and the targets not yet visited. -/
def pending (g : FlowGraph) (s : Search) : Nat :=
  (allTargets g).countP (fun k => decide (¬ k ∈ s.visited)) + s.stack.length

theorem targets_subset (g : FlowGraph) (k : RangeKey) : g.targets k ⊆ allTargets g := by
  intro j hj
  unfold FlowGraph.targets FlowGraph.targetSet? at hj
  unfold allTargets
  -- over the rows, the first of which may or may not be that of `k`
  generalize g.adjacency = rows at hj ⊢
  induction rows with
  | nil => simp at hj
  | cons e rest ih =>
    rw [List.flatMap_cons, List.mem_append]
    rw [List.lookup_cons] at hj
    split at hj
    · exact Or.inl (by simpa using hj)
    · exact Or.inr (ih hj)

/-- Examining an edge trades an unvisited target for a waiting range, or changes nothing. -/
theorem pending_examine {g : FlowGraph} {s : Search} {e : RangeKey × RangeKey}
    (h : e.2 ∈ allTargets g) : pending g (s.examine e) ≤ pending g s := by
  unfold examine
  split
  · exact Nat.le_refl _
  · next hk =>
    have hlt : (allTargets g).countP (fun j => decide (¬ j ∈ s.visited.insert e.2))
        < (allTargets g).countP (fun j => decide (¬ j ∈ s.visited)) := by
      -- over the targets: none is counted that was not counted before, and `e.2` no longer is
      generalize allTargets g = ts at h
      induction ts with
      | nil => simp at h
      | cons t ts ih =>
        have hmono : ts.countP (fun j => decide (¬ j ∈ s.visited.insert e.2))
            ≤ ts.countP (fun j => decide (¬ j ∈ s.visited)) :=
          List.countP_mono_left fun j _ hj => by simp_all
        by_cases ht : t = e.2
        · subst ht
          simp only [List.countP_cons, KeySet.mem_insert, hk]
          simp only [KeySet.mem_insert] at hmono
          simp
          simp at hmono
          omega
        · have hts : e.2 ∈ ts := (List.mem_cons.1 h).resolve_left fun he => ht he.symm
          have hrest := ih hts
          simp only [List.countP_cons, KeySet.mem_insert, ht, or_false] at hrest ⊢
          omega
    simp only [pending, List.length_cons]
    omega

theorem pending_foldl_examine {g : FlowGraph} {es : List (RangeKey × RangeKey)}
    (h : ∀ e ∈ es, e.2 ∈ allTargets g) (s : Search) :
    pending g (es.foldl examine s) ≤ pending g s := by
  induction es generalizing s with
  | nil => exact Nat.le_refl _
  | cons e es ih =>
    obtain ⟨he, hes⟩ := List.forall_mem_cons.1 h
    exact Nat.le_trans (ih hes _) (pending_examine he)

/-- Whichever range is expanded, the search comes nearer to its end. -/
theorem Expands.pending_lt {g : FlowGraph} {s t : Search} (h : s.Expands g t) :
    pending g t < pending g s := by
  obtain ⟨k, hk, rfl⟩ := h
  have htargets : ∀ e ∈ g.edgesFrom k, e.2 ∈ allTargets g :=
    List.forall_mem_map.2 fun _ hj => targets_subset g k hj
  -- the range taken off the stack is the one that is gone for good
  have hlen : (s.stack.erase k).length = s.stack.length - 1 := List.length_erase_of_mem hk
  have hpos : 0 < s.stack.length := List.length_pos_of_mem hk
  calc pending g (s.expand g k)
      ≤ pending g (s.takeOff k) := pending_foldl_examine htargets _
    _ < pending g s := by
      unfold pending takeOff
      dsimp only
      omega

/-- Steps until the stack is empty. -/
def run (g : FlowGraph) (s : Search) : Search :=
  match _h : s.step g with
  | none => s
  | some t => run g t
termination_by pending g s
decreasing_by exact (expands_of_step _h).pending_lt

end Search

/-- All ranges that can be reached from the given ones, these included. -/
def FlowGraph.closure (g : FlowGraph) (seeds : KeySet) : KeySet :=
  (Search.run g (Search.start seeds)).visited

end RefFlow
