import RefFlow.Proofs.InRange
import RefFlow.Proofs.Intake
/-!
# Moves of other classes

A move whose operands share a class other than the one that carries references is passed over. Its
registers are not looked up, so they need not have ranges, and it makes no difference if they share
their numbers with registers that carry references. Such a move is only counted.

Wherever such moves stand among the others, taking them out changes nothing but that count: the same
move stops the intake, the same edges are brought, and the graphs differ in a counter that no search
reads. So the runs with and without them end alike and leave the same marks.

Main definitions and statements:

* `Move.Foreign`, `Move.withoutForeign` — the moves that are passed over, and all others;
* `FlowGraph.graph_withoutForeign` — the graphs with and without them;
* `survey_withoutForeign` — the surveys;
* `Run.CountsMore`, `foreign_moves_inert` — the runs.
-/

namespace RefFlow

/-- Both operands have one class, which is not `c`. -/
def Move.Foreign (c : RegClass) (m : Move) : Prop := m.dst.cls = m.src.cls ∧ m.dst.cls ≠ c

instance (c : RegClass) (m : Move) : Decidable (m.Foreign c) := inferInstanceAs (Decidable (_ ∧ _))

/-- The moves that are not passed over, in their order. -/
def Move.withoutForeign (c : RegClass) (moves : List Move) : List Move :=
  moves.filter fun m => decide (¬ m.Foreign c)

namespace Move

variable {σ : Type} [RangeStore σ] {store : σ} {c : RegClass} {m : Move} {moves : List Move}

/-! ### Passing over -/

theorem Foreign.not_mixed (h : m.Foreign c) : ¬ m.Mixed := not_not_intro h.1

theorem Foreign.not_ofClass (h : m.Foreign c) : ¬ m.OfClass c := fun hc => h.2 hc.1

/-- What foreign moves do not contribute to is the same without them. -/
theorem filterMap_withoutForeign {α : Type} {f : Move → Option α}
    (h : ∀ m : Move, m.Foreign c → f m = none) (moves : List Move) :
    (withoutForeign c moves).filterMap f = moves.filterMap f := by
  unfold withoutForeign
  rw [List.filterMap_filter]
  refine congrArg (moves.filterMap ·) (funext fun m => ?_)
  -- a move that was filtered out gave nothing
  by_cases hm : m.Foreign c
  · simp [hm, h m hm]
  · simp [hm]

/-- **The same move stops the intake.** -/
theorem findSome?_stop?_withoutForeign (store : σ) (c : RegClass) (moves : List Move) :
    (withoutForeign c moves).findSome? (stop? store c) = moves.findSome? (stop? store c) := by
  have hpass : ∀ m : Move, m.Foreign c → m.stop? store c = none := fun m hm =>
    stop?_of_foreign hm.not_mixed hm.not_ofClass
  rw [← List.head?_filterMap, ← List.head?_filterMap, filterMap_withoutForeign hpass]

/-- **The same edges are brought.** -/
theorem filterMap_edge?_withoutForeign (store : σ) (c : RegClass) (moves : List Move) :
    (withoutForeign c moves).filterMap (edge? store c) = moves.filterMap (edge? store c) :=
  filterMap_withoutForeign (fun _ hm => edge?_of_foreign hm.not_ofClass) moves

theorem countP_ofClass_withoutForeign (c : RegClass) (moves : List Move) :
    (withoutForeign c moves).countP (fun m => decide (m.OfClass c)) =
      moves.countP fun m => decide (m.OfClass c) := by
  unfold withoutForeign
  rw [List.countP_filter]
  refine List.countP_congr fun m _ => ?_
  -- a move that is counted was not filtered out
  have hnot : m.OfClass c → ¬ m.Foreign c := fun hc hm => hm.not_ofClass hc
  simpa using hnot

/-- The moves are those passed over and the others. -/
theorem length_withoutForeign (c : RegClass) (moves : List Move) :
    moves.length =
      (withoutForeign c moves).length + moves.countP fun m => decide (m.Foreign c) := by
  unfold withoutForeign
  rw [← List.countP_eq_length_filter, Nat.add_comm,
    List.length_eq_countP_add_countP fun m => decide (m.Foreign c)]
  simp only [decide_not, Bool.decide_eq_true]

end Move

/-! ### Graphs -/

namespace FlowGraph

variable {σ : Type} [RangeStore σ] {store : σ} {c : RegClass} {g : FlowGraph} {moves : List Move}

theorem stop_withoutForeign (store : σ) (c : RegClass) (g : FlowGraph) (moves : List Move) :
    (g.addMoves store c (Move.withoutForeign c moves)).stop = (g.addMoves store c moves).stop := by
  rw [addMoves_stop, addMoves_stop, Move.findSome?_stop?_withoutForeign]

/-- **Moves that were all taken** leave the graph that they leave without the foreign ones, but for
the count of moves. -/
theorem graph_withoutForeign (h : (g.addMoves store c moves).stop = none) :
    (g.addMoves store c moves).graph =
      (g.addMoves store c (Move.withoutForeign c moves)).graph.recount
        (g.moves + UInt32.ofNat moves.length)
        (g.addMoves store c (Move.withoutForeign c moves)).graph.refMoves := by
  have h' : (g.addMoves store c (Move.withoutForeign c moves)).stop = none :=
    (stop_withoutForeign store c g moves).trans h
  -- nothing stops in either list, so all edges are brought
  have hedges : broughtEdges store c (Move.withoutForeign c moves) =
      broughtEdges store c moves := by
    unfold broughtEdges
    rw [taken_of_stop_eq_none h, taken_of_stop_eq_none h', Move.filterMap_edge?_withoutForeign]
  rw [graph_addMoves, graph_addMoves, examined_of_stop_eq_none h, examined_of_stop_eq_none h',
    hedges, refMoves_insertEdges, recount_insertEdges, Move.countP_ofClass_withoutForeign]
  rfl

/-- Counts of moves are not searched. -/
theorem closure_recount (g : FlowGraph) (moves refMoves : UInt32) (seeds : KeySet) :
    (g.recount moves refMoves).closure seeds = g.closure seeds :=
  closure_congr (g := g) (h := g.recount moves refMoves) (fun _ => rfl) seeds

end FlowGraph

/-! ### Runs -/

/-- Both runs leave the same store and end alike: they stop for the same cause, or come to their end
with the same counts, except that the first one counted `extra` moves more. -/
structure Run.CountsMore {σ : Type} (extra : Nat) (a b : Run σ) : Prop where
  store : a.store = b.store
  outcome : (∃ stop : Stop, a.outcome = stop.outcome ∧ b.outcome = stop.outcome) ∨
    ∃ s s', a.outcome = .finished s ∧ b.outcome = .finished s' ∧
      s = { s' with moves := s.moves } ∧ s.moves.toNat = s'.moves.toNat + extra

namespace Run.CountsMore

variable {σ : Type} {extra : Nat} {a b : Run σ} (h : Run.CountsMore extra a b)
include h

theorem finished {s' : Summary} (hs' : b.outcome = .finished s') :
    ∃ s, a.outcome = .finished s ∧ s = { s' with moves := s.moves } ∧
      s.moves.toNat = s'.moves.toNat + extra := by
  rcases h.outcome with ⟨stop, -, hstop⟩ | ⟨s, t, hs, ht, hsame⟩
  · exact absurd (hstop.symm.trans hs') (by cases stop <;> simp [Stop.outcome])
  · obtain rfl := Outcome.finished.inj (ht.symm.trans hs')
    exact ⟨s, hs, hsame⟩

theorem refused {r : Refusal} (hr : b.outcome = .refused r) : a.outcome = .refused r := by
  rcases h.outcome with ⟨stop, ha, hb⟩ | ⟨s, t, -, ht, -⟩
  · rw [ha, ← hb, hr]
  · exact absurd (ht.symm.trans hr) (by simp)

end Run.CountsMore

section Runs

variable {σ : Type} [RangeStore σ] {moves : List Move} {req : Request}

/-- A survey with another count of moves. -/
def Survey.recount (found : Survey) (moves : UInt32) : Survey :=
  { found with graph := found.graph.recount moves found.graph.refMoves }

theorem Survey.reached_recount (found : Survey) (moves : UInt32) :
    (found.recount moves).reached = found.reached :=
  FlowGraph.closure_recount _ _ _ _

theorem Survey.summary_recount (found : Survey) (moves : UInt32) :
    (found.recount moves).summary = { found.summary with moves } := by
  unfold summary
  rw [reached_recount]
  rfl

/-- **Surveys** with and without the foreign moves stop for the same cause, or find the same but for
the count of moves. -/
theorem survey_withoutForeign (store : σ) (moves : List Move) (req : Request) :
    (survey store moves req).1 =
      (survey store (Move.withoutForeign req.refClass moves) req).1.map
        fun found => found.recount (UInt32.ofNat moves.length) := by
  have hstop := FlowGraph.stop_withoutForeign store req.refClass .empty moves
  unfold survey
  dsimp only
  rw [hstop]
  cases hmoves : (FlowGraph.empty.addMoves store req.refClass moves).stop with
  | some stop => rfl
  | none =>
    dsimp only
    -- seeds are collected alike, as they do not depend on moves
    cases (Seeding.collect store req ∅).stop with
    | some stop => rfl
    | none =>
      have hcount : FlowGraph.empty.moves + UInt32.ofNat moves.length =
          UInt32.ofNat moves.length := UInt32.zero_add _
      dsimp only
      rw [FlowGraph.graph_withoutForeign hmoves, hcount]
      rfl

/-- A survey that comes to its end counts the moves. -/
theorem survey_moves {store : σ} {found : Survey} {log : List Entry}
    (h : survey store moves req = (.ok found, log)) :
    found.graph.moves = UInt32.ofNat moves.length := by
  obtain ⟨hmoves, -, rfl⟩ := survey_eq_ok h
  show (FlowGraph.empty.addMoves store req.refClass moves).graph.moves = _
  rw [FlowGraph.graph_addMoves, FlowGraph.examined_of_stop_eq_none hmoves,
    FlowGraph.moves_insertEdges]
  exact UInt32.zero_add _

theorem propagate_withoutForeign (hlen : moves.length < UInt32.size) (sw : Switches) (store : σ)
    (req : Request) :
    Run.CountsMore (moves.countP fun m => decide (m.Foreign req.refClass))
      (propagate sw store moves req)
      (propagate sw store (Move.withoutForeign req.refClass moves) req) := by
  have hsurvey := survey_withoutForeign store moves req
  have hlength := Move.length_withoutForeign req.refClass moves
  cases hkept : survey store (Move.withoutForeign req.refClass moves) req with
  | mk result log =>
    rw [hkept] at hsurvey
    cases result with
    | error stop =>
      have hfull : survey store moves req = (.error stop, (survey store moves req).2) :=
        Prod.ext hsurvey rfl
      rw [propagate_of_error hfull, propagate_of_error hkept]
      exact ⟨rfl, .inl ⟨stop, rfl, rfl⟩⟩
    | ok found =>
      have hfull : survey store moves req =
          (.ok (found.recount (UInt32.ofNat moves.length)), (survey store moves req).2) :=
        Prod.ext hsurvey rfl
      -- the count of moves has no part in what is reached, so the marks are the same
      have hmarking : (found.recount (UInt32.ofNat moves.length)).marking = found.marking := by
        unfold Survey.marking
        rw [Survey.reached_recount]
      have hcounted : found.summary.moves = UInt32.ofNat _ := survey_moves hkept
      rw [propagate_of_ok hfull, propagate_of_ok hkept, hmarking, Survey.summary_recount]
      refine ⟨rfl, .inr ⟨_, _, rfl, rfl, rfl, ?_⟩⟩
      -- both counts fit into a word
      have hfewer : (Move.withoutForeign req.refClass moves).length < UInt32.size := by omega
      rw [hcounted, UInt32.toNat_ofNat_of_lt' hlen, UInt32.toNat_ofNat_of_lt' hfewer]
      exact hlength

/-- **Moves of other classes are inert.** Let there be fewer moves than words to count them. Over
any store, and over live ranges with any directory, the run with all moves and the run without the
foreign ones leave the same store, marks included, and end alike: with the same refusal, with the
same fault, or with counts that differ in the moves that were passed over alone. -/
theorem foreign_moves_inert (hlen : moves.length < UInt32.size) (sw : Switches) (req : Request) :
    (∀ {σ : Type} [RangeStore σ] (store : σ),
      Run.CountsMore (moves.countP fun m => decide (m.Foreign req.refClass))
        (propagate sw store moves req)
        (propagate sw store (Move.withoutForeign req.refClass moves) req)) ∧
    ∀ (l : Liveness) (d : Directory),
      Run.CountsMore (moves.countP fun m => decide (m.Foreign req.refClass))
        (l.propagate sw d moves req)
        (l.propagate sw d (Move.withoutForeign req.refClass moves) req) := by
  refine ⟨fun store => propagate_withoutForeign hlen sw store req, fun l d => ?_⟩
  -- the lines in front of the log are all that is added
  obtain ⟨hstore, houtcome⟩ := propagate_withoutForeign hlen sw (Indexed.mk l d) req
  exact ⟨hstore, houtcome⟩

end Runs

/-- The moves round the loop of `looping`, with two foreign ones among them: one of registers
without ranges, and one of registers that are numbered like `v0` and `v1`. -/
def crowdedMoves : List Move :=
  ⟨⟨.virtual, .f32, 8⟩, ⟨.real, .f32, 7⟩, 1, 1⟩ :: Liveness.loopingMoves.take 2 ++
    ⟨⟨.virtual, .f64, 1⟩, ⟨.virtual, .f64, 0⟩, 1, 1⟩ :: Liveness.loopingMoves.drop 2

theorem foreign_moves_inert_crowded :
    crowdedMoves.length < UInt32.size ∧
      Move.withoutForeign .i64 crowdedMoves = Liveness.loopingMoves ∧
      (Liveness.looping.propagate .off misfiled.dir crowdedMoves
        ⟨.i64, [⟨.virtual, .i64, 0⟩]⟩).outcome = .finished ⟨6, 4, 4, 2, 1, 3⟩ ∧
      (Liveness.looping.propagate .off misfiled.dir crowdedMoves
        ⟨.i64, [⟨.virtual, .i64, 0⟩]⟩).store =
          (Liveness.looping.propagate .off misfiled.dir Liveness.loopingMoves
            ⟨.i64, [⟨.virtual, .i64, 0⟩]⟩).store ∧
      (propagate .off markedTable crowdedMoves ⟨.i64, [⟨.real, .i64, 3⟩]⟩).outcome =
        .refused (.realSeed ⟨.real, .i64, 3⟩) := by
  have hlen : crowdedMoves.length < UInt32.size := by decide
  have hkept : Move.withoutForeign .i64 crowdedMoves = Liveness.loopingMoves := by decide
  have hrun : (Liveness.looping.propagate .off misfiled.dir Liveness.loopingMoves
      ⟨.i64, [⟨.virtual, .i64, 0⟩]⟩).outcome = .finished ⟨4, 4, 4, 2, 1, 3⟩ := by decide +kernel
  have hrefused : (propagate .off markedTable Liveness.loopingMoves
      ⟨.i64, [⟨.real, .i64, 3⟩]⟩).outcome = .refused (.realSeed ⟨.real, .i64, 3⟩) := by
    decide +kernel
  have hlive := (foreign_moves_inert hlen .off ⟨.i64, [⟨.virtual, .i64, 0⟩]⟩).2
    Liveness.looping misfiled.dir
  have htable := (foreign_moves_inert hlen .off ⟨.i64, [⟨.real, .i64, 3⟩]⟩).1 markedTable
  rw [hkept] at hlive htable
  obtain ⟨s, hs, hsame, hmoves⟩ := hlive.finished hrun
  have hsix : s.moves = 6 := UInt32.toNat_inj.1 (hmoves.trans (by decide))
  rw [hsix] at hsame
  exact ⟨hlen, hkept, hs.trans (congrArg Outcome.finished hsame), hlive.store,
    htable.refused hrefused⟩

end RefFlow
