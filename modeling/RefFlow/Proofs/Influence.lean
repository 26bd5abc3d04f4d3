import RefFlow.Proofs.Exactness
/-!
# What a run does not read

Of a range, a run reads the register and the points at which it is live; of a move, the registers and the
instruction. It does not read which ranges are marked already, what is assigned to them, and how often a
move is executed. So two runs that differ in these alone come to the same survey: they end alike, and
the one adds the same marks as the other. This holds over any live ranges with any directory.

The parts that are read are what is left when the others are wiped: `Liveness.bare` and
`Move.unweighted`.

Main statements:

* `Liveness.WellFormed.of_bare` — ranges stay well formed whatever is marked and assigned;
* `Indexed.locate_eq_of_bare` — lookups do not see marks and assignments;
* `FlowGraph.addMoves_unweighted` — edges and stops do not depend on execution counts;
* `survey_eq_of_bare` — surveys that differ in what is not read are the same;
* `propagate_of_survey_eq` — runs with one survey end alike and mark the same;
* `Liveness.WellFormed.marked_iff_of_bare` — the marks of two such runs.
-/

namespace RefFlow

/-! ### Marks and assignments -/

namespace Liveness

/-- Takes all assignments back. -/
def unassignAll (l : Liveness) : Liveness :=
  { l with virtuals := l.virtuals.map fun r => { r with assigned := none } }

/-- The live ranges without marks and assignments: registers and segments are left. -/
def bare (l : Liveness) : Liveness := l.unmarkAll.unassignAll

variable {l l' : Liveness}

theorem bare_eq_of_unmarkAll (h : l'.unmarkAll = l.unmarkAll) : l'.bare = l.bare :=
  congrArg unassignAll h

theorem bare_unmarkAll (l : Liveness) : l.unmarkAll.bare = l.bare := by
  refine bare_eq_of_unmarkAll ?_
  unfold unmarkAll
  simp only [Array.map_map, Function.comp_def]

theorem bare_assign (l : Liveness) (i : Nat) (a : Option Reg) : (l.assign i a).bare = l.bare := by
  unfold bare unassignAll unmarkAll assign
  simp only [Array.map_map]
  rw [map_modify (by intro r; rfl)]

theorem reg?_unassignAll (l : Liveness) (x : Site) : l.unassignAll.reg? x = l.reg? x := by
  unfold reg? unassignAll
  cases x.kind <;> simp [Function.comp_def]

/-- Live ranges that differ in marks and assignments alone have the same registers. -/
theorem reg?_eq_of_bare (h : l'.bare = l.bare) (x : Site) : l'.reg? x = l.reg? x := by
  -- neither marks nor assignments hold a register
  have hbare : ∀ k : Liveness, k.bare.reg? x = k.reg? x := fun k =>
    (reg?_unassignAll k.unmarkAll x).trans (reg?_unmarkAll k x)
  rw [← hbare l', h, hbare]

theorem ofLiveness_eq_of_bare (h : l'.bare = l.bare) :
    Directory.ofLiveness l' = Directory.ofLiveness l :=
  Directory.ofLiveness_congr (reg?_eq_of_bare h)

/-! ### Well-formed ranges -/

section WellFormed

variable (h : l'.bare = l.bare)
include h

theorem pool_eq_of_bare : l'.pool = l.pool := (congrArg pool h : l'.bare.pool = l.bare.pool)

theorem count_eq_of_bare (kind : RegKind) : l'.count kind = l.count kind := by
  have hpinned : l'.bare.pinned.size = l.bare.pinned.size := congrArg (·.pinned.size) h
  have hvirtuals : l'.bare.virtuals.size = l.bare.virtuals.size := congrArg (·.virtuals.size) h
  unfold bare unassignAll unmarkAll at hpinned hvirtuals
  simp only [Array.size_map] at hpinned hvirtuals
  cases kind with
  | real => exact hpinned
  | virtual => exact hvirtuals

/-- A range has the register and the segments of one on the other side. -/
theorem exists_pinned_of_bare {r : PinnedRange} (hr : r ∈ l'.pinned) :
    ∃ q ∈ l.pinned, q.reg = r.reg ∧ q.segs = r.segs := by
  -- stripped, the range is one of both sides
  have hmem : { r with marked := false } ∈ l.bare.pinned := by
    rw [← h]
    exact Array.mem_map.2 ⟨r, hr, rfl⟩
  obtain ⟨q, hq, hqr⟩ := Array.mem_map.1 hmem
  obtain ⟨hreg, hsegs, -⟩ := PinnedRange.mk.inj hqr
  exact ⟨q, hq, hreg, hsegs⟩

theorem exists_virtual_of_bare {r : VregRange} (hr : r ∈ l'.virtuals) :
    ∃ q ∈ l.virtuals, q.reg = r.reg ∧ q.segs = r.segs := by
  have hmem : { r with assigned := none, marked := false } ∈ l.bare.virtuals := by
    rw [← h]
    exact Array.mem_map.2 ⟨_, Array.mem_map.2 ⟨r, hr, rfl⟩, rfl⟩
  obtain ⟨p, hp, hpr⟩ := Array.mem_map.1 hmem
  obtain ⟨q, hq, rfl⟩ := Array.mem_map.1 hp
  obtain ⟨hreg, -, hsegs, -⟩ := VregRange.mk.inj hpr
  exact ⟨q, hq, hreg, hsegs⟩

theorem pinned_wellFormed_of_bare (hw : ∀ r ∈ l.pinned, r.WellFormed l.pool) :
    ∀ r ∈ l'.pinned, r.WellFormed l'.pool := by
  intro r hr
  obtain ⟨q, hq, hreg, hsegs⟩ := exists_pinned_of_bare h hr
  obtain ⟨hreal, hresolve⟩ := hw q hq
  rw [hreg] at hreal
  rw [hsegs, ← pool_eq_of_bare h] at hresolve
  exact ⟨hreal, hresolve⟩

theorem virtuals_wellFormed_of_bare (hw : ∀ r ∈ l.virtuals, r.WellFormed) :
    ∀ r ∈ l'.virtuals, r.WellFormed := by
  intro r hr
  obtain ⟨q, hq, hreg, hsegs⟩ := exists_virtual_of_bare h hr
  obtain ⟨hvirtual, hascending⟩ := hw q hq
  rw [hreg] at hvirtual
  rw [hsegs] at hascending
  exact ⟨hvirtual, hascending⟩

/-- Live ranges that differ from well-formed ones in marks and assignments alone are well formed. -/
theorem WellFormed.of_bare (hw : l.WellFormed) : l'.WellFormed where
  pinned := pinned_wellFormed_of_bare h hw.pinned
  virtuals := virtuals_wellFormed_of_bare h hw.virtuals
  pinned_index r hr := by
    obtain ⟨q, hq, hreg, -⟩ := exists_pinned_of_bare h hr
    rw [← hreg]
    exact hw.pinned_index q hq
  virtual_index r hr := by
    obtain ⟨q, hq, hreg, -⟩ := exists_virtual_of_bare h hr
    rw [← hreg]
    exact hw.virtual_index q hq
  pinned_size := le_of_eq_of_le (count_eq_of_bare h .real) hw.pinned_size
  virtual_size := le_of_eq_of_le (count_eq_of_bare h .virtual) hw.virtual_size

end WellFormed

end Liveness

namespace Indexed

/-- The search in the segments of a range sees neither marks nor assignments. -/
theorem covers_bare (l : Liveness) (p : Point) (kind : RegKind) (i : Nat) :
    covers l.bare p kind i = covers l p kind i := by
  unfold covers Liveness.bare Liveness.unassignAll Liveness.unmarkAll
  -- segments are not among the fields that are reset
  cases kind with
  | real =>
    dsimp only
    rw [Array.getElem?_map, Option.bind_map]
    rfl
  | virtual =>
    dsimp only
    rw [Array.getElem?_map, Array.getElem?_map, Option.map_map, Option.map_map]
    rfl

section Bare

variable {l l' : Liveness} (h : l'.bare = l.bare)
include h

theorem covers_eq_of_bare (p : Point) (kind : RegKind) (i : Nat) :
    covers l' p kind i = covers l p kind i := by
  rw [← covers_bare l', h, covers_bare]

theorem firstLive_eq_of_bare (p : Point) (kind : RegKind) (is : List Nat) :
    firstLive l' p kind is = firstLive l p kind is := by
  -- each range on the list answers the same
  induction is with
  | nil => rfl
  | cons i rest ih =>
    unfold firstLive
    rw [covers_eq_of_bare h, ih]

/-- **Lookup.** A register is found in the same range, whatever is marked and assigned. -/
theorem locate_eq_of_bare (d : Directory) (p : Point) (r : Reg) :
    locate ⟨l', d⟩ p r = locate ⟨l, d⟩ p r := by
  unfold locate
  rw [firstLive_eq_of_bare h]

theorem resolve_eq_of_bare (d : Directory) (m : Move) :
    m.resolve (mk l' d) = m.resolve (mk l d) := by
  have hlocate : ∀ p r, RangeStore.locate (mk l' d) p r = RangeStore.locate (mk l d) p r :=
    locate_eq_of_bare h d
  unfold Move.resolve
  rw [hlocate, hlocate]

end Bare

end Indexed

/-! ### Execution counts -/

/-- The move without its execution count. -/
def Move.unweighted (m : Move) : Move := { m with freq := 0 }

section Unweighted

variable {σ : Type} [RangeStore σ] (store : σ)

/-- Without its count a move is resolved to the same ranges. -/
theorem Move.resolve_unweighted (m : Move) :
    m.unweighted.resolve store = (m.resolve store).map fun r => { r with move := m.unweighted } := by
  unfold resolve unweighted
  dsimp only
  cases RangeStore.locate store (.useOf m.instr) m.src with
  | error f => rfl
  | ok src => cases RangeStore.locate store (.defOf m.instr) m.dst <;> rfl

/-- **Taking moves.** Moves without their counts bring the same edges and stop for the same cause. -/
theorem FlowGraph.addMoves_unweighted (c : RegClass) (g : FlowGraph) (moves : List Move) :
    (g.addMoves store c (moves.map Move.unweighted)).graph = (g.addMoves store c moves).graph ∧
      (g.addMoves store c (moves.map Move.unweighted)).stop = (g.addMoves store c moves).stop := by
  -- over the moves; what becomes of each is decided by its registers alone
  induction moves generalizing g with
  | nil => exact ⟨rfl, rfl⟩
  | cons m rest ih =>
    rw [List.map_cons]
    by_cases hmix : m.Mixed
    · have hmix' : m.unweighted.Mixed := hmix
      rw [addMoves_cons_of_mixed hmix, addMoves_cons_of_mixed hmix']
      exact ⟨rfl, rfl⟩
    have hmix' : ¬ m.unweighted.Mixed := hmix
    by_cases hc : m.OfClass c
    · have hc' : m.unweighted.OfClass c := hc
      have hresolve := m.resolve_unweighted store
      cases hr : m.resolve store with
      | error f =>
        rw [hr] at hresolve
        rw [addMoves_cons_of_error hc hr, addMoves_cons_of_error hc' hresolve]
        exact ⟨rfl, rfl⟩
      | ok r =>
        rw [hr] at hresolve
        rw [addMoves_cons_of_ok hc hr, addMoves_cons_of_ok hc' hresolve]
        exact ih _
    · have hc' : ¬ m.unweighted.OfClass c := hc
      rw [addMoves_cons_of_foreign hmix hc, addMoves_cons_of_foreign hmix' hc']
      exact ih _

theorem survey_unweighted (moves : List Move) (req : Request) :
    (survey store (moves.map Move.unweighted) req).1 = (survey store moves req).1 := by
  obtain ⟨hgraph, hstop⟩ := FlowGraph.addMoves_unweighted store req.refClass .empty moves
  unfold survey
  dsimp only
  -- seeds come after the moves, and no move is looked at again
  rw [hgraph, hstop]
  cases (FlowGraph.empty.addMoves store req.refClass moves).stop with
  | some stop => rfl
  | none => cases (Seeding.collect store req ∅).stop <;> rfl

end Unweighted

/-! ### Surveys and runs -/

/-- **What a survey does not read.** Surveys of live ranges that differ in marks and assignments, for
moves that differ in execution counts, are the same. -/
theorem survey_eq_of_bare {l l' : Liveness} {moves moves' : List Move} (hlive : l'.bare = l.bare)
    (hmoves : moves'.map Move.unweighted = moves.map Move.unweighted) (d : Directory)
    (req : Request) :
    (survey (Indexed.mk l' d) moves' req).1 = (survey (Indexed.mk l d) moves req).1 := by
  calc (survey (Indexed.mk l' d) moves' req).1
      = (survey (Indexed.mk l d) moves' req).1 :=
        survey_congr (fun m _ _ => Indexed.resolve_eq_of_bare hlive d m) fun _ _ _ => rfl
    _ = (survey (Indexed.mk l d) (moves'.map Move.unweighted) req).1 :=
        (survey_unweighted _ moves' req).symm
    _ = (survey (Indexed.mk l d) (moves.map Move.unweighted) req).1 := by rw [hmoves]
    _ = (survey (Indexed.mk l d) moves req).1 := survey_unweighted _ moves req

/-- **Runs with one survey** end alike and mark the same ranges, each in its own store. -/
theorem propagate_of_survey_eq {σ : Type} [RangeStore σ] {store store' : σ}
    {moves moves' : List Move} {req req' : Request}
    (h : (survey store' moves' req').1 = (survey store moves req).1) (sw : Switches) :
    (propagate sw store' moves' req').outcome = (propagate sw store moves req).outcome ∧
      ∃ ks, (propagate sw store' moves' req').store = markAll store' ks ∧
        (propagate sw store moves req).store = markAll store ks := by
  -- what is left of the survey is its result; the two logs may differ
  cases hsurvey : survey store moves req with
  | mk result log =>
    cases hsurvey' : survey store' moves' req' with
    | mk result' log' =>
      rw [hsurvey, hsurvey'] at h
      obtain rfl : result' = result := h
      cases result' with
      -- a survey that stops has nothing marked
      | error stop =>
        rw [propagate_of_error hsurvey, propagate_of_error hsurvey']
        exact ⟨rfl, [], rfl, rfl⟩
      | ok found =>
        rw [propagate_of_ok hsurvey, propagate_of_ok hsurvey']
        exact ⟨rfl, found.marking, rfl, rfl⟩

namespace Liveness

variable {l l' : Liveness} {moves moves' : List Move}

section Bare

variable (hlive : l'.bare = l.bare)
  (hmoves : moves'.map Move.unweighted = moves.map Move.unweighted)
include hlive hmoves

/-- With directories that are up to date the surveys are the same as well. -/
theorem survey_analyse_of_bare (req : Request) :
    (survey (Indexed.mk l' (.ofLiveness l')) moves' req).1 =
      (survey (Indexed.mk l (.ofLiveness l)) moves req).1 := by
  rw [ofLiveness_eq_of_bare hlive]
  exact survey_eq_of_bare hlive hmoves (.ofLiveness l) req

theorem outcome_eq_of_bare (sw : Switches) (req : Request) :
    (l'.analyse sw moves' req).outcome = (l.analyse sw moves req).outcome :=
  (propagate_of_survey_eq (survey_analyse_of_bare hlive hmoves req) sw).1

/-- **One and the same set.** What a run over `l'` marks in addition to its own marks is what a reference
gets to in `l`. -/
theorem WellFormed.marked_iff_of_bare (hw : l.WellFormed) {sw : Switches} {req : Request}
    {s : Summary} {x : Site} (h : (l.analyse sw moves req).outcome = .finished s) :
    (l'.analyse sw moves' req).store.live.Marked x ↔ l'.Marked x ∨ l.Reached moves req x := by
  obtain ⟨found, log, hsurvey, -, -⟩ := analyse_eq_finished h
  have hsame := survey_analyse_of_bare hlive hmoves req
  rw [hsurvey] at hsame
  -- so the run over `l'` marks what was found in `l`
  have hsurvey' : survey (Indexed.mk l' (.ofLiveness l')) moves' req =
      (.ok found, (survey (Indexed.mk l' (.ofLiveness l')) moves' req).2) := Prod.ext hsame rfl
  rw [(analyse_of_ok sw hsurvey').2, Indexed.marked_markAll_iff]
  refine or_congr_right ?_
  show (l'.reg? x).isSome ∧ _ ↔ _
  rw [reg?_eq_of_bare hlive]
  exact hw.exists_mem_marking_iff hsurvey

end Bare

end Liveness

end RefFlow
