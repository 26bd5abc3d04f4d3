import RefFlow.Propagation
import Mathlib.Logic.Relation
/-!
# A run, step by step

`propagate` says what a run comes to. Here the same run is taken apart into single steps: one move
taken, one seed checked, the ranges of one seed added, one range expanded, one range marked. Between
two steps the run stands at a *moment*, which has the store as it is then.

A step reads the store or marks one range in it, and only the marking stage marks. No step leads from
marking to a refusal or a fault. So at a moment from which the run can still be stopped, nothing has
been marked yet (`Moment.Leads.store_eq`), however many moves and seeds were taken before.

Main statements:

* `survey_leads` — the steps from the start lead to what `survey` finds, which is what is marked then;
* `propagate_leads` — the steps from the start lead to what `propagate` says;
* `Moment.next_cases` — a step keeps the store, or it marks and does not come from where nothing is
  marked yet;
* `store_eq_of_stopped` — at no moment of a run that is stopped has anything been marked.
-/

namespace RefFlow

/-! ### Stages and moments -/

/-- What a run does next, with what it knows so far. -/
inductive Stage
  /-- Take the remaining moves into the graph. -/
  | taking (g : FlowGraph) (rest : List Move)
  /-- Check the remaining seeds. -/
  | checking (g : FlowGraph) (rest : List Reg)
  /-- Add the ranges of the remaining seeds to the set. -/
  | gathering (g : FlowGraph) (set : KeySet) (rest : List Reg)
  /-- Search the graph from the seeds' ranges. -/
  | searching (g : FlowGraph) (seeds : KeySet) (s : Search)
  /-- Mark the remaining ranges. -/
  | marking (found : Survey) (rest : List RangeKey)
  | ended (o : Outcome)
  deriving DecidableEq, Repr

/-- The stage that follows one which a stop may have ended the run in. -/
def Stage.stoppedOr (stop : Option Stop) (following : Stage) : Stage :=
  stop.elim following fun s => .ended s.outcome

@[simp] theorem Stage.stoppedOr_none (following : Stage) :
    stoppedOr none following = following := rfl

@[simp] theorem Stage.stoppedOr_some (s : Stop) (following : Stage) :
    stoppedOr (some s) following = .ended s.outcome := rfl

/-- The stage that a survey leads to: all that can be reached is there to be marked. -/
def Stage.ofSurvey : Except Stop Survey → Stage
  | .error stop => .ended stop.outcome
  | .ok found => .marking found found.marking

/-- A run between two steps: the store as it is now, and what comes next. -/
structure Moment (σ : Type) where
  store : σ
  stage : Stage

namespace Moment

variable {σ : Type} [RangeStore σ]

/-- The start of a run over a list of moves. -/
def start (store : σ) (moves : List Move) : Moment σ := ⟨store, .taking .empty moves⟩

/-- One step of a run; `none` once it has ended. -/
def next (req : Request) (t : Moment σ) : Option (Moment σ) :=
  match t.stage with
  | .taking g [] => some { t with stage := .checking g req.seeds }
  | .taking g (m :: rest) =>
    if m.Mixed then
      some { t with stage := .ended (.refused (.mixedMove m.dst m.src m.instr)) }
    else if m.dst.cls ≠ req.refClass then some { t with stage := .taking g.countMove rest }
    else
      match m.resolve t.store with
      | .error f => some { t with stage := .ended (.faulted f) }
      | .ok r =>
        some { t with stage := .taking (g.countMove.countRefMove.insertEdge r.src r.dst) rest }
  | .checking g [] => some { t with stage := .gathering g ∅ req.seeds }
  | .checking g (r :: rest) =>
    match r.refusal? req.refClass with
    | some refusal => some { t with stage := .ended (.refused refusal) }
    | none => some { t with stage := .checking g rest }
  | .gathering g set [] => some { t with stage := .searching g set (.start set) }
  | .gathering g set (r :: rest) =>
    match RangeStore.seed t.store r with
    | .error f => some { t with stage := .ended (.faulted f) }
    | .ok found => some { t with stage := .gathering g (set.insertAll found.keys) rest }
  | .searching g seeds s =>
    match s.step g with
    | some s' => some { t with stage := .searching g seeds s' }
    | none => some { t with stage := .marking ⟨g, seeds⟩ s.visited.byName }
  | .marking found [] => some { t with stage := .ended (.finished found.summary) }
  -- the one step that changes the store
  | .marking found (k :: rest) => some ⟨RangeStore.mark t.store k, .marking found rest⟩
  | .ended _ => none

/-- From one moment of a run to a later one, in zero or more steps. -/
def Leads (req : Request) : Moment σ → Moment σ → Prop :=
  Relation.ReflTransGen fun t u => t.next req = some u

/-! ### Where the steps of a stage lead -/

variable {req : Request} {store : σ}

theorem leads_taking (g : FlowGraph) (moves : List Move) :
    Leads req ⟨store, .taking g moves⟩
      ⟨store, .stoppedOr (g.addMoves store req.refClass moves).stop
        (.checking (g.addMoves store req.refClass moves).graph req.seeds)⟩ := by
  -- over the moves, with the graph that holds those taken before
  induction moves generalizing g with
  | nil => exact .single rfl
  | cons m rest ih =>
    unfold FlowGraph.addMoves
    split
    · next hmix => exact .single (by simp [next, hmix, Stop.outcome])
    · next hmix =>
      split
      · next hc =>
        have hnext : next req ⟨store, .taking g (m :: rest)⟩ =
            some ⟨store, .taking g.countMove rest⟩ := by
          simp [next, hmix, hc]
        exact .head hnext (ih g.countMove)
      · next hc =>
        cases hr : m.resolve store with
        | error f => exact .single (by simp [next, hmix, hc, hr, Stop.outcome])
        | ok r =>
          have hnext : next req ⟨store, .taking g (m :: rest)⟩ =
              some ⟨store, .taking (g.countMove.countRefMove.insertEdge r.src r.dst) rest⟩ := by
            simp [next, hmix, hc, hr]
          exact .head hnext (ih _)

/-- `seeds` are those of the request that are still to be checked. All of them are gathered. -/
theorem leads_checking (g : FlowGraph) (seeds : List Reg) :
    Leads req ⟨store, .checking g seeds⟩
      ⟨store, .stoppedOr ((seeds.findSome? (Reg.refusal? req.refClass)).map .refused)
        (.gathering g ∅ req.seeds)⟩ := by
  induction seeds with
  | nil => exact .single rfl
  | cons r rest ih =>
    rw [List.findSome?_cons]
    cases hr : r.refusal? req.refClass with
    | some refusal => exact .single (by simp [next, hr, Stop.outcome])
    | none =>
      have hnext : next req ⟨store, .checking g (r :: rest)⟩ = some ⟨store, .checking g rest⟩ := by
        simp [next, hr]
      exact .head hnext ih

theorem leads_gathering (g : FlowGraph) (set : KeySet) (seeds : List Reg) :
    Leads req ⟨store, .gathering g set seeds⟩
      ⟨store, .stoppedOr (Seeding.gather store set seeds).stop
        (.searching g (Seeding.gather store set seeds).set
          (.start (Seeding.gather store set seeds).set))⟩ := by
  induction seeds generalizing set with
  | nil => exact .single rfl
  | cons r rest ih =>
    unfold Seeding.gather
    cases hr : RangeStore.seed store r with
    | error f => exact .single (by simp [next, hr, Stop.outcome])
    | ok found =>
      have hnext : next req ⟨store, .gathering g set (r :: rest)⟩ =
          some ⟨store, .gathering g (set.insertAll found.keys) rest⟩ := by
        simp [next, hr]
      exact .head hnext (ih _)

theorem leads_searching (g : FlowGraph) (seeds : KeySet) (s : Search) :
    Leads req ⟨store, .searching g seeds s⟩
      ⟨store, .marking ⟨g, seeds⟩ (s.run g).visited.byName⟩ := by
  -- the search recurs on its own steps, so does the proof
  fun_induction Search.run g s with
  | case1 s hnone => exact .single (by simp [next, hnone])
  | case2 s t hsome ih =>
    have hnext : next req ⟨store, .searching g seeds s⟩ = some ⟨store, .searching g seeds t⟩ := by
      simp [next, hsome]
    exact .head hnext ih

theorem leads_marking (found : Survey) (ks : List RangeKey) :
    Leads req ⟨store, .marking found ks⟩
      ⟨markAll store ks, .ended (.finished found.summary)⟩ := by
  -- here alone the store is another one after each step
  induction ks generalizing store with
  | nil => exact .single rfl
  | cons k rest ih => exact .head rfl ih

/-- The checks on the seeds and the additions of their ranges make up `Seeding.collect`. -/
theorem leads_seeding (g : FlowGraph) :
    Leads req ⟨store, .checking g req.seeds⟩
      ⟨store, .stoppedOr (Seeding.collect store req ∅).stop
        (.searching g (Seeding.collect store req ∅).set
          (.start (Seeding.collect store req ∅).set))⟩ := by
  have hchecking : Leads req ⟨store, .checking g req.seeds⟩ _ := leads_checking g req.seeds
  unfold Seeding.collect
  cases hfind : req.seeds.findSome? (Reg.refusal? req.refClass) with
  | some refusal =>
    rw [hfind] at hchecking
    exact hchecking
  | none =>
    rw [hfind] at hchecking
    exact hchecking.trans (leads_gathering g ∅ req.seeds)

end Moment

section Run

variable {σ : Type} [RangeStore σ]

/-- **The steps of a survey** lead from the start of a run to the stage that marks what was found, or to
the stop that ended the survey. -/
theorem survey_leads (store : σ) (moves : List Move) (req : Request) :
    Moment.Leads req (.start store moves) ⟨store, .ofSurvey (survey store moves req).1⟩ := by
  have htaking : Moment.Leads req (.start store moves) _ := Moment.leads_taking .empty moves
  unfold survey
  dsimp only
  -- a stop at a move or at a seed ends the run there, else the next stage takes over
  cases hmoves : (FlowGraph.empty.addMoves store req.refClass moves).stop with
  | some stop =>
    rw [hmoves] at htaking
    exact htaking
  | none =>
    rw [hmoves] at htaking
    have hseeding := htaking.trans (Moment.leads_seeding _)
    dsimp only
    cases hseeds : (Seeding.collect store req ∅).stop with
    | some stop =>
      rw [hseeds] at hseeding
      exact hseeding
    | none =>
      rw [hseeds] at hseeding
      exact hseeding.trans (Moment.leads_searching _ _ _)

/-- **The steps of a run** lead from its start to the store and the outcome that `propagate` gives. -/
theorem propagate_leads (sw : Switches) (store : σ) (moves : List Move) (req : Request) :
    Moment.Leads req (.start store moves)
      ⟨(propagate sw store moves req).store, .ended (propagate sw store moves req).outcome⟩ := by
  have hsurvey := survey_leads store moves req
  rcases h : survey store moves req with ⟨stop | found, log⟩
  · rw [h] at hsurvey
    rw [propagate_of_error h]
    exact hsurvey
  -- what was found is marked, one range after the other
  · rw [h] at hsurvey
    rw [propagate_of_ok h]
    exact hsurvey.trans (Moment.leads_marking found found.marking)

end Run

/-! ### Nothing is marked before marking -/

/-- The run has not come to marking, or it was stopped before it got there. -/
def Stage.Unwritten : Stage → Prop
  | .marking .. => False
  | .ended (.finished _) => False
  | _ => True

/-- A run that is stopped has not come to marking. -/
theorem Stage.unwritten_ended {o : Outcome} (h : ∀ s, o ≠ .finished s) :
    (Stage.ended o).Unwritten := by
  cases o with
  | finished s => exact absurd rfl (h s)
  | refused r => trivial
  | faulted f => trivial

namespace Moment

variable {σ : Type} [RangeStore σ] {req : Request} {t u : Moment σ}

/-- **What a step can do.** Before marking it leaves the store alone; from marking it leads to no
stage in which the run can be stopped. -/
theorem next_cases (h : t.next req = some u) :
    t.stage.Unwritten ∧ u.store = t.store ∨ ¬ u.stage.Unwritten := by
  obtain ⟨store, stage⟩ := t
  cases stage with
  | taking g rest =>
    refine Or.inl ⟨trivial, ?_⟩
    cases rest with
    | nil => cases h; rfl
    | cons m rest =>
      simp only [next] at h
      split at h
      · cases h; rfl
      · split at h
        · cases h; rfl
        · split at h <;> (cases h; rfl)
  | checking g rest =>
    refine Or.inl ⟨trivial, ?_⟩
    cases rest with
    | nil => cases h; rfl
    | cons r rest =>
      simp only [next] at h
      split at h <;> (cases h; rfl)
  | gathering g set rest =>
    refine Or.inl ⟨trivial, ?_⟩
    cases rest with
    | nil => cases h; rfl
    | cons r rest =>
      simp only [next] at h
      split at h <;> (cases h; rfl)
  | searching g seeds s =>
    refine Or.inl ⟨trivial, ?_⟩
    simp only [next] at h
    split at h <;> (cases h; rfl)
  | marking found rest =>
    refine Or.inr ?_
    cases rest with
    | nil => cases h; exact not_false
    | cons k rest => cases h; exact not_false
  | ended o => cases h

/-- As long as the run can still be stopped, no step has changed the store. -/
theorem Leads.store_eq (h : Leads req t u) (hu : u.stage.Unwritten) :
    t.stage.Unwritten ∧ u.store = t.store := by
  -- from the last step backwards: what comes before an unwritten stage is unwritten too
  induction h with
  | refl => exact ⟨hu, rfl⟩
  | tail _ hnext ih =>
    obtain ⟨hmid, hstore⟩ := (next_cases hnext).resolve_right (not_not_intro hu)
    obtain ⟨hfirst, hbefore⟩ := ih hmid
    exact ⟨hfirst, hstore.trans hbefore⟩

/-- A moment of a run comes before its end. -/
theorem Leads.to_end {s : Moment σ} (ht : Leads req s t) (hu : Leads req s u)
    (hend : u.next req = none) : Leads req t u := by
  have hunique : Relator.RightUnique fun t u : Moment σ => t.next req = some u :=
    fun _ _ _ hx hy => Option.some.inj (hx.symm.trans hy)
  rcases Relation.ReflTransGen.total_of_right_unique hunique ht hu with htu | hut
  · exact htu
  -- nothing comes after the end
  · rcases Relation.ReflTransGen.cases_head hut with rfl | ⟨v, hv, -⟩
    · exact .refl
    · rw [hend] at hv
      cases hv

end Moment

/-- **Nothing is marked in a run that is stopped**, neither at its end nor at any moment before. -/
theorem store_eq_of_stopped {σ : Type} [RangeStore σ] {sw : Switches} {store : σ}
    {moves : List Move} {req : Request}
    (h : ∀ s, (propagate sw store moves req).outcome ≠ .finished s) {t : Moment σ}
    (ht : Moment.Leads req (.start store moves) t) : t.store = store := by
  have hrun := propagate_leads sw store moves req
  have hunwritten := Stage.unwritten_ended h
  have hend : (propagate sw store moves req).store = store := (hrun.store_eq hunwritten).2
  -- from that moment too the run goes on to an end at which nothing is marked
  have hrest := ht.to_end hrun rfl
  exact (hrest.store_eq hunwritten).2.symm.trans hend

end RefFlow
