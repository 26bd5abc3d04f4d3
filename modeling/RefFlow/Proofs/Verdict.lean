import RefFlow.Proofs.Exactness
import RefFlow.Proofs.Messages
/-!
# How a run ends

Moves are taken in order before any seed is looked at, and seeds are checked in order. So the first
move that cannot be taken decides how a run ends, and after moves that can all be taken the first
register that cannot be a seed. For any store this is said of the causes that its own answers give
(`Move.stop?`, `Reg.refusal?`); over well-formed live ranges the causes are read off the ranges, and what
the client is told of them is spelled out.

Main definitions and statements:

* `Outcome.Refuses`, `Outcome.Misses` — an outcome together with what is told of it;
* `FlowGraph.addMoves_stop` — moves stop at the first one that has a cause to;
* `Liveness.WellFormed.stop?_eq_none_iff` — which moves can be taken;
* `Liveness.analyse_outcome` — the outcome of every run over well-formed live ranges.
-/

namespace RefFlow

/-! ### Causes -/

section Store

variable {σ : Type} [RangeStore σ]

/-- Why a move cannot be taken, if it cannot. A move of another class is passed over, so nothing about
its ranges matters. -/
def Move.stop? (store : σ) (c : RegClass) (m : Move) : Option Stop :=
  if m.Mixed then some (.refused (.mixedMove m.dst m.src m.instr))
  else if m.OfClass c then
    match m.resolve store with
    | .error f => some (.faulted f)
    | .ok _ => none
  else none

variable {store : σ} {c : RegClass} {moves : List Move} {req : Request}

theorem Move.stop?_of_mixed {m : Move} (h : m.Mixed) :
    m.stop? store c = some (.refused (.mixedMove m.dst m.src m.instr)) := if_pos h

theorem Move.stop?_of_foreign {m : Move} (h : ¬ m.Mixed) (hc : ¬ m.OfClass c) : m.stop? store c = none := by
  unfold stop?
  rw [if_neg h, if_neg hc]

theorem Move.stop?_of_error {m : Move} {f : Fault} (hc : m.OfClass c) (hf : m.resolve store = .error f) :
    m.stop? store c = some (.faulted f) := by
  unfold stop?
  rw [if_neg hc.not_mixed, if_pos hc, hf]

theorem Move.stop?_of_ok {m : Move} {r : ResolvedMove} (hc : m.OfClass c) (hr : m.resolve store = .ok r) :
    m.stop? store c = none := by
  unfold stop?
  rw [if_neg hc.not_mixed, if_pos hc, hr]

/-- A move that cannot be resolved lacks the range of its source, or has that and lacks the range of its
destination. -/
theorem Move.resolve_eq_error_iff {m : Move} {f : Fault} :
    m.resolve store = .error f ↔
      RangeStore.locate store (.useOf m.instr) m.src = .error f ∨
      (∃ k, RangeStore.locate store (.useOf m.instr) m.src = .ok k) ∧
        RangeStore.locate store (.defOf m.instr) m.dst = .error f := by
  unfold resolve
  cases RangeStore.locate store (.useOf m.instr) m.src with
  | error f' => simp
  | ok src => cases RangeStore.locate store (.defOf m.instr) m.dst <;> simp

/-- **Moves stop at the first one** that has a cause to. -/
theorem FlowGraph.addMoves_stop (g : FlowGraph) (moves : List Move) :
    (g.addMoves store c moves).stop = moves.findSome? (Move.stop? store c) := by
  induction moves generalizing g with
  | nil => rfl
  | cons m rest ih =>
    rw [List.findSome?_cons]
    by_cases hmix : m.Mixed
    · rw [addMoves_cons_of_mixed hmix, Move.stop?_of_mixed hmix]
    by_cases hc : m.OfClass c
    · cases hr : m.resolve store with
      | error f => rw [addMoves_cons_of_error hc hr, Move.stop?_of_error hc hr]
      | ok r =>
        rw [addMoves_cons_of_ok hc hr, Move.stop?_of_ok hc hr]
        exact ih _
    · rw [addMoves_cons_of_foreign hmix hc, Move.stop?_of_foreign hmix hc]
      exact ih _

/-- Seeds of which the store knows the ranges stop at the first one that cannot be a seed. -/
theorem Seeding.collect_stop (set : KeySet)
    (h : ∀ r : Reg, r.kind = .virtual → ∃ found, RangeStore.seed store r = .ok found) :
    (collect store req set).stop =
      (req.seeds.findSome? (Reg.refusal? req.refClass)).map .refused := by
  unfold collect
  cases hfind : req.seeds.findSome? (Reg.refusal? req.refClass) with
  | some refusal => rfl
  | none =>
    -- no seed is refused, so all are virtual and the store knows their ranges
    refine gather_stop_eq_none_iff.2 fun r hr => h r ?_
    exact (Reg.refusal?_eq_none_iff.1 (List.findSome?_eq_none_iff.1 hfind r hr)).1

/-! ### Outcomes -/

/-- A move that stops ends the run. -/
theorem propagate_outcome_of_move (sw : Switches) {stop : Stop}
    (h : (FlowGraph.empty.addMoves store req.refClass moves).stop = some stop) :
    (propagate sw store moves req).outcome = stop.outcome := by
  unfold propagate survey
  dsimp only
  rw [h]

/-- After moves that were all taken, a seed that stops ends the run. -/
theorem propagate_outcome_of_seed (sw : Switches) {stop : Stop}
    (hmoves : (FlowGraph.empty.addMoves store req.refClass moves).stop = none)
    (h : (Seeding.collect store req ∅).stop = some stop) :
    (propagate sw store moves req).outcome = stop.outcome := by
  unfold propagate survey
  dsimp only
  rw [hmoves]
  dsimp only
  rw [h]

/-- A run comes to its end exactly if neither moves nor seeds stop. -/
theorem exists_outcome_eq_finished_iff (sw : Switches) :
    (∃ s, (propagate sw store moves req).outcome = .finished s) ↔
      (FlowGraph.empty.addMoves store req.refClass moves).stop = none ∧
        (Seeding.collect store req ∅).stop = none := by
  constructor
  -- only a survey that came to its end is followed by a summary
  · rintro ⟨s, hs⟩
    obtain ⟨found, log, hsurvey, -, -⟩ := propagate_eq_finished hs
    obtain ⟨hmoves, hseeds, -⟩ := survey_eq_ok hsurvey
    exact ⟨hmoves, hseeds⟩
  · rintro ⟨hmoves, hseeds⟩
    unfold propagate survey
    dsimp only
    rw [hmoves]
    dsimp only
    rw [hseeds]
    exact ⟨_, rfl⟩

end Store

/-- A register that cannot be a seed: it is real, or it is not of the class that carries references. -/
def Reg.BadSeed (c : RegClass) (r : Reg) : Prop := r.kind = .real ∨ r.cls ≠ c

instance (c : RegClass) (r : Reg) : Decidable (r.BadSeed c) := inferInstanceAs (Decidable (_ ∨ _))

theorem Reg.refusal?_eq_none_iff_not_badSeed {c : RegClass} {r : Reg} :
    r.refusal? c = none ↔ ¬ r.BadSeed c := by
  have hkind : r.kind = .virtual ↔ ¬ r.kind = .real := by cases r.kind <;> simp
  rw [refusal?_eq_none_iff, hkind]
  unfold BadSeed
  rw [not_or, ne_eq, not_not]

/-- The run is refused for the cause `r`, which is told with this code and in this text. -/
structure Outcome.Refuses (o : Outcome) (r : Refusal) (code : RefusalCode) (text : String) : Prop where
  outcome : o = .refused r
  code : r.code = code
  message : r.message = text

/-- The run ends for want of a range, which is told in this text. -/
structure Outcome.Misses (o : Outcome) (m : MissingRange) (text : String) : Prop where
  outcome : o = .faulted (.missing m)
  absence : RangeStore.absence Indexed m = text
  message : (Halt.mk (.missing m) .liveness).message = text

theorem Outcome.Misses.of_reported {o : Outcome} {m : MissingRange} {text : String}
    (h : o = .faulted (.missing m)) (htext : RangeStore.absence Indexed m = text) : o.Misses m text :=
  ⟨h, htext, htext⟩

namespace Liveness

/-! ### Causes read off the ranges -/

/-- No range with the kind and the number of `r` is live at `p`. -/
def Absent (l : Liveness) (r : Reg) (p : Point) : Prop := ∀ x, l.Numbered r x → ¬ l.Covers x p

instance (l : Liveness) (r : Reg) (p : Point) : Decidable (l.Absent r p) :=
  decidable_of_iff (∀ i < l.count r.kind, l.Numbered r ⟨r.kind, i⟩ → ¬ l.Covers ⟨r.kind, i⟩ p) <| by
    constructor
    -- a range with the kind and the number of `r` has an index below the count
    · intro h x hx
      have hnot := h x.index hx.lt_count
      rw [← hx.eq_site] at hnot
      exact hnot hx
    · intro h i _ hi
      exact h _ hi

/-- A move that cannot be taken: its operands differ in class, or it is of the class `c` and no range
of its source is live at the use, or none of its destination at the definition. -/
def BadMove (l : Liveness) (c : RegClass) (m : Move) : Prop :=
  m.Mixed ∨
    m.OfClass c ∧ (l.Absent m.src (.useOf m.instr) ∨ l.Absent m.dst (.defOf m.instr))

instance (l : Liveness) (c : RegClass) (m : Move) : Decidable (l.BadMove c m) :=
  inferInstanceAs (Decidable (_ ∨ _ ∧ (_ ∨ _)))

variable {l : Liveness} {c : RegClass} {moves : List Move} {req : Request}

namespace WellFormed

variable (hw : l.WellFormed)
include hw

/-- A lookup fails exactly where no range of the register is live, and reports just this. -/
theorem locate_eq_error_iff {r : Reg} {p : Point} {f : Fault} :
    Indexed.locate ⟨l, .ofLiveness l⟩ p r = .error f ↔ l.Absent r p ∧ f = .missing ⟨r, p⟩ := by
  -- a lookup finds the first live range, or there is none
  rcases hw.locate_cases r p with ⟨k, hrun, hfirst⟩ | ⟨hrun, hnone⟩
  · rw [hrun]
    refine iff_of_false (by simp) ?_
    rintro ⟨habsent, -⟩
    exact habsent _ hfirst.numbered hfirst.covers
  · rw [hrun, Except.error.injEq]
    constructor
    · rintro rfl
      exact ⟨hnone, rfl⟩
    · rintro ⟨-, rfl⟩
      rfl

/-- A register is missing exactly where it has no first live range. -/
theorem absent_iff_not_firstLive {r : Reg} {p : Point} :
    l.Absent r p ↔ ∀ x, ¬ l.FirstLive r p x := by
  constructor
  · intro habsent x hfirst
    exact habsent x hfirst.numbered hfirst.covers
  · intro hnone
    rcases hw.locate_cases r p with ⟨k, -, hfirst⟩ | ⟨-, habsent⟩
    · exact absurd hfirst (hnone k.site)
    · exact habsent

theorem exists_locate_iff {r : Reg} {p : Point} :
    (∃ k, Indexed.locate ⟨l, .ofLiveness l⟩ p r = .ok k) ↔ ¬ l.Absent r p := by
  rcases hw.locate_cases r p with ⟨k, hrun, hfirst⟩ | ⟨hrun, hnone⟩
  · rw [hrun]
    refine iff_of_true ⟨k, rfl⟩ ?_
    intro habsent
    exact habsent _ hfirst.numbered hfirst.covers
  · rw [hrun]
    refine iff_of_false (by simp) ?_
    exact not_not_intro hnone

/-- The source of a move is looked up first, so if both operands lack a range it is the one reported. -/
theorem resolve_eq_error_iff {m : Move} {f : Fault} :
    m.resolve (Indexed.mk l (.ofLiveness l)) = .error f ↔
      l.Absent m.src (.useOf m.instr) ∧ f = .missing ⟨m.src, .useOf m.instr⟩ ∨
      ¬ l.Absent m.src (.useOf m.instr) ∧
        l.Absent m.dst (.defOf m.instr) ∧ f = .missing ⟨m.dst, .defOf m.instr⟩ := by
  rw [Move.resolve_eq_error_iff]
  exact or_congr hw.locate_eq_error_iff (and_congr hw.exists_locate_iff hw.locate_eq_error_iff)

theorem stop?_of_source {m : Move} (hc : m.OfClass c) (hsrc : l.Absent m.src (.useOf m.instr)) :
    m.stop? (Indexed.mk l (.ofLiveness l)) c =
      some (.faulted (.missing ⟨m.src, .useOf m.instr⟩)) :=
  Move.stop?_of_error hc (hw.resolve_eq_error_iff.2 (Or.inl ⟨hsrc, rfl⟩))

theorem stop?_of_destination {m : Move} (hc : m.OfClass c)
    (hsrc : ¬ l.Absent m.src (.useOf m.instr)) (hdst : l.Absent m.dst (.defOf m.instr)) :
    m.stop? (Indexed.mk l (.ofLiveness l)) c =
      some (.faulted (.missing ⟨m.dst, .defOf m.instr⟩)) :=
  Move.stop?_of_error hc (hw.resolve_eq_error_iff.2 (Or.inr ⟨hsrc, hdst, rfl⟩))

/-- **Moves that can be taken** are those that are not bad. -/
theorem stop?_eq_none_iff {m : Move} :
    m.stop? (Indexed.mk l (.ofLiveness l)) c = none ↔ ¬ l.BadMove c m := by
  by_cases hmix : m.Mixed
  · simp [Move.stop?, BadMove, hmix]
  by_cases hc : m.OfClass c
  -- a move of the class: each operand has a range or has none
  · by_cases hsrc : l.Absent m.src (.useOf m.instr)
    · rw [hw.stop?_of_source hc hsrc]
      simp [BadMove, hc, hsrc]
    by_cases hdst : l.Absent m.dst (.defOf m.instr)
    · rw [hw.stop?_of_destination hc hsrc hdst]
      simp [BadMove, hc, hdst]
    · obtain ⟨src, hfrom⟩ := hw.exists_locate_iff.2 hsrc
      obtain ⟨dst, hto⟩ := hw.exists_locate_iff.2 hdst
      have hresolve : m.resolve (Indexed.mk l (.ofLiveness l)) = .ok ⟨m, src, dst⟩ :=
        Move.resolve_eq_ok_iff.2 ⟨rfl, hfrom, hto⟩
      simp [Move.stop?, BadMove, hmix, hc, hsrc, hdst, hresolve]
  · simp [Move.stop?, BadMove, hmix, hc]

/-- Whether and why a move cannot be taken depends on where registers are missing alone. -/
theorem stop?_congr {l' : Liveness} (hw' : l'.WellFormed)
    (h : ∀ r p, l'.Absent r p ↔ l.Absent r p) (m : Move) :
    m.stop? (Indexed.mk l' (.ofLiveness l')) c = m.stop? (Indexed.mk l (.ofLiveness l)) c := by
  by_cases hmix : m.Mixed
  · simp [Move.stop?, hmix]
  by_cases hc : m.OfClass c
  -- the first of source and destination to be missing is reported, the same one on both sides
  · by_cases hsrc : l.Absent m.src (.useOf m.instr)
    · rw [hw.stop?_of_source hc hsrc, hw'.stop?_of_source hc ((h _ _).2 hsrc)]
    have hsrc' : ¬ l'.Absent m.src (.useOf m.instr) := fun hs => hsrc ((h _ _).1 hs)
    by_cases hdst : l.Absent m.dst (.defOf m.instr)
    · rw [hw.stop?_of_destination hc hsrc hdst,
        hw'.stop?_of_destination hc hsrc' ((h _ _).2 hdst)]
    have hdst' : ¬ l'.Absent m.dst (.defOf m.instr) := fun hd => hdst ((h _ _).1 hd)
    have hgood : ¬ l.BadMove c m := by simp [BadMove, hmix, hc, hsrc, hdst]
    have hgood' : ¬ l'.BadMove c m := by simp [BadMove, hmix, hc, hsrc', hdst']
    rw [hw.stop?_eq_none_iff.2 hgood, hw'.stop?_eq_none_iff.2 hgood']
  · simp [Move.stop?, hmix, hc]

/-! ### The outcome of a run -/

/-- Moves are all taken exactly if none is bad. -/
theorem addMoves_stop_eq_none_iff {g : FlowGraph} :
    (g.addMoves (Indexed.mk l (.ofLiveness l)) c moves).stop = none ↔
      ∀ m ∈ moves, ¬ l.BadMove c m := by
  rw [FlowGraph.addMoves_stop, List.findSome?_eq_none_iff]
  exact forall₂_congr fun m _ => hw.stop?_eq_none_iff

/-- Seeds never fault: their ranges are known, or they have none. -/
theorem collect_stop {set : KeySet} :
    (Seeding.collect (Indexed.mk l (.ofLiveness l)) req set).stop =
      (req.seeds.findSome? (Reg.refusal? req.refClass)).map .refused := by
  refine Seeding.collect_stop set ?_
  intro r hr
  obtain ⟨found, hfound, -⟩ := hw.seed_eq_ok hr
  exact ⟨found, hfound⟩

/-- **The first bad move decides.** -/
theorem outcome_of_first_move (sw : Switches) {before after : List Move} {m : Move} {stop : Stop}
    (hmoves : moves = before ++ m :: after) (hbefore : ∀ b ∈ before, ¬ l.BadMove req.refClass b)
    (hm : m.stop? (Indexed.mk l (.ofLiveness l)) req.refClass = some stop) :
    (l.analyse sw moves req).outcome = stop.outcome := by
  -- good moves do not stop, so the first bad one is the first that does
  apply propagate_outcome_of_move
  rw [FlowGraph.addMoves_stop, List.findSome?_eq_some_iff]
  exact ⟨before, m, after, hmoves, hm, fun b hb => hw.stop?_eq_none_iff.2 (hbefore b hb)⟩

/-- **After good moves the first bad seed decides.** -/
theorem outcome_of_first_seed (sw : Switches) (hgood : ∀ m ∈ moves, ¬ l.BadMove req.refClass m)
    {before after : List Reg} {r : Reg} {refusal : Refusal}
    (hseeds : req.seeds = before ++ r :: after) (hbefore : ∀ q ∈ before, ¬ q.BadSeed req.refClass)
    (hr : r.refusal? req.refClass = some refusal) :
    (l.analyse sw moves req).outcome = .refused refusal := by
  -- seeds before it are not refused, and none faults once it is refused
  have hfirst : req.seeds.findSome? (Reg.refusal? req.refClass) = some refusal := by
    rw [List.findSome?_eq_some_iff]
    exact ⟨before, r, after, hseeds, hr,
      fun q hq => Reg.refusal?_eq_none_iff_not_badSeed.2 (hbefore q hq)⟩
  have hstop : (Seeding.collect (Indexed.mk l (.ofLiveness l)) req ∅).stop =
      some (.refused refusal) := by
    rw [hw.collect_stop, hfirst]
    rfl
  exact propagate_outcome_of_seed sw (hw.addMoves_stop_eq_none_iff.2 hgood) hstop

/-- **Nothing bad, no stop.** A run comes to its end exactly if no move and no seed is bad. -/
theorem exists_analyse_eq_finished_iff (sw : Switches) :
    (∃ s, (l.analyse sw moves req).outcome = .finished s) ↔
      (∀ m ∈ moves, ¬ l.BadMove req.refClass m) ∧ ∀ r ∈ req.seeds, ¬ r.BadSeed req.refClass := by
  refine (exists_outcome_eq_finished_iff sw).trans (and_congr hw.addMoves_stop_eq_none_iff ?_)
  rw [hw.collect_stop, Option.map_eq_none_iff, List.findSome?_eq_none_iff]
  exact forall₂_congr fun r _ => Reg.refusal?_eq_none_iff_not_badSeed

end WellFormed

/-- **How a run ends.** Over well-formed live ranges:

* if some move is bad, the first bad one decides: a refusal that names the move if its operands differ
  in class; else the source is reported missing at the use if none of its ranges is live there; else
  the destination is reported missing at the definition;
* if no move is bad but some seed is, the first bad seed decides: a refusal for being real, whatever
  its class, or else for its class;
* otherwise, and only then, the run comes to its end with a summary.

The texts that go with refusals and reports name the move, the register and the point, or the seed. -/
theorem analyse_outcome (hw : l.WellFormed) (sw : Switches) (moves : List Move) (req : Request) :
    (∀ before m after, moves = before ++ m :: after →
      (∀ b ∈ before, ¬ l.BadMove req.refClass b) →
        (m.Mixed → (l.analyse sw moves req).outcome.Refuses (.mixedMove m.dst m.src m.instr)
          .mixedMove ("move class mismatch: move " ++ m.dst.spelled ++ " := " ++ m.src.spelled ++
            " at instruction " ++ toString m.instr)) ∧
        (m.OfClass req.refClass → l.Absent m.src (.useOf m.instr) →
          (l.analyse sw moves req).outcome.Misses ⟨m.src, .useOf m.instr⟩
            ("reftypes analysis: can\x27t find range for " ++ m.src.spelled ++ " at " ++
              (toString m.instr ++ "/u"))) ∧
        (m.OfClass req.refClass → ¬ l.Absent m.src (.useOf m.instr) →
          l.Absent m.dst (.defOf m.instr) →
          (l.analyse sw moves req).outcome.Misses ⟨m.dst, .defOf m.instr⟩
            ("reftypes analysis: can\x27t find range for " ++ m.dst.spelled ++ " at " ++
              (toString m.instr ++ "/d")))) ∧
    ((∀ m ∈ moves, ¬ l.BadMove req.refClass m) →
      ∀ before r after, req.seeds = before ++ r :: after →
        (∀ q ∈ before, ¬ q.BadSeed req.refClass) →
          (r.kind = .real → (l.analyse sw moves req).outcome.Refuses (.realSeed r) .realSeed
            ("reftyped register is not virtual: " ++ r.spelled ++ " declared reference-typed")) ∧
          (r.kind = .virtual → r.cls ≠ req.refClass →
            (l.analyse sw moves req).outcome.Refuses (.foreignSeed r req.refClass) .foreignSeed
              ("reftyped register class mismatch: " ++ r.spelled ++
                " declared reference-typed but reference class is " ++ req.refClass.spelled))) ∧
    ((∃ s, (l.analyse sw moves req).outcome = .finished s) ↔
      (∀ m ∈ moves, ¬ l.BadMove req.refClass m) ∧ ∀ r ∈ req.seeds, ¬ r.BadSeed req.refClass) := by
  refine ⟨?_, ?_, hw.exists_analyse_eq_finished_iff sw⟩
  -- a move: mixed, or without a source, or with one and without a destination
  · intro before m after hmoves hbefore
    refine ⟨?_, ?_, ?_⟩
    · intro hmix
      exact ⟨hw.outcome_of_first_move sw hmoves hbefore (if_pos hmix), rfl,
        Refusal.message_mixedMove _ _ _⟩
    · intro hc hsrc
      exact .of_reported (hw.outcome_of_first_move sw hmoves hbefore (hw.stop?_of_source hc hsrc))
        (Indexed.reports _)
    · intro hc hsrc hdst
      exact .of_reported
        (hw.outcome_of_first_move sw hmoves hbefore (hw.stop?_of_destination hc hsrc hdst))
        (Indexed.reports _)
  -- a seed: real whatever its class, or virtual and of another class
  · intro hgood before r after hseeds hbefore
    refine ⟨?_, ?_⟩
    · intro hkind
      exact ⟨hw.outcome_of_first_seed sw hgood hseeds hbefore (if_pos hkind), rfl,
        Refusal.message_realSeed r⟩
    · intro hkind hcls
      have hrefusal : r.refusal? req.refClass = some (.foreignSeed r req.refClass) := by
        simp [Reg.refusal?, hkind, hcls]
      exact ⟨hw.outcome_of_first_seed sw hgood hseeds hbefore hrefusal, rfl,
        Refusal.message_foreignSeed r req.refClass⟩

/-- A copy `r3 := v0` that can be taken, one of another class whose registers have no ranges, the copy
`v1 := v0` before `v1` is live, and a copy between classes. -/
def hastyMoves : List Move := [
  ⟨⟨.real, .i64, 3⟩, ⟨.virtual, .i64, 0⟩, 1, 1⟩, ⟨⟨.virtual, .f32, 8⟩, ⟨.virtual, .f32, 7⟩, 1, 1⟩,
  ⟨⟨.virtual, .i64, 1⟩, ⟨.virtual, .i64, 0⟩, 1, 1⟩, ⟨⟨.virtual, .f64, 9⟩, ⟨.virtual, .i64, 0⟩, 1, 1⟩]

/-- The third of the hasty moves is the first bad one. Without the first three, the one between classes
is. The seeds are bad in either way, with good ones in front. -/
theorem analyse_outcome_looping :
    looping.WellFormed ∧
      (looping.analyse .off hastyMoves ⟨.i64, []⟩).outcome.Misses ⟨⟨.virtual, .i64, 1⟩, .defOf 1⟩
        "reftypes analysis: can\x27t find range for v1:I64 at 1/d" ∧
      (looping.analyse .off (hastyMoves.drop 3) ⟨.i64, []⟩).outcome.Refuses
        (.mixedMove ⟨.virtual, .f64, 9⟩ ⟨.virtual, .i64, 0⟩ 1) .mixedMove
        "move class mismatch: move v9:F64 := v0:I64 at instruction 1" ∧
      (looping.analyse .off loopingMoves
        ⟨.i64, [⟨.virtual, .i64, 0⟩, ⟨.real, .f64, 3⟩, ⟨.virtual, .f64, 9⟩]⟩).outcome.Refuses
          (.realSeed ⟨.real, .f64, 3⟩) .realSeed
          "reftyped register is not virtual: r3:F64 declared reference-typed" ∧
      (looping.analyse .off loopingMoves
        ⟨.i64, [⟨.virtual, .i64, 0⟩, ⟨.virtual, .f64, 9⟩]⟩).outcome.Refuses
          (.foreignSeed ⟨.virtual, .f64, 9⟩ .i64) .foreignSeed
          ("reftyped register class mismatch: v9:F64 declared reference-typed" ++
            " but reference class is I64") ∧
      ∃ s, (looping.analyse .off loopingMoves ⟨.i64, [⟨.virtual, .i64, 0⟩]⟩).outcome =
        .finished s := by
  have hw : looping.WellFormed := by decide
  have hgood : ∀ m ∈ loopingMoves, ¬ looping.BadMove .i64 m := by decide
  refine ⟨hw, ?_, ?_, ?_, ?_, ?_⟩
  · obtain ⟨hmoves, -, -⟩ := analyse_outcome hw .off hastyMoves ⟨.i64, []⟩
    obtain ⟨-, -, hdst⟩ := hmoves (hastyMoves.take 2) _ (hastyMoves.drop 3) rfl (by decide)
    exact hdst (by decide) (by decide) (by decide)
  · obtain ⟨hmoves, -, -⟩ := analyse_outcome hw .off (hastyMoves.drop 3) ⟨.i64, []⟩
    obtain ⟨hmixed, -, -⟩ := hmoves [] _ [] rfl (by decide)
    exact hmixed (by decide)
  · obtain ⟨-, hseeds, -⟩ := analyse_outcome hw .off loopingMoves
      ⟨.i64, [⟨.virtual, .i64, 0⟩, ⟨.real, .f64, 3⟩, ⟨.virtual, .f64, 9⟩]⟩
    exact (hseeds hgood [⟨.virtual, .i64, 0⟩] _ _ rfl (by decide)).1 rfl
  · obtain ⟨-, hseeds, -⟩ := analyse_outcome hw .off loopingMoves
      ⟨.i64, [⟨.virtual, .i64, 0⟩, ⟨.virtual, .f64, 9⟩]⟩
    exact (hseeds hgood [⟨.virtual, .i64, 0⟩] _ _ rfl (by decide)).2 rfl (by decide)
  · obtain ⟨-, -, hfinished⟩ := analyse_outcome hw .off loopingMoves ⟨.i64, [⟨.virtual, .i64, 0⟩]⟩
    exact hfinished.2 ⟨hgood, by decide⟩

end Liveness

end RefFlow
