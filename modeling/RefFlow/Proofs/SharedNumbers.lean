import RefFlow.Proofs.Exactness
/-!
# Register numbers shared by classes

Ranges are looked up by the number of a register, and registers of different classes may share one.
So a range can hide behind an earlier range of another class, and a range of another class can be
taken for a seed's. This module says exactly when that harms a run.

A range is *shadowed* at a point if an earlier range of its number, but of another class, is live
there as well. Where ranges of one register are never live together, a range that is not shadowed is
the one a lookup finds (`Liveness.WellFormed.firstLive_or_shadowed`).

Main statements:

* `Liveness.WellFormed.reached_of_not_shadowed` — without a shadow no reference is lost;
* `Liveness.movesMarked_analyse_iff` — a run follows all moves exactly if every copy from or
  to a shadowed range is made up for elsewhere;
* `Liveness.marksPure_analyse_iff` — a run stays within the reference class exactly if neither a seed
  nor a copy leaves it.
-/

namespace RefFlow

namespace Liveness

/-! ### What is expected of the marks -/

/-- Ranges of one and the same register are never live at a common point. -/
def Exclusive (l : Liveness) : Prop :=
  ∀ x y r p, l.reg? x = some r → l.reg? y = some r → l.Covers x p → l.Covers y p → x = y

/-- All ranges of the seeds are marked. Registers agree here only with their class. -/
def SeedsMarked (l : Liveness) (seeds : List Reg) : Prop :=
  ∀ r ∈ seeds, ∀ x, l.reg? x = some r → l.Marked x

/-- Where the source of a move of the class `c` has a marked range that is live at the use, all ranges
of its destination that are live at the definition are marked. Registers agree here only with their
class. -/
def MovesMarked (l : Liveness) (c : RegClass) (moves : List Move) : Prop :=
  ∀ m ∈ moves, m.OfClass c →
    ∀ a, l.reg? a = some m.src → l.Covers a (.useOf m.instr) → l.Marked a →
      ∀ b, l.reg? b = some m.dst → l.Covers b (.defOf m.instr) → l.Marked b

/-- Only ranges of registers of the class `c` are marked. -/
def MarksPure (l : Liveness) (c : RegClass) : Prop :=
  ∀ x r, l.Marked x → l.reg? x = some r → r.cls = c

/-! ### Shadowed ranges -/

/-- An earlier range than the one at `x` is live at `p`, of the kind and number of `r` but of another
class. -/
def Shadowed (l : Liveness) (r : Reg) (p : Point) (x : Site) : Prop :=
  ∃ y q, l.Numbered r y ∧ l.reg? y = some q ∧ q.cls ≠ r.cls ∧ y.index < x.index ∧ l.Covers y p

/-- No reference is lost behind a shadow: whenever the source or the destination of a move of the
reference class is shadowed there, and a reference gets to the range of the source, it gets to that
of the destination in some other way. -/
def ShadowsHarmless (l : Liveness) (moves : List Move) (req : Request) : Prop :=
  ∀ m ∈ moves, m.OfClass req.refClass →
    ∀ a, l.reg? a = some m.src → l.Covers a (.useOf m.instr) →
    ∀ b, l.reg? b = some m.dst → l.Covers b (.defOf m.instr) →
      l.Shadowed m.src (.useOf m.instr) a ∨ l.Shadowed m.dst (.defOf m.instr) b →
      l.Reached moves req a → l.Reached moves req b

/-- No step of a reference leaves the reference class: all virtual ranges with the number of a seed
are of the class, and so is the range that is first live for the destination of a move whose source's
range a reference gets to. -/
structure KeepsClass (l : Liveness) (moves : List Move) (req : Request) : Prop where
  seeded : ∀ x r, l.Seeded req.seeds x → l.reg? x = some r → r.cls = req.refClass
  copied : ∀ a b r, l.Reached moves req a → l.Copies req.refClass moves a b → l.reg? b = some r →
    r.cls = req.refClass

variable {l : Liveness} {moves : List Move} {req : Request}

/-- A live range is the first of its number, or it is shadowed. -/
theorem WellFormed.firstLive_or_shadowed (hw : l.WellFormed) (hex : l.Exclusive) {r : Reg}
    {p : Point} {x : Site} (hx : l.reg? x = some r) (hp : l.Covers x p) :
    l.FirstLive r p x ∨ l.Shadowed r p x := by
  refine or_iff_not_imp_right.2 fun hns => ?_
  refine ⟨hw.numbered_of_reg? hx, hp, ?_⟩
  intro y hy hlt hcov
  obtain ⟨hkind, q, hq, hindex⟩ := hy
  -- an earlier live range of the number is of the class too, for it does not shadow this one
  have hcls : q.cls = r.cls := by
    refine Decidable.byContradiction fun hne => ?_
    exact hns ⟨y, q, ⟨hkind, q, hq, hindex⟩, hq, hne, hlt, hcov⟩
  -- kind, class and number agree, so it is the same register
  have hqr : q = r := Reg.ext ((hw.reg?_kind hq).trans hkind) hcls hindex
  have hyx : y = x := hex y x r p (hqr ▸ hq) hx hcov hp
  rw [hyx] at hlt
  exact Nat.lt_irrefl _ hlt

/-- Items that look alike under a map stand at one place, if no two places look alike. -/
private theorem eq_of_getElem?_map {α β : Type} {f : α → β} {xs : Array α} {i j : Nat} {b : β}
    (hnodup : (xs.toList.map f).Nodup) (hi : xs[i]?.map f = some b) (hj : xs[j]?.map f = some b) :
    i = j := by
  rw [← Array.getElem?_toList, ← List.getElem?_map] at hi hj
  obtain ⟨hlt, -⟩ := List.getElem?_eq_some_iff.1 hi
  exact (List.getElem?_inj hlt hnodup).1 (hi.trans hj.symm)

/-- Where every register has one range, ranges of one register are never live together. -/
theorem WellFormed.exclusive_of_nodup (hw : l.WellFormed)
    (hpinned : (l.pinned.toList.map (·.reg)).Nodup)
    (hvirtuals : (l.virtuals.toList.map (·.reg)).Nodup) : l.Exclusive := by
  -- two ranges of one register are of one kind, and there a register stands once
  intro x y r p hx hy _ _
  have hkind : x.kind = y.kind := (hw.reg?_kind hx).symm.trans (hw.reg?_kind hy)
  obtain ⟨kind, i⟩ := x
  obtain ⟨_, j⟩ := y
  obtain rfl : kind = _ := hkind
  congr 1
  cases kind with
  | real => exact eq_of_getElem?_map hpinned hx hy
  | virtual => exact eq_of_getElem?_map hvirtuals hx hy

/-! ### Runs -/

/-- A seed is virtual and of the reference class if the run comes to its end. -/
theorem seed_of_analyse_eq_finished {sw : Switches} {s : Summary}
    (h : (l.analyse sw moves req).outcome = .finished s) {r : Reg} (hr : r ∈ req.seeds) :
    r.kind = .virtual ∧ r.cls = req.refClass := by
  obtain ⟨found, log, hsurvey, -, -⟩ := analyse_eq_finished h
  exact survey_seed_mem hsurvey hr

/-! ### References lost -/

/-- A reference is not lost where neither range of a move is shadowed: the lookups find just these
two. -/
theorem WellFormed.reached_of_not_shadowed (hw : l.WellFormed) (hex : l.Exclusive) {m : Move}
    (hm : m ∈ moves) (hc : m.OfClass req.refClass) {a b : Site}
    (ha : l.reg? a = some m.src) (hause : l.Covers a (.useOf m.instr))
    (hb : l.reg? b = some m.dst) (hbdef : l.Covers b (.defOf m.instr))
    (hsrc : ¬ l.Shadowed m.src (.useOf m.instr) a) (hdst : ¬ l.Shadowed m.dst (.defOf m.instr) b)
    (hreached : l.Reached moves req a) : l.Reached moves req b := by
  -- what is live and not shadowed is what the lookup finds, on both sides
  have hfirsta := (hw.firstLive_or_shadowed hex ha hause).resolve_right hsrc
  have hfirstb := (hw.firstLive_or_shadowed hex hb hbdef).resolve_right hdst
  exact .copy hreached ⟨m, hm, hc, hfirsta, hfirstb⟩

/-- **References missed.** From no marks, where ranges of one register are never live together, a run
that comes to its end marks all ranges of the seeds. It follows all moves if and only if no reference
is lost behind a shadow. -/
theorem movesMarked_analyse_iff (hw : l.WellFormed) (hex : l.Exclusive) (hclean : l.Unmarked)
    {sw : Switches} {s : Summary} (h : (l.analyse sw moves req).outcome = .finished s) :
    (l.analyse sw moves req).store.live.SeedsMarked req.seeds ∧
      ((l.analyse sw moves req).store.live.MovesMarked req.refClass moves ↔
        l.ShadowsHarmless moves req) := by
  have hframe := unmarkAll_analyse l sw moves req
  have hreg := reg?_eq_of_unmarkAll hframe
  have hcov := fun x p => @covers_iff_of_unmarkAll _ _ hframe x p
  have hmark := fun x => @hw.marked_analyse_iff_reached _ _ _ hclean _ _ h x
  refine ⟨?_, ?_, ?_⟩
  -- a range of the seed has the number of the seed
  · intro r hr x hx
    rw [hreg] at hx
    rw [hmark]
    have hkind : x.kind = .virtual :=
      (hw.reg?_kind hx).symm.trans (seed_of_analyse_eq_finished h hr).1
    exact .seed ⟨hkind, r, hx, r, hr, rfl⟩
  · intro hmoves m hm hc a ha hause b hb hbdef _ hreached
    rw [← hmark]
    exact hmoves m hm hc a ((hreg a).trans ha) ((hcov a _).2 hause) ((hmark a).2 hreached)
      b ((hreg b).trans hb) ((hcov b _).2 hbdef)
  -- behind a shadow there is another way by assumption, elsewhere the move itself is followed
  · intro hharmless m hm hc a ha hause hamark b hb hbdef
    rw [hreg] at ha hb
    rw [hcov] at hause hbdef
    rw [hmark] at hamark ⊢
    by_cases hshadow :
        l.Shadowed m.src (.useOf m.instr) a ∨ l.Shadowed m.dst (.defOf m.instr) b
    · exact hharmless m hm hc a ha hause b hb hbdef hshadow hamark
    · rw [not_or] at hshadow
      exact hw.reached_of_not_shadowed hex hm hc ha hause hb hbdef hshadow.1 hshadow.2 hamark

/-- Two ranges are live that share the number 1: of class F64 from 2 to 5, of class I64 from 1 to
4, the first of which shadows the second from 2 on. -/
def shadowing : Liveness where
  pool := #[]
  pinned := #[]
  virtuals := #[
    ⟨⟨.virtual, .f64, 1⟩, none, ⟨#[⟨.defOf 2, .useOf 5⟩]⟩, false⟩,
    ⟨⟨.virtual, .i64, 1⟩, none, ⟨#[⟨.defOf 1, .useOf 4⟩]⟩, false⟩,
    ⟨⟨.virtual, .i64, 0⟩, none, ⟨#[⟨.defOf 0, .useOf 1⟩]⟩, false⟩,
    ⟨⟨.virtual, .i64, 2⟩, none, ⟨#[⟨.defOf 3, .useOf 6⟩]⟩, false⟩]

/-- The copies `v1 := v0` before the shadow falls and `v2 := v1` after it. -/
def shadowedMoves : List Move :=
  [⟨⟨.virtual, .i64, 1⟩, ⟨.virtual, .i64, 0⟩, 1, 1⟩, ⟨⟨.virtual, .i64, 2⟩, ⟨.virtual, .i64, 1⟩, 3, 1⟩]

/-- The request for `v0` alone. -/
def shadowedRequest : Request := ⟨.i64, [⟨.virtual, .i64, 0⟩]⟩

theorem shadowing_wellFormed : shadowing.WellFormed := by decide

theorem shadowing_exclusive : shadowing.Exclusive :=
  shadowing_wellFormed.exclusive_of_nodup (by decide) (by decide)

theorem shadowing_unmarked : shadowing.Unmarked := unmarked_of_marks (by decide) (by decide)

theorem shadowing_outcome :
    (shadowing.analyse .off shadowedMoves shadowedRequest).outcome =
      .finished ⟨2, 2, 2, 1, 0, 2⟩ := by
  decide +kernel

/-- At instruction 1 the shadow has not fallen yet. -/
theorem shadowing_reached : shadowing.Reached shadowedMoves shadowedRequest ⟨.virtual, 1⟩ := by
  have hseed : shadowing.Reached shadowedMoves shadowedRequest ⟨.virtual, 2⟩ :=
    .seed ⟨rfl, _, rfl, ⟨.virtual, .i64, 0⟩, List.mem_cons_self, rfl⟩
  exact .copy hseed ⟨_, List.mem_cons_self, by decide, by decide, by decide⟩

/-- At instruction 3 the copy is taken to be one of the range that lies over that of `v1`. -/
theorem shadowing_not_reached :
    ¬ shadowing.Reached shadowedMoves shadowedRequest ⟨.virtual, 3⟩ := by
  -- a reference never gets past the ranges of `v0` and `v1`
  suffices h : ∀ x, shadowing.Reached shadowedMoves shadowedRequest x →
      x = ⟨.virtual, 2⟩ ∨ x = ⟨.virtual, 1⟩ by
    intro hreached
    exact absurd (h _ hreached) (by decide)
  intro x hx
  induction hx with
  | @seed x hseed =>
    obtain ⟨kind, i⟩ := x
    obtain ⟨rfl, q, hq, r, hr, hindex⟩ := hseed
    obtain rfl : r = ⟨.virtual, .i64, 0⟩ := List.mem_singleton.1 hr
    have honly : ∀ i < 4, shadowing.Numbered ⟨.virtual, .i64, 0⟩ ⟨.virtual, i⟩ → i = 2 := by decide
    have hi : i = 2 := honly i (lt_count_of_reg? hq) ⟨rfl, q, hq, hindex.symm⟩
    exact Or.inl (by rw [hi])
  | @copy a b _ hcopy ih =>
    obtain ⟨m, hm, -, hsrc, hdst⟩ := hcopy
    rcases List.mem_cons.1 hm with rfl | hm
    · exact Or.inr (hdst.unique (by decide))
    · obtain rfl := List.mem_singleton.1 hm
      have hcovering : a = ⟨.virtual, 0⟩ := hsrc.unique (by decide)
      rw [hcovering] at ih
      exact absurd ih (by decide)

theorem shadowing_not_movesMarked :
    ¬ (shadowing.analyse .off shadowedMoves shadowedRequest).store.live.MovesMarked .i64
      shadowedMoves := by
  intro hmoves
  have hframe := unmarkAll_analyse shadowing .off shadowedMoves shadowedRequest
  have hreg := reg?_eq_of_unmarkAll hframe
  have hcov := fun x p => @covers_iff_of_unmarkAll _ _ hframe x p
  have hmark := fun x => @WellFormed.marked_analyse_iff_reached _ _ _ shadowing_wellFormed
    shadowing_unmarked _ _ shadowing_outcome x
  have hdst := hmoves ⟨⟨.virtual, .i64, 2⟩, ⟨.virtual, .i64, 1⟩, 3, 1⟩ (by decide) (by decide)
    ⟨.virtual, 1⟩ (hreg _) ((hcov _ _).2 (by decide)) ((hmark _).2 shadowing_reached)
    ⟨.virtual, 3⟩ (hreg _) ((hcov _ _).2 (by decide))
  exact shadowing_not_reached ((hmark _).1 hdst)

/-- A reference that is copied into a shadowed register is lost with the next copy. -/
theorem reference_lost_behind_shadow :
    ¬ ∀ (l : Liveness) (moves : List Move) (req : Request) (sw : Switches) (s : Summary),
      l.WellFormed → l.Exclusive → l.Unmarked → (l.analyse sw moves req).outcome = .finished s →
      (l.analyse sw moves req).store.live.SeedsMarked req.seeds ∧
        (l.analyse sw moves req).store.live.MovesMarked req.refClass moves := by
  intro hclaim
  obtain ⟨-, hmoves⟩ := hclaim _ _ _ _ _ shadowing_wellFormed shadowing_exclusive
    shadowing_unmarked shadowing_outcome
  exact shadowing_not_movesMarked hmoves

/-- The shadow over `v1` does harm. -/
theorem shadowing_not_harmless :
    shadowing.WellFormed ∧ shadowing.Exclusive ∧ shadowing.Unmarked ∧
      (shadowing.analyse .off shadowedMoves shadowedRequest).outcome =
        .finished ⟨2, 2, 2, 1, 0, 2⟩ ∧
      (shadowing.analyse .off shadowedMoves shadowedRequest).store.live.SeedsMarked
        [⟨.virtual, .i64, 0⟩] ∧
      ¬ shadowing.ShadowsHarmless shadowedMoves shadowedRequest := by
  obtain ⟨hseeds, hiff⟩ := movesMarked_analyse_iff shadowing_wellFormed shadowing_exclusive
    shadowing_unmarked shadowing_outcome
  refine ⟨shadowing_wellFormed, shadowing_exclusive, shadowing_unmarked, shadowing_outcome,
    hseeds, ?_⟩
  intro hharmless
  exact shadowing_not_movesMarked (hiff.2 hharmless)

/-! ### Marks outside the class -/

/-- **Ranges of other classes marked.** From no marks, a run that comes to its end marks ranges of
the reference class alone if and only if no step of a reference leaves the class. -/
theorem marksPure_analyse_iff (hw : l.WellFormed) (hclean : l.Unmarked) {sw : Switches}
    {s : Summary} (h : (l.analyse sw moves req).outcome = .finished s) :
    (l.analyse sw moves req).store.live.MarksPure req.refClass ↔ l.KeepsClass moves req := by
  have hreg := reg?_eq_of_unmarkAll (unmarkAll_analyse l sw moves req)
  have hmark := fun x => @hw.marked_analyse_iff_reached _ _ _ hclean _ _ h x
  constructor
  · intro hpure
    refine ⟨?_, ?_⟩
    · intro x r hseed hx
      exact hpure x r ((hmark x).2 (.seed hseed)) ((hreg x).trans hx)
    · intro a b r hreached hcopy hb
      exact hpure b r ((hmark b).2 (.copy hreached hcopy)) ((hreg b).trans hb)
  -- by the last step of the reference: from a seed, or along a copy
  · intro hkeeps x r hx hr
    rw [hreg] at hr
    cases (hmark x).1 hx with
    | seed hseed => exact hkeeps.seeded x r hseed hr
    | copy hreached hcopy => exact hkeeps.copied _ x r hreached hcopy hr

/-- Two virtual registers of the number 1, of class I64 from 0 to 1 and of class F64 from 2 to 3. -/
def renumbered : Liveness where
  pool := #[]
  pinned := #[]
  virtuals := #[
    ⟨⟨.virtual, .i64, 1⟩, none, ⟨#[⟨.defOf 0, .useOf 1⟩]⟩, false⟩,
    ⟨⟨.virtual, .f64, 1⟩, none, ⟨#[⟨.defOf 2, .useOf 3⟩]⟩, false⟩]

theorem renumbered_wellFormed : renumbered.WellFormed := by decide

theorem renumbered_unmarked : renumbered.Unmarked := unmarked_of_marks (by decide) (by decide)

theorem renumbered_outcome :
    (renumbered.analyse .off [] ⟨.i64, [⟨.virtual, .i64, 1⟩]⟩).outcome =
      .finished ⟨0, 0, 0, 2, 0, 2⟩ := by
  decide +kernel

theorem renumbered_not_marksPure :
    ¬ (renumbered.analyse .off [] ⟨.i64, [⟨.virtual, .i64, 1⟩]⟩).store.live.MarksPure .i64 := by
  intro hpure
  have hreg := reg?_eq_of_unmarkAll
    (unmarkAll_analyse renumbered .off [] ⟨.i64, [⟨.virtual, .i64, 1⟩]⟩) ⟨.virtual, 1⟩
  -- the range of class F64 has the number of the seed
  have hreached : renumbered.Reached [] ⟨.i64, [⟨.virtual, .i64, 1⟩]⟩ ⟨.virtual, 1⟩ :=
    .seed ⟨rfl, _, rfl, ⟨.virtual, .i64, 1⟩, List.mem_cons_self, rfl⟩
  have hmark := (renumbered_wellFormed.marked_analyse_iff_reached renumbered_unmarked
    renumbered_outcome).2 hreached
  exact absurd (hpure _ _ hmark hreg) (by decide)

/-- A range of class F64 is marked for a seed of class I64. -/
theorem float_marked_as_reference :
    ¬ ∀ (l : Liveness) (moves : List Move) (req : Request) (sw : Switches) (s : Summary),
      l.WellFormed → l.Unmarked → (l.analyse sw moves req).outcome = .finished s →
      (l.analyse sw moves req).store.live.MarksPure req.refClass := by
  intro hclaim
  exact renumbered_not_marksPure
    (hclaim _ _ _ _ _ renumbered_wellFormed renumbered_unmarked renumbered_outcome)

/-- The class is left by the seed itself. -/
theorem renumbered_not_keepsClass :
    renumbered.WellFormed ∧ renumbered.Unmarked ∧
      (renumbered.analyse .off [] ⟨.i64, [⟨.virtual, .i64, 1⟩]⟩).outcome =
        .finished ⟨0, 0, 0, 2, 0, 2⟩ ∧
      ¬ renumbered.KeepsClass [] ⟨.i64, [⟨.virtual, .i64, 1⟩]⟩ := by
  refine ⟨renumbered_wellFormed, renumbered_unmarked, renumbered_outcome, ?_⟩
  intro hkeeps
  exact renumbered_not_marksPure
    ((marksPure_analyse_iff renumbered_wellFormed renumbered_unmarked renumbered_outcome).2 hkeeps)

end Liveness

end RefFlow
