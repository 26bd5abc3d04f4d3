import RefFlow.Proofs.Lookup
import RefFlow.Proofs.Marks
import RefFlow.Proofs.Survey
/-!
# The analysis is exact

On well-formed live ranges with an up-to-date directory, a run that comes to its end marks exactly
the ranges that a reference gets to. Keys and sites correspond, so the seeds and the edges of the
survey are the seeds and the copies between the ranges themselves; the search turns these into
reachability, and marking writes the result down.

Main statements:

* `Liveness.WellFormed.mem_reached_iff` — the survey reaches the keys of the ranges reached;
* `Liveness.WellFormed.marked_analyse_iff` — the marks after a run;
* `Liveness.analyse_exact` — the marks and all else after a run.
-/

namespace RefFlow

namespace Liveness

/-- The analysis through a directory that is up to date. -/
def analyse (l : Liveness) (sw : Switches) (moves : List Move) (req : Request) : Run Indexed :=
  l.propagate sw (.ofLiveness l) moves req

variable {l : Liveness} {moves : List Move} {req : Request}

theorem seeded_iff {seeds : List Reg} (hseeds : ∀ r ∈ seeds, r.kind = .virtual) {x : Site} :
    l.Seeded seeds x ↔ ∃ r ∈ seeds, l.Numbered r x := by
  constructor
  · rintro ⟨hkind, q, hq, r, hr, hindex⟩
    exact ⟨r, hr, hkind.trans (hseeds r hr).symm, q, hq, hindex.symm⟩
  · rintro ⟨r, hr, hkind, q, hq, hindex⟩
    exact ⟨hkind.trans (hseeds r hr), q, hq, r, hr, hindex.symm⟩

/-- **The keys of seeds** are those of the ranges that have the number of one. -/
theorem exists_seed_iff (hsize : l.virtuals.size ≤ RangeKey.lastIndex + 1) {seeds : List Reg}
    (hseeds : ∀ r ∈ seeds, r.kind = .virtual) {k : RangeKey} :
    (∃ r ∈ seeds, ∃ found, RangeStore.seed (Indexed.mk l (.ofLiveness l)) r = .ok found ∧
      k ∈ found.keys) ↔ l.Seeded seeds k.site := by
  rw [seeded_iff hseeds]
  -- a store finds one list of keys for a seed, and this has the keys of its ranges
  refine exists_congr fun r => and_congr_right fun hr => ?_
  obtain ⟨f, hf, hkeys, -⟩ := seed_eq_ok hsize (hseeds r hr)
  have hseed : RangeStore.seed (Indexed.mk l (.ofLiveness l)) r = .ok f := hf
  rw [hseed, ← hkeys]
  simp only [Except.ok.injEq, exists_eq_left']

/-- A run of the analysis that comes to its end marks what its survey reached. -/
theorem analyse_eq_finished {sw : Switches} {s : Summary}
    (h : (l.analyse sw moves req).outcome = .finished s) :
    ∃ found log, survey (Indexed.mk l (.ofLiveness l)) moves req = (.ok found, log) ∧
      s = found.summary ∧
      (l.analyse sw moves req).store = markAll (Indexed.mk l (.ofLiveness l)) found.marking :=
  propagate_eq_finished h

/-- A survey that stops ends the analysis with no range marked. -/
theorem analyse_of_error (sw : Switches) {stop : Stop} {log : List Entry}
    (h : survey (Indexed.mk l (.ofLiveness l)) moves req = (.error stop, log)) :
    (l.analyse sw moves req).outcome = stop.outcome ∧ (l.analyse sw moves req).store.live = l := by
  unfold analyse Liveness.propagate
  rw [propagate_of_error h]
  exact ⟨rfl, rfl⟩

/-- A survey that comes to its end has all that it reached marked. -/
theorem analyse_of_ok (sw : Switches) {found : Survey} {log : List Entry}
    (h : survey (Indexed.mk l (.ofLiveness l)) moves req = (.ok found, log)) :
    (l.analyse sw moves req).outcome = .finished found.summary ∧
      (l.analyse sw moves req).store = markAll (Indexed.mk l (.ofLiveness l)) found.marking := by
  unfold analyse Liveness.propagate
  rw [propagate_of_ok h]
  exact ⟨rfl, rfl⟩

namespace WellFormed

variable (hw : l.WellFormed)
include hw

omit hw in
/-- A range that a reference gets to is a range. -/
theorem isSome_reg?_of_reached {x : Site} (h : l.Reached moves req x) : (l.reg? x).isSome := by
  cases h with
  | seed hseed =>
    obtain ⟨-, q, hq, -⟩ := hseed
    rw [hq]
    rfl
  | copy _ hcopy =>
    obtain ⟨m, -, -, -, hdst⟩ := hcopy
    obtain ⟨-, q, hq, -⟩ := hdst.numbered
    rw [hq]
    rfl

/-- A move between the ranges that its operands are resolved to is a copy between them. -/
theorem exists_locate_iff_copies {c : RegClass} {a b : RangeKey} :
    (∃ m ∈ moves, m.OfClass c ∧
      RangeStore.locate (Indexed.mk l (.ofLiveness l)) (.useOf m.instr) m.src = .ok a ∧
      RangeStore.locate (Indexed.mk l (.ofLiveness l)) (.defOf m.instr) m.dst = .ok b) ↔
      l.Copies c moves a.site b.site :=
  exists_congr fun _ => and_congr_right fun _ => and_congr_right fun _ =>
    and_congr hw.locate_eq_ok_iff hw.locate_eq_ok_iff

section Survey

variable {found : Survey} {log : List Entry}
  (h : survey (Indexed.mk l (.ofLiveness l)) moves req = (.ok found, log))
include h

/-- The edges of the survey are the copies between ranges. -/
theorem edge_iff_copies {a b : RangeKey} :
    found.graph.Edge a b ↔ l.Copies req.refClass moves a.site b.site :=
  (survey_edge_iff h).trans hw.exists_locate_iff_copies

/-- The seeds' ranges of the survey are those with the number of a seed. -/
theorem mem_seeds_iff_seeded {k : RangeKey} : k ∈ found.seeds ↔ l.Seeded req.seeds k.site := by
  rw [survey_mem_seeds_iff h]
  exact exists_seed_iff hw.virtual_size fun r hr => (survey_seed_mem h hr).1

/-- **The survey reaches** the keys of the ranges that a reference gets to. -/
theorem mem_reached_iff {k : RangeKey} : k ∈ found.reached ↔ l.Reached moves req k.site := by
  rw [Survey.mem_reached_iff]
  constructor
  -- being reached is closed under edges, which are copies
  · rintro ⟨a, ha, hak⟩
    have hseed : l.Reached moves req a.site := .seed ((hw.mem_seeds_iff_seeded h).1 ha)
    refine hak.of_edge_closed (P := fun j => l.Reached moves req j.site) ?_ hseed
    intro i j hi hij
    exact .copy hi ((hw.edge_iff_copies h).1 hij)
  -- from a site back to its key, which every range has
  · suffices hsite : ∀ x, l.Reached moves req x → ∀ j : RangeKey, j.site = x →
        ∃ a, a ∈ found.seeds ∧ found.graph.Reaches a j from fun hk => hsite _ hk k rfl
    intro x hx
    induction hx with
    | seed hseed =>
      rintro j rfl
      exact ⟨j, (hw.mem_seeds_iff_seeded h).2 hseed, .refl⟩
    | @copy a b _ hcopy ih =>
      rintro j rfl
      obtain ⟨m, -, -, hsrc, -⟩ := id hcopy
      have hlt : a.index < l.count a.kind := by
        rw [hsrc.numbered.1]
        exact hsrc.numbered.lt_count
      -- the range copied from has a key too, and that is reached by induction
      obtain ⟨i, -, hi⟩ := hw.exists_key hlt
      obtain ⟨s, hs, hsi⟩ := ih i hi
      exact ⟨s, hs, .tail hsi ((hw.edge_iff_copies h).2 (hi.symm ▸ hcopy))⟩

/-- **The marking names** exactly the ranges that a reference gets to. -/
theorem exists_mem_marking_iff {x : Site} :
    (l.reg? x).isSome ∧ (∃ k ∈ found.marking, k.site = x) ↔ l.Reached moves req x := by
  -- every key that was reached names a range, and every range reached has a key
  constructor
  · rintro ⟨-, k, hk, rfl⟩
    exact (hw.mem_reached_iff h).1 (Survey.mem_marking_iff.1 hk)
  · intro hx
    have hsome := isSome_reg?_of_reached hx
    obtain ⟨k, -, rfl⟩ := hw.exists_key (isSome_reg?_iff.1 hsome)
    exact ⟨hsome, k, Survey.mem_marking_iff.2 ((hw.mem_reached_iff h).2 hx), rfl⟩

end Survey

/-- **The marks after a run** are those before it and the ranges that a reference gets to. -/
theorem marked_analyse_iff {sw : Switches} {s : Summary} {x : Site}
    (h : (l.analyse sw moves req).outcome = .finished s) :
    (l.analyse sw moves req).store.live.Marked x ↔ l.Marked x ∨ l.Reached moves req x := by
  obtain ⟨found, log, hsurvey, -, hstore⟩ := analyse_eq_finished h
  rw [hstore, Indexed.marked_markAll_iff]
  exact or_congr_right (hw.exists_mem_marking_iff hsurvey)

/-- From no marks, the marks after a run are the ranges that a reference gets to. -/
theorem marked_analyse_iff_reached (hclean : l.Unmarked) {sw : Switches} {s : Summary}
    (h : (l.analyse sw moves req).outcome = .finished s) {x : Site} :
    (l.analyse sw moves req).store.live.Marked x ↔ l.Reached moves req x := by
  rw [hw.marked_analyse_iff h, or_iff_right (hclean x)]

end WellFormed

/-- Whatever the directory and the outcome, a run changes marks alone. -/
theorem unmarkAll_propagate (l : Liveness) (sw : Switches) (dir : Directory) (moves : List Move)
    (req : Request) : (l.propagate sw dir moves req).store.live.unmarkAll = l.unmarkAll := by
  -- a run that is stopped leaves the store, and one that is not only marks in it
  show (RefFlow.propagate sw (Indexed.mk l dir) moves req).store.live.unmarkAll = _
  unfold RefFlow.propagate
  split
  · rfl
  · exact Indexed.unmarkAll_markAll _ _

theorem unmarkAll_analyse (l : Liveness) (sw : Switches) (moves : List Move) (req : Request) :
    (l.analyse sw moves req).store.live.unmarkAll = l.unmarkAll :=
  unmarkAll_propagate l sw (.ofLiveness l) moves req

/-- **The analysis is exact.** After a run that comes to its end, the live ranges differ from those
before in marks alone, and a range is marked if and only if it was marked before or a reference gets
to it: from a range numbered like a seed, in zero or more copies, each made by a move of the reference
class from the first range of its source live at the use to the first range of its destination live
at the definition. -/
theorem analyse_exact (hw : l.WellFormed) {sw : Switches} {s : Summary}
    (h : (l.analyse sw moves req).outcome = .finished s) :
    (l.analyse sw moves req).store.live.unmarkAll = l.unmarkAll ∧
      ∀ x, (l.analyse sw moves req).store.live.Marked x ↔ l.Marked x ∨ l.Reached moves req x :=
  ⟨unmarkAll_analyse l sw moves req, fun _ => hw.marked_analyse_iff h⟩

/-- `v0` has two ranges, `v1` one, and `r3` one with its segment in the pool; the range of `v9` is
marked already. -/
def looping : Liveness where
  pool := #[⟨.defOf 1, .useOf 2⟩]
  pinned := #[⟨⟨.real, .i64, 3⟩, ⟨#[0]⟩, false⟩]
  virtuals := #[
    ⟨⟨.virtual, .i64, 0⟩, none, ⟨#[⟨.defOf 0, .useOf 1⟩]⟩, false⟩,
    ⟨⟨.virtual, .i64, 1⟩, none, ⟨#[⟨.defOf 2, .useOf 5⟩]⟩, false⟩,
    ⟨⟨.virtual, .i64, 0⟩, none, ⟨#[⟨.defOf 3, .useOf 4⟩]⟩, false⟩,
    ⟨⟨.virtual, .f64, 9⟩, none, ⟨#[⟨.defOf 0, .useOf 4⟩]⟩, true⟩]

/-- A reference goes from `v0` through `r3` to `v1` and round and round between `v0` and `v1`. -/
def loopingMoves : List Move := [
  ⟨⟨.real, .i64, 3⟩, ⟨.virtual, .i64, 0⟩, 1, 1⟩, ⟨⟨.virtual, .i64, 1⟩, ⟨.real, .i64, 3⟩, 2, 1⟩,
  ⟨⟨.virtual, .i64, 0⟩, ⟨.virtual, .i64, 1⟩, 3, 1⟩,
  ⟨⟨.virtual, .i64, 1⟩, ⟨.virtual, .i64, 0⟩, 4, 1⟩]

theorem analyse_exact_looping :
    looping.WellFormed ∧
      (looping.analyse .off loopingMoves ⟨.i64, [⟨.virtual, .i64, 0⟩]⟩).outcome =
        .finished ⟨4, 4, 4, 2, 1, 3⟩ ∧
      (looping.analyse .off loopingMoves ⟨.i64, [⟨.virtual, .i64, 0⟩]⟩).store.live.unmarkAll =
        looping.unmarkAll ∧
      ∀ x, (looping.analyse .off loopingMoves ⟨.i64, [⟨.virtual, .i64, 0⟩]⟩).store.live.Marked x ↔
        looping.Marked x ∨ looping.Reached loopingMoves ⟨.i64, [⟨.virtual, .i64, 0⟩]⟩ x := by
  have hw : looping.WellFormed := by decide
  have hrun : (looping.analyse .off loopingMoves ⟨.i64, [⟨.virtual, .i64, 0⟩]⟩).outcome =
      .finished ⟨4, 4, 4, 2, 1, 3⟩ := by decide +kernel
  exact ⟨hw, hrun, analyse_exact hw hrun⟩

end Liveness

end RefFlow
