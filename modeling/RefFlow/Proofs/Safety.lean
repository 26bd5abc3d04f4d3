import RefFlow.Proofs.InRange
import RefFlow.Proofs.Influence
/-!
# Runs never leave their tables

Indices of ranges are filed in a directory, packed into keys, kept in a graph, in a set of seeds, in the
state of a search and in a list of ranges to mark, and are unpacked again to mark a range. That none of
them ever points outside is one invariant of the moments of a run:

* the store is sound (`Indexed.Sound`): its live ranges are well formed and its directory is up to
  date. A mark keeps this, and no other step writes to the store;
* all keys that the run has in its hands denote ranges (`Stage.Safe`). New keys come from the store, whose
  answers denote ranges (`Indexed.Sound.answers`), and no mark takes a range away.

The checks on the seeds are part of the invariant too: only virtual registers get to the stage that
asks for the ranges of a seed, which is what asking requires.

Main statements:

* `Liveness.denotes_iff` — the key of a range can be taken apart, and its index is that of a range;
* `Indexed.Sound.answers` — what a sound store answers;
* `Moment.Safe.next`, `Moment.Leads.safe` — a step and a whole run keep the invariant;
* `Liveness.analyse_safe` — every moment of every run over well-formed live ranges.
-/

namespace RefFlow

/-! ### Keys that denote ranges -/

namespace Liveness

/-- Whoever asks a key for the index of its kind is given one, and it is the index of a range of that
kind. -/
def Denotes (l : Liveness) (k : RangeKey) : Prop :=
  match k.kind with
  | .real => ∃ i, k.realIndex? = .ok i ∧ i < l.pinned.size
  | .virtual => ∃ i, k.virtualIndex? = .ok i ∧ i < l.virtuals.size

theorem denotes_iff {l : Liveness} {k : RangeKey} : l.Denotes k ↔ (l.reg? k.site).isSome := by
  rw [isSome_reg?_iff]
  show _ ↔ k.index < l.count k.kind
  unfold Denotes RangeKey.realIndex? RangeKey.virtualIndex?
  cases hkind : k.kind <;> simp [count]

/-- Marking takes no range away and adds none. -/
theorem denotes_mark_iff {l : Liveness} {j k : RangeKey} : (l.mark j).Denotes k ↔ l.Denotes k := by
  rw [denotes_iff, denotes_iff, reg?_eq_of_unmarkAll (unmarkAll_mark l j)]

end Liveness

/-! ### Sound stores -/

namespace Indexed

/-- The live ranges are well formed and the directory is up to date. -/
structure Sound (s : Indexed) : Prop where
  wellFormed : s.live.WellFormed
  upToDate : s.dir = .ofLiveness s.live

/-- What a run can ask of a store has an answer, and the answer is in range. -/
structure Answers (s : Indexed) : Prop where
  /-- Every index of a range or a segment that is stored lies inside its table. -/
  inRange : s.InRange
  /-- A search in the segments of a range reads segments of the pool alone. -/
  pinned : ∀ r ∈ s.live.pinned, ∀ p, (r.segs.covers s.live.pool p).isSome
  /-- A search in segments that are held in place reads these alone. -/
  virtuals : ∀ r ∈ s.live.virtuals, ∀ p, (holds? (r.segs.items[·]?) r.segs.items.size p).isSome
  /-- A lookup names a range, or reports that there is none. -/
  locate : ∀ p r, (∃ k, s.locate p r = .ok k ∧ s.live.Denotes k) ∨
    s.locate p r = .error (.missing ⟨r, p⟩)
  /-- The ranges of a virtual register are all named. -/
  seed : ∀ r : Reg, r.kind = .virtual →
    ∃ found, s.seed r = .ok found ∧ ∀ k ∈ found.keys, s.live.Denotes k

end Indexed

namespace Liveness.WellFormed

variable {l : Liveness} (hw : l.WellFormed)
include hw

/-- The directory of well-formed live ranges lists ranges, and the indices of segments denote
segments. -/
theorem inRange : (Indexed.mk l (.ofLiveness l)).InRange := by
  have hlisted : ∀ kind (n : Nat) is i, (Directory.ofLiveness l).lookup kind n = some is → i ∈ is →
      i < l.count kind := by
    intro kind n is i hlookup hi
    have hmem : i ∈ ((Directory.ofLiveness l).lookup kind n).getD [] := by rwa [hlookup]
    exact ((Directory.mem_lookup_iff (r := ⟨kind, .invalid, n⟩) (hw.count_lt kind)).1 hmem).lt_count
  -- a list of the directory stands at the number of a register
  refine ⟨?_, ?_, ?_⟩
  · intro is his i hi
    obtain ⟨n, hn, rfl⟩ := Array.getElem_of_mem his
    exact hlisted .real n _ i (Array.getElem?_eq_getElem hn) hi
  · intro is his i hi
    obtain ⟨n, hn, rfl⟩ := Array.getElem_of_mem his
    exact hlisted .virtual n _ i (Array.getElem?_eq_getElem hn) hi
  · intro r hr i hi
    obtain ⟨segs, hresolve, -⟩ := (hw.pinned r hr).segs
    exact SegmentRefs.lt_size_of_resolve hresolve i hi

theorem answers : (Indexed.mk l (.ofLiveness l)).Answers := by
  have hdenotes : ∀ {r : Reg} {k : RangeKey}, l.Numbered r k.site → l.Denotes k := fun hk =>
    denotes_iff.2 (isSome_reg?_of_numbered hk)
  have hrange := hw.inRange
  refine ⟨hrange, ?_, ?_, ?_, ?_⟩
  · intro r hr p
    exact SegmentRefs.isSome_covers p (hrange.segments r hr)
  -- held in place, all segments can be read
  · intro r hr p
    refine isSome_holds? p fun i hi => ?_
    rw [Array.getElem?_eq_getElem hi]
    rfl
  · intro p r
    rcases hw.locate_cases r p with ⟨k, hrun, hfirst⟩ | ⟨hrun, -⟩
    · exact Or.inl ⟨k, hrun, hdenotes hfirst.numbered⟩
    · exact Or.inr hrun
  · intro r hr
    obtain ⟨found, hrun, hkeys, -⟩ := hw.seed_eq_ok hr
    exact ⟨found, hrun, fun k hk => hdenotes ((hkeys k).1 hk)⟩

end Liveness.WellFormed

namespace Indexed

namespace Sound

/-- **A mark keeps a store sound.** -/
theorem mark {s : Indexed} (h : s.Sound) (k : RangeKey) : (s.mark k).Sound := by
  have hmark := Liveness.unmarkAll_mark s.live k
  refine ⟨h.wellFormed.of_bare (Liveness.bare_eq_of_unmarkAll hmark), h.upToDate.trans ?_⟩
  exact (Directory.ofLiveness_congr (Liveness.reg?_eq_of_unmarkAll hmark)).symm

/-- **The answers of a sound store.** -/
theorem answers {s : Indexed} (h : s.Sound) : s.Answers := by
  have hstore : s = ⟨s.live, .ofLiveness s.live⟩ := by rw [← h.upToDate]
  rw [hstore]
  exact h.wellFormed.answers

end Sound

namespace Answers

variable {s : Indexed} (h : s.Answers)
include h

theorem denotes_of_locate {p : Point} {r : Reg} {k : RangeKey} (hk : s.locate p r = .ok k) :
    s.live.Denotes k := by
  rcases h.locate p r with ⟨j, hj, hdenotes⟩ | hmissing
  · rw [hk] at hj
    rwa [Except.ok.inj hj]
  · rw [hk] at hmissing
    cases hmissing

/-- The ranges that a move is resolved to are there. -/
theorem denotes_of_resolve {m : Move} {r : ResolvedMove} (hr : m.resolve s = .ok r) :
    s.live.Denotes r.src ∧ s.live.Denotes r.dst := by
  obtain ⟨-, hsrc, hdst⟩ := Move.resolve_eq_ok_iff.1 hr
  exact ⟨h.denotes_of_locate hsrc, h.denotes_of_locate hdst⟩

/-- A move that is not resolved lacks a range. -/
theorem missing_of_resolve {m : Move} {f : Fault} (hf : m.resolve s = .error f) :
    ∃ missing, f = .missing missing := by
  -- it is a lookup that failed, and a sound store fails in one way only
  obtain ⟨p, r, hlocate⟩ := Move.resolve_eq_error hf
  have hlocate : s.locate p r = .error f := hlocate
  rcases h.locate p r with ⟨k, hk, -⟩ | hmissing
  · rw [hlocate] at hk
    cases hk
  · rw [hlocate] at hmissing
    exact ⟨⟨r, p⟩, Except.error.inj hmissing⟩

end Answers

end Indexed

/-! ### The keys that a run has in its hands -/

/-- All members of a set of keys have a property. -/
def KeySet.All (P : RangeKey → Prop) (s : KeySet) : Prop := ∀ k, k ∈ s → P k

/-- All sources and all targets in a graph have a property. -/
def FlowGraph.AllKeys (P : RangeKey → Prop) (g : FlowGraph) : Prop :=
  ∀ e ∈ g.adjacency, P e.1 ∧ e.2.All P

section AllKeys

variable {P : RangeKey → Prop}

theorem KeySet.All.empty : (∅ : KeySet).All P := fun k hk => absurd hk (KeySet.mem_empty k)

theorem KeySet.All.insert {s : KeySet} (h : s.All P) {k : RangeKey} (hk : P k) :
    (s.insert k).All P := by
  intro j hj
  rcases KeySet.mem_insert.1 hj with hj | rfl
  · exact h j hj
  · exact hk

theorem KeySet.All.insertAll {s : KeySet} (h : s.All P) {ks : List RangeKey}
    (hks : ∀ k ∈ ks, P k) : (s.insertAll ks).All P := by
  intro j hj
  rcases KeySet.mem_insertAll.1 hj with hj | hj
  · exact h j hj
  · exact hks j hj

/-- A link brings its own two keys alone. -/
theorem Adjacency.all_link {adj : Adjacency} (h : ∀ e ∈ adj, P e.1 ∧ e.2.All P)
    {src dst : RangeKey} (hsrc : P src) (hdst : P dst) :
    ∀ e ∈ adj.link src dst, P e.1 ∧ e.2.All P := by
  induction adj with
  | nil =>
    intro e he
    obtain rfl := List.mem_singleton.1 he
    exact ⟨hsrc, KeySet.All.empty.insert hdst⟩
  | cons d rest ih =>
    obtain ⟨⟨hd, htargets⟩, hrest⟩ := List.forall_mem_cons.1 h
    unfold link
    split
    · exact List.forall_mem_cons.2 ⟨⟨hd, htargets.insert hdst⟩, hrest⟩
    · exact List.forall_mem_cons.2 ⟨⟨hd, htargets⟩, ih hrest⟩

namespace FlowGraph.AllKeys

theorem empty : FlowGraph.empty.AllKeys P := fun _ he => absurd he List.not_mem_nil

theorem insertEdge {g : FlowGraph} (h : g.AllKeys P) {src dst : RangeKey} (hsrc : P src)
    (hdst : P dst) : (g.insertEdge src dst).AllKeys P := by
  unfold FlowGraph.insertEdge
  split
  · exact h
  · exact Adjacency.all_link h hsrc hdst

theorem target {g : FlowGraph} (h : g.AllKeys P) {a k : RangeKey} (hk : k ∈ g.targets a) : P k := by
  obtain ⟨e, he, hk⟩ := List.mem_flatMap.1 (Search.targets_subset g a hk)
  exact (h e he).2 k hk

/-- What can be reached from keys with a property along edges between such keys has it too. -/
theorem closure {g : FlowGraph} (h : g.AllKeys P) {seeds : KeySet} (hseeds : seeds.All P) :
    (g.closure seeds).All P := by
  intro k hk
  obtain ⟨a, ha, hak⟩ := FlowGraph.mem_closure_iff.1 hk
  exact hak.of_edge_closed (fun _ _ _ hedge => h.target hedge) (hseeds a ha)

end FlowGraph.AllKeys

/-- All keys that a search has visited, or still has to expand, have a property. -/
structure Search.AllKeys (P : RangeKey → Prop) (s : Search) : Prop where
  visited : s.visited.All P
  stack : ∀ k ∈ s.stack, P k

theorem Search.AllKeys.step {g : FlowGraph} (hg : g.AllKeys P) {s t : Search} (h : s.AllKeys P)
    (hstep : s.step g = some t) : t.AllKeys P := by
  obtain ⟨k, -, rfl⟩ := step_eq_some_iff.1 hstep
  refine ⟨?_, ?_⟩
  -- what is new is a target of the range that was expanded
  · intro j hj
    rcases mem_visited_expand.1 hj with hj | hj
    · exact h.visited j hj
    · exact hg.target hj
  · intro j hj
    rcases mem_stack_expand.1 hj with hj | ⟨hj, -⟩
    · exact h.stack j (List.mem_of_mem_erase hj)
    · exact hg.target hj

end AllKeys

/-! ### Safe stages -/

/-- The ends that a run may come to: a summary, a refusal, or a range that is missing. -/
def Outcome.Regular : Outcome → Prop
  | .finished _ => True
  | .refused _ => True
  | .faulted f => ∃ m, f = .missing m

/-- All keys that a stage has in its hands denote ranges. Of the seeds, those that were checked are
virtual, and only such ones are asked for their ranges. If the run has ended, it has ended as it may. -/
def Stage.Safe (req : Request) (l : Liveness) : Stage → Prop
  | .taking g _ => g.AllKeys l.Denotes
  | .checking g rest =>
    g.AllKeys l.Denotes ∧ ∀ r ∈ req.seeds, r ∈ rest ∨ r.kind = .virtual
  | .gathering g set rest =>
    g.AllKeys l.Denotes ∧ set.All l.Denotes ∧ ∀ r ∈ rest, r.kind = .virtual
  | .searching g seeds s =>
    g.AllKeys l.Denotes ∧ seeds.All l.Denotes ∧ s.AllKeys l.Denotes
  | .marking found rest =>
    found.graph.AllKeys l.Denotes ∧ found.seeds.All l.Denotes ∧ found.reached.All l.Denotes ∧
      ∀ k ∈ rest, l.Denotes k
  | .ended o => o.Regular

namespace Moment

/-- The invariant of a run. -/
structure Safe (req : Request) (t : Moment Indexed) : Prop where
  store : t.store.Sound
  stage : t.stage.Safe req t.store.live

variable {req : Request} {s : Indexed} {g : FlowGraph} {t u : Moment Indexed}

/-! ### Where a step leads from a safe stage -/

theorem safe_of_taking {moves : List Move} (hs : s.Sound) (hg : g.AllKeys s.live.Denotes)
    (h : next req ⟨s, .taking g moves⟩ = some u) : u.Safe req := by
  cases moves with
  | nil =>
    cases h
    exact ⟨hs, hg, fun r hr => Or.inl hr⟩
  | cons m rest =>
    simp only [next] at h
    split at h
    · cases h
      exact ⟨hs, trivial⟩
    split at h
    · cases h
      exact ⟨hs, hg⟩
    -- a move of the class: a range is missing, or two ranges become an edge
    split at h
    · next f hf =>
      cases h
      exact ⟨hs, hs.answers.missing_of_resolve hf⟩
    · next r hr =>
      cases h
      obtain ⟨hsrc, hdst⟩ := hs.answers.denotes_of_resolve hr
      have hcounted : g.countMove.countRefMove.AllKeys s.live.Denotes := hg
      exact ⟨hs, hcounted.insertEdge hsrc hdst⟩

theorem safe_of_checking {rest : List Reg} (hs : s.Sound) (hg : g.AllKeys s.live.Denotes)
    (hseeds : ∀ r ∈ req.seeds, r ∈ rest ∨ r.kind = .virtual)
    (h : next req ⟨s, .checking g rest⟩ = some u) : u.Safe req := by
  cases rest with
  | nil =>
    cases h
    refine ⟨hs, hg, KeySet.All.empty, fun r hr => ?_⟩
    exact (hseeds r hr).resolve_left List.not_mem_nil
  | cons q rest =>
    simp only [next] at h
    split at h
    · cases h
      exact ⟨hs, trivial⟩
    -- a seed that passes its check is virtual, and the others wait as before
    · next hq =>
      cases h
      refine ⟨hs, hg, fun r hr => ?_⟩
      rcases hseeds r hr with hmem | hvirtual
      · rcases List.mem_cons.1 hmem with rfl | hmem
        · exact Or.inr (Reg.refusal?_eq_none_iff.1 hq).1
        · exact Or.inl hmem
      · exact Or.inr hvirtual

theorem safe_of_gathering {set : KeySet} {rest : List Reg} (hs : s.Sound)
    (hg : g.AllKeys s.live.Denotes) (hset : set.All s.live.Denotes)
    (hrest : ∀ r ∈ rest, r.kind = .virtual)
    (h : next req ⟨s, .gathering g set rest⟩ = some u) : u.Safe req := by
  cases rest with
  | nil =>
    cases h
    exact ⟨hs, hg, hset, hset, hset⟩
  | cons r rest =>
    obtain ⟨hr, hrest⟩ := List.forall_mem_cons.1 hrest
    -- a virtual register has an answer, so this step does not fault
    obtain ⟨found, hfound, hkeys⟩ := hs.answers.seed r hr
    have hseed : RangeStore.seed s r = .ok found := hfound
    simp only [next, hseed] at h
    cases h
    exact ⟨hs, hg, hset.insertAll hkeys, hrest⟩

theorem safe_of_searching {seeds : KeySet} {search : Search} (hs : s.Sound)
    (hg : g.AllKeys s.live.Denotes) (hseeds : seeds.All s.live.Denotes)
    (hsearch : search.AllKeys s.live.Denotes)
    (h : next req ⟨s, .searching g seeds search⟩ = some u) : u.Safe req := by
  simp only [next] at h
  split at h
  · next search' hstep =>
    cases h
    exact ⟨hs, hg, hseeds, hsearch.step hg hstep⟩
  -- the search is over: what it has visited is what is to be marked
  · cases h
    refine ⟨hs, hg, hseeds, hg.closure hseeds, fun k hk => ?_⟩
    exact hsearch.visited k (KeySet.mem_byName.1 hk)

/-- A mark leaves the ranges in place, so what denoted a range before denotes one after it. -/
theorem safe_of_marking {found : Survey} {rest : List RangeKey} (hs : s.Sound)
    (hsafe : (Stage.marking found rest).Safe req s.live)
    (h : next req ⟨s, .marking found rest⟩ = some u) : u.Safe req := by
  cases rest with
  | nil =>
    cases h
    exact ⟨hs, trivial⟩
  | cons k rest =>
    cases h
    refine ⟨hs.mark k, ?_⟩
    -- the mark is all that changed, so the keys in hand stay good
    have hdenotes : (s.live.mark k).Denotes = s.live.Denotes := by
      ext j
      exact Liveness.denotes_mark_iff
    obtain ⟨hgraph, hseeds, hreached, hrest⟩ := hsafe
    show (Stage.marking found rest).Safe req (s.live.mark k)
    unfold Stage.Safe
    rw [hdenotes]
    exact ⟨hgraph, hseeds, hreached, (List.forall_mem_cons.1 hrest).2⟩

/-- **A step keeps a run safe.** -/
theorem Safe.next (ht : t.Safe req) (h : t.next req = some u) : u.Safe req := by
  obtain ⟨s, stage⟩ := t
  obtain ⟨hs, hstage⟩ := ht
  -- one case for each stage
  cases stage with
  | taking g moves => exact safe_of_taking hs hstage h
  | checking g rest => exact safe_of_checking hs hstage.1 hstage.2 h
  | gathering g set rest => exact safe_of_gathering hs hstage.1 hstage.2.1 hstage.2.2 h
  | searching g seeds search => exact safe_of_searching hs hstage.1 hstage.2.1 hstage.2.2 h
  | marking found rest => exact safe_of_marking hs hstage h
  | ended o => cases h

/-- **A run stays safe.** -/
theorem Leads.safe (h : Leads req t u) (ht : t.Safe req) : u.Safe req := by
  -- from the start on, one step after the other
  induction h with
  | refl => exact ht
  | tail _ hnext ih => exact ih.next hnext

theorem safe_start {l : Liveness} (hw : l.WellFormed) (moves : List Move) :
    (start (Indexed.mk l (.ofLiveness l)) moves).Safe req :=
  ⟨⟨hw, rfl⟩, FlowGraph.AllKeys.empty⟩

end Moment

/-- **Runs over well-formed live ranges are safe**, whatever the moves, the class and the seeds. A run
comes to an end, and that is a summary, a refusal, or a range that is missing. At every moment until then
whatever can be asked of the store has an answer that is in range; all keys in the graph, among the
seeds' ranges, in the search and among the ranges to mark denote ranges of their kinds; and only virtual
registers are asked for the ranges of a seed. If the survey comes to its end, one of the moments is that
at which all it has found is still to be marked, and all of that denotes ranges. -/
theorem Liveness.analyse_safe {l : Liveness} (hw : l.WellFormed) (sw : Switches)
    (moves : List Move) (req : Request) :
    Moment.Leads req (.start (Indexed.mk l (.ofLiveness l)) moves)
        ⟨(l.analyse sw moves req).store, .ended (l.analyse sw moves req).outcome⟩ ∧
      (l.analyse sw moves req).outcome.Regular ∧
      (∀ t, Moment.Leads req (.start (Indexed.mk l (.ofLiveness l)) moves) t →
        t.store.Answers ∧ t.stage.Safe req t.store.live) ∧
      ∀ found log, survey (Indexed.mk l (.ofLiveness l)) moves req = (.ok found, log) →
        Moment.Leads req (.start (Indexed.mk l (.ofLiveness l)) moves)
            ⟨⟨l, .ofLiveness l⟩, .marking found found.marking⟩ ∧
          ∀ k ∈ found.marking, l.Denotes k := by
  have hrun := propagate_leads sw (Indexed.mk l (.ofLiveness l)) moves req
  have hsafe : ∀ t, Moment.Leads req (.start (Indexed.mk l (.ofLiveness l)) moves) t → t.Safe req :=
    fun t ht => ht.safe (Moment.safe_start hw moves)
  refine ⟨hrun, (hsafe _ hrun).stage, ?_, ?_⟩
  · intro t ht
    exact ⟨(hsafe t ht).store.answers, (hsafe t ht).stage⟩
  · intro found log hfound
    have hsurvey := survey_leads (Indexed.mk l (.ofLiveness l)) moves req
    rw [hfound] at hsurvey
    obtain ⟨-, -, -, hmarking⟩ := (hsafe _ hsurvey).stage
    exact ⟨hsurvey, hmarking⟩

/-- A run that marks one range of a real register and three of virtual ones: it stands at the moment
before the first mark. The run after it has a move and a seed of no register, whose number lies far past
the end of the directory. -/
theorem Liveness.analyse_safe_looping :
    looping.WellFormed ∧
      (∃ found log, survey (Indexed.mk looping (.ofLiveness looping)) loopingMoves
          ⟨.i64, [⟨.virtual, .i64, 0⟩]⟩ = (.ok found, log) ∧
        found.summary = ⟨4, 4, 4, 2, 1, 3⟩ ∧
        Moment.Leads ⟨.i64, [⟨.virtual, .i64, 0⟩]⟩
          (.start (Indexed.mk looping (.ofLiveness looping)) loopingMoves)
          ⟨⟨looping, .ofLiveness looping⟩, .marking found found.marking⟩ ∧
        ∀ k ∈ found.marking, looping.Denotes k) ∧
      (looping.analyse .off [⟨.invalid, .invalid, 0, 1⟩] ⟨.invalid, [.invalid]⟩).outcome =
        .faulted (.missing ⟨.invalid, .useOf 0⟩) ∧
      (looping.analyse .off [⟨.invalid, .invalid, 0, 1⟩] ⟨.invalid, [.invalid]⟩).outcome.Regular ∧
      ∀ t, Moment.Leads ⟨.invalid, [.invalid]⟩
          (.start (Indexed.mk looping (.ofLiveness looping)) [⟨.invalid, .invalid, 0, 1⟩]) t →
        t.store.Answers ∧ t.stage.Safe ⟨.invalid, [.invalid]⟩ t.store.live := by
  have hw : looping.WellFormed := by decide
  obtain ⟨-, hregular, hmoments, -⟩ :=
    analyse_safe hw .off [⟨.invalid, .invalid, 0, 1⟩] ⟨.invalid, [.invalid]⟩
  obtain ⟨-, -, -, hmarking⟩ := analyse_safe hw .off loopingMoves ⟨.i64, [⟨.virtual, .i64, 0⟩]⟩
  have hfinished : (looping.analyse .off loopingMoves ⟨.i64, [⟨.virtual, .i64, 0⟩]⟩).outcome =
      .finished ⟨4, 4, 4, 2, 1, 3⟩ := by decide +kernel
  obtain ⟨found, log, hfound, hsummary, -⟩ := analyse_eq_finished hfinished
  exact ⟨hw, ⟨found, log, hfound, hsummary.symm, hmarking found log hfound⟩,
    by decide +kernel, hregular, hmoments⟩

end RefFlow
