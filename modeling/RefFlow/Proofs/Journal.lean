import RefFlow.Proofs.Intake
import RefFlow.Proofs.Partition
import RefFlow.Proofs.Words
/-!
# What a log tells

Entries are written at five places of a run, and a run can stop between them: at any of its moves, and
at its seeds. Which entries a stopped run has left is a matter of where it stopped alone. It has left
one for each move of the reference class before that place, and if it got past the moves, the graph;
one for each range of each seed only if no seed stopped it; and the marks and the counts only if it came
to its end.

A journal has the entries by their places. It is the same for all settings of the switches, which only
choose the lines that are shown. These lines are spelled out here, with the names of registers and
ranges in them.

Main definitions and statements:

* `Journal` — the entries of a run, and `Journal.lines` what is shown of them, word by word;
* `FlowGraph.resolved_addMoves` — the moves that an intake tells of, by one move after the other;
* `Seeding.notes_gather` — what is told of seeds that were all taken;
* `Liveness.Tells` — the journal that belongs to an outcome;
* `Liveness.log_faithful` — the log of every run.
-/

namespace RefFlow

/-! ### Entries by their places -/

/-- The entries of a run behind the header of its log. -/
structure Journal where
  moves : List ResolvedMove
  graph : Option FlowGraph
  seeds : List SeedNote
  marked : List RangeKey
  summary : Option Summary
  deriving DecidableEq, Repr

namespace Journal

/-- The journal of a run that got no further than its moves. -/
def ofMoves (moves : List ResolvedMove) : Journal := ⟨moves, none, [], [], none⟩

def entries (j : Journal) : List Entry :=
  j.moves.map .resolved ++ (j.graph.toList.map .graph ++
    (j.seeds.map .seed ++ (j.marked.map .reached ++ j.summary.toList.map .summary)))

/-- What is shown of a move. -/
def moveLine (r : ResolvedMove) : String :=
  "move from " ++ r.move.src.spelled ++ " (range " ++ r.src.site.spelled ++ ") to " ++
    r.move.dst.spelled ++ " (range " ++ r.dst.site.spelled ++ ") at inst " ++ toString r.move.instr

/-- What is shown of a graph: its numbers, and on a line of its own each range with an edge. -/
def graphLines (g : FlowGraph) : List String :=
  ("MoveGraph: " ++ toString g.sourceCount ++ " sources, " ++ toString g.edges.toNat ++ " edges") ::
    g.byName.map fun e => "  " ++ e.1.site.spelled ++ " ->" ++
      String.join (e.2.toList.map fun k => " " ++ k.site.spelled)

/-- What is shown of a seed. -/
def seedLine : SeedNote → String
  | .carries k r => "range " ++ k.site.spelled ++ " is reffy due to reffy vreg " ++ r.spelled
  | .rangeless r => "reffy vreg " ++ r.spelled ++ " has no ranges"

/-- What is shown of a range that is marked. -/
def markLine (k : RangeKey) : String := " -> range " ++ k.site.spelled ++ " is reffy"

/-- What is shown of the counts. -/
def summaryLine (s : Summary) : String :=
  "reftypes: " ++ toString s.moves.toNat ++ " moves, " ++ toString s.refMoves.toNat ++
    " reference class moves, " ++ toString s.edges.toNat ++ " edges, " ++
    toString s.seedRanges.toNat ++ " seed ranges, marked " ++ toString s.markedReal.toNat ++
    " real and " ++ toString s.markedVirtual.toNat ++ " virtual ranges"

/-- The lines that are shown. The graph stands between the moves and the seeds. -/
def lines (sw : Switches) (j : Journal) : List String :=
  (if sw.steps then j.moves.map moveLine else []) ++
  (if sw.graph then j.graph.toList.flatMap graphLines else []) ++
  (if sw.steps then j.seeds.map seedLine ++ j.marked.map markLine else []) ++
  (if sw.summary then j.summary.toList.map summaryLine else [])

theorem lines_resolved (r : ResolvedMove) : (Entry.resolved r).lines = [moveLine r] := by
  unfold Entry.lines ResolvedMove.line moveLine
  simp only [Reg.text_eq_spelled, RangeKey.text_eq_spelled]

theorem lines_graph (g : FlowGraph) : (Entry.graph g).lines = graphLines g := by
  unfold Entry.lines FlowGraph.lines graphLines
  refine congrArg₂ List.cons rfl (List.map_congr_left fun e _ => ?_)
  simp [FlowGraph.adjacencyLine, RangeKey.text_eq_spelled]

theorem lines_seed (n : SeedNote) : (Entry.seed n).lines = [seedLine n] := by
  cases n <;>
    simp [Entry.lines, SeedNote.line, seedLine, Reg.text_eq_spelled, RangeKey.text_eq_spelled]

theorem lines_reached (k : RangeKey) : (Entry.reached k).lines = [markLine k] := by
  simp [Entry.lines, markLine, RangeKey.text_eq_spelled]

theorem lines_summary (s : Summary) : (Entry.summary s).lines = [summaryLine s] := rfl

end Journal

/-- The first two lines of a log. -/
def Liveness.headerLines (l : Liveness) (moves : List Move) : List String :=
  ["********** REFTYPES ANALYSIS **********",
    "********** " ++ toString l.pinned.size ++ " real ranges, " ++ toString l.virtuals.size ++
      " virtual ranges, " ++ toString moves.length ++ " moves"]

/-- The entries that these lines belong to. -/
def Liveness.headerEntries (l : Liveness) (moves : List Move) : List Entry :=
  [.banner, .census l.pinned.size l.virtuals.size moves.length]

namespace Switches

/-- The lines of the entries that are shown. -/
def shownLines (sw : Switches) (es : List Entry) : List String :=
  (es.filter sw.shows).flatMap Entry.lines

theorem shownLines_append (sw : Switches) (es es' : List Entry) :
    sw.shownLines (es ++ es') = sw.shownLines es ++ sw.shownLines es' := by
  unfold shownLines
  rw [List.filter_append, List.flatMap_append]

/-- Entries of one channel are shown all, or none of them is. -/
theorem shownLines_map {α : Type} {sw : Switches} {f : α → Entry} {b : Bool}
    (h : ∀ x, sw.shows (f x) = b) (xs : List α) :
    sw.shownLines (xs.map f) = if b then xs.flatMap fun x => (f x).lines else [] := by
  unfold shownLines
  cases b with
  | true =>
    rw [List.filter_eq_self.2 (List.forall_mem_map.2 fun x _ => h x), List.flatMap_map, if_pos rfl]
  | false =>
    have hnone : (xs.map f).filter sw.shows = [] := by
      rw [List.filter_eq_nil_iff]
      refine List.forall_mem_map.2 fun x _ => ?_
      rw [h x]
      exact Bool.false_ne_true
    rw [hnone, if_neg Bool.false_ne_true, List.flatMap_nil]

theorem shownLines_map_of_lines {α : Type} {sw : Switches} {f : α → Entry} {b : Bool}
    (h : ∀ x, sw.shows (f x) = b) {line : α → String} (hline : ∀ x, (f x).lines = [line x])
    (xs : List α) : sw.shownLines (xs.map f) = if b then xs.map line else [] := by
  rw [shownLines_map h, List.map_eq_flatMap]
  simp only [hline]

theorem shownLines_header (sw : Switches) (l : Liveness) (moves : List Move) :
    sw.shownLines (l.headerEntries moves) = if sw.steps then l.headerLines moves else [] := by
  unfold shownLines Liveness.headerEntries
  cases hsteps : sw.steps <;> simp [shows, hsteps, Entry.lines, Liveness.headerLines]

/-- **What is shown of a journal.** -/
theorem shownLines_entries (sw : Switches) (j : Journal) :
    sw.shownLines j.entries = j.lines sw := by
  unfold Journal.entries Journal.lines
  simp only [shownLines_append]
  rw [shownLines_map_of_lines (b := sw.steps) (fun _ => rfl) Journal.lines_resolved j.moves,
    shownLines_map (b := sw.graph) (fun _ => rfl) j.graph.toList,
    shownLines_map_of_lines (b := sw.steps) (fun _ => rfl) Journal.lines_seed j.seeds,
    shownLines_map_of_lines (b := sw.steps) (fun _ => rfl) Journal.lines_reached j.marked,
    shownLines_map_of_lines (b := sw.summary) (fun _ => rfl) Journal.lines_summary j.summary.toList]
  -- seeds and marks stand next to each other on one channel
  cases sw.steps <;> simp [Journal.lines_graph]

end Switches

/-! ### What is told of moves -/

namespace FlowGraph

variable {σ : Type} [RangeStore σ] {store : σ} {c : RegClass} {moves : List Move}

/-- **The moves that are told** are those of the reference class before the one that stops, each with
what it was resolved to. -/
theorem resolved_addMoves (store : σ) (c : RegClass) (g : FlowGraph) (moves : List Move) :
    (g.addMoves store c moves).resolved.map ResolvedMove.move =
        (taken store c moves).filter (fun m => decide (m.OfClass c)) ∧
      ∀ r ∈ (g.addMoves store c moves).resolved, r.move.resolve store = .ok r := by
  -- by the moves that are left; only the graph changes from one to the next
  induction moves generalizing g with
  | nil => exact ⟨rfl, by simp⟩
  | cons m rest ih =>
    by_cases hmix : m.Mixed
    · rw [addMoves_cons_of_mixed hmix, taken_cons_of_stop (Move.stop?_of_mixed hmix)]
      exact ⟨rfl, by simp⟩
    by_cases hc : m.OfClass c
    · cases hr : m.resolve store with
      | error f =>
        rw [addMoves_cons_of_error hc hr, taken_cons_of_stop (Move.stop?_of_error hc hr)]
        exact ⟨rfl, by simp⟩
      -- the move itself is told, and then what the rest tells
      | ok r =>
        obtain ⟨hmoves, hresolve⟩ := ih (g.countMove.countRefMove.insertEdge r.src r.dst)
        obtain ⟨hmove, -, -⟩ := Move.resolve_eq_ok_iff.1 hr
        rw [addMoves_cons_of_ok hc hr, taken_cons_of_none (Move.stop?_of_ok hc hr),
          List.filter_cons_of_pos (by simpa using hc)]
        refine ⟨?_, List.forall_mem_cons.2 ⟨?_, hresolve⟩⟩
        · rw [List.map_cons, hmoves, hmove]
        · rwa [hmove]
    · rw [addMoves_cons_of_foreign hmix hc, taken_cons_of_none (Move.stop?_of_foreign hmix hc),
        List.filter_cons_of_neg (by simpa using hc)]
      exact ih _

/-- Before the first move that stops all are taken. -/
theorem taken_append_cons {before after : List Move} {m : Move} {stop : Stop}
    (hbefore : ∀ b ∈ before, b.stop? store c = none) (hm : m.stop? store c = some stop) :
    taken store c (before ++ m :: after) = before := by
  -- what is taken ends at the first move that stops
  have htaken : taken store c (before ++ m :: after) = before ++ taken store c (m :: after) :=
    List.takeWhile_append_of_pos fun b hb => by rw [hbefore b hb]; rfl
  rw [htaken, taken_cons_of_stop hm, List.append_nil]

end FlowGraph

/-! ### What is told of seeds -/

namespace Seeding

variable {σ : Type} [RangeStore σ] {store : σ}

/-- What a store has to tell of a seed. -/
def notesOf (store : σ) (r : Reg) : List SeedNote :=
  match RangeStore.seed store r with
  | .ok found => found.notes
  | .error _ => []

theorem notesOf_of_ok {r : Reg} {found : SeedFinding} (h : RangeStore.seed store r = .ok found) :
    notesOf store r = found.notes := by
  unfold notesOf
  rw [h]

/-- **The seeds that are told** are all, in their order. -/
theorem notes_gather {set : KeySet} {seeds : List Reg} (h : (gather store set seeds).stop = none) :
    (gather store set seeds).notes = seeds.flatMap (notesOf store) := by
  -- the set grows from seed to seed, and no note depends on it
  induction seeds generalizing set with
  | nil => rfl
  | cons r rest ih =>
    obtain ⟨found, hr⟩ := gather_stop_eq_none_iff.1 h r List.mem_cons_self
    rw [gather_cons_of_ok hr] at h ⊢
    rw [List.flatMap_cons, notesOf_of_ok hr]
    exact congrArg _ (ih h)

end Seeding

/-! ### Where a survey stops -/

section Survey

variable {σ : Type} [RangeStore σ] {store : σ} {moves : List Move} {req : Request}

theorem survey_of_move_stop {stop : Stop}
    (h : (FlowGraph.empty.addMoves store req.refClass moves).stop = some stop) :
    survey store moves req = (.error stop,
      (Journal.ofMoves (FlowGraph.empty.addMoves store req.refClass moves).resolved).entries) := by
  unfold survey
  dsimp only
  rw [h]
  simp [Journal.entries, Journal.ofMoves]

theorem survey_of_refusal {refusal : Refusal}
    (h : (FlowGraph.empty.addMoves store req.refClass moves).stop = none)
    (hrefused : req.seeds.findSome? (Reg.refusal? req.refClass) = some refusal) :
    survey store moves req = (.error (.refused refusal), Journal.entries
      ⟨(FlowGraph.empty.addMoves store req.refClass moves).resolved,
        some (FlowGraph.empty.addMoves store req.refClass moves).graph, [], [], none⟩) := by
  unfold survey Seeding.collect
  dsimp only
  rw [h, hrefused]
  simp [Journal.entries]

theorem survey_of_stop_eq_none
    (h : (FlowGraph.empty.addMoves store req.refClass moves).stop = none)
    (hseeds : (Seeding.collect store req ∅).stop = none) :
    ∃ found, survey store moves req = (.ok found, Journal.entries
      ⟨(FlowGraph.empty.addMoves store req.refClass moves).resolved, some found.graph,
        req.seeds.flatMap (Seeding.notesOf store), [], none⟩) := by
  obtain ⟨hcollect, -⟩ := Seeding.collect_of_stop_eq_none hseeds
  -- none was refused, so all were gathered
  have hnotes : (Seeding.collect store req ∅).notes = req.seeds.flatMap (Seeding.notesOf store) := by
    rw [hcollect] at hseeds ⊢
    exact Seeding.notes_gather hseeds
  refine ⟨⟨(FlowGraph.empty.addMoves store req.refClass moves).graph,
    (Seeding.collect store req ∅).set⟩, ?_⟩
  unfold survey
  dsimp only
  rw [h]
  dsimp only
  rw [hseeds, hnotes]
  simp [Journal.entries]

end Survey

namespace Liveness

variable {l : Liveness} {c : RegClass} {moves : List Move} {req : Request}

/-! ### Journals of runs over live ranges -/

/-- What is told of some moves: those of the class `c`, in their order, each with the first range of
its source live at the use and the first range of its destination live at the definition. -/
structure TellsMoves (l : Liveness) (c : RegClass) (moves : List Move) (rs : List ResolvedMove) :
    Prop where
  moves_eq : rs.map ResolvedMove.move = moves.filter fun m => decide (m.OfClass c)
  src : ∀ r ∈ rs, l.FirstLive r.move.src (.useOf r.move.instr) r.src.site
  dst : ∀ r ∈ rs, l.FirstLive r.move.dst (.defOf r.move.instr) r.dst.site

/-- What is told of one seed: if its number is beyond those of all ranges of virtual registers, that it
has no ranges; else each range with its number, in their order. -/
inductive TellsSeed (l : Liveness) (r : Reg) : List SeedNote → Prop
  | rangeless (hbeyond : ∀ v ∈ l.virtuals, v.reg.index < r.index) : TellsSeed l r [.rangeless r]
  | carries {ks : List RangeKey} (hwithin : ∃ v ∈ l.virtuals, r.index ≤ v.reg.index)
      (hkeys : ∀ k, k ∈ ks ↔ l.Numbered r k.site)
      (hascending : ks.Pairwise fun a b => a.index < b.index) :
      TellsSeed l r (ks.map (.carries · r))

/-- What is told of a list of seeds: of one after the other. -/
def TellsSeeds (l : Liveness) (seeds : List Reg) (notes : List SeedNote) : Prop :=
  ∃ told : Reg → List SeedNote, notes = seeds.flatMap told ∧ ∀ r ∈ seeds, l.TellsSeed r (told r)

/-- The edges of a graph are the copies that the moves make. -/
def TellsCopies (l : Liveness) (c : RegClass) (moves : List Move) (g : FlowGraph) : Prop :=
  ∀ a b : RangeKey, g.Edge a b ↔ l.Copies c moves a.site b.site

/-- The journal that belongs to an outcome. -/
inductive Tells (l : Liveness) (moves : List Move) (req : Request) : Outcome → Journal → Prop
  /-- A run that comes to its end tells everything. -/
  | finished {rs : List ResolvedMove} {g : FlowGraph} {notes : List SeedNote} {ks : List RangeKey}
      {s : Summary} (hmoves : l.TellsMoves req.refClass moves rs)
      (hgraph : l.TellsCopies req.refClass moves g) (hseeds : l.TellsSeeds req.seeds notes)
      (hnodup : ks.Nodup) (hreached : ∀ k, k ∈ ks ↔ l.Reached moves req k.site) :
      Tells l moves req (.finished s) ⟨rs, some g, notes, ks, some s⟩
  /-- A move between classes: only the moves before it are told. -/
  | mixed {before after : List Move} {m : Move} {rs : List ResolvedMove}
      (hsplit : moves = before ++ m :: after) (hgood : ∀ b ∈ before, ¬ l.BadMove req.refClass b)
      (hmixed : m.Mixed) (hmoves : l.TellsMoves req.refClass before rs) :
      Tells l moves req (.refused (.mixedMove m.dst m.src m.instr)) (.ofMoves rs)
  /-- A move whose source lacks a range, or else its destination: only the moves before it are told. -/
  | missing {before after : List Move} {m : Move} {r : Reg} {p : Point} {rs : List ResolvedMove}
      (hsplit : moves = before ++ m :: after) (hgood : ∀ b ∈ before, ¬ l.BadMove req.refClass b)
      (hclass : m.OfClass req.refClass)
      (hmissing : l.Absent m.src (.useOf m.instr) ∧ r = m.src ∧ p = .useOf m.instr ∨
        ¬ l.Absent m.src (.useOf m.instr) ∧
          l.Absent m.dst (.defOf m.instr) ∧ r = m.dst ∧ p = .defOf m.instr)
      (hmoves : l.TellsMoves req.refClass before rs) :
      Tells l moves req (.faulted (.missing ⟨r, p⟩)) (.ofMoves rs)
  /-- A seed that is refused: all moves are told and the graph, but no seed. -/
  | seed {before after : List Reg} {r : Reg} {refusal : Refusal} {rs : List ResolvedMove}
      {g : FlowGraph} (hgood : ∀ m ∈ moves, ¬ l.BadMove req.refClass m)
      (hsplit : req.seeds = before ++ r :: after) (hbefore : ∀ q ∈ before, ¬ q.BadSeed req.refClass)
      (hrefusal : r.refusal? req.refClass = some refusal)
      (hmoves : l.TellsMoves req.refClass moves rs)
      (hgraph : l.TellsCopies req.refClass moves g) :
      Tells l moves req (.refused refusal) ⟨rs, some g, [], [], none⟩

namespace WellFormed

variable (hw : l.WellFormed)
include hw

/-- The moves that are taken are told, whatever comes behind them. -/
theorem tellsMoves_of_taken {before : List Move}
    (htaken : FlowGraph.taken (Indexed.mk l (.ofLiveness l)) c moves = before) :
    l.TellsMoves c before
      (FlowGraph.empty.addMoves (Indexed.mk l (.ofLiveness l)) c moves).resolved := by
  obtain ⟨hmoves, hresolve⟩ :=
    FlowGraph.resolved_addMoves (Indexed.mk l (.ofLiveness l)) c FlowGraph.empty moves
  rw [htaken] at hmoves
  refine ⟨hmoves, fun r hr => ?_, fun r hr => ?_⟩
  · obtain ⟨-, hsrc, -⟩ := Move.resolve_eq_ok_iff.1 (hresolve r hr)
    exact hw.locate_eq_ok_iff.1 hsrc
  · obtain ⟨-, -, hdst⟩ := Move.resolve_eq_ok_iff.1 (hresolve r hr)
    exact hw.locate_eq_ok_iff.1 hdst

/-- The edges of moves that were all taken are copies. -/
theorem tellsCopies_of_stop_eq_none
    (h : (FlowGraph.empty.addMoves (Indexed.mk l (.ofLiveness l)) c moves).stop = none) :
    l.TellsCopies c moves (FlowGraph.empty.addMoves (Indexed.mk l (.ofLiveness l)) c moves).graph := by
  intro a b
  rw [FlowGraph.edge_addMoves_iff h, or_iff_right FlowGraph.not_edge_empty]
  exact hw.exists_locate_iff_copies

/-- What is told of a seed that is virtual. -/
theorem tellsSeed {r : Reg} (hr : r.kind = .virtual) :
    l.TellsSeed r (Seeding.notesOf (Indexed.mk l (.ofLiveness l)) r) := by
  obtain ⟨found, hfound, hkeys, hascending⟩ := hw.seed_eq_ok hr
  rw [Seeding.notesOf_of_ok hfound]
  -- the table of virtual registers reaches up to their largest number
  have hreach : r.index < (Directory.ofLiveness l).virtual.size ↔
      ∃ v ∈ l.virtuals, r.index ≤ v.reg.index := by
    have hnumbers := Directory.lt_size_table_iff (n := r.index) (hw.count_lt .virtual)
    simpa [Directory.numbers, Directory.table] using hnumbers
  unfold Indexed.seed at hfound
  rw [if_pos hr] at hfound
  dsimp only at hfound
  cases hlook : (Directory.ofLiveness l).lookup .virtual r.index with
  | none =>
    rw [hlook] at hfound
    obtain rfl := Except.ok.inj hfound
    have hend : ¬ r.index < (Directory.ofLiveness l).virtual.size :=
      Nat.not_lt.2 (Array.getElem?_eq_none_iff.1 hlook)
    refine .rangeless fun v hv => Nat.lt_of_not_le fun hle => hend ?_
    exact hreach.2 ⟨v, hv, hle⟩
  | some is =>
    rw [hlook] at hfound
    dsimp only at hfound
    split at hfound
    · cases hfound
    · next ks hks =>
      obtain rfl := Except.ok.inj hfound
      obtain ⟨hlt, -⟩ := Array.getElem?_eq_some_iff.1 hlook
      exact .carries (hreach.1 hlt) hkeys hascending

/-- **Moves that stop** are told up to the one that does. -/
theorem tells_of_move_stop {stop : Stop}
    (h : (FlowGraph.empty.addMoves (Indexed.mk l (.ofLiveness l)) req.refClass moves).stop =
      some stop) :
    l.Tells moves req stop.outcome (.ofMoves
      (FlowGraph.empty.addMoves (Indexed.mk l (.ofLiveness l)) req.refClass moves).resolved) := by
  rw [FlowGraph.addMoves_stop] at h
  obtain ⟨before, m, after, hsplit, hm, hbefore⟩ := List.findSome?_eq_some_iff.1 h
  have hgood : ∀ b ∈ before, ¬ l.BadMove req.refClass b :=
    fun b hb => hw.stop?_eq_none_iff.1 (hbefore b hb)
  have hmoves := hw.tellsMoves_of_taken (hsplit ▸ FlowGraph.taken_append_cons hbefore hm)
  -- what stops is a move between classes, or one that lacks a range
  by_cases hmixed : m.Mixed
  · rw [Move.stop?_of_mixed hmixed] at hm
    obtain rfl := Option.some.inj hm
    exact .mixed hsplit hgood hmixed hmoves
  by_cases hclass : m.OfClass req.refClass
  · cases hr : m.resolve (Indexed.mk l (.ofLiveness l)) with
    | ok r =>
      rw [Move.stop?_of_ok hclass hr] at hm
      cases hm
    | error f =>
      rw [Move.stop?_of_error hclass hr] at hm
      obtain rfl := Option.some.inj hm
      rcases hw.resolve_eq_error_iff.1 hr with ⟨hsrc, rfl⟩ | ⟨hsrc, hdst, rfl⟩
      · exact .missing hsplit hgood hclass (.inl ⟨hsrc, rfl, rfl⟩) hmoves
      · exact .missing hsplit hgood hclass (.inr ⟨hsrc, hdst, rfl, rfl⟩) hmoves
  · rw [Move.stop?_of_foreign hmixed hclass] at hm
    cases hm

/-- **A seed that is refused** comes after all moves, and before any seed is told. -/
theorem tells_of_refusal {refusal : Refusal}
    (hnone : (FlowGraph.empty.addMoves (Indexed.mk l (.ofLiveness l)) req.refClass moves).stop = none)
    (hrefused : req.seeds.findSome? (Reg.refusal? req.refClass) = some refusal) :
    l.Tells moves req (.refused refusal)
      ⟨(FlowGraph.empty.addMoves (Indexed.mk l (.ofLiveness l)) req.refClass moves).resolved,
        some (FlowGraph.empty.addMoves (Indexed.mk l (.ofLiveness l)) req.refClass moves).graph,
        [], [], none⟩ := by
  obtain ⟨before, r, after, hsplit, hr, hbefore⟩ := List.findSome?_eq_some_iff.1 hrefused
  exact .seed (hw.addMoves_stop_eq_none_iff.1 hnone) hsplit
    (fun q hq => Reg.refusal?_eq_none_iff_not_badSeed.1 (hbefore q hq)) hr
    (hw.tellsMoves_of_taken (FlowGraph.taken_of_stop_eq_none hnone))
    (hw.tellsCopies_of_stop_eq_none hnone)

/-- **A survey that comes to its end** has all told. -/
theorem tells_of_survey {found : Survey} {log : List Entry}
    (h : survey (Indexed.mk l (.ofLiveness l)) moves req = (.ok found, log)) :
    l.Tells moves req (.finished found.summary)
      ⟨(FlowGraph.empty.addMoves (Indexed.mk l (.ofLiveness l)) req.refClass moves).resolved,
        some found.graph, req.seeds.flatMap (Seeding.notesOf (Indexed.mk l (.ofLiveness l))),
        found.marking, some found.summary⟩ := by
  obtain ⟨hnone, -, -⟩ := survey_eq_ok h
  exact .finished (hw.tellsMoves_of_taken (FlowGraph.taken_of_stop_eq_none hnone))
    (fun _ _ => hw.edge_iff_copies h)
    ⟨_, rfl, fun r hr => hw.tellsSeed (survey_seed_mem h hr).1⟩ Survey.nodup_marking
    fun _ => Survey.mem_marking_iff.trans (hw.mem_reached_iff h)

end WellFormed

/-! ### Logs -/

/-- What is left of a run, for all settings of the switches alike but for the lines that are shown. -/
structure Leaves (l : Liveness) (moves : List Move) (req : Request) (sw : Switches) (o : Outcome)
    (s : Indexed) (j : Journal) : Prop where
  outcome : (l.analyse sw moves req).outcome = o
  store : (l.analyse sw moves req).store = s
  logLines : (l.analyse sw moves req).logLines =
    (if sw.steps then l.headerLines moves else []) ++ j.lines sw

theorem leaves_of_error {stop : Stop} {j : Journal}
    (h : survey (Indexed.mk l (.ofLiveness l)) moves req = (.error stop, j.entries))
    (sw : Switches) : l.Leaves moves req sw stop.outcome ⟨l, .ofLiveness l⟩ j := by
  have hrun : l.analyse sw moves req =
      Run.headed sw (l.headerEntries moves) ⟨stop.outcome, ⟨l, .ofLiveness l⟩,
        j.entries.filter sw.shows⟩ := by
    rw [← propagate_of_error h]
    rfl
  refine ⟨by rw [hrun]; rfl, by rw [hrun]; rfl, ?_⟩
  rw [hrun, ← sw.shownLines_header, ← sw.shownLines_entries]
  exact List.flatMap_append

theorem leaves_of_ok {found : Survey} {rs : List ResolvedMove} {notes : List SeedNote}
    (h : survey (Indexed.mk l (.ofLiveness l)) moves req =
      (.ok found, Journal.entries ⟨rs, some found.graph, notes, [], none⟩)) (sw : Switches) :
    l.Leaves moves req sw (.finished found.summary)
      (markAll ⟨l, .ofLiveness l⟩ found.marking)
      ⟨rs, some found.graph, notes, found.marking, some found.summary⟩ := by
  -- marks and counts come behind what the survey has told
  have hlog : Journal.entries ⟨rs, some found.graph, notes, [], none⟩ ++ found.markingLog =
      Journal.entries ⟨rs, some found.graph, notes, found.marking, some found.summary⟩ := by
    simp [Journal.entries, Survey.markingLog]
  have hrun : l.analyse sw moves req =
      Run.headed sw (l.headerEntries moves) ⟨.finished found.summary,
        markAll ⟨l, .ofLiveness l⟩ found.marking, (Journal.entries
          ⟨rs, some found.graph, notes, found.marking, some found.summary⟩).filter sw.shows⟩ := by
    rw [← hlog, ← propagate_of_ok h]
    rfl
  refine ⟨by rw [hrun]; rfl, by rw [hrun]; rfl, ?_⟩
  rw [hrun, ← sw.shownLines_header, ← sw.shownLines_entries]
  exact List.flatMap_append

/-- The journal of a run, and the marks that it tells of. -/
theorem WellFormed.exists_journal (hw : l.WellFormed) (moves : List Move) (req : Request) :
    ∃ o s j, (∀ sw, l.Leaves moves req sw o s j) ∧ l.Tells moves req o j ∧
      ∀ x, s.live.Marked x ↔ l.Marked x ∨ ∃ k ∈ j.marked, k.site = x := by
  -- a run ends at a move, at a seed, or with all ranges marked
  cases hmoves : (FlowGraph.empty.addMoves (Indexed.mk l (.ofLiveness l)) req.refClass moves).stop with
  | some stop =>
    exact ⟨_, _, _, leaves_of_error (survey_of_move_stop hmoves), hw.tells_of_move_stop hmoves,
      by simp [Journal.ofMoves]⟩
  | none =>
    cases hrefused : req.seeds.findSome? (Reg.refusal? req.refClass) with
    | some refusal =>
      exact ⟨_, _, _, leaves_of_error (survey_of_refusal hmoves hrefused),
        hw.tells_of_refusal hmoves hrefused, by simp⟩
    | none =>
      have hseeds : (Seeding.collect (Indexed.mk l (.ofLiveness l)) req ∅).stop = none := by
        rw [hw.collect_stop, hrefused, Option.map_none]
      obtain ⟨found, hsurvey⟩ := survey_of_stop_eq_none hmoves hseeds
      refine ⟨_, _, _, leaves_of_ok hsurvey, hw.tells_of_survey hsurvey, fun x => ?_⟩
      rw [Indexed.marked_markAll_iff]
      refine or_congr_right ⟨And.right, fun hx => ?_⟩
      -- what is told is reached, so it is a range
      obtain ⟨k, hk, rfl⟩ := hx
      exact (hw.exists_mem_marking_iff hsurvey).2
        ((hw.mem_reached_iff hsurvey).1 (Survey.mem_marking_iff.1 hk))

/-- **The log is faithful and without influence.** Over well-formed live ranges a run has a journal such
that:

* the journal tells of the run what belongs to its outcome;
* the ranges it tells as marked are those that the run marks;
* for every setting of the switches the outcome, the store and its marks are those with all of them off,
  and the log is the header and what is shown of the journal. -/
theorem log_faithful (hw : l.WellFormed) (moves : List Move) (req : Request) :
    ∃ j : Journal, l.Tells moves req (l.analyse .off moves req).outcome j ∧
      (∀ x, (l.analyse .off moves req).store.live.Marked x ↔
        l.Marked x ∨ ∃ k ∈ j.marked, k.site = x) ∧
      ∀ sw, (l.analyse sw moves req).outcome = (l.analyse .off moves req).outcome ∧
        (l.analyse sw moves req).store = (l.analyse .off moves req).store ∧
        (l.analyse sw moves req).logLines =
          (if sw.steps then l.headerLines moves else []) ++ j.lines sw := by
  obtain ⟨o, s, j, hleaves, htells, hmarks⟩ := hw.exists_journal moves req
  -- the journal is chosen before the switches, so it is the one of all settings
  have hoff := hleaves .off
  refine ⟨j, ?_, ?_, fun sw => ⟨?_, ?_, (hleaves sw).logLines⟩⟩
  · rwa [hoff.outcome]
  · rwa [hoff.store]
  · rw [(hleaves sw).outcome, hoff.outcome]
  · rw [(hleaves sw).store, hoff.store]

/-- One seed stands in the list twice, and one is beyond all ranges. -/
def loopingRequest : Request :=
  ⟨.i64, [⟨.virtual, .i64, 0⟩, ⟨.virtual, .i64, 12⟩, ⟨.virtual, .i64, 0⟩]⟩

/-- A run that finds `v1` missing tells of the one copy before that. A run that comes to its end tells of
all four copies and, in front of the marks, of its seeds in their order. -/
theorem log_faithful_looping :
    looping.WellFormed ∧
      (∃ j, looping.Tells hastyMoves ⟨.i64, []⟩
          (.faulted (.missing ⟨⟨.virtual, .i64, 1⟩, .defOf 1⟩)) j ∧
        j.lines ⟨true, true, true⟩ =
          ["move from v0:I64 (range VR0) to r3:I64 (range RR0) at inst 1"]) ∧
      ∃ j, looping.Tells loopingMoves loopingRequest (.finished ⟨4, 4, 4, 2, 1, 3⟩) j ∧
        j.moves.map ResolvedMove.move = loopingMoves ∧ j.summary = some ⟨4, 4, 4, 2, 1, 3⟩ ∧
        (j.lines ⟨true, false, false⟩).take 9 =
          ["move from v0:I64 (range VR0) to r3:I64 (range RR0) at inst 1",
            "move from r3:I64 (range RR0) to v1:I64 (range VR1) at inst 2",
            "move from v1:I64 (range VR1) to v0:I64 (range VR2) at inst 3",
            "move from v0:I64 (range VR2) to v1:I64 (range VR1) at inst 4",
            "range VR0 is reffy due to reffy vreg v0:I64",
            "range VR2 is reffy due to reffy vreg v0:I64",
            "reffy vreg v12:I64 has no ranges",
            "range VR0 is reffy due to reffy vreg v0:I64",
            "range VR2 is reffy due to reffy vreg v0:I64"] := by
  have hw : looping.WellFormed := by decide
  refine ⟨hw, ?_, ?_⟩
  · obtain ⟨j, htells, -, hlog⟩ := log_faithful hw hastyMoves ⟨.i64, []⟩
    obtain ⟨-, -, hlines⟩ := hlog ⟨true, true, true⟩
    have hfault : (looping.analyse .off hastyMoves ⟨.i64, []⟩).outcome =
        .faulted (.missing ⟨⟨.virtual, .i64, 1⟩, .defOf 1⟩) := by decide +kernel
    have hshown : (looping.analyse ⟨true, true, true⟩ hastyMoves ⟨.i64, []⟩).logLines =
        looping.headerLines hastyMoves ++
          ["move from v0:I64 (range VR0) to r3:I64 (range RR0) at inst 1"] := by decide +kernel
    rw [hfault] at htells
    exact ⟨j, htells, List.append_cancel_left (hlines.symm.trans hshown)⟩
  · obtain ⟨j, htells, -, hlog⟩ := log_faithful hw loopingMoves loopingRequest
    obtain ⟨-, -, hlines⟩ := hlog ⟨true, false, false⟩
    have hfinished : (looping.analyse .off loopingMoves loopingRequest).outcome =
        .finished ⟨4, 4, 4, 2, 1, 3⟩ := by decide +kernel
    have hshown : j.lines ⟨true, false, false⟩ =
        (looping.analyse ⟨true, false, false⟩ loopingMoves loopingRequest).logLines.drop 2 := by
      rw [hlines]
      rfl
    rw [hfinished] at htells
    refine ⟨j, htells, ?_⟩
    cases htells with
    | finished hmoves =>
      refine ⟨hmoves.moves_eq.trans (by decide), rfl, ?_⟩
      -- the marks behind the seeds are never looked at
      rw [hshown]
      decide +kernel

end Liveness

end RefFlow
