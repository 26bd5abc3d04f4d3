import RefFlow.Proofs.GraphHistory
import RefFlow.Proofs.Words
/-!
# The printed graph

A graph is printed as a header and a line for each source. The printed graph can be read back: a line
ends where the next one begins, its words stand between single blanks, and no name of a range holds a
blank or ends a line. What is read in this way is the graph itself: its sources, each on one line, and
behind each of them its targets in their order. So graphs whose lines are the same, in whatever order,
have the same edges and the same order of targets.

Main definitions and statements:

* `RangeKey.text_injective` — a range is known by its name;
* `readLines`, `sourceWord`, `targetWords` — how a printed graph is read;
* `FlowGraph.Shows` — what is read in it, and `Shows.targets_eq` what follows for two graphs;
* `FlowGraph.Records.shows`, `FlowGraph.Records.header_eq` — the printed graph of a history;
* `FlowGraph.printed_determines` — the text tells the graph.
-/

namespace RefFlow

/-! ### Reading lines -/

/-- The lines of a text in which each line is ended. -/
def readLines (text : String) : List (List Char) := (text.toList.splitOn '\n').dropLast

/-- The word of a line, indented by two blanks, that comes first. -/
def sourceWord (line : List Char) : List Char := (line.splitOn ' ').getD 2 []

/-- The words of such a line behind the arrow. -/
def targetWords (line : List Char) : List (List Char) := (line.splitOn ' ').drop 4

theorem readLines_join {lines : List String} (h : ∀ l ∈ lines, '\n' ∉ l.toList) :
    readLines (String.join (lines.map (· ++ "\n"))) = lines.map String.toList := by
  -- the text is the letters of the lines, each with an end behind it
  have htext : (String.join (lines.map (· ++ "\n"))).toList =
      (lines.map String.toList).flatMap (· ++ ['\n']) := by
    rw [String.toList_join, List.flatMap_map, List.flatMap_map]
    simp only [String.toList_append]
    rfl
  have hlines : ∀ l ∈ lines.map String.toList, '\n' ∉ l := List.forall_mem_map.2 h
  unfold readLines
  rw [htext, splitOn_flatMap_concat hlines, List.dropLast_concat]

/-! ### Names of ranges -/

namespace RangeKey

/-- The letters of a name, digits among them. -/
def letters (k : RangeKey) : List Char := k.text.toList

/-- The letter that a name starts with. -/
def initial : RegKind → Char
  | .real => 'R'
  | .virtual => 'V'

theorem letters_eq (k : RangeKey) :
    k.letters = initial k.kind :: 'R' :: Nat.toDigits 10 k.index := by
  unfold letters text
  cases k.kind <;> simp [initial]

/-- Names hold digits and two letters only. -/
theorem not_mem_letters {c : Char} (hc : c.isDigit = false) (hR : c ≠ 'R') (hV : c ≠ 'V')
    (k : RangeKey) : c ∉ k.letters := by
  have hinitial : c ≠ initial k.kind := by cases k.kind <;> assumption
  rw [letters_eq]
  simp [hinitial, hR, not_mem_toDigits hc]

/-- The first letter tells the kind, the number the index. -/
theorem letters_injective : Function.Injective letters := by
  intro j k h
  rw [letters_eq, letters_eq] at h
  obtain ⟨hinitial, hrest⟩ := List.cons.inj h
  have hkind : j.kind = k.kind := by
    revert hinitial
    cases j.kind <;> cases k.kind <;> decide
  have hindex : j.index = k.index := toDigits_injective (List.cons.inj hrest).2
  refine site_inj.1 ?_
  rw [site, hkind, hindex, site]

/-- A range is known by its name. -/
theorem text_injective : Function.Injective text :=
  fun _ _ h => letters_injective (congrArg String.toList h)

end RangeKey

theorem KeySet.toList_injective : Function.Injective KeySet.toList := by
  rintro ⟨_, _⟩ ⟨_, _⟩ rfl
  rfl

namespace FlowGraph

/-! ### Lines of the graph -/

/-- The whole printed graph. -/
def printed (g : FlowGraph) : String := String.join (g.lines.map (· ++ "\n"))

variable {e : RangeKey × KeySet}

/-- The words of a line, of which the first two are empty by the indentation. -/
theorem toList_adjacencyLine (e : RangeKey × KeySet) :
    (adjacencyLine e).toList =
      [] ++ ([] :: e.1.letters :: ['-', '>'] :: e.2.toList.map RangeKey.letters).flatMap
        (' ' :: ·) := by
  unfold adjacencyLine
  simp [String.toList_join, List.flatMap_map, RangeKey.letters]

theorem splitOn_adjacencyLine (e : RangeKey × KeySet) :
    (adjacencyLine e).toList.splitOn ' ' =
      [] :: [] :: e.1.letters :: ['-', '>'] :: e.2.toList.map RangeKey.letters := by
  -- the line is split at blanks, and no name has one
  have hname : ∀ k : RangeKey, ' ' ∉ k.letters :=
    RangeKey.not_mem_letters (by decide) (by decide) (by decide)
  rw [toList_adjacencyLine, splitOn_append_flatMap_cons List.not_mem_nil]
  simp [hname]

theorem sourceWord_adjacencyLine : sourceWord (adjacencyLine e).toList = e.1.letters := by
  unfold sourceWord
  rw [splitOn_adjacencyLine]
  rfl

theorem targetWords_adjacencyLine :
    targetWords (adjacencyLine e).toList = e.2.toList.map RangeKey.letters := by
  unfold targetWords
  rw [splitOn_adjacencyLine]
  rfl

/-- No line of the printed graph is ended within. -/
theorem newline_not_mem_lines (g : FlowGraph) : ∀ l ∈ g.lines, '\n' ∉ l.toList := by
  have hnumber : ∀ n : Nat, '\n' ∉ Nat.toDigits 10 n := not_mem_toDigits (by decide)
  have hname : ∀ k : RangeKey, '\n' ∉ k.letters :=
    RangeKey.not_mem_letters (by decide) (by decide) (by decide)
  unfold lines
  refine List.forall_mem_cons.2 ⟨?_, List.forall_mem_map.2 fun e _ => ?_⟩
  · unfold header
    simp [hnumber]
  · rw [toList_adjacencyLine]
    simp [hname]

/-! ### What is read -/

/-- The header that fits the lines: it tells their number, and that of all targets on them. -/
def headerOf (rows : List (List Char)) : String :=
  "MoveGraph: " ++ toString rows.length ++ " sources, " ++
    toString (rows.map fun row => (targetWords row).length).sum ++ " edges"

/-- Lines that are read as `g`. -/
structure Shows (g : FlowGraph) (rows : List (List Char)) : Prop where
  /-- No source has two lines. -/
  nodup : (rows.map sourceWord).Nodup
  /-- The sources are the ranges that an edge starts at. -/
  mem_sources_iff : ∀ w, w ∈ rows.map sourceWord ↔ ∃ a : RangeKey, a.letters = w ∧ ∃ b, g.Edge a b
  /-- Behind a source stand its targets, in their order. -/
  targetWords_eq : ∀ row ∈ rows, ∀ a : RangeKey, a.letters = sourceWord row →
    targetWords row = (g.targets a).map RangeKey.letters
  targetWords_ne_nil : ∀ row ∈ rows, targetWords row ≠ []

variable {g h : FlowGraph} {ls ls' : List (List Char)} {added added' : List (RangeKey × RangeKey)}

/-- A range has a line if and only if an edge starts at it. -/
theorem Shows.exists_row_iff (hg : g.Shows ls) {a : RangeKey} :
    (∃ row ∈ ls, sourceWord row = a.letters) ↔ ∃ b, g.Edge a b := by
  -- different ranges have different names, so the line is that of the range itself
  rw [← List.mem_map, hg.mem_sources_iff]
  constructor
  · rintro ⟨i, hi, hedge⟩
    rwa [← RangeKey.letters_injective hi]
  · intro hedge
    exact ⟨a, rfl, hedge⟩

/-- **Reading tells the graph.** Graphs whose lines are the same up to their order have the same
targets, in the same order. -/
theorem Shows.targets_eq (hg : g.Shows ls) (hh : h.Shows ls')
    (hperm : ls.Perm ls') (a : RangeKey) : g.targets a = h.targets a := by
  -- the line of a range is among the lines of both graphs or of none
  have hrows : (∃ b, g.Edge a b) ↔ ∃ b, h.Edge a b := by
    rw [← hg.exists_row_iff, ← hh.exists_row_iff]
    exact exists_congr fun row => and_congr_left fun _ => hperm.mem_iff
  by_cases ha : ∃ b, g.Edge a b
  · obtain ⟨row, hrow, hsource⟩ := hg.exists_row_iff.2 ha
    have hwords := hg.targetWords_eq row hrow a hsource.symm
    rw [hh.targetWords_eq row (hperm.mem_iff.1 hrow) a hsource.symm] at hwords
    exact (RangeKey.letters_injective.list_map hwords).symm
  -- a range without a line has no targets in either graph
  · have hgnil : g.targets a = [] := List.eq_nil_iff_forall_not_mem.2 (not_exists.1 ha)
    have hhnil : h.targets a = [] :=
      List.eq_nil_iff_forall_not_mem.2 (not_exists.1 (mt hrows.2 ha))
    rw [hgnil, hhnil]

/-! ### The printed graphs of histories -/

/-- The lines behind the header. -/
def rows (g : FlowGraph) : List (List Char) := g.byName.map fun e => (adjacencyLine e).toList

theorem readLines_printed (g : FlowGraph) : readLines g.printed = g.header.toList :: g.rows := by
  unfold printed rows
  rw [readLines_join g.newline_not_mem_lines, lines, List.map_cons, List.map_map]
  rfl

theorem byName_perm (g : FlowGraph) : g.byName.Perm g.adjacency := List.mergeSort_perm _ _

/-- The first words of the lines are the names of the sources. -/
theorem map_sourceWord_rows (g : FlowGraph) :
    g.rows.map sourceWord = (g.byName.map Prod.fst).map RangeKey.letters := by
  unfold rows
  rw [List.map_map, List.map_map]
  exact List.map_congr_left fun e _ => sourceWord_adjacencyLine

/-- What is true of the lines of all sources is true of all lines. -/
theorem forall_mem_rows {P : List Char → Prop}
    (h : ∀ e ∈ g.adjacency, P (adjacencyLine e).toList) : ∀ row ∈ g.rows, P row :=
  List.forall_mem_map.2 fun e he => h e (g.byName_perm.mem_iff.1 he)

namespace Records

/-- The rows of a graph are its sources, each with its targets. -/
theorem mem_adjacency_iff (hg : Records g added) {e : RangeKey × KeySet} :
    e ∈ g.adjacency ↔ e.2.toList ≠ [] ∧ g.targets e.1 = e.2.toList := by
  unfold targets
  constructor
  · intro he
    have hset : g.targetSet? e.1 = some e.2 := Adjacency.lookup_of_mem hg.nodup he
    rw [hset]
    exact ⟨hg.targets_ne_nil he, rfl⟩
  · rintro ⟨hne, htargets⟩
    cases hset : g.targetSet? e.1 with
    | none =>
      rw [hset] at htargets
      exact absurd htargets.symm hne
    | some targets =>
      rw [hset] at htargets
      -- what is looked up stands in a row of the source
      obtain ⟨before, after, hrows, -⟩ := List.lookup_eq_some_iff.1 hset
      have hrow : (e.1, targets) = e := Prod.ext rfl (KeySet.toList_injective htargets)
      rw [hrows, ← hrow]
      exact List.mem_append_right _ List.mem_cons_self

/-- **The lines of the printed graph** are read as the graph. -/
theorem shows (hg : Records g added) : g.Shows g.rows where
  nodup := by
    rw [map_sourceWord_rows, List.nodup_map_iff RangeKey.letters_injective,
      (g.byName_perm.map _).nodup_iff]
    exact hg.nodup
  mem_sources_iff w := by
    rw [map_sourceWord_rows, List.mem_map]
    refine exists_congr fun a => ?_
    rw [(g.byName_perm.map _).mem_iff, hg.mem_sources_iff, and_comm]
    exact and_congr_right fun _ => exists_congr fun b => hg.edge_iff.symm
  targetWords_eq := by
    refine forall_mem_rows fun e he a ha => ?_
    obtain ⟨-, htargets⟩ := hg.mem_adjacency_iff.1 he
    rw [sourceWord_adjacencyLine] at ha
    rw [targetWords_adjacencyLine, RangeKey.letters_injective ha, htargets]
  targetWords_ne_nil := by
    refine forall_mem_rows fun e he => ?_
    rw [targetWords_adjacencyLine, ne_eq, List.map_eq_nil_iff]
    exact hg.targets_ne_nil he

/-- **The header** fits the lines, as long as the counter of edges has not wrapped. -/
theorem header_eq (hg : Records g added) (hlt : {p | p ∈ added}.ncard < 2 ^ 32) :
    g.header = headerOf g.rows := by
  -- one line for each source
  have hlength : g.rows.length = g.sourceCount := by
    unfold rows
    rw [List.length_map, g.byName_perm.length_eq]
    rfl
  -- the counter is the sum of the sizes of the target sets, each of which is on one line
  have hsum : (g.rows.map fun row => (targetWords row).length).sum = g.edges.toNat := by
    unfold rows
    rw [List.map_map, hg.edges_toNat hlt, ← hg.edgeSet_eq, ← hg.sizes,
      ← (g.byName_perm.map _).sum_eq]
    refine congrArg List.sum (List.map_congr_left fun e _ => ?_)
    rw [Function.comp_apply, targetWords_adjacencyLine, List.length_map]
    rfl
  unfold header headerOf
  rw [hlength, hsum]

/-- Graphs with the same targets have the same rows. -/
theorem adjacency_perm (hg : Records g added) (hh : Records h added')
    (heq : ∀ a, g.targets a = h.targets a) : g.adjacency.Perm h.adjacency := by
  refine (List.perm_ext_iff_of_nodup hg.nodup.of_map hh.nodup.of_map).2 fun e => ?_
  rw [hg.mem_adjacency_iff, hh.mem_adjacency_iff, heq]

end Records

/-- **The printed graph tells the graph.** No two ranges have one name. After any calls:

* the lines of the text are read as the graph, so that the ranges that an edge starts at have one line
  each, no line is without targets, and the targets stand in their order;
* the numbers of the header are those of the lines and of the targets on them, as long as the different
  edges fit the 32-bit count;
* the lines are those of another such graph, up to their order, if and only if every range has the same
  targets in both, in the same order. -/
theorem printed_determines :
    Function.Injective RangeKey.text ∧
    ∀ calls : List Call, ∃ header rows,
      readLines (after calls).printed = header :: rows ∧ (after calls).Shows rows ∧
      ({p | p ∈ calls.flatMap Call.added}.ncard < 2 ^ 32 → header = (headerOf rows).toList) ∧
      ∀ calls' : List Call, rows.Perm (readLines (after calls').printed).tail ↔
        ∀ a, (after calls).targets a = (after calls').targets a := by
  refine ⟨RangeKey.text_injective, fun calls => ?_⟩
  have hrec := records_after calls
  refine ⟨_, _, readLines_printed _, hrec.shows, fun hlt => congrArg _ (hrec.header_eq hlt), ?_⟩
  intro calls'
  have hrec' := records_after calls'
  rw [readLines_printed, List.tail_cons]
  constructor
  · exact fun hperm => hrec.shows.targets_eq hrec'.shows hperm
  · intro htargets
    -- the same targets make the same rows, in whatever order they are printed
    have hrows := hrec.adjacency_perm hrec' htargets
    exact ((byName_perm _).trans (hrows.trans (byName_perm _).symm)).map _

/-- Two histories with the same edges give the same lines, though the sources came in in different
orders and one edge came in twice. Another order of the targets of one range gives other lines. -/
theorem printed_determines_orders :
    ∃ header rows,
      readLines (after [.edge ⟨1⟩ ⟨5⟩, .edge ⟨7⟩ ⟨7⟩, .edge ⟨1⟩ ⟨2⟩]).printed = header :: rows ∧
      header = (headerOf rows).toList ∧
      rows.Perm (readLines
        (after [.edge ⟨7⟩ ⟨7⟩, .edge ⟨1⟩ ⟨5⟩, .edge ⟨1⟩ ⟨2⟩, .edge ⟨1⟩ ⟨5⟩]).printed).tail ∧
      ¬ rows.Perm (readLines
        (after [.edge ⟨1⟩ ⟨2⟩, .edge ⟨7⟩ ⟨7⟩, .edge ⟨1⟩ ⟨5⟩]).printed).tail := by
  obtain ⟨-, hcalls⟩ := printed_determines
  obtain ⟨header, rows, hread, -, hheader, hlines⟩ :=
    hcalls [.edge ⟨1⟩ ⟨5⟩, .edge ⟨7⟩ ⟨7⟩, .edge ⟨1⟩ ⟨2⟩]
  refine ⟨header, rows, hread, hheader ?_, ?_, ?_⟩
  · rw [← List.coe_toFinset, Set.ncard_coe_finset]
    decide
  · refine (hlines _).2 fun a => ?_
    rw [(records_after _).targets_eq, (records_after _).targets_eq]
    -- the two sources, and any other range
    obtain rfl | rfl | ⟨h1, h7⟩ : a = ⟨1⟩ ∨ a = ⟨7⟩ ∨ (⟨1⟩ : RangeKey) ≠ a ∧ (⟨7⟩ : RangeKey) ≠ a := by
      grind
    · decide
    · decide
    · simp [destinations, Call.added, h1, h7]
  · intro hperm
    have htargets := (hlines _).1 hperm ⟨1⟩
    revert htargets
    decide

end FlowGraph

end RefFlow
