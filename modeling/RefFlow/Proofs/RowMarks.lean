import RefFlow.Proofs.Counts
import RefFlow.Proofs.Entering
/-!
# The marks of a table

A table counts how often each key was marked, and runs add to the counts that earlier runs left. What
a run marks is a set, listed without repetition: so however often a range is named by a seed, is the
target of a move or lies on a path, its count goes up by one, and all other counts stay. The counts
together go up by the number of marked ranges that the summary reports.

What a reference gets to is read off the rows here (`RowTable.Reached`), with no graph and no search.

Main definitions and statements:

* `RowTable.FirstRow`, `RowTable.Reached` — the row that a register means at a point, and the keys
  that a reference gets to;
* `RowTable.mem_reached_iff` — a survey reaches these;
* `RowTable.total`, `RowTable.total_markAll` — the counts together;
* `RowTable.propagate_marks_once` — the counts after a run.
-/

namespace RefFlow

/-- The row is of the register and live at the point. -/
def Row.Fits (row : Row) (r : Reg) (p : Point) : Prop := row.reg = r ∧ p ∈ row.segment

instance (row : Row) (r : Reg) (p : Point) : Decidable (row.Fits r p) :=
  inferInstanceAs (Decidable (_ ∧ _))

namespace RowTable

/-! ### What a reference gets to -/

/-- Of all rows of `r` that are live at `p`, the first one has the key `k`. -/
def FirstRow (t : RowTable) (r : Reg) (p : Point) (k : RangeKey) : Prop :=
  ∃ before row after, t.rows = before ++ row :: after ∧ row.key = k ∧ row.Fits r p ∧
    ∀ early ∈ before, ¬ early.Fits r p

/-- A reference gets to a key: it is that of a row of a seed, or a move of the reference class copies
into its row from a row that a reference gets to. -/
inductive Reached (t : RowTable) (moves : List Move) (req : Request) : RangeKey → Prop
  | seed {row : Row} : row ∈ t.rows → row.reg ∈ req.seeds → Reached t moves req row.key
  | copy {a b : RangeKey} {m : Move} : Reached t moves req a → m ∈ moves → m.OfClass req.refClass →
      t.FirstRow m.src (.useOf m.instr) a → t.FirstRow m.dst (.defOf m.instr) b →
      Reached t moves req b

variable {t : RowTable} {moves : List Move} {req : Request} {k : RangeKey}

/-- A lookup finds the first row that fits. -/
theorem locate_eq_ok_iff {r : Reg} {p : Point} : t.locate p r = .ok k ↔ t.FirstRow r p k := by
  -- the test of a lookup is whether the row fits
  have hfits : (fun row : Row => row.reg == r && decide (p ∈ row.segment)) =
      fun row => decide (row.Fits r p) := by
    funext row
    rw [Bool.eq_iff_iff, Bool.and_eq_true, beq_iff_eq, decide_eq_true_iff, decide_eq_true_iff]
    exact Iff.rfl
  have hfind : t.locate p r = .ok k ↔
      ∃ row, t.rows.find? (fun row => decide (row.Fits r p)) = some row ∧ row.key = k := by
    unfold locate
    rw [hfits]
    cases t.rows.find? fun row => decide (row.Fits r p) <;> simp
  rw [hfind]
  constructor
  · rintro ⟨row, hrow, rfl⟩
    obtain ⟨hrowfits, before, after, hsplit, hbefore⟩ := List.find?_eq_some_iff_append.1 hrow
    refine ⟨before, row, after, hsplit, rfl, of_decide_eq_true hrowfits, ?_⟩
    intro early hearly
    simpa using hbefore early hearly
  · rintro ⟨before, row, after, hsplit, rfl, hrowfits, hbefore⟩
    refine ⟨row, List.find?_eq_some_iff_append.2 ⟨decide_eq_true hrowfits, before, after, hsplit, ?_⟩,
      rfl⟩
    intro early hearly
    simpa using hbefore early hearly

theorem FirstRow.exists_row {r : Reg} {p : Point} (h : t.FirstRow r p k) :
    ∃ row ∈ t.rows, row.key = k := by
  obtain ⟨before, row, after, hsplit, hkey, -, -⟩ := h
  exact ⟨row, hsplit ▸ List.mem_append_right _ List.mem_cons_self, hkey⟩

/-- A reference gets to keys of rows only. -/
theorem Reached.exists_row (h : t.Reached moves req k) : ∃ row ∈ t.rows, row.key = k := by
  cases h with
  | seed hrow _ => exact ⟨_, hrow, rfl⟩
  | copy _ _ _ _ hdst => exact hdst.exists_row

/-- **The keys of seeds** are those of their rows. -/
theorem exists_seed_iff {seeds : List Reg} :
    (∃ r ∈ seeds, ∃ found, RangeStore.seed t r = .ok found ∧ k ∈ found.keys) ↔
      ∃ row ∈ t.rows, row.reg ∈ seeds ∧ row.key = k := by
  constructor
  · rintro ⟨r, hr, f, hf, hk⟩
    obtain rfl := Except.ok.inj hf
    obtain ⟨row, hrow, rfl⟩ := List.mem_map.1 hk
    obtain ⟨hrow, hreg⟩ := List.mem_filter.1 hrow
    exact ⟨row, hrow, beq_iff_eq.1 hreg ▸ hr, rfl⟩
  · rintro ⟨row, hrow, hr, rfl⟩
    exact ⟨row.reg, hr, _, rfl, List.mem_map_of_mem (List.mem_filter.2 ⟨hrow, beq_self_eq_true _⟩)⟩

/-- **What a survey reaches** is what a reference gets to. -/
theorem mem_reached_iff {found : Survey} {log : List Entry}
    (h : survey t moves req = (.ok found, log)) :
    k ∈ found.reached ↔ t.Reached moves req k := by
  -- an edge is a copy between first rows, and a seed's key one of its rows
  have hedge : ∀ {a b : RangeKey}, found.graph.Edge a b ↔ ∃ m ∈ moves, m.OfClass req.refClass ∧
      t.FirstRow m.src (.useOf m.instr) a ∧ t.FirstRow m.dst (.defOf m.instr) b := by
    intro a b
    rw [survey_edge_iff h]
    exact exists_congr fun m => and_congr_right fun _ => and_congr_right fun _ =>
      and_congr locate_eq_ok_iff locate_eq_ok_iff
  have hseed : ∀ {a : RangeKey}, a ∈ found.seeds ↔
      ∃ row ∈ t.rows, row.reg ∈ req.seeds ∧ row.key = a := by
    intro a
    rw [survey_mem_seeds_iff h]
    exact exists_seed_iff
  rw [Survey.mem_reached_iff]
  constructor
  -- along the path from the seed
  · rintro ⟨a, ha, hpath⟩
    induction hpath with
    | refl =>
      obtain ⟨row, hrow, hr, rfl⟩ := hseed.1 ha
      exact .seed hrow hr
    | tail _ hstep ih =>
      obtain ⟨m, hm, hc, hsrc, hdst⟩ := hedge.1 hstep
      exact .copy ih hm hc hsrc hdst
  -- by the way that the reference takes
  · intro hreached
    induction hreached with
    | seed hrow hr => exact ⟨_, hseed.2 ⟨_, hrow, hr, rfl⟩, .refl⟩
    | copy _ hm hc hsrc hdst ih =>
      obtain ⟨a, ha, hpath⟩ := ih
      exact ⟨a, ha, hpath.tail (hedge.2 ⟨_, hm, hc, hsrc, hdst⟩)⟩

/-! ### Keys of rows -/

/-- A row that is entered gets an index that a key can hold. -/
theorem index_le_of_enter {e : Stretch} {t' : RowTable} (h : t.enter e = .ok t')
    (ht : ∀ row ∈ t.rows, row.key.index ≤ RangeKey.lastIndex) :
    ∀ row ∈ t'.rows, row.key.index ≤ RangeKey.lastIndex := by
  unfold enter nextRow at h
  cases hmake : RangeKey.make? e.reg.kind (t.countKind e.reg.kind) with
  | error v =>
    rw [hmake] at h
    cases h
  | ok key =>
    rw [hmake] at h
    obtain rfl := Except.ok.inj h
    intro row hrow
    -- a row from before, or the new one
    rcases List.mem_append.1 hrow with hrow | hrow
    · exact ht row hrow
    · obtain rfl := List.mem_singleton.1 hrow
      obtain ⟨hle, hsite⟩ := RangeKey.make?_eq_ok_iff.1 hmake
      have hindex : key.index = t.countKind e.reg.kind := congrArg Site.index hsite
      exact hindex ▸ hle

theorem index_le_of_foldlM_enter {es : List Stretch} {t' : RowTable} (h : es.foldlM enter t = .ok t')
    (ht : ∀ row ∈ t.rows, row.key.index ≤ RangeKey.lastIndex) :
    ∀ row ∈ t'.rows, row.key.index ≤ RangeKey.lastIndex := by
  -- row by row, each entered into the table of those before
  induction es generalizing t with
  | nil =>
    obtain rfl := Except.ok.inj h
    exact ht
  | cons e es ih =>
    rw [List.foldlM_cons] at h
    obtain ⟨u, hu, h⟩ := bind_eq_ok_iff.1 h
    exact ih h (index_le_of_enter hu ht)

/-! ### Counts -/

/-- All counts of the table together. -/
def total (t : RowTable) : Nat := ∑ k ∈ t.marks.toFinset, (t.timesMarked k).toNat

variable {ks : List RangeKey}

theorem mem_marks_markAll : k ∈ (markAll t ks).marks ↔ k ∈ ks ∨ k ∈ t.marks := by
  rw [← List.count_pos_iff, count_markAll, Nat.add_pos_iff_pos_or_pos, List.count_pos_iff,
    List.count_pos_iff]

/-- Marks of a list without repetition are counted once, as long as the count has room. -/
theorem timesMarked_markAll (hks : ks.Nodup) (hroom : (t.timesMarked k).toNat < 2 ^ 32 - 1) :
    ((markAll t ks).timesMarked k).toNat = (t.timesMarked k).toNat + if k ∈ ks then 1 else 0 := by
  unfold timesMarked at hroom ⊢
  rw [UInt32.toNat_ofNat'] at hroom ⊢
  -- the sum does not reach the word size, so nothing wraps
  rw [count_markAll, hks.count, UInt32.toNat_ofNat']
  split <;> omega

theorem timesMarked_of_notMem (h : k ∉ t.marks) : t.timesMarked k = 0 := by
  unfold timesMarked
  rw [List.count_eq_zero.2 h]
  rfl

/-- **The counts together** go up by the number of marks. -/
theorem total_markAll (hks : ks.Nodup) (hroom : ∀ k, (t.timesMarked k).toNat < 2 ^ 32 - 1) :
    (markAll t ks).total = t.total + ks.length := by
  have hmarks : (markAll t ks).marks.toFinset = ks.toFinset ∪ t.marks.toFinset := by
    ext k
    rw [List.mem_toFinset, mem_marks_markAll, Finset.mem_union, List.mem_toFinset, List.mem_toFinset]
  -- a key that had no mark adds nothing to the old counts
  have hold : ∑ k ∈ ks.toFinset ∪ t.marks.toFinset, (t.timesMarked k).toNat = t.total := by
    refine (Finset.sum_subset Finset.subset_union_right ?_).symm
    intro k _ hk
    rw [timesMarked_of_notMem fun hmem => hk (List.mem_toFinset.2 hmem)]
    rfl
  have hnew : ∑ k ∈ ks.toFinset ∪ t.marks.toFinset, (if k ∈ ks then 1 else 0) = ks.length := by
    rw [← Finset.card_filter, ← List.toFinset_card_of_nodup hks]
    congr 1
    ext k
    simp only [Finset.mem_filter, Finset.mem_union, List.mem_toFinset]
    exact ⟨And.right, fun h => ⟨.inl h, h⟩⟩
  calc (markAll t ks).total
      = ∑ k ∈ ks.toFinset ∪ t.marks.toFinset,
          ((t.timesMarked k).toNat + if k ∈ ks then 1 else 0) := by
        unfold total
        rw [hmarks]
        exact Finset.sum_congr rfl fun k _ => timesMarked_markAll hks (hroom k)
    _ = t.total + ks.length := by rw [Finset.sum_add_distrib, hold, hnew]

/-! ### Runs -/

/-- **Each reached range is marked once.** A table has rows of any stretches that it has keys for, and
counts that earlier runs left, with room for one more. When a run comes to its end, each key that a
reference gets to has been counted once more, and no other key has been; all counts together went up by
the number of marked ranges that the summary reports. -/
theorem propagate_marks_once {es : List Stretch} {sw : Switches} {s : Summary}
    (hrows : ofStretches es = .ok ⟨t.rows, []⟩)
    (hroom : ∀ k, (t.timesMarked k).toNat < 2 ^ 32 - 1)
    (hrun : (propagate sw t moves req).outcome = .finished s) :
    (∀ k, t.Reached moves req k →
      ((propagate sw t moves req).store.timesMarked k).toNat = (t.timesMarked k).toNat + 1) ∧
    (∀ k, ¬ t.Reached moves req k →
      (propagate sw t moves req).store.timesMarked k = t.timesMarked k) ∧
    (propagate sw t moves req).store.total = t.total + s.marked.toNat := by
  obtain ⟨found, log, hsurvey, rfl, hstore⟩ := propagate_eq_finished hrun
  have hmem : ∀ k, k ∈ found.marking ↔ t.Reached moves req k := fun k =>
    Survey.mem_marking_iff.trans (mem_reached_iff hsurvey)
  have hcount := fun k => timesMarked_markAll found.nodup_marking (hroom k)
  rw [hstore]
  refine ⟨?_, ?_, ?_⟩
  · intro k hk
    rw [hcount, if_pos ((hmem k).2 hk)]
  · intro k hk
    rw [← UInt32.toNat_inj, hcount, if_neg fun h => hk ((hmem k).1 h)]
    rfl
  · have hindex : ∀ k, k ∈ found.reached → k.index ≤ RangeKey.lastIndex := by
      intro k hk
      obtain ⟨row, hrow, rfl⟩ := ((mem_reached_iff hsurvey).1 hk).exists_row
      exact index_le_of_foldlM_enter hrows (fun _ hnone => absurd hnone List.not_mem_nil) row hrow
    have hlength : found.marking.length = found.reached.size := (List.mergeSort_perm _ _).length_eq
    rw [total_markAll found.nodup_marking hroom, hlength, found.marked_summary,
      UInt32.toNat_ofNat_of_lt' (KeySet.size_lt hindex)]

/-- The rows of `v0`, which is live twice, of `r3` and `v1`, and of `v7`, which is never live. -/
def talliedStretches : List Stretch := [
  ⟨⟨.virtual, .i64, 0⟩, 0, 2⟩, ⟨⟨.virtual, .i64, 0⟩, 5, 9⟩, ⟨⟨.real, .i64, 3⟩, 1, 4⟩,
  ⟨⟨.virtual, .i64, 1⟩, 2, 9⟩, ⟨⟨.virtual, .i64, 7⟩, 6, 3⟩]

/-- Their table, with two marks on the second row and one on a key that no row has. -/
def tallied : RowTable where
  rows := [
    ⟨⟨.virtual, .i64, 0⟩, ⟨.defOf 0, .useOf 2⟩, ⟨0⟩⟩, ⟨⟨.virtual, .i64, 0⟩, ⟨.defOf 5, .useOf 9⟩, ⟨1⟩⟩,
    ⟨⟨.real, .i64, 3⟩, ⟨.defOf 1, .useOf 4⟩, ⟨0x80000000⟩⟩,
    ⟨⟨.virtual, .i64, 1⟩, ⟨.defOf 2, .useOf 9⟩, ⟨2⟩⟩, ⟨⟨.virtual, .i64, 7⟩, ⟨.defOf 6, .useOf 3⟩, ⟨3⟩⟩]
  marks := [⟨1⟩, ⟨7⟩, ⟨1⟩]

/-- A copy that occurs twice, one of a register to itself, and copies round and round between `v0` and
`v1`. -/
def talliedMoves : List Move := [
  ⟨⟨.real, .i64, 3⟩, ⟨.virtual, .i64, 0⟩, 1, 1⟩, ⟨⟨.real, .i64, 3⟩, ⟨.virtual, .i64, 0⟩, 1, 1⟩,
  ⟨⟨.virtual, .i64, 1⟩, ⟨.real, .i64, 3⟩, 2, 1⟩, ⟨⟨.virtual, .i64, 1⟩, ⟨.virtual, .i64, 1⟩, 3, 1⟩,
  ⟨⟨.virtual, .i64, 0⟩, ⟨.virtual, .i64, 1⟩, 5, 1⟩, ⟨⟨.virtual, .i64, 1⟩, ⟨.virtual, .i64, 0⟩, 6, 1⟩]

/-- A request that names `v0` twice. -/
def talliedRequest : Request :=
  ⟨.i64, [⟨.virtual, .i64, 0⟩, ⟨.virtual, .i64, 0⟩, ⟨.virtual, .i64, 7⟩]⟩

theorem propagate_marks_once_tallied :
    (propagate .off tallied talliedMoves talliedRequest).outcome = .finished ⟨6, 6, 5, 3, 1, 4⟩ ∧
      ((propagate .off tallied talliedMoves talliedRequest).store.timesMarked ⟨1⟩).toNat = 3 ∧
      (propagate .off tallied talliedMoves talliedRequest).store.timesMarked ⟨7⟩ = 1 ∧
      (propagate .off tallied talliedMoves talliedRequest).store.total = 8 := by
  have hrun : (propagate .off tallied talliedMoves talliedRequest).outcome =
      .finished ⟨6, 6, 5, 3, 1, 4⟩ := by decide +kernel
  have hroom : ∀ k, (tallied.timesMarked k).toNat < 2 ^ 32 - 1 := by
    intro k
    have hle : tallied.marks.count k ≤ 3 := List.count_le_length
    unfold timesMarked
    rw [UInt32.toNat_ofNat']
    omega
  have hrows : ofStretches talliedStretches = .ok ⟨tallied.rows, []⟩ := rfl
  obtain ⟨hreached, hothers, htotal⟩ := propagate_marks_once hrows hroom hrun
  have hrow : Row.mk ⟨.virtual, .i64, 0⟩ ⟨.defOf 5, .useOf 9⟩ ⟨1⟩ ∈ tallied.rows := by decide
  have hseed : tallied.Reached talliedMoves talliedRequest ⟨1⟩ := .seed hrow (by decide)
  have hnone : ¬ tallied.Reached talliedMoves talliedRequest ⟨7⟩ := by
    intro h
    exact absurd h.exists_row (by decide)
  exact ⟨hrun, hreached _ hseed, hothers _ hnone, htotal.trans (by decide)⟩

end RowTable

end RefFlow
