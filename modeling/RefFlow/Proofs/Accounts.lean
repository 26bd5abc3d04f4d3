import RefFlow.Proofs.Counts
import Mathlib.Order.Interval.Set.Nat
/-!
# The accounts of a run

A summary gives an account of live ranges and moves (`Liveness.Accounts`): each of its words is the
size of a set that can be read off these. That no word wraps takes a bound for each. Ranges of one
kind are no more than keys can name; and the pairs of ranges with a copy between them are no more
than the moves of the class, for a move has at most one range at its source and one at its
destination.

The same sets bound one another. A range that is reached is a seed's, or it is the destination of a
copy; a range of a real register is never a seed's. Hence the ranges reached are no more than seeds'
ranges and copies together, along whatever cycles the copies may run.

Main definitions and statements:

* `Summary.markedOf`, `Liveness.flags` — the count and the marks of one kind;
* `Liveness.ncard_copySet_le`, `Liveness.ncard_reached_le` — the bounds between the sets;
* `Liveness.Accounts`, `Liveness.WellFormed.accounts` — what the counts of a run are the sizes of;
* `Liveness.analyse_counts` — the counts and the marks after a run;
* `Liveness.analyse_counts_bounded` — the bounds between the counts.
-/

namespace RefFlow

/-- The number of marked ranges of a kind. -/
def Summary.markedOf (s : Summary) : RegKind → UInt32
  | .real => s.markedReal
  | .virtual => s.markedVirtual

namespace Liveness

variable {l : Liveness} {moves : List Move} {req : Request} {c : RegClass}

/-! ### Ranges of one kind -/

/-- Which ranges of a kind are marked, in their order. -/
def flags (l : Liveness) : RegKind → List Bool
  | .real => l.pinnedMarks
  | .virtual => l.virtualMarks

theorem marked_iff_flags {x : Site} : l.Marked x ↔ (l.flags x.kind)[x.index]? = some true := by
  obtain ⟨kind, i⟩ := x
  cases kind with
  | real => exact marked_real_iff
  | virtual => exact marked_virtual_iff

/-- Sites of one kind are as many as their indices. -/
theorem ncard_sites (kind : RegKind) (is : Set Nat) : (Site.mk kind '' is).ncard = is.ncard := by
  refine Set.ncard_image_of_injective is ?_
  intro i j h
  exact (Site.mk.inj h).2

/-- The marked ranges of a kind are as many as the marks that are set. -/
theorem ncard_marked (l : Liveness) (kind : RegKind) :
    {x | l.Marked x ∧ x.kind = kind}.ncard = (l.flags kind).count true := by
  have hsites : {x | l.Marked x ∧ x.kind = kind} =
      Site.mk kind '' {i | i ∈ (l.flags kind).idxsOf true} := by
    ext ⟨k, i⟩
    -- the marks that are set are at the places of the marked ranges
    have hset : i ∈ (l.flags kind).idxsOf true ↔ (l.flags kind)[i]? = some true := by
      rw [List.mem_idxsOf_iff_exists_getElem_pos, List.getElem?_eq_some_iff]
      simp only [beq_iff_eq]
    constructor
    · rintro ⟨hmarked, rfl⟩
      exact ⟨i, hset.2 (marked_iff_flags.1 hmarked), rfl⟩
    · rintro ⟨j, hj, hsite⟩
      obtain ⟨rfl, rfl⟩ := Site.mk.inj hsite
      exact ⟨marked_iff_flags.2 (hset.1 hj), rfl⟩
  rw [hsites, ncard_sites, ← length_eq_ncard List.nodup_idxsOf, List.length_idxsOf]

/-- A set of ranges of one kind is no larger than there are ranges of the kind. -/
theorem ncard_kind_le (kind : RegKind) {P : Site → Prop} (hP : ∀ x, P x → (l.reg? x).isSome) :
    {x | P x ∧ x.kind = kind}.ncard ≤ l.count kind := by
  have hsub : {x | P x ∧ x.kind = kind} ⊆ Site.mk kind '' Set.Iio (l.count kind) := by
    rintro x ⟨hx, rfl⟩
    exact ⟨x.index, isSome_reg?_iff.1 (hP x hx), rfl⟩
  calc {x | P x ∧ x.kind = kind}.ncard
      ≤ (Site.mk kind '' Set.Iio (l.count kind)).ncard :=
        Set.ncard_le_ncard hsub ((Set.finite_Iio _).image _)
    _ = (Set.Iio (l.count kind)).ncard := ncard_sites kind _
    _ = l.count kind := Set.ncard_Iio_nat _

/-! ### Pairs of ranges with a copy between them -/

theorem finite_copySet (l : Liveness) (c : RegClass) (moves : List Move) :
    (l.copySet c moves).Finite :=
  (l.finite_ranges.prod l.finite_ranges).subset fun _ => isSome_reg?_of_copies

theorem copySet_cons (m : Move) :
    l.copySet c (m :: moves) = l.copySet c [m] ∪ l.copySet c moves := by
  -- a copy is made by the first move or by one of the others
  ext p
  simp only [copySet, Copies, Set.mem_ofPred_eq, Set.mem_union, List.mem_cons, List.not_mem_nil,
    or_false, or_and_right, exists_or]

/-- **One move** makes at most one pair, and none if it is of another class. -/
theorem ncard_copySet_singleton_le (l : Liveness) (c : RegClass) (m : Move) :
    (l.copySet c [m]).ncard ≤ if m.OfClass c then 1 else 0 := by
  split
  -- of all ranges that are live at an operand's point only the first one counts
  · refine (Set.ncard_le_one (l.finite_copySet c [m])).2 ?_
    rintro ⟨a, b⟩ ⟨m₁, h₁, -, hsrc₁, hdst₁⟩ ⟨a', b'⟩ ⟨m₂, h₂, -, hsrc₂, hdst₂⟩
    obtain rfl := List.mem_singleton.1 h₁
    obtain rfl := List.mem_singleton.1 h₂
    exact Prod.ext (hsrc₁.unique hsrc₂) (hdst₁.unique hdst₂)
  · next hother =>
    have hnone : l.copySet c [m] = ∅ := by
      refine Set.eq_empty_of_forall_notMem ?_
      rintro p ⟨m', hm', hclass, -⟩
      obtain rfl := List.mem_singleton.1 hm'
      exact hother hclass
    rw [hnone, Set.ncard_empty]

/-- **Copies are no more than moves** of the class. -/
theorem ncard_copySet_le (l : Liveness) (c : RegClass) (moves : List Move) :
    (l.copySet c moves).ncard ≤ moves.countP fun m => decide (m.OfClass c) := by
  induction moves with
  | nil =>
    have hnone : l.copySet c [] = ∅ := Set.eq_empty_of_forall_notMem fun _ ⟨_, hm, _⟩ => nomatch hm
    rw [hnone, Set.ncard_empty]
    exact Nat.zero_le _
  | cons m rest ih =>
    -- a pair that some other move makes too is counted twice on the right alone
    rw [copySet_cons, List.countP_cons, Nat.add_comm]
    simp only [decide_eq_true_iff]
    calc (l.copySet c [m] ∪ l.copySet c rest).ncard
        ≤ (l.copySet c [m]).ncard + (l.copySet c rest).ncard := Set.ncard_union_le _ _
      _ ≤ _ := Nat.add_le_add (l.ncard_copySet_singleton_le c m) ih

/-! ### What is reached -/

/-- A range that is reached is a seed's, or the destination of a copy. -/
theorem Reached.seeded_or_copied {x : Site} (h : l.Reached moves req x) :
    l.Seeded req.seeds x ∨ x ∈ Prod.snd '' l.copySet req.refClass moves := by
  cases h with
  | seed hseed => exact .inl hseed
  | @copy a _ _ hcopy => exact .inr ⟨(a, x), hcopy, rfl⟩

theorem ncard_destinations_le (l : Liveness) (c : RegClass) (moves : List Move) :
    (Prod.snd '' l.copySet c moves).ncard ≤ (l.copySet c moves).ncard :=
  Set.ncard_image_le (l.finite_copySet c moves)

theorem finite_seeded (l : Liveness) (seeds : List Reg) : {x | l.Seeded seeds x}.Finite := by
  refine l.finite_ranges.subset ?_
  rintro x ⟨-, q, hq, -⟩
  exact Option.isSome_of_eq_some hq

/-- **Ranges reached are no more** than seeds' ranges and copies together: each that is not a seed's
is the destination of a copy, and no copy has two. -/
theorem ncard_reached_le (l : Liveness) (moves : List Move) (req : Request) :
    {x | l.Reached moves req x}.ncard ≤
      {x | l.Seeded req.seeds x}.ncard + (l.copySet req.refClass moves).ncard := by
  -- all sets here are finite, without which their sizes would say nothing
  have hfinite : (Prod.snd '' l.copySet req.refClass moves).Finite :=
    (l.finite_copySet req.refClass moves).image _
  calc {x | l.Reached moves req x}.ncard
      ≤ ({x | l.Seeded req.seeds x} ∪ Prod.snd '' l.copySet req.refClass moves).ncard :=
        Set.ncard_le_ncard (fun _ => Reached.seeded_or_copied)
          ((l.finite_seeded req.seeds).union hfinite)
    _ ≤ {x | l.Seeded req.seeds x}.ncard + (Prod.snd '' l.copySet req.refClass moves).ncard :=
        Set.ncard_union_le _ _
    _ ≤ _ := Nat.add_le_add_left (l.ncard_destinations_le req.refClass moves) _

/-- A range of a real register is reached by a copy only. -/
theorem ncard_reached_real_le (l : Liveness) (moves : List Move) (req : Request) :
    {x | l.Reached moves req x ∧ x.kind = .real}.ncard ≤ (l.copySet req.refClass moves).ncard := by
  have hsub : {x | l.Reached moves req x ∧ x.kind = .real} ⊆
      Prod.snd '' l.copySet req.refClass moves := by
    rintro x ⟨hx, hreal⟩
    -- a seed's range is of a virtual register
    rcases hx.seeded_or_copied with ⟨hvirtual, -⟩ | hcopied
    · exact absurd (hreal.symm.trans hvirtual) (by decide)
    · exact hcopied
  exact (Set.ncard_le_ncard hsub ((l.finite_copySet req.refClass moves).image _)).trans
    (l.ncard_destinations_le req.refClass moves)

/-- The seeds' ranges are reached, and they are ranges of virtual registers. -/
theorem ncard_seeded_le (l : Liveness) (moves : List Move) (req : Request) :
    {x | l.Seeded req.seeds x}.ncard ≤ {x | l.Reached moves req x ∧ x.kind = .virtual}.ncard := by
  have hsub : {x | l.Seeded req.seeds x} ⊆ {x | l.Reached moves req x ∧ x.kind = .virtual} :=
    fun _ hx => ⟨.seed hx, hx.1⟩
  refine Set.ncard_le_ncard hsub (l.finite_ranges.subset ?_)
  rintro x ⟨hx, -⟩
  exact WellFormed.isSome_reg?_of_reached hx

/-! ### The account that a summary gives -/

/-- A summary is the account of a run: its words are numbers of moves and of ranges. -/
structure Accounts (l : Liveness) (ms : List Move) (req : Request) (s : Summary) : Prop where
  moves : s.moves.toNat = ms.length
  refMoves : s.refMoves.toNat = ms.countP fun m => decide (m.OfClass req.refClass)
  /-- Two moves between the same two ranges are one edge. -/
  edges : s.edges.toNat = (l.copySet req.refClass ms).ncard
  /-- A range counts once, however many seeds have its number. -/
  seedRanges : s.seedRanges.toNat = {x | l.Seeded req.seeds x}.ncard
  marked : ∀ kind, (s.markedOf kind).toNat = {x | l.Reached ms req x ∧ x.kind = kind}.ncard

section Finished

variable {sw : Switches} {s : Summary} (hw : l.WellFormed)
include hw

/-- The ranges of a kind leave words free. -/
theorem WellFormed.ncard_kind_lt (kind : RegKind) {P : Site → Prop}
    (hP : ∀ x, P x → (l.reg? x).isSome) : {x | P x ∧ x.kind = kind}.ncard < UInt32.size :=
  (ncard_kind_le kind hP).trans_lt (hw.count_lt kind)

/-- **The counts of a run** are the sizes of these sets. No word wraps, provided that there are
fewer moves than words to count them. -/
theorem WellFormed.accounts (hlen : moves.length < UInt32.size)
    (h : (l.analyse sw moves req).outcome = .finished s) : l.Accounts moves req s := by
  obtain ⟨found, log, hsurvey, rfl, -⟩ := analyse_eq_finished h
  -- moves bound copies, and the number of keys bounds what is reached, the seeds' ranges with it
  have hrefMoves : (moves.countP fun m => decide (m.OfClass req.refClass)) < UInt32.size :=
    List.countP_le_length.trans_lt hlen
  have hedges : (l.copySet req.refClass moves).ncard < UInt32.size :=
    (l.ncard_copySet_le req.refClass moves).trans_lt hrefMoves
  have hreached : ∀ kind, {x | l.Reached moves req x ∧ x.kind = kind}.ncard < UInt32.size :=
    fun kind => hw.ncard_kind_lt kind fun _ => isSome_reg?_of_reached
  have hseeds : {x | l.Seeded req.seeds x}.ncard < UInt32.size :=
    (l.ncard_seeded_le moves req).trans_lt (hreached .virtual)
  rw [hw.summary_eq hsurvey]
  refine ⟨UInt32.toNat_ofNat_of_lt' hlen, UInt32.toNat_ofNat_of_lt' hrefMoves,
    UInt32.toNat_ofNat_of_lt' hedges, UInt32.toNat_ofNat_of_lt' hseeds, fun kind => ?_⟩
  cases kind with
  | real => exact UInt32.toNat_ofNat_of_lt' (hreached .real)
  | virtual => exact UInt32.toNat_ofNat_of_lt' (hreached .virtual)

variable (ha : l.Accounts moves req s)
include ha

omit hw in
theorem Accounts.markedOf_le (kind : RegKind) : (s.markedOf kind).toNat ≤ l.count kind := by
  rw [ha.marked kind]
  exact ncard_kind_le kind fun _ => WellFormed.isSome_reg?_of_reached

/-- The counts of both kinds add up without a carry: each takes less than half of the words. -/
theorem Accounts.toNat_marked :
    s.marked.toNat = s.markedReal.toNat + s.markedVirtual.toNat := by
  have hreal : s.markedReal.toNat ≤ RangeKey.lastIndex + 1 :=
    (ha.markedOf_le .real).trans hw.pinned_size
  have hvirtual : s.markedVirtual.toNat ≤ RangeKey.lastIndex + 1 :=
    (ha.markedOf_le .virtual).trans hw.virtual_size
  unfold RangeKey.lastIndex at hreal hvirtual
  unfold Summary.marked
  rw [UInt32.toNat_add]
  -- twice as many as there are keys of one kind is still short of the number of words
  exact Nat.mod_eq_of_lt (by omega)

end Finished

/-- **The counts and the marks after a run.** Let a run with fewer moves than words to count them
come to its end on well-formed live ranges. Its summary counts the moves, those of the reference
class, the pairs of ranges with a copy between them, the ranges numbered like a seed, and the ranges
of each kind that a reference gets to. If no range was marked before, as many of each kind are
marked afterwards. -/
theorem analyse_counts (hw : l.WellFormed) (hlen : moves.length < UInt32.size) {sw : Switches}
    {s : Summary} (h : (l.analyse sw moves req).outcome = .finished s) :
    l.Accounts moves req s ∧
      (l.Unmarked → ∀ kind, (s.markedOf kind).toNat =
        ((l.analyse sw moves req).store.live.flags kind).count true) := by
  have ha : l.Accounts moves req s := hw.accounts hlen h
  refine ⟨ha, fun hclean kind => ?_⟩
  rw [ha.marked kind, ← ncard_marked]
  simp only [hw.marked_analyse_iff_reached hclean h]

/-- The moves round the loop of `looping`, two of them once more, and one of another class. -/
def repeatedMoves : List Move :=
  loopingMoves ++ loopingMoves.take 2 ++ [⟨⟨.virtual, .f64, 1⟩, ⟨.virtual, .f64, 0⟩, 1, 1⟩]

/-- Seven moves make four edges; the seeds are `v0` twice and `v7`, which has no range. -/
theorem analyse_counts_repeated :
    looping.unmarkAll.WellFormed ∧ looping.unmarkAll.Unmarked ∧ repeatedMoves.length < UInt32.size ∧
      (looping.unmarkAll.analyse .off repeatedMoves
        ⟨.i64, [⟨.virtual, .i64, 0⟩, ⟨.virtual, .i64, 7⟩, ⟨.virtual, .i64, 0⟩]⟩).outcome =
          .finished ⟨7, 6, 4, 2, 1, 3⟩ ∧
      (looping.unmarkAll.copySet .i64 repeatedMoves).ncard = 4 ∧
      ((looping.unmarkAll.analyse .off repeatedMoves
        ⟨.i64, [⟨.virtual, .i64, 0⟩, ⟨.virtual, .i64, 7⟩, ⟨.virtual, .i64, 0⟩]⟩).store.live.flags
          .virtual).count true = 3 := by
  have hw : looping.unmarkAll.WellFormed := by decide +kernel
  have hclean : looping.unmarkAll.Unmarked := unmarked_unmarkAll looping
  have hlen : repeatedMoves.length < UInt32.size := by decide
  have hrun : (looping.unmarkAll.analyse .off repeatedMoves
      ⟨.i64, [⟨.virtual, .i64, 0⟩, ⟨.virtual, .i64, 7⟩, ⟨.virtual, .i64, 0⟩]⟩).outcome =
        .finished ⟨7, 6, 4, 2, 1, 3⟩ := by decide +kernel
  obtain ⟨ha, hmarks⟩ := analyse_counts hw hlen hrun
  exact ⟨hw, hclean, hlen, hrun, ha.edges.symm, (hmarks hclean .virtual).symm⟩

/-- **The counts of a run bound one another.** Let a run with fewer moves than words to count them
come to its end on well-formed live ranges. Edges are no more than moves of the reference class, and
these no more than moves; the seeds' ranges are among the marked ranges of virtual registers; marked
ranges are no more than seeds' ranges and edges together, those of real registers no more than
edges, and those of each kind no more than ranges. The sum of the marked ranges of both kinds does
not wrap. -/
theorem analyse_counts_bounded (hw : l.WellFormed) (hlen : moves.length < UInt32.size)
    {sw : Switches} {s : Summary} (h : (l.analyse sw moves req).outcome = .finished s) :
    s.edges.toNat ≤ s.refMoves.toNat ∧ s.refMoves.toNat ≤ s.moves.toNat ∧
      s.seedRanges.toNat ≤ s.markedVirtual.toNat ∧
      s.marked.toNat ≤ s.seedRanges.toNat + s.edges.toNat ∧
      s.markedReal.toNat ≤ s.edges.toNat ∧
      s.markedReal.toNat ≤ l.pinned.size ∧ s.markedVirtual.toNat ≤ l.virtuals.size ∧
      s.marked.toNat = s.markedReal.toNat + s.markedVirtual.toNat := by
  have ha : l.Accounts moves req s := hw.accounts hlen h
  have hreal : s.markedReal.toNat = {x | l.Reached moves req x ∧ x.kind = .real}.ncard :=
    ha.marked .real
  have hvirtual : s.markedVirtual.toNat = {x | l.Reached moves req x ∧ x.kind = .virtual}.ncard :=
    ha.marked .virtual
  refine ⟨?_, ?_, ?_, ?_, ?_, ha.markedOf_le .real, ha.markedOf_le .virtual, ha.toNat_marked hw⟩
  · rw [ha.edges, ha.refMoves]
    exact l.ncard_copySet_le req.refClass moves
  · rw [ha.refMoves, ha.moves]
    exact List.countP_le_length
  · rw [ha.seedRanges, hvirtual]
    exact l.ncard_seeded_le moves req
  · rw [hw.marked_toNat h, ha.seedRanges, ha.edges]
    exact l.ncard_reached_le moves req
  · rw [hreal, ha.edges]
    exact l.ncard_reached_real_le moves req

/-- Four ranges are marked, one of a real register, from two seeds' ranges over four edges. -/
theorem analyse_counts_bounded_repeated :
    looping.WellFormed ∧ repeatedMoves.length < UInt32.size ∧
      (looping.analyse .off repeatedMoves ⟨.i64, [⟨.virtual, .i64, 0⟩]⟩).outcome =
        .finished ⟨7, 6, 4, 2, 1, 3⟩ ∧
      (⟨7, 6, 4, 2, 1, 3⟩ : Summary).marked.toNat = 1 + 3 ∧
      (⟨7, 6, 4, 2, 1, 3⟩ : Summary).marked.toNat ≤ 2 + 4 ∧
      1 ≤ looping.pinned.size ∧ 3 ≤ looping.virtuals.size := by
  have hw : looping.WellFormed := by decide
  have hlen : repeatedMoves.length < UInt32.size := by decide
  have hrun : (looping.analyse .off repeatedMoves ⟨.i64, [⟨.virtual, .i64, 0⟩]⟩).outcome =
      .finished ⟨7, 6, 4, 2, 1, 3⟩ := by decide +kernel
  obtain ⟨-, -, -, htogether, -, hpinned, hvirtuals, hsum⟩ := analyse_counts_bounded hw hlen hrun
  exact ⟨hw, hlen, hrun, hsum, htogether, hpinned, hvirtuals⟩

end Liveness

end RefFlow
