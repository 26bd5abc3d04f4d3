import RefFlow.Proofs.Exactness
import RefFlow.Proofs.Stages
import RefFlow.Store.RowTable
/-!
# Stores whose indices are in range

A directory may be out of date, and segments may lie in any order. As long as every index that is
stored denotes something (`Indexed.InRange`), all reads of a run succeed: the search by halving stays
inside its range, so no lookup meets an index that points outside. What can stop such a run is a
refusal, a range that is missing, or a broken precondition, and none of these comes after a mark.

Main statements:

* `exists_firstAfter_eq_some` — a search all of whose reads succeed ends inside its range;
* `Indexed.InRange.locate_ne_stray`, `Indexed.InRange.seed_ne_stray` — no read goes astray;
* `marks_kept_unless_finished` — nothing is marked unless a run comes to its end.
-/

namespace RefFlow

/-! ### Searching -/

/-- A search all of whose reads succeed ends inside its range, whatever it reads. -/
theorem exists_firstAfter_eq_some {after : Nat → Option Bool} {lo len : Nat}
    (h : ∀ i, lo ≤ i → i < lo + len → (after i).isSome) :
    ∃ k, firstAfter after lo len = some k ∧ k ≤ lo + len := by
  -- by the halves that the search goes on in, which are parts of the range
  fun_induction firstAfter after lo len with
  | case1 lo => exact ⟨lo, rfl, Nat.le_refl lo⟩
  | case2 lo len h0 hnone =>
    have hsome := h (lo + len / 2) (by omega) (by omega)
    rw [hnone] at hsome
    cases hsome
  | case3 lo len h0 htrue ih =>
    obtain ⟨k, hk, hle⟩ := ih fun i hi hlt => h i hi (by omega)
    exact ⟨k, hk, by omega⟩
  | case4 lo len h0 hfalse ih =>
    obtain ⟨k, hk, hle⟩ := ih fun i hi hlt => h i (by omega) (by omega)
    exact ⟨k, hk, by omega⟩

/-- Among readable segments the search for the one that can hold a point has an answer. -/
theorem isSome_holds? {read : Nat → Option Segment} {count : Nat} (p : Point)
    (h : ∀ i < count, (read i).isSome) : (holds? read count p).isSome := by
  have hafter : ∀ i, 0 ≤ i → i < 0 + count →
      ((read i).map fun s => decide (p < s.first)).isSome := by
    intro i _ hi
    rw [Option.isSome_map]
    exact h i (by omega)
  obtain ⟨k, hk, hle⟩ := exists_firstAfter_eq_some hafter
  unfold holds?
  rw [hk]
  cases k with
  | zero => rfl
  -- the position in front of the one found is inside the range, hence readable
  | succ k =>
    have hread := h k (by omega)
    simpa using hread

theorem SegmentRefs.isSome_covers {pool : Pool} {s : SegmentRefs} (p : Point)
    (h : ∀ i ∈ s.refs, i < pool.size) : (s.covers pool p).isSome := by
  apply isSome_holds?
  intro j hj
  have hlt : s.refs[j] < pool.size := h _ (Array.getElem_mem hj)
  unfold read
  rw [Array.getElem?_eq_getElem hj, Option.bind_some, Array.getElem?_eq_getElem hlt]
  rfl

/-! ### No read goes astray -/

namespace Indexed

/-- Every index that the live ranges and their directory hold denotes a range of its kind or a
segment. -/
structure InRange (s : Indexed) : Prop where
  real : ∀ is ∈ s.dir.real, ∀ i ∈ is, i < s.live.pinned.size
  virtual : ∀ is ∈ s.dir.virtual, ∀ i ∈ is, i < s.live.virtuals.size
  segments : ∀ r ∈ s.live.pinned, ∀ i ∈ r.segs.refs, i < s.live.pool.size

instance (s : Indexed) : Decidable s.InRange :=
  decidable_of_iff ((∀ is ∈ s.dir.real, ∀ i ∈ is, i < s.live.pinned.size) ∧
      (∀ is ∈ s.dir.virtual, ∀ i ∈ is, i < s.live.virtuals.size) ∧
      ∀ r ∈ s.live.pinned, ∀ i ∈ r.segs.refs, i < s.live.pool.size)
    ⟨fun ⟨h₁, h₂, h₃⟩ => ⟨h₁, h₂, h₃⟩, fun ⟨h₁, h₂, h₃⟩ => ⟨h₁, h₂, h₃⟩⟩

namespace InRange

variable {s : Indexed} (h : s.InRange)
include h

theorem lt_count {kind : RegKind} {n i : Nat} (hi : i ∈ (s.dir.lookup kind n).getD []) :
    i < s.live.count kind := by
  -- a list that does not exist holds no index
  cases hlook : s.dir.lookup kind n with
  | none =>
    rw [hlook] at hi
    exact absurd hi List.not_mem_nil
  | some is =>
    rw [hlook, Option.getD_some] at hi
    cases kind with
    | real => exact h.real is (Array.mem_of_getElem? hlook) i hi
    | virtual => exact h.virtual is (Array.mem_of_getElem? hlook) i hi

theorem isSome_covers {kind : RegKind} {i : Nat} (hi : i < s.live.count kind) (p : Point) :
    (Indexed.covers s.live p kind i).isSome := by
  cases kind with
  | real =>
    have hget : s.live.pinned[i]? = some s.live.pinned[i] := Array.getElem?_eq_getElem hi
    have hsegs := h.segments _ (Array.getElem_mem hi)
    simp only [Indexed.covers, hget, Option.bind_some]
    exact SegmentRefs.isSome_covers p hsegs
  | virtual =>
    have hget : s.live.virtuals[i]? = some s.live.virtuals[i] := Array.getElem?_eq_getElem hi
    simp [Indexed.covers, hget]

theorem firstLive_ne_stray {kind : RegKind} {p : Point} {is : List Nat}
    (his : ∀ i ∈ is, i < s.live.count kind) : firstLive s.live p kind is ≠ .error .stray := by
  induction is with
  | nil => simp [firstLive]
  -- one range after the other is asked, and each is there to answer
  | cons i rest ih =>
    obtain ⟨hi, hrest⟩ := List.forall_mem_cons.1 his
    obtain ⟨b, hb⟩ := Option.isSome_iff_exists.1 (h.isSome_covers hi p)
    unfold firstLive
    rw [hb]
    cases b with
    -- the range found may be too far out for a key, which is a fault of another kind
    | true => cases RangeKey.make? kind i <;> exact nofun
    | false => exact ih hrest

/-- **Lookup.** No index that a lookup reads points outside. -/
theorem locate_ne_stray (p : Point) (r : Reg) : s.locate p r ≠ .error .stray := by
  -- only the ranges that are listed are read
  have hlive : firstLive s.live p r.kind ((s.dir.lookup r.kind r.index).getD []) ≠ .error .stray :=
    h.firstLive_ne_stray fun i hi => h.lt_count hi
  unfold locate
  split
  · next f hf =>
    intro hstray
    exact hlive (hf.trans (congrArg Except.error (Except.error.inj hstray)))
  · simp
  · simp

omit h in
/-- The ranges of a seed are not read at all, only named. -/
theorem seed_ne_stray (r : Reg) : s.seed r ≠ .error .stray := by
  unfold seed
  split
  · split
    · simp
    · split <;> simp
  · simp

/-- A run over such a store never points outside. -/
theorem propagate_ne_stray (sw : Switches) (moves : List Move) (req : Request) :
    (propagate sw s moves req).outcome ≠ .faulted .stray := by
  intro hstray
  -- a run faults at a lookup or at a seed
  rcases propagate_eq_faulted hstray with ⟨p, r, hlocate⟩ | ⟨r, hseed⟩
  · exact h.locate_ne_stray p r hlocate
  · exact seed_ne_stray r hseed

end InRange

end Indexed

/-! ### Marks of a run that is stopped -/

/-- **Nothing is marked unless a run comes to its end.** Over live ranges with any directory, whatever
is marked already, if no index points outside, and over any table: a run that does not end with a
summary ends in a refusal, for a missing range, or for a broken precondition, and the store is then
as it was before, with every mark and every count. So it is at every moment of the run, whichever
moves and seeds were taken before the one that stops it. -/
theorem marks_kept_unless_finished (sw : Switches) (moves : List Move) (req : Request) :
    (∀ (l : Liveness) (d : Directory), (Indexed.mk l d).InRange →
      (∀ s, (l.propagate sw d moves req).outcome ≠ .finished s) →
        (l.propagate sw d moves req).outcome ≠ .faulted .stray ∧
        (l.propagate sw d moves req).store = ⟨l, d⟩ ∧
        ∀ m, Moment.Leads req (.start (Indexed.mk l d) moves) m → m.store = ⟨l, d⟩) ∧
    ∀ t : RowTable, (∀ s, (propagate sw t moves req).outcome ≠ .finished s) →
      (propagate sw t moves req).store = t ∧
        ∀ m, Moment.Leads req (.start t moves) m → m.store = t := by
  refine ⟨?_, ?_⟩
  -- marks come last, so a run that is stopped has not got to the first of them
  · intro l d hrange hstopped
    have hend := propagate_leads sw (Indexed.mk l d) moves req
    have hkept : ∀ m, Moment.Leads req (.start (Indexed.mk l d) moves) m → m.store = ⟨l, d⟩ :=
      fun m hm => store_eq_of_stopped hstopped hm
    exact ⟨hrange.propagate_ne_stray sw moves req, hkept _ hend, hkept⟩
  · intro t hstopped
    have hend := propagate_leads sw t moves req
    have hkept : ∀ m, Moment.Leads req (.start t moves) m → m.store = t :=
      fun m hm => store_eq_of_stopped hstopped hm
    exact ⟨hkept _ hend, hkept⟩

/-- Live ranges with a directory that is out of date: the range of `v9` is listed under the number 2. -/
def misfiled : Indexed := ⟨Liveness.looping, ⟨#[[], [], [], [0]], #[[0, 2], [1], [3]]⟩⟩

/-- After the moves round the loop `v2 := v1`, which finds the misfiled range, and `v5 := v0`, whose
destination has no range. -/
def misfiledMoves : List Move := Liveness.loopingMoves ++
  [⟨⟨.virtual, .i64, 2⟩, ⟨.virtual, .i64, 1⟩, 3, 1⟩, ⟨⟨.virtual, .i64, 5⟩, ⟨.virtual, .i64, 0⟩, 4, 1⟩]

/-- Rows of `v0`, `r3` and `v1`, the first of which was marked twice. -/
def markedTable : RowTable where
  rows := [⟨⟨.virtual, .i64, 0⟩, ⟨.defOf 0, .useOf 4⟩, ⟨0⟩⟩,
    ⟨⟨.real, .i64, 3⟩, ⟨.defOf 1, .useOf 2⟩, ⟨0x80000000⟩⟩,
    ⟨⟨.virtual, .i64, 1⟩, ⟨.defOf 2, .useOf 5⟩, ⟨1⟩⟩]
  marks := [⟨0⟩, ⟨0⟩]

theorem marks_kept_unless_finished_misfiled :
    misfiled.InRange ∧
      (misfiled.live.propagate .off misfiled.dir misfiledMoves
        ⟨.i64, [⟨.virtual, .i64, 0⟩]⟩).outcome =
          .faulted (.missing ⟨⟨.virtual, .i64, 5⟩, .defOf 4⟩) ∧
      (misfiled.live.propagate .off misfiled.dir misfiledMoves
        ⟨.i64, [⟨.virtual, .i64, 0⟩]⟩).store = misfiled ∧
      (propagate .off markedTable Liveness.loopingMoves
        ⟨.i64, [⟨.virtual, .i64, 0⟩, ⟨.real, .i64, 3⟩]⟩).outcome =
          .refused (.realSeed ⟨.real, .i64, 3⟩) ∧
      (propagate .off markedTable Liveness.loopingMoves
        ⟨.i64, [⟨.virtual, .i64, 0⟩, ⟨.real, .i64, 3⟩]⟩).store = markedTable := by
  have hrange : misfiled.InRange := by decide
  have hlive : (misfiled.live.propagate .off misfiled.dir misfiledMoves
      ⟨.i64, [⟨.virtual, .i64, 0⟩]⟩).outcome =
        .faulted (.missing ⟨⟨.virtual, .i64, 5⟩, .defOf 4⟩) := by decide +kernel
  have htable : (propagate .off markedTable Liveness.loopingMoves
      ⟨.i64, [⟨.virtual, .i64, 0⟩, ⟨.real, .i64, 3⟩]⟩).outcome =
        .refused (.realSeed ⟨.real, .i64, 3⟩) := by decide +kernel
  have hliveStopped := (marks_kept_unless_finished .off misfiledMoves
    ⟨.i64, [⟨.virtual, .i64, 0⟩]⟩).1 misfiled.live misfiled.dir hrange (by simp [hlive])
  have htableStopped := (marks_kept_unless_finished .off Liveness.loopingMoves
    ⟨.i64, [⟨.virtual, .i64, 0⟩, ⟨.real, .i64, 3⟩]⟩).2 markedTable (by simp [htable])
  exact ⟨hrange, hlive, hliveStopped.2.1, htable, htableStopped.1⟩

end RefFlow
