import RefFlow.Liveness.WellFormed
import RefFlow.Proofs.IndexPass
/-!
# Checked ranges are well formed

The checked constructors promise well-formed liveness: what `Segment.make?`, the two containers and
the two kinds of ranges let pass is what `Liveness.WellFormed` asks for, and it stays so as segments
and ranges are added.

Main statements:

* `Segment.ascending_of_inOrder` — segments that pass the tests are ascending;
* `PinnedRange.wellFormed_of_make?`, `VregRange.wellFormed_of_make?` — checked ranges;
* `Liveness.WellFormed.pushSegment`, `Liveness.WellFormed.pushPinned`,
  `Liveness.WellFormed.pushVreg` — well-formed liveness grows to well-formed liveness.
-/

namespace RefFlow

/-- A computation goes through if its first step does, and the rest with what that gave. -/
theorem bind_eq_ok_iff {ε α β : Type} {x : Except ε α} {f : α → Except ε β} {b : β} :
    x >>= f = .ok b ↔ ∃ a, x = .ok a ∧ f a = .ok b := by
  constructor
  · intro h
    cases x with
    | error e => cases h
    | ok a => exact ⟨a, rfl, h⟩
  · rintro ⟨a, rfl, hf⟩
    exact hf

/-! ### Segments -/

/-- The test of adjacent pairs speaks for all pairs, for no segment ends before it starts. -/
theorem Segment.ascending_of_inOrder {segs : List Segment} (hvalid : ∀ s ∈ segs, s.Valid)
    (h : inOrder segs = true) : Ascending segs := by
  refine ⟨hvalid, ?_⟩
  -- from the back: the head has to be compared with its neighbour only
  induction segs with
  | nil => exact .nil
  | cons a rest ih =>
    obtain ⟨-, hrest⟩ := List.forall_mem_cons.1 hvalid
    cases rest with
    | nil => exact List.pairwise_singleton _ a
    | cons b rest =>
      rw [inOrder_cons_cons, Bool.and_eq_true, decide_eq_true_iff] at h
      have htail := ih hrest h.2
      refine List.pairwise_cons.2 ⟨?_, htail⟩
      intro c hc
      rcases List.mem_cons.1 hc with rfl | hc
      · exact h.1
      -- past `b`, which ends no earlier than it starts
      · have hab := h.1
        have hb : b.first ≤ b.last := hrest b List.mem_cons_self
        have hbc : b.last < c.first := (List.pairwise_cons.1 htail).1 c hc
        rw [Point.lt_iff_pos_lt] at hab hbc ⊢
        rw [Point.le_iff_pos_le] at hb
        omega

theorem Segments.ascending_of_make? {items : Array Segment} {s : Segments}
    (hvalid : ∀ g ∈ items, g.Valid) (h : make? items = .ok s) :
    Segment.Ascending s.items.toList := by
  unfold make? at h
  split at h
  · next hord =>
    obtain rfl := Except.ok.inj h
    exact Segment.ascending_of_inOrder (fun g hg => hvalid g (Array.mem_toList_iff.1 hg)) hord
  · exact absurd h (by simp)

namespace SegmentRefs

/-- All segments that indices denote are in the pool. -/
theorem mem_of_resolve {pool : Pool} {s : SegmentRefs} {segs : List Segment}
    (h : s.resolve pool = some segs) : ∀ g ∈ segs, g ∈ pool := by
  obtain ⟨⟨refs⟩⟩ := s
  -- each index is resolved on its own
  induction refs generalizing segs with
  | nil =>
    obtain rfl : segs = [] := by simpa [resolve] using h.symm
    exact fun g hg => absurd hg List.not_mem_nil
  | cons i rest ih =>
    obtain ⟨g, gs, hg, hgs, rfl⟩ := resolve_cons.1 h
    exact List.forall_mem_cons.2 ⟨Array.mem_of_getElem? hg, ih hgs⟩

theorem ascending_of_make? {pool : Pool} {refs : Array Nat} {s : SegmentRefs}
    (hvalid : ∀ g ∈ pool, g.Valid) (h : make? pool refs = .ok s) :
    ∃ segs, s.resolve pool = some segs ∧ Segment.Ascending segs := by
  unfold make? at h
  split at h
  · next hord =>
    obtain rfl := Except.ok.inj h
    rw [inOrder_eq] at hord
    obtain ⟨segs, hres, hseg⟩ := (Option.any_eq_true _ _).1 hord
    -- valid is what is in the pool, and that is where all of them are
    have hvalid' : ∀ g ∈ segs, g.Valid := fun g hg => hvalid g (mem_of_resolve hres g hg)
    exact ⟨segs, hres, Segment.ascending_of_inOrder hvalid' hseg⟩
  · exact absurd h (by simp)

/-- Indices keep what they denote as the pool grows. -/
theorem resolve_push {pool : Pool} {s : SegmentRefs} {segs : List Segment}
    (h : s.resolve pool = some segs) (g : Segment) : s.resolve (pool.push g) = some segs := by
  obtain ⟨⟨refs⟩⟩ := s
  induction refs generalizing segs with
  | nil => exact h
  | cons i rest ih =>
    obtain ⟨a, as, ha, has, rfl⟩ := resolve_cons.1 h
    -- an index that denotes a segment is below the new one
    have hlt : i < pool.size := (Array.getElem?_eq_some_iff.1 ha).1
    have hpush : (pool.push g)[i]? = some a := by
      rw [Array.getElem?_push_lt hlt, ← ha, Array.getElem?_eq_getElem hlt]
    exact resolve_cons.2 ⟨a, as, hpush, ih has, rfl⟩

end SegmentRefs

/-! ### Ranges -/

/-- A checked range of a real register over a pool of valid segments. -/
theorem PinnedRange.wellFormed_of_make? {pool : Pool} {refs : Array Nat} {segs : SegmentRefs}
    {reg : Reg} {r : PinnedRange} (hvalid : ∀ g ∈ pool, g.Valid)
    (hsegs : SegmentRefs.make? pool refs = .ok segs) (h : make? reg segs = .ok r) :
    r.WellFormed pool := by
  unfold make? at h
  split at h
  · next hreal =>
    obtain rfl := Except.ok.inj h
    exact ⟨hreal, SegmentRefs.ascending_of_make? hvalid hsegs⟩
  · exact absurd h (by simp)

/-- A checked range of a virtual register with valid segments. -/
theorem VregRange.wellFormed_of_make? {items : Array Segment} {segs : Segments} {reg : Reg}
    {r : VregRange} (hvalid : ∀ g ∈ items, g.Valid) (hsegs : Segments.make? items = .ok segs)
    (h : make? reg segs = .ok r) : r.WellFormed := by
  unfold make? at h
  split at h
  · next hvirtual =>
    obtain rfl := Except.ok.inj h
    exact ⟨hvirtual, Segments.ascending_of_make? hvalid hsegs⟩
  · exact absurd h (by simp)

theorem PinnedRange.WellFormed.push {pool : Pool} {r : PinnedRange} (h : r.WellFormed pool)
    (g : Segment) : r.WellFormed (pool.push g) := by
  obtain ⟨segs, hres, hasc⟩ := h.segs
  exact ⟨h.real, segs, SegmentRefs.resolve_push hres g, hasc⟩

/-! ### Liveness -/

namespace Liveness

variable {l : Liveness}

theorem wellFormed_empty : empty.WellFormed := by decide

namespace WellFormed

variable (hw : l.WellFormed)
include hw

theorem pushSegment (g : Segment) : (l.pushSegment g).WellFormed :=
  { hw with pinned := fun r hr => (hw.pinned r hr).push g }

theorem pushPinned {r : PinnedRange} (hr : r.WellFormed l.pool) (hindex : r.reg.index < 0xFFFFFFFF)
    (hsize : l.pinned.size ≤ RangeKey.lastIndex) : (l.pushPinned r).WellFormed where
  pinned := Array.forall_mem_push.2 ⟨hr, hw.pinned⟩
  virtuals := hw.virtuals
  pinned_index := Array.forall_mem_push.2 ⟨hindex, hw.pinned_index⟩
  virtual_index := hw.virtual_index
  pinned_size := by
    show (l.pinned.push r).size ≤ _
    rw [Array.size_push]
    exact Nat.succ_le_succ hsize
  virtual_size := hw.virtual_size

theorem pushVreg {r : VregRange} (hr : r.WellFormed) (hindex : r.reg.index < 0xFFFFFFFF)
    (hsize : l.virtuals.size ≤ RangeKey.lastIndex) : (l.pushVreg r).WellFormed where
  pinned := hw.pinned
  virtuals := Array.forall_mem_push.2 ⟨hr, hw.virtuals⟩
  pinned_index := hw.pinned_index
  virtual_index := Array.forall_mem_push.2 ⟨hindex, hw.virtual_index⟩
  pinned_size := hw.pinned_size
  virtual_size := by
    show (l.virtuals.push r).size ≤ _
    rw [Array.size_push]
    exact Nat.succ_le_succ hsize

end WellFormed

end Liveness

end RefFlow
