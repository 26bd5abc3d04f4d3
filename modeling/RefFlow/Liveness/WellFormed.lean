import RefFlow.Liveness.Basic
/-!
# Well-formed liveness

What the checked constructors promise of a function's ranges, said without them: segments hold a
point each and are pairwise disjoint in ascending order, every index into the pool denotes a
segment, every range is of a register of its kind, and there are few enough ranges to be named
by keys.
-/

namespace RefFlow

/-- Every segment holds a point, and each lies wholly before all that follow it. -/
structure Segment.Ascending (segs : List Segment) : Prop where
  valid : ∀ s ∈ segs, s.Valid
  disjoint : segs.Pairwise fun a b => a.last < b.first

instance (segs : List Segment) : Decidable (Segment.Ascending segs) :=
  decidable_of_iff ((∀ s ∈ segs, s.Valid) ∧ segs.Pairwise fun a b => a.last < b.first)
    ⟨fun h => ⟨h.1, h.2⟩, fun h => ⟨h.valid, h.disjoint⟩⟩

/-- A range of a real register whose indices denote ascending segments of the pool. -/
structure PinnedRange.WellFormed (pool : Pool) (r : PinnedRange) : Prop where
  real : r.reg.kind = .real
  segs : ∃ segs, r.segs.resolve pool = some segs ∧ Segment.Ascending segs

instance (pool : Pool) (r : PinnedRange) : Decidable (r.WellFormed pool) :=
  decidable_of_iff (r.reg.kind = .real ∧
      (r.segs.resolve pool).any (fun segs => decide (Segment.Ascending segs)) = true) <| by
    rw [Option.any_eq_true]
    simp only [decide_eq_true_iff]
    exact ⟨fun h => ⟨h.1, h.2⟩, fun h => ⟨h.real, h.segs⟩⟩

/-- A range of a virtual register with ascending segments. -/
structure VregRange.WellFormed (r : VregRange) : Prop where
  virtual : r.reg.kind = .virtual
  segs : Segment.Ascending r.segs.items.toList

instance (r : VregRange) : Decidable r.WellFormed :=
  decidable_of_iff (r.reg.kind = .virtual ∧ Segment.Ascending r.segs.items.toList)
    ⟨fun h => ⟨h.1, h.2⟩, fun h => ⟨h.virtual, h.segs⟩⟩

/-- Ranges that the checked constructors can have made, few enough to be named by keys, and with
register numbers short of the largest word. -/
structure Liveness.WellFormed (l : Liveness) : Prop where
  pinned : ∀ r ∈ l.pinned, r.WellFormed l.pool
  virtuals : ∀ r ∈ l.virtuals, r.WellFormed
  pinned_index : ∀ r ∈ l.pinned, r.reg.index < 0xFFFFFFFF
  virtual_index : ∀ r ∈ l.virtuals, r.reg.index < 0xFFFFFFFF
  pinned_size : l.pinned.size ≤ RangeKey.lastIndex + 1
  virtual_size : l.virtuals.size ≤ RangeKey.lastIndex + 1

instance (l : Liveness) : Decidable l.WellFormed :=
  decidable_of_iff ((∀ r ∈ l.pinned, r.WellFormed l.pool) ∧ (∀ r ∈ l.virtuals, r.WellFormed) ∧
      (∀ r ∈ l.pinned, r.reg.index < 0xFFFFFFFF) ∧ (∀ r ∈ l.virtuals, r.reg.index < 0xFFFFFFFF) ∧
      l.pinned.size ≤ RangeKey.lastIndex + 1 ∧ l.virtuals.size ≤ RangeKey.lastIndex + 1)
    ⟨fun ⟨h₁, h₂, h₃, h₄, h₅, h₆⟩ => ⟨h₁, h₂, h₃, h₄, h₅, h₆⟩,
      fun ⟨h₁, h₂, h₃, h₄, h₅, h₆⟩ => ⟨h₁, h₂, h₃, h₄, h₅, h₆⟩⟩

end RefFlow
