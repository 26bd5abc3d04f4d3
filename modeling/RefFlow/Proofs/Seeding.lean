import RefFlow.Seeding
/-!
# The ranges of a list of seeds

A list of seeds that is taken holds only virtual registers of the reference class, and adds exactly
their ranges to the set.

Main statements:

* `Reg.refusal?_eq_none_iff` — which registers can be seeds;
* `Seeding.collect_stop_eq_none` — what is known of seeds that were all taken;
* `Seeding.mem_collect_iff` — the set after seeds were taken;
* `Seeding.collect_congr` — stores that know the same ranges take seeds alike.
-/

namespace RefFlow

theorem Reg.refusal?_eq_none_iff {c : RegClass} {r : Reg} :
    r.refusal? c = none ↔ r.kind = .virtual ∧ r.cls = c := by
  unfold refusal?
  cases hkind : r.kind with
  | real => simp
  | virtual => by_cases hc : r.cls = c <;> simp [hc]

namespace Seeding

variable {σ : Type} [RangeStore σ] {store : σ}

/-! ### Gathering -/

theorem gather_cons_of_error {set : KeySet} {r : Reg} {rest : List Reg} {f : Fault}
    (h : RangeStore.seed store r = .error f) :
    gather store set (r :: rest) = ⟨set, [], some (.faulted f)⟩ := by
  rw [gather, h]

theorem gather_cons_of_ok {set : KeySet} {r : Reg} {rest : List Reg} {found : SeedFinding}
    (h : RangeStore.seed store r = .ok found) :
    gather store set (r :: rest) =
      let tail := gather store (set.insertAll found.keys) rest
      { tail with notes := found.notes ++ tail.notes } := by
  rw [gather, h]

theorem gather_stop_eq_none_iff {set : KeySet} {seeds : List Reg} :
    (gather store set seeds).stop = none ↔
      ∀ r ∈ seeds, ∃ found, RangeStore.seed store r = .ok found := by
  induction seeds generalizing set with
  | nil => simp [gather]
  | cons r rest ih =>
    rw [List.forall_mem_cons]
    cases hr : RangeStore.seed store r with
    | error f =>
      rw [gather_cons_of_error hr]
      simp
    | ok found =>
      rw [gather_cons_of_ok hr]
      simp only [Except.ok.injEq, exists_eq', true_and]
      exact ih

theorem mem_gather_iff {set : KeySet} {seeds : List Reg} {k : RangeKey}
    (h : (gather store set seeds).stop = none) :
    k ∈ (gather store set seeds).set ↔
      k ∈ set ∨ ∃ r ∈ seeds, ∃ found, RangeStore.seed store r = .ok found ∧ k ∈ found.keys := by
  -- seed by seed, with the keys of those before in the set
  induction seeds generalizing set with
  | nil => simp [gather]
  | cons r rest ih =>
    obtain ⟨found, hr⟩ := gather_stop_eq_none_iff.1 h r List.mem_cons_self
    rw [gather_cons_of_ok hr] at h ⊢
    simp only [List.mem_cons, exists_eq_or_imp]
    rw [ih h, KeySet.mem_insertAll, or_assoc, hr]
    simp only [Except.ok.injEq, exists_eq_left']

theorem gather_stop_eq_some {set : KeySet} {seeds : List Reg} {stop : Stop}
    (h : (gather store set seeds).stop = some stop) :
    ∃ r ∈ seeds, ∃ f, RangeStore.seed store r = .error f ∧ stop = .faulted f := by
  induction seeds generalizing set with
  | nil => exact absurd h (by simp [gather])
  | cons r rest ih =>
    cases hr : RangeStore.seed store r with
    | error f =>
      rw [gather_cons_of_error hr] at h
      exact ⟨r, List.mem_cons_self, f, hr, (Option.some.inj h).symm⟩
    | ok found =>
      rw [gather_cons_of_ok hr] at h
      obtain ⟨q, hq, hfault⟩ := ih h
      exact ⟨q, List.mem_cons_of_mem r hq, hfault⟩

/-! ### Collecting -/

/-- Checked seeds are gathered. -/
theorem collect_of_stop_eq_none {req : Request} {set : KeySet}
    (h : (collect store req set).stop = none) :
    collect store req set = gather store set req.seeds ∧
      ∀ r ∈ req.seeds, r.kind = .virtual ∧ r.cls = req.refClass := by
  unfold collect at h ⊢
  cases hfind : req.seeds.findSome? (Reg.refusal? req.refClass) with
  | some refusal =>
    rw [hfind] at h
    exact absurd h (by simp)
  | none =>
    -- no seed is refused, and then gathering is all that is left
    refine ⟨rfl, ?_⟩
    intro r hr
    exact Reg.refusal?_eq_none_iff.1 (List.findSome?_eq_none_iff.1 hfind r hr)

/-- **Seeds that were all taken.** All are virtual registers of the reference class, and the store
knows their ranges. -/
theorem collect_stop_eq_none {req : Request} {set : KeySet}
    (h : (collect store req set).stop = none) {r : Reg} (hr : r ∈ req.seeds) :
    r.kind = .virtual ∧ r.cls = req.refClass ∧ ∃ found, RangeStore.seed store r = .ok found := by
  obtain ⟨hcollect, hok⟩ := collect_of_stop_eq_none h
  rw [hcollect] at h
  exact ⟨(hok r hr).1, (hok r hr).2, gather_stop_eq_none_iff.1 h r hr⟩

/-- Seeds fault where the store does not know the ranges of one of them. All were checked by
then. -/
theorem collect_stop_eq_faulted {req : Request} {set : KeySet} {f : Fault}
    (h : (collect store req set).stop = some (.faulted f)) :
    ∃ r ∈ req.seeds, r.kind = .virtual ∧ RangeStore.seed store r = .error f := by
  unfold collect at h
  cases hfind : req.seeds.findSome? (Reg.refusal? req.refClass) with
  | some refusal =>
    rw [hfind] at h
    exact absurd h (by simp)
  | none =>
    rw [hfind] at h
    -- nothing was refused, so the fault comes from gathering
    obtain ⟨r, hr, f', hseed, hstop⟩ := gather_stop_eq_some h
    obtain rfl := Stop.faulted.inj hstop
    have hcheck := List.findSome?_eq_none_iff.1 hfind r hr
    exact ⟨r, hr, (Reg.refusal?_eq_none_iff.1 hcheck).1, hseed⟩

/-- **The set of the seeds.** Seeds that were all taken add exactly their ranges. -/
theorem mem_collect_iff {req : Request} {set : KeySet} {k : RangeKey}
    (h : (collect store req set).stop = none) :
    k ∈ (collect store req set).set ↔ k ∈ set ∨
      ∃ r ∈ req.seeds, ∃ found, RangeStore.seed store r = .ok found ∧ k ∈ found.keys := by
  have hcollect := (collect_of_stop_eq_none h).1
  rw [hcollect] at h ⊢
  exact mem_gather_iff h

/-! ### Stores that agree -/

variable {τ : Type} [RangeStore τ] {other : τ}

theorem gather_congr {set : KeySet} {seeds : List Reg}
    (h : ∀ r ∈ seeds, (RangeStore.seed store r).map (·.keys) =
      (RangeStore.seed other r).map (·.keys)) :
    (gather store set seeds).set = (gather other set seeds).set ∧
      (gather store set seeds).stop = (gather other set seeds).stop := by
  induction seeds generalizing set with
  | nil => exact ⟨rfl, rfl⟩
  | cons r rest ih =>
    obtain ⟨hr, hrest⟩ := List.forall_mem_cons.1 h
    -- the stores fail at the same seed, or go on with the same keys
    cases hs : RangeStore.seed store r with
    | error f =>
      cases ho : RangeStore.seed other r with
      | error f' =>
        rw [hs, ho] at hr
        obtain rfl : f = f' := Except.error.inj hr
        rw [gather_cons_of_error hs, gather_cons_of_error ho]
        exact ⟨rfl, rfl⟩
      | ok found =>
        rw [hs, ho] at hr
        cases hr
    | ok found =>
      cases ho : RangeStore.seed other r with
      | error f =>
        rw [hs, ho] at hr
        cases hr
      | ok found' =>
        rw [hs, ho] at hr
        have hkeys : found.keys = found'.keys := Except.ok.inj hr
        rw [gather_cons_of_ok hs, gather_cons_of_ok ho, hkeys]
        exact ih hrest

/-- **Stores that agree.** Two stores that know the same ranges of all virtual seeds take a list of
seeds alike. -/
theorem collect_congr {req : Request}
    (h : ∀ r ∈ req.seeds, r.kind = .virtual →
      (RangeStore.seed store r).map (·.keys) = (RangeStore.seed other r).map (·.keys))
    (set : KeySet) :
    (collect store req set).set = (collect other req set).set ∧
      (collect store req set).stop = (collect other req set).stop := by
  -- whether a seed is refused does not depend on the store
  unfold collect
  cases hfind : req.seeds.findSome? (Reg.refusal? req.refClass) with
  | some refusal => exact ⟨rfl, rfl⟩
  | none =>
    refine gather_congr ?_
    intro r hr
    exact h r hr (Reg.refusal?_eq_none_iff.1 (List.findSome?_eq_none_iff.1 hfind r hr)).1

end Seeding

end RefFlow
