import RefFlow.Proofs.RowMarks
import RefFlow.Proofs.Verdict
/-!
# All seeds or none

All seeds are checked before the ranges of any are collected. So one bad seed, wherever it stands,
has the whole list refused, and the set that the ranges go into stays as it was. Of several bad
seeds the first one is named. Without a bad seed exactly the ranges of the seeds join the set,
whatever was in it before.

What is checked is also what the stores rely on: live ranges take a seed only if it is virtual. The
ranges need not be well-formed for this, and there need only be keys for them.

Main statements:

* `Seeding.collect_of_bad` — a bad seed, over any store;
* `Seeding.collect_ne_notVirtual` — no seed reaches live ranges unchecked;
* `RowTable.collect_of_good`, `Liveness.collect_of_good` — no bad seed, over the two stores;
* `Seeding.collect_all_or_none` — the three together.
-/

namespace RefFlow

variable {req : Request}

/-- A bad seed is refused for being real, whatever its class, or else for its class. -/
theorem Reg.refusal?_of_badSeed {c : RegClass} {r : Reg} (h : r.BadSeed c) :
    r.refusal? c = some (if r.kind = .real then .realSeed r else .foreignSeed r c) := by
  unfold refusal?
  by_cases hkind : r.kind = .real
  · rw [if_pos hkind, if_pos hkind]
  · rw [if_neg hkind, if_neg hkind, if_pos (h.resolve_left hkind)]

namespace Seeding

section Store

variable {σ : Type} [RangeStore σ]

/-- **A bad seed** has nothing collected, even if good ones precede it. The refusal is that of the
first bad one. -/
theorem collect_of_bad (store : σ) (h : ∃ r ∈ req.seeds, r.BadSeed req.refClass) (set : KeySet) :
    ∃ before r after, req.seeds = before ++ r :: after ∧
      (∀ q ∈ before, ¬ q.BadSeed req.refClass) ∧ r.BadSeed req.refClass ∧
      collect store req set = ⟨set, [], some (.refused
        (if r.kind = .real then .realSeed r else .foreignSeed r req.refClass))⟩ := by
  -- a bad seed is refused, so some seed is, and the first such one is bad
  cases hfind : req.seeds.findSome? (Reg.refusal? req.refClass) with
  | none =>
    obtain ⟨r, hr, hbad⟩ := h
    have hok := List.findSome?_eq_none_iff.1 hfind r hr
    exact absurd hbad (Reg.refusal?_eq_none_iff_not_badSeed.1 hok)
  | some refusal =>
    obtain ⟨before, r, after, hsplit, hr, hbefore⟩ := List.findSome?_eq_some_iff.1 hfind
    have hbad : r.BadSeed req.refClass := by
      refine Decidable.byContradiction fun hok => ?_
      rw [Reg.refusal?_eq_none_iff_not_badSeed.2 hok] at hr
      cases hr
    refine ⟨before, r, after, hsplit, ?_, hbad, ?_⟩
    · intro q hq
      exact Reg.refusal?_eq_none_iff_not_badSeed.1 (hbefore q hq)
    · obtain rfl := Option.some.inj (hr.symm.trans (Reg.refusal?_of_badSeed hbad))
      unfold collect
      rw [hfind]

/-- Without a bad seed no seed is refused. -/
theorem collect_stop_of_good {store : σ} {set : KeySet}
    (hgood : ∀ r ∈ req.seeds, ¬ r.BadSeed req.refClass)
    (hseed : ∀ r : Reg, r.kind = .virtual → ∃ found, RangeStore.seed store r = .ok found) :
    (collect store req set).stop = none := by
  have hnone : req.seeds.findSome? (Reg.refusal? req.refClass) = none :=
    List.findSome?_eq_none_iff.2 fun r hr => Reg.refusal?_eq_none_iff_not_badSeed.2 (hgood r hr)
  rw [collect_stop set hseed, hnone, Option.map_none]

end Store

/-- What fails for a list fails for one of its entries. -/
theorem exists_of_mapM_eq_error {α β ε : Type} {f : α → Except ε β} {xs : List α} {e : ε}
    (h : xs.mapM f = .error e) : ∃ x ∈ xs, f x = .error e := by
  -- the first entry fails, or the list of the others does
  induction xs with
  | nil => cases h
  | cons x rest ih =>
    rw [List.mapM_cons] at h
    cases hx : f x with
    | error e' =>
      rw [hx] at h
      obtain rfl : e' = e := Except.error.inj h
      exact ⟨x, List.mem_cons_self, hx⟩
    | ok y =>
      cases hrest : rest.mapM f with
      | error e' =>
        rw [hx, hrest] at h
        obtain rfl : e' = e := Except.error.inj h
        obtain ⟨z, hz, hfail⟩ := ih hrest
        exact ⟨z, List.mem_cons_of_mem x hz, hfail⟩
      | ok ys =>
        rw [hx, hrest] at h
        cases h

/-- Live ranges do not take a virtual seed for a real one. -/
theorem seed_ne_notVirtual (s : Indexed) {r : Reg} (hr : r.kind = .virtual) :
    s.seed r ≠ .error (.violation .registerNotVirtual) := by
  unfold Indexed.seed
  rw [if_pos hr]
  split
  · simp
  · split
    -- a range listed may be too far out for a key, which is another violation
    · next v hkeys =>
      obtain ⟨i, -, hi⟩ := exists_of_mapM_eq_error hkeys
      unfold RangeKey.ofVirtual? at hi
      split at hi
      · cases hi
      · obtain rfl := Except.error.inj hi
        simp
    · simp

/-- **No seed reaches live ranges unchecked**, whatever the directory is. -/
theorem collect_ne_notVirtual (s : Indexed) (req : Request) (set : KeySet) :
    (collect s req set).stop ≠ some (.faulted (.violation .registerNotVirtual)) := by
  intro h
  obtain ⟨r, -, hkind, hseed⟩ := collect_stop_eq_faulted h
  exact seed_ne_notVirtual s hkind hseed

end Seeding

/-! ### No bad seed -/

section Good

variable (hgood : ∀ r ∈ req.seeds, ¬ r.BadSeed req.refClass) (set : KeySet)
include hgood

/-- **Good seeds over a table** add the keys of all rows of a seed. -/
theorem RowTable.collect_of_good (t : RowTable) :
    (Seeding.collect t req set).stop = none ∧
      ∀ k, k ∈ (Seeding.collect t req set).set ↔
        k ∈ set ∨ ∃ row ∈ t.rows, row.reg ∈ req.seeds ∧ row.key = k := by
  have hstop : (Seeding.collect t req set).stop = none :=
    Seeding.collect_stop_of_good hgood fun _ _ => ⟨_, rfl⟩
  refine ⟨hstop, fun k => ?_⟩
  rw [Seeding.mem_collect_iff hstop, exists_seed_iff]

/-- **Good seeds over live ranges** add the keys of all ranges of virtual registers with the number
of a seed. -/
theorem Liveness.collect_of_good {l : Liveness} (hsize : l.virtuals.size ≤ RangeKey.lastIndex + 1) :
    (Seeding.collect (Indexed.mk l (.ofLiveness l)) req set).stop = none ∧
      ∀ k, k ∈ (Seeding.collect (Indexed.mk l (.ofLiveness l)) req set).set ↔
        k ∈ set ∨ l.Seeded req.seeds k.site := by
  -- a seed that is not bad is virtual, and its ranges are known
  have hvirtual : ∀ r ∈ req.seeds, r.kind = .virtual := by
    intro r hr
    have hok := Reg.refusal?_eq_none_iff_not_badSeed.2 (hgood r hr)
    exact (Reg.refusal?_eq_none_iff.1 hok).1
  have hstop : (Seeding.collect (Indexed.mk l (.ofLiveness l)) req set).stop = none := by
    refine Seeding.collect_stop_of_good hgood fun r hr => ?_
    obtain ⟨found, hfound, -⟩ := seed_eq_ok hsize hr
    exact ⟨found, hfound⟩
  refine ⟨hstop, fun k => ?_⟩
  rw [Seeding.mem_collect_iff hstop, exists_seed_iff hsize hvirtual]

end Good

/-! ### All or none -/

/-- **All seeds or none.** Into any set:

* if some seed is bad, then over any store nothing is collected, and the refusal is that of the
  first bad one: for being real, whatever its class, or else for its class;
* if no seed is bad, the ranges of all are collected, and nothing else: over a table those of the
  rows of a seed; over live ranges, with a key for each, those of virtual registers that have the
  number of a seed;
* live ranges never find a seed not to be virtual, whatever the directory is. -/
theorem Seeding.collect_all_or_none (req : Request) (set : KeySet) :
    ((∃ r ∈ req.seeds, r.BadSeed req.refClass) → ∀ {σ : Type} [RangeStore σ] (store : σ),
      ∃ before r after, req.seeds = before ++ r :: after ∧
        (∀ q ∈ before, ¬ q.BadSeed req.refClass) ∧ r.BadSeed req.refClass ∧
        collect store req set = ⟨set, [], some (.refused
          (if r.kind = .real then .realSeed r else .foreignSeed r req.refClass))⟩) ∧
    ((∀ r ∈ req.seeds, ¬ r.BadSeed req.refClass) →
      (∀ t : RowTable, (collect t req set).stop = none ∧
        ∀ k, k ∈ (collect t req set).set ↔
          k ∈ set ∨ ∃ row ∈ t.rows, row.reg ∈ req.seeds ∧ row.key = k) ∧
      ∀ l : Liveness, l.virtuals.size ≤ RangeKey.lastIndex + 1 →
        (collect (Indexed.mk l (.ofLiveness l)) req set).stop = none ∧
          ∀ k, k ∈ (collect (Indexed.mk l (.ofLiveness l)) req set).set ↔
            k ∈ set ∨ l.Seeded req.seeds k.site) ∧
    ∀ s : Indexed, (collect s req set).stop ≠ some (.faulted (.violation .registerNotVirtual)) := by
  refine ⟨fun hbad _ _ store => collect_of_bad store hbad set, fun hgood => ⟨fun t => ?_, ?_⟩, ?_⟩
  · exact t.collect_of_good hgood set
  · intro l hsize
    exact Liveness.collect_of_good hgood set hsize
  · intro s
    exact collect_ne_notVirtual s req set

/-- A good seed before a foreign and a real one. -/
def strayingSeeds : List Reg := [⟨.virtual, .i64, 0⟩, ⟨.virtual, .f64, 9⟩, ⟨.real, .i64, 3⟩]

/-- Good seeds, of which one is repeated and one has no ranges. -/
def plainSeeds : List Reg := [⟨.virtual, .i64, 0⟩, ⟨.virtual, .i64, 5⟩, ⟨.virtual, .i64, 0⟩]

/-- The set holds a key of its own already. -/
theorem Seeding.collect_all_or_none_looping :
    (∃ r ∈ strayingSeeds, r.BadSeed .i64) ∧
      collect (Indexed.mk Liveness.looping (.ofLiveness Liveness.looping)) ⟨.i64, strayingSeeds⟩
          (KeySet.empty.insert ⟨7⟩) =
        ⟨KeySet.empty.insert ⟨7⟩, [], some (.refused (.foreignSeed ⟨.virtual, .f64, 9⟩ .i64))⟩ ∧
      (∀ r ∈ plainSeeds, ¬ r.BadSeed .i64) ∧
      Liveness.looping.virtuals.size ≤ RangeKey.lastIndex + 1 ∧
      (∀ k, k ∈ (collect (Indexed.mk Liveness.looping (.ofLiveness Liveness.looping))
          ⟨.i64, plainSeeds⟩ (KeySet.empty.insert ⟨7⟩)).set ↔
        k ∈ KeySet.empty.insert ⟨7⟩ ∨ Liveness.looping.Seeded plainSeeds k.site) ∧
      (⟨1⟩ : RangeKey) ∈
        (collect RowTable.tallied ⟨.i64, plainSeeds⟩ (KeySet.empty.insert ⟨7⟩)).set := by
  have hbad : ∃ r ∈ strayingSeeds, r.BadSeed .i64 := by decide
  have hgood : ∀ r ∈ plainSeeds, ¬ r.BadSeed .i64 := by decide
  have hsize : Liveness.looping.virtuals.size ≤ RangeKey.lastIndex + 1 := by decide
  obtain ⟨hrefused, -, -⟩ := collect_all_or_none ⟨.i64, strayingSeeds⟩ (KeySet.empty.insert ⟨7⟩)
  obtain ⟨-, htaken, -⟩ := collect_all_or_none ⟨.i64, plainSeeds⟩ (KeySet.empty.insert ⟨7⟩)
  obtain ⟨htable, hlive⟩ := htaken hgood
  obtain ⟨before, r, after, hsplit, hbefore, hr, hrun⟩ :=
    hrefused hbad (Indexed.mk Liveness.looping (.ofLiveness Liveness.looping))
  -- the first bad seed is the second one of the list
  obtain rfl : r = ⟨.virtual, .f64, 9⟩ := by
    rcases before with _ | ⟨a, _ | ⟨b, more⟩⟩
    · cases hsplit
      exact absurd hr (by decide)
    · cases hsplit
      rfl
    · obtain ⟨-, hsecond⟩ := List.cons.inj hsplit
      have hb : ¬ b.BadSeed .i64 := hbefore b (by simp)
      rw [← (List.cons.inj hsecond).1] at hb
      exact absurd hb (by decide)
  exact ⟨hbad, hrun, hgood, hsize, (hlive _ hsize).2, ((htable _).2 _).2 (.inr (by decide))⟩

end RefFlow
