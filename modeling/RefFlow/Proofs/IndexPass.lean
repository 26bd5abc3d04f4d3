import RefFlow.Segment.Pooled
import Mathlib.Data.List.Basic
/-!
# The pass over the indices of a container

A container that holds indices sees in one pass whether they denote segments in order: each index is
compared with the size of the pool, and only then are the segments of this index and of the one before
it read. What the pass answers is said here without it, and what it does to the pool is shown to be
harmless.

* Its answer is that of the order test on the denoted segments, and the test is failed if some index
  denotes none (`SegmentRefs.inOrder_eq`). It is never missing, as nothing is read that is not there.
* No list of indices, however malformed, makes it read at an index that it did not find in range before
  (`SegmentRefs.guarded_test`).
-/

namespace RefFlow

namespace SegmentRefs

variable {pool : Pool}

/-- An index out of range ends the pass. -/
theorem testFrom_cons_of_le {previous? : Option Nat} {i : Nat} (hi : pool.size ≤ i)
    (rest : List Nat) : testFrom pool previous? (i :: rest) = ⟨[.compare i], some false⟩ := by
  unfold testFrom
  exact if_pos hi

theorem testFrom_cons_of_first {i : Nat} (hi : i < pool.size) (rest : List Nat) :
    testFrom pool none (i :: rest) = (testFrom pool (some i) rest).behind [.compare i] := by
  rw [testFrom, if_neg (Nat.not_le.2 hi)]

/-- An index in range behind another one: the segments of both are read, and they decide. -/
theorem testFrom_cons_of_lt {h i : Nat} (hh : h < pool.size) (hi : i < pool.size)
    (rest : List Nat) :
    testFrom pool (some h) (i :: rest) =
      if pool[h].last < pool[i].first then
        (testFrom pool (some i) rest).behind [.compare i, .read h, .read i]
      else ⟨[.compare i, .read h, .read i], some false⟩ := by
  rw [testFrom, if_neg (Nat.not_le.2 hi), Array.getElem?_eq_getElem hh,
    Array.getElem?_eq_getElem hi]

/-! ### The answer -/

theorem resolve_cons_of_le {i : Nat} (h : pool.size ≤ i) (rest : List Nat) :
    resolve pool ⟨⟨i :: rest⟩⟩ = none := by
  rw [Option.eq_none_iff_forall_ne_some]
  intro segs hsegs
  obtain ⟨g, -, hg, -⟩ := resolve_cons.1 hsegs
  rw [Array.getElem?_eq_none h] at hg
  cases hg

theorem resolve_cons_of_lt {i : Nat} (h : i < pool.size) (rest : List Nat) :
    resolve pool ⟨⟨i :: rest⟩⟩ = (resolve pool ⟨⟨rest⟩⟩).map (pool[i] :: ·) := by
  ext segs
  rw [resolve_cons, Array.getElem?_eq_getElem h, Option.map_eq_some_iff]
  simp only [Option.some.injEq, exists_and_left, exists_eq_left', @eq_comm _ segs]

/-- Behind an index in range, the pass tests the segments of the remaining ones together with the
segment of that index. -/
theorem answer_testFrom {h : Nat} (hh : h < pool.size) (rest : List Nat) :
    (testFrom pool (some h) rest).answer =
      some ((resolve pool ⟨⟨rest⟩⟩).any fun segs => Segment.inOrder (pool[h] :: segs)) := by
  -- by the indices that are left; the one in front of them changes with each
  induction rest generalizing h with
  | nil => rfl
  | cons i rest ih =>
    by_cases hi : pool.size ≤ i
    · rw [testFrom_cons_of_le hi, resolve_cons_of_le hi]
      rfl
    have hlt : i < pool.size := Nat.lt_of_not_le hi
    rw [testFrom_cons_of_lt hh hlt, resolve_cons_of_lt hlt, Option.any_map]
    simp only [Segment.inOrder_cons_cons]
    -- neighbours in order hand the test on, others end it
    by_cases hlast : pool[h].last < pool[i].first
    · rw [if_pos hlast, decide_eq_true hlast]
      simp only [Bool.true_and]
      exact ih hlt
    · rw [if_neg hlast, decide_eq_false hlast]
      simp

theorem answer_test_eq (pool : Pool) (s : SegmentRefs) :
    (s.test pool).answer = some ((s.resolve pool).any Segment.inOrder) := by
  obtain ⟨⟨refs⟩⟩ := s
  unfold test
  -- the first index has no neighbour in front of it, and is only compared
  cases refs with
  | nil => rfl
  | cons i rest =>
    dsimp only
    by_cases hi : pool.size ≤ i
    · rw [testFrom_cons_of_le hi, resolve_cons_of_le hi]
      rfl
    · have hlt : i < pool.size := Nat.lt_of_not_le hi
      rw [testFrom_cons_of_first hlt, resolve_cons_of_lt hlt, Option.any_map]
      exact answer_testFrom hlt rest

/-- **What the test asks**: whether all indices denote segments, and these are in order. -/
theorem inOrder_eq (pool : Pool) (s : SegmentRefs) :
    s.inOrder pool = (s.resolve pool).any Segment.inOrder := by
  unfold inOrder
  rw [answer_test_eq, Option.getD_some]

/-- **The answer is never missing**: the pass reads nothing that is not there. -/
theorem answer_test (pool : Pool) (s : SegmentRefs) :
    (s.test pool).answer = some (s.inOrder pool) := by
  rw [answer_test_eq, inOrder_eq]

end SegmentRefs

/-! ### The accesses -/

/-- Every index that is read was found in range before: it had been compared with the size of the pool,
and was less. -/
def PoolAccess.Guarded (pool : Pool) (accesses : List PoolAccess) : Prop :=
  ∀ before i after, accesses = before ++ .read i :: after → .compare i ∈ before ∧ i < pool.size

namespace PoolAccess

variable {pool : Pool} {accesses : List PoolAccess}

theorem guarded_nil : Guarded pool [] := by
  intro before i after h
  exact absurd h.symm (by simp)

/-- One more access, which is no read or is guarded by what came before. -/
theorem Guarded.concat {a : PoolAccess} (h : Guarded pool accesses)
    (ha : ∀ i, a = .read i → .compare i ∈ accesses ∧ i < pool.size) :
    Guarded pool (accesses ++ [a]) := by
  intro before i after hsplit
  -- the read is the new access, or it stands before that
  rcases List.eq_nil_or_concat after with rfl | ⟨after, b, rfl⟩
  · obtain ⟨rfl, hlast⟩ := List.append_inj' hsplit rfl
    exact ha i (List.singleton_inj.1 hlast)
  · rw [List.concat_eq_append, ← List.cons_append, ← List.append_assoc] at hsplit
    exact h before i after (List.append_inj' hsplit rfl).1

end PoolAccess

namespace SegmentRefs

variable {pool : Pool}

/-- A pass whose accesses so far were guarded, and that found the index in front of it in range, goes on
so. -/
theorem guarded_testFrom {done : List PoolAccess} {previous? : Option Nat}
    (hdone : PoolAccess.Guarded pool done)
    (hprevious : ∀ h, previous? = some h → .compare h ∈ done ∧ h < pool.size) (rest : List Nat) :
    PoolAccess.Guarded pool (done ++ (testFrom pool previous? rest).accesses) := by
  -- what was done grows with each index, and with it what guards the reads to come
  induction rest generalizing done previous? with
  | nil => simpa [testFrom] using hdone
  | cons i rest ih =>
    have hcompare : PoolAccess.Guarded pool (done ++ [.compare i]) := hdone.concat nofun
    by_cases hi : pool.size ≤ i
    · rw [testFrom_cons_of_le hi]
      exact hcompare
    have hlt : i < pool.size := Nat.lt_of_not_le hi
    cases previous? with
    | none =>
      have hrest : PoolAccess.Guarded pool
          (done ++ [.compare i] ++ (testFrom pool (some i) rest).accesses) :=
        ih hcompare (by simp [hlt])
      rw [testFrom_cons_of_first hlt]
      simpa [TestRun.behind] using hrest
    | some h =>
      obtain ⟨hmem, hh⟩ := hprevious h rfl
      -- both reads come after the comparisons of their indices
      have hreads : PoolAccess.Guarded pool (done ++ [.compare i, .read h, .read i]) := by
        have hfirst : PoolAccess.Guarded pool (done ++ [.compare i] ++ [.read h]) :=
          hcompare.concat (by simp [hmem, hh])
        have hsecond : PoolAccess.Guarded pool (done ++ [.compare i] ++ [.read h] ++ [.read i]) :=
          hfirst.concat (by simp [hlt])
        simpa using hsecond
      rw [testFrom_cons_of_lt hh hlt]
      split
      · have hrest : PoolAccess.Guarded pool (done ++ [.compare i, .read h, .read i] ++
            (testFrom pool (some i) rest).accesses) := ih hreads (by simp [hlt])
        simpa [TestRun.behind] using hrest
      · exact hreads

/-- **Every read is guarded**, whatever the indices are. -/
theorem guarded_test (pool : Pool) (s : SegmentRefs) :
    PoolAccess.Guarded pool (s.test pool).accesses :=
  guarded_testFrom PoolAccess.guarded_nil (by simp) s.refs.toList

end SegmentRefs

end RefFlow
