import RefFlow.Bisect
import RefFlow.Segment.Basic
/-!
# The segment that can hold a point

Among segments whose starts ascend, only the last one that starts at or before a point can hold
it if no two of them overlap. `holds?` finds that one by halving and asks it alone. The segments
are given by a reading function, so that the same search serves segments held in place and
segments held as indices into a pool.

Main statement: `holds?_eq` — on readable segments with ascending starts the answer is that of
the last segment starting at or before the point, and no if there is none.
-/

namespace RefFlow

/-- Whether the last of `count` segments that starts at or before `p` holds `p`. The segments are
read through `read`; `none` if a position that the search needs cannot be read. -/
def holds? (read : Nat → Option Segment) (count : Nat) (p : Point) : Option Bool :=
  match firstAfter (fun i => (read i).map fun s => decide (p < s.first)) 0 count with
  | none => none
  | some 0 => some false
  | some (k + 1) => (read k).map fun s => decide (p ∈ s)

/-- If exactly the first `k` segments start at or before the point, the last of those decides. -/
theorem holds?_eq {read : Nat → Option Segment} {count k : Nat} {p : Point} {seg : Nat → Segment}
    (hk : k ≤ count) (hread : ∀ i < count, read i = some (seg i))
    (hstart : ∀ i < count, (seg i).first ≤ p ↔ i < k) :
    holds? read count p = some (decide (0 < k ∧ p ∈ seg (k - 1))) := by
  -- the first segment that starts after the point is the one at `k`
  have hfind :
      firstAfter (fun i => (read i).map fun s => decide (p < s.first)) 0 count = some k := by
    refine firstAfter_eq_some (Nat.zero_le k) (by omega) fun i _ hi => ?_
    have hi' : i < count := by omega
    have hnot : p < (seg i).first ↔ k ≤ i := by
      rw [← Nat.not_lt, ← hstart i hi']
      exact Decidable.not_not.symm
    simp only [hread i hi', Option.map_some, hnot]
  unfold holds?
  rw [hfind]
  cases k with
  | zero => simp
  | succ k => simp [hread k hk]

end RefFlow
