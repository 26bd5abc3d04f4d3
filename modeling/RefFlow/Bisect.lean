/-!
# Search by halving

`firstAfter after lo len` looks in the positions `lo, …, lo + len - 1` for the first at which
`after` holds, reading only about `log₂ len` of them. It is meant for a property that, once it
holds, holds at all later positions. A position that cannot be read ends the search without an
answer.

Main statement: `firstAfter_eq_some` — if every position can be read and the property is monotone
with threshold `k`, then `k` is what is found.
-/

namespace RefFlow

/-- The first of `len` positions from `lo` on at which `after` holds, or `lo + len` if there is
none; `none` if the search met a position that cannot be read. -/
def firstAfter (after : Nat → Option Bool) (lo len : Nat) : Option Nat :=
  if len = 0 then some lo
  else
    match after (lo + len / 2) with
    | none => none
    | some true => firstAfter after lo (len / 2)
    | some false => firstAfter after (lo + len / 2 + 1) (len - len / 2 - 1)
termination_by len
decreasing_by all_goals omega

/-- A property that fails below `k` and holds from `k` on is found to start at `k`. -/
theorem firstAfter_eq_some {after : Nat → Option Bool} {lo len k : Nat}
    (hlo : lo ≤ k) (hhi : k ≤ lo + len)
    (h : ∀ i, lo ≤ i → i < lo + len → after i = some (decide (k ≤ i))) :
    firstAfter after lo len = some k := by
  fun_induction firstAfter after lo len with
  | case1 lo => congr 1; omega
  | case2 lo len h0 hnone =>
    rw [h _ (by omega) (by omega)] at hnone
    exact absurd hnone (by simp)
  -- the middle is at or behind the threshold: go on in front of it
  | case3 lo len h0 htrue ih =>
    rw [h _ (by omega) (by omega)] at htrue
    have hk : k ≤ lo + len / 2 := by simpa using htrue
    exact ih hlo hk fun i hi hlt => h i hi (by omega)
  -- the middle is in front of the threshold: go on behind it
  | case4 lo len h0 hfalse ih =>
    rw [h _ (by omega) (by omega)] at hfalse
    have hk : lo + len / 2 < k := by simpa using hfalse
    exact ih (by omega) (by omega) fun i hi hlt => h i (by omega) (by omega)

end RefFlow
