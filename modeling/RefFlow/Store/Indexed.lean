import RefFlow.Liveness.Directory
import RefFlow.Store.Basic
/-!
# Liveness with a directory

The ranges of a function, found through a directory of register numbers. A register is looked up by
kind and number alone: its class plays no part. Of several ranges of that number which are live at
the point, the first one listed is taken.
-/

namespace RefFlow

/-- Live ranges together with a directory, which need not be up to date. -/
structure Indexed where
  live : Liveness
  dir : Directory
  deriving DecidableEq, Repr, Inhabited

namespace Indexed

/-- Whether the `i`-th range of a kind is live at a point; `none` if there is no such range, or if
one of its segments is not in the pool. -/
def covers (live : Liveness) (p : Point) : RegKind → Nat → Option Bool
  | .real, i => live.pinned[i]?.bind fun r => r.segs.covers live.pool p
  | .virtual, i => live.virtuals[i]?.map fun r => r.segs.covers p

/-- The first of the listed ranges that is live at a point; `none` if none of them is. -/
def firstLive (live : Liveness) (p : Point) (kind : RegKind) :
    List Nat → Except Fault (Option RangeKey)
  | [] => .ok none
  | i :: rest =>
    match covers live p kind i with
    | none => .error .stray
    | some true => (RangeKey.make? kind i).mapError .violation |>.map some
    | some false => firstLive live p kind rest

/-- The first range listed for a register that is live at a point. -/
def locate (s : Indexed) (p : Point) (r : Reg) : Except Fault RangeKey :=
  match firstLive s.live p r.kind ((s.dir.lookup r.kind r.index).getD []) with
  | .error f => .error f
  | .ok (some k) => .ok k
  | .ok none => .error (.missing ⟨r, p⟩)

/-- All ranges listed for a seed, which has to be virtual. -/
def seed (s : Indexed) (r : Reg) : Except Fault SeedFinding :=
  if r.kind = .virtual then
    match s.dir.lookup .virtual r.index with
    -- a number past the end of the table is no fault here
    | none => .ok ⟨[], [.rangeless r]⟩
    | some is =>
      match is.mapM RangeKey.ofVirtual? with
      | .error v => .error (.violation v)
      | .ok ks => .ok ⟨ks, ks.map (.carries · r)⟩
  else .error (.violation .registerNotVirtual)

/-- Marks a range; the directory stays as it is. -/
def mark (s : Indexed) (k : RangeKey) : Indexed := { s with live := s.live.mark k }

def absence (m : MissingRange) : String :=
  "reftypes analysis: can\x27t find range for " ++ m.reg.text ++ " at " ++ m.point.text

instance : RangeStore Indexed := ⟨locate, seed, mark, absence⟩

end Indexed

end RefFlow
