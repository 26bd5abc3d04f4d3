import RefFlow.Liveness.Basic
import RefFlow.Move
/-!
# What flows where, read off the live ranges

What the analysis is measured against, said of the ranges themselves: no directory, no graph and no
key has a part in it. A range stands at a *site*, its kind and its index among the ranges of that
kind.

Main definitions:

* `Liveness.reg?`, `Liveness.Covers`, `Liveness.Marked` — the register of the range at a site, the
  points at which it is live, and its mark;
* `Liveness.FirstLive` — the first range of a register's kind and number that is live at a point;
* `Liveness.Copies`, `Liveness.Seeded` — the steps a reference takes, and where it starts;
* `Liveness.Reached` — the ranges that a reference gets to.
-/

namespace RefFlow

/-- The place of a range: the kind of its register, and its index among the ranges of that kind. -/
structure Site where
  kind : RegKind
  index : Nat
  deriving DecidableEq, Repr, Inhabited

/-- The site of the range that a key names. -/
def RangeKey.site (k : RangeKey) : Site := ⟨k.kind, k.index⟩

namespace Liveness

/-! ### The range at a site -/

/-- The register of the range at a site; `none` if no range stands there. -/
def reg? (l : Liveness) (x : Site) : Option Reg :=
  match x.kind with
  | .real => l.pinned[x.index]?.map (·.reg)
  | .virtual => l.virtuals[x.index]?.map (·.reg)

/-- Some segment of the range at a site holds a point. -/
def Covers (l : Liveness) (x : Site) (p : Point) : Prop :=
  match x.kind with
  | .real => ∃ r, l.pinned[x.index]? = some r ∧ r.segs.Covers l.pool p
  | .virtual => ∃ r, l.virtuals[x.index]? = some r ∧ r.segs.Covers p

instance (l : Liveness) (x : Site) (p : Point) : Decidable (l.Covers x p) :=
  decidable_of_iff ((match x.kind with
      | .real => l.pinned[x.index]?.any fun r => decide (r.segs.Covers l.pool p)
      | .virtual => l.virtuals[x.index]?.any fun r => decide (r.segs.Covers p)) = true) <| by
    unfold Covers
    cases x.kind <;> simp only [Option.any_eq_true, decide_eq_true_iff]

/-- The range at a site is marked. -/
def Marked (l : Liveness) (x : Site) : Prop :=
  match x.kind with
  | .real => ∃ r, l.pinned[x.index]? = some r ∧ r.marked = true
  | .virtual => ∃ r, l.virtuals[x.index]? = some r ∧ r.marked = true

instance (l : Liveness) (x : Site) : Decidable (l.Marked x) :=
  decidable_of_iff ((match x.kind with
      | .real => l.pinned[x.index]?.any (·.marked)
      | .virtual => l.virtuals[x.index]?.any (·.marked)) = true) <| by
    unfold Marked
    cases x.kind <;> simp only [Option.any_eq_true]

/-- No range is marked. -/
def Unmarked (l : Liveness) : Prop := ∀ x, ¬ l.Marked x

/-- The number of ranges of a kind. -/
def count (l : Liveness) : RegKind → Nat
  | .real => l.pinned.size
  | .virtual => l.virtuals.size

/-! ### The flow of references -/

/-- A range of a register with the kind and the number of `r` stands at `x`. Classes are not told
apart. -/
def Numbered (l : Liveness) (r : Reg) (x : Site) : Prop :=
  x.kind = r.kind ∧ ∃ q, l.reg? x = some q ∧ q.index = r.index

instance (l : Liveness) (r : Reg) (x : Site) : Decidable (l.Numbered r x) :=
  decidable_of_iff (x.kind = r.kind ∧ (l.reg? x).any (·.index = r.index) = true) <| by
    unfold Numbered
    simp only [Option.any_eq_true, decide_eq_true_iff]

/-- Of all ranges with the kind and the number of `r` that are live at `p`, the one at `x` comes
first. -/
structure FirstLive (l : Liveness) (r : Reg) (p : Point) (x : Site) : Prop where
  numbered : l.Numbered r x
  covers : l.Covers x p
  first : ∀ y, l.Numbered r y → y.index < x.index → ¬ l.Covers y p

instance (l : Liveness) (r : Reg) (p : Point) (x : Site) : Decidable (l.FirstLive r p x) :=
  decidable_of_iff (l.Numbered r x ∧ l.Covers x p ∧
      ∀ i < x.index, l.Numbered r ⟨r.kind, i⟩ → ¬ l.Covers ⟨r.kind, i⟩ p) <| by
    constructor
    · rintro ⟨hnumbered, hcovers, hfirst⟩
      refine ⟨hnumbered, hcovers, ?_⟩
      rintro ⟨kind, i⟩ hy hlt
      obtain rfl : kind = r.kind := hy.1
      exact hfirst i hlt hy
    · intro h
      exact ⟨h.numbered, h.covers, fun i hi hy => h.first ⟨r.kind, i⟩ hy hi⟩

/-- A move of the class `c` copies what is in the range at `a` into the range at `b`. -/
def Copies (l : Liveness) (c : RegClass) (moves : List Move) (a b : Site) : Prop :=
  ∃ m ∈ moves, m.OfClass c ∧
    l.FirstLive m.src (.useOf m.instr) a ∧ l.FirstLive m.dst (.defOf m.instr) b

/-- A range of a virtual register with the number of some seed stands at `x`. -/
def Seeded (l : Liveness) (seeds : List Reg) (x : Site) : Prop :=
  x.kind = .virtual ∧ ∃ q, l.reg? x = some q ∧ ∃ r ∈ seeds, r.index = q.index

/-- A reference gets to the range at a site: from a seed, in zero or more copies. -/
inductive Reached (l : Liveness) (moves : List Move) (req : Request) : Site → Prop
  | seed {x : Site} : l.Seeded req.seeds x → Reached l moves req x
  | copy {a b : Site} : Reached l moves req a → l.Copies req.refClass moves a b →
      Reached l moves req b

end Liveness

end RefFlow
