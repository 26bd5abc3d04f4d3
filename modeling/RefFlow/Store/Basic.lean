import RefFlow.KeySet
import RefFlow.Move
/-!
# Stores of ranges

The analysis needs three things of the ranges of a function: the range of a register that is live
at a point, the ranges of a seed, and a way to mark a range. `RangeStore` asks for just these, so
the analysis runs over any representation of liveness.

Main definitions:

* `SeedNote`, `SeedFinding` — the ranges of a seed, with notes for the log;
* `RangeStore` — the operations that the analysis needs;
* `markAll` — marks a list of ranges.
-/

namespace RefFlow

/-- What there is to log about one seed. -/
inductive SeedNote
  | carries (key : RangeKey) (seed : Reg)
  /-- Liveness never saw the seed. -/
  | rangeless (seed : Reg)
  deriving DecidableEq, Repr

def SeedNote.line : SeedNote → String
  | carries key seed =>
    "range " ++ key.text ++ " is reffy due to reffy vreg " ++ seed.text
  | rangeless seed => "reffy vreg " ++ seed.text ++ " has no ranges"

/-- The ranges of a seed in their order. -/
structure SeedFinding where
  keys : List RangeKey
  notes : List SeedNote
  deriving DecidableEq, Repr

/-- A representation of the ranges of a function. -/
class RangeStore (σ : Type) where
  /-- The range of a register that is live at a point. -/
  locate : σ → Point → Reg → Except Fault RangeKey
  /-- The ranges of a seed. -/
  seed : σ → Reg → Except Fault SeedFinding
  /-- Marks a range. -/
  mark : σ → RangeKey → σ
  /-- How a missing range is reported. -/
  absence : MissingRange → String

/-- Marks the named ranges, the first one first. -/
def markAll {σ : Type} [RangeStore σ] (store : σ) (ks : List RangeKey) : σ :=
  ks.foldl RangeStore.mark store

@[simp] theorem markAll_nil {σ : Type} [RangeStore σ] (store : σ) : markAll store [] = store := rfl

@[simp] theorem markAll_cons {σ : Type} [RangeStore σ] (store : σ) (k : RangeKey)
    (ks : List RangeKey) : markAll store (k :: ks) = markAll (RangeStore.mark store k) ks := rfl

/-- How a fault of a store is reported. -/
def Fault.message (absence : MissingRange → String) : Fault → String
  | .violation v => v.message
  | .missing m => absence m
  | .stray => "index out of bounds"

end RefFlow
