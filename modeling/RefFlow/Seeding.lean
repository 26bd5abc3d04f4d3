import RefFlow.Refusal
import RefFlow.Store.Basic
/-!
# From seeds to ranges

The registers declared to hold a reference are first checked, all of them, and only then are their
ranges collected. So a refused list of seeds adds nothing to the set.

Main definitions:

* `Reg.refusal?` says why a register cannot be a seed; being real comes before being of another
  class;
* `Seeding.collect` checks a list of seeds and adds their ranges to a set.
-/

namespace RefFlow

/-- Why a register cannot be a seed, if it cannot. -/
def Reg.refusal? (c : RegClass) (r : Reg) : Option Refusal :=
  if r.kind = .real then some (.realSeed r)
  else if r.cls ≠ c then some (.foreignSeed r c)
  else none

/-- What became of a list of seeds: the set with the ranges added, notes for the log, and why the
list was not taken. -/
structure Seeding where
  set : KeySet
  notes : List SeedNote
  stop : Option Stop
  deriving DecidableEq, Repr

namespace Seeding

/-- Adds the ranges of seeds that were checked, in order. -/
def gather {σ : Type} [RangeStore σ] (store : σ) (set : KeySet) : List Reg → Seeding
  | [] => ⟨set, [], none⟩
  | r :: rest =>
    match RangeStore.seed store r with
    | .error f => ⟨set, [], some (.faulted f)⟩
    | .ok found =>
      let tail := gather store (set.insertAll found.keys) rest
      { tail with notes := found.notes ++ tail.notes }

/-- Checks all seeds, then adds their ranges. The first seed that cannot be one is the cause of a
refusal. -/
def collect {σ : Type} [RangeStore σ] (store : σ) (req : Request) (set : KeySet) : Seeding :=
  match req.seeds.findSome? (Reg.refusal? req.refClass) with
  | some r => ⟨set, [], some (.refused r)⟩
  | none => gather store set req.seeds

end Seeding

end RefFlow
