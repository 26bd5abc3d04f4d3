import RefFlow.Liveness.Basic
/-!
# Ranges by register number

A directory lists, for every register number, the ranges of that number in their order. The two
kinds of register have a table each; classes are not told apart.

Ranges are counted in a word. A function with more ranges of a kind than a word can count has only
so many of them listed as the word says.

Main definitions:

* `Directory.file` enters one range under its register number, growing the table as needed;
* `Directory.counted` are the ranges that are entered;
* `Directory.ofLiveness` enters the ranges of a function;
* `Directory.lookup` is the list of a number, if the table reaches that far.
-/

namespace RefFlow

/-- For each register number the indices of its ranges, for the two kinds of register apart. -/
structure Directory where
  real : Array (List Nat)
  virtual : Array (List Nat)
  deriving DecidableEq, Repr, Inhabited

namespace Directory

/-- The directory of no ranges. -/
def empty : Directory := ⟨#[], #[]⟩

/-- Makes a table reach up to the number `n`; the new lists are empty. -/
def widen (table : Array (List Nat)) (n : Nat) : Array (List Nat) :=
  table ++ Array.replicate (n + 1 - table.size) []

/-- Enters the range `i` as the last one of the register number `n`. -/
def file (table : Array (List Nat)) (n i : Nat) : Array (List Nat) :=
  (widen table n).modify n (· ++ [i])

/-- Of a list of register numbers those that a word can count up to: all of them, if their count fits
into a word, else as many as its remainder. -/
def counted (numbers : List Nat) : List Nat := numbers.take (UInt32.ofNat numbers.length).toNat

/-- The table of ranges whose register numbers are given in order. -/
def ofNumbers (numbers : List Nat) : Array (List Nat) :=
  (counted numbers).zipIdx.foldl (fun table e => file table e.1 e.2) #[]

/-- The directory of the ranges of a function. -/
def ofLiveness (l : Liveness) : Directory where
  real := ofNumbers (l.pinned.toList.map (·.reg.index))
  virtual := ofNumbers (l.virtuals.toList.map (·.reg.index))

/-- The ranges of a kind and number of register; `none` past the end of the table. -/
def lookup (d : Directory) : RegKind → Nat → Option (List Nat)
  | .real, n => d.real[n]?
  | .virtual, n => d.virtual[n]?

theorem counted_of_lt {numbers : List Nat} (h : numbers.length < UInt32.size) :
    counted numbers = numbers := by
  unfold counted
  rw [UInt32.toNat_ofNat_of_lt' h, List.take_length]

@[simp] theorem size_widen (table : Array (List Nat)) (n : Nat) :
    (widen table n).size = max table.size (n + 1) := by
  simp only [widen, Array.size_append, Array.size_replicate]
  omega

@[simp] theorem size_file (table : Array (List Nat)) (n i : Nat) :
    (file table n i).size = max table.size (n + 1) := by
  simp [file]

end Directory

end RefFlow
