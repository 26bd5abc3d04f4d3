import RefFlow.Point
import RefFlow.Reg
/-!
# What can go wrong below the level of a refused request

A `Fault` ends a run for good: a precondition of the library was broken, liveness and the moves
disagree, or a stored index points outside its environment. A request that is merely unacceptable
is a refusal and not a fault.
-/

namespace RefFlow

/-- A broken precondition, named by what was found. -/
inductive Violation
  | segmentReversed
  | segmentsUnordered
  /-- Segments denoted by indices are not ascending and disjoint, or an index denotes none. -/
  | referencesUnordered
  | registerNotReal
  | registerNotVirtual
  | realIndexTooLarge
  | virtualIndexTooLarge
  | keyNotReal
  | keyNotVirtual
  deriving DecidableEq, Repr

/-- The condition that did not hold, as it is reported. -/
def Violation.message : Violation → String
  | segmentReversed => "first <= last && \"Fragment ends before it starts\""
  | segmentsUnordered => "this->IsSortedAndNonOverlapping()"
  | referencesUnordered => "this->IsSortedAndNonOverlapping(fragmentEnvironment)"
  | registerNotReal => "realRegister.IsReal()"
  | registerNotVirtual => "virtualRegister.IsVirtual()"
  | realIndexTooLarge => "index <= MaxIndex && \"Real range index out of range\""
  | virtualIndexTooLarge => "index <= MaxIndex && \"Virtual range index out of range\""
  | keyNotReal => "this->IsReal()"
  | keyNotVirtual => "this->IsVirtual()"

/-- No range of a register is live at a point where one has to be. -/
structure MissingRange where
  reg : Reg
  point : Point
  deriving DecidableEq, Repr

/-- Why a run cannot go on. -/
inductive Fault
  | violation (v : Violation)
  /-- Liveness and the moves disagree. -/
  | missing (m : MissingRange)
  /-- A stored index points outside its environment. -/
  | stray
  deriving DecidableEq, Repr

/-- A number that stands for no class or no code. -/
inductive UnknownNumber
  | regClass (n : Nat)
  | refusalCode (n : Nat)
  deriving DecidableEq, Repr

def UnknownNumber.message : UnknownNumber → String
  | regClass _ => "Unknown register class."
  | refusalCode _ => "Unknown reftype error code."

/-- The printed name of the class with a given number. -/
def RegClass.nameOfNat (n : Nat) : Except UnknownNumber String :=
  match RegClass.ofNat? n with
  | some c => .ok c.name
  | none => .error (.regClass n)

end RefFlow
