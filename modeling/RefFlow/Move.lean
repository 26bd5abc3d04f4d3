import RefFlow.Reg
/-!
# Moves and requests

A move copies one register into another at an instruction. A request names the class whose
registers carry references and the registers declared to hold one.
-/

namespace RefFlow

/-- A copy from `src` to `dst`. The estimated execution count serves other passes; the flow of
references does not depend on it. -/
structure Move where
  dst : Reg
  src : Reg
  instr : Nat
  freq : Nat
  deriving DecidableEq, Repr, Inhabited

namespace Move

/-- The two operands have different classes, which no copy may have. -/
def Mixed (m : Move) : Prop := m.dst.cls ≠ m.src.cls

instance (m : Move) : Decidable m.Mixed := inferInstanceAs (Decidable (_ ≠ _))

/-- Both operands have the class `c`. -/
def OfClass (c : RegClass) (m : Move) : Prop := m.dst.cls = c ∧ m.src.cls = c

instance (c : RegClass) (m : Move) : Decidable (m.OfClass c) :=
  inferInstanceAs (Decidable (_ ∧ _))

end Move

/-- What a client asks for: the class that carries references, and the registers declared to hold
one, the seeds. -/
structure Request where
  refClass : RegClass
  seeds : List Reg
  deriving DecidableEq, Repr, Inhabited

end RefFlow
