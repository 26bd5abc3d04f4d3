import RefFlow.Fault
import RefFlow.Move
/-!
# Refused requests

A client may ask for something that makes no sense: a move between registers of different classes,
or a seed that cannot carry a reference. Such a request is refused with its cause; nothing is
marked.

Main definitions:

* `Refusal` — the cause, with the registers concerned;
* `RefusalCode` — its kind, with number and name;
* `Refusal.message` — the full text.
-/

namespace RefFlow

/-! ### Codes -/

inductive RefusalCode
  | mixedMove
  | foreignSeed
  | realSeed
  deriving DecidableEq, Repr

namespace RefusalCode

/-- The number of a code. Zero is no code. -/
def toNat : RefusalCode → Nat
  | mixedMove => 1
  | foreignSeed => 2
  | realSeed => 3

def ofNat? : Nat → Except UnknownNumber RefusalCode
  | 1 => .ok mixedMove
  | 2 => .ok foreignSeed
  | 3 => .ok realSeed
  | n => .error (.refusalCode n)

def name : RefusalCode → String
  | mixedMove => "move class mismatch"
  | foreignSeed => "reftyped register class mismatch"
  | realSeed => "reftyped register is not virtual"

/-- The full text of a refusal with this code. -/
def report (c : RefusalCode) (detail : String) : String := c.name ++ ": " ++ detail

theorem ofNat?_toNat (c : RefusalCode) : ofNat? c.toNat = .ok c := by cases c <;> rfl

end RefusalCode

/-! ### Causes -/

/-- Why a request is refused. -/
inductive Refusal
  | mixedMove (dst src : Reg) (instr : Nat)
  /-- A seed is virtual but not of the class that carries references. -/
  | foreignSeed (seed : Reg) (refClass : RegClass)
  | realSeed (seed : Reg)
  deriving DecidableEq, Repr

namespace Refusal

def code : Refusal → RefusalCode
  | mixedMove .. => .mixedMove
  | foreignSeed .. => .foreignSeed
  | realSeed _ => .realSeed

def detail : Refusal → String
  | mixedMove dst src instr =>
    "move " ++ dst.text ++ " := " ++ src.text ++ " at instruction " ++ toString instr
  | foreignSeed seed refClass =>
    seed.text ++ " declared reference-typed but reference class is " ++ refClass.name
  | realSeed seed => seed.text ++ " declared reference-typed"

/-- The full text: the name of the code and the cause. -/
def message (r : Refusal) : String := r.code.report r.detail

end Refusal

/-- Why a stage of the analysis did not come to its end. -/
inductive Stop
  | refused (r : Refusal)
  | faulted (f : Fault)
  deriving DecidableEq, Repr

end RefFlow
