/-!
# Registers

A register has a kind (real or virtual), a class and a number. The same number is routinely reused
across classes, so two registers are equal only if all three agree.

Main definitions:

* `RegClass` — the classes, their numbers and their names;
* `Reg` — a register, with its printed form `Reg.text`.
-/

namespace RefFlow

/-! ### Classes -/

/-- The class of a register. Any one class may be the one whose registers carry references. -/
inductive RegClass
  | i32
  | f32
  | i64
  | f64
  | v128
  | invalid
  deriving DecidableEq, Repr, Inhabited

namespace RegClass

def all : List RegClass := [i32, f32, i64, f64, v128, invalid]

def name : RegClass → String
  | i32 => "I32"
  | f32 => "F32"
  | i64 => "I64"
  | f64 => "F64"
  | v128 => "V128"
  | invalid => "Invalid"

/-- The class with a given number; numbers past the last class name nothing. -/
def ofNat? (n : Nat) : Option RegClass := all[n]?

def ofName? (s : String) : Option RegClass := all.find? (·.name == s)

@[simp] theorem mem_all (c : RegClass) : c ∈ all := by cases c <;> decide

theorem ofName?_name (c : RegClass) : ofName? c.name = some c := by cases c <;> decide

end RegClass

/-! ### Registers -/

/-- Whether a register is one of the machine or one that awaits assignment. -/
inductive RegKind
  | real
  | virtual
  deriving DecidableEq, Repr, Inhabited

/-- The letter that a register's printed form starts with. -/
def RegKind.letter : RegKind → Char
  | .real => 'r'
  | .virtual => 'v'

/-- A register. Equality compares kind, class and number. -/
@[ext] structure Reg where
  kind : RegKind
  cls : RegClass
  index : Nat
  deriving DecidableEq, Repr, Inhabited

namespace Reg

/-- The stand-in for "no register": virtual, of the invalid class, with the largest number. -/
def invalid : Reg := ⟨.virtual, .invalid, 0xFFFFFFFF⟩

/-- The printed form, such as `v5:I64`. A register is invalid by its class alone, whatever its kind
and number, and all invalid registers print alike. -/
def text (r : Reg) : String :=
  if r.cls = .invalid then "<invalid>"
  else r.kind.letter.toString ++ toString r.index ++ ":" ++ r.cls.name

def line (r : Reg) : String := r.text ++ "\n"

end Reg

end RefFlow
