import RefFlow.Segment.Basic
import RefFlow.Store.Basic
/-!
# A table of rows

The plainest store: a list of rows, each with a register, one stretch of points and a key. A
register is looked up with its class, and the first row that fits is taken. The table counts how
often each key was marked, whether or not a row has it.
-/

namespace RefFlow

/-- One range of the table. -/
structure Row where
  reg : Reg
  segment : Segment
  key : RangeKey
  deriving DecidableEq, Repr, Inhabited

/-- Rows in order of entry, and the marks made so far, the latest first. -/
structure RowTable where
  rows : List Row
  marks : List RangeKey
  deriving DecidableEq, Repr, Inhabited

namespace RowTable

def empty : RowTable := ⟨[], []⟩

/-- The number of rows whose register is of a kind; the next row of that kind gets it as index. -/
def countKind (t : RowTable) (kind : RegKind) : Nat := t.rows.countP (·.reg.kind == kind)

/-- The row that entering a register would add: live from the definitions of `first` to the uses
of `last`, with the next free key of the register's kind. -/
def nextRow (t : RowTable) (reg : Reg) (first last : Nat) : Except Violation Row :=
  (RangeKey.make? reg.kind (t.countKind reg.kind)).map fun key =>
    ⟨reg, ⟨.defOf first, .useOf last⟩, key⟩

def add (t : RowTable) (r : Row) : RowTable := { t with rows := t.rows ++ [r] }

/-- The key of the first row of a register that is live at a point. -/
def locate (t : RowTable) (p : Point) (r : Reg) : Except Fault RangeKey :=
  match t.rows.find? fun row => row.reg == r && decide (p ∈ row.segment) with
  | some row => .ok row.key
  | none => .error (.missing ⟨r, p⟩)

/-- The keys of all rows of a register, of whichever kind it is. -/
def seed (t : RowTable) (r : Reg) : Except Fault SeedFinding :=
  .ok ⟨(t.rows.filter (·.reg == r)).map (·.key), []⟩

def mark (t : RowTable) (k : RangeKey) : RowTable := { t with marks := k :: t.marks }

/-- How often a key was marked, as a 32-bit count. -/
def timesMarked (t : RowTable) (k : RangeKey) : UInt32 := UInt32.ofNat (t.marks.count k)

/-- For each row in order, how often its key was marked. -/
def rowMarks (t : RowTable) : List UInt32 := t.rows.map fun r => t.timesMarked r.key

def unmarkAll (t : RowTable) : RowTable := { t with marks := [] }

def absence (m : MissingRange) : String :=
  "no table range for " ++ m.reg.text ++ " at " ++ m.point.text

instance : RangeStore RowTable := ⟨locate, seed, mark, absence⟩

end RowTable

end RefFlow
