import RefFlow.Fault
/-!
# Keys of ranges

A range is named by one 32-bit word: the top bit says whether its register is real, the other bits
are its index among the ranges of that kind. Two words of each kind are left free; the upper two
of them are reserved for containers of keys and name no range.

Main definitions:

* `RangeKey.ofReal?`, `RangeKey.ofVirtual?` build a key from an index that is not too large;
* `RangeKey.kind`, `RangeKey.index` take a key apart again;
* `RangeKey.realIndex?`, `RangeKey.virtualIndex?` give the index to a caller who knows the kind.
-/

namespace RefFlow

structure RangeKey where
  bits : UInt32
  deriving DecidableEq, Repr, Inhabited

namespace RangeKey

/-- The bit that is set in keys of ranges of real registers. -/
def topBit : UInt32 := 0x80000000

/-- The largest index that a key can hold. -/
def lastIndex : Nat := 0x7FFFFFFD

/-- The word reserved for a free place of a container. -/
def vacant : RangeKey := ⟨0xFFFFFFFF⟩

/-- The word reserved for a place of a container whose key was removed. -/
def erased : RangeKey := ⟨0xFFFFFFFE⟩

def ofReal? (i : Nat) : Except Violation RangeKey :=
  if i ≤ lastIndex then .ok ⟨UInt32.ofNat i ||| topBit⟩ else .error .realIndexTooLarge

def ofVirtual? (i : Nat) : Except Violation RangeKey :=
  if i ≤ lastIndex then .ok ⟨UInt32.ofNat i⟩ else .error .virtualIndexTooLarge

/-- The key of the `i`-th range of a kind of register. -/
def make? : RegKind → Nat → Except Violation RangeKey
  | .real, i => ofReal? i
  | .virtual, i => ofVirtual? i

/-- The kind of register whose range a key names: real if the top bit is set. -/
def kind (k : RangeKey) : RegKind := if k.bits &&& topBit = 0 then .virtual else .real

/-- The index that a key holds: its bits without the top one. -/
def index (k : RangeKey) : Nat := (k.bits &&& ~~~topBit).toNat

def realIndex? (k : RangeKey) : Except Violation Nat :=
  if k.kind = .real then .ok k.index else .error .keyNotReal

def virtualIndex? (k : RangeKey) : Except Violation Nat :=
  if k.kind = .virtual then .ok k.index else .error .keyNotVirtual

/-- The printed name: `RR` or `VR` and the index. -/
def text (k : RangeKey) : String :=
  (match k.kind with | .real => "RR" | .virtual => "VR") ++ toString k.index

end RangeKey

end RefFlow
