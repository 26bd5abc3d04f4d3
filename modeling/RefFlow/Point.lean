/-!
# Program points

Every instruction has four points, passed in a fixed order: operands are reloaded, used, results
are defined, results are spilled. Points are ordered by instruction first and by slot second.

Main definitions and statements:

* `Slot`, `Point` — a point is an instruction and a slot;
* `Point.pos` — the place of a point on one time line;
* `Point.lt_iff_pos_lt`, `Point.le_iff_pos_le` — the order of points is the order of places, which
  reduces any question about it to linear arithmetic.
-/

namespace RefFlow

/-- The four points of one instruction. -/
inductive Slot
  | reload
  | use
  | define
  | spill
  deriving DecidableEq, Repr, Inhabited

namespace Slot

def rank : Slot → Nat
  | reload => 0
  | use => 1
  | define => 2
  | spill => 3

def letter : Slot → Char
  | reload => 'r'
  | use => 'u'
  | define => 'd'
  | spill => 's'

theorem rank_lt (s : Slot) : s.rank < 4 := by cases s <;> decide

theorem rank_inj {s t : Slot} : s.rank = t.rank ↔ s = t := by
  cases s <;> cases t <;> simp [rank]

end Slot

/-- A point of the program: a slot of an instruction. -/
structure Point where
  instr : Nat
  slot : Slot
  deriving DecidableEq, Repr, Inhabited

namespace Point

/-- The point at which an instruction reads its operands. -/
def useOf (instr : Nat) : Point := ⟨instr, .use⟩

/-- The point at which an instruction writes its results. -/
def defOf (instr : Nat) : Point := ⟨instr, .define⟩

/-- The printed form, such as `3/u`. -/
def text (p : Point) : String := toString p.instr ++ "/" ++ p.slot.letter.toString

/-! ### Order -/

/-- The earlier instruction comes first; within an instruction the earlier slot. -/
protected def Before (a b : Point) : Prop :=
  a.instr < b.instr ∨ a.instr = b.instr ∧ a.slot.rank < b.slot.rank

instance : LT Point := ⟨Point.Before⟩

instance : LE Point := ⟨fun a b => ¬ b < a⟩

instance (a b : Point) : Decidable (a < b) :=
  inferInstanceAs (Decidable (a.instr < b.instr ∨ a.instr = b.instr ∧ a.slot.rank < b.slot.rank))

instance (a b : Point) : Decidable (a ≤ b) := inferInstanceAs (Decidable (¬ b < a))

/-- The place of a point when all points of the program are numbered in order. -/
def pos (p : Point) : Nat := 4 * p.instr + p.slot.rank

theorem lt_iff_pos_lt {a b : Point} : a < b ↔ a.pos < b.pos := by
  have ha := a.slot.rank_lt
  have hb := b.slot.rank_lt
  change (a.instr < b.instr ∨ a.instr = b.instr ∧ a.slot.rank < b.slot.rank) ↔ _
  unfold pos
  omega

theorem le_iff_pos_le {a b : Point} : a ≤ b ↔ a.pos ≤ b.pos := by
  change ¬ b < a ↔ _
  rw [lt_iff_pos_lt]
  omega

theorem pos_inj {a b : Point} : a.pos = b.pos ↔ a = b := by
  refine ⟨fun h => ?_, fun h => h ▸ rfl⟩
  have ha := a.slot.rank_lt
  have hb := b.slot.rank_lt
  unfold pos at h
  obtain ⟨i, s⟩ := a
  obtain ⟨j, t⟩ := b
  have hij : i = j := by simp only at h ha hb; omega
  have hst : s.rank = t.rank := by simp only at h ha hb; omega
  rw [hij, Slot.rank_inj.1 hst]

end Point

end RefFlow
