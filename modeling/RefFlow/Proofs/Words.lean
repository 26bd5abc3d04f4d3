import RefFlow.Liveness.Site
import RefFlow.Point
import Mathlib.Data.List.Basic
/-!
# Words of texts

Texts are made of words with single blanks between them, and of lines. A text is read back by splitting
it at the blanks and at the ends of lines, provided that no word holds a blank; and none does, as names
are made of digits, letters and colons.

Here the names that stand in texts are spelled out, without the functions that print them: of classes,
registers, points and ranges. A proper register is known by its name (`Reg.spelled_inj`). Those of the
invalid class are not, they all have the same one.

Main definitions and statements:

* `splitOn_append_flatMap_cons`, `splitOn_flatMap_concat` — words and lines are read back;
* `Reg.spelled`, `Point.spelled`, `Site.spelled` — the names of registers, points and ranges;
* `Reg.text_eq_spelled`, `Point.text_eq_spelled`, `RangeKey.text_eq_spelled` — what is printed.
-/

namespace RefFlow

/-! ### Words and lines -/

section Separators

variable {α : Type} [BEq α] [LawfulBEq α] {x : α} {ws : List (List α)}

/-- Words with a separator before each but the first are read back. -/
theorem splitOn_append_flatMap_cons {w : List α} (hw : x ∉ w) (hws : ∀ v ∈ ws, x ∉ v) :
    (w ++ ws.flatMap (x :: ·)).splitOn x = w :: ws := by
  -- the first word ends at the first separator, as it has none in it
  induction ws generalizing w with
  | nil => rw [List.flatMap_nil, List.append_nil, List.splitOn_eq_singleton hw]
  | cons v rest ih =>
    obtain ⟨hv, hrest⟩ := List.forall_mem_cons.1 hws
    rw [List.flatMap_cons, List.cons_append, List.splitOn_append_cons_self_of_not_mem hw,
      ih hv hrest]

/-- Words with a separator behind each are read back, with an empty one at the end. -/
theorem splitOn_flatMap_concat (hws : ∀ v ∈ ws, x ∉ v) :
    (ws.flatMap (· ++ [x])).splitOn x = ws ++ [[]] := by
  induction ws with
  | nil => rfl
  | cons v rest ih =>
    obtain ⟨hv, hrest⟩ := List.forall_mem_cons.1 hws
    rw [List.flatMap_cons, List.append_assoc, List.singleton_append,
      List.splitOn_append_cons_self_of_not_mem hv, ih hrest, List.cons_append]

end Separators

/-! ### Numbers -/

/-- A number is printed in digits. -/
theorem not_mem_toDigits {c : Char} (hc : c.isDigit = false) (n : Nat) : c ∉ Nat.toDigits 10 n := by
  intro hmem
  have hdigit : c.isDigit = true := Nat.isDigit_of_mem_toDigits (by decide) (by decide) hmem
  rw [hc] at hdigit
  cases hdigit

theorem toDigits_injective : Function.Injective (Nat.toDigits 10) := by
  intro m n h
  -- the digits of a number are read back as the number
  have hread : ∀ k, Nat.ofDigitChars 10 (Nat.toDigits 10 k) 0 = k :=
    fun _ => Nat.ofDigitChars_toDigits (by decide) (by decide)
  rw [← hread m, h, hread n]

theorem toString_injective : Function.Injective (toString : Nat → String) := by
  intro m n h
  exact toDigits_injective (by simpa using congrArg String.toList h)

/-! ### Names of registers -/

/-- The name of a class, letter by letter. -/
def RegClass.spelled : RegClass → String
  | .i32 => "I32"
  | .f32 => "F32"
  | .i64 => "I64"
  | .f64 => "F64"
  | .v128 => "V128"
  | .invalid => "Invalid"

namespace RegClass

theorem name_eq_spelled (c : RegClass) : c.name = c.spelled := by cases c <;> rfl

theorem spelled_injective : Function.Injective spelled := by
  intro c d
  cases c <;> cases d <;> decide

theorem blank_not_mem_spelled (c : RegClass) : ' ' ∉ c.spelled.toList := by cases c <;> decide

end RegClass

/-- The name of a register: a letter for its kind, its number, a colon and its class. All registers of
the invalid class have one name. -/
def Reg.spelled : Reg → String
  | ⟨_, .invalid, _⟩ => "<invalid>"
  | ⟨.real, c, n⟩ => "r" ++ toString n ++ ":" ++ c.spelled
  | ⟨.virtual, c, n⟩ => "v" ++ toString n ++ ":" ++ c.spelled

namespace Reg

theorem text_eq_spelled (r : Reg) : r.text = r.spelled := by
  obtain ⟨kind, c, n⟩ := r
  cases c <;> cases kind <;> rfl

/-- The letter that a name starts with. -/
def initial : RegKind → Char
  | .real => 'r'
  | .virtual => 'v'

theorem toList_spelled {r : Reg} (h : r.cls ≠ .invalid) :
    r.spelled.toList = initial r.kind :: (Nat.toDigits 10 r.index ++ ':' :: r.cls.spelled.toList) := by
  -- five classes have names, and the invalid one is excluded
  obtain ⟨kind, c, n⟩ := r
  cases c with
  | invalid => exact absurd rfl h
  | _ => cases kind <;> simp [spelled, initial]

theorem spelled_of_invalid {r : Reg} (h : r.cls = .invalid) : r.spelled = "<invalid>" := by
  obtain ⟨kind, c, n⟩ := r
  obtain rfl : c = .invalid := h
  rfl

theorem blank_not_mem_spelled (r : Reg) : ' ' ∉ r.spelled.toList := by
  by_cases h : r.cls = .invalid
  · rw [spelled_of_invalid h]
    decide
  · have hinitial : ' ' ≠ initial r.kind := by cases r.kind <;> decide
    rw [toList_spelled h]
    simp [hinitial, not_mem_toDigits, RegClass.blank_not_mem_spelled]

/-- **A proper register is known by its name**, among all registers. -/
theorem spelled_inj {r q : Reg} (hr : r.cls ≠ .invalid) (h : r.spelled = q.spelled) : r = q := by
  have hchars : r.spelled.toList = q.spelled.toList := congrArg String.toList h
  by_cases hq : q.cls = .invalid
  -- a bracket is no letter of a proper name
  · rw [toList_spelled hr, spelled_of_invalid hq] at hchars
    have hbracket : some (initial r.kind) = some '<' := congrArg List.head? hchars
    have hinitial : some (initial r.kind) ≠ some '<' := by cases r.kind <;> decide
    exact absurd hbracket hinitial
  · rw [toList_spelled hr, toList_spelled hq] at hchars
    obtain ⟨hinitial, hrest⟩ := List.cons.inj hchars
    have hkind : r.kind = q.kind := by
      revert hinitial
      cases r.kind <;> cases q.kind <;> decide
    have hcolon : ∀ c : RegClass, ':' ∉ c.spelled.toList := fun c => by cases c <;> decide
    -- the digits end at the colon
    obtain ⟨hindex, -, hcls⟩ :=
      (List.append_cons_inj_of_notMem (not_mem_toDigits (by decide) _) (hcolon _)).1 hrest
    exact Reg.ext hkind (RegClass.spelled_injective (String.toList_injective hcls))
      (toDigits_injective hindex)

end Reg

/-! ### Names of points -/

/-- The name of a point: its instruction and a letter for its slot. -/
def Point.spelled : Point → String
  | ⟨i, .reload⟩ => toString i ++ "/r"
  | ⟨i, .use⟩ => toString i ++ "/u"
  | ⟨i, .define⟩ => toString i ++ "/d"
  | ⟨i, .spill⟩ => toString i ++ "/s"

namespace Point

/-- The letter that a name ends with. -/
def final : Slot → Char
  | .reload => 'r'
  | .use => 'u'
  | .define => 'd'
  | .spill => 's'

theorem toList_spelled (p : Point) :
    p.spelled.toList = Nat.toDigits 10 p.instr ++ ['/', final p.slot] := by
  obtain ⟨i, slot⟩ := p
  cases slot <;> simp [spelled, final]

theorem text_eq_spelled (p : Point) : p.text = p.spelled := by
  obtain ⟨i, slot⟩ := p
  cases slot <;> simp [text, spelled, Slot.letter, String.append_assoc]

/-- A point is known by its name. -/
theorem spelled_injective : Function.Injective spelled := by
  intro p q h
  have hchars : p.spelled.toList = q.spelled.toList := congrArg String.toList h
  rw [toList_spelled, toList_spelled] at hchars
  -- the digits end at the slash
  have hslash : ∀ slot, '/' ∉ [final slot] := fun slot => by cases slot <;> decide
  obtain ⟨hinstr, -, hfinal⟩ :=
    (List.append_cons_inj_of_notMem (not_mem_toDigits (by decide) _) (hslash _)).1 hchars
  have hslot : p.slot = q.slot := by
    revert hfinal
    cases p.slot <;> cases q.slot <;> decide
  obtain ⟨i, slot⟩ := p
  obtain ⟨j, slot'⟩ := q
  obtain rfl : slot = slot' := hslot
  rw [show i = j from toDigits_injective hinstr]

end Point

/-! ### Names of ranges -/

/-- The name of a range: `RR` or `VR` for the kind of its register, and its index. -/
def Site.spelled : Site → String
  | ⟨.real, i⟩ => "RR" ++ toString i
  | ⟨.virtual, i⟩ => "VR" ++ toString i

/-- A key is printed as the name of the range it is the key of. -/
theorem RangeKey.text_eq_spelled (k : RangeKey) : k.text = k.site.spelled := by
  unfold text site
  cases k.kind <;> rfl

end RefFlow
