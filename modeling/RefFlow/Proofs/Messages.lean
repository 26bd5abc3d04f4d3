import RefFlow.Proofs.Words
import RefFlow.Session.Command
/-!
# What messages tell

A request that is refused, and a fault that ends a session, are told to the client in a text. The texts
are spelled out here. A refusal and a fault are known by their texts: the words in front tell the kind,
and behind them stand the registers, points and numbers that matter. The one thing that a text cannot
tell apart are registers of the invalid class, which have no names of their own.

Main definitions and statements:

* `Refusal.words`, `Refusal.splitOn_message` — the words of a refusal's message;
* `Refusal.message_inj` — a refusal of proper registers is known by its message;
* `Reports` — how a store reports a missing range, and `Reports.inj` that it names the range;
* `Halt.fault_eq_of_message_eq` — a fault is known by its message, and a missing range tells the store.
-/

namespace RefFlow

/-! ### Refusals -/

namespace Refusal

/-- The words of a refusal's message: the name of its code up to the colon, and then the cause. -/
def words : Refusal → List String
  | mixedMove dst src instr =>
    ["move", "class", "mismatch:", "move", dst.spelled, ":=", src.spelled, "at", "instruction",
      toString instr]
  | foreignSeed seed refClass =>
    ["reftyped", "register", "class", "mismatch:", seed.spelled, "declared", "reference-typed",
      "but", "reference", "class", "is", refClass.spelled]
  | realSeed seed =>
    ["reftyped", "register", "is", "not", "virtual:", seed.spelled, "declared", "reference-typed"]

theorem message_mixedMove (dst src : Reg) (instr : Nat) :
    (mixedMove dst src instr).message =
      "move class mismatch: move " ++ dst.spelled ++ " := " ++ src.spelled ++ " at instruction " ++
        toString instr := by
  unfold message RefusalCode.report detail
  simp [Reg.text_eq_spelled, code, RefusalCode.name, ← String.append_assoc]

theorem message_foreignSeed (seed : Reg) (refClass : RegClass) :
    (foreignSeed seed refClass).message =
      "reftyped register class mismatch: " ++ seed.spelled ++
        " declared reference-typed but reference class is " ++ refClass.spelled := by
  unfold message RefusalCode.report detail
  simp [Reg.text_eq_spelled, RegClass.name_eq_spelled, code, RefusalCode.name,
    ← String.append_assoc]

theorem message_realSeed (seed : Reg) :
    (realSeed seed).message =
      "reftyped register is not virtual: " ++ seed.spelled ++ " declared reference-typed" := by
  unfold message RefusalCode.report detail
  simp [Reg.text_eq_spelled, code, RefusalCode.name, ← String.append_assoc]

/-- No word of a message holds a blank. -/
theorem blank_not_mem_words (r : Refusal) : ∀ w ∈ r.words, ' ' ∉ w.toList := by
  have hnumber : ∀ n, ' ' ∉ Nat.toDigits 10 n := not_mem_toDigits (by decide)
  cases r <;>
    simp [words, Reg.blank_not_mem_spelled, RegClass.blank_not_mem_spelled, hnumber]

/-- **A message is read back** word by word. -/
theorem splitOn_message (r : Refusal) :
    r.message.toList.splitOn ' ' = r.words.map String.toList := by
  have hwords : ∀ w ∈ r.words.map String.toList, ' ' ∉ w :=
    List.forall_mem_map.2 r.blank_not_mem_words
  -- the words with blanks before all but the first are the message
  have htext : ∃ w ws, r.words.map String.toList = w :: ws ∧
      r.message.toList = w ++ ws.flatMap (' ' :: ·) := by
    cases r with
    | mixedMove dst src instr =>
      rw [message_mixedMove]
      exact ⟨_, _, rfl, by simp⟩
    | foreignSeed seed refClass =>
      rw [message_foreignSeed]
      exact ⟨_, _, rfl, by simp⟩
    | realSeed seed =>
      rw [message_realSeed]
      exact ⟨_, _, rfl, by simp⟩
  obtain ⟨w, ws, hsplit, htext⟩ := htext
  rw [hsplit] at hwords ⊢
  obtain ⟨hw, hws⟩ := List.forall_mem_cons.1 hwords
  rw [htext, splitOn_append_flatMap_cons hw hws]

/-- Refusals with one message have the same words. -/
theorem words_eq_of_message_eq {r s : Refusal} (h : r.message = s.message) : r.words = s.words := by
  -- both are read back from one text
  have hwords : r.words.map String.toList = s.words.map String.toList := by
    rw [← splitOn_message, ← splitOn_message, h]
  have hchars : Function.Injective String.toList := fun _ _ => String.toList_injective
  exact hchars.list_map hwords

/-- The code is known by the message, whatever the registers. -/
theorem code_eq_of_message_eq {r s : Refusal} (h : r.message = s.message) : r.code = s.code := by
  have hwords := words_eq_of_message_eq h
  -- the words in front differ from code to code
  cases r <;> cases s <;> first | rfl | (exact absurd hwords (by simp [words]))

/-- The registers that a refusal names have names of their own. -/
def Named : Refusal → Prop
  | mixedMove dst src _ => dst.cls ≠ .invalid ∧ src.cls ≠ .invalid
  | foreignSeed seed _ => seed.cls ≠ .invalid
  | realSeed seed => seed.cls ≠ .invalid

/-- **A refusal is known by its message**, if it names registers that are known by their names. -/
theorem message_inj {r s : Refusal} (hr : r.Named) (h : r.message = s.message) : r = s := by
  -- one code leaves one kind of refusal, and the words behind it name the rest
  have hcode := code_eq_of_message_eq h
  have hwords := words_eq_of_message_eq h
  cases r with
  | mixedMove dst src instr =>
    cases s with
    | mixedMove dst' src' instr' =>
      simp only [words, List.cons.injEq, and_true, true_and] at hwords
      obtain ⟨hdst, hsrc, hinstr⟩ := hwords
      obtain ⟨hd, hs⟩ := hr
      rw [Reg.spelled_inj hd hdst, Reg.spelled_inj hs hsrc, toString_injective hinstr]
    | foreignSeed => cases hcode
    | realSeed => cases hcode
  | foreignSeed seed refClass =>
    cases s with
    | foreignSeed seed' refClass' =>
      simp only [words, List.cons.injEq, and_true, true_and] at hwords
      obtain ⟨hseed, hclass⟩ := hwords
      rw [Reg.spelled_inj hr hseed, RegClass.spelled_injective hclass]
    | mixedMove => cases hcode
    | realSeed => cases hcode
  | realSeed seed =>
    cases s with
    | realSeed seed' =>
      simp only [words, List.cons.injEq, and_true, true_and] at hwords
      rw [Reg.spelled_inj hr hwords]
    | mixedMove => cases hcode
    | foreignSeed => cases hcode

end Refusal

/-! ### Missing ranges -/

/-- A missing range is reported by some words in front, the register and the point. -/
def Reports (front : String) (absence : MissingRange → String) : Prop :=
  ∀ m, absence m = front ++ m.reg.spelled ++ " at " ++ m.point.spelled

theorem Indexed.reports :
    Reports "reftypes analysis: can\x27t find range for " (RangeStore.absence Indexed) := by
  intro m
  show Indexed.absence m = _
  unfold absence
  rw [Reg.text_eq_spelled, Point.text_eq_spelled]

theorem RowTable.reports : Reports "no table range for " (RangeStore.absence RowTable) := by
  intro m
  show RowTable.absence m = _
  unfold absence
  rw [Reg.text_eq_spelled, Point.text_eq_spelled]

namespace Reports

variable {front : String} {absence : MissingRange → String} (h : Reports front absence)
include h

theorem toList_eq (m : MissingRange) :
    (absence m).toList = front.toList ++
      (m.reg.spelled.toList ++ ' ' :: ("at ".toList ++ m.point.spelled.toList)) := by
  rw [h m]
  simp

/-- **A report names the range that is missing**, if the register has a name of its own. -/
theorem inj {m n : MissingRange} (hm : m.reg.cls ≠ .invalid) (heq : absence m = absence n) :
    m = n := by
  have hchars : (absence m).toList = (absence n).toList := congrArg String.toList heq
  rw [h.toList_eq, h.toList_eq, List.append_cancel_left_eq] at hchars
  -- the name of a register ends at the first blank
  have hwords := congrArg (List.splitOn ' ') hchars
  rw [List.splitOn_append_cons_self_of_not_mem m.reg.blank_not_mem_spelled,
    List.splitOn_append_cons_self_of_not_mem n.reg.blank_not_mem_spelled] at hwords
  have hreg := (List.cons.inj hwords).1
  rw [hreg, List.append_cancel_left_eq] at hchars
  have hpoint := List.append_cancel_left (List.cons.inj hchars).2
  calc m = ⟨m.reg, m.point⟩ := rfl
    _ = ⟨n.reg, n.point⟩ := by
      rw [Reg.spelled_inj hm (String.toList_injective hreg),
        Point.spelled_injective (String.toList_injective hpoint)]
    _ = n := rfl

theorem prefix_of_eq {m : MissingRange} {text : String} (heq : absence m = text) :
    front.toList <+: text.toList := by
  rw [← heq, h.toList_eq]
  exact List.prefix_append _ _

end Reports

/-! ### Faults -/

theorem Violation.message_injective : Function.Injective Violation.message := by
  intro v w
  cases v <;> cases w <;> simp [message]

theorem Violation.message_ne_stray (v : Violation) : v.message ≠ "index out of bounds" := by
  cases v <;> decide

/-- The words in front of a missing range, in either store. -/
def Via.front : Via → String
  | .liveness => "reftypes analysis: can\x27t find range for "
  | .table => "no table range for "

namespace Via

theorem reports (via : Via) : Reports via.front via.absence := by
  cases via with
  | liveness => exact Indexed.reports
  | table => exact RowTable.reports

/-- What is said of other faults does not start like the report of a missing range. -/
theorem front_not_prefix (via : Via) (absence : MissingRange → String) {f : Fault}
    (hf : ∀ m, f ≠ .missing m) : ¬ via.front.toList <+: (f.message absence).toList := by
  -- all these texts are fixed
  cases f with
  | violation v =>
    show ¬ via.front.toList <+: v.message.toList
    cases via <;> cases v <;> decide
  | missing m => exact absurd rfl (hf m)
  | stray =>
    show ¬ via.front.toList <+: "index out of bounds".toList
    cases via <;> decide

/-- Reports of the two stores do not start alike. -/
theorem eq_of_prefix {via via' : Via} {text : List Char} (h : via.front.toList <+: text)
    (h' : via'.front.toList <+: text) : via = via' := by
  have hfront := List.prefix_or_prefix_of_prefix h h'
  clear h h'
  revert hfront
  cases via <;> cases via' <;> decide

end Via

/-- If the fault is about a register, that has a name of its own. -/
def Fault.Named (f : Fault) : Prop := ∀ m, f = .missing m → m.reg.cls ≠ .invalid

/-- **A fault is known by its message**, and so is the store if a range is missing there. -/
theorem Halt.fault_eq_of_message_eq {h h' : Halt} (hnamed : h.fault.Named)
    (heq : h.message = h'.message) :
    h.fault = h'.fault ∧ ∀ m, h.fault = .missing m → h.via = h'.via := by
  obtain ⟨f, via⟩ := h
  obtain ⟨f', via'⟩ := h'
  have heq : f.message via.absence = f'.message via'.absence := heq
  -- a text about a missing range starts with the words of its store, and no other text does
  cases f with
  | missing m =>
    have hfront := via.reports.prefix_of_eq heq
    cases f' with
    | missing n =>
      obtain rfl := Via.eq_of_prefix hfront (via'.reports.prefix_of_eq rfl)
      rw [via.reports.inj (hnamed m rfl) heq]
      exact ⟨rfl, fun _ _ => rfl⟩
    | violation w => exact absurd hfront (via.front_not_prefix _ nofun)
    | stray => exact absurd hfront (via.front_not_prefix _ nofun)
  | violation v =>
    refine ⟨?_, nofun⟩
    cases f' with
    | missing n =>
      exact absurd (via'.reports.prefix_of_eq heq.symm) (via'.front_not_prefix _ nofun)
    | violation w => rw [Violation.message_injective heq]
    | stray => exact absurd heq v.message_ne_stray
  | stray =>
    refine ⟨?_, nofun⟩
    cases f' with
    | missing n =>
      exact absurd (via'.reports.prefix_of_eq heq.symm) (via'.front_not_prefix _ nofun)
    | violation w => exact absurd heq.symm w.message_ne_stray
    | stray => rfl

end RefFlow
