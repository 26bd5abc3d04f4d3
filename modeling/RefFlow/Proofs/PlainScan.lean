import RefFlow.Proofs.Permutation
import RefFlow.Proofs.Verdict
/-!
# Lookup is a plain scan

A lookup takes a fast path: the directory narrows the ranges down to those of the register's number,
and the segments of each are searched by halving. `Liveness.scan` takes the slow one. It goes through
all ranges of the register's kind in their order and looks at every segment, so it says what a lookup
should answer without any of the machinery that the answer comes from.

On well-formed live ranges with an up-to-date directory both give the same answer, for every register
and every point. That is so for registers past the end of the directory, for numbers that no range has,
and at points in the holes between segments.

Main statements:

* `Liveness.scan_eq_some_iff`, `Liveness.scan_eq_none_iff` — what a scan finds;
* `Liveness.locate_eq_locateByScan` — lookup and scan agree.
-/

namespace RefFlow

namespace Liveness

variable {l : Liveness} {p : Point} {r : Reg}

/-- The place of the first range with the kind and the number of `r` that is live at `p`, among all
ranges of this kind. Every one of them is looked at until it is found, with all its segments. -/
def scan (l : Liveness) (p : Point) (r : Reg) : Option Nat :=
  (List.range (l.count r.kind)).find? fun i =>
    decide (l.Numbered r ⟨r.kind, i⟩ ∧ l.Covers ⟨r.kind, i⟩ p)

/-- What a lookup answers that scans the ranges. -/
def locateByScan (l : Liveness) (p : Point) (r : Reg) : Except Fault RangeKey :=
  match l.scan p r with
  | some i => (RangeKey.make? r.kind i).mapError .violation
  | none => .error (.missing ⟨r, p⟩)

/-- **A scan finds** the first live range. -/
theorem scan_eq_some_iff {i : Nat} : l.scan p r = some i ↔ l.FirstLive r p ⟨r.kind, i⟩ := by
  unfold scan
  rw [List.find?_range_eq_some, decide_eq_true_iff]
  constructor
  · rintro ⟨⟨hnumbered, hcovers⟩, -, hfirst⟩
    refine ⟨hnumbered, hcovers, fun y hy hlt hyp => ?_⟩
    -- a live range before it would have been found
    have hnot := hfirst y.index hlt
    rw [← hy.eq_site] at hnot
    simp [hy, hyp] at hnot
  · intro h
    -- nothing before the first live range stops the scan
    refine ⟨⟨h.numbered, h.covers⟩, List.mem_range.2 h.numbered.lt_count, fun j hj => ?_⟩
    have hnot : ¬ (l.Numbered r ⟨r.kind, j⟩ ∧ l.Covers ⟨r.kind, j⟩ p) := fun hboth =>
      h.first ⟨r.kind, j⟩ hboth.1 hj hboth.2
    rw [decide_eq_false hnot]
    rfl

/-- **A scan finds nothing** exactly if no range is live. -/
theorem scan_eq_none_iff : l.scan p r = none ↔ l.Absent r p := by
  constructor
  · intro h x hx hxp
    unfold scan at h
    rw [List.find?_range_eq_none] at h
    have hnot := h x.index hx.lt_count
    rw [← hx.eq_site] at hnot
    simp [hx, hxp] at hnot
  · intro h
    -- what a scan finds is live, which nothing is here
    rw [Option.eq_none_iff_forall_ne_some]
    intro i hi
    have hfirst := scan_eq_some_iff.1 hi
    exact h _ hfirst.numbered hfirst.covers

/-- First is the live range with the lowest index. -/
theorem firstLive_iff_index_le {x : Site} :
    l.FirstLive r p x ↔ l.Numbered r x ∧ l.Covers x p ∧
      ∀ y, l.Numbered r y → l.Covers y p → x.index ≤ y.index := by
  constructor
  · intro h
    refine ⟨h.numbered, h.covers, fun y hy hyp => ?_⟩
    exact Nat.le_of_not_lt fun hlt => h.first y hy hlt hyp
  · rintro ⟨hnumbered, hcovers, hlowest⟩
    refine ⟨hnumbered, hcovers, fun y hy hlt hyp => ?_⟩
    exact Nat.not_lt.2 (hlowest y hy hyp) hlt

/-- **Lookup is a scan.** Over well-formed live ranges with an up-to-date directory, for every register
and every point:

* a lookup answers what a scan of all ranges does;
* it finds a range if and only if that is the one with the lowest index among the ranges of the
  register's kind and number that are live at the point;
* it fails if and only if there is none, and then reports the register and the point as missing;
* if ranges of one kind and number are never live together, the range it finds is the only one. -/
theorem locate_eq_locateByScan (hw : l.WellFormed) (p : Point) (r : Reg) :
    Indexed.locate ⟨l, .ofLiveness l⟩ p r = l.locateByScan p r ∧
      (∀ k, Indexed.locate ⟨l, .ofLiveness l⟩ p r = .ok k ↔
        l.Numbered r k.site ∧ l.Covers k.site p ∧
          ∀ y, l.Numbered r y → l.Covers y p → k.index ≤ y.index) ∧
      (∀ f, Indexed.locate ⟨l, .ofLiveness l⟩ p r = .error f ↔
        (¬ ∃ x, l.Numbered r x ∧ l.Covers x p) ∧ f = .missing ⟨r, p⟩) ∧
      (l.Apart → ∀ k, Indexed.locate ⟨l, .ofLiveness l⟩ p r = .ok k →
        ∀ x, l.Numbered r x ∧ l.Covers x p ↔ x = k.site) := by
  refine ⟨?_, ?_, ?_, ?_⟩
  · unfold locateByScan
    cases hscan : l.scan p r with
    | none => exact hw.locate_eq_error_iff.2 ⟨scan_eq_none_iff.1 hscan, rfl⟩
    | some i =>
      have hfirst := scan_eq_some_iff.1 hscan
      -- the range that is found has a key, and that is the one built
      obtain ⟨k, hk, hsite⟩ := hw.exists_key (x := ⟨r.kind, i⟩) hfirst.numbered.lt_count
      dsimp only at hk ⊢
      rw [hk]
      exact hw.locate_eq_ok_iff.2 (hsite ▸ hfirst)
  · intro k
    rw [hw.locate_eq_ok_iff, firstLive_iff_index_le]
    rfl
  · intro f
    rw [hw.locate_eq_error_iff]
    unfold Absent
    simp only [not_exists, not_and]
  -- apart, all that are live at the point are one range
  · intro hapart k hk x
    have hfirst := hw.locate_eq_ok_iff.1 hk
    rw [← hapart.firstLive_iff]
    constructor
    · intro hx
      exact hx.unique hfirst
    · rintro rfl
      exact hfirst

/-- A register with two ranges, asked for under another class; a hole between these; and a number past
the end of the directory. -/
theorem locate_eq_locateByScan_looping :
    looping.WellFormed ∧ looping.Apart ∧
      Indexed.locate ⟨looping, .ofLiveness looping⟩ (.useOf 4) ⟨.virtual, .f64, 0⟩ =
        looping.locateByScan (.useOf 4) ⟨.virtual, .f64, 0⟩ ∧
      looping.scan (.useOf 4) ⟨.virtual, .f64, 0⟩ = some 2 ∧
      (∀ x, looping.Numbered ⟨.virtual, .f64, 0⟩ x ∧ looping.Covers x (.useOf 4) ↔
        x = ⟨.virtual, 2⟩) ∧
      Indexed.locate ⟨looping, .ofLiveness looping⟩ (.useOf 2) ⟨.virtual, .i64, 0⟩ =
        .error (.missing ⟨⟨.virtual, .i64, 0⟩, .useOf 2⟩) ∧
      Indexed.locate ⟨looping, .ofLiveness looping⟩ (.useOf 2) ⟨.real, .i64, 0xFFFFFFFF⟩ =
        .error (.missing ⟨⟨.real, .i64, 0xFFFFFFFF⟩, .useOf 2⟩) := by
  have hw : looping.WellFormed := by decide
  have hapart : looping.Apart := by decide
  have hscan : looping.scan (.useOf 4) ⟨.virtual, .f64, 0⟩ = some 2 := by decide
  obtain ⟨hagree, -, -, honly⟩ := locate_eq_locateByScan hw (.useOf 4) ⟨.virtual, .f64, 0⟩
  obtain ⟨-, -, hhole, -⟩ := locate_eq_locateByScan hw (.useOf 2) ⟨.virtual, .i64, 0⟩
  obtain ⟨hpast, -, -, -⟩ := locate_eq_locateByScan hw (.useOf 2) ⟨.real, .i64, 0xFFFFFFFF⟩
  refine ⟨hw, hapart, hagree, hscan, ?_, ?_, hpast⟩
  · exact honly hapart ⟨2⟩ (hagree.trans (by decide))
  · refine (hhole _).2 ⟨?_, rfl⟩
    rintro ⟨x, hx, hxp⟩
    have habsent : looping.Absent ⟨.virtual, .i64, 0⟩ (.useOf 2) := by decide
    exact habsent x hx hxp

end Liveness

end RefFlow
