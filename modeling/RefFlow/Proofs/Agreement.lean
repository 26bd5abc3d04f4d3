import RefFlow.Proofs.Entering
import RefFlow.Proofs.Exactness
/-!
# Table and live ranges agree

The table scans all rows and compares whole registers; the live ranges are found by the number of a
register alone. On stores that hold the same ranges (`Mirrors`) the two find the same range for every
register that no row shares its kind and number with in another class. So they resolve the same moves,
take the same seeds, and come to the same end with the same marks.

Main statements:

* `Mirrors.locate_eq`, `Mirrors.seed_keys_eq` — both stores give the same answers;
* `Mirrors.survey_eq` — both come to the same survey;
* `table_agrees_with_liveness` — a run over either store of the same stretches.
-/

namespace RefFlow

/-- Keys in ascending order are determined by what they are. -/
theorem RangeKey.eq_of_pairwise {js ks : List RangeKey}
    (hjs : js.Pairwise fun a b => a.index < b.index)
    (hks : ks.Pairwise fun a b => a.index < b.index) (hmem : ∀ k, k ∈ js ↔ k ∈ ks) : js = ks := by
  have hne : ∀ {a b : RangeKey}, a.index < b.index → a ≠ b := by
    rintro a _ hlt rfl
    exact Nat.lt_irrefl _ hlt
  have hperm : js.Perm ks :=
    (List.perm_ext_iff_of_nodup (hjs.imp hne) (hks.imp hne)).2 hmem
  refine hperm.eq_of_pairwise ?_ hjs hks
  intro a b _ _ hab hba
  exact absurd hab (Nat.lt_asymm hba)

/-- Two registers of one kind and number are of one class. -/
def Reg.Consistent (q r : Reg) : Prop := q.kind = r.kind → q.index = r.index → q.cls = r.cls

instance (q r : Reg) : Decidable (q.Consistent r) := inferInstanceAs (Decidable (_ → _ → _))

theorem Reg.Consistent.eq {q r : Reg} (h : q.Consistent r) (hkind : q.kind = r.kind)
    (hindex : q.index = r.index) : q = r :=
  Reg.ext hkind (h hkind hindex) hindex

/-- No row shares its kind and number with `r` in another class. -/
def RowTable.Unambiguous (t : RowTable) (r : Reg) : Prop := ∀ row ∈ t.rows, row.reg.Consistent r

/-! ### Answers -/

namespace Mirrors

variable {t : RowTable} {l : Liveness} (h : Mirrors t l) (hw : l.WellFormed)
include h hw

/-- The ranges of a register's number are the rows of the register. -/
theorem numbered_iff {r : Reg} (hr : t.Unambiguous r) {x : Site} :
    l.Numbered r x ↔ ∃ row ∈ t.rows, row.reg = r ∧ row.key.site = x := by
  constructor
  -- a range numbered like `r` has a row, and no row like that is of another class
  · rintro ⟨hkind, q, hq, hindex⟩
    obtain ⟨row, hrow, hsite⟩ := h.exists_row x (hq ▸ rfl)
    have hreg : row.reg = q := by
      have hrowreg := h.reg row hrow
      rw [hsite, hq] at hrowreg
      exact (Option.some.inj hrowreg).symm
    have hqkind : q.kind = r.kind := (hw.reg?_kind hq).trans hkind
    rw [← hreg] at hqkind hindex
    exact ⟨row, hrow, (hr row hrow).eq hqkind hindex, hsite⟩
  · rintro ⟨row, hrow, rfl, rfl⟩
    exact hw.numbered_of_reg? (h.reg row hrow)

/-- **Lookup.** The first row that fits has the key of the first range that fits. -/
theorem locate_eq {r : Reg} (hr : t.Unambiguous r) (p : Point) :
    t.locate p r = Indexed.locate ⟨l, .ofLiveness l⟩ p r := by
  unfold RowTable.locate
  cases hfind : t.rows.find? fun row => row.reg == r && decide (p ∈ row.segment) with
  | none =>
    rw [List.find?_eq_none] at hfind
    rcases hw.locate_cases r p with ⟨k, -, hfirst⟩ | ⟨hrun, -⟩
    · obtain ⟨row, hrow, hreg, hsite⟩ := (h.numbered_iff hw hr).1 hfirst.numbered
      have hmem : p ∈ row.segment := by
        rw [← h.covers row hrow, hsite]
        exact hfirst.covers
      exact absurd (by simp [hreg, hmem]) (hfind row hrow)
    · rw [hrun]
  | some row =>
    obtain ⟨hfits, before, after, hsplit, hbefore⟩ := List.find?_eq_some_iff_append.1 hfind
    obtain ⟨hreg, hmem⟩ : row.reg = r ∧ p ∈ row.segment := by simpa using hfits
    have hrow : row ∈ t.rows := List.mem_of_find?_eq_some hfind
    refine (hw.locate_eq_ok_iff.2 ⟨?_, (h.covers row hrow p).2 hmem, ?_⟩).symm
    · exact (h.numbered_iff hw hr).2 ⟨row, hrow, hreg, rfl⟩
    -- an earlier range would be an earlier row, which the scan would have found first
    · intro y hy hlt hcov
      obtain ⟨early, hearly, hearlyreg, rfl⟩ := (h.numbered_iff hw hr).1 hy
      have hearlymem : p ∈ early.segment := (h.covers early hearly p).1 hcov
      have hordered := h.ordered
      rw [hsplit] at hearly hordered
      rcases List.mem_append.1 hearly with hin | hin
      · have hmiss := hbefore early hin
        simp [hearlyreg, hearlymem] at hmiss
      · rcases List.mem_cons.1 hin with rfl | hin
        · exact Nat.lt_irrefl _ hlt
        · have hafter := (List.pairwise_cons.1 (List.pairwise_append.1 hordered).2.1).1 early hin
          have hgt : row.key.index < early.key.index :=
            hafter (by rw [hreg, hearlyreg])
          exact Nat.lt_asymm hlt hgt

/-- **Seeds.** The rows of a virtual register have the keys of its ranges. -/
theorem seed_keys_eq {r : Reg} (hr : t.Unambiguous r) (hkind : r.kind = .virtual) :
    (t.seed r).map (·.keys) = (Indexed.seed ⟨l, .ofLiveness l⟩ r).map (·.keys) := by
  obtain ⟨found, hfound, hmem, hasc⟩ := hw.seed_eq_ok hkind
  rw [hfound]
  refine congrArg Except.ok (RangeKey.eq_of_pairwise ?_ hasc ?_)
  -- rows of one register are of one kind, hence in ascending order
  · refine List.pairwise_map.2 ((h.ordered.filter _).imp_of_mem ?_)
    intro a b ha hb hab
    have hreg : ∀ row ∈ t.rows.filter (·.reg == r), row.reg = r := by simp
    exact hab (by rw [hreg a ha, hreg b hb])
  · intro k
    rw [hmem, h.numbered_iff hw hr]
    simp only [List.mem_map, List.mem_filter, beq_iff_eq, RangeKey.site_inj, and_assoc]

/-! ### Runs -/

variable {moves : List Move} {req : Request}

/-- **Surveys** of both stores are the same. -/
theorem survey_eq (hmoves : ∀ m ∈ moves, m.OfClass req.refClass →
      t.Unambiguous m.src ∧ t.Unambiguous m.dst) (hseeds : ∀ r ∈ req.seeds, t.Unambiguous r) :
    (survey t moves req).1 = (survey (Indexed.mk l (.ofLiveness l)) moves req).1 := by
  refine survey_congr ?_ ?_
  · intro m hm hc
    obtain ⟨hsrc, hdst⟩ := hmoves m hm hc
    unfold Move.resolve
    rw [show RangeStore.locate t (.useOf m.instr) m.src =
        RangeStore.locate (Indexed.mk l (.ofLiveness l)) (.useOf m.instr) m.src from
      h.locate_eq hw hsrc _]
    rw [show RangeStore.locate t (.defOf m.instr) m.dst =
        RangeStore.locate (Indexed.mk l (.ofLiveness l)) (.defOf m.instr) m.dst from
      h.locate_eq hw hdst _]
  · intro r hr hkind
    exact h.seed_keys_eq hw (hseeds r hr) hkind

/-- **Runs** over both stores end alike, and from no marks, the keys counted in the table are those of
the ranges marked, each counted once. -/
theorem propagate_eq (hmarks : t.marks = []) (hclean : l.Unmarked)
    (hmoves : ∀ m ∈ moves, m.OfClass req.refClass → t.Unambiguous m.src ∧ t.Unambiguous m.dst)
    (hseeds : ∀ r ∈ req.seeds, t.Unambiguous r) (sw : Switches) :
    (propagate sw t moves req).outcome = (l.analyse sw moves req).outcome ∧
      ∀ k, (propagate sw t moves req).store.marks.count k =
        if (l.analyse sw moves req).store.live.Marked k.site then 1 else 0 := by
  -- surveys change nothing, so all that is left to compare is how their result is marked
  have hsurvey := h.survey_eq hw hmoves hseeds
  cases ht : survey t moves req with
  | mk result log =>
    cases hl : survey (Indexed.mk l (.ofLiveness l)) moves req with
    | mk result' log' =>
      rw [ht, hl] at hsurvey
      obtain rfl : result = result' := hsurvey
      cases result with
      | error stop =>
        obtain ⟨hend, hlive⟩ := Liveness.analyse_of_error sw hl
        rw [propagate_of_error ht, hend, hlive]
        refine ⟨rfl, ?_⟩
        intro k
        rw [if_neg (hclean k.site)]
        show t.marks.count k = 0
        rw [hmarks, List.count_nil]
      | ok found =>
        obtain ⟨hend, -⟩ := Liveness.analyse_of_ok sw hl
        rw [propagate_of_ok ht, hend]
        refine ⟨rfl, ?_⟩
        intro k
        have hmarked : (l.analyse sw moves req).store.live.Marked k.site ↔ k ∈ found.marking := by
          rw [hw.marked_analyse_iff hend, or_iff_right (hclean k.site), ← hw.mem_reached_iff hl,
            Survey.mem_marking_iff]
        show (markAll t found.marking).marks.count k = _
        rw [RowTable.count_markAll, hmarks, List.count_nil, Nat.add_zero,
          Survey.nodup_marking.count]
        exact if_congr hmarked.symm rfl rfl

end Mirrors

/-- A table faults with the register and the point of a missing range, and in no other way. -/
theorem RowTable.propagate_eq_faulted {t : RowTable} {moves : List Move} {req : Request}
    {sw : Switches} {f : Fault} (h : (propagate sw t moves req).outcome = .faulted f) :
    ∃ m, f = .missing m := by
  rcases RefFlow.propagate_eq_faulted h with ⟨p, r, hlocate⟩ | ⟨r, hseed⟩
  · have hlocate' : t.locate p r = .error f := hlocate
    unfold locate at hlocate'
    split at hlocate'
    · exact absurd hlocate' (by simp)
    · exact ⟨_, (Except.error.inj hlocate').symm⟩
  · have hseed' : t.seed r = .error f := hseed
    unfold seed at hseed'
    exact absurd hseed' (by simp)

/-! ### Both stores of a list of stretches -/

/-- The registers that a request is about, the seeds and the operands of moves of the reference class,
agree with those of the stretches in class wherever they agree in kind and number. -/
def ClassesAgree (es : List Stretch) (moves : List Move) (req : Request) : Prop :=
  ∀ e ∈ es, (∀ r ∈ req.seeds, e.reg.Consistent r) ∧
    ∀ m ∈ moves, m.OfClass req.refClass → e.reg.Consistent m.src ∧ e.reg.Consistent m.dst

instance (es : List Stretch) (moves : List Move) (req : Request) :
    Decidable (ClassesAgree es moves req) :=
  inferInstanceAs (Decidable (∀ e ∈ es, _ ∧ ∀ m ∈ moves, _ → _))

/-- **Table and live ranges agree.** Stretches that all have points, and few enough to be named by
keys, can be entered into a table and into live ranges. For every request in which classes agree, the
analysis of both has the same outcome: a summary, a refusal, or a fault with the register and the
point of a missing range. The keys counted in the table are those of the ranges marked, each counted
once. -/
theorem table_agrees_with_liveness {es : List Stretch} (hlt : ∀ e ∈ es, e.first < e.last)
    (hindex : ∀ e ∈ es, e.reg.index < 0xFFFFFFFF)
    (hcount : ∀ kind, es.countP (·.reg.kind == kind) ≤ RangeKey.lastIndex + 1) :
    ∃ t l, RowTable.ofStretches es = .ok t ∧ Liveness.ofStretches es = .ok l ∧
      ∀ sw moves req, ClassesAgree es moves req →
        (propagate sw t moves req).outcome = (l.analyse sw moves req).outcome ∧
        (∀ f, (l.analyse sw moves req).outcome = .faulted f → ∃ m, f = .missing m) ∧
        ∀ k, (propagate sw t moves req).store.marks.count k =
          if (l.analyse sw moves req).store.live.Marked k.site then 1 else 0 := by
  obtain ⟨t, l, ht, hl, h, hw, hmarks, hclean, hregs⟩ := Mirrors.ofStretches hlt hindex hcount
  refine ⟨t, l, ht, hl, ?_⟩
  intro sw moves req hagree
  -- the registers of the rows are those of the stretches
  have hrows : ∀ r, (∀ e ∈ es, e.reg.Consistent r) → t.Unambiguous r := by
    intro r hr row hrow
    have hmem : row.reg ∈ es.map (·.reg) := hregs ▸ List.mem_map_of_mem hrow
    obtain ⟨e, he, hreg⟩ := List.mem_map.1 hmem
    exact hreg ▸ hr e he
  obtain ⟨hend, hmarked⟩ := h.propagate_eq hw hmarks hclean
    (fun m hm hc => ⟨hrows m.src fun e he => ((hagree e he).2 m hm hc).1,
      hrows m.dst fun e he => ((hagree e he).2 m hm hc).2⟩)
    (fun r hr => hrows r fun e he => (hagree e he).1 r hr) sw
  refine ⟨hend, ?_, hmarked⟩
  intro f hf
  exact RowTable.propagate_eq_faulted (hend.trans hf)

/-- Ranges of `v0`, `r3` and `v2` one after the other, with one of another class beside them. -/
def relay : List Stretch := [
  ⟨⟨.virtual, .i64, 0⟩, 0, 2⟩, ⟨⟨.real, .i64, 3⟩, 1, 4⟩, ⟨⟨.virtual, .f64, 1⟩, 0, 5⟩,
  ⟨⟨.virtual, .i64, 2⟩, 3, 6⟩]

/-- The copies `r3 := v0` and `v2 := r3`. -/
def relayMoves : List Move := [
  ⟨⟨.real, .i64, 3⟩, ⟨.virtual, .i64, 0⟩, 1, 1⟩, ⟨⟨.virtual, .i64, 2⟩, ⟨.real, .i64, 3⟩, 3, 1⟩]

theorem table_agrees_with_liveness_relay :
    (∀ e ∈ relay, e.first < e.last) ∧ (∀ e ∈ relay, e.reg.index < 0xFFFFFFFF) ∧
      (∀ kind, relay.countP (·.reg.kind == kind) ≤ RangeKey.lastIndex + 1) ∧
      ClassesAgree relay relayMoves ⟨.i64, [⟨.virtual, .i64, 0⟩]⟩ ∧
      ∃ t l, RowTable.ofStretches relay = .ok t ∧ Liveness.ofStretches relay = .ok l ∧
        (l.analyse .off relayMoves ⟨.i64, [⟨.virtual, .i64, 0⟩]⟩).outcome =
          .finished ⟨2, 2, 2, 1, 1, 2⟩ ∧
        ∀ k, (propagate .off t relayMoves ⟨.i64, [⟨.virtual, .i64, 0⟩]⟩).store.marks.count k =
          if (l.analyse .off relayMoves ⟨.i64, [⟨.virtual, .i64, 0⟩]⟩).store.live.Marked k.site
          then 1 else 0 := by
  have hlt : ∀ e ∈ relay, e.first < e.last := by decide
  have hindex : ∀ e ∈ relay, e.reg.index < 0xFFFFFFFF := by decide
  have hcount : ∀ kind, relay.countP (·.reg.kind == kind) ≤ RangeKey.lastIndex + 1 := by
    intro kind
    cases kind <;> decide
  have hagree : ClassesAgree relay relayMoves ⟨.i64, [⟨.virtual, .i64, 0⟩]⟩ := by decide
  obtain ⟨t, l, ht, hl, hruns⟩ := table_agrees_with_liveness hlt hindex hcount
  obtain ⟨hend, -, hmarked⟩ := hruns .off _ _ hagree
  refine ⟨hlt, hindex, hcount, hagree, t, l, ht, hl, ?_, hmarked⟩
  rw [← hend]
  obtain rfl := Except.ok.inj (ht.symm.trans rfl)
  decide +kernel

end RefFlow
