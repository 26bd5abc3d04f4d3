import RefFlow.Proofs.Covering
import RefFlow.Proofs.Directory
import RefFlow.Proofs.RangeKey
import RefFlow.Store.Indexed
/-!
# Lookup through an up-to-date directory

On well-formed live ranges the lookup of a register through the directory is a scan of all ranges of
its kind: it finds the first one of the register's number that is live at the point, or reports that
there is none. The ranges of a seed are all of its number.

Main statements:

* `Liveness.FirstLive.unique` — there is at most one first range;
* `Liveness.WellFormed.locate_cases` — a lookup finds the first live range, or there is none;
* `Liveness.WellFormed.locate_eq_ok_iff` — what a lookup finds;
* `Liveness.seed_eq_ok` — the ranges of a seed.
-/

namespace RefFlow

namespace Liveness

variable {l : Liveness}

/-! ### Sites of ranges -/

theorem isSome_reg?_iff {x : Site} : (l.reg? x).isSome ↔ x.index < l.count x.kind := by
  obtain ⟨kind, i⟩ := x
  cases kind <;> simp [reg?, count]

theorem lt_count_of_reg? {x : Site} {q : Reg} (h : l.reg? x = some q) :
    x.index < l.count x.kind := by
  rw [← isSome_reg?_iff, h]
  rfl

/-- What is live is a range. -/
theorem isSome_reg?_of_covers {x : Site} {p : Point} (h : l.Covers x p) : (l.reg? x).isSome := by
  obtain ⟨kind, i⟩ := x
  cases kind with
  | real =>
    obtain ⟨r, hr, -⟩ := h
    simp [reg?, hr]
  | virtual =>
    obtain ⟨r, hr, -⟩ := h
    simp [reg?, hr]

theorem isSome_reg?_of_numbered {r : Reg} {x : Site} (h : l.Numbered r x) : (l.reg? x).isSome := by
  obtain ⟨-, q, hq, -⟩ := h
  rw [hq]
  rfl

theorem Numbered.lt_count {r : Reg} {x : Site} (h : l.Numbered r x) :
    x.index < l.count r.kind := by
  obtain ⟨hkind, q, hq, -⟩ := h
  rw [← hkind]
  exact lt_count_of_reg? hq

theorem Numbered.eq_site {r : Reg} {x : Site} (h : l.Numbered r x) : x = ⟨r.kind, x.index⟩ := by
  rw [← h.1]

theorem Numbered.index_mem_lookup {r : Reg} {x : Site} (hcount : l.count r.kind < UInt32.size)
    (h : l.Numbered r x) : x.index ∈ ((Directory.ofLiveness l).lookup r.kind r.index).getD [] := by
  rw [Directory.mem_lookup_iff hcount, ← h.eq_site]
  exact h

/-- There is at most one first range. -/
theorem FirstLive.unique {r : Reg} {p : Point} {x y : Site} (hx : l.FirstLive r p x)
    (hy : l.FirstLive r p y) : x = y := by
  -- the later of the two would not be first
  have hindex : x.index = y.index := by
    rcases Nat.lt_trichotomy x.index y.index with hlt | heq | hgt
    · exact absurd hx.covers (hy.first x hx.numbered hlt)
    · exact heq
    · exact absurd hy.covers (hx.first y hy.numbered hgt)
  rw [hx.numbered.eq_site, hy.numbered.eq_site, hindex]

/-! ### Well-formed ranges -/

/-- The search in the segments of a range has an answer, and it is right. -/
theorem exists_covers_eq_some (hpinned : ∀ r ∈ l.pinned, r.WellFormed l.pool)
    (hvirtuals : ∀ r ∈ l.virtuals, r.WellFormed) {kind : RegKind} {i : Nat} (h : i < l.count kind)
    (p : Point) : ∃ b, Indexed.covers l p kind i = some b ∧ (b = true ↔ l.Covers ⟨kind, i⟩ p) := by
  -- one kind goes through the pool, the other has its segments in place
  cases kind with
  | real =>
    have hget : l.pinned[i]? = some l.pinned[i] := Array.getElem?_eq_getElem h
    obtain ⟨segs, hres, hasc⟩ := (hpinned _ (Array.getElem_mem h)).segs
    obtain ⟨b, hb, hiff⟩ := SegmentRefs.covers_eq_some hres hasc
    refine ⟨b, ?_, ?_⟩
    · show l.pinned[i]?.bind _ = some b
      rw [hget]
      exact hb
    · rw [hiff]
      show _ ↔ ∃ r, l.pinned[i]? = some r ∧ _
      rw [hget]
      simp
  | virtual =>
    have hget : l.virtuals[i]? = some l.virtuals[i] := Array.getElem?_eq_getElem h
    have hasc := (hvirtuals _ (Array.getElem_mem h)).segs
    refine ⟨l.virtuals[i].segs.covers p, ?_, ?_⟩
    · show l.virtuals[i]?.map _ = _
      rw [hget]
      rfl
    · rw [Segments.covers_eq_true_iff hasc]
      show _ ↔ ∃ r, l.virtuals[i]? = some r ∧ _
      rw [hget]
      simp

namespace WellFormed

variable (hw : l.WellFormed)
include hw

theorem count_le (kind : RegKind) : l.count kind ≤ RangeKey.lastIndex + 1 := by
  cases kind with
  | real => exact hw.pinned_size
  | virtual => exact hw.virtual_size

/-- Ranges that have keys are few enough to be counted in a word. -/
theorem count_lt (kind : RegKind) : l.count kind < UInt32.size :=
  Nat.lt_of_le_of_lt (hw.count_le kind) RangeKey.lastIndex_succ_lt

/-- Every range has a key. -/
theorem exists_key {x : Site} (h : x.index < l.count x.kind) :
    ∃ k, RangeKey.make? x.kind x.index = .ok k ∧ k.site = x := by
  have hle := hw.count_le x.kind
  exact RangeKey.exists_make? x.kind (by omega)

/-- The register of a range is of the kind of its site. -/
theorem reg?_kind {x : Site} {q : Reg} (h : l.reg? x = some q) : q.kind = x.kind := by
  obtain ⟨kind, i⟩ := x
  cases kind with
  | real =>
    obtain ⟨r, hr, rfl⟩ := Option.map_eq_some_iff.1 h
    exact (hw.pinned r (Array.mem_of_getElem? hr)).real
  | virtual =>
    obtain ⟨r, hr, rfl⟩ := Option.map_eq_some_iff.1 h
    exact (hw.virtuals r (Array.mem_of_getElem? hr)).virtual

/-- A range of a register has the register's kind and number. -/
theorem numbered_of_reg? {r : Reg} {x : Site} (h : l.reg? x = some r) : l.Numbered r x :=
  ⟨(hw.reg?_kind h).symm, r, h, rfl⟩

theorem covers_eq_some {kind : RegKind} {i : Nat} (h : i < l.count kind) (p : Point) :
    ∃ b, Indexed.covers l p kind i = some b ∧ (b = true ↔ l.Covers ⟨kind, i⟩ p) :=
  exists_covers_eq_some hw.pinned hw.virtuals h p

/-! ### The first live range -/

/-- The scan of a list of ranges in ascending order stops at the first one that is live. -/
theorem firstLive_cases {kind : RegKind} {p : Point} {is : List Nat}
    (hlt : ∀ i ∈ is, i < l.count kind) (hasc : is.Pairwise (· < ·)) :
    (∃ k i, Indexed.firstLive l p kind is = .ok (some k) ∧ i ∈ is ∧ k.site = ⟨kind, i⟩ ∧
      l.Covers ⟨kind, i⟩ p ∧ ∀ j ∈ is, j < i → ¬ l.Covers ⟨kind, j⟩ p) ∨
    (Indexed.firstLive l p kind is = .ok none ∧ ∀ i ∈ is, ¬ l.Covers ⟨kind, i⟩ p) := by
  induction is with
  | nil => exact Or.inr ⟨rfl, fun i hi => absurd hi List.not_mem_nil⟩
  | cons i rest ih =>
    obtain ⟨hhead, htail⟩ := List.pairwise_cons.1 hasc
    have hi : i < l.count kind := hlt i List.mem_cons_self
    obtain ⟨b, hb, hiff⟩ := hw.covers_eq_some hi p
    unfold Indexed.firstLive
    rw [hb]
    -- the scan stops at the head if that is live, else it goes on with the rest
    cases b with
    | true =>
      left
      obtain ⟨k, hk, hsite⟩ := hw.exists_key (x := ⟨kind, i⟩) hi
      refine ⟨k, i, ?_, List.mem_cons_self, hsite, hiff.1 rfl, ?_⟩
      · rw [hk]
        rfl
      -- all later entries are larger
      · intro j hj hji
        rcases List.mem_cons.1 hj with rfl | hj
        · omega
        · have hlarger := hhead j hj
          omega
    | false =>
      have hnot : ¬ l.Covers ⟨kind, i⟩ p := fun hc => Bool.false_ne_true (hiff.2 hc)
      rcases ih (fun j hj => hlt j (List.mem_cons_of_mem i hj)) htail with
        ⟨k, j, hrun, hj, hsite, hcov, hfirst⟩ | ⟨hrun, hnone⟩
      · refine Or.inl ⟨k, j, hrun, List.mem_cons_of_mem i hj, hsite, hcov, fun m hm hmj => ?_⟩
        rcases List.mem_cons.1 hm with rfl | hm
        · exact hnot
        · exact hfirst m hm hmj
      · refine Or.inr ⟨hrun, fun m hm => ?_⟩
        rcases List.mem_cons.1 hm with rfl | hm
        · exact hnot
        · exact hnone m hm

/-- **Lookup is a scan.** A lookup finds the first range of the register's kind and number that is
live at the point; if there is none, it reports the register and the point. -/
theorem locate_cases (r : Reg) (p : Point) :
    (∃ k, Indexed.locate ⟨l, .ofLiveness l⟩ p r = .ok k ∧ l.FirstLive r p k.site) ∨
    (Indexed.locate ⟨l, .ofLiveness l⟩ p r = .error (.missing ⟨r, p⟩) ∧
      ∀ x, l.Numbered r x → ¬ l.Covers x p) := by
  have hcount := hw.count_lt r.kind
  -- the directory lists all ranges of this number and no others, in their order
  have hlt : ∀ i ∈ ((Directory.ofLiveness l).lookup r.kind r.index).getD [],
      i < l.count r.kind := fun i hi => ((Directory.mem_lookup_iff hcount).1 hi).lt_count
  unfold Indexed.locate
  rcases hw.firstLive_cases (p := p) hlt (Directory.lookup_pairwise l r.kind r.index) with
    ⟨k, i, hrun, hi, hsite, hcov, hfirst⟩ | ⟨hrun, hnone⟩
  · left
    rw [hrun]
    refine ⟨k, rfl, ?_⟩
    rw [hsite]
    refine ⟨(Directory.mem_lookup_iff hcount).1 hi, hcov, fun y hy hlt => ?_⟩
    -- an earlier one would be listed too, and is not live
    have hnot := hfirst y.index (hy.index_mem_lookup hcount) hlt
    rwa [← hy.eq_site] at hnot
  · right
    rw [hrun]
    refine ⟨rfl, fun x hx => ?_⟩
    have hnot := hnone x.index (hx.index_mem_lookup hcount)
    rwa [← hx.eq_site] at hnot

theorem locate_eq_ok_iff {r : Reg} {p : Point} {k : RangeKey} :
    Indexed.locate ⟨l, .ofLiveness l⟩ p r = .ok k ↔ l.FirstLive r p k.site := by
  rcases hw.locate_cases r p with ⟨j, hrun, hfirst⟩ | ⟨hrun, hnone⟩
  · rw [hrun]
    constructor
    · intro h
      rwa [← Except.ok.inj h]
    · intro h
      rw [RangeKey.site_inj.1 (hfirst.unique h)]
  · rw [hrun]
    constructor
    · intro h
      exact absurd h (by simp)
    · intro h
      exact absurd h.covers (hnone _ h.numbered)

end WellFormed

/-! ### The ranges of a seed -/

section Seeds

variable (hsize : l.virtuals.size ≤ RangeKey.lastIndex + 1)
include hsize

/-- The keys of a list of ranges of virtual registers, in the order of the list. -/
theorem mapM_ofVirtual? {is : List Nat} (hlt : ∀ i ∈ is, i < l.count .virtual) :
    ∃ ks, is.mapM RangeKey.ofVirtual? = .ok ks ∧ ks.map (·.site) = is.map (Site.mk .virtual) := by
  induction is with
  | nil => exact ⟨[], rfl, rfl⟩
  | cons i rest ih =>
    obtain ⟨ks, hks, hsites⟩ := ih fun j hj => hlt j (List.mem_cons_of_mem i hj)
    have hi : i < l.virtuals.size := hlt i List.mem_cons_self
    obtain ⟨k, hk, hsite⟩ := RangeKey.exists_make? .virtual (i := i) (by omega)
    refine ⟨k :: ks, ?_, ?_⟩
    · rw [List.mapM_cons, hks, show RangeKey.ofVirtual? i = .ok k from hk]
      rfl
    · rw [List.map_cons, List.map_cons, hsites, hsite]

/-- **The ranges of a seed** are all ranges of a virtual register with its number, in their order.
The ranges need not be well-formed, as long as there are keys for them. -/
theorem seed_eq_ok {r : Reg} (hr : r.kind = .virtual) :
    ∃ found, Indexed.seed ⟨l, .ofLiveness l⟩ r = .ok found ∧
      (∀ k, k ∈ found.keys ↔ l.Numbered r k.site) ∧
      found.keys.Pairwise fun a b => a.index < b.index := by
  have hcount : l.count r.kind < UInt32.size := by
    rw [hr]
    exact Nat.lt_of_le_of_lt hsize RangeKey.lastIndex_succ_lt
  have hmem := fun i => Directory.mem_lookup_iff (i := i) hcount
  have hindex := fun x => Numbered.index_mem_lookup (x := x) hcount
  rw [hr] at hmem hindex
  unfold Indexed.seed
  rw [if_pos hr]
  dsimp only
  cases hlook : (Directory.ofLiveness l).lookup .virtual r.index with
  | none =>
    -- a number past the end of the table is one that no range has
    rw [hlook] at hindex
    exact ⟨_, rfl, fun k => iff_of_false List.not_mem_nil fun hk => List.not_mem_nil (hindex _ hk),
      .nil⟩
  | some is =>
    have hasc := Directory.lookup_pairwise l .virtual r.index
    rw [hlook, Option.getD_some] at hmem hindex hasc
    obtain ⟨ks, hks, hsites⟩ := mapM_ofVirtual? hsize fun i hi => hr ▸ ((hmem i).1 hi).lt_count
    dsimp only
    rw [hks]
    refine ⟨_, rfl, ?_, ?_⟩
    · intro k
      -- keys are told apart by their sites, and the sites are those listed
      have hsite : k ∈ ks ↔ k.site ∈ ks.map (·.site) := by
        rw [List.mem_map]
        refine ⟨fun h => ⟨k, h, rfl⟩, fun ⟨j, hj, hjk⟩ => ?_⟩
        rwa [← RangeKey.site_inj.1 hjk]
      rw [hsite, hsites, List.mem_map]
      constructor
      · rintro ⟨i, hi, hik⟩
        rw [← hik]
        exact (hmem i).1 hi
      · intro hk
        exact ⟨k.site.index, hindex _ hk, hr ▸ hk.eq_site.symm⟩
    -- the keys come in the order of the list
    · have hindices : ks.map (·.index) = is := by
        have hmap := congrArg (List.map Site.index) hsites
        simpa [Function.comp_def, RangeKey.site] using hmap
      rw [← hindices] at hasc
      exact List.pairwise_map.1 hasc

end Seeds

theorem WellFormed.seed_eq_ok (hw : l.WellFormed) {r : Reg} (hr : r.kind = .virtual) :
    ∃ found, Indexed.seed ⟨l, .ofLiveness l⟩ r = .ok found ∧
      (∀ k, k ∈ found.keys ↔ l.Numbered r k.site) ∧
      found.keys.Pairwise fun a b => a.index < b.index :=
  Liveness.seed_eq_ok hw.virtual_size hr

end Liveness

end RefFlow
