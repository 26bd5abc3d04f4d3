import RefFlow.Proofs.Relabelling
import Mathlib.Logic.Equiv.Fin.Basic
/-!
# Ranges in another order

Ranges are named by their places. If those of a function are put in another order, every key is
another one, the directory lists the ranges otherwise, and the search comes across them otherwise.
A lookup, which takes the first of all ranges that are live at a point, may even find another range.
It does not if ranges of one number are never live together (`Liveness.Apart`), for then the first
range is the only one. So the bijection that takes every place to the place its range comes from
respects all that a run learns of the ranges, and the marks move along with them.

Main statements:

* `Liveness.apart_iff` — common points need to be looked for only where segments start;
* `Liveness.permute_relabels` — ranges in another order answer alike;
* `Liveness.analyse_permute` — the order of the ranges has no effect.
-/

namespace RefFlow

/-! ### Arrays in another order -/

/-- The items of an array in another order: at `i` comes to stand what stood at `σ i`. -/
def reorder {α : Type} (items : Array α) (σ : Equiv.Perm (Fin items.size)) : Array α :=
  Array.ofFn fun i => items[σ i]

/-- The place that an item of a reordered array comes from. Places beyond the array stay the same. -/
def origin {n : Nat} (σ : Equiv.Perm (Fin n)) : Equiv.Perm Nat := σ.extendDomain Fin.equivSubtype

theorem origin_val {n : Nat} (σ : Equiv.Perm (Fin n)) (i : Fin n) : origin σ i = σ i :=
  σ.extendDomain_apply_image Fin.equivSubtype i

theorem origin_of_le {n : Nat} (σ : Equiv.Perm (Fin n)) {i : Nat} (h : n ≤ i) : origin σ i = i :=
  σ.extendDomain_apply_not_subtype Fin.equivSubtype (Nat.not_lt.2 h)

section Reorder

variable {α : Type} {items : Array α} {σ : Equiv.Perm (Fin items.size)}

theorem size_reorder : (reorder items σ).size = items.size := Array.size_ofFn

theorem getElem?_reorder (i : Nat) : (reorder items σ)[i]? = items[origin σ i]? := by
  unfold reorder
  rw [Array.getElem?_ofFn]
  -- within the array the permutation is followed, beyond it nothing stands on either side
  by_cases h : i < items.size
  · rw [dif_pos h, origin_val σ ⟨i, h⟩]
    exact (Array.getElem?_eq_getElem (σ ⟨i, h⟩).isLt).symm
  · have hle : items.size ≤ i := Nat.not_lt.1 h
    rw [dif_neg h, origin_of_le σ hle]
    exact (Array.getElem?_eq_none hle).symm

/-- The item at a place is the one at the place it comes from. -/
theorem exists_reorder_iff {P : α → Prop} (i : Nat) :
    (∃ x, (reorder items σ)[i]? = some x ∧ P x) ↔ ∃ x, items[origin σ i]? = some x ∧ P x := by
  rw [getElem?_reorder]

theorem mem_of_mem_reorder {x : α} (h : x ∈ reorder items σ) : x ∈ items := by
  obtain ⟨i, rfl⟩ := Array.mem_ofFn.1 h
  exact Array.getElem_mem _

end Reorder

/-- Sites with the places of each kind renumbered. -/
def Site.renumber (e : RegKind → Equiv.Perm Nat) : Site ≃ Site where
  toFun x := ⟨x.kind, e x.kind x.index⟩
  invFun x := ⟨x.kind, (e x.kind).symm x.index⟩
  left_inv x := by simp
  right_inv x := by simp

namespace Liveness

variable {l : Liveness}

/-! ### Ranges apart -/

/-- Ranges with one number are never live at a common point. Classes are not told apart. -/
def Apart (l : Liveness) : Prop :=
  ∀ r p x y, l.Numbered r x → l.Numbered r y → l.Covers x p → l.Covers y p → x = y

/-- The points at which segments start. -/
def starts (l : Liveness) : List Point :=
  l.pool.toList.map (·.first) ++ l.virtuals.toList.flatMap (·.segs.items.toList.map (·.first))

/-- The sites of all ranges. -/
def sites (l : Liveness) : List Site :=
  (List.range l.pinned.size).map (⟨.real, ·⟩) ++ (List.range l.virtuals.size).map (⟨.virtual, ·⟩)

theorem mem_sites_iff {x : Site} : x ∈ l.sites ↔ (l.reg? x).isSome := by
  obtain ⟨kind, i⟩ := x
  cases kind <;> simp [sites, reg?]

/-- A range that is live at a point is live in a segment around it. -/
theorem Covers.exists_segment {x : Site} {p : Point} (h : l.Covers x p) :
    ∃ s : Segment, p ∈ s ∧ s.first ∈ l.starts ∧ ∀ q ∈ s, l.Covers x q := by
  obtain ⟨kind, i⟩ := x
  cases kind with
  | real =>
    obtain ⟨r, hr, j, hj, s, hs, hp⟩ := h
    refine ⟨s, hp, ?_, fun q hq => ⟨r, hr, j, hj, s, hs, hq⟩⟩
    have hmem : s ∈ l.pool.toList := Array.mem_toList_iff.2 (Array.mem_of_getElem? hs)
    exact List.mem_append_left _ (List.mem_map_of_mem hmem)
  | virtual =>
    obtain ⟨r, hr, s, hs, hp⟩ := h
    refine ⟨s, hp, ?_, fun q hq => ⟨r, hr, s, hs, hq⟩⟩
    have hmem : r ∈ l.virtuals.toList := Array.mem_toList_iff.2 (Array.mem_of_getElem? hr)
    refine List.mem_append_right _ (List.mem_flatMap.2 ⟨r, hmem, ?_⟩)
    exact List.mem_map_of_mem (Array.mem_toList_iff.2 hs)

/-- Ranges that are live at a common point are so where a segment starts: of the two segments around
the point, the one that starts later starts within the other. -/
theorem Covers.exists_common_start {x y : Site} {p : Point} (hx : l.Covers x p)
    (hy : l.Covers y p) : ∃ q ∈ l.starts, l.Covers x q ∧ l.Covers y q := by
  obtain ⟨s, hps, hs, hxs⟩ := hx.exists_segment
  obtain ⟨t, hpt, ht, hyt⟩ := hy.exists_segment
  rw [Segment.mem_def, Point.le_iff_pos_le, Point.le_iff_pos_le] at hps hpt
  -- the later start is not beyond the point, where the other segment has not ended
  rcases Nat.le_total s.first.pos t.first.pos with hle | hle
  · refine ⟨t.first, ht, hxs _ ?_, hyt _ ?_⟩ <;>
      rw [Segment.mem_def, Point.le_iff_pos_le, Point.le_iff_pos_le] <;> omega
  · refine ⟨s.first, hs, hxs _ ?_, hyt _ ?_⟩ <;>
      rw [Segment.mem_def, Point.le_iff_pos_le, Point.le_iff_pos_le] <;> omega

/-- Common points need to be looked for only where segments start. -/
theorem apart_iff : l.Apart ↔ ∀ x ∈ l.sites, ∀ y ∈ l.sites, x.kind = y.kind →
    (l.reg? x).map (·.index) = (l.reg? y).map (·.index) →
      ∀ p ∈ l.starts, l.Covers x p → l.Covers y p → x = y := by
  constructor
  -- sites of one kind and number are those of one register
  · intro hapart x hx y _ hkind hindex p _ hxp hyp
    obtain ⟨q, hq⟩ := Option.isSome_iff_exists.1 (mem_sites_iff.1 hx)
    rw [hq] at hindex
    obtain ⟨q', hq', heq⟩ := Option.map_eq_some_iff.1 hindex.symm
    exact hapart ⟨x.kind, q.cls, q.index⟩ p x y ⟨rfl, q, hq, rfl⟩ ⟨hkind.symm, q', hq', heq⟩ hxp hyp
  -- a common point anywhere gives one where a segment starts, and there the list is complete
  · intro h r p x y hx hy hxp hyp
    obtain ⟨hxkind, qx, hqx, hxindex⟩ := hx
    obtain ⟨hykind, qy, hqy, hyindex⟩ := hy
    have hkind : x.kind = y.kind := hxkind.trans hykind.symm
    have hindex : (l.reg? x).map (·.index) = (l.reg? y).map (·.index) := by
      rw [hqx, hqy]
      exact congrArg some (hxindex.trans hyindex.symm)
    obtain ⟨q, hq, hxq, hyq⟩ := hxp.exists_common_start hyp
    have hxmem : x ∈ l.sites := mem_sites_iff.2 (isSome_reg?_of_covers hxp)
    have hymem : y ∈ l.sites := mem_sites_iff.2 (isSome_reg?_of_covers hyp)
    exact h x hxmem y hymem hkind hindex q hq hxq hyq

instance (l : Liveness) : Decidable l.Apart := decidable_of_iff _ apart_iff.symm

/-- Where ranges are apart, what is live is first. -/
theorem Apart.firstLive_iff (h : l.Apart) {r : Reg} {p : Point} {x : Site} :
    l.FirstLive r p x ↔ l.Numbered r x ∧ l.Covers x p := by
  constructor
  · intro hx
    exact ⟨hx.numbered, hx.covers⟩
  -- a range before it would be live at the same point
  · rintro ⟨hnumbered, hcovers⟩
    refine ⟨hnumbered, hcovers, ?_⟩
    intro y hy hlt hyp
    have hyx : y = x := h r p y x hy hnumbered hyp hcovers
    rw [hyx] at hlt
    exact Nat.lt_irrefl _ hlt

/-! ### The ranges of a function in another order -/

/-- The ranges of each kind in another order, over the same pool. -/
def permute (l : Liveness) (σ : Equiv.Perm (Fin l.pinned.size))
    (τ : Equiv.Perm (Fin l.virtuals.size)) : Liveness where
  pool := l.pool
  pinned := reorder l.pinned σ
  virtuals := reorder l.virtuals τ

/-- The site that a range in another order comes from. -/
def oldSite (σ : Equiv.Perm (Fin l.pinned.size)) (τ : Equiv.Perm (Fin l.virtuals.size)) :
    Site ≃ Site :=
  Site.renumber fun
    | .real => origin σ
    | .virtual => origin τ

variable {σ : Equiv.Perm (Fin l.pinned.size)} {τ : Equiv.Perm (Fin l.virtuals.size)}

theorem reg?_permute (x : Site) : (l.permute σ τ).reg? x = l.reg? (oldSite σ τ x) := by
  obtain ⟨kind, i⟩ := x
  cases kind with
  | real => exact congrArg (Option.map PinnedRange.reg) (getElem?_reorder i)
  | virtual => exact congrArg (Option.map VregRange.reg) (getElem?_reorder i)

theorem covers_permute_iff {x : Site} {p : Point} :
    (l.permute σ τ).Covers x p ↔ l.Covers (oldSite σ τ x) p := by
  obtain ⟨kind, i⟩ := x
  cases kind with
  | real => exact exists_reorder_iff i
  | virtual => exact exists_reorder_iff i

theorem marked_permute_iff {x : Site} :
    (l.permute σ τ).Marked x ↔ l.Marked (oldSite σ τ x) := by
  obtain ⟨kind, i⟩ := x
  cases kind with
  | real => exact exists_reorder_iff i
  | virtual => exact exists_reorder_iff i

theorem numbered_permute_iff {r : Reg} {x : Site} :
    (l.permute σ τ).Numbered r x ↔ l.Numbered r (oldSite σ τ x) := by
  unfold Numbered
  rw [reg?_permute]
  rfl

/-- Ranges in another order are well formed. -/
theorem WellFormed.permute (hw : l.WellFormed) : (l.permute σ τ).WellFormed where
  pinned r hr := hw.pinned r (mem_of_mem_reorder hr)
  virtuals r hr := hw.virtuals r (mem_of_mem_reorder hr)
  pinned_index r hr := hw.pinned_index r (mem_of_mem_reorder hr)
  virtual_index r hr := hw.virtual_index r (mem_of_mem_reorder hr)
  pinned_size := (size_reorder (σ := σ)).trans_le hw.pinned_size
  virtual_size := (size_reorder (σ := τ)).trans_le hw.virtual_size

/-- Ranges in another order are still apart. -/
theorem Apart.permute (h : l.Apart) : (l.permute σ τ).Apart := by
  intro r p x y hx hy hxp hyp
  rw [numbered_permute_iff] at hx hy
  rw [covers_permute_iff] at hxp hyp
  exact (oldSite σ τ).injective (h r p _ _ hx hy hxp hyp)

/-- Ranges that are apart answer alike in whatever order. -/
theorem permute_relabels (h : l.Apart) : (l.permute σ τ).Relabels l (oldSite σ τ) where
  kind _ := rfl
  reg x := (reg?_permute x).symm
  firstLive r p x := by
    rw [h.firstLive_iff, h.permute.firstLive_iff, numbered_permute_iff, covers_permute_iff]

/-- **The order of the ranges has no effect.** Over well-formed live ranges of which no two with one
number are live at a common point, runs over the ranges in whatever order have the same outcome, and
they leave marks on the same ranges. -/
theorem analyse_permute (hw : l.WellFormed) (hapart : l.Apart) (σ : Equiv.Perm (Fin l.pinned.size))
    (τ : Equiv.Perm (Fin l.virtuals.size)) (sw : Switches) (moves : List Move) (req : Request) :
    ((l.permute σ τ).analyse sw moves req).outcome = (l.analyse sw moves req).outcome ∧
      (∀ i : Fin l.pinned.size,
        ((l.permute σ τ).analyse sw moves req).store.live.Marked ⟨.real, i⟩ ↔
          (l.analyse sw moves req).store.live.Marked ⟨.real, σ i⟩) ∧
      ∀ i : Fin l.virtuals.size,
        ((l.permute σ τ).analyse sw moves req).store.live.Marked ⟨.virtual, i⟩ ↔
          (l.analyse sw moves req).store.live.Marked ⟨.virtual, τ i⟩ := by
  have hrelabels : (l.permute σ τ).Relabels l (oldSite σ τ) := permute_relabels hapart
  -- places change by a bijection, and the run knows of the ranges only what it preserves
  have hmarks : ∀ x, (l.analyse sw moves req).store.live.Marked (oldSite σ τ x) ↔
      ((l.permute σ τ).analyse sw moves req).store.live.Marked x :=
    hrelabels.marked_iff hw.permute hw fun _ => marked_permute_iff.symm
  refine ⟨(hrelabels.outcome_eq hw.permute hw).symm, ?_, ?_⟩
  · intro i
    rw [← origin_val σ i]
    exact (hmarks ⟨.real, i⟩).symm
  · intro i
    rw [← origin_val τ i]
    exact (hmarks ⟨.virtual, i⟩).symm

/-- The two ranges of `v0` change places. -/
def loopingSwap : Equiv.Perm (Fin looping.virtuals.size) :=
  Equiv.swap ⟨0, by decide⟩ ⟨2, by decide⟩

theorem analyse_permute_looping :
    looping.WellFormed ∧ looping.Apart ∧
      ((looping.permute (Equiv.refl _) loopingSwap).analyse .off loopingMoves
          ⟨.i64, [⟨.virtual, .i64, 0⟩]⟩).outcome =
        (looping.analyse .off loopingMoves ⟨.i64, [⟨.virtual, .i64, 0⟩]⟩).outcome ∧
      (∀ i : Fin looping.pinned.size,
        ((looping.permute (Equiv.refl _) loopingSwap).analyse .off loopingMoves
            ⟨.i64, [⟨.virtual, .i64, 0⟩]⟩).store.live.Marked ⟨.real, i⟩ ↔
          (looping.analyse .off loopingMoves
            ⟨.i64, [⟨.virtual, .i64, 0⟩]⟩).store.live.Marked ⟨.real, i⟩) ∧
      ∀ i : Fin looping.virtuals.size,
        ((looping.permute (Equiv.refl _) loopingSwap).analyse .off loopingMoves
            ⟨.i64, [⟨.virtual, .i64, 0⟩]⟩).store.live.Marked ⟨.virtual, i⟩ ↔
          (looping.analyse .off loopingMoves
            ⟨.i64, [⟨.virtual, .i64, 0⟩]⟩).store.live.Marked ⟨.virtual, loopingSwap i⟩ := by
  have hw : looping.WellFormed := by decide
  have hapart : looping.Apart := by decide
  exact ⟨hw, hapart, analyse_permute hw hapart _ _ .off loopingMoves _⟩

end Liveness

end RefFlow
