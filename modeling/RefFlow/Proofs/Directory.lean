import RefFlow.Liveness.Directory
import RefFlow.Liveness.Site
import Mathlib.Data.List.Pairwise
/-!
# What a directory lists

An up-to-date directory lists under each register number exactly the ranges of that number, in their
order, as long as a word can count the ranges. Everything follows from what filing one range does to
the list of a number (`Directory.getD_file`), carried through the filing of all ranges
(`Directory.getD_foldl_file`).

Main statements:

* `Directory.getD_ofNumbers` — the list of a number is the list of the places where it stands;
* `Directory.mem_lookup_iff` — the ranges listed for a register are those numbered like it;
* `Directory.lookup_pairwise` — they are listed in their order;
* `Directory.ofLiveness_congr` — the directory depends on registers alone.
-/

namespace RefFlow

namespace Directory

/-- The places at which a number stands in a list of numbers, in their order. -/
def places (numbers : List Nat) (n : Nat) : List Nat :=
  (numbers.zipIdx.filter (·.1 == n)).map (·.2)

theorem mem_places {numbers : List Nat} {n i : Nat} :
    i ∈ places numbers n ↔ numbers[i]? = some n := by
  unfold places
  rw [List.mem_map]
  constructor
  -- what is filtered are the pairs of a number and its place
  · rintro ⟨⟨m, j⟩, hmem, rfl⟩
    obtain ⟨hzip, hm⟩ := List.mem_filter.1 hmem
    obtain rfl : m = n := by simpa using hm
    exact List.mk_mem_zipIdx_iff_getElem?.1 hzip
  · intro h
    refine ⟨(n, i), List.mem_filter.2 ⟨List.mk_mem_zipIdx_iff_getElem?.2 h, ?_⟩, rfl⟩
    exact beq_self_eq_true n

theorem places_pairwise (numbers : List Nat) (n : Nat) : (places numbers n).Pairwise (· < ·) := by
  -- some of all places, and those ascend
  have hsub : (places numbers n).Sublist (numbers.zipIdx.map (·.2)) :=
    List.filter_sublist.map _
  refine List.Pairwise.sublist hsub ?_
  rw [List.zipIdx_map_snd]
  exact List.pairwise_lt_range' ..

/-! ### Filing -/

/-- Widening a table adds empty lists only. -/
theorem getD_widen (table : Array (List Nat)) (n m : Nat) :
    (widen table n)[m]?.getD [] = table[m]?.getD [] := by
  unfold widen
  rw [Array.getElem?_append]
  split
  · rfl
  · next h =>
    have hnone : table[m]? = none := Array.getElem?_eq_none (Nat.le_of_not_lt h)
    rw [hnone, Array.getElem?_replicate]
    split <;> rfl

/-- Filing a range puts it behind the others of its number and leaves all other lists alone. -/
theorem getD_file (table : Array (List Nat)) (n i m : Nat) :
    (file table n i)[m]?.getD [] = table[m]?.getD [] ++ if n = m then [i] else [] := by
  unfold file
  rw [Array.getElem?_modify]
  split
  · next h =>
    subst h
    have hlt : n < (widen table n).size := by
      rw [size_widen]
      omega
    rw [← getD_widen table n n, Array.getElem?_eq_getElem hlt]
    rfl
  · rw [getD_widen, List.append_nil]

theorem getD_foldl_file (entries : List (Nat × Nat)) (table : Array (List Nat)) (m : Nat) :
    (entries.foldl (fun t e => file t e.1 e.2) table)[m]?.getD [] =
      table[m]?.getD [] ++ (entries.filter (·.1 == m)).map (·.2) := by
  induction entries generalizing table with
  | nil => simp
  | cons e rest ih =>
    rw [List.foldl_cons, ih, getD_file, List.append_assoc, List.filter_cons]
    -- the first entry is either one of `m` or leaves its list alone
    by_cases h : e.1 = m
    · rw [if_pos h, if_pos (by simpa using h)]
      rfl
    · rw [if_neg h, if_neg (by simpa using h)]
      rfl

/-- **The list of a number** is the list of the places where it stands, among those counted. -/
theorem getD_ofNumbers (numbers : List Nat) (n : Nat) :
    (ofNumbers numbers)[n]?.getD [] = places (counted numbers) n := by
  unfold ofNumbers places
  rw [getD_foldl_file, Array.getElem?_eq_none (Nat.zero_le n)]
  rfl

/-! ### The directory of a function -/

/-- The register numbers of the ranges of a kind, in their order. -/
def numbers (l : Liveness) : RegKind → List Nat
  | .real => l.pinned.toList.map (·.reg.index)
  | .virtual => l.virtuals.toList.map (·.reg.index)

theorem getD_lookup (l : Liveness) (kind : RegKind) (n : Nat) :
    ((ofLiveness l).lookup kind n).getD [] = places (counted (numbers l kind)) n := by
  cases kind <;> exact getD_ofNumbers _ n

theorem length_numbers (l : Liveness) (kind : RegKind) :
    (numbers l kind).length = l.count kind := by
  cases kind <;> simp [numbers, Liveness.count]

/-- All ranges are entered if a word can count them. -/
theorem counted_numbers {l : Liveness} {kind : RegKind} (h : l.count kind < UInt32.size) :
    counted (numbers l kind) = numbers l kind := by
  refine counted_of_lt ?_
  rwa [length_numbers]

theorem getElem?_numbers (l : Liveness) (kind : RegKind) (i : Nat) :
    (numbers l kind)[i]? = (l.reg? ⟨kind, i⟩).map (·.index) := by
  cases kind <;> simp [numbers, Liveness.reg?, List.getElem?_map, Function.comp_def]

/-- **Registers are all that is listed.** Live ranges with the same registers have the same directory. -/
theorem ofLiveness_congr {l l' : Liveness} (h : ∀ x, l'.reg? x = l.reg? x) :
    ofLiveness l' = ofLiveness l := by
  have hnumbers : ∀ kind, numbers l' kind = numbers l kind := by
    intro kind
    apply List.ext_getElem?
    intro i
    rw [getElem?_numbers, getElem?_numbers, h]
  calc ofLiveness l'
      = ⟨ofNumbers (numbers l' .real), ofNumbers (numbers l' .virtual)⟩ := rfl
    _ = ⟨ofNumbers (numbers l .real), ofNumbers (numbers l .virtual)⟩ := by
      rw [hnumbers, hnumbers]
    _ = ofLiveness l := rfl

/-- **The ranges listed for a register** are those of its kind that have its number. -/
theorem mem_lookup_iff {l : Liveness} {r : Reg} {i : Nat} (h : l.count r.kind < UInt32.size) :
    i ∈ ((ofLiveness l).lookup r.kind r.index).getD [] ↔ l.Numbered r ⟨r.kind, i⟩ := by
  rw [getD_lookup, counted_numbers h, mem_places, getElem?_numbers, Option.map_eq_some_iff]
  exact ⟨fun h => ⟨rfl, h⟩, fun h => h.2⟩

theorem lookup_pairwise (l : Liveness) (kind : RegKind) (n : Nat) :
    (((ofLiveness l).lookup kind n).getD []).Pairwise (· < ·) := by
  rw [getD_lookup]
  exact places_pairwise _ n

end Directory

end RefFlow
