import RefFlow.Proofs.Directory
import Mathlib.Data.List.Nodup
/-!
# A directory partitions the ranges

Lookups and seeds see no range that the directory leaves out, and see a range twice that it lists
twice. An up-to-date directory does neither. Its tables grow while they are filled, with register
numbers that come in any order and leave gaps. How far a table reaches is a matter of the numbers
alone (`Directory.lt_size_foldl_file_iff`), and up to there each list is known already
(`Directory.getD_ofNumbers`). So a finished table is a list of places for each number, none left out
(`Directory.toList_ofNumbers`), and every place stands in the list of its own number.

All this is said of the numbers that are counted. They are all numbers as long as a word can count
them. One range more, and the count starts again at zero: of just as many ranges as there are words
none is listed (`Directory.ofLiveness_crowd`).

Main definitions and statements:

* `Directory.table` — the table of a kind of register;
* `Directory.size_ofNumbers` — a table ends with the list of its largest number;
* `Directory.flatMap_places_perm` — the lists of places hold each place once;
* `Directory.ofLiveness_partitions` — the tables of a function;
* `Directory.ofLiveness_crowd` — the tables of a function with more ranges than a word can count.
-/

namespace RefFlow

namespace Directory

/-! ### How far a table reaches -/

/-- Filing widens a table just so far that it has a list for every number filed. -/
theorem lt_size_foldl_file_iff (entries : List (Nat × Nat)) (table : Array (List Nat)) (n : Nat) :
    n < (entries.foldl (fun t e => file t e.1 e.2) table).size ↔
      n < table.size ∨ ∃ e ∈ entries, n ≤ e.1 := by
  induction entries generalizing table with
  | nil => simp
  | cons e rest ih =>
    have hwiden : n < max table.size (e.1 + 1) ↔ n < table.size ∨ n ≤ e.1 := by omega
    rw [List.foldl_cons, ih, size_file, hwiden, or_assoc]
    simp only [List.mem_cons, or_and_right, exists_or, exists_eq_left]

theorem lt_size_ofNumbers_iff (numbers : List Nat) (n : Nat) :
    n < (ofNumbers numbers).size ↔ ∃ m ∈ counted numbers, n ≤ m := by
  unfold ofNumbers
  rw [lt_size_foldl_file_iff]
  constructor
  · rintro (h | ⟨⟨m, i⟩, he, h⟩)
    · exact absurd h (Nat.not_lt_zero n)
    · exact ⟨m, List.mem_of_getElem? (List.mk_mem_zipIdx_iff_getElem?.1 he), h⟩
  · rintro ⟨m, hm, h⟩
    obtain ⟨i, hi⟩ := List.mem_iff_getElem?.1 hm
    exact .inr ⟨(m, i), List.mk_mem_zipIdx_iff_getElem?.2 hi, h⟩

/-- **The size of a table** is one more than its largest number; a table of no numbers is empty. -/
theorem size_ofNumbers (numbers : List Nat) :
    (ofNumbers numbers).size = (counted numbers).max?.elim 0 (· + 1) := by
  cases hmax : (counted numbers).max? with
  | none =>
    unfold ofNumbers
    rw [List.max?_eq_none_iff.1 hmax]
    rfl
  | some m =>
    obtain ⟨hm, hlargest⟩ := List.max?_eq_some_iff.1 hmax
    have hreach : m < (ofNumbers numbers).size :=
      (lt_size_ofNumbers_iff _ m).2 ⟨m, hm, Nat.le_refl m⟩
    have hend : ¬ m + 1 < (ofNumbers numbers).size := by
      rw [lt_size_ofNumbers_iff]
      rintro ⟨k, hk, hlt⟩
      exact Nat.not_lt.2 (hlargest k hk) hlt
    show (ofNumbers numbers).size = m + 1
    omega

/-! ### What it lists -/

/-- **A finished table** holds the places of each number, up to the largest one. -/
theorem toList_ofNumbers (numbers : List Nat) :
    (ofNumbers numbers).toList =
      (List.range (ofNumbers numbers).size).map (places (counted numbers)) := by
  -- up to the end each list is known already, and beyond it there is none
  refine List.ext_getElem (by simp) fun n hn _ => ?_
  have hlt : n < (ofNumbers numbers).size := by simpa using hn
  have hlist := getD_ofNumbers numbers n
  rw [Array.getElem?_eq_getElem hlt, Option.getD_some] at hlist
  rw [List.getElem_map, List.getElem_range, Array.getElem_toList, hlist]

/-- **The lists of places** of all numbers below a bound hold each place of such a number once. -/
theorem flatMap_places_perm {numbers : List Nat} {bound : Nat} (h : ∀ m ∈ numbers, m < bound) :
    ((List.range bound).flatMap (places numbers)).Perm (List.range numbers.length) := by
  -- no place has two numbers, so no two lists share a place
  have hnodup : ((List.range bound).flatMap (places numbers)).Nodup := by
    rw [List.nodup_flatMap]
    refine ⟨fun n _ => (places_pairwise numbers n).imp Nat.ne_of_lt, ?_⟩
    refine List.nodup_range.imp fun {n m} hnm i hn hm => hnm ?_
    rw [mem_places] at hn hm
    exact Option.some.inj (hn.symm.trans hm)
  rw [List.perm_ext_iff_of_nodup hnodup List.nodup_range]
  intro i
  rw [List.mem_flatMap, List.mem_range]
  constructor
  · rintro ⟨n, -, hi⟩
    exact (List.getElem?_eq_some_iff.1 (mem_places.1 hi)).1
  · intro hi
    exact ⟨numbers[i], List.mem_range.2 (h _ (List.getElem_mem hi)),
      mem_places.2 (List.getElem?_eq_getElem hi)⟩

/-! ### The tables of a function -/

/-- The table of a kind of register, which is the one that ranges of this kind are looked up in. -/
def table (d : Directory) : RegKind → Array (List Nat)
  | .real => d.real
  | .virtual => d.virtual

theorem getElem?_table (d : Directory) (kind : RegKind) (n : Nat) :
    (d.table kind)[n]? = d.lookup kind n := by
  cases kind <;> rfl

theorem table_ofLiveness (l : Liveness) (kind : RegKind) :
    (ofLiveness l).table kind = ofNumbers (numbers l kind) := by
  cases kind <;> rfl

section Counted

variable {l : Liveness} {kind : RegKind} (hcount : l.count kind < UInt32.size)
include hcount

theorem toList_table :
    ((ofLiveness l).table kind).toList =
      (List.range ((ofLiveness l).table kind).size).map (places (numbers l kind)) := by
  rw [table_ofLiveness, toList_ofNumbers, counted_numbers hcount]

theorem lt_size_table_iff {n : Nat} :
    n < ((ofLiveness l).table kind).size ↔ ∃ m ∈ numbers l kind, n ≤ m := by
  rw [table_ofLiveness, lt_size_ofNumbers_iff, counted_numbers hcount]

/-- A range stands in the list of its own number and in no other. -/
theorem exists_mem_table_iff {n i : Nat} :
    (∃ is, ((ofLiveness l).table kind)[n]? = some is ∧ i ∈ is) ↔
      ∃ r, l.reg? ⟨kind, i⟩ = some r ∧ r.index = n := by
  have hnumber : (∃ r, l.reg? ⟨kind, i⟩ = some r ∧ r.index = n) ↔
      i ∈ ((ofLiveness l).lookup kind n).getD [] := by
    rw [getD_lookup, counted_numbers hcount, mem_places, getElem?_numbers, Option.map_eq_some_iff]
  rw [getElem?_table, hnumber]
  -- a list that does not exist holds no range
  cases (ofLiveness l).lookup kind n <;> simp

end Counted

/-- **The directory partitions the ranges.** For each kind of register of which a word can count the
ranges, whatever the classes:

* the table has one list more than the largest number of a register, and none if there are no
  ranges. If all numbers are below the largest word, it has fewer lists than there are words;
* the list of a number exists and holds a range if and only if the range exists and its register has
  that number;
* together the lists hold each range once;
* every list is in the order of the ranges. -/
theorem ofLiveness_partitions {l : Liveness} {kind : RegKind} (hcount : l.count kind < UInt32.size) :
    ((ofLiveness l).table kind).size = (numbers l kind).max?.elim 0 (· + 1) ∧
    ((∀ n ∈ numbers l kind, n < 0xFFFFFFFF) →
      ((ofLiveness l).table kind).size < UInt32.size) ∧
    (∀ n i, (∃ is, ((ofLiveness l).table kind)[n]? = some is ∧ i ∈ is) ↔
      ∃ r, l.reg? ⟨kind, i⟩ = some r ∧ r.index = n) ∧
    ((ofLiveness l).table kind).toList.flatten.Perm (List.range (l.count kind)) ∧
    ∀ is ∈ (ofLiveness l).table kind, is.Pairwise (· < ·) := by
  refine ⟨?_, fun hindex => ?_, fun n i => exists_mem_table_iff hcount, ?_, ?_⟩
  -- few enough to be counted, all ranges are entered
  · rw [table_ofLiveness, size_ofNumbers, counted_numbers hcount]
  -- a table that long would have been widened for a number that no register has
  · rw [← Nat.not_le]
    intro hsize
    have hreach : 0xFFFFFFFF < ((ofLiveness l).table kind).size :=
      Nat.lt_of_lt_of_le (by decide) hsize
    obtain ⟨m, hm, hle⟩ := (lt_size_table_iff hcount).1 hreach
    exact Nat.not_lt.2 hle (hindex m hm)
  -- every number of a register has a list, so no range is left out
  · have hbound : ∀ m ∈ numbers l kind, m < ((ofLiveness l).table kind).size := fun m hm =>
      (lt_size_table_iff hcount).2 ⟨m, hm, Nat.le_refl m⟩
    rw [toList_table hcount, ← List.flatMap_def, ← length_numbers]
    exact flatMap_places_perm hbound
  · intro is his
    rw [← Array.mem_toList_iff, toList_table hcount, List.mem_map] at his
    obtain ⟨n, -, rfl⟩ := his
    exact places_pairwise _ n

/-- Registers of both kinds, whose numbers leave gaps, fall and rise, and repeat in two classes. -/
def gapped : Liveness where
  pool := #[]
  pinned := #[⟨⟨.real, .i64, 2⟩, ⟨#[]⟩, false⟩, ⟨⟨.real, .f64, 2⟩, ⟨#[]⟩, false⟩]
  virtuals := #[
    ⟨⟨.virtual, .i64, 4⟩, none, ⟨#[]⟩, false⟩, ⟨⟨.virtual, .i64, 1⟩, none, ⟨#[]⟩, false⟩,
    ⟨⟨.virtual, .f64, 4⟩, none, ⟨#[]⟩, false⟩, ⟨⟨.virtual, .i32, 1⟩, none, ⟨#[]⟩, false⟩]

theorem ofLiveness_partitions_gapped :
    gapped.count .virtual < UInt32.size ∧
      ofLiveness gapped = ⟨#[[], [], [0, 1]], #[[], [1, 3], [], [], [0, 2]]⟩ ∧
      ((ofLiveness gapped).table .virtual).size = 5 ∧
      (∀ n ∈ numbers gapped .virtual, n < 0xFFFFFFFF) ∧
      ((ofLiveness gapped).table .virtual).size < UInt32.size ∧
      (∃ r, gapped.reg? ⟨.virtual, 2⟩ = some r ∧ r.index = 4) ∧
      [1, 3, 0, 2].Perm (List.range 4) := by
  have hcount : gapped.count .virtual < UInt32.size := by decide
  obtain ⟨hsize, hbound, hmem, hperm, -⟩ := ofLiveness_partitions hcount
  have htables : ofLiveness gapped = ⟨#[[], [], [0, 1]], #[[], [1, 3], [], [], [0, 2]]⟩ := by decide
  have hindex : ∀ n ∈ numbers gapped .virtual, n < 0xFFFFFFFF := by decide
  rw [htables] at hperm hmem
  exact ⟨hcount, htables, hsize.trans (by decide), hindex, hbound hindex,
    (hmem 4 2).1 ⟨[0, 2], rfl, by decide⟩, hperm⟩

/-! ### More ranges than a word can count -/

/-- **A full word counts nothing.** With as many ranges as there are words, none is entered. -/
theorem table_of_count_eq {l : Liveness} {kind : RegKind} (h : l.count kind = UInt32.size) :
    (ofLiveness l).table kind = #[] := by
  have hnone : counted (numbers l kind) = [] := by
    unfold counted
    rw [length_numbers, h]
    rfl
  rw [table_ofLiveness]
  unfold ofNumbers
  rw [hnone]
  rfl

/-- Ranges of `v0`, as many as asked for. -/
def crowd (n : Nat) : Liveness where
  pool := #[]
  pinned := #[]
  virtuals := Array.replicate n ⟨⟨.virtual, .i64, 0⟩, none, ⟨#[]⟩, false⟩

theorem count_crowd (n : Nat) : (crowd n).count .virtual = n := Array.size_replicate

theorem numbers_crowd (n : Nat) : numbers (crowd n) .virtual = List.replicate n 0 := by
  simp [numbers, crowd]

theorem reg?_crowd {n i : Nat} (h : i < n) :
    (crowd n).reg? ⟨.virtual, i⟩ = some ⟨.virtual, .i64, 0⟩ := by
  simp [Liveness.reg?, crowd, h]

/-- With one range of `v0` for each word the table is empty, although each of the ranges exists and has
the number zero. -/
theorem ofLiveness_crowd :
    (crowd UInt32.size).count .virtual = UInt32.size ∧
      (∀ n ∈ numbers (crowd UInt32.size) .virtual, n < 0xFFFFFFFF) ∧
      ((ofLiveness (crowd UInt32.size)).table .virtual).size ≠
        (numbers (crowd UInt32.size) .virtual).max?.elim 0 (· + 1) ∧
      (crowd UInt32.size).reg? ⟨.virtual, 0⟩ = some ⟨.virtual, .i64, 0⟩ ∧
      ¬ ∃ is, ((ofLiveness (crowd UInt32.size)).table .virtual)[0]? = some is ∧ 0 ∈ is := by
  -- one range for each word: the count is back at zero
  have hempty := table_of_count_eq (count_crowd UInt32.size)
  have hzero : 0 ∈ numbers (crowd UInt32.size) .virtual := by
    rw [numbers_crowd]
    exact List.mem_replicate.2 ⟨by decide, rfl⟩
  have hall : ∀ n ∈ numbers (crowd UInt32.size) .virtual, n = 0 := by
    rw [numbers_crowd]
    exact fun n hn => List.eq_of_mem_replicate hn
  refine ⟨count_crowd _, ?_, ?_, reg?_crowd (by decide), ?_⟩
  · intro n hn
    rw [hall n hn]
    decide
  · have hmax : (numbers (crowd UInt32.size) .virtual).max? = some 0 :=
      List.max?_eq_some_iff.2 ⟨hzero, fun n hn => Nat.le_of_eq (hall n hn)⟩
    rw [hempty, hmax]
    decide
  · rw [hempty]
    simp

end Directory

end RefFlow
