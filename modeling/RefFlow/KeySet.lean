import RefFlow.RangeKey
/-!
# Sets of keys

A set of range keys that remembers the order in which its members came in. `KeySet.ascending`
and `KeySet.byName` list a set in an order that does not depend on its history.
-/

namespace RefFlow

/-- Keys without repetition, the earliest first. -/
structure KeySet where
  toList : List RangeKey
  nodup : toList.Nodup
  deriving DecidableEq, Repr

namespace KeySet

def empty : KeySet := ⟨[], List.nodup_nil⟩

instance : EmptyCollection KeySet := ⟨empty⟩

instance : Inhabited KeySet := ⟨empty⟩

instance : Membership RangeKey KeySet := ⟨fun s k => k ∈ s.toList⟩

instance (k : RangeKey) (s : KeySet) : Decidable (k ∈ s) :=
  inferInstanceAs (Decidable (k ∈ s.toList))

theorem mem_iff {k : RangeKey} {s : KeySet} : k ∈ s ↔ k ∈ s.toList := Iff.rfl

def size (s : KeySet) : Nat := s.toList.length

/-- Adds a key behind the others, unless it is a member already. -/
def insert (s : KeySet) (k : RangeKey) : KeySet :=
  if h : k ∈ s.toList then s
  else ⟨s.toList ++ [k], by
    rw [List.nodup_append]
    refine ⟨s.nodup, List.pairwise_singleton _ k, fun a ha b hb => ?_⟩
    rw [List.mem_singleton.1 hb]
    exact fun e => h (e ▸ ha)⟩

def insertAll (s : KeySet) (ks : List RangeKey) : KeySet := ks.foldl insert s

@[simp] theorem mem_empty (k : RangeKey) : ¬ k ∈ (∅ : KeySet) := List.not_mem_nil

@[simp] theorem mem_insert {s : KeySet} {j k : RangeKey} : j ∈ s.insert k ↔ j ∈ s ∨ j = k := by
  simp only [mem_iff, insert]
  split
  · next h => exact ⟨Or.inl, fun e => e.elim id fun e => e ▸ h⟩
  · simp

theorem insert_of_mem {s : KeySet} {k : RangeKey} (h : k ∈ s) : s.insert k = s := dif_pos h

theorem toList_insert_of_notMem {s : KeySet} {k : RangeKey} (h : ¬ k ∈ s) :
    (s.insert k).toList = s.toList ++ [k] := by
  simp only [insert, dif_neg (show ¬ k ∈ s.toList from h)]

@[simp] theorem mem_insertAll {s : KeySet} {ks : List RangeKey} {j : RangeKey} :
    j ∈ s.insertAll ks ↔ j ∈ s ∨ j ∈ ks := by
  unfold insertAll
  induction ks generalizing s with
  | nil => simp
  | cons k ks ih => rw [List.foldl_cons, ih, mem_insert, List.mem_cons, or_assoc]

/-! ### Listings -/

/-- The members in ascending order of their words, so those of virtual registers come first. -/
def ascending (s : KeySet) : List RangeKey :=
  s.toList.mergeSort fun a b => decide (a.bits ≤ b.bits)

/-- The members in the order of their printed names, compared letter by letter. -/
def byName (s : KeySet) : List RangeKey :=
  s.toList.mergeSort fun a b => !decide (b.text < a.text)

@[simp] theorem mem_ascending {s : KeySet} {k : RangeKey} : k ∈ s.ascending ↔ k ∈ s :=
  (List.mergeSort_perm _ _).mem_iff

@[simp] theorem mem_byName {s : KeySet} {k : RangeKey} : k ∈ s.byName ↔ k ∈ s :=
  (List.mergeSort_perm _ _).mem_iff

theorem nodup_byName (s : KeySet) : s.byName.Nodup :=
  (List.mergeSort_perm _ _).nodup_iff.2 s.nodup

end KeySet

end RefFlow
