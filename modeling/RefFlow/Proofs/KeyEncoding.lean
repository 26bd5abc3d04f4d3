import RefFlow.Proofs.RangeKey
/-!
# Keys and words

The words that are keys of ranges, and the ranges they are keys of, stand one to one. Building a key
and asking it for its kind and its index are inverse to each other, as far as there is a key to build:
four words are keys of no range, two of either kind. The upper two of them are those that containers of
keys take for their own ends, so the bound on indices is what keeps a container from losing a key.

Main definitions and statements:

* `RangeKey.Names` — everything that a key says about itself;
* `RangeKey.spare` — the words that no key has;
* `RangeKey.keys_encode_sites` — building keys, reading them, and the words that are left over.
-/

namespace RefFlow

namespace RangeKey

variable {k : RangeKey} {kind : RegKind} {i : Nat}

/-! ### What a key says -/

/-- The key says that it is of this kind, and gives this index to a caller who asks for that kind. A
caller who asks for the other kind is refused. -/
structure Names (k : RangeKey) (kind : RegKind) (i : Nat) : Prop where
  kind_eq : k.kind = kind
  realIndex? : k.realIndex? = if kind = .real then .ok i else .error .keyNotReal
  virtualIndex? : k.virtualIndex? = if kind = .virtual then .ok i else .error .keyNotVirtual

/-- What a key says is the site that it stands for. -/
theorem names_iff_site : k.Names kind i ↔ k.site = ⟨kind, i⟩ := by
  constructor
  -- the caller who asks for the kind that the key has is told its index
  · rintro ⟨rfl, hreal, hvirtual⟩
    have hindex : k.index = i := by
      cases hkind : k.kind with
      | real =>
        rw [RangeKey.realIndex?, if_pos hkind, if_pos hkind] at hreal
        exact Except.ok.inj hreal
      | virtual =>
        rw [RangeKey.virtualIndex?, if_pos hkind, if_pos hkind] at hvirtual
        exact Except.ok.inj hvirtual
    rw [site, hindex]
  · intro hsite
    obtain rfl : k.kind = kind := congrArg Site.kind hsite
    obtain rfl : k.index = i := congrArg Site.index hsite
    exact ⟨rfl, rfl, rfl⟩

/-! ### The words that are left over -/

/-- Of either kind the two words above that of the largest index. -/
def spare : List UInt32 := [0x7FFFFFFE, 0x7FFFFFFF, 0xFFFFFFFE, 0xFFFFFFFF]

/-- The words that are left over are those whose index is too large. -/
theorem mem_spare_iff : k.bits ∈ spare ↔ lastIndex < k.index := by
  -- an index is the word without its top bit, and what is left is arithmetic
  have hword := k.bits.toNat_lt
  rw [index_eq, lastIndex]
  simp only [spare, List.mem_cons, List.not_mem_nil, or_false, ← UInt32.toNat_inj,
    UInt32.reduceToNat]
  omega

/-- The key of every site is outside of them. -/
theorem not_mem_spare_of_make? (h : make? kind i = .ok k) : k.bits ∉ spare := by
  obtain ⟨hi, hsite⟩ := make?_eq_ok_iff.1 h
  obtain rfl : k.index = i := congrArg Site.index hsite
  rwa [mem_spare_iff, Nat.not_lt]

/-- A key outside of them is built from what it says, and from nothing else. -/
theorem make?_eq_ok_iff_of_not_mem_spare (h : k.bits ∉ spare) (kind : RegKind) (i : Nat) :
    make? kind i = .ok k ↔ kind = k.kind ∧ i = k.index := by
  -- outside of the spare words the index is small enough to be built from
  rw [mem_spare_iff, Nat.not_lt] at h
  rw [make?_eq_ok_iff]
  constructor
  · rintro ⟨-, hsite⟩
    exact ⟨(congrArg Site.kind hsite).symm, (congrArg Site.index hsite).symm⟩
  · rintro ⟨rfl, rfl⟩
    exact ⟨h, rfl⟩

/-- **Keys encode ranges.**

* For an index up to the largest there is a key of either kind, which gives the kind and the index back
  and is not one of the two that are reserved for containers.
* An index above the largest is refused, in words that name the kind.
* One key is built from one kind and one index only.
* Every word, apart from four, is the key that is built from the kind and the index it tells, and is
  built from nothing else.
* The four are never built. -/
theorem keys_encode_sites :
    (∀ kind, ∀ i ≤ lastIndex, ∃ k, make? kind i = .ok k ∧ k.Names kind i ∧
      k ≠ vacant ∧ k ≠ erased) ∧
    (∀ i > lastIndex, make? .real i = .error .realIndexTooLarge ∧
      make? .virtual i = .error .virtualIndexTooLarge) ∧
    (∀ kind i kind' j k, make? kind i = .ok k → make? kind' j = .ok k → kind = kind' ∧ i = j) ∧
    (∀ w ∉ spare, ∃ kind i, Names ⟨w⟩ kind i ∧
      ∀ kind' j, make? kind' j = .ok ⟨w⟩ ↔ kind' = kind ∧ j = i) ∧
    ∀ w ∈ spare, ∀ kind i, make? kind i ≠ .ok ⟨w⟩ := by
  refine ⟨fun kind i hi => ?_, fun i hi => ?_, fun kind i kind' j k hk hk' => ?_, fun w hw => ?_,
    fun w hw kind i hk => not_mem_spare_of_make? hk hw⟩
  -- both reserved keys are spare words, and what is built is none
  · obtain ⟨k, hk, hsite⟩ := exists_make? kind hi
    have hfree := not_mem_spare_of_make? hk
    refine ⟨k, hk, names_iff_site.2 hsite, ?_, ?_⟩
    · rintro rfl
      exact hfree (by decide)
    · rintro rfl
      exact hfree (by decide)
  · exact ⟨if_neg (Nat.not_le.2 hi), if_neg (Nat.not_le.2 hi)⟩
  -- the one key has one site, which both are
  · obtain ⟨-, hsite⟩ := make?_eq_ok_iff.1 hk
    obtain ⟨-, hsite'⟩ := make?_eq_ok_iff.1 hk'
    exact Site.mk.inj (hsite.symm.trans hsite')
  · exact ⟨_, _, names_iff_site.2 rfl, make?_eq_ok_iff_of_not_mem_spare hw⟩

/-- The largest index has a key of either kind, the next one none; and the word below the reserved ones
is the key of the largest index of the real kind. -/
theorem keys_encode_sites_last :
    (∃ k, make? .real lastIndex = .ok k ∧ k.Names .real lastIndex ∧ k ≠ vacant ∧ k ≠ erased) ∧
    make? .virtual 0x7FFFFFFE = .error .virtualIndexTooLarge ∧
    make? .real 0 = .ok ⟨0x80000000⟩ ∧ (RegKind.real = .real ∧ 0 = 0) ∧
    (0xFFFFFFFD : UInt32) ∉ spare ∧ make? .real lastIndex = .ok ⟨0xFFFFFFFD⟩ ∧
    vacant.bits ∈ spare ∧ make? .real 0x7FFFFFFF ≠ .ok vacant := by
  obtain ⟨hbuilt, hrefused, hone, hread, hspare⟩ := keys_encode_sites
  have hzero : make? .real 0 = .ok ⟨0x80000000⟩ := rfl
  have hword : (0xFFFFFFFD : UInt32) ∉ spare := by decide
  have hvacant : vacant.bits ∈ spare := by decide
  -- what this word tells is what it is built from
  have hlast : make? .real lastIndex = .ok ⟨0xFFFFFFFD⟩ := by
    obtain ⟨kind, i, hnames, hfrom⟩ := hread _ hword
    have hkind : RegKind.real = kind := hnames.kind_eq
    have hindex : i = lastIndex := by
      have hreal := hnames.realIndex?
      rw [if_pos hkind.symm] at hreal
      exact (Except.ok.inj hreal).symm
    exact (hfrom _ _).2 ⟨hkind, hindex.symm⟩
  exact ⟨hbuilt .real lastIndex (Nat.le_refl _), (hrefused 0x7FFFFFFE (by decide)).2, hzero,
    hone _ _ _ _ _ hzero hzero, hword, hlast, hvacant, hspare _ hvacant _ _⟩

end RangeKey

end RefFlow
