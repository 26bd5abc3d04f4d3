import RefFlow.Liveness.Site
/-!
# Keys and sites

A key is its word read as a number: the kind says whether the number reaches that of the top bit, the
index is what remains of it below. So a key is determined by its site, and the keys that can be built
are those whose index is not too large.

Main statements:

* `RangeKey.site_inj` — two keys of one site are equal;
* `RangeKey.make?_eq_ok_iff` — what a key that was built says, and when one can be built.
-/

namespace RefFlow

namespace RangeKey

/-! ### The word of a key -/

/-- The index is the word without the top bit. -/
theorem index_eq (k : RangeKey) : k.index = k.bits.toNat % 0x80000000 := by
  unfold index
  rw [UInt32.toNat_and, show (~~~topBit).toNat = 2 ^ 31 - 1 from rfl,
    Nat.and_two_pow_sub_one_eq_mod]

/-- Masking a number with the top bit asks for that bit. -/
private theorem and_topBit_eq_zero_iff (w : Nat) :
    w &&& topBit.toNat = 0 ↔ w.testBit 31 = false := by
  rw [show topBit.toNat = 2 ^ 31 from rfl]
  constructor
  · intro h
    have hbit : (w &&& 2 ^ 31).testBit 31 = false := by rw [h, Nat.zero_testBit]
    rwa [Nat.testBit_and, Nat.testBit_two_pow_self, Bool.and_true] at hbit
  · intro h
    -- bit by bit, of which the mask leaves one at most
    refine Nat.eq_of_testBit_eq fun i => ?_
    rw [Nat.testBit_and, Nat.testBit_two_pow, Nat.zero_testBit]
    by_cases hi : 31 = i
    · rw [← hi, h, Bool.false_and]
    · rw [decide_eq_false hi, Bool.and_false]

/-- The kind is the top bit of the word. -/
theorem kind_eq_virtual_iff (k : RangeKey) :
    k.kind = .virtual ↔ k.bits.toNat < 0x80000000 := by
  have hzero : k.bits &&& topBit = 0 ↔ k.bits.toNat < 0x80000000 := by
    have hlt := k.bits.toNat_lt
    rw [← UInt32.toNat_inj, UInt32.toNat_and, UInt32.toNat_zero, and_topBit_eq_zero_iff,
      Nat.testBit_eq_decide_div_mod_eq, decide_eq_false_iff_not]
    omega
  unfold kind
  rw [← hzero]
  split
  · next h => simp [h]
  · next h => simp [h]

theorem kind_eq_real_iff (k : RangeKey) : k.kind = .real ↔ 0x80000000 ≤ k.bits.toNat := by
  rw [← Nat.not_lt, ← kind_eq_virtual_iff]
  cases k.kind <;> simp

/-- A key is determined by the site it names. -/
theorem site_inj {j k : RangeKey} : j.site = k.site ↔ j = k := by
  refine ⟨fun h => ?_, fun h => h ▸ rfl⟩
  have hkind : j.kind = k.kind := congrArg Site.kind h
  have hindex : j.index = k.index := congrArg Site.index h
  -- the kind gives the top bit of the word, the index all others
  have hreal : 0x80000000 ≤ j.bits.toNat ↔ 0x80000000 ≤ k.bits.toNat := by
    rw [← kind_eq_real_iff, ← kind_eq_real_iff, hkind]
  rw [index_eq, index_eq] at hindex
  have hj := j.bits.toNat_lt
  have hk := k.bits.toNat_lt
  have hbits : j.bits.toNat = k.bits.toNat := by omega
  exact congrArg RangeKey.mk (UInt32.toNat_inj.1 hbits)

/-! ### Building keys -/

/-- A word can count as many ranges as there are keys for. -/
theorem lastIndex_succ_lt : lastIndex + 1 < UInt32.size := by decide

/-- A word without the top bit names a range of a virtual register. -/
theorem site_of_toNat_eq {k : RangeKey} {i : Nat} (hi : i < 0x80000000) (h : k.bits.toNat = i) :
    k.site = ⟨.virtual, i⟩ := by
  have hkind : k.kind = .virtual := by
    rw [kind_eq_virtual_iff]
    omega
  have hindex : k.index = i := by
    rw [index_eq]
    omega
  rw [site, hkind, hindex]

/-- A word with the top bit names a range of a real register. -/
theorem site_of_toNat_eq_add {k : RangeKey} {i : Nat} (hi : i < 0x80000000)
    (h : k.bits.toNat = 0x80000000 + i) : k.site = ⟨.real, i⟩ := by
  have hkind : k.kind = .real := by
    rw [kind_eq_real_iff]
    omega
  have hindex : k.index = i := by
    rw [index_eq]
    omega
  rw [site, hkind, hindex]

/-- A site whose index is not too large has a key. -/
theorem exists_make? (kind : RegKind) {i : Nat} (h : i ≤ lastIndex) :
    ∃ k, make? kind i = .ok k ∧ k.site = ⟨kind, i⟩ := by
  have hi : i < 0x80000000 := by
    unfold lastIndex at h
    omega
  have hword : (UInt32.ofNat i).toNat = i := by
    rw [UInt32.toNat_ofNat']
    omega
  cases kind with
  | real =>
    -- the index does not reach into the top bit, so setting that is adding it
    have hor : (UInt32.ofNat i ||| topBit).toNat = 0x80000000 + i := by
      rw [UInt32.toNat_or, hword, show topBit.toNat = 2 ^ 31 * 1 from rfl, Nat.or_comm,
        ← Nat.two_pow_add_eq_or_of_lt hi, Nat.mul_one]
    exact ⟨⟨UInt32.ofNat i ||| topBit⟩, if_pos h, site_of_toNat_eq_add hi hor⟩
  | virtual => exact ⟨⟨UInt32.ofNat i⟩, if_pos h, site_of_toNat_eq hi hword⟩

/-- **Keys that can be built.** Building a key gives the one of the asked site, and it succeeds
exactly if the index is not too large. -/
theorem make?_eq_ok_iff {kind : RegKind} {i : Nat} {k : RangeKey} :
    make? kind i = .ok k ↔ i ≤ lastIndex ∧ k.site = ⟨kind, i⟩ := by
  constructor
  · intro h
    -- a larger index is refused for either kind
    have hi : i ≤ lastIndex := by
      refine Decidable.byContradiction fun hi => ?_
      cases kind <;> simp [make?, ofReal?, ofVirtual?, hi] at h
    obtain ⟨j, hj, hsite⟩ := exists_make? kind hi
    rw [hj] at h
    exact ⟨hi, by rw [← Except.ok.inj h, hsite]⟩
  · rintro ⟨hi, hsite⟩
    obtain ⟨j, hj, hsite'⟩ := exists_make? kind hi
    rw [hj, site_inj.1 (hsite.trans hsite'.symm)]

end RangeKey

end RefFlow
