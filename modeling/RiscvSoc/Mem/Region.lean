import Mathlib.Data.Nat.Bitwise

/-!
# Mem — Region

Address regions of a power-of-two size, aligned to it. An address
decoder that compares the masked address with the masked base decides
membership in the region, which a decoder with two comparators decides
by the bounds.
-/

namespace RiscvSoc.Mem

/-- A region from `base` up to and including `last`, of a size `2 ^ k`
that divides the base. -/
structure Region (w : Nat) where
  base : BitVec w
  last : BitVec w
  aligned : ∃ k, k < w ∧ last.toNat + 1 = base.toNat + 2 ^ k ∧ 2 ^ k ∣ base.toNat

variable {w : Nat}

namespace Region

def contains (r : Region w) (a : BitVec w) : Prop := r.base ≤ a ∧ a ≤ r.last

instance (r : Region w) (a : BitVec w) : Decidable (r.contains a) :=
  inferInstanceAs (Decidable (_ ∧ _))

/-- The address bits that are fixed in the region. -/
def mask (r : Region w) : BitVec w := ~~~(r.last - r.base)

end Region

/-- The low `k` bits cleared. -/
theorem getLsbD_and_not_ones (x : BitVec w) (k i : Nat) :
    (x &&& ~~~(BitVec.ofNat w (2 ^ k - 1))).getLsbD i = (x.getLsbD i && decide (k ≤ i)) := by
  rw [BitVec.getLsbD_and, BitVec.getLsbD_not, BitVec.getLsbD_ofNat, Nat.testBit_two_pow_sub_one]
  by_cases hi : i < w
  · by_cases hk : k ≤ i
    · simp [hi, hk, Nat.not_lt.mpr hk]
    · simp [hi, hk, Nat.lt_of_not_le hk]
  · simp [BitVec.getLsbD_of_ge x i (by omega)]

/-- Two words agree above bit `k` iff they are in the same block of
size `2 ^ k`. -/
theorem and_not_ones_eq_iff (x y : BitVec w) (k : Nat) :
    x &&& ~~~(BitVec.ofNat w (2 ^ k - 1)) = y &&& ~~~(BitVec.ofNat w (2 ^ k - 1)) ↔
      x.toNat / 2 ^ k = y.toNat / 2 ^ k := by
  have hshift : ∀ z : BitVec w, z.toNat / 2 ^ k = (z >>> k).toNat := by
    intro z
    rw [BitVec.toNat_ushiftRight, Nat.shiftRight_eq_div_pow]
  rw [hshift, hshift]
  constructor
  · intro h
    congr 1
    apply BitVec.eq_of_getLsbD_eq
    intro i _
    have hi := congrArg (fun z => z.getLsbD (k + i)) h
    simp only [getLsbD_and_not_ones, Nat.le_add_right, decide_true, Bool.and_true] at hi
    rw [BitVec.getLsbD_ushiftRight, BitVec.getLsbD_ushiftRight]
    exact hi
  · intro h
    apply BitVec.eq_of_getLsbD_eq
    intro i _
    rw [getLsbD_and_not_ones, getLsbD_and_not_ones]
    by_cases hk : k ≤ i
    · have hi := congrArg (fun z => z.getLsbD (i - k)) (BitVec.eq_of_toNat_eq h)
      simp only [BitVec.getLsbD_ushiftRight, Nat.add_sub_cancel' hk] at hi
      rw [hi]
    · simp [hk]

namespace Region

/-- **Masking decides membership.** -/
theorem and_mask_eq_iff (r : Region w) (a : BitVec w) :
    a &&& r.mask = r.base &&& r.mask ↔ r.contains a := by
  obtain ⟨k, hk, hsize, q, hq⟩ := r.aligned
  have hpow : 2 ^ k < 2 ^ w := Nat.pow_lt_pow_right (by decide) hk
  have hpos : 0 < 2 ^ k := Nat.two_pow_pos k
  have hlast := r.last.isLt
  -- the offset of the last address is all ones, so the mask is its complement
  have hones : r.last - r.base = BitVec.ofNat w (2 ^ k - 1) := by
    apply BitVec.eq_of_toNat_eq
    rw [BitVec.toNat_sub_of_le (by rw [BitVec.le_def]; omega), BitVec.toNat_ofNat,
      Nat.mod_eq_of_lt (by omega)]
    omega
  rw [mask, hones, and_not_ones_eq_iff, contains, BitVec.le_def, BitVec.le_def, hq,
    Nat.mul_div_cancel_left q hpos, Nat.div_eq_iff hpos, Nat.mul_comm q]
  omega

end Region

end RiscvSoc.Mem
