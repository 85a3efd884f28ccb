import Mathlib.Data.BitVec
import Mathlib.Tactic.Ring

/-!
# Bit fields of machine words

Reading a field of a word that was replaced under a mask, and numbers that
survive truncation to a field and the extension on the way back.
-/

namespace PollyInstrew.BitFields

/-! ## Fields -/

/-- A field inside the mask reads the new bits. -/
theorem extract_blend {data old mask : BitVec 64} {lo len : ℕ} (hlt : lo + len < 64)
    (h : mask.extractLsb' lo len = BitVec.allOnes len) :
    ((data &&& mask) ||| (old &&& ~~~mask)).extractLsb' lo len = data.extractLsb' lo len := by
  rw [BitVec.extractLsb'_or, BitVec.extractLsb'_and, BitVec.extractLsb'_and,
    BitVec.extractLsb'_not_of_lt hlt, h, BitVec.not_allOnes, BitVec.and_allOnes,
    BitVec.and_zero, BitVec.or_zero]

/-- A field that was zero outside the mask reads the new bits under the mask. -/
theorem extract_blend_zero {data old mask : BitVec 64} {lo len : ℕ}
    (h : old.extractLsb' lo len = 0#(len)) :
    ((data &&& mask) ||| (old &&& ~~~mask)).extractLsb' lo len =
      data.extractLsb' lo len &&& mask.extractLsb' lo len := by
  rw [BitVec.extractLsb'_or, BitVec.extractLsb'_and, BitVec.extractLsb'_and, h,
    BitVec.zero_and, BitVec.or_zero]

/-- A field outside the mask reads the old bits. -/
theorem extract_blend_outside {data old mask : BitVec 64} {lo len : ℕ} (hlt : lo + len < 64)
    (h : mask.extractLsb' lo len = 0#(len)) :
    ((data &&& mask) ||| (old &&& ~~~mask)).extractLsb' lo len = old.extractLsb' lo len := by
  rw [BitVec.extractLsb'_or, BitVec.extractLsb'_and, BitVec.extractLsb'_and,
    BitVec.extractLsb'_not_of_lt hlt, h, BitVec.not_zero, BitVec.and_allOnes,
    BitVec.and_zero, BitVec.zero_or]

theorem extract_shiftLeft_of_le {w : ℕ} (x : BitVec w) {k lo len : ℕ} (hk : k ≤ lo)
    (h : lo + len ≤ w) : (x <<< k).extractLsb' lo len = x.extractLsb' (lo - k) len := by
  apply BitVec.eq_of_getLsbD_eq
  intro i hi
  have hlt : lo + i < w := by omega
  have hge : ¬lo + i < k := by omega
  have hsub : lo + i - k = lo - k + i := by omega
  rw [BitVec.getLsbD_extractLsb', BitVec.getLsbD_extractLsb', BitVec.getLsbD_shiftLeft, hsub]
  simp [hlt, hge]

theorem extract_shiftLeft {w : ℕ} (x : BitVec w) {lo len : ℕ} (h : lo + len ≤ w) :
    (x <<< lo).extractLsb' lo len = x.extractLsb' 0 len := by
  rw [extract_shiftLeft_of_le x (Nat.le_refl lo) h, Nat.sub_self]

theorem extract_shiftLeft_zero {w : ℕ} (x : BitVec w) {k lo len : ℕ} (h : lo + len ≤ k) :
    (x <<< k).extractLsb' lo len = 0#(len) := by
  apply BitVec.eq_of_getLsbD_eq
  intro i hi
  have hlt : lo + i < k := by omega
  rw [BitVec.getLsbD_extractLsb', BitVec.getLsbD_shiftLeft]
  simp [hlt]

/-- A group of bits moved down, cut out and moved back. -/
theorem shiftLeft_extract_shiftRight {w : ℕ} (x : BitVec w) (k len : ℕ) :
    (((x >>> k).extractLsb' 0 len).setWidth w) <<< k =
      x &&& ((BitVec.allOnes len).setWidth w <<< k) := by
  apply BitVec.eq_of_getLsbD_eq
  intro i hi
  rw [BitVec.getLsbD_and, BitVec.getLsbD_shiftLeft, BitVec.getLsbD_shiftLeft,
    BitVec.getLsbD_setWidth, BitVec.getLsbD_setWidth, BitVec.getLsbD_extractLsb',
    BitVec.getLsbD_ushiftRight, BitVec.getLsbD_allOnes]
  by_cases hk : i < k
  · simp [hk]
  · have hsub : k + (0 + (i - k)) = i := by omega
    rw [hsub]
    cases x.getLsbD i <;> simp

/-! ## Numbers -/

/-- A number in the range of `n + 1` bits survives truncation. -/
theorem toInt_setWidth_of_range {x : BitVec 64} {n : ℕ} (hn : n < 64)
    (hlo : -2 ^ n ≤ x.toInt) (hhi : x.toInt < 2 ^ n) :
    (x.setWidth (n + 1)).toInt = x.toInt := by
  have hcond : ∃ k : ℤ, (x.toNat : ℤ) = x.toInt + (2 ^ (n + 1) : ℕ) * k := by
    refine ⟨2 ^ (63 - n) * if 2 * x.toNat < 2 ^ 64 then 0 else 1, ?_⟩
    have hpow : ((2 : ℤ) ^ (n + 1)) * 2 ^ (63 - n) = 2 ^ 64 := by
      rw [← pow_add]
      congr 1
      omega
    push_cast
    rw [← mul_assoc, hpow, BitVec.toInt_eq_toNat_cond]
    split
    · simp
    · push_cast
      ring
  obtain ⟨k, hk⟩ := hcond
  rw [BitVec.toInt_setWidth, hk, Int.add_mul_bmod_self_left]
  apply Int.bmod_eq_of_le
  · push_cast
    rw [pow_succ]
    omega
  · push_cast
    rw [pow_succ]
    omega

theorem signExtend_setWidth_of_range {x : BitVec 64} {n : ℕ} (hn : n < 64)
    (hlo : -2 ^ n ≤ x.toInt) (hhi : x.toInt < 2 ^ n) :
    (x.setWidth (n + 1)).signExtend 64 = x := by
  apply BitVec.eq_of_toInt_eq
  rw [BitVec.toInt_signExtend_of_le hn, toInt_setWidth_of_range hn hlo hhi]

/-- A truncated number in units of `2 ^ k`. -/
theorem signExtend_append_zero {x y : BitVec 64} {n k : ℕ} (hn : n + 1 + k ≤ 64)
    (hlo : -2 ^ n ≤ x.toInt) (hhi : x.toInt < 2 ^ n) (hy : y.toInt = 2 ^ k * x.toInt) :
    (x.setWidth (n + 1) ++ 0#k).signExtend 64 = y := by
  apply BitVec.eq_of_toInt_eq
  rw [BitVec.toInt_signExtend_of_le hn, BitVec.toInt_append,
    toInt_setWidth_of_range (by omega) hlo hhi, hy]
  simp

end PollyInstrew.BitFields
