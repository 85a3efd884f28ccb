import Mathlib.Algebra.Order.Field.Power
import Mathlib.Data.BitVec
import Mathlib.Data.Rat.Floor
import Mathlib.Tactic.Positivity

/-!
# Binary floating-point formats

A pattern of a binary interchange format is a sign, an exponent field and a
fraction.  Without the sign it is a number, its magnitude, and the value grows
with the magnitude: within one exponent in equal steps, and the last step leads
to the next exponent.  Rounding therefore works on the magnitude as a number.
-/

namespace PollyInstrew.BinaryFormat

/-- The widths of the exponent field and of the fraction. -/
structure Format where
  expBits : ℕ
  fracBits : ℕ
  expBits_ge : 3 ≤ expBits
  fracBits_pos : 0 < fracBits
  fracBits_le : fracBits < 2 ^ (expBits - 1)

namespace Format

variable (fmt : Format)

/-- The bits of a pattern without the sign. -/
def magBits : ℕ := fmt.expBits + fmt.fracBits

def width : ℕ := fmt.magBits + 1

def bias : ℕ := 2 ^ (fmt.expBits - 1) - 1

/-- The exponent field of infinities and NaNs. -/
def maxExp : ℕ := 2 ^ fmt.expBits - 1

/-! ## Magnitudes -/

/-- The value of a magnitude.  The exponent field zero stands for the exponent of
the field one without the leading bit. -/
def magVal (a : ℕ) : ℚ :=
  if a / 2 ^ fmt.fracBits = 0 then
    a * (2 : ℚ) ^ (1 - fmt.bias - fmt.fracBits : ℤ)
  else
    (2 ^ fmt.fracBits + a % 2 ^ fmt.fracBits : ℕ) *
      (2 : ℚ) ^ ((a / 2 ^ fmt.fracBits : ℕ) - fmt.bias - fmt.fracBits : ℤ)

theorem bias_eq : 2 * fmt.bias + 1 = fmt.maxExp := by
  obtain ⟨n, hn⟩ := Nat.exists_eq_add_of_le fmt.expBits_ge
  have hpos : 0 < 2 ^ (2 + n) := Nat.two_pow_pos _
  have hexp : 3 + n - 1 = 2 + n := by omega
  have hpow : 2 ^ (3 + n) = 2 * 2 ^ (2 + n) := by
    rw [show 3 + n = (2 + n) + 1 by omega, Nat.pow_succ, Nat.mul_comm]
  rw [bias, maxExp, hn, hexp, hpow]
  omega

theorem two_le_bias : 2 ≤ fmt.bias := by
  have hle : 2 ^ 2 ≤ 2 ^ (fmt.expBits - 1) :=
    Nat.pow_le_pow_right (by decide) (by have := fmt.expBits_ge; omega)
  rw [bias]
  omega

theorem fracBits_le_bias : fmt.fracBits ≤ fmt.bias := by
  have := fmt.fracBits_le
  rw [bias]
  omega

theorem magVal_zero : fmt.magVal 0 = 0 := by
  rw [magVal, if_pos (Nat.zero_div _)]
  simp

/-- Equal steps up to and including the first magnitude of the next exponent. -/
theorem magVal_add {e d : ℕ} (he : 0 < e) (hd : d ≤ 2 ^ fmt.fracBits) :
    fmt.magVal (e * 2 ^ fmt.fracBits + d) =
      (2 ^ fmt.fracBits + d : ℕ) * (2 : ℚ) ^ (e - fmt.bias - fmt.fracBits : ℤ) := by
  have hpos : 0 < 2 ^ fmt.fracBits := Nat.two_pow_pos _
  rcases Nat.lt_or_eq_of_le hd with hlt | rfl
  · have hdiv : (e * 2 ^ fmt.fracBits + d) / 2 ^ fmt.fracBits = e := by
      rw [Nat.mul_comm, Nat.mul_add_div hpos, Nat.div_eq_of_lt hlt, Nat.add_zero]
    have hmod : (e * 2 ^ fmt.fracBits + d) % 2 ^ fmt.fracBits = d := by
      rw [Nat.mul_comm, Nat.mul_add_mod, Nat.mod_eq_of_lt hlt]
    rw [magVal, hdiv, hmod, if_neg he.ne']
  · have hdiv : (e * 2 ^ fmt.fracBits + 2 ^ fmt.fracBits) / 2 ^ fmt.fracBits = e + 1 := by
      rw [← Nat.succ_mul, Nat.mul_div_cancel _ hpos]
    have hmod : (e * 2 ^ fmt.fracBits + 2 ^ fmt.fracBits) % 2 ^ fmt.fracBits = 0 := by
      rw [← Nat.succ_mul, Nat.mul_mod_left]
    have hexp : (2 : ℚ) ^ ((e + 1 : ℕ) - fmt.bias - fmt.fracBits : ℤ) =
        2 * (2 : ℚ) ^ (e - fmt.bias - fmt.fracBits : ℤ) := by
      rw [← zpow_one_add₀ (by norm_num)]
      congr 1
      push_cast
      ring
    rw [magVal, hdiv, hmod, if_neg (by omega), hexp]
    push_cast
    ring

/-- Equal steps below the exponent field one. -/
theorem magVal_subnormal {a : ℕ} (ha : a ≤ 2 ^ fmt.fracBits) :
    fmt.magVal a = a * (2 : ℚ) ^ (1 - fmt.bias - fmt.fracBits : ℤ) := by
  have hpos : 0 < 2 ^ fmt.fracBits := Nat.two_pow_pos _
  rcases Nat.lt_or_eq_of_le ha with hlt | rfl
  · rw [magVal, if_pos (Nat.div_eq_of_lt hlt)]
  · have h := fmt.magVal_add (e := 1) (d := 0) Nat.one_pos (Nat.zero_le _)
    rw [Nat.one_mul, Nat.add_zero] at h
    exact h

theorem magVal_strictMono : StrictMono fmt.magVal := by
  refine strictMono_nat_of_lt_succ fun a => ?_
  have hpos : 0 < 2 ^ fmt.fracBits := Nat.two_pow_pos _
  have hdecomp := Nat.div_add_mod a (2 ^ fmt.fracBits)
  have hlt := Nat.mod_lt a hpos
  rw [Nat.mul_comm] at hdecomp
  rcases Nat.eq_zero_or_pos (a / 2 ^ fmt.fracBits) with hzero | he
  · rw [hzero, Nat.zero_mul, Nat.zero_add] at hdecomp
    rw [fmt.magVal_subnormal (by omega), fmt.magVal_subnormal (by omega)]
    have hunit : (0 : ℚ) < 2 ^ (1 - fmt.bias - fmt.fracBits : ℤ) := by positivity
    exact mul_lt_mul_of_pos_right (by exact_mod_cast Nat.lt_succ_self a) hunit
  · generalize a / 2 ^ fmt.fracBits = e at hdecomp he
    generalize a % 2 ^ fmt.fracBits = d at hdecomp hlt
    subst hdecomp
    rw [Nat.add_assoc, fmt.magVal_add he (by omega), fmt.magVal_add he (by omega)]
    have hunit : (0 : ℚ) < 2 ^ (e - fmt.bias - fmt.fracBits : ℤ) := by positivity
    exact mul_lt_mul_of_pos_right (by exact_mod_cast Nat.lt_succ_self _) hunit

theorem magVal_nonneg (a : ℕ) : 0 ≤ fmt.magVal a := by
  rw [← fmt.magVal_zero]
  exact fmt.magVal_strictMono.monotone (Nat.zero_le a)

theorem magVal_pos {a : ℕ} (ha : 0 < a) : 0 < fmt.magVal a := by
  rw [← fmt.magVal_zero]
  exact fmt.magVal_strictMono ha

/-- The magnitude of one. -/
theorem magVal_one : fmt.magVal (fmt.bias * 2 ^ fmt.fracBits) = 1 := by
  have hbias := fmt.two_le_bias
  have h := fmt.magVal_add (e := fmt.bias) (d := 0) (by omega) (Nat.zero_le _)
  rw [Nat.add_zero] at h
  rw [h, sub_self, zero_sub, zpow_neg, zpow_natCast]
  push_cast
  rw [add_zero]
  exact mul_inv_cancel₀ (by positivity)

/-- The magnitude of one half. -/
theorem magVal_half : fmt.magVal ((fmt.bias - 1) * 2 ^ fmt.fracBits) = 1 / 2 := by
  have hbias := fmt.two_le_bias
  have h := fmt.magVal_add (e := fmt.bias - 1) (d := 0) (by omega) (Nat.zero_le _)
  rw [Nat.add_zero] at h
  have hexp : ((fmt.bias - 1 : ℕ) - fmt.bias - fmt.fracBits : ℤ) = -(fmt.fracBits + 1 : ℕ) := by
    push_cast [Nat.cast_sub (show 1 ≤ fmt.bias by omega)]
    ring
  rw [h, hexp, zpow_neg, zpow_natCast, pow_succ]
  push_cast
  field_simp
  ring

/-- Below the exponent of the units, magnitudes denote fractions of a power of two. -/
theorem magVal_div {a j : ℕ} (hj : j ≤ fmt.fracBits)
    (he : a / 2 ^ fmt.fracBits + j = fmt.bias + fmt.fracBits) :
    fmt.magVal a = ((2 ^ fmt.fracBits + a % 2 ^ fmt.fracBits : ℕ) : ℚ) / (2 ^ j : ℕ) := by
  have hbias := fmt.two_le_bias
  have hexp : ((a / 2 ^ fmt.fracBits : ℕ) - fmt.bias - fmt.fracBits : ℤ) = -(j : ℕ) := by
    omega
  rw [magVal, if_neg (by omega), hexp, zpow_neg, zpow_natCast, div_eq_mul_inv]
  push_cast
  rfl

/-- Adding to such a magnitude and clearing the bits below the units gives the
number of units, also when the sum reaches the next exponent. -/
theorem magVal_clear {a j c : ℕ} (hj : j ≤ fmt.fracBits)
    (he : a / 2 ^ fmt.fracBits + j = fmt.bias + fmt.fracBits) (hc : c < 2 ^ j) :
    fmt.magVal ((a + c) / 2 ^ j * 2 ^ j) =
      ((2 ^ fmt.fracBits + a % 2 ^ fmt.fracBits + c) / 2 ^ j : ℕ) := by
  have hbias := fmt.two_le_bias
  have hpos : 0 < 2 ^ fmt.fracBits := Nat.two_pow_pos _
  have hposj : 0 < 2 ^ j := Nat.two_pow_pos _
  obtain ⟨i, hi⟩ := Nat.exists_eq_add_of_le hj
  have hsplit : 2 ^ fmt.fracBits = 2 ^ i * 2 ^ j := by rw [hi, Nat.pow_add, Nat.mul_comm]
  have hdecomp := Nat.div_add_mod a (2 ^ fmt.fracBits)
  have hlt := Nat.mod_lt a hpos
  have hpose : 0 < a / 2 ^ fmt.fracBits := by omega
  generalize a / 2 ^ fmt.fracBits = e at he hdecomp hpose
  generalize a % 2 ^ fmt.fracBits = d at hdecomp hlt ⊢
  have hquot : (a + c) / 2 ^ j = e * 2 ^ i + (d + c) / 2 ^ j := by
    rw [← hdecomp, hsplit, Nat.add_assoc,
      show 2 ^ i * 2 ^ j * e + (d + c) = 2 ^ j * (e * 2 ^ i) + (d + c) by ring,
      Nat.mul_add_div hposj]
  have hunits : (2 ^ fmt.fracBits + d + c) / 2 ^ j = 2 ^ i + (d + c) / 2 ^ j := by
    rw [hsplit, Nat.add_assoc, Nat.mul_comm, Nat.mul_add_div hposj]
  have hle : (d + c) / 2 ^ j ≤ 2 ^ i := by
    refine Nat.lt_succ_iff.mp ((Nat.div_lt_iff_lt_mul hposj).mpr ?_)
    rw [Nat.succ_mul, ← hsplit]
    omega
  have hlow : (d + c) / 2 ^ j * 2 ^ j ≤ 2 ^ fmt.fracBits := by
    rw [hsplit]
    exact Nat.mul_le_mul_right _ hle
  have hexp : (e - fmt.bias - fmt.fracBits : ℤ) = -(j : ℕ) := by omega
  rw [hquot, hunits, Nat.add_mul, Nat.mul_assoc, ← hsplit, fmt.magVal_add hpose hlow, hexp,
    zpow_neg, zpow_natCast, hsplit]
  push_cast
  field_simp

/-- From the exponent of the units on, magnitudes denote integers. -/
theorem exists_magVal_eq_natCast {a : ℕ} (he : fmt.bias + fmt.fracBits ≤ a / 2 ^ fmt.fracBits) :
    ∃ n : ℕ, fmt.magVal a = n := by
  have hbias := fmt.two_le_bias
  obtain ⟨i, hi⟩ := Nat.exists_eq_add_of_le he
  have hexp : ((a / 2 ^ fmt.fracBits : ℕ) - fmt.bias - fmt.fracBits : ℤ) = (i : ℕ) := by omega
  refine ⟨(2 ^ fmt.fracBits + a % 2 ^ fmt.fracBits) * 2 ^ i, ?_⟩
  rw [magVal, if_neg (by omega), hexp, zpow_natCast]
  push_cast
  rfl

/-! ## Patterns -/

variable {fmt}

/-- The pattern without the sign. -/
def mag (x : BitVec fmt.width) : ℕ := x.toNat % 2 ^ fmt.magBits

def expField (x : BitVec fmt.width) : ℕ := mag x / 2 ^ fmt.fracBits

/-- Neither an infinity nor a NaN. -/
def IsFinite (x : BitVec fmt.width) : Prop := expField x ≠ fmt.maxExp

instance (x : BitVec fmt.width) : Decidable (IsFinite x) := inferInstanceAs (Decidable (_ ≠ _))

/-- The number a finite pattern denotes. -/
def val (x : BitVec fmt.width) : ℚ := if x.msb then -fmt.magVal (mag x) else fmt.magVal (mag x)

theorem two_pow_width (fmt : Format) : 2 ^ fmt.width = 2 * 2 ^ fmt.magBits := by
  rw [width, Nat.pow_succ, Nat.mul_comm]

theorem msb_eq (x : BitVec fmt.width) : x.msb = decide (2 ^ fmt.magBits ≤ x.toNat) :=
  BitVec.msb_eq_decide x

theorem toNat_eq (x : BitVec fmt.width) :
    x.toNat = x.msb.toNat * 2 ^ fmt.magBits + mag x := by
  have hlt := x.isLt
  rw [two_pow_width] at hlt
  rw [msb_eq, mag]
  by_cases hle : 2 ^ fmt.magBits ≤ x.toNat
  · rw [decide_eq_true hle, Bool.toNat_true, Nat.one_mul, Nat.mod_eq_sub_mod hle,
      Nat.mod_eq_of_lt (by omega)]
    omega
  · rw [decide_eq_false hle, Bool.toNat_false, Nat.zero_mul, Nat.zero_add,
      Nat.mod_eq_of_lt (by omega)]

theorem mag_lt (x : BitVec fmt.width) : mag x < 2 ^ fmt.magBits :=
  Nat.mod_lt _ (Nat.two_pow_pos _)

theorem pattern_ext {x y : BitVec fmt.width} (hsign : x.msb = y.msb) (hmag : mag x = mag y) :
    x = y := by
  apply BitVec.eq_of_toNat_eq
  rw [toNat_eq, toNat_eq y, hsign, hmag]

theorem val_of_msb {x : BitVec fmt.width} (h : x.msb = true) : val x = -fmt.magVal (mag x) := by
  rw [val, if_pos h]

theorem val_of_not_msb {x : BitVec fmt.width} (h : x.msb = false) :
    val x = fmt.magVal (mag x) := by
  rw [val, if_neg (by simp [h])]

/-- A pattern is known by its sign and its value. -/
theorem eq_of_val_eq {x y : BitVec fmt.width} (hsign : x.msb = y.msb) (hval : val x = val y) :
    x = y := by
  refine pattern_ext hsign (fmt.magVal_strictMono.injective ?_)
  cases hx : x.msb with
  | true =>
      rw [val_of_msb hx, val_of_msb (hsign.symm.trans hx)] at hval
      exact neg_injective hval
  | false =>
      rw [val_of_not_msb hx, val_of_not_msb (hsign.symm.trans hx)] at hval
      exact hval

end Format

/-! ## Rounding -/

/-- The integer part toward zero. -/
def IsTrunc (q : ℚ) (n : ℤ) : Prop :=
  (0 ≤ q → IsGreatest {k : ℤ | (k : ℚ) ≤ q} n) ∧ (q ≤ 0 → IsLeast {k : ℤ | q ≤ k} n)

/-- The nearest integer, and of two nearest ones that away from zero. -/
def IsNearest (q : ℚ) (n : ℤ) : Prop :=
  ∀ k : ℤ, |q - n| ≤ |q - k| ∧ (|q - k| = |q - n| → |k| ≤ |n|)

/-- A number with a sign. -/
def signed {α : Type*} [Neg α] (negative : Bool) (v : α) : α := if negative then -v else v

/-- The greatest integer that is not above `v`. -/
def Below (v : ℚ) (n : ℕ) : Prop := n ≤ v ∧ v < n + 1

/-- The least integer that is not below `v`. -/
def Above (v : ℚ) (n : ℕ) : Prop := v ≤ n ∧ n < v + 1

/-- The nearest integer to `v`, halves upwards. -/
def Near (v : ℚ) (n : ℕ) : Prop := n ≤ v + 1 / 2 ∧ v + 1 / 2 < n + 1

theorem below_natCast (n : ℕ) : Below n n := ⟨le_refl _, by linarith⟩

theorem above_natCast (n : ℕ) : Above n n := ⟨le_refl _, by linarith⟩

theorem near_natCast (n : ℕ) : Near n n := ⟨by linarith, by linarith⟩

theorem below_div (a : ℕ) {d : ℕ} (hd : 0 < d) : Below ((a : ℚ) / d) (a / d) := by
  have hd' : (0 : ℚ) < d := by exact_mod_cast hd
  constructor
  · rw [le_div_iff₀ hd']
    exact_mod_cast Nat.div_mul_le_self a d
  · rw [div_lt_iff₀ hd']
    exact_mod_cast (Nat.div_lt_iff_lt_mul hd).mp (Nat.lt_succ_self (a / d))

theorem above_div (a : ℕ) {d : ℕ} (hd : 0 < d) : Above ((a : ℚ) / d) ((a + (d - 1)) / d) := by
  have hd' : (0 : ℚ) < d := by exact_mod_cast hd
  have hle := Nat.div_mul_le_self (a + (d - 1)) d
  have hlt := (Nat.div_lt_iff_lt_mul hd).mp (Nat.lt_succ_self ((a + (d - 1)) / d))
  constructor
  · rw [div_le_iff₀ hd']
    have : a ≤ (a + (d - 1)) / d * d := by
      rw [Nat.succ_mul] at hlt
      omega
    exact_mod_cast this
  · have : (a + (d - 1)) / d * d < a + d := by omega
    have hcast : (((a + (d - 1)) / d : ℕ) : ℚ) * d < a + d := by exact_mod_cast this
    rw [div_add_one hd'.ne', lt_div_iff₀ hd']
    exact hcast

theorem near_div (a : ℕ) {d : ℕ} (hd : 0 < d) :
    Near ((a : ℚ) / (2 * d : ℕ)) ((a + d) / (2 * d)) := by
  have hd' : (0 : ℚ) < (2 * d : ℕ) := by exact_mod_cast Nat.mul_pos (by decide) hd
  have hhalf : (a : ℚ) / (2 * d : ℕ) + 1 / 2 = ((a + d : ℕ) : ℚ) / (2 * d : ℕ) := by
    have : (d : ℚ) ≠ 0 := by exact_mod_cast hd.ne'
    push_cast
    field_simp
  have h := below_div (a + d) (Nat.mul_pos (by decide : 0 < 2) hd)
  rw [Near, hhalf]
  exact h

theorem Below.isGreatest {v : ℚ} {n : ℕ} (h : Below v n) :
    IsGreatest {k : ℤ | (k : ℚ) ≤ v} n := by
  refine ⟨by simpa using h.1, fun k hk => ?_⟩
  have hlt : (k : ℚ) < (n + 1 : ℤ) := by
    push_cast
    exact lt_of_le_of_lt hk h.2
  exact Int.lt_add_one_iff.mp (Int.cast_lt.mp hlt)

theorem Above.isLeast {v : ℚ} {n : ℕ} (h : Above v n) : IsLeast {k : ℤ | v ≤ k} n := by
  refine ⟨by simpa using h.1, fun k hk => ?_⟩
  have hk' : v ≤ (k : ℚ) := hk
  have hlt : ((n : ℤ) : ℚ) < (k + 1 : ℤ) := by
    push_cast
    linarith [h.2]
  exact Int.lt_add_one_iff.mp (Int.cast_lt.mp hlt)

theorem Below.isLeast_neg {v : ℚ} {n : ℕ} (h : Below v n) : IsLeast {k : ℤ | -v ≤ k} (-n) := by
  refine ⟨by simpa using h.1, fun k hk => ?_⟩
  have hk' : ((-k : ℤ) : ℚ) ≤ v := by
    push_cast
    linarith [show -v ≤ (k : ℚ) from hk]
  have hle : -k ≤ (n : ℤ) := h.isGreatest.2 hk'
  omega

theorem Above.isGreatest_neg {v : ℚ} {n : ℕ} (h : Above v n) :
    IsGreatest {k : ℤ | (k : ℚ) ≤ -v} (-n) := by
  refine ⟨by simpa using h.1, fun k hk => ?_⟩
  have hk' : v ≤ ((-k : ℤ) : ℚ) := by
    push_cast
    linarith [show (k : ℚ) ≤ -v from hk]
  have hle : (n : ℤ) ≤ -k := h.isLeast.2 hk'
  omega

theorem Near.isNearest {v : ℚ} {n : ℕ} (hv : 0 ≤ v) (h : Near v n) : IsNearest v n := by
  obtain ⟨hlo, hhi⟩ := h
  intro k
  have hdist : |v - (n : ℤ)| ≤ 1 / 2 := by
    rw [abs_le]
    push_cast
    constructor <;> linarith
  rcases lt_trichotomy k n with hlt | rfl | hgt
  · have hk : (k : ℚ) + 1 ≤ n := by exact_mod_cast hlt
    have hfar : |v - k| = v - k := abs_of_nonneg (by linarith)
    refine ⟨by rw [hfar]; linarith, fun htie => ?_⟩
    rw [hfar] at htie
    have hhalf : v - k ≤ 1 / 2 := htie.le.trans hdist
    have hpos : (1 : ℤ) ≤ n := by
      have : (0 : ℚ) < n := by linarith
      exact_mod_cast this
    have hnext : (n : ℤ) ≤ k + 1 := by
      have : (n : ℚ) ≤ k + 1 := by linarith
      exact_mod_cast this
    rw [abs_of_nonneg (by omega), abs_of_nonneg (by omega)]
    omega
  · exact ⟨le_refl _, fun _ => le_refl _⟩
  · have hk : (n : ℚ) + 1 ≤ k := by exact_mod_cast hgt
    have hfar : |v - k| = k - v := by
      rw [abs_sub_comm]
      exact abs_of_nonneg (by linarith)
    refine ⟨by rw [hfar]; linarith, fun htie => ?_⟩
    rw [hfar] at htie
    linarith

theorem IsNearest.neg {q : ℚ} {n : ℤ} (h : IsNearest q n) : IsNearest (-q) (-n) := by
  have hflip : ∀ m : ℤ, |-q - (m : ℚ)| = |q - ((-m : ℤ) : ℚ)| := by
    intro m
    rw [← abs_neg]
    congr 1
    push_cast
    ring
  intro k
  rw [hflip, hflip, neg_neg, abs_neg, ← abs_neg k]
  exact h (-k)

theorem eq_of_isGreatest {m n : ℤ} (h : IsGreatest {k : ℤ | (k : ℚ) ≤ m} n) : n = m := by
  refine h.unique ⟨le_refl (m : ℚ), fun k hk => ?_⟩
  exact_mod_cast hk

theorem eq_of_isLeast {m n : ℤ} (h : IsLeast {k : ℤ | (m : ℚ) ≤ k} n) : n = m := by
  refine h.unique ⟨le_refl (m : ℚ), fun k hk => ?_⟩
  exact_mod_cast hk

theorem eq_of_isTrunc {m n : ℤ} (h : IsTrunc m n) : n = m := by
  rcases le_total 0 (m : ℚ) with hm | hm
  · exact eq_of_isGreatest (h.1 hm)
  · exact eq_of_isLeast (h.2 hm)

theorem eq_of_isNearest {m n : ℤ} (h : IsNearest m n) : n = m := by
  have hle := (h m).1
  rw [sub_self, abs_zero] at hle
  have hzero := abs_nonpos_iff.mp hle
  exact (Int.cast_injective (sub_eq_zero.mp hzero)).symm

end PollyInstrew.BinaryFormat
