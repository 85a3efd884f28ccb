import PollyInstrew.Client.Common
import PollyInstrew.Support.BinaryFormat

/-!
# Rounding to integers

The client is linked without a math library and brings the rounding functions
that translated code calls.  They compute on the pattern of the number: a mask
covers the bits of the fraction below the units, something is added to the
pattern, and the mask is cleared.  An addition that would overflow has no result
here.
-/

namespace PollyInstrew.Client

open PollyInstrew.BinaryFormat PollyInstrew.BinaryFormat.Format

/-! ## The functions -/

/-- The literals by which the versions of a function for `float` and `double`
differ. -/
structure FloatLits (fmt : Format) where
  shift : ℕ
  expMask : BitVec fmt.width
  bias : ℤ
  fracMask : BitVec fmt.width
  intMin : BitVec fmt.width
  signMask : BitVec fmt.width
  negZero : BitVec fmt.width
  one : BitVec fmt.width
  negOne : BitVec fmt.width
  shift_eq : shift = fmt.fracBits
  expMask_eq : expMask.toNat = 2 ^ fmt.expBits - 1
  bias_eq : bias = fmt.bias
  fracMask_eq : fracMask.toNat = 2 ^ fmt.fracBits - 1
  intMin_eq : intMin.toNat = 2 ^ fmt.magBits
  signMask_eq : signMask.toNat = 2 ^ fmt.magBits
  negZero_eq : negZero.toNat = 2 ^ fmt.magBits
  one_eq : one.toNat = fmt.bias * 2 ^ fmt.fracBits
  negOne_eq : negOne.toNat = 2 ^ fmt.magBits + fmt.bias * 2 ^ fmt.fracBits

/-- The addition of signed integers, undefined on overflow. -/
def addSigned {w : ℕ} (x y : BitVec w) : Option (BitVec w) :=
  if x.saddOverflow y then none else some (x + y)

section Functions

variable {fmt : Format} (lits : FloatLits fmt)

/-- `EXP_F32` and `EXP_F64`. -/
def expOf (vi : BitVec fmt.width) : ℤ :=
  (vi.sshiftRight lits.shift &&& lits.expMask).toInt - lits.bias

/-- The bits of the fraction below the units. -/
def fracMsk (exp : ℤ) : BitVec fmt.width := lits.fracMask.sshiftRight exp.toNat

def floorBits (vi : BitVec fmt.width) : Option (BitVec fmt.width) :=
  let exp := expOf lits vi
  if exp < 0 then
    some (if vi = lits.intMin then lits.negZero else if vi.toInt < 0 then lits.negOne else 0)
  else if exp < lits.shift then do
    let msk := fracMsk lits exp
    let sum ← addSigned vi (if vi.toInt < 0 then msk else 0)
    return sum &&& ~~~msk
  else
    some vi

def ceilBits (vi : BitVec fmt.width) : Option (BitVec fmt.width) :=
  let exp := expOf lits vi
  if exp < 0 then
    some (if vi.toInt < 0 then lits.negZero else if vi = 0 then 0 else lits.one)
  else if exp < lits.shift then do
    let msk := fracMsk lits exp
    let sum ← addSigned vi (if 0 ≤ vi.toInt then msk else 0)
    return sum &&& ~~~msk
  else
    some vi

def roundBits (vi : BitVec fmt.width) : Option (BitVec fmt.width) :=
  let exp := expOf lits vi
  if exp < -1 then
    some (vi &&& lits.signMask)
  else if exp = -1 then
    some (if vi.toInt < 0 then lits.negOne else lits.one)
  else if exp < lits.shift then
    let msk := fracMsk lits exp
    if vi &&& msk ≠ 0 then do
      let half ← addSigned 1 (msk.sshiftRight 1)
      let sum ← addSigned vi half
      return sum &&& ~~~msk
    else
      some vi
  else
    some vi

def truncBits (vi : BitVec fmt.width) : Option (BitVec fmt.width) :=
  let exp := expOf lits vi
  if exp < 0 then
    some (if vi.toInt < 0 then lits.negZero else 0)
  else if exp < lits.shift then
    some (vi &&& ~~~fracMsk lits exp)
  else
    some vi

end Functions

/-- `float`. -/
def binary32 : Format where
  expBits := 8
  fracBits := 23
  expBits_ge := by decide
  fracBits_pos := by decide
  fracBits_le := by decide

/-- `double`. -/
def binary64 : Format where
  expBits := 11
  fracBits := 52
  expBits_ge := by decide
  fracBits_pos := by decide
  fracBits_le := by decide

def floatLits : FloatLits binary32 where
  shift := 23
  expMask := 0xff#32
  bias := 0x7f
  fracMask := 0x7fffff#32
  intMin := 0x80000000#32
  signMask := 0x80000000#32
  negZero := 0x80000000#32
  one := 0x3f800000#32
  negOne := 0xbf800000#32
  shift_eq := rfl
  expMask_eq := rfl
  bias_eq := rfl
  fracMask_eq := rfl
  intMin_eq := rfl
  signMask_eq := rfl
  negZero_eq := rfl
  one_eq := rfl
  negOne_eq := rfl

def doubleLits : FloatLits binary64 where
  shift := 52
  expMask := 0x7ff#64
  bias := 0x3ff
  fracMask := 0xfffffffffffff#64
  intMin := 0x8000000000000000#64
  signMask := 0x8000000000000000#64
  negZero := 0x8000000000000000#64
  one := 0x3ff0000000000000#64
  negOne := 0xbff0000000000000#64
  shift_eq := rfl
  expMask_eq := rfl
  bias_eq := rfl
  fracMask_eq := rfl
  intMin_eq := rfl
  signMask_eq := rfl
  negZero_eq := rfl
  one_eq := rfl
  negOne_eq := rfl

def floorf (v : BitVec 32) : Option (BitVec 32) := floorBits floatLits v
def floor (v : BitVec 64) : Option (BitVec 64) := floorBits doubleLits v
def ceilf (v : BitVec 32) : Option (BitVec 32) := ceilBits floatLits v
def ceil (v : BitVec 64) : Option (BitVec 64) := ceilBits doubleLits v
def roundf (v : BitVec 32) : Option (BitVec 32) := roundBits floatLits v
def round (v : BitVec 64) : Option (BitVec 64) := roundBits doubleLits v
def truncf (v : BitVec 32) : Option (BitVec 32) := truncBits floatLits v
def trunc (v : BitVec 64) : Option (BitVec 64) := truncBits doubleLits v

/-! ## Patterns under the operations -/

section Patterns

variable {fmt : Format}

theorem msb_mag_of_toNat {x : BitVec fmt.width} {b : Bool} {a : ℕ}
    (h : x.toNat = b.toNat * 2 ^ fmt.magBits + a) (ha : a < 2 ^ fmt.magBits) :
    x.msb = b ∧ mag x = a := by
  constructor
  · rw [msb_eq, h]
    cases b with
    | true => simp
    | false => simpa using ha
  · rw [mag, h, Nat.mul_comm, Nat.mul_add_mod, Nat.mod_eq_of_lt ha]

theorem toInt_lt_zero (x : BitVec fmt.width) : x.toInt < 0 ↔ x.msb = true := by
  rw [BitVec.msb_eq_toInt, decide_eq_true_eq]

theorem zero_le_toInt (x : BitVec fmt.width) : 0 ≤ x.toInt ↔ x.msb = false := by
  rw [← not_lt, toInt_lt_zero, Bool.not_eq_true]

theorem toInt_eq_toNat {x : BitVec fmt.width} (h : x.toNat < 2 ^ fmt.magBits) :
    x.toInt = x.toNat := by
  refine BitVec.toInt_eq_toNat_of_lt ?_
  rw [two_pow_width]
  omega

/-- What is added to the magnitude does not reach the sign. -/
theorem addSigned_eq {x y : BitVec fmt.width} (h : mag x + y.toNat < 2 ^ fmt.magBits) :
    addSigned x y = some (x + y) ∧ (x + y).msb = x.msb ∧ mag (x + y) = mag x + y.toNat := by
  have hx := toNat_eq x
  have hwidth := two_pow_width fmt
  have hy : y.toInt = y.toNat := toInt_eq_toNat (by omega)
  have hxi : x.toInt = mag x - x.msb.toNat * 2 ^ fmt.magBits := by
    rw [BitVec.toInt_eq_msb_cond, hx]
    cases x.msb with
    | true =>
        rw [if_pos rfl]
        push_cast [hwidth]
        simp only [Bool.toNat_true]
        omega
    | false => simp
  have hsum : (x + y).toNat = x.msb.toNat * 2 ^ fmt.magBits + (mag x + y.toNat) := by
    rw [BitVec.toNat_add, hx, Nat.add_assoc, Nat.mod_eq_of_lt]
    rw [hwidth]
    cases x.msb <;> simp only [Bool.toNat_true, Bool.toNat_false] <;> omega
  refine ⟨?_, msb_mag_of_toNat hsum h⟩
  have hover : ¬x.saddOverflow y := by
    have hexp : fmt.width - 1 = fmt.magBits := rfl
    rw [BitVec.saddOverflow, hxi, hy, hexp, Bool.or_eq_true, decide_eq_true_eq,
      decide_eq_true_eq]
    have hpos : ((2 ^ fmt.magBits : ℕ) : ℤ) = 2 ^ fmt.magBits := by push_cast; rfl
    cases x.msb <;> simp only [Bool.toNat_true, Bool.toNat_false] <;> omega
  rw [addSigned, if_neg hover]

theorem clear_eq {x m : BitVec fmt.width} {j : ℕ} (hm : m.toNat = 2 ^ j - 1)
    (hj : j ≤ fmt.magBits) :
    (x &&& ~~~m).msb = x.msb ∧ mag (x &&& ~~~m) = mag x / 2 ^ j * 2 ^ j := by
  have hx := toNat_eq x
  have hdvd : 2 ^ j ∣ x.msb.toNat * 2 ^ fmt.magBits :=
    Dvd.dvd.mul_left (Nat.pow_dvd_pow 2 hj) _
  have hmod : x.toNat % 2 ^ j = mag x % 2 ^ j := by
    rw [hx, Nat.add_mod, Nat.mod_eq_zero_of_dvd hdvd, Nat.zero_add, Nat.mod_mod]
  have hdecomp := Nat.div_add_mod' (mag x) (2 ^ j)
  have hlt := mag_lt x
  refine msb_mag_of_toNat ?_ (by omega)
  have hxlt := x.isLt
  rw [and_not_eq_sub, BitVec.toNat_sub, BitVec.toNat_and, hm, Nat.and_two_pow_sub_one_eq_mod,
    hmod]
  have hle : mag x % 2 ^ j ≤ x.toNat := by omega
  rw [show 2 ^ fmt.width - mag x % 2 ^ j + x.toNat =
      2 ^ fmt.width + (x.toNat - mag x % 2 ^ j) by omega,
    Nat.add_mod_left, Nat.mod_eq_of_lt (by omega)]
  omega

end Patterns

section Literals

variable {fmt : Format} (lits : FloatLits fmt)

theorem expOf_eq (x : BitVec fmt.width) : expOf lits x = expField x - fmt.bias := by
  have hmask : ∀ i, lits.expMask.getLsbD i = decide (i < fmt.expBits) := by
    intro i
    rw [BitVec.getLsbD, lits.expMask_eq, Nat.testBit_two_pow_sub_one]
  have hshift : x.sshiftRight lits.shift &&& lits.expMask =
      x >>> lits.shift &&& lits.expMask := by
    refine BitVec.eq_of_getLsbD_eq fun i hi => ?_
    rw [BitVec.getLsbD_and, BitVec.getLsbD_and, hmask, BitVec.getLsbD_ushiftRight]
    by_cases hlt : i < fmt.expBits
    · have hin : lits.shift + i < fmt.width := by
        rw [lits.shift_eq, width, magBits]
        omega
      rw [BitVec.getLsbD_sshiftRight, decide_eq_false (by omega), if_pos hin]
      simp
    · rw [decide_eq_false hlt, Bool.and_false, Bool.and_false]
  have hnat : (x >>> lits.shift &&& lits.expMask).toNat = expField x := by
    rw [BitVec.toNat_and, lits.expMask_eq, Nat.and_two_pow_sub_one_eq_mod,
      BitVec.toNat_ushiftRight, Nat.shiftRight_eq_div_pow, lits.shift_eq, expField, mag, magBits,
      Nat.add_comm fmt.expBits, Nat.pow_add, Nat.mod_mul_right_div_self]
  have hlt : expField x < 2 ^ fmt.magBits :=
    lt_of_le_of_lt (Nat.div_le_self _ _) (mag_lt x)
  rw [expOf, hshift, lits.bias_eq, toInt_eq_toNat (by rw [hnat]; exact hlt), hnat]

theorem fracMsk_toNat {e : ℕ} (he : e ≤ fmt.fracBits) :
    (fracMsk lits e).toNat = 2 ^ (fmt.fracBits - e) - 1 := by
  have hpos : 0 < 2 ^ fmt.fracBits := Nat.two_pow_pos _
  have hlt : 2 ^ fmt.fracBits ≤ 2 ^ fmt.magBits :=
    Nat.pow_le_pow_right (by decide) (Nat.le_add_left _ _)
  have hmsb : lits.fracMask.msb = false := by
    rw [msb_eq, lits.fracMask_eq, decide_eq_false (by omega)]
  rw [fracMsk, Int.toNat_natCast, BitVec.sshiftRight_eq_of_msb_false hmsb,
    BitVec.toNat_ushiftRight, Nat.shiftRight_eq_div_pow, lits.fracMask_eq]
  obtain ⟨i, hi⟩ := Nat.exists_eq_add_of_le he
  have hpose : 0 < 2 ^ e := Nat.two_pow_pos _
  have hposi : 0 < 2 ^ i := Nat.two_pow_pos _
  rw [hi, Nat.add_sub_cancel_left, Nat.pow_add]
  refine Nat.div_eq_of_lt_le ?_ ?_
  · rw [Nat.sub_mul, Nat.one_mul, Nat.mul_comm]
    omega
  · rw [Nat.sub_add_cancel hposi, Nat.mul_comm (2 ^ i)]
    have := Nat.mul_pos hpose hposi
    omega

end Literals

/-! ## What the functions return -/

/-- The result for a finite pattern: the sign stays, and the magnitude denotes the
integer that `P` relates to the value. -/
def Returns {fmt : Format} (x : BitVec fmt.width) (res : Option (BitVec fmt.width))
    (P : ℚ → ℕ → Prop) : Prop :=
  ∃ r n, res = some r ∧ IsFinite r ∧ r.msb = x.msb ∧ fmt.magVal (mag r) = (n : ℕ) ∧
    P (fmt.magVal (mag x)) n

section Returns

variable {fmt : Format} (lits : FloatLits fmt) {x : BitVec fmt.width} {P : ℚ → ℕ → Prop}

theorem isFinite_of_mag_lt {r : BitVec fmt.width} (h : mag r < fmt.maxExp * 2 ^ fmt.fracBits) :
    IsFinite r :=
  Nat.ne_of_lt ((Nat.div_lt_iff_lt_mul (Nat.two_pow_pos _)).mpr h)

theorem bias_mul_lt (fmt : Format) :
    fmt.bias * 2 ^ fmt.fracBits < fmt.maxExp * 2 ^ fmt.fracBits := by
  refine Nat.mul_lt_mul_of_pos_right ?_ (Nat.two_pow_pos _)
  have := fmt.bias_eq
  omega

theorem maxExp_mul_lt (fmt : Format) :
    fmt.maxExp * 2 ^ fmt.fracBits < 2 ^ fmt.magBits := by
  rw [magBits, Nat.pow_add]
  refine Nat.mul_lt_mul_of_pos_right ?_ (Nat.two_pow_pos _)
  have := Nat.two_pow_pos fmt.expBits
  rw [maxExp]
  omega

/-- A zero with the sign of the argument. -/
theorem returns_zero {r : BitVec fmt.width} (hr : r.toNat = x.msb.toNat * 2 ^ fmt.magBits)
    (hP : P (fmt.magVal (mag x)) 0) : Returns x (some r) P := by
  obtain ⟨hmsb, hmag⟩ := msb_mag_of_toNat (a := 0) hr (Nat.two_pow_pos _)
  have hbias := bias_mul_lt fmt
  refine ⟨r, 0, rfl, isFinite_of_mag_lt (by omega), hmsb, ?_, hP⟩
  rw [hmag, magVal_zero, Nat.cast_zero]

/-- A one with the sign of the argument. -/
theorem returns_one {r : BitVec fmt.width}
    (hr : r.toNat = x.msb.toNat * 2 ^ fmt.magBits + fmt.bias * 2 ^ fmt.fracBits)
    (hP : P (fmt.magVal (mag x)) 1) : Returns x (some r) P := by
  have hbias := bias_mul_lt fmt
  have hmax := maxExp_mul_lt fmt
  obtain ⟨hmsb, hmag⟩ := msb_mag_of_toNat hr (by omega)
  refine ⟨r, 1, rfl, isFinite_of_mag_lt (by omega), hmsb, ?_, hP⟩
  rw [hmag, magVal_one, Nat.cast_one]

/-- An integer is returned as it is. -/
theorem returns_self (hfin : IsFinite x) (hP : ∀ n : ℕ, P n n)
    (hexp : fmt.bias + fmt.fracBits ≤ expField x) : Returns x (some x) P := by
  obtain ⟨n, hn⟩ := fmt.exists_magVal_eq_natCast hexp
  refine ⟨x, n, rfl, hfin, rfl, hn, ?_⟩
  rw [hn]
  exact hP n

/-- A number with a fraction: `j` bits are below the units. -/
structure Fractional (x : BitVec fmt.width) (j : ℕ) : Prop where
  pos : 0 < j
  le : j ≤ fmt.fracBits
  exp : expField x + j = fmt.bias + fmt.fracBits

theorem Fractional.le_magBits {j : ℕ} (h : Fractional x j) : j ≤ fmt.magBits :=
  h.le.trans (Nat.le_add_left _ _)

theorem Fractional.mag_lt_of {j : ℕ} (h : Fractional x j) {c : ℕ} (hc : c < 2 ^ j) :
    mag x + c < fmt.maxExp * 2 ^ fmt.fracBits := by
  have hle : 2 ^ j ≤ 2 ^ fmt.fracBits := Nat.pow_le_pow_right (by decide) h.le
  have hlt := Nat.lt_div_mul_add (a := mag x) (Nat.two_pow_pos fmt.fracBits)
  have hexp := h.exp
  have hpos := h.pos
  have hbias := fmt.fracBits_le_bias
  have hmax := fmt.bias_eq
  rw [expField] at hexp
  calc
    mag x + c < (mag x / 2 ^ fmt.fracBits + 2) * 2 ^ fmt.fracBits := by
      rw [Nat.add_mul]
      omega
    _ ≤ fmt.maxExp * 2 ^ fmt.fracBits := Nat.mul_le_mul_right _ (by omega)

/-- Adding `c` and clearing the mask. -/
theorem Fractional.returns {j : ℕ} (h : Fractional x j) {c m : BitVec fmt.width}
    (hm : m.toNat = 2 ^ j - 1) (hc : c.toNat < 2 ^ j)
    (hP : ∀ a : ℕ, P ((a : ℚ) / (2 ^ j : ℕ)) ((a + c.toNat) / 2 ^ j)) :
    Returns x (do let sum ← addSigned x c; return sum &&& ~~~m) P := by
  have hlt := h.mag_lt_of hc
  have hmax := maxExp_mul_lt fmt
  obtain ⟨hadd, hmsb, hmag⟩ := addSigned_eq (x := x) (y := c) (by omega)
  obtain ⟨hmsb', hmag'⟩ := clear_eq (x := x + c) hm h.le_magBits
  refine ⟨x + c &&& ~~~m, (2 ^ fmt.fracBits + mag x % 2 ^ fmt.fracBits + c.toNat) / 2 ^ j,
    by rw [hadd]; rfl, ?_, hmsb'.trans hmsb, ?_, ?_⟩
  · have := Nat.div_mul_le_self (mag x + c.toNat) (2 ^ j)
    refine isFinite_of_mag_lt ?_
    rw [hmag', hmag]
    omega
  · rw [hmag', hmag]
    exact fmt.magVal_clear h.le h.exp hc
  · rw [fmt.magVal_div h.le h.exp]
    exact hP _

/-- A finite pattern is below one, has a fraction, or is an integer. -/
theorem exp_cases (x : BitVec fmt.width) :
    (expField x < fmt.bias ∧ expOf lits x < 0) ∨
    (∃ j, Fractional x j ∧ ¬expOf lits x < 0 ∧ expOf lits x < lits.shift ∧
      (fracMsk lits (expOf lits x)).toNat = 2 ^ j - 1) ∨
    (fmt.bias + fmt.fracBits ≤ expField x ∧ ¬expOf lits x < 0 ∧ ¬expOf lits x < lits.shift) := by
  have hexp := expOf_eq lits x
  have hshift := lits.shift_eq
  rcases Nat.lt_or_ge (expField x) fmt.bias with hlt | hge
  · exact .inl ⟨hlt, by omega⟩
  rcases Nat.lt_or_ge (expField x) (fmt.bias + fmt.fracBits) with hlt | hbig
  · obtain ⟨e, he⟩ := Nat.exists_eq_add_of_le hge
    have hcast : expOf lits x = (e : ℕ) := by omega
    refine .inr (.inl ⟨fmt.fracBits - e, ⟨by omega, by omega, by omega⟩, by omega, by omega, ?_⟩)
    rw [hcast]
    exact fracMsk_toNat lits (by omega)
  · exact .inr (.inr ⟨hbig, by omega, by omega⟩)

theorem magVal_lt_one (h : expField x < fmt.bias) : fmt.magVal (mag x) < 1 := by
  rw [← fmt.magVal_one]
  exact fmt.magVal_strictMono ((Nat.div_lt_iff_lt_mul (Nat.two_pow_pos _)).mp h)

theorem below_zero (h : expField x < fmt.bias) : Below (fmt.magVal (mag x)) 0 := by
  refine ⟨?_, ?_⟩
  · simpa using fmt.magVal_nonneg (mag x)
  · simpa using magVal_lt_one h

theorem above_one (h : expField x < fmt.bias) (hpos : 0 < mag x) :
    Above (fmt.magVal (mag x)) 1 := by
  refine ⟨?_, ?_⟩
  · simpa using (magVal_lt_one h).le
  · simpa using fmt.magVal_pos hpos

theorem above_zero (h : mag x = 0) : Above (fmt.magVal (mag x)) 0 := by
  rw [h, magVal_zero]
  exact above_natCast 0

theorem msb_toNat_of_neg (h : x.toInt < 0) : x.msb.toNat = 1 := by
  rw [(toInt_lt_zero x).mp h]
  rfl

theorem msb_toNat_of_not_neg (h : ¬x.toInt < 0) : x.msb.toNat = 0 := by
  rw [(zero_le_toInt x).mp (not_lt.mp h)]
  rfl

theorem zero_toNat : (0 : BitVec fmt.width).toNat = 0 := BitVec.toNat_zero

theorem floorBits_returns (hfin : IsFinite x) :
    Returns x (floorBits lits x) (if x.msb then Above else Below) := by
  rw [floorBits]
  dsimp only
  rcases exp_cases lits x with ⟨hlt, hexp⟩ | ⟨j, hfrac, hge, hexp, hmsk⟩ | ⟨hbig, hge, hexp⟩
  · rw [if_pos hexp]
    by_cases hmin : x = lits.intMin
    · have hx : x.toNat = (true : Bool).toNat * 2 ^ fmt.magBits + 0 := by
        rw [hmin, lits.intMin_eq]
        simp
      obtain ⟨hmsb, hmag⟩ := msb_mag_of_toNat hx (Nat.two_pow_pos _)
      rw [if_pos hmin, if_pos hmsb]
      refine returns_zero ?_ (above_zero hmag)
      rw [hmsb, lits.negZero_eq, Bool.toNat_true, Nat.one_mul]
    · rw [if_neg hmin]
      by_cases hneg : x.toInt < 0
      · have hone := msb_toNat_of_neg hneg
        have hpos : 0 < mag x := by
          by_contra hzero
          refine hmin (BitVec.eq_of_toNat_eq ?_)
          rw [toNat_eq, lits.intMin_eq, hone]
          omega
        rw [if_pos hneg, if_pos ((toInt_lt_zero x).mp hneg)]
        refine returns_one ?_ (above_one hlt hpos)
        rw [hone, lits.negOne_eq, Nat.one_mul]
      · rw [if_neg hneg, if_neg (mt (toInt_lt_zero x).mpr hneg)]
        refine returns_zero ?_ (below_zero hlt)
        rw [msb_toNat_of_not_neg hneg, zero_toNat, Nat.zero_mul]
  · rw [if_neg hge, if_pos hexp]
    have hpos := Nat.two_pow_pos j
    by_cases hneg : x.toInt < 0
    · rw [if_pos hneg, if_pos ((toInt_lt_zero x).mp hneg)]
      refine hfrac.returns hmsk (by omega) fun a => ?_
      rw [hmsk]
      exact above_div a hpos
    · rw [if_neg hneg, if_neg (mt (toInt_lt_zero x).mpr hneg)]
      refine hfrac.returns hmsk (by rwa [zero_toNat]) fun a => ?_
      rw [zero_toNat, Nat.add_zero]
      exact below_div a hpos
  · rw [if_neg hge, if_neg hexp]
    refine returns_self hfin (fun n => ?_) hbig
    cases x.msb with
    | true => exact above_natCast n
    | false => exact below_natCast n

theorem ceilBits_returns (hfin : IsFinite x) :
    Returns x (ceilBits lits x) (if x.msb then Below else Above) := by
  rw [ceilBits]
  dsimp only
  rcases exp_cases lits x with ⟨hlt, hexp⟩ | ⟨j, hfrac, hge, hexp, hmsk⟩ | ⟨hbig, hge, hexp⟩
  · rw [if_pos hexp]
    by_cases hneg : x.toInt < 0
    · rw [if_pos hneg, if_pos ((toInt_lt_zero x).mp hneg)]
      refine returns_zero ?_ (below_zero hlt)
      rw [msb_toNat_of_neg hneg, lits.negZero_eq, Nat.one_mul]
    · have hmsb := msb_toNat_of_not_neg hneg
      rw [if_neg hneg, if_neg (mt (toInt_lt_zero x).mpr hneg)]
      by_cases hzero : x = 0
      · have hmag : mag x = 0 := by
          rw [mag, hzero, zero_toNat, Nat.zero_mod]
        rw [if_pos hzero]
        refine returns_zero ?_ (above_zero hmag)
        rw [hmsb, zero_toNat, Nat.zero_mul]
      · have hpos : 0 < mag x := by
          by_contra hmag
          refine hzero (BitVec.eq_of_toNat_eq ?_)
          rw [toNat_eq, zero_toNat, hmsb]
          omega
        rw [if_neg hzero]
        refine returns_one ?_ (above_one hlt hpos)
        rw [hmsb, lits.one_eq, Nat.zero_mul, Nat.zero_add]
  · rw [if_neg hge, if_pos hexp]
    have hpos := Nat.two_pow_pos j
    by_cases hneg : x.toInt < 0
    · rw [if_neg (not_le.mpr hneg), if_pos ((toInt_lt_zero x).mp hneg)]
      refine hfrac.returns hmsk (by rwa [zero_toNat]) fun a => ?_
      rw [zero_toNat, Nat.add_zero]
      exact below_div a hpos
    · rw [if_pos (not_lt.mp hneg), if_neg (mt (toInt_lt_zero x).mpr hneg)]
      refine hfrac.returns hmsk (by omega) fun a => ?_
      rw [hmsk]
      exact above_div a hpos
  · rw [if_neg hge, if_neg hexp]
    refine returns_self hfin (fun n => ?_) hbig
    cases x.msb with
    | true => exact below_natCast n
    | false => exact above_natCast n

theorem truncBits_returns (hfin : IsFinite x) : Returns x (truncBits lits x) Below := by
  rw [truncBits]
  rcases exp_cases lits x with ⟨hlt, hexp⟩ | ⟨j, hfrac, hge, hexp, hmsk⟩ | ⟨hbig, hge, hexp⟩
  · rw [if_pos hexp]
    refine returns_zero ?_ (below_zero hlt)
    by_cases hneg : x.toInt < 0
    · rw [if_pos hneg, msb_toNat_of_neg hneg, lits.negZero_eq, Nat.one_mul]
    · rw [if_neg hneg, msb_toNat_of_not_neg hneg, zero_toNat, Nat.zero_mul]
  · have hpos := Nat.two_pow_pos j
    have hadd : addSigned x 0 = some x := by
      have h := (addSigned_eq (x := x) (y := 0) (by rw [zero_toNat]; exact mag_lt x)).1
      rwa [add_zero] at h
    have hret := hfrac.returns (P := Below) (c := 0) hmsk (by rwa [zero_toNat]) fun a => by
      rw [zero_toNat, Nat.add_zero]
      exact below_div a hpos
    rw [hadd] at hret
    rw [if_neg hge, if_pos hexp]
    exact hret
  · rw [if_neg hge, if_neg hexp]
    exact returns_self hfin below_natCast hbig

/-- Half of a unit, `1 + (msk >> 1)`. -/
theorem half_eq {j : ℕ} (hfrac : Fractional x j) {m : BitVec fmt.width}
    (hm : m.toNat = 2 ^ j - 1) :
    ∃ half, addSigned 1 (m.sshiftRight 1) = some half ∧ half.toNat = 2 ^ (j - 1) := by
  have hpow : 2 ^ j = 2 * 2 ^ (j - 1) := by
    rw [← Nat.pow_succ', Nat.succ_eq_add_one, Nat.sub_add_cancel hfrac.pos]
  have hpos := Nat.two_pow_pos (j - 1)
  have hle : 2 ^ j ≤ 2 ^ fmt.magBits :=
    Nat.pow_le_pow_right (by decide) hfrac.le_magBits
  have hmsb : m.msb = false := by
    rw [msb_eq, hm, decide_eq_false (by omega)]
  have hshift : (m.sshiftRight 1).toNat = 2 ^ (j - 1) - 1 := by
    rw [BitVec.sshiftRight_eq_of_msb_false hmsb, BitVec.toNat_ushiftRight,
      Nat.shiftRight_eq_div_pow, hm]
    omega
  have hwidth := two_pow_width fmt
  have hone : (1 : BitVec fmt.width).toNat = 1 := by
    have hlt : 1 < 2 ^ fmt.width := by
      omega
    exact Nat.mod_eq_of_lt hlt
  have hmag : mag (1 : BitVec fmt.width) ≤ 1 := by
    rw [mag, hone]
    exact Nat.mod_le _ _
  obtain ⟨hadd, -, -⟩ := addSigned_eq (x := (1 : BitVec fmt.width)) (y := m.sshiftRight 1)
    (by omega)
  refine ⟨_, hadd, ?_⟩
  rw [BitVec.toNat_add, hone, hshift, Nat.mod_eq_of_lt (by omega)]
  omega

theorem Fractional.returns_self {j : ℕ} (h : Fractional x j) (hfin : IsFinite x)
    (hmod : mag x % 2 ^ j = 0) (hP : ∀ n : ℕ, P n n) : Returns x (some x) P := by
  have hclear := fmt.magVal_clear h.le h.exp (Nat.two_pow_pos j)
  rw [Nat.add_zero, Nat.div_mul_cancel (Nat.dvd_of_mod_eq_zero hmod)] at hclear
  refine ⟨x, _, rfl, hfin, rfl, hclear, ?_⟩
  rw [hclear]
  exact hP _

theorem near_zero (h : expField x < fmt.bias - 1) : Near (fmt.magVal (mag x)) 0 := by
  have hhalf : fmt.magVal (mag x) < 1 / 2 := by
    rw [← fmt.magVal_half]
    exact fmt.magVal_strictMono ((Nat.div_lt_iff_lt_mul (Nat.two_pow_pos _)).mp h)
  have hnonneg := fmt.magVal_nonneg (mag x)
  constructor
  · push_cast
    linarith
  · push_cast
    linarith

theorem near_one (h : expField x = fmt.bias - 1) : Near (fmt.magVal (mag x)) 1 := by
  have hbias := fmt.two_le_bias
  have hone : fmt.magVal (mag x) < 1 := magVal_lt_one (by omega)
  have hhalf : 1 / 2 ≤ fmt.magVal (mag x) := by
    rw [← fmt.magVal_half, ← h]
    exact fmt.magVal_strictMono.monotone (Nat.div_mul_le_self _ _)
  constructor
  · push_cast
    linarith
  · push_cast
    linarith

theorem roundBits_returns (hfin : IsFinite x) : Returns x (roundBits lits x) Near := by
  have hbias := fmt.two_le_bias
  have hexpEq := expOf_eq lits x
  rw [roundBits]
  dsimp only
  rcases exp_cases lits x with ⟨hlt, hexp⟩ | ⟨j, hfrac, hge, hexp, hmsk⟩ | ⟨hbig, hge, hexp⟩
  · by_cases hsmall : expOf lits x < -1
    · rw [if_pos hsmall]
      have hmask : (~~~lits.signMask).toNat = 2 ^ fmt.magBits - 1 := by
        rw [BitVec.toNat_not, lits.signMask_eq, two_pow_width]
        omega
      obtain ⟨hmsb, hmag⟩ := clear_eq (x := x) hmask (le_refl _)
      rw [BitVec.not_not, Nat.div_eq_of_lt (mag_lt x), Nat.zero_mul] at hmag
      rw [BitVec.not_not] at hmsb
      refine returns_zero ?_ (near_zero (by omega))
      rw [toNat_eq, hmsb, hmag, Nat.add_zero]
    · have heq : expOf lits x = -1 := by omega
      rw [if_neg hsmall, if_pos heq]
      refine returns_one ?_ (near_one (by omega))
      by_cases hneg : x.toInt < 0
      · rw [if_pos hneg, msb_toNat_of_neg hneg, lits.negOne_eq, Nat.one_mul]
      · rw [if_neg hneg, msb_toNat_of_not_neg hneg, lits.one_eq, Nat.zero_mul, Nat.zero_add]
  · rw [if_neg (by omega), if_neg (by omega), if_pos hexp]
    by_cases hzero : x &&& fracMsk lits (expOf lits x) = 0
    · have hmod : mag x % 2 ^ j = 0 := by
        have hand := congrArg BitVec.toNat hzero
        rw [BitVec.toNat_and, hmsk, Nat.and_two_pow_sub_one_eq_mod, zero_toNat] at hand
        rw [mag, Nat.mod_mod_of_dvd _ (Nat.pow_dvd_pow 2 hfrac.le_magBits)]
        exact hand
      rw [if_neg (not_not.mpr hzero)]
      exact hfrac.returns_self hfin hmod near_natCast
    · obtain ⟨half, hhalf, hnat⟩ := half_eq hfrac hmsk
      have hpow : 2 ^ j = 2 * 2 ^ (j - 1) := by
        rw [← Nat.pow_succ', Nat.succ_eq_add_one, Nat.sub_add_cancel hfrac.pos]
      have hpos := Nat.two_pow_pos (j - 1)
      rw [if_pos hzero, hhalf]
      refine hfrac.returns hmsk (by omega) fun a => ?_
      rw [hnat, hpow]
      exact near_div a hpos
  · rw [if_neg (by omega), if_neg (by omega), if_neg hexp]
    exact returns_self hfin near_natCast hbig

end Returns

/-! ## Correctness -/

/-- A function on patterns rounds finite numbers to the integers that `R` relates to
them, with the sign of the argument on zeros, and returns everything else as it is. -/
structure RoundsTo {fmt : Format} (f : BitVec fmt.width → Option (BitVec fmt.width))
    (R : ℚ → ℤ → Prop) : Prop where
  finite : ∀ x, IsFinite x → ∃ r n, f x = some r ∧ IsFinite r ∧ val r = (n : ℤ) ∧
    R (val x) n ∧ (n = 0 → r.msb = x.msb)
  special : ∀ x, ¬IsFinite x → f x = some x
  idempotent : ∀ x r, f x = some r → f r = some r

section RoundsTo

variable {fmt : Format} {f : BitVec fmt.width → Option (BitVec fmt.width)}

theorem val_eq_signed (x : BitVec fmt.width) : val x = signed x.msb (fmt.magVal (mag x)) := rfl

theorem cast_signed (b : Bool) (n : ℕ) : ((signed b (n : ℤ) : ℤ) : ℚ) = signed b (n : ℚ) := by
  cases b with
  | true => simp [signed]
  | false => simp [signed]

theorem roundsTo_of_returns {P : Bool → ℚ → ℕ → Prop} {R : ℚ → ℤ → Prop}
    (hret : ∀ x, IsFinite x → Returns x (f x) (P x.msb))
    (hspecial : ∀ x, ¬IsFinite x → f x = some x)
    (hsigned : ∀ b v n, 0 ≤ v → P b v n → R (signed b v) (signed b (n : ℤ)))
    (hint : ∀ m n : ℤ, R m n → n = m) : RoundsTo f R := by
  have hval : ∀ x, IsFinite x → ∃ r n, f x = some r ∧ IsFinite r ∧ r.msb = x.msb ∧
      val r = (n : ℤ) ∧ R (val x) n := by
    intro x hfin
    obtain ⟨r, n, hr, hfinr, hmsb, hmag, hP⟩ := hret x hfin
    refine ⟨r, signed x.msb (n : ℤ), hr, hfinr, hmsb, ?_, ?_⟩
    · rw [val_eq_signed, hmsb, hmag, cast_signed]
    · rw [val_eq_signed]
      exact hsigned _ _ _ (fmt.magVal_nonneg _) hP
  refine ⟨?_, hspecial, ?_⟩
  · intro x hfin
    obtain ⟨r, n, hr, hfinr, hmsb, hvalr, hR⟩ := hval x hfin
    exact ⟨r, n, hr, hfinr, hvalr, hR, fun _ => hmsb⟩
  · intro x r hr
    by_cases hfin : IsFinite x
    · obtain ⟨r₁, n₁, hr₁, hfin₁, -, hval₁, -⟩ := hval x hfin
      obtain rfl : r = r₁ := Option.some.inj (hr.symm.trans hr₁)
      obtain ⟨r₂, n₂, hr₂, -, hmsb₂, hval₂, hR₂⟩ := hval r hfin₁
      rw [hval₁] at hR₂
      have hsame : r₂ = r := by
        refine eq_of_val_eq hmsb₂ ?_
        rw [hval₁, hval₂, hint _ _ hR₂]
      rw [hr₂, hsame]
    · obtain rfl : r = x := Option.some.inj (hr.symm.trans (hspecial x hfin))
      exact hr

variable (lits : FloatLits fmt)

/-- Infinities and NaNs take the branch of the integers. -/
theorem special_exp {x : BitVec fmt.width} (h : ¬IsFinite x) :
    ¬expOf lits x < 0 ∧ ¬expOf lits x < lits.shift := by
  have hexp := expOf_eq lits x
  have hmax : expField x = fmt.maxExp := not_not.mp h
  have hbias := fmt.bias_eq
  have hfrac := fmt.fracBits_le_bias
  have hshift := lits.shift_eq
  omega

theorem floorBits_roundsTo :
    RoundsTo (floorBits lits) (fun q n => IsGreatest {k : ℤ | (k : ℚ) ≤ q} n) := by
  refine roundsTo_of_returns (P := fun b => if b then Above else Below)
    (fun x hfin => floorBits_returns lits hfin) ?_ ?_ fun m n h => eq_of_isGreatest h
  · intro x h
    obtain ⟨hge, hexp⟩ := special_exp lits h
    rw [floorBits]
    dsimp only
    rw [if_neg hge, if_neg hexp]
  · intro b v n _ hP
    cases b with
    | true => exact Above.isGreatest_neg hP
    | false => exact Below.isGreatest hP

theorem ceilBits_roundsTo :
    RoundsTo (ceilBits lits) (fun q n => IsLeast {k : ℤ | q ≤ k} n) := by
  refine roundsTo_of_returns (P := fun b => if b then Below else Above)
    (fun x hfin => ceilBits_returns lits hfin) ?_ ?_ fun m n h => eq_of_isLeast h
  · intro x h
    obtain ⟨hge, hexp⟩ := special_exp lits h
    rw [ceilBits]
    dsimp only
    rw [if_neg hge, if_neg hexp]
  · intro b v n _ hP
    cases b with
    | true => exact Below.isLeast_neg hP
    | false => exact Above.isLeast hP

theorem Below.isTrunc {b : Bool} {v : ℚ} {n : ℕ} (hv : 0 ≤ v) (h : Below v n) :
    IsTrunc (signed b v) (signed b (n : ℤ)) := by
  have hzero : v ≤ 0 → n = 0 := by
    intro hle
    have hn : (n : ℚ) ≤ 0 := h.1.trans hle
    exact_mod_cast le_antisymm hn (Nat.cast_nonneg n)
  cases b with
  | true =>
      refine ⟨fun hge => ?_, fun _ => h.isLeast_neg⟩
      have hle : v ≤ 0 := neg_nonneg.mp hge
      obtain rfl := hzero hle
      obtain rfl : v = 0 := le_antisymm hle hv
      exact Above.isGreatest_neg (above_natCast 0)
  | false =>
      refine ⟨fun _ => h.isGreatest, fun hle => ?_⟩
      obtain rfl := hzero hle
      obtain rfl : v = 0 := le_antisymm hle hv
      exact Above.isLeast (above_natCast 0)

theorem truncBits_roundsTo : RoundsTo (truncBits lits) IsTrunc := by
  refine roundsTo_of_returns (P := fun _ => Below)
    (fun x hfin => truncBits_returns lits hfin) ?_ ?_ fun m n h => eq_of_isTrunc h
  · intro x h
    obtain ⟨hge, hexp⟩ := special_exp lits h
    rw [truncBits, if_neg hge, if_neg hexp]
  · intro b v n hv hP
    exact Below.isTrunc hv hP

theorem roundBits_roundsTo : RoundsTo (roundBits lits) IsNearest := by
  refine roundsTo_of_returns (P := fun _ => Near)
    (fun x hfin => roundBits_returns lits hfin) ?_ ?_ fun m n h => eq_of_isNearest h
  · intro x h
    obtain ⟨hge, hexp⟩ := special_exp lits h
    rw [roundBits]
    dsimp only
    rw [if_neg (by omega), if_neg (by omega), if_neg hexp]
  · intro b v n hv hP
    cases b with
    | true => exact (Near.isNearest hv hP).neg
    | false => exact Near.isNearest hv hP

end RoundsTo

/-- The eight functions round as their names say. -/
theorem rounding_correct :
    (@RoundsTo binary32 floorf (fun q n => IsGreatest {k : ℤ | (k : ℚ) ≤ q} n) ∧
      @RoundsTo binary32 ceilf (fun q n => IsLeast {k : ℤ | q ≤ k} n) ∧
      @RoundsTo binary32 truncf IsTrunc ∧
      @RoundsTo binary32 roundf IsNearest) ∧
    (@RoundsTo binary64 floor (fun q n => IsGreatest {k : ℤ | (k : ℚ) ≤ q} n) ∧
      @RoundsTo binary64 ceil (fun q n => IsLeast {k : ℤ | q ≤ k} n) ∧
      @RoundsTo binary64 trunc IsTrunc ∧
      @RoundsTo binary64 round IsNearest) :=
  ⟨⟨floorBits_roundsTo _, ceilBits_roundsTo _, truncBits_roundsTo _, roundBits_roundsTo _⟩,
    floorBits_roundsTo _, ceilBits_roundsTo _, truncBits_roundsTo _, roundBits_roundsTo _⟩

example : floorf 0xbf000000#32 = some 0xbf800000#32 := by decide

example : round 0x4047c00000000000#64 = some 0x4048000000000000#64 := by decide

end PollyInstrew.Client
