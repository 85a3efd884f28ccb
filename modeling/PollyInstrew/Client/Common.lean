import PollyInstrew.Support.ByteMemory

/-!
# Common definitions of the client

Machine words, the error numbers the client returns, error pointers and the
alignment macros of `common.h`.
-/

namespace PollyInstrew.Client

export PollyInstrew.ByteMemory (Byte Mem)

/-- A 64-bit machine word: `uintptr_t`, `uint64_t` and `size_t` of the client. -/
abbrev Word := BitVec 64

def ENOENT : ℤ := 2
def EIO : ℤ := 5
def ENOMEM : ℤ := 12
def EFAULT : ℤ := 14
def EEXIST : ℤ := 17
def EINVAL : ℤ := 22
def ENOSPC : ℤ := 28
def EPROTO : ℤ := 71

/-- A negative error number stored in a pointer, `(void*) (uintptr_t) -e`. -/
def errPtr (e : ℤ) : Word := BitVec.ofInt 64 e

/-- `BAD_ADDR(a)`. -/
def badAddr (a : Word) : Bool := 0xfffffffffffff000#64 < a

/-- `(int) (uintptr_t) ptr`, the error number taken out of a pointer. -/
def ptrInt (a : Word) : ℤ := (a.setWidth 32).toInt

/-- `ALIGN_DOWN(v, a)`. -/
def alignDown (v a : Word) : Word := v &&& ~~~(a - 1)

/-- `ALIGN_UP(v, a)`. -/
def alignUp (v a : Word) : Word := (v + (a - 1)) &&& ~~~(a - 1)

/-! ## Alignment to powers of two -/

theorem and_not_eq_sub {w : ℕ} (x m : BitVec w) : x &&& ~~~m = x - (x &&& m) := by
  have hdisj : (x &&& ~~~m) &&& (x &&& m) = 0#w := by
    ext i hi
    simp only [BitVec.getElem_and, BitVec.getElem_not, BitVec.getElem_zero]
    cases m[i] <;> simp
  have hsum : (x &&& ~~~m) + (x &&& m) = x := by
    rw [BitVec.add_eq_or_of_and_eq_zero _ _ hdisj]
    ext i hi
    simp only [BitVec.getElem_or, BitVec.getElem_and, BitVec.getElem_not]
    cases x[i] <;> simp
  calc
    x &&& ~~~m = (x &&& ~~~m) + (x &&& m) - (x &&& m) := by
      rw [BitVec.add_sub_cancel]
    _ = x - (x &&& m) := by rw [hsum]

theorem and_sub_one_toNat {a : Word} {k : ℕ} (ha : a.toNat = 2 ^ k) (x : Word) :
    (x &&& (a - 1)).toNat = x.toNat % 2 ^ k := by
  have hpos : 0 < 2 ^ k := Nat.two_pow_pos k
  have hlt := a.isLt
  have hsub : (a - 1).toNat = 2 ^ k - 1 := by
    rw [BitVec.toNat_sub]
    simp only [BitVec.ofNat_eq_ofNat, BitVec.toNat_ofNat, ha]
    omega
  rw [BitVec.toNat_and, hsub, Nat.and_two_pow_sub_one_eq_mod]

theorem alignDown_toNat {a : Word} {k : ℕ} (ha : a.toNat = 2 ^ k) (x : Word) :
    (alignDown x a).toNat = x.toNat - x.toNat % 2 ^ k := by
  have hmod := Nat.mod_le x.toNat (2 ^ k)
  have hx := x.isLt
  rw [alignDown, and_not_eq_sub, BitVec.toNat_sub, and_sub_one_toNat ha]
  omega

/-- The least multiple of `n` that is not below `x`. -/
def roundUp (x n : ℕ) : ℕ := x + (n - 1) - (x + (n - 1)) % n

theorem roundUp_spec {x n : ℕ} (hn : 0 < n) :
    x ≤ roundUp x n ∧ roundUp x n < x + n ∧ roundUp x n % n = 0 := by
  have hlt := Nat.mod_lt (x + (n - 1)) hn
  have hle := Nat.mod_le (x + (n - 1)) n
  refine ⟨?_, ?_, ?_⟩
  · unfold roundUp
    omega
  · unfold roundUp
    omega
  · exact Nat.sub_mod_eq_zero_of_mod_eq (Nat.mod_mod _ _).symm

/-- Rounding up is exact as long as the result is an address. -/
theorem alignUp_toNat {a x : Word} {k : ℕ} (ha : a.toNat = 2 ^ k)
    (hfit : roundUp x.toNat (2 ^ k) < 2 ^ 64) :
    (alignUp x a).toNat = roundUp x.toNat (2 ^ k) := by
  have hpos : 0 < 2 ^ k := Nat.two_pow_pos k
  have hlt := a.isLt
  have hsum : x.toNat + (2 ^ k - 1) < 2 ^ 64 := by
    by_contra hwrap
    obtain ⟨r, hr⟩ := Nat.exists_eq_add_of_le (Nat.le_of_not_lt hwrap)
    have hdvd : 2 ^ k ∣ 2 ^ 64 := by
      refine Nat.pow_dvd_pow 2 ?_
      rw [ha] at hlt
      exact Nat.le_of_lt ((Nat.pow_lt_pow_iff_right (by decide)).mp hlt)
    have hmod : (2 ^ 64 + r) % 2 ^ k = r % 2 ^ k := by
      rw [Nat.add_mod, Nat.mod_eq_zero_of_dvd hdvd, Nat.zero_add, Nat.mod_mod]
    have hle := Nat.mod_le r (2 ^ k)
    rw [roundUp, hr, hmod] at hfit
    omega
  have hadd : (x + (a - 1)).toNat = x.toNat + (2 ^ k - 1) := by
    have hx := x.isLt
    rw [BitVec.toNat_add, BitVec.toNat_sub]
    simp only [BitVec.ofNat_eq_ofNat, BitVec.toNat_ofNat, ha]
    omega
  rw [roundUp, ← hadd]
  exact alignDown_toNat ha _

/-- Rounding up yields a multiple, even if it wraps around. -/
theorem alignUp_mod {a : Word} {k : ℕ} (ha : a.toNat = 2 ^ k) (x : Word) :
    (alignUp x a).toNat % 2 ^ k = 0 := by
  have h := alignDown_toNat ha (x + (a - 1))
  rw [alignDown] at h
  rw [alignUp, h]
  exact Nat.sub_mod_eq_zero_of_mod_eq (Nat.mod_mod _ _).symm

/-- Rounding up stays within one alignment unit and reaches a multiple. -/
theorem alignUp_spec {a x : Word} {k : ℕ} (ha : a.toNat = 2 ^ k)
    (hfit : x.toNat + 2 ^ k ≤ 2 ^ 64) :
    x.toNat ≤ (alignUp x a).toNat ∧ (alignUp x a).toNat < x.toNat + 2 ^ k ∧
      (alignUp x a).toNat % 2 ^ k = 0 := by
  have hspec := roundUp_spec (x := x.toNat) (Nat.two_pow_pos k)
  rw [alignUp_toNat ha (by omega)]
  exact hspec

end PollyInstrew.Client
