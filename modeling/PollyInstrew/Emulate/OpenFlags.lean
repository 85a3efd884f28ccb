import Mathlib.Tactic.IntervalCases
import PollyInstrew.Client.Common

/-!
# Flags of `openat`

Four flags of `openat` have other values on AArch64 than on the other
architectures.  `emulate_aarch64_syscall` turns the flags of an AArch64 guest into
the common ones, and `emulate_openat_flags` turns the common ones into those of an
AArch64 host.  Both exchange the same two pairs of bits.
-/

namespace PollyInstrew.Emulate

open PollyInstrew.Client

/-! ## The mappings -/

/-- The flags as the header of an AArch64 host defines them. -/
def ODIRECTORY : BitVec 32 := 0o040000
def ONOFOLLOW : BitVec 32 := 0o100000
def ODIRECT : BitVec 32 := 0o200000
def OLARGEFILE : BitVec 32 := 0o400000

/-- `if (flags & bit) res |= flag;` -/
def orIf {w : ℕ} (flags bit flag res : BitVec w) : BitVec w :=
  if flags &&& bit ≠ 0 then res ||| flag else res

/-- `emulate_openat_flags`, on an AArch64 host. -/
def emulateOpenatFlags (uapiFlags : BitVec 32) : BitVec 32 :=
  let res := uapiFlags &&& ~~~0o0740000
  let res := orIf uapiFlags 0o0040000 ODIRECT res
  let res := orIf uapiFlags 0o0100000 OLARGEFILE res
  let res := orIf uapiFlags 0o0200000 ODIRECTORY res
  orIf uapiFlags 0o0400000 ONOFOLLOW res

/-- The flags that `emulate_aarch64_syscall` passes on, from the register `a2`. -/
def aarch64OpenatFlags (a2 : Word) : Word :=
  let newA2 := a2 &&& ~~~0o0740000
  let newA2 := orIf a2 0o0040000 0o0200000 newA2
  let newA2 := orIf a2 0o0100000 0o0400000 newA2
  let newA2 := orIf a2 0o0200000 0o0040000 newA2
  orIf a2 0o0400000 0o0100000 newA2

/-- `emulate_aarch64_syscall` on a flag word. -/
def guestOpenatFlags (flags : BitVec 32) : BitVec 32 :=
  (aarch64OpenatFlags (flags.setWidth 64)).setWidth 32

/-! ## Bits -/

/-- The bits that change places. -/
def swapBit (i : ℕ) : ℕ :=
  if i = 14 then 16 else if i = 15 then 17 else if i = 16 then 14 else if i = 17 then 15 else i

theorem swapBit_swapBit (i : ℕ) : swapBit (swapBit i) = i := by
  unfold swapBit
  split_ifs <;> omega

theorem swapBit_lt {i : ℕ} (h : i < 32) : swapBit i < 32 := by
  unfold swapBit
  split_ifs <;> omega

/-- A mapping moves the bits of the four flags and keeps the others. -/
def Swaps {w : ℕ} (f : BitVec w → BitVec w) : Prop :=
  ∀ flags i, i < w → (f flags).getLsbD i = flags.getLsbD (swapBit i)

theorem and_twoPow_ne_zero {w k : ℕ} (hk : k < w) (x : BitVec w) :
    x &&& BitVec.twoPow w k ≠ 0 ↔ x.getLsbD k = true := by
  rw [BitVec.and_twoPow]
  cases x.getLsbD k with
  | true =>
      have hne : BitVec.twoPow w k ≠ 0 := by
        intro h
        have hbit := congrArg (fun y : BitVec w => y.getLsbD k) h
        simp [hk] at hbit
      simpa using hne
  | false => simp

theorem getLsbD_orIf {w k : ℕ} (hk : k < w) (flags flag res : BitVec w) (i : ℕ) :
    (orIf flags (BitVec.twoPow w k) flag res).getLsbD i =
      (res.getLsbD i || (flags.getLsbD k && flag.getLsbD i)) := by
  rw [orIf]
  by_cases h : flags &&& BitVec.twoPow w k ≠ 0
  · rw [if_pos h, BitVec.getLsbD_or, (and_twoPow_ne_zero hk flags).mp h, Bool.true_and]
  · have hbit : flags.getLsbD k = false :=
      Bool.eq_false_iff.mpr (mt (and_twoPow_ne_zero hk flags).mpr h)
    rw [if_neg h, hbit, Bool.false_and, Bool.or_false]

/-- Four flags that are moved one after the other. -/
theorem swaps_of_orIf {w : ℕ} (hw : 18 ≤ w) {clear : BitVec w}
    (hclear : ∀ i, i < w → clear.getLsbD i = decide (14 ≤ i ∧ i ≤ 17)) :
    Swaps fun flags : BitVec w =>
      orIf flags (.twoPow w 17) (.twoPow w 15) (orIf flags (.twoPow w 16) (.twoPow w 14)
        (orIf flags (.twoPow w 15) (.twoPow w 17) (orIf flags (.twoPow w 14) (.twoPow w 16)
          (flags &&& ~~~clear)))) := by
  intro flags i hi
  have hbit : ∀ k, k < w → (BitVec.twoPow w k).getLsbD i = decide (k = i) := by
    intro k hk
    rw [BitVec.getLsbD_twoPow, decide_eq_true hk, Bool.true_and]
  dsimp only
  rw [getLsbD_orIf (by omega), getLsbD_orIf (by omega), getLsbD_orIf (by omega),
    getLsbD_orIf (by omega), BitVec.getLsbD_and, BitVec.getLsbD_not, hclear i hi,
    hbit 14 (by omega), hbit 15 (by omega), hbit 16 (by omega), hbit 17 (by omega),
    decide_eq_true hi]
  by_cases h14 : i = 14
  · subst h14
    simp [swapBit]
  by_cases h15 : i = 15
  · subst h15
    simp [swapBit]
  by_cases h16 : i = 16
  · subst h16
    simp [swapBit]
  by_cases h17 : i = 17
  · subst h17
    simp [swapBit]
  have hout : ¬(14 ≤ i ∧ i ≤ 17) := by omega
  simp [swapBit, h14, h15, h16, h17, hout, Ne.symm h14, Ne.symm h15, Ne.symm h16, Ne.symm h17]

theorem swaps_emulateOpenatFlags : Swaps emulateOpenatFlags :=
  swaps_of_orIf (w := 32) (by decide) (by decide)

theorem swaps_aarch64OpenatFlags : Swaps aarch64OpenatFlags :=
  swaps_of_orIf (w := 64) (by decide) (by decide)

theorem swaps_guestOpenatFlags : Swaps guestOpenatFlags := by
  intro flags i hi
  have hswap := swapBit_lt hi
  rw [guestOpenatFlags, BitVec.getLsbD_setWidth, swaps_aarch64OpenatFlags _ i (by omega),
    BitVec.getLsbD_setWidth, decide_eq_true hi, decide_eq_true (show swapBit i < 64 by omega),
    Bool.true_and, Bool.true_and]

/-- Two such mappings undo each other. -/
theorem Swaps.cancel {f g : BitVec 32 → BitVec 32} (hf : Swaps f) (hg : Swaps g) :
    Function.LeftInverse f g := by
  intro flags
  refine BitVec.eq_of_getLsbD_eq fun i hi => ?_
  rw [hf _ i hi, hg _ _ (swapBit_lt hi), swapBit_swapBit]

theorem Swaps.bijective {f : BitVec 32 → BitVec 32} (hf : Swaps f) : Function.Bijective f :=
  ⟨(hf.cancel hf).injective, (hf.cancel hf).surjective⟩

end PollyInstrew.Emulate
