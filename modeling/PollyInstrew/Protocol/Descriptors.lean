import PollyInstrew.Support.ByteMemory

/-!
# The descriptors on the client's command line

`Conn::CreateFork` starts the client with the descriptors of its two pipes, in one word
that is written in octal, least significant digit first.  `translator_init` puts the word
together again.
-/

namespace PollyInstrew.Protocol

open PollyInstrew.ByteMemory

/-! ## The server writes -/

/-- `(uint64_t) pipes[0] | (uint64_t) pipes[3] << 32`. -/
def rawFds (rd wr : BitVec 32) : BitVec 64 :=
  rd.signExtend 64 ||| wr.signExtend 64 <<< 32

theorem toNat_shiftRight_lt {raw : BitVec 64} (h : raw ≠ 0) : (raw >>> 3).toNat < raw.toNat := by
  have hpos : raw.toNat ≠ 0 := fun h0 => h (BitVec.eq_of_toNat_eq h0)
  rw [BitVec.toNat_ushiftRight, Nat.shiftRight_eq_div_pow]
  omega

/-- `for (; raw_fds; raw_fds >>= 3)`. -/
def clientConfig (raw : BitVec 64) : List Byte :=
  if raw = 0 then [] else (48 + (raw &&& 7).setWidth 8) :: clientConfig (raw >>> 3)
termination_by raw.toNat
decreasing_by exact toNat_shiftRight_lt ‹_›

/-! ## The client reads -/

structure Fds where
  rdFd : BitVec 32
  wrFd : BitVec 32
  deriving DecidableEq

/-- The loop of `translator_init` from index `i` on, over the bytes that are in memory. -/
def readFds (i : ℕ) (fdsRaw : BitVec 64) : List Byte → BitVec 64
  | [] => fdsRaw
  | c :: bytes =>
      if c = 0 then fdsRaw
      else readFds (i + 1) (fdsRaw ||| ((c - 48) &&& 7).setWidth 64 <<< (3 * i % 64)) bytes

def translatorInit (serverConfig : List Byte) : Fds :=
  let fdsRaw := readFds 0 0 serverConfig
  ⟨fdsRaw.setWidth 32, (fdsRaw >>> 32).setWidth 32⟩

/-! ## Round trip -/

theorem and_seven (raw : BitVec 64) : raw &&& 7 = (raw.setWidth 3).setWidth 64 := by
  apply BitVec.eq_of_toNat_eq
  rw [BitVec.toNat_and, BitVec.toNat_setWidth, BitVec.toNat_setWidth]
  have hand : raw.toNat &&& 7 = raw.toNat % 8 := Nat.and_two_pow_sub_one_eq_mod _ 3
  change raw.toNat &&& 7 = raw.toNat % 8 % 2 ^ 64
  omega

/-- A digit is no terminator and is read back. -/
theorem digit_read (raw : BitVec 64) :
    48 + (raw &&& 7).setWidth 8 ≠ (0 : Byte) ∧
      (((48 + (raw &&& 7).setWidth 8 : Byte) - 48) &&& 7).setWidth 64 = raw &&& 7 := by
  have hall : ∀ d : BitVec 3, 48 + (d.setWidth 64).setWidth 8 ≠ (0 : Byte) ∧
      (((48 + (d.setWidth 64).setWidth 8 : Byte) - 48) &&& 7).setWidth 64 = d.setWidth 64 := by
    decide
  rw [and_seven]
  exact hall (raw.setWidth 3)

theorem digit_or_rest (raw : BitVec 64) :
    (raw &&& (7 : BitVec 64)) ||| (raw >>> 3) <<< 3 = raw := by
  ext j hj
  rw [and_seven]
  by_cases hlt : j < 3
  · simp [hlt, BitVec.getLsbD_eq_getElem hj]
  · have hback : 3 + (j - 3) = j := by omega
    simp [hlt, hback, BitVec.getLsbD_eq_getElem hj]

/-- The digits of a word whose bits all have their place from index `i` on. -/
theorem readFds_clientConfig (rest : List Byte) (raw : BitVec 64) :
    ∀ (i : ℕ) (fdsRaw : BitVec 64), raw.toNat * 2 ^ (3 * i) < 2 ^ 64 →
      readFds i fdsRaw (clientConfig raw ++ 0 :: rest) = fdsRaw ||| raw <<< (3 * i) := by
  induction raw using clientConfig.induct with
  | case1 =>
      intro i fdsRaw _
      simp [clientConfig, readFds]
  | case2 raw hne ih =>
      intro i fdsRaw hfit
      have hplace : 3 * i < 64 := by
        have hpos : 1 ≤ raw.toNat := Nat.one_le_iff_ne_zero.mpr fun h0 =>
          hne (BitVec.eq_of_toNat_eq h0)
        have hpow : 2 ^ (3 * i) < 2 ^ 64 :=
          Nat.lt_of_le_of_lt (Nat.le_mul_of_pos_left _ hpos) hfit
        exact (Nat.pow_lt_pow_iff_right (by decide)).mp hpow
      have hnext : (raw >>> 3).toNat * 2 ^ (3 * (i + 1)) < 2 ^ 64 := by
        have hdiv : raw.toNat / 8 * 8 * 2 ^ (3 * i) ≤ raw.toNat * 2 ^ (3 * i) :=
          Nat.mul_le_mul_right _ (Nat.div_mul_le_self _ 8)
        rw [BitVec.toNat_ushiftRight, Nat.shiftRight_eq_div_pow, Nat.mul_succ, Nat.pow_add,
          Nat.mul_comm (2 ^ (3 * i)), ← Nat.mul_assoc]
        exact Nat.lt_of_le_of_lt hdiv hfit
      rw [clientConfig, if_neg hne, List.cons_append, readFds, if_neg (digit_read raw).1,
        (digit_read raw).2, ih (i + 1) _ hnext, Nat.mod_eq_of_lt hplace, BitVec.or_assoc,
        Nat.mul_succ, Nat.add_comm, BitVec.shiftLeft_add, ← BitVec.shiftLeft_or_distrib,
        digit_or_rest]

/-- The client gets the descriptors that the server has passed. -/
theorem descriptors_survive (rd wr : BitVec 32) (hrd : 0 ≤ rd.toInt) (rest : List Byte) :
    translatorInit (clientConfig (rawFds rd wr) ++ 0 :: rest) = ⟨rd, wr⟩ := by
  have hmsb : rd.msb = false := by
    rw [BitVec.msb_eq_toInt, decide_eq_false_iff_not]
    omega
  have hfit : (rawFds rd wr).toNat * 2 ^ (3 * 0) < 2 ^ 64 := by
    rw [Nat.mul_zero, Nat.pow_zero, Nat.mul_one]
    exact BitVec.isLt _
  rw [translatorInit, readFds_clientConfig rest _ 0 0 hfit]
  simp only [Nat.mul_zero, BitVec.shiftLeft_zero, BitVec.ofNat_eq_ofNat, BitVec.zero_or,
    Fds.mk.injEq]
  constructor
  · ext j hj
    have hlt : j < 64 := by omega
    simp [rawFds, BitVec.getElem_signExtend, hlt, hj]
  · ext j hj
    have hlt : j < 64 := by omega
    have hhigh : 32 + j < 64 := by omega
    have hover : ¬32 + j < 32 := by omega
    simp [rawFds, BitVec.getElem_signExtend, hlt, hj, hhigh, hover, hmsb]

theorem descriptors_survive_zero_seven :
    translatorInit (clientConfig (rawFds 0 7) ++ [0]) = ⟨0, 7⟩ :=
  descriptors_survive 0 7 (by decide) []

end PollyInstrew.Protocol
