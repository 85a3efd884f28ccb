import Mathlib.Algebra.Group.Int.Defs
import Mathlib.Algebra.Group.Nat.Defs
import Mathlib.Data.List.Basic

/-!
# Byte-addressed memory of a 64-bit machine

Memory is a total function from 64-bit addresses to bytes; addresses wrap.
Block reads and writes, little-endian numbers, and the frame rules that say
which reads a write can affect.
-/

namespace PollyInstrew.ByteMemory

abbrev Addr := BitVec 64
abbrev Byte := BitVec 8
abbrev Mem := Addr → Byte

/-- `x` is one of the `n` bytes from `a` on (modulo `2 ^ 64`). -/
def InRange (a : Addr) (n : ℕ) (x : Addr) : Prop := (x - a).toNat < n

instance (a : Addr) (n : ℕ) (x : Addr) : Decidable (InRange a n x) :=
  inferInstanceAs (Decidable (_ < _))

/-- `memcpy` of the bytes `bs` to address `a`. -/
def writeBytes (m : Mem) (a : Addr) (bs : List Byte) : Mem :=
  fun x => bs[(x - a).toNat]?.getD (m x)

/-- The `n` bytes from address `a` on. -/
def readBytes (m : Mem) (a : Addr) (n : ℕ) : List Byte :=
  (List.range n).map fun i => m (a + BitVec.ofNat 64 i)

/-! ## Ranges -/

/-- A range that does not wrap is an interval of numbers. -/
theorem inRange_iff {a x : Addr} {n : ℕ} (h : a.toNat + n ≤ 2 ^ 64) :
    InRange a n x ↔ a.toNat ≤ x.toNat ∧ x.toNat < a.toNat + n := by
  have ha := a.isLt
  have hx := x.isLt
  unfold InRange
  rw [BitVec.toNat_sub]
  omega

theorem inRange_add {a : Addr} {n i : ℕ} (hi : i < n) (hn : n ≤ 2 ^ 64) :
    InRange a n (a + BitVec.ofNat 64 i) := by
  unfold InRange
  have hsub : a + BitVec.ofNat 64 i - a = BitVec.ofNat 64 i := by
    rw [BitVec.add_comm, BitVec.add_sub_cancel]
  rw [hsub, BitVec.toNat_ofNat]
  omega

theorem exists_of_inRange {a x : Addr} {n : ℕ} (h : InRange a n x) :
    ∃ i < n, x = a + BitVec.ofNat 64 i := by
  refine ⟨(x - a).toNat, h, ?_⟩
  rw [BitVec.ofNat_toNat, BitVec.setWidth_eq, BitVec.add_comm, BitVec.sub_add_cancel]

/-- When a range lies in another one. -/
theorem inRange_subset_iff {a b size : Addr} {n : ℕ} :
    (∀ x, InRange a n x → InRange b size.toNat x) ↔
      n = 0 ∨ (a - b).toNat + n ≤ size.toNat := by
  have hsize := size.isLt
  constructor
  · intro h
    by_contra hno
    have hn : n ≠ 0 ∧ size.toNat < (a - b).toNat + n := by omega
    have ha : (a - b).toNat < size.toNat := by
      refine h a ?_
      unfold InRange
      rw [BitVec.sub_self]
      exact Nat.pos_of_ne_zero hn.1
    have hsub : b + size - a = size - (a - b) := by
      bv_omega
    have hin : InRange a n (b + size) := by
      unfold InRange
      rw [hsub, BitVec.toNat_sub_of_le (BitVec.le_def.mpr (Nat.le_of_lt ha))]
      omega
    have hout := h _ hin
    unfold InRange at hout
    rw [BitVec.add_comm, BitVec.add_sub_cancel] at hout
    exact Nat.lt_irrefl _ hout
  · rintro (rfl | hle) x hx
    · exact absurd hx (Nat.not_lt_zero _)
    · unfold InRange at hx ⊢
      have hsum : x - b = (x - a) + (a - b) := by
        bv_omega
      rw [hsum, BitVec.toNat_add]
      omega

/-- Ranges given by offsets from a common base. -/
theorem inRange_offset {b : Addr} {p o n : ℕ} (hp : p + n ≤ 2 ^ 63) (ho : o < 2 ^ 63) :
    InRange (b + BitVec.ofNat 64 p) n (b + BitVec.ofNat 64 o) ↔ p ≤ o ∧ o < p + n := by
  have hsub : b + BitVec.ofNat 64 o - (b + BitVec.ofNat 64 p) =
      BitVec.ofNat 64 o - BitVec.ofNat 64 p := by
    bv_omega
  unfold InRange
  rw [hsub, BitVec.toNat_sub, BitVec.toNat_ofNat, BitVec.toNat_ofNat]
  omega

/-! ## Block reads and writes -/

@[simp] theorem length_readBytes (m : Mem) (a : Addr) (n : ℕ) :
    (readBytes m a n).length = n := by
  simp [readBytes]

theorem getElem_readBytes
    (m : Mem) (a : Addr) {n i : ℕ} (hi : i < (readBytes m a n).length) :
    (readBytes m a n)[i] = m (a + BitVec.ofNat 64 i) := by
  simp [readBytes]

/-- A read only depends on the bytes it covers. -/
theorem readBytes_congr {m m' : Mem} {a : Addr} {n : ℕ}
    (h : ∀ x, InRange a n x → m x = m' x) (hn : n ≤ 2 ^ 64) :
    readBytes m a n = readBytes m' a n := by
  apply List.map_congr_left
  intro i hi
  exact h _ (inRange_add (List.mem_range.mp hi) hn)

theorem readBytes_congr_add {m m' : Mem} {a : Addr} {n : ℕ}
    (h : ∀ i < n, m (a + BitVec.ofNat 64 i) = m' (a + BitVec.ofNat 64 i)) :
    readBytes m a n = readBytes m' a n := by
  apply List.map_congr_left
  intro i hi
  exact h i (List.mem_range.mp hi)

theorem writeBytes_of_not_inRange {m : Mem} {a x : Addr} {bs : List Byte}
    (h : ¬InRange a bs.length x) : writeBytes m a bs x = m x := by
  rw [writeBytes, List.getElem?_eq_none (Nat.le_of_not_lt h), Option.getD_none]

theorem writeBytes_add {m : Mem} {a : Addr} {bs : List Byte} {i : ℕ}
    (hi : i < bs.length) (hlen : bs.length ≤ 2 ^ 64) :
    writeBytes m a bs (a + BitVec.ofNat 64 i) = bs[i] := by
  have hsub : a + BitVec.ofNat 64 i - a = BitVec.ofNat 64 i := by
    rw [BitVec.add_comm, BitVec.add_sub_cancel]
  have hi' : (BitVec.ofNat 64 i).toNat = i := by
    rw [BitVec.toNat_ofNat]
    omega
  rw [writeBytes, hsub, hi', List.getElem?_eq_getElem hi, Option.getD_some]

theorem readBytes_writeBytes (m : Mem) (a : Addr) {bs : List Byte}
    (hlen : bs.length ≤ 2 ^ 64) :
    readBytes (writeBytes m a bs) a bs.length = bs := by
  apply List.ext_getElem
  · simp
  · intro i hi hi'
    rw [getElem_readBytes, writeBytes_add hi' hlen]

/-- A window that is copied to a buffer, changed in its first `n` bytes and copied
back changes in these bytes only. -/
theorem writeBack_of_not_inRange {m buf : Mem} {a b x : Addr} {n k : ℕ} (hk : k ≤ 2 ^ 64)
    (hbuf : ∀ d, n ≤ d → d < k → buf (b + BitVec.ofNat 64 d) = m (a + BitVec.ofNat 64 d))
    (hx : ¬InRange a n x) : writeBytes m a (readBytes buf b k) x = m x := by
  by_cases hin : InRange a k x
  · obtain ⟨d, hd, rfl⟩ := exists_of_inRange hin
    have hn : n ≤ d := by
      by_contra hlt
      have hd' : InRange a (d + 1) (a + BitVec.ofNat 64 d) :=
        inRange_add (Nat.lt_succ_self d) (by omega)
      exact hx (Nat.lt_of_lt_of_le hd' (by omega))
    rw [writeBytes_add (by simpa using hd) (by simpa using hk), getElem_readBytes, hbuf d hn hd]
  · exact writeBytes_of_not_inRange (by simpa using hin)

theorem writeBytes_append (m : Mem) (a : Addr) {xs ys : List Byte}
    (hlen : xs.length + ys.length ≤ 2 ^ 64) :
    writeBytes (writeBytes m a xs) (a + BitVec.ofNat 64 xs.length) ys =
      writeBytes m a (xs ++ ys) := by
  funext x
  have hoff : (x - (a + BitVec.ofNat 64 xs.length)).toNat =
      (2 ^ 64 - xs.length % 2 ^ 64 + (x - a).toNat) % 2 ^ 64 := by
    have hsub : x - (a + BitVec.ofNat 64 xs.length) = (x - a) - BitVec.ofNat 64 xs.length := by
      bv_omega
    rw [hsub, BitVec.toNat_sub, BitVec.toNat_ofNat]
  have hx := (x - a).isLt
  simp only [writeBytes]
  rw [hoff]
  by_cases hlt : (x - a).toNat < xs.length
  · rw [List.getElem?_append_left hlt, List.getElem?_eq_none (by omega), Option.getD_none]
  · rw [List.getElem?_append_right (by omega), List.getElem?_eq_none (Nat.le_of_not_lt hlt),
      Option.getD_none]
    congr 2
    omega

theorem readBytes_add (m : Mem) (a : Addr) (n k : ℕ) :
    readBytes m a (n + k) = readBytes m a n ++ readBytes m (a + BitVec.ofNat 64 n) k := by
  rw [readBytes, List.range_add, List.map_append, List.map_map]
  congr 1
  apply List.map_congr_left
  intro i _
  simp only [Function.comp_apply]
  rw [BitVec.ofNat_add, BitVec.add_assoc]

/-- A read of two adjacent blocks. -/
theorem readBytes_eq_append {m : Mem} {a : Addr} {xs ys : List Byte} :
    readBytes m a (xs.length + ys.length) = xs ++ ys ↔
      readBytes m a xs.length = xs ∧
        readBytes m (a + BitVec.ofNat 64 xs.length) ys.length = ys := by
  rw [readBytes_add]
  constructor
  · intro h
    exact List.append_inj h (length_readBytes _ _ _)
  · rintro ⟨hx, hy⟩
    rw [hx, hy]

/-- A read of part of a block. -/
theorem readBytes_slice {m : Mem} {a : Addr} {n : ℕ} {bs : List Byte}
    (h : readBytes m a n = bs) {k j : ℕ} (hk : k + j ≤ n) :
    readBytes m (a + BitVec.ofNat 64 k) j = (bs.drop k).take j := by
  obtain ⟨r, rfl⟩ := Nat.exists_eq_add_of_le hk
  rw [← h, Nat.add_assoc, readBytes_add, readBytes_add,
    List.drop_left' (length_readBytes _ _ _), List.take_left' (length_readBytes _ _ _)]

/-- A read of a table with entries of `n` bytes. -/
theorem readBytes_flatMap {α : Type*} {m : Mem} {n : ℕ} {f : α → List Byte}
    (hlen : ∀ x, (f x).length = n) :
    ∀ {l : List α} {a : Addr}, readBytes m a (n * l.length) = l.flatMap f →
      ∀ {i : ℕ} {x : α}, l[i]? = some x →
        readBytes m (a + BitVec.ofNat 64 (n * i)) n = f x := by
  intro l
  induction l with
  | nil =>
      intro a _ i x hx
      simp at hx
  | cons y l ih =>
      intro a h i x hx
      have hsplit : n * (y :: l).length = (f y).length + (l.flatMap f).length := by
        rw [List.length_flatMap, hlen]
        simp [hlen, Nat.mul_succ, Nat.add_comm, Nat.mul_comm]
      rw [hsplit, List.flatMap_cons] at h
      obtain ⟨hy, hl⟩ := readBytes_eq_append.mp h
      cases i with
      | zero =>
          obtain rfl : y = x := by simpa using hx
          rw [hlen] at hy
          simpa using hy
      | succ i =>
          have hrest : readBytes m (a + BitVec.ofNat 64 n) (n * l.length) = l.flatMap f := by
            have hlen' : (l.flatMap f).length = n * l.length := by
              rw [List.length_flatMap]
              simp [hlen, Nat.mul_comm]
            rw [hlen, hlen'] at hl
            exact hl
          have hi := ih hrest (i := i) (x := x) (by simpa using hx)
          rwa [BitVec.add_assoc, ← BitVec.ofNat_add, Nat.add_comm, ← Nat.mul_succ] at hi

/-! ## Little-endian numbers -/

/-- The number a little-endian byte string denotes. -/
def leNat : List Byte → ℕ
  | [] => 0
  | b :: bs => b.toNat + 256 * leNat bs

/-- The `n` low bytes of a number, least significant first. -/
def leBytes : ℕ → ℕ → List Byte
  | 0, _ => []
  | n + 1, v => BitVec.ofNat 8 v :: leBytes n (v / 256)

@[simp] theorem length_leBytes (n v : ℕ) : (leBytes n v).length = n := by
  induction n generalizing v with
  | zero => rfl
  | succ n ih => simp [leBytes, ih]

theorem leNat_leBytes (n v : ℕ) : leNat (leBytes n v) = v % 256 ^ n := by
  induction n generalizing v with
  | zero => simp [leBytes, leNat, Nat.mod_one]
  | succ n ih =>
      rw [leBytes, leNat, ih, Nat.pow_succ, Nat.mul_comm (256 ^ n) 256, Nat.mod_mul]
      exact congrArg (· + 256 * (v / 256 % 256 ^ n)) (BitVec.toNat_ofNat v 8)

theorem leNat_append (xs ys : List Byte) :
    leNat (xs ++ ys) = leNat xs + 256 ^ xs.length * leNat ys := by
  induction xs with
  | nil => simp [leNat]
  | cons x xs ih =>
      rw [List.cons_append, leNat, ih, leNat, List.length_cons, Nat.pow_succ, Nat.mul_add,
        Nat.add_assoc, Nat.mul_comm (256 ^ xs.length) 256, Nat.mul_assoc]

theorem leNat_lt (bs : List Byte) : leNat bs < 256 ^ bs.length := by
  induction bs with
  | nil => simp [leNat]
  | cons b bs ih =>
      have hb := b.isLt
      simp only [leNat, List.length_cons, Nat.pow_succ]
      omega

/-- A `w`-bit load. -/
def load (w : ℕ) (m : Mem) (a : Addr) : BitVec w :=
  BitVec.ofNat w (leNat (readBytes m a (w / 8)))

/-- A `w`-bit store. -/
def store (w : ℕ) (m : Mem) (a : Addr) (v : BitVec w) : Mem :=
  writeBytes m a (leBytes (w / 8) v.toNat)

theorem ofNat_leNat_leBytes {k : ℕ} (v : BitVec (8 * k)) :
    BitVec.ofNat (8 * k) (leNat (leBytes k v.toNat)) = v := by
  have hv := v.isLt
  have hpow : 2 ^ (8 * k) = 256 ^ k := by
    rw [Nat.pow_mul]
  apply BitVec.eq_of_toNat_eq
  rw [leNat_leBytes, BitVec.toNat_ofNat, ← hpow, Nat.mod_mod, Nat.mod_eq_of_lt hv]

theorem load_congr {w : ℕ} {m m' : Mem} {a : Addr} (hw : w / 8 ≤ 2 ^ 64)
    (h : ∀ x, InRange a (w / 8) x → m x = m' x) : load w m a = load w m' a := by
  rw [load, load, readBytes_congr h hw]

theorem load_of_readBytes {w v : ℕ} {m : Mem} {a : Addr} (hw : 8 * (w / 8) = w)
    (h : readBytes m a (w / 8) = leBytes (w / 8) v) : load w m a = BitVec.ofNat w v := by
  have hpow : 256 ^ (w / 8) = 2 ^ w := by
    rw [show (256 : ℕ) = 2 ^ 8 by decide, ← Nat.pow_mul, hw]
  rw [load, h, leNat_leBytes, hpow]
  apply BitVec.eq_of_toNat_eq
  rw [BitVec.toNat_ofNat, BitVec.toNat_ofNat, Nat.mod_mod]

/-- Loads at two places that hold the same bytes, at the same distance `f` from
a base address. -/
theorem load_add_congr {w : ℕ} {m m' : Mem} {a a' : Addr} (f : ℕ)
    (h : ∀ d, f ≤ d → d < f + w / 8 →
      m' (a' + BitVec.ofNat 64 d) = m (a + BitVec.ofNat 64 d)) :
    load w m' (a' + BitVec.ofNat 64 f) = load w m (a + BitVec.ofNat 64 f) := by
  have hbytes : readBytes m' (a' + BitVec.ofNat 64 f) (w / 8) =
      readBytes m (a + BitVec.ofNat 64 f) (w / 8) := by
    apply List.map_congr_left
    intro i hi
    rw [List.mem_range] at hi
    rw [BitVec.add_assoc, BitVec.add_assoc, ← BitVec.ofNat_add]
    exact h (f + i) (by omega) (by omega)
  rw [load, load, hbytes]

theorem load_toNat (k : ℕ) (m : Mem) (a : Addr) :
    (load (8 * k) m a).toNat = leNat (readBytes m a k) := by
  have hlt := leNat_lt (readBytes m a k)
  have hpow : 2 ^ (8 * k) = 256 ^ k := by
    rw [Nat.pow_mul]
  have hdiv : 8 * k / 8 = k := by omega
  rw [length_readBytes, ← hpow] at hlt
  rw [load, hdiv, BitVec.toNat_ofNat, Nat.mod_eq_of_lt hlt]

/-- The bytes of a word are its fields. -/
theorem extract_load {m : Mem} {a : Addr} {l k n : ℕ} (h : k + n ≤ l) :
    (load (8 * l) m a).extractLsb' (8 * k) (8 * n) = load (8 * n) m (a + BitVec.ofNat 64 k) := by
  obtain ⟨r, rfl⟩ := Nat.exists_eq_add_of_le h
  have hpow : ∀ j, 2 ^ (8 * j) = 256 ^ j := by
    intro j
    rw [Nat.pow_mul]
  have hk := leNat_lt (readBytes m a k)
  have hn := leNat_lt (readBytes m (a + BitVec.ofNat 64 k) n)
  rw [length_readBytes] at hk hn
  apply BitVec.eq_of_toNat_eq
  rw [BitVec.extractLsb'_toNat, load_toNat, load_toNat, Nat.shiftRight_eq_div_pow, hpow, hpow,
    Nat.add_assoc, readBytes_add, readBytes_add, leNat_append, length_readBytes,
    Nat.add_mul_div_left _ _ (Nat.pow_pos (by decide)), Nat.div_eq_of_lt hk, Nat.zero_add,
    leNat_append, length_readBytes, Nat.add_mul_mod_self_left, Nat.mod_eq_of_lt hn]

theorem load_byte (m : Mem) (a : Addr) : load 8 m a = m a := by
  simp [load, readBytes, leNat]

theorem store_of_not_inRange {w : ℕ} {m : Mem} {a x : Addr} {v : BitVec w}
    (h : ¬InRange a (w / 8) x) : store w m a v x = m x :=
  writeBytes_of_not_inRange (by simpa using h)

theorem load_store_64 (m : Mem) (a : Addr) (v : BitVec 64) :
    load 64 (store 64 m a v) a = v := by
  have hread : readBytes (writeBytes m a (leBytes 8 v.toNat)) a
      (leBytes 8 v.toNat).length = leBytes 8 v.toNat :=
    readBytes_writeBytes m a (by simp)
  rw [length_leBytes] at hread
  rw [load, store, hread]
  exact ofNat_leNat_leBytes (k := 8) v

theorem load_store_32 (m : Mem) (a : Addr) (v : BitVec 32) :
    load 32 (store 32 m a v) a = v := by
  have hread : readBytes (writeBytes m a (leBytes 4 v.toNat)) a
      (leBytes 4 v.toNat).length = leBytes 4 v.toNat :=
    readBytes_writeBytes m a (by simp)
  rw [length_leBytes] at hread
  rw [load, store, hread]
  exact ofNat_leNat_leBytes (k := 4) v

end PollyInstrew.ByteMemory
