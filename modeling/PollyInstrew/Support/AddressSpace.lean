import PollyInstrew.Support.ByteMemory

/-!
# Virtual address spaces

An address space says for every address whether it is mapped, with which
protection, and what it holds.  The operations replace the mapping of a range,
remove it, change its protection or store bytes into it; for each there is a
rule for the contents, a rule for the protection and a frame rule.
-/

namespace PollyInstrew.AddressSpace

open PollyInstrew.ByteMemory

variable {s s' : Space} {a x : Addr} {n : ℕ}

structure Prot where
  read : Bool
  write : Bool
  deriving DecidableEq

/-- A mapped address.  An address in a page behind the end of the mapped file
holds no byte, and accesses to it fail. -/
structure Cell where
  prot : Prot
  byte : Option Byte
  deriving DecidableEq

abbrev Space := Addr → Option Cell

namespace Space

def byteAt (s : Space) (x : Addr) : Option Byte := (s x).bind Cell.byte

def protAt (s : Space) (x : Addr) : Option Prot := (s x).map Cell.prot

/-- Map the `n` addresses from `a` on. -/
def map (s : Space) (a : Addr) (n : ℕ) (prot : Prot) (content : ℕ → Option Byte) : Space :=
  fun x => if InRange a n x then some ⟨prot, content (x - a).toNat⟩ else s x

def unmap (s : Space) (a : Addr) (n : ℕ) : Space :=
  fun x => if InRange a n x then none else s x

def protect (s : Space) (a : Addr) (n : ℕ) (prot : Prot) : Space :=
  fun x => if InRange a n x then (s x).map fun c => ⟨prot, c.byte⟩ else s x

/-- A store to `x` does not fail. -/
def writable (s : Space) (x : Addr) : Bool :=
  match s x with
  | some c => c.prot.write && c.byte.isSome
  | none => false

def store (s : Space) (a : Addr) (b : Byte) : Space :=
  fun x => if x = a then (s x).map fun c => ⟨c.prot, some b⟩ else s x

/-- Store `b` to the `n` addresses from `a` on; `none` if one of the stores fails. -/
def fill (s : Space) (b : Byte) (a : Addr) : ℕ → Option Space
  | 0 => some s
  | n + 1 => if s.writable a then fill (s.store a b) b (a + 1) n else none

/-! ## Frame rules -/

theorem map_of_not_inRange (h : ¬InRange a n x) (prot : Prot) (content : ℕ → Option Byte) :
    s.map a n prot content x = s x :=
  if_neg h

theorem unmap_of_not_inRange (h : ¬InRange a n x) :
    s.unmap a n x = s x :=
  if_neg h

theorem protect_of_not_inRange (h : ¬InRange a n x) (prot : Prot) : s.protect a n prot x = s x :=
  if_neg h

theorem inRange_succ (hn : n + 1 ≤ 2 ^ 64) :
    InRange a (n + 1) x ↔ x = a ∨ InRange (a + 1) n x := by
  unfold InRange
  constructor
  · intro h
    by_cases hx : x = a
    · exact .inl hx
    · right
      bv_omega
  · rintro (rfl | h)
    · rw [BitVec.sub_self]
      exact Nat.succ_pos n
    · bv_omega

theorem fill_apply (b : Byte) :
    ∀ (n : ℕ) {s s' : Space} {a : Addr}, n ≤ 2 ^ 64 → s.fill b a n = some s' → ∀ x,
      s' x = if InRange a n x then (s x).map fun c => ⟨c.prot, some b⟩ else s x := by
  intro n
  induction n with
  | zero =>
      intro s s' a _ hfill x
      obtain rfl := Option.some.inj hfill
      exact (if_neg (Nat.not_lt_zero _)).symm
  | succ n ih =>
      intro s s' a hn hfill x
      rw [fill] at hfill
      split at hfill
      · rw [ih (by omega) hfill x, store]
        by_cases hx : x = a
        · rw [if_pos hx, if_pos ((inRange_succ hn).mpr (.inl hx))]
          cases s x with
          | none => simp
          | some c => simp
        · rw [if_neg hx]
          have hiff : InRange a (n + 1) x ↔ InRange (a + 1) n x := by
            rw [inRange_succ hn, or_iff_right hx]
          rw [if_congr hiff rfl rfl]
      · exact absurd hfill (by simp)

theorem fill_of_not_inRange {b : Byte} (hn : n ≤ 2 ^ 64) (hfill : s.fill b a n = some s')
    (h : ¬InRange a n x) : s' x = s x := by
  rw [fill_apply b n hn hfill, if_neg h]

/-! ## Contents and protection -/

theorem byteAt_congr (h : s' x = s x) : s'.byteAt x = s.byteAt x := by
  rw [byteAt, byteAt, h]

theorem protAt_congr (h : s' x = s x) : s'.protAt x = s.protAt x := by
  rw [protAt, protAt, h]

theorem byteAt_map (h : InRange a n x) (prot : Prot) (content : ℕ → Option Byte) :
    (s.map a n prot content).byteAt x = content (x - a).toNat := by
  rw [byteAt, map, if_pos h]
  rfl

theorem protAt_map (h : InRange a n x) (prot : Prot) (content : ℕ → Option Byte) :
    (s.map a n prot content).protAt x = some prot := by
  rw [protAt, map, if_pos h]
  rfl

theorem byteAt_protect (s : Space) (a x : Addr) (n : ℕ) (prot : Prot) :
    (s.protect a n prot).byteAt x = s.byteAt x := by
  rw [byteAt, protect, byteAt]
  split
  · cases s x with
    | none => rfl
    | some c => rfl
  · rfl

theorem protAt_protect (h : InRange a n x) (prot : Prot) :
    (s.protect a n prot).protAt x = (s.protAt x).map fun _ => prot := by
  rw [protAt, protect, if_pos h, protAt]
  cases s x with
  | none => rfl
  | some c => rfl

/-- Changing the protection of a range and changing it back. -/
theorem protAt_protect_of_eq {prot : Prot} (h : s.protAt x = some prot) (temporary : Prot)
    (hs' : s'.protAt x = (s.protect a n temporary).protAt x) :
    (s'.protect a n prot).protAt x = some prot := by
  by_cases hx : InRange a n x
  · rw [protAt_protect hx, hs', protAt_protect hx, h]
    rfl
  · rw [protAt_congr (protect_of_not_inRange hx prot), hs',
      protAt_congr (protect_of_not_inRange hx temporary), h]

theorem protAt_fill {b : Byte} (hn : n ≤ 2 ^ 64) (hfill : s.fill b a n = some s') (x : Addr) :
    s'.protAt x = s.protAt x := by
  rw [protAt, fill_apply b n hn hfill, protAt]
  split
  · cases s x with
    | none => rfl
    | some c => rfl
  · rfl

/-- What a fill stores is there: it fails where nothing is mapped. -/
theorem byteAt_fill {b : Byte} :
    ∀ (n : ℕ) {s s' : Space} {a : Addr}, n ≤ 2 ^ 64 → s.fill b a n = some s' → ∀ {x},
      InRange a n x → s'.byteAt x = some b := by
  intro n
  induction n with
  | zero =>
      intro s s' a _ _ x hx
      exact absurd hx (Nat.not_lt_zero _)
  | succ n ih =>
      intro s s' a hn hfill x hx
      have happly := fill_apply b (n + 1) hn hfill x
      rw [fill] at hfill
      split at hfill
      · rename_i hw
        rcases (inRange_succ hn).mp hx with rfl | hx'
        · rw [if_pos hx] at happly
          rw [byteAt, happly]
          rw [writable] at hw
          cases hs : s x with
          | none => simp [hs] at hw
          | some c => rfl
        · exact ih (by omega) hfill hx'
      · exact absurd hfill (by simp)

end Space

end PollyInstrew.AddressSpace
