import PollyInstrew.Client.Common
import PollyInstrew.Support.Transition

/-!
# The client's arenas

`arena_alloc` hands out aligned blocks of a reserved address range.  The
break `brk` is the end of the last block, `brkp` the end of the pages made
accessible so far.
-/

namespace PollyInstrew.Client

open PollyInstrew.Transition

/-- `struct Arena`. -/
structure Arena where
  start : Word
  endp : Word
  brk : Word
  brkp : Word
  deriving DecidableEq, Repr

/-- `arena_init`, for the address `mem` that `mmap` returned. -/
def arenaInit (mem size : Word) : Arena := ⟨mem, mem + size, mem, mem⟩

/-- The alignment `arena_alloc` works with: at least `0x40`. -/
def arenaAlignment (alignment : Word) : Word :=
  if alignment < 0x40#64 then 0x40#64 else alignment

/-- `arena_alloc`: the block or an error pointer, and the arena afterwards.
`mprotectRet` is what `mprotect` returns if it is called. -/
def arenaAlloc (pageSize : Word) (mprotectRet : ℤ) (arena : Arena)
    (size alignment : Word) : Word × Arena :=
  let alignment := arenaAlignment alignment
  if alignment &&& (alignment - 1) ≠ 0#64 then
    (errPtr (-EINVAL), arena)
  else
    let brkAl := alignUp arena.brk alignment
    if brkAl + size ≤ arena.brkp then
      (brkAl, { arena with brk := brkAl + size })
    else
      let newpgsz := alignUp (size - (arena.brkp - brkAl)) pageSize
      if arena.endp < arena.brk + newpgsz then
        (errPtr (-ENOMEM), arena)
      else if mprotectRet < 0 then
        (errPtr mprotectRet, arena)
      else
        (brkAl, { arena with
          brkp := arena.brkp + newpgsz
          brk := brkAl + size })

/-- The invariant of an arena over pages of `2 ^ k` bytes. -/
structure Arena.Ok (arena : Arena) (k : ℕ) : Prop where
  start_le : arena.start.toNat ≤ arena.brk.toNat
  brk_le : arena.brk.toNat ≤ arena.brkp.toNat
  brkp_le : arena.brkp.toNat ≤ arena.endp.toNat
  brkp_lt : arena.brkp.toNat < arena.brk.toNat + 2 ^ k
  brkp_page : arena.brkp.toNat % 2 ^ k = 0
  endp_page : arena.endp.toNat % 2 ^ k = 0

theorem arenaInit_ok {mem size : Word} {k : ℕ} (hmem : mem.toNat % 2 ^ k = 0)
    (hsize : size.toNat % 2 ^ k = 0) (hfit : mem.toNat + size.toNat < 2 ^ 64) :
    (arenaInit mem size).Ok k := by
  have hpos := Nat.two_pow_pos k
  have hend : (mem + size).toNat = mem.toNat + size.toNat := by
    rw [BitVec.toNat_add]
    omega
  refine ⟨Nat.le_refl _, Nat.le_refl _, ?_, Nat.lt_add_of_pos_right hpos, hmem, ?_⟩
  · simp only [arenaInit, hend]
    omega
  · simp only [arenaInit, hend]
    rw [Nat.add_mod, hmem, hsize, Nat.zero_add, Nat.zero_mod]

/-- The alignment test accepts powers of two only. -/
theorem exists_two_pow_of_and_sub_one
    {a : Word} (hpos : 0 < a.toNat) (h : a &&& (a - 1) = 0#64) :
    ∃ k, a.toNat = 2 ^ k := by
  have hsub : (a - 1).toNat = a.toNat - 1 := by
    have hlt := a.isLt
    rw [BitVec.toNat_sub]
    simp only [BitVec.ofNat_eq_ofNat, BitVec.toNat_ofNat]
    omega
  have hand : a.toNat &&& (a.toNat - 1) = 0 := by
    rw [← hsub, ← BitVec.toNat_and, h]
    rfl
  exact (Nat.and_sub_one_eq_zero_iff_isPowerOfTwo (by omega)).mp hand

theorem arenaAlignment_toNat_pos (alignment : Word) :
    0x40 ≤ (arenaAlignment alignment).toNat := by
  unfold arenaAlignment
  split
  · decide
  · next h =>
    rw [BitVec.lt_def] at h
    have h64 : (0x40#64).toNat = 0x40 := by decide
    omega

theorem add_page_le_of_lt
    {x e k : ℕ} (hx : x % 2 ^ k = 0) (he : e % 2 ^ k = 0) (h : e < x) :
    e + 2 ^ k ≤ x := by
  obtain ⟨a, rfl⟩ := Nat.dvd_of_mod_eq_zero hx
  obtain ⟨b, rfl⟩ := Nat.dvd_of_mod_eq_zero he
  have hlt : b < a := Nat.lt_of_mul_lt_mul_left h
  calc
    2 ^ k * b + 2 ^ k = 2 ^ k * (b + 1) := by rw [Nat.mul_succ]
    _ ≤ 2 ^ k * a := Nat.mul_le_mul_left _ hlt

/-- The error `arena_alloc` returns, if it returns one. -/
def arenaError (pageSize : Word) (mprotectRet : ℤ) (arena : Arena) (size alignment : Word) :
    Option ℤ :=
  let alignment := arenaAlignment alignment
  if alignment &&& (alignment - 1) ≠ 0#64 then
    some (-EINVAL)
  else
    let brkAl := alignUp arena.brk alignment
    if brkAl + size ≤ arena.brkp then
      none
    else if arena.endp < arena.brk + alignUp (size - (arena.brkp - brkAl)) pageSize then
      some (-ENOMEM)
    else if mprotectRet < 0 then
      some mprotectRet
    else
      none

/-- A call that returns an error leaves the arena alone. -/
theorem arenaAlloc_error {pageSize : Word} {mprotectRet : ℤ} {arena : Arena}
    {size alignment : Word} {e : ℤ}
    (h : arenaError pageSize mprotectRet arena size alignment = some e) :
    arenaAlloc pageSize mprotectRet arena size alignment = (errPtr e, arena) := by
  unfold arenaError at h
  unfold arenaAlloc
  dsimp only at h ⊢
  split at h
  · next hpow =>
    obtain rfl := Option.some.inj h
    rw [if_pos hpow]
  · next hpow =>
    rw [if_neg hpow]
    split at h
    · cases h
    · next heasy =>
      rw [if_neg heasy]
      split at h
      · next hmem =>
        obtain rfl := Option.some.inj h
        rw [if_pos hmem]
      · next hmem =>
        rw [if_neg hmem]
        split at h
        · next hret =>
          obtain rfl := Option.some.inj h
          rw [if_pos hret]
        · cases h

/-- The errors of `arena_alloc`. -/
theorem arenaError_cases {pageSize : Word} {mprotectRet : ℤ} {arena : Arena}
    {size alignment : Word} {e : ℤ}
    (h : arenaError pageSize mprotectRet arena size alignment = some e) :
    e = -EINVAL ∨ e = -ENOMEM ∨ e = mprotectRet ∧ e < 0 := by
  unfold arenaError at h
  dsimp only at h
  split at h
  · exact Or.inl (Option.some.inj h).symm
  · split at h
    · cases h
    · split at h
      · exact Or.inr (Or.inl (Option.some.inj h).symm)
      · split at h
        · next hret =>
          obtain rfl := Option.some.inj h
          exact Or.inr (Or.inr ⟨rfl, hret⟩)
        · cases h

/-- Without an error the alignment is a power of two. -/
theorem arenaAlignment_pow {pageSize : Word} {mprotectRet : ℤ} {arena : Arena}
    {size alignment : Word}
    (h : arenaError pageSize mprotectRet arena size alignment = none) :
    arenaAlignment alignment &&& (arenaAlignment alignment - 1) = 0#64 := by
  by_contra hpow
  unfold arenaError at h
  dsimp only at h
  rw [if_pos hpow] at h
  cases h

/-- A call that returns no error returns an aligned block above the old break
that ends at the new break. -/
theorem arenaAlloc_block
    {pageSize : Word} {k : ℕ} (hpage : pageSize.toNat = 2 ^ k)
    {arena : Arena} (hok : arena.Ok k) {mprotectRet : ℤ} {size alignment : Word}
    (hfit : roundUp arena.brk.toNat (arenaAlignment alignment).toNat + size.toNat + 2 ^ k < 2 ^ 64)
    (hnone : arenaError pageSize mprotectRet arena size alignment = none) :
    ∃ p arena', arenaAlloc pageSize mprotectRet arena size alignment = (p, arena') ∧
      arena'.Ok k ∧ arena'.start = arena.start ∧ arena'.endp = arena.endp ∧
      arena.brk.toNat ≤ p.toNat ∧
      p.toNat + size.toNat = arena'.brk.toNat ∧
      p.toNat % (arenaAlignment alignment).toNat = 0 := by
  have hpos := Nat.two_pow_pos k
  have hpow := arenaAlignment_pow hnone
  have hal64 := arenaAlignment_toNat_pos alignment
  obtain ⟨a, ha⟩ := exists_two_pow_of_and_sub_one (by omega) hpow
  rw [ha] at hfit
  have hbrkAl := alignUp_toNat (x := arena.brk) ha (by omega)
  obtain ⟨hle, hlt, hmod⟩ := roundUp_spec (x := arena.brk.toNat) (Nat.two_pow_pos a)
  rw [← hbrkAl] at hle hlt hmod hfit
  unfold arenaError at hnone
  unfold arenaAlloc
  dsimp only at hnone ⊢
  rw [if_neg (not_not.mpr hpow)] at hnone ⊢
  generalize alignUp arena.brk (arenaAlignment alignment) = brkAl
    at hnone hbrkAl hle hlt hmod hfit ⊢
  have hsum : (brkAl + size).toNat = brkAl.toNat + size.toNat := by
    rw [BitVec.toNat_add]
    omega
  obtain ⟨hstart, hbrk, hbrkp, hnear, hbpage, hepage⟩ := hok
  by_cases heasy : brkAl + size ≤ arena.brkp
  · rw [if_pos heasy]
    rw [BitVec.le_def, hsum] at heasy
    refine ⟨_, _, rfl, ⟨?_, ?_, hbrkp, ?_, hbpage, hepage⟩, rfl, rfl, hle, hsum.symm, ?_⟩
    · simp only [hsum]
      omega
    · simp only [hsum]
      omega
    · simp only [hsum]
      omega
    · rw [ha]
      exact hmod
  · rw [if_neg heasy] at hnone ⊢
    rw [BitVec.le_def, hsum] at heasy
    have hend := arena.endp.isLt
    have hneed : (size - (arena.brkp - brkAl)).toNat =
        brkAl.toNat + size.toNat - arena.brkp.toNat := by
      rw [BitVec.toNat_sub, BitVec.toNat_sub]
      omega
    obtain ⟨hple, hplt, hpmod⟩ := alignUp_spec hpage (x := size - (arena.brkp - brkAl)) (by omega)
    rw [hneed] at hple hplt
    generalize alignUp (size - (arena.brkp - brkAl)) pageSize =
      newpgsz at hnone hple hplt hpmod ⊢
    by_cases hmem : arena.endp < arena.brk + newpgsz
    · rw [if_pos hmem] at hnone
      cases hnone
    · rw [if_neg hmem] at hnone ⊢
      by_cases hret : mprotectRet < 0
      · rw [if_pos hret] at hnone
        cases hnone
      · rw [if_neg hret]
        have hsumbrk : (arena.brk + newpgsz).toNat = arena.brk.toNat + newpgsz.toNat := by
          rw [BitVec.toNat_add]
          omega
        have hsumbrkp : (arena.brkp + newpgsz).toNat =
            arena.brkp.toNat + newpgsz.toNat := by
          rw [BitVec.toNat_add]
          omega
        rw [BitVec.lt_def, hsumbrk] at hmem
        have hnewpage : (arena.brkp.toNat + newpgsz.toNat) % 2 ^ k = 0 := by
          rw [Nat.add_mod, hbpage, hpmod]
          simp
        have hfits : arena.brkp.toNat + newpgsz.toNat ≤ arena.endp.toNat := by
          by_contra hover
          have := add_page_le_of_lt hnewpage hepage (Nat.lt_of_not_le hover)
          omega
        refine ⟨_, _, rfl, ⟨?_, ?_, ?_, ?_, ?_, hepage⟩, rfl, rfl, hle, hsum.symm, ?_⟩
        · simp only [hsum]
          omega
        · simp only [hsum, hsumbrkp]
          omega
        · simp only [hsumbrkp]
          exact hfits
        · simp only [hsum, hsumbrkp]
          omega
        · simp only [hsumbrkp]
          exact hnewpage
        · rw [ha]
          exact hmod

theorem badAddr_errPtr {e : ℤ} (hge : -4095 ≤ e) (hlt : e < 0) : badAddr (errPtr e) := by
  unfold badAddr errPtr
  rw [decide_eq_true_eq, BitVec.lt_def, BitVec.toNat_ofInt]
  have hbound : (0xfffffffffffff000#64).toNat = 2 ^ 64 - 4096 := by decide
  rw [hbound]
  omega

/-- Where a granted block starts. -/
theorem arenaAlloc_fst {pageSize : Word} {mprotectRet : ℤ} {arena : Arena}
    {size alignment : Word} (hret : -4095 ≤ mprotectRet)
    (hgood : ¬badAddr (arenaAlloc pageSize mprotectRet arena size alignment).1) :
    (arenaAlloc pageSize mprotectRet arena size alignment).1 =
      alignUp arena.brk (arenaAlignment alignment) := by
  cases herr : arenaError pageSize mprotectRet arena size alignment with
  | some e =>
      rw [arenaAlloc_error herr] at hgood
      refine absurd (badAddr_errPtr ?_ ?_) hgood
      · rcases arenaError_cases herr with rfl | rfl | ⟨rfl, -⟩
        · decide
        · decide
        · exact hret
      · rcases arenaError_cases herr with rfl | rfl | ⟨-, hneg⟩
        · decide
        · decide
        · exact hneg
  | none =>
      have hpow := arenaAlignment_pow herr
      unfold arenaError at herr
      unfold arenaAlloc
      dsimp only at herr ⊢
      rw [if_neg (not_not.mpr hpow)] at herr ⊢
      split_ifs at herr ⊢ <;> rfl

section Alloc

variable {pageSize : Word} {k : ℕ} (hpage : pageSize.toNat = 2 ^ k) (hk : k ≤ 20)
  {arena : Arena} (hok : arena.Ok k) (hend : arena.endp.toNat ≤ 2 ^ 63)
  {mprotectRet : ℤ} {size alignment : Word}
  (hsize : size.toNat ≤ 2 ^ 60) (hal : alignment.toNat ≤ 2 ^ 60)
include hpage hk hok hend hsize hal

theorem arenaAlloc_granted
    (herr : arenaError pageSize mprotectRet arena size alignment = none) :
    (arenaAlloc pageSize mprotectRet arena size alignment).2.Ok k ∧
      (arenaAlloc pageSize mprotectRet arena size alignment).2.start = arena.start ∧
      (arenaAlloc pageSize mprotectRet arena size alignment).2.endp = arena.endp ∧
      arena.brk.toNat ≤ (arenaAlloc pageSize mprotectRet arena size alignment).1.toNat ∧
      (arenaAlloc pageSize mprotectRet arena size alignment).1.toNat + size.toNat =
        (arenaAlloc pageSize mprotectRet arena size alignment).2.brk.toNat ∧
      (arenaAlloc pageSize mprotectRet arena size alignment).1.toNat %
        (arenaAlignment alignment).toNat = 0 := by
  have hpow : 2 ^ k ≤ 2 ^ 20 := Nat.pow_le_pow_right (by decide) hk
  have halign : (arenaAlignment alignment).toNat ≤ 2 ^ 60 := by
    unfold arenaAlignment
    split
    · decide
    · exact hal
  have hbrk := hok.brk_le
  have hbrkp := hok.brkp_le
  have hround := roundUp_spec (x := arena.brk.toNat) (n := (arenaAlignment alignment).toNat)
    (by have := arenaAlignment_toNat_pos alignment; omega)
  obtain ⟨q, arena', heq, hok', hs, hen, hle, hsum, hmod⟩ :=
    arenaAlloc_block hpage hok (by omega) herr
  rw [heq]
  exact ⟨hok', hs, hen, hle, hsum, hmod⟩

/-- A result of `arena_alloc` that is not an error pointer is a fresh block. -/
theorem arenaAlloc_ok (hret : -4095 ≤ mprotectRet)
    (hgood : ¬badAddr (arenaAlloc pageSize mprotectRet arena size alignment).1) :
    (arenaAlloc pageSize mprotectRet arena size alignment).2.Ok k ∧
      (arenaAlloc pageSize mprotectRet arena size alignment).2.start = arena.start ∧
      (arenaAlloc pageSize mprotectRet arena size alignment).2.endp = arena.endp ∧
      arena.brk.toNat ≤ (arenaAlloc pageSize mprotectRet arena size alignment).1.toNat ∧
      (arenaAlloc pageSize mprotectRet arena size alignment).1.toNat + size.toNat =
        (arenaAlloc pageSize mprotectRet arena size alignment).2.brk.toNat ∧
      (arenaAlloc pageSize mprotectRet arena size alignment).1.toNat %
        (arenaAlignment alignment).toNat = 0 := by
  cases herr : arenaError pageSize mprotectRet arena size alignment with
  | some e =>
      rw [arenaAlloc_error herr] at hgood
      refine absurd (badAddr_errPtr ?_ ?_) hgood
      · obtain rfl | rfl | ⟨rfl, -⟩ := arenaError_cases herr
        · decide
        · decide
        · exact hret
      · obtain rfl | rfl | ⟨rfl, hneg⟩ := arenaError_cases herr
        · decide
        · decide
        · exact hneg
  | none => exact arenaAlloc_granted hpage hk hok hend hsize hal herr

/-- Whether the request is granted or not, the arena stays in order. -/
theorem arenaAlloc_keeps (mprotectRet : ℤ) :
    (arenaAlloc pageSize mprotectRet arena size alignment).2.Ok k ∧
      (arenaAlloc pageSize mprotectRet arena size alignment).2.start = arena.start ∧
      (arenaAlloc pageSize mprotectRet arena size alignment).2.endp = arena.endp ∧
      arena.brk.toNat ≤
        (arenaAlloc pageSize mprotectRet arena size alignment).2.brk.toNat := by
  cases herr : arenaError pageSize mprotectRet arena size alignment with
  | some e =>
      rw [arenaAlloc_error herr]
      exact ⟨hok, rfl, rfl, Nat.le_refl _⟩
  | none =>
      obtain ⟨hok', hs, hen, hle, hsum, -⟩ :=
        arenaAlloc_granted hpage hk hok hend hsize hal herr
      exact ⟨hok', hs, hen, by omega⟩

end Alloc

/-! ## Runs of allocations -/

/-- A call of `arena_alloc`, with what `mprotect` returns if it is called. -/
structure AllocCall where
  size : Word
  alignment : Word
  mprotectRet : ℤ
  deriving DecidableEq, Repr

/-- A block that was returned. -/
structure Block where
  addr : Word
  size : Word
  alignment : Word
  deriving DecidableEq, Repr

/-- No byte belongs to both blocks. -/
def Block.Apart (b b' : Block) : Prop :=
  b.addr.toNat + b.size.toNat ≤ b'.addr.toNat ∨ b'.addr.toNat + b'.size.toNat ≤ b.addr.toNat

/-- The arena and the blocks returned so far, the last one first. -/
structure ArenaRun where
  arena : Arena
  blocks : List Block
  deriving DecidableEq, Repr

def allocStep (pageSize : Word) (s : ArenaRun) (call : AllocCall) : Option ArenaRun :=
  let res := arenaAlloc pageSize call.mprotectRet s.arena call.size call.alignment
  some
    { arena := res.2
      blocks :=
        match arenaError pageSize call.mprotectRet s.arena call.size call.alignment with
        | none => ⟨res.1, call.size, call.alignment⟩ :: s.blocks
        | some _ => s.blocks }

/-- The aligned break plus the size plus one page does not wrap. -/
def AllocCall.Fits (k : ℕ) (s : ArenaRun) (call : AllocCall) : Prop :=
  ∀ a, (arenaAlignment call.alignment).toNat = 2 ^ a →
    roundUp s.arena.brk.toNat (2 ^ a) + call.size.toNat + 2 ^ k < 2 ^ 64

theorem AllocCall.fits_of_lt {k : ℕ} {s : ArenaRun} {call : AllocCall}
    (h : s.arena.brk.toNat + (arenaAlignment call.alignment).toNat + call.size.toNat + 2 ^ k <
      2 ^ 64) : call.Fits k s := by
  intro a ha
  have := roundUp_spec (x := s.arena.brk.toNat) (Nat.two_pow_pos a)
  rw [ha] at h
  omega

/-- The invariant of a run from an arena over `size` bytes at `mem`. -/
structure ArenaRun.Inv (k : ℕ) (mem size : Word) (s : ArenaRun) : Prop where
  ok : s.arena.Ok k
  start : s.arena.start = mem
  endp : s.arena.endp = mem + size
  aligned : ∀ b ∈ s.blocks, b.addr.toNat % (arenaAlignment b.alignment).toNat = 0
  inside : ∀ b ∈ s.blocks, mem.toNat ≤ b.addr.toNat ∧
    b.addr.toNat + b.size.toNat ≤ s.arena.brk.toNat
  apart : s.blocks.Pairwise Block.Apart

theorem allocStep_inv {pageSize : Word} {k : ℕ} (hpage : pageSize.toNat = 2 ^ k)
    {mem size : Word} {s s' : ArenaRun} {call : AllocCall} (h : s.Inv k mem size)
    (hfits : call.Fits k s) (hstep : allocStep pageSize s call = some s') : s'.Inv k mem size := by
  obtain rfl := Option.some.inj hstep
  cases herr : arenaError pageSize call.mprotectRet s.arena call.size call.alignment with
  | some e =>
      rw [arenaAlloc_error herr]
      exact h
  | none =>
      have hpos := arenaAlignment_toNat_pos call.alignment
      obtain ⟨a, ha⟩ := exists_two_pow_of_and_sub_one (by omega) (arenaAlignment_pow herr)
      obtain ⟨p, arena', heq, hok, hstart, hendp, hle, hsum, hmod⟩ :=
        arenaAlloc_block hpage h.ok (by rw [ha]; exact hfits a ha) herr
      rw [heq]
      refine ⟨hok, hstart.trans h.start, hendp.trans h.endp, ?_, ?_, ?_⟩
      · intro b hb
        obtain rfl | hb := List.mem_cons.mp hb
        · exact hmod
        · exact h.aligned b hb
      · intro b hb
        obtain rfl | hb := List.mem_cons.mp hb
        · have hlow := h.ok.start_le
          rw [h.start] at hlow
          exact ⟨Nat.le_trans hlow hle, Nat.le_of_eq hsum⟩
        · obtain ⟨hlow, hhigh⟩ := h.inside b hb
          exact ⟨hlow, by dsimp only; omega⟩
      · refine List.pairwise_cons.mpr ⟨?_, h.apart⟩
        intro b hb
        exact Or.inr (Nat.le_trans (h.inside b hb).2 hle)

theorem arenaAlignment_eq_max (alignment : Word) :
    (arenaAlignment alignment).toNat = max alignment.toNat 64 := by
  unfold arenaAlignment
  split
  · next h =>
    rw [BitVec.lt_def] at h
    have h64 : (0x40#64).toNat = 64 := by decide
    omega
  · next h =>
    rw [BitVec.lt_def] at h
    have h64 : (0x40#64).toNat = 64 := by decide
    omega

/-- Allocation from a page-aligned arena is disjoint, aligned and in bounds, and
a call that fails changes nothing. -/
theorem runAlloc_apart {pageSize : Word} {k : ℕ} (hpage : pageSize.toNat = 2 ^ k)
    {mem size : Word} (hmem : mem.toNat % 2 ^ k = 0) (hsize : size.toNat % 2 ^ k = 0)
    (hend : mem.toNat + size.toNat < 2 ^ 64) {calls : List AllocCall}
    (hfits : Guarded (allocStep pageSize) (fun s call => call.Fits k s)
      ⟨arenaInit mem size, []⟩ calls) {s : ArenaRun}
    (hrun : run (allocStep pageSize) ⟨arenaInit mem size, []⟩ calls = some s) :
    s.arena.start = mem ∧ s.arena.endp = mem + size ∧ s.arena.Ok k ∧
      (∀ b ∈ s.blocks, b.addr.toNat % max b.alignment.toNat 64 = 0 ∧
        mem.toNat ≤ b.addr.toNat ∧ b.addr.toNat + b.size.toNat ≤ s.arena.brkp.toNat ∧
        b.addr.toNat + b.size.toNat ≤ mem.toNat + size.toNat) ∧
      s.blocks.Pairwise Block.Apart ∧
      ∀ (call : AllocCall) (e : ℤ),
        arenaError pageSize call.mprotectRet s.arena call.size call.alignment = some e →
          arenaAlloc pageSize call.mprotectRet s.arena call.size call.alignment =
            (errPtr e, s.arena) := by
  have hinit : ArenaRun.Inv k mem size ⟨arenaInit mem size, []⟩ :=
    ⟨arenaInit_ok hmem hsize hend, rfl, rfl, nofun, nofun, List.Pairwise.nil⟩
  have hinv : s.Inv k mem size :=
    run_invariant (fun _ _ _ _ h hok hstep => allocStep_inv hpage h hok hstep) hinit hfits hrun
  have hbrk := hinv.ok.brk_le
  have hbrkp := hinv.ok.brkp_le
  have hendp : (mem + size).toNat = mem.toNat + size.toNat := by
    rw [BitVec.toNat_add]
    omega
  rw [hinv.endp, hendp] at hbrkp
  refine ⟨hinv.start, hinv.endp, hinv.ok, ?_, hinv.apart, fun _ _ herr => arenaAlloc_error herr⟩
  intro b hb
  obtain ⟨hlow, hhigh⟩ := hinv.inside b hb
  refine ⟨?_, hlow, by omega, by omega⟩
  rw [← arenaAlignment_eq_max]
  exact hinv.aligned b hb

/-- Three calls; the second one fails because `mprotect` does. -/
def sampleCalls : List AllocCall :=
  [⟨100, 1, 0⟩, ⟨5000, 256, -12⟩, ⟨5000, 256, 0⟩]

theorem runAlloc_apart_sample :
    run (allocStep 4096) ⟨arenaInit 0x400000000000 0x10000, []⟩ sampleCalls =
        some ⟨⟨0x400000000000, 0x400000010000, 0x400000001488, 0x400000002000⟩,
          [⟨0x400000000100, 5000, 256⟩, ⟨0x400000000000, 100, 1⟩]⟩ ∧
      Block.Apart ⟨0x400000000100, 5000, 256⟩ ⟨0x400000000000, 100, 1⟩ := by
  have hrun : run (allocStep 4096) ⟨arenaInit 0x400000000000 0x10000, []⟩ sampleCalls =
      some ⟨⟨0x400000000000, 0x400000010000, 0x400000001488, 0x400000002000⟩,
        [⟨0x400000000100, 5000, 256⟩, ⟨0x400000000000, 100, 1⟩]⟩ := by
    decide +kernel
  have hfits : Guarded (allocStep 4096) (fun s call => call.Fits 12 s)
      ⟨arenaInit 0x400000000000 0x10000, []⟩ sampleCalls :=
    Guarded.mono (fun _ _ => AllocCall.fits_of_lt) (by decide +kernel)
  have hapart := (runAlloc_apart (k := 12) rfl rfl rfl (by decide) hfits hrun).2.2.2.2.1
  exact ⟨hrun, (List.pairwise_cons.mp hapart).1 _ (List.mem_singleton_self _)⟩

end PollyInstrew.Client
