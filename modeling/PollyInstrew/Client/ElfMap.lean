import PollyInstrew.Client.Common
import PollyInstrew.Support.AddressSpace
import PollyInstrew.Support.StateExcept

/-!
# Mapping the segments of an executable

`elf_map` maps the file pages of a segment, zeroes the rest of the last file
page and maps zero pages behind it.  The kernel may refuse every request; a
`memset` to an address that is not writable ends the process.
-/

namespace PollyInstrew.Client

open PollyInstrew.ByteMemory PollyInstrew.AddressSpace PollyInstrew.StateExcept

def ENOEXEC : ℤ := 8

/-! ## System calls -/

/-- The error numbers of `mmap` and `mprotect`. -/
inductive MapErrno where
  | eperm | ebadf | eagain | enomem | eacces | eexist | enodev | einval | enfile | etxtbsy
  | eoverflow
  deriving DecidableEq

def MapErrno.code : MapErrno → ℤ
  | .eperm => 1
  | .ebadf => 9
  | .eagain => 11
  | .enomem => 12
  | .eacces => 13
  | .eexist => 17
  | .enodev => 19
  | .einval => 22
  | .enfile => 23
  | .etxtbsy => 26
  | .eoverflow => 75

inductive MapRequest where
  | mmap (addr length : Word) (prot : Prot)
  | mprotect (addr length : Word) (prot : Prot)

/-- A refused `mmap` may have removed the old mapping of the range. -/
inductive MapAnswer where
  | done
  | refused (errno : MapErrno) (unmaps : Bool)

/-- What the kernel answers to the `n`-th system call. -/
abbrev Kernel := ℕ → MapRequest → MapAnswer

/-- The address space, and how many system calls were made. -/
structure Machine where
  space : Space
  calls : ℕ

/-- How a function is left early: with a return value, or by a signal that ends
the process. -/
inductive Stop where
  | fault
  | ret (value : ℤ)
  deriving DecidableEq

section SystemCalls

variable (kernel : Kernel) (pagesz : Word)

/-- `mmap` with `MAP_PRIVATE | MAP_FIXED`; `content` gives the bytes of the object
that is mapped, from the start of the mapping on. -/
def mmapFixed (addr length : Word) (prot : Prot) (content : ℕ → Option Byte) :
    Prog Machine Stop Word :=
  ⟨fun m =>
    if addr.toNat % pagesz.toNat ≠ 0 ∨ length = 0 then
      (.ok (errPtr (-EINVAL)), ⟨m.space, m.calls + 1⟩)
    else
      let n := roundUp length.toNat pagesz.toNat
      match kernel m.calls (.mmap addr length prot) with
      | .done => (.ok addr, ⟨m.space.map addr n prot content, m.calls + 1⟩)
      | .refused errno unmaps =>
          (.ok (errPtr (-errno.code)),
            ⟨if unmaps then m.space.unmap addr n else m.space, m.calls + 1⟩)⟩

def mprotect (addr length : Word) (prot : Prot) : Prog Machine Stop ℤ :=
  ⟨fun m =>
    match kernel m.calls (.mprotect addr length prot) with
    | .done =>
        (.ok 0, ⟨m.space.protect addr (roundUp length.toNat pagesz.toNat) prot, m.calls + 1⟩)
    | .refused errno _ => (.ok (-errno.code), ⟨m.space, m.calls + 1⟩)⟩

def memset (addr : Word) (b : Byte) (n : Word) : Prog Machine Stop Unit :=
  ⟨fun m =>
    match m.space.fill b addr n.toNat with
    | some space => (.ok (), ⟨space, m.calls⟩)
    | none => (.error .fault, m)⟩

/-- An `mmap` whose error is returned. -/
def mmapOrReturn (addr length : Word) (prot : Prot) (content : ℕ → Option Byte) :
    Prog Machine Stop Unit := do
  let mapret ← mmapFixed kernel pagesz addr length prot content
  if badAddr mapret then Prog.fail (.ret (ptrInt mapret)) else pure ()

/-- An `mprotect` whose error is returned. -/
def mprotectOrReturn (addr length : Word) (prot : Prot) : Prog Machine Stop Unit := do
  let retval ← mprotect kernel pagesz addr length prot
  if retval < 0 then Prog.fail (.ret retval) else pure ()

end SystemCalls

/-! ## The loader -/

/-- `Elf64_Phdr`, without the fields that are not read. -/
structure ElfPhdr where
  pType : BitVec 32
  pFlags : BitVec 32
  pOffset : Word
  pVaddr : Word
  pFilesz : Word
  pMemsz : Word
  deriving DecidableEq

def PT_LOAD : BitVec 32 := 1

def ElfPhdr.prot (ph : ElfPhdr) : Prot := ⟨ph.pFlags &&& 4 ≠ 0, ph.pFlags &&& 2 ≠ 0⟩

/-- The value a function returns, if it is left neither early nor by a signal. -/
def returnValue (body : Prog Machine Stop Unit) : Prog Machine Stop ℤ :=
  ⟨fun m =>
    match body.run m with
    | (.ok (), m') => (.ok 0, m')
    | (.error (.ret value), m') => (.ok value, m')
    | (.error .fault, m') => (.error .fault, m')⟩

section ElfMap

variable (kernel : Kernel) (pagesz : Word) (file : List Byte)

/-- What a mapping of the file holds: zeros between the end of the file and the
end of its last page, nothing behind that. -/
def fileByte (off : ℕ) : Option Byte :=
  if off < roundUp file.length pagesz.toNat then some (file.getD off 0) else none

/-- The first part of `elf_map`: the pages with bytes of the file. -/
def mapFilePages (addr : Word) (ph : ElfPhdr) : Prog Machine Stop Unit :=
  let mapstart := alignDown addr pagesz
  let mapend := alignUp (addr + ph.pFilesz) pagesz
  let mapoff := alignDown ph.pOffset pagesz
  if mapstart < mapend then
    mmapOrReturn kernel pagesz mapstart (mapend - mapstart) ph.prot fun i =>
      fileByte pagesz file (mapoff.toNat + i)
  else
    pure ()

/-- The second part: the rest of the last file page. -/
def zeroPageEnd (dataend zeropage : Word) (prot : Prot) : Prog Machine Stop Unit :=
  if dataend < zeropage then
    if prot.write then
      memset dataend 0 (zeropage - dataend)
    else do
      mprotectOrReturn kernel pagesz (alignDown dataend pagesz) pagesz ⟨prot.read, true⟩
      memset dataend 0 (zeropage - dataend)
      let _ ← mprotect kernel pagesz (alignDown dataend pagesz) pagesz prot
      pure ()
  else
    pure ()

/-- The third part: entire pages of zeros. -/
def mapZeroPages (zeropage allocend : Word) (prot : Prot) : Prog Machine Stop Unit :=
  if zeropage < allocend then
    mmapOrReturn kernel pagesz zeropage (allocend - zeropage) prot fun _ => some 0
  else
    pure ()

/-- How far the segment reaches; zeros are provided up to the end of a page if it
is writable. -/
def allocEnd (addr : Word) (ph : ElfPhdr) : Word :=
  if ph.prot.write then alignUp (addr + ph.pMemsz) pagesz else addr + ph.pMemsz

def zeroPage (dataend allocend : Word) : Word :=
  if allocend < alignUp dataend pagesz then allocend else alignUp dataend pagesz

def elfMapBody (addr : Word) (ph : ElfPhdr) : Prog Machine Stop Unit :=
  let dataend := addr + ph.pFilesz
  let allocend := allocEnd pagesz addr ph
  if ph.pVaddr &&& (pagesz - 1) ≠ ph.pOffset &&& (pagesz - 1) then
    Prog.fail (.ret (-ENOEXEC))
  else do
    mapFilePages kernel pagesz file addr ph
    if dataend < allocend then do
      let zeropage := zeroPage pagesz dataend allocend
      zeroPageEnd kernel pagesz dataend zeropage ph.prot
      mapZeroPages kernel pagesz zeropage allocend ph.prot
    else
      pure ()

/-- `elf_map`. -/
def elfMap (addr : Word) (ph : ElfPhdr) : Prog Machine Stop ℤ :=
  returnValue (elfMapBody kernel pagesz file addr ph)

/-- The segment loop of `load_elf_binary` and `load_elf_interp`. -/
def loadSegments (loadBias : Word) : List ElfPhdr → Prog Machine Stop Unit
  | [] => pure ()
  | ph :: phdrs =>
      if ph.pType = PT_LOAD then do
        let retval ← elfMap kernel pagesz file (loadBias + ph.pVaddr) ph
        if retval < 0 then Prog.fail (.ret retval) else loadSegments loadBias phdrs
      else
        loadSegments loadBias phdrs

end ElfMap

/-! ## Rounding to pages -/

theorem roundUp_eq (x n : ℕ) : roundUp x n = n * ((x + (n - 1)) / n) := by
  have h := Nat.div_add_mod (x + (n - 1)) n
  rw [roundUp]
  omega

theorem roundUp_mono {x y : ℕ} (n : ℕ) (h : x ≤ y) : roundUp x n ≤ roundUp y n := by
  rw [roundUp_eq, roundUp_eq]
  exact Nat.mul_le_mul_left _ (Nat.div_le_div_right (by omega))

theorem roundUp_add {z n : ℕ} (hz : z % n = 0) (x : ℕ) :
    roundUp (z + x) n = z + roundUp x n := by
  obtain ⟨q, rfl⟩ := Nat.dvd_of_mod_eq_zero hz
  rcases Nat.eq_zero_or_pos n with rfl | hn
  · simp [roundUp]
  · rw [roundUp_eq, roundUp_eq, Nat.add_assoc, Nat.mul_add_div hn, Nat.mul_add]

theorem roundUp_of_mod_eq_zero {x n : ℕ} (hn : 0 < n) (hx : x % n = 0) : roundUp x n = x := by
  have h := roundUp_add hx 0
  have hzero : roundUp 0 n = 0 := by
    rw [roundUp, Nat.zero_add, Nat.mod_eq_of_lt (by omega), Nat.sub_self]
  rwa [Nat.add_zero, hzero, Nat.add_zero] at h

theorem roundUp_le {x y n : ℕ} (hn : 0 < n) (hy : y % n = 0) (h : x ≤ y) : roundUp x n ≤ y := by
  rw [← roundUp_of_mod_eq_zero hn hy]
  exact roundUp_mono n h

/-- A number that is not a multiple lies in one page. -/
theorem roundUp_eq_add {x n : ℕ} (hn : 0 < n) (h : x < roundUp x n) :
    roundUp x n = x - x % n + n := by
  have hmod := Nat.mod_lt x hn
  have hle := Nat.mod_le x n
  have hdown : (x - x % n) % n = 0 := Nat.sub_mod_eq_zero_of_mod_eq (Nat.mod_mod _ _).symm
  have hsum : roundUp x n = x - x % n + roundUp (x % n) n := by
    rw [← roundUp_add hdown, Nat.sub_add_cancel hle]
  have hpos : 0 < x % n := by
    rcases Nat.eq_zero_or_pos (x % n) with h0 | h0
    · rw [roundUp_of_mod_eq_zero hn h0] at h
      exact absurd h (Nat.lt_irrefl _)
    · exact h0
  have hspec := roundUp_spec (x := x % n) hn
  have hone : roundUp (x % n) n = n := by
    apply Nat.le_antisymm
    · exact roundUp_le hn (Nat.mod_self n) (Nat.le_of_lt hmod)
    · exact Nat.le_of_dvd (by omega) (Nat.dvd_of_mod_eq_zero hspec.2.2)
  rw [hsum, hone]

theorem roundDown_mono {x y : ℕ} (n : ℕ) (h : x ≤ y) : x - x % n ≤ y - y % n := by
  have hx := Nat.div_add_mod x n
  have hy := Nat.div_add_mod y n
  have hle : n * (x / n) ≤ n * (y / n) := Nat.mul_le_mul_left _ (Nat.div_le_div_right h)
  omega

theorem add_mod_page {pagesz : Word} {k : ℕ} (hpage : pagesz.toNat = 2 ^ k) {base : Word}
    (hbase : base.toNat % 2 ^ k = 0) (x : Word) :
    (base + x).toNat % 2 ^ k = x.toNat % 2 ^ k := by
  have hlt := pagesz.isLt
  rw [hpage] at hlt
  have hdvd : 2 ^ k ∣ 2 ^ 64 :=
    Nat.pow_dvd_pow 2 (Nat.le_of_lt ((Nat.pow_lt_pow_iff_right (by decide)).mp hlt))
  rw [BitVec.toNat_add, Nat.mod_mod_of_dvd _ hdvd, Nat.add_mod, hbase, Nat.zero_add, Nat.mod_mod]

theorem alignDown_add {pagesz : Word} {k : ℕ} (hpage : pagesz.toNat = 2 ^ k) {base : Word}
    (hbase : base.toNat % 2 ^ k = 0) (x : Word) :
    alignDown (base + x) pagesz = base + alignDown x pagesz := by
  have hmask : (base + x) &&& (pagesz - 1) = x &&& (pagesz - 1) := by
    apply BitVec.eq_of_toNat_eq
    rw [and_sub_one_toNat hpage, and_sub_one_toNat hpage, add_mod_page hpage hbase]
  rw [alignDown, alignDown, and_not_eq_sub, and_not_eq_sub, hmask]
  bv_omega

theorem alignUp_add {pagesz : Word} {k : ℕ} (hpage : pagesz.toNat = 2 ^ k) {base : Word}
    (hbase : base.toNat % 2 ^ k = 0) (x : Word) :
    alignUp (base + x) pagesz = base + alignUp x pagesz := by
  have h := alignDown_add hpage hbase (x + (pagesz - 1))
  rw [← BitVec.add_assoc] at h
  exact h

/-- The addresses of the pages that `[addr, addr + len)` touches. -/
def PageRange (pagesz addr len x : Word) : Prop :=
  InRange (alignDown addr pagesz) (alignUp (addr + len) pagesz - alignDown addr pagesz).toNat x

instance (pagesz addr len x : Word) : Decidable (PageRange pagesz addr len x) :=
  inferInstanceAs (Decidable (InRange _ _ _))

theorem inRange_sub {a b : Word} (h : a.toNat ≤ b.toNat) (x : Word) :
    InRange a (b - a).toNat x ↔ a.toNat ≤ x.toNat ∧ x.toNat < b.toNat := by
  have hb := b.isLt
  have hsub : (b - a).toNat = b.toNat - a.toNat := BitVec.toNat_sub_of_le (BitVec.le_def.mpr h)
  rw [hsub, inRange_iff (by omega)]
  omega

/-! ## What a part of the loader may do -/

/-- The part changes nothing outside the range, and returns early only after a
system call, with a negative value. -/
structure Within {α : Type} (range : Word → Prop) (x : Prog Machine Stop α) : Prop where
  frame : ∀ m a, ¬range a → (x.run m).2.space a = m.space a
  calls : ∀ m, m.calls ≤ (x.run m).2.calls
  error : ∀ m v m', x.run m = (.error (.ret v), m') → v < 0 ∧ m.calls < m'.calls

namespace Within

variable {α β : Type} {range : Word → Prop}

theorem pure (a : α) : Within range (pure a : Prog Machine Stop α) where
  frame _ _ _ := rfl
  calls _ := Nat.le_refl _
  error _ _ _ h := absurd (Prod.mk.inj h).1 (by simp)

theorem bind {x : Prog Machine Stop α} {f : α → Prog Machine Stop β} (hx : Within range x)
    (hf : ∀ a, Within range (f a)) : Within range (x >>= f) where
  frame m a ha := by
    have hframe := hx.frame m a ha
    rw [Prog.run_bind]
    cases hrun : x.run m with
    | mk r m₁ =>
        rw [hrun] at hframe
        cases r with
        | error e => exact hframe
        | ok b => exact ((hf b).frame m₁ a ha).trans hframe
  calls m := by
    have hcalls := hx.calls m
    rw [Prog.run_bind]
    cases hrun : x.run m with
    | mk r m₁ =>
        rw [hrun] at hcalls
        cases r with
        | error e => exact hcalls
        | ok b => exact Nat.le_trans hcalls ((hf b).calls m₁)
  error m v m' h := by
    have hcalls := hx.calls m
    rw [Prog.run_bind] at h
    cases hrun : x.run m with
    | mk r m₁ =>
        rw [hrun] at h hcalls
        cases r with
        | error e =>
            obtain ⟨he, rfl⟩ := Prod.mk.inj h
            obtain rfl := Except.error.inj he
            exact hx.error m v m₁ hrun
        | ok b =>
            obtain ⟨hneg, hlt⟩ := (hf b).error m₁ v m' h
            exact ⟨hneg, Nat.lt_of_le_of_lt hcalls hlt⟩

theorem ite {p : Prop} [Decidable p] {x y : Prog Machine Stop α} (hx : p → Within range x)
    (hy : ¬p → Within range y) : Within range (if p then x else y) := by
  split
  · exact hx ‹_›
  · exact hy ‹_›

theorem mono {x : Prog Machine Stop α} {range' : Word → Prop} (hx : Within range x)
    (hsub : ∀ a, range a → range' a) : Within range' x where
  frame m a ha := hx.frame m a fun h => ha (hsub a h)
  calls := hx.calls
  error := hx.error

/-- One system call. -/
theorem of_call {x : Prog Machine Stop α}
    (h : ∀ m, ∃ r space, x.run m = (r, ⟨space, m.calls + 1⟩) ∧
      (∀ a, ¬range a → space a = m.space a) ∧ ∀ v, r = .error (.ret v) → v < 0) :
    Within range x where
  frame m a ha := by
    obtain ⟨r, space, hrun, hspace, -⟩ := h m
    rw [hrun]
    exact hspace a ha
  calls m := by
    obtain ⟨r, space, hrun, -⟩ := h m
    rw [hrun]
    exact Nat.le_succ _
  error m v m' hv := by
    obtain ⟨r, space, hrun, -, hneg⟩ := h m
    rw [hrun] at hv
    obtain ⟨hr, rfl⟩ := Prod.mk.inj hv
    exact ⟨hneg v hr, Nat.lt_succ_self _⟩

end Within

theorem badAddr_mapErrno (errno : MapErrno) : badAddr (errPtr (-errno.code)) = true := by
  cases errno <;> decide

theorem ptrInt_neg {a : Word} (h : badAddr a = true) : ptrInt a < 0 := by
  have hlt := a.isLt
  rw [badAddr, decide_eq_true_eq, BitVec.lt_def] at h
  rw [ptrInt, BitVec.toInt_eq_toNat_cond, BitVec.toNat_setWidth]
  simp only [BitVec.toNat_ofNat] at h
  split
  · omega
  · omega

section SystemCalls

variable (kernel : Kernel) (pagesz addr length : Word) (prot : Prot)
  (content : ℕ → Option Byte)

/-- How `mmap` ends. -/
theorem mmapOrReturn_cases (m : Machine) :
    (mmapOrReturn kernel pagesz addr length prot content).run m =
        (.ok (), ⟨m.space.map addr (roundUp length.toNat pagesz.toNat) prot content,
          m.calls + 1⟩) ∨
      ∃ v space, (mmapOrReturn kernel pagesz addr length prot content).run m =
          (.error (.ret v), ⟨space, m.calls + 1⟩) ∧ v < 0 ∧
        ∀ x, ¬InRange addr (roundUp length.toNat pagesz.toNat) x → space x = m.space x := by
  rw [mmapOrReturn, Prog.run_bind, mmapFixed]
  dsimp only
  by_cases hinval : addr.toNat % pagesz.toNat ≠ 0 ∨ length = 0
  · rw [if_pos hinval]
    have hbad : badAddr (errPtr (-EINVAL)) = true := by decide
    refine .inr ⟨ptrInt (errPtr (-EINVAL)), m.space, ?_, ptrInt_neg hbad, fun _ _ => rfl⟩
    dsimp only
    rw [if_pos hbad]
    rfl
  · rw [if_neg hinval]
    cases kernel m.calls (.mmap addr length prot) with
    | done =>
        by_cases hbad : badAddr addr = true
        · refine .inr ⟨ptrInt addr, _, ?_, ptrInt_neg hbad, fun x hx =>
            Space.map_of_not_inRange hx prot content⟩
          dsimp only
          rw [if_pos hbad]
          rfl
        · refine .inl ?_
          dsimp only
          rw [if_neg hbad]
          rfl
    | refused errno unmaps =>
        have hbad := badAddr_mapErrno errno
        refine .inr ⟨ptrInt (errPtr (-errno.code)),
          if unmaps then m.space.unmap addr (roundUp length.toNat pagesz.toNat) else m.space,
          ?_, ptrInt_neg hbad, ?_⟩
        · dsimp only
          rw [if_pos hbad]
          rfl
        · intro x hx
          split
          · exact Space.unmap_of_not_inRange hx
          · rfl

theorem mmapOrReturn_ok {m m' : Machine}
    (h : (mmapOrReturn kernel pagesz addr length prot content).run m = (.ok (), m')) :
    m'.space = m.space.map addr (roundUp length.toNat pagesz.toNat) prot content := by
  rcases mmapOrReturn_cases kernel pagesz addr length prot content m with hrun | ⟨v, s, hrun, -⟩
  · rw [hrun] at h
    obtain ⟨-, rfl⟩ := Prod.mk.inj h
    rfl
  · rw [hrun] at h
    cases h

theorem within_mmapOrReturn :
    Within (InRange addr (roundUp length.toNat pagesz.toNat))
      (mmapOrReturn kernel pagesz addr length prot content) := by
  refine .of_call fun m => ?_
  rcases mmapOrReturn_cases kernel pagesz addr length prot content m with
    hrun | ⟨v, space, hrun, hv, hspace⟩
  · exact ⟨_, _, hrun, fun a ha => Space.map_of_not_inRange ha prot content, by simp⟩
  · exact ⟨_, _, hrun, hspace, by simpa using hv⟩

theorem mprotect_cases (m : Machine) :
    (mprotect kernel pagesz addr length prot).run m =
        (.ok 0, ⟨m.space.protect addr (roundUp length.toNat pagesz.toNat) prot, m.calls + 1⟩) ∨
      ∃ v : ℤ, (mprotect kernel pagesz addr length prot).run m =
        (.ok v, ⟨m.space, m.calls + 1⟩) ∧ v < 0 := by
  rw [mprotect]
  dsimp only
  cases kernel m.calls (.mprotect addr length prot) with
  | done => exact .inl rfl
  | refused errno unmaps =>
      refine .inr ⟨-errno.code, rfl, ?_⟩
      cases errno <;> decide

theorem within_mprotect :
    Within (InRange addr (roundUp length.toNat pagesz.toNat))
      (mprotect kernel pagesz addr length prot) := by
  refine .of_call fun m => ?_
  rcases mprotect_cases kernel pagesz addr length prot m with hrun | ⟨v, hrun, -⟩
  · exact ⟨_, _, hrun, fun a ha => Space.protect_of_not_inRange ha prot, by simp⟩
  · exact ⟨_, _, hrun, fun _ _ => rfl, by simp⟩

theorem mprotectOrReturn_cases (m : Machine) :
    (mprotectOrReturn kernel pagesz addr length prot).run m =
        (.ok (), ⟨m.space.protect addr (roundUp length.toNat pagesz.toNat) prot, m.calls + 1⟩) ∨
      ∃ v : ℤ, (mprotectOrReturn kernel pagesz addr length prot).run m =
        (.error (.ret v), ⟨m.space, m.calls + 1⟩) ∧ v < 0 := by
  rw [mprotectOrReturn, Prog.run_bind]
  rcases mprotect_cases kernel pagesz addr length prot m with hrun | ⟨v, hrun, hv⟩
  · rw [hrun]
    exact .inl rfl
  · rw [hrun]
    dsimp only
    rw [if_pos hv]
    exact .inr ⟨v, rfl, hv⟩

theorem within_mprotectOrReturn :
    Within (InRange addr (roundUp length.toNat pagesz.toNat))
      (mprotectOrReturn kernel pagesz addr length prot) := by
  refine .of_call fun m => ?_
  rcases mprotectOrReturn_cases kernel pagesz addr length prot m with hrun | ⟨v, hrun, hv⟩
  · exact ⟨_, _, hrun, fun a ha => Space.protect_of_not_inRange ha prot, by simp⟩
  · exact ⟨_, _, hrun, fun _ _ => rfl, by simpa using hv⟩

end SystemCalls

theorem memset_ok {addr n : Word} {b : Byte} {m m' : Machine}
    (h : (memset addr b n).run m = (.ok (), m')) :
    m.space.fill b addr n.toNat = some m'.space := by
  rw [memset] at h
  dsimp only at h
  split at h
  · rename_i space hfill
    obtain ⟨-, rfl⟩ := Prod.mk.inj h
    exact hfill
  · cases h

theorem within_memset (addr n : Word) (b : Byte) :
    Within (InRange addr n.toNat) (memset addr b n) where
  frame m a ha := by
    rw [memset]
    dsimp only
    split
    · rename_i space hfill
      exact Space.fill_of_not_inRange (Nat.le_of_lt n.isLt) hfill ha
    · rfl
  calls m := by
    rw [memset]
    dsimp only
    split
    · exact Nat.le_refl _
    · exact Nat.le_refl _
  error m v m' h := by
    rw [memset] at h
    dsimp only at h
    split at h
    · cases h
    · cases h

end PollyInstrew.Client
