import PollyInstrew.Support.StateExcept
import PollyInstrew.Client.RtldTable
import PollyInstrew.Client.Arena

/-!
# The client's state

Memory, the two arenas, the table of translated code, the receive buffer and
the quick TLB.  What does not change while the client runs (the architecture,
the page size, the selected dispatcher, the addresses of the client's own
functions and the answers of the kernel) is the `Host`.
-/

namespace PollyInstrew.Client

open PollyInstrew.ByteMemory PollyInstrew.StateExcept

/-- The architecture the client is compiled for. -/
inductive Arch where
  | x86_64
  | aarch64
  deriving DecidableEq, Repr

/-- The dispatch functions of `dispatch.c` that translated code can enter. -/
inductive DispatchFunc where
  | dispatchCdecl
  | dispatchHhvmTail
  | dispatchHhvmFullresolve
  | dispatchAapcsx
  | dispatchAapcsxFullresolve
  deriving DecidableEq, Repr

/-- `struct DispatcherInfo`, without the loop function. -/
structure DispatcherInfo where
  quickDispatchFunc : DispatchFunc
  fullDispatchFunc : DispatchFunc
  patchDataReg : ℕ
  deriving DecidableEq, Repr

/-- `dispatch_get`; `none` also for the zeroed entries, which `main` rejects. -/
def dispatchGet (arch : Arch) (callconv : ℕ) : Option DispatcherInfo :=
  match arch, callconv with
  | _, 0 => some ⟨.dispatchCdecl, .dispatchCdecl, 6⟩
  | .x86_64, 1 => some ⟨.dispatchHhvmTail, .dispatchHhvmFullresolve, 14⟩
  | .aarch64, 3 => some ⟨.dispatchAapcsx, .dispatchAapcsxFullresolve, 16⟩
  | _, _ => none

/-- What stays fixed during a run of the client. -/
structure Host where
  arch : Arch
  pageSize : Word
  pageBits : ℕ
  pageSize_eq : pageSize.toNat = 2 ^ pageBits
  pageBits_ge : 6 ≤ pageBits
  pageBits_le : pageBits ≤ 20
  /-- The results of the successive calls of `mprotect`. -/
  mprotectRet : ℕ → ℤ
  mprotectRet_ge : ∀ i, -4095 ≤ mprotectRet i
  dispInfo : DispatcherInfo
  /-- Addresses of the dispatch functions. -/
  dispatchAddr : DispatchFunc → Word
  /-- Addresses of the functions listed in `plt.inc`, by their names there. -/
  pltAddr : String → Word
  /-- Contents of uninitialised stack memory. -/
  stackBytes : ℕ → Byte

/-- Number of slots of the quick TLB, `1 << QUICK_TLB_BITS`. -/
def quickTlbSlots : ℕ := 2 ^ 10

/-- `CpuState.quick_tlb`: a guest address and a function per slot. -/
abbrev QuickTlb := Fin quickTlbSlots → Word × Word

/-- The parts of `struct State` and `struct CpuState` the linker and the
dispatchers work on, together with the arenas and memory itself. -/
structure State where
  mem : Mem
  arenaCode : Arena
  arenaData : Arena
  /-- Number of calls of `mprotect` so far. -/
  mprotectCalls : ℕ
  objects : RtldTable
  plt : Word
  recvbuf : Word
  recvbufSz : Word
  quickTlb : QuickTlb

abbrev ClientM := Prog State ℤ

/-- `MEM_DATA_SIZE`. -/
def memDataSize : Word := 0x01000000#64

/-- `MEM_CODE_SIZE`. -/
def memCodeSize : Word := 0x40000000#64

/-- `mem_init`, for the addresses `mmap` returned. -/
def memInit (data code : Word) (c : State) : State :=
  { c with
    arenaData := arenaInit data memDataSize
    arenaCode := arenaInit code memCodeSize }

/-- `mem_alloc_code`: a block or an error pointer. -/
def memAllocCode (host : Host) (size alignment : Word) : ClientM Word :=
  ⟨fun c =>
    let res := arenaAlloc host.pageSize (host.mprotectRet c.mprotectCalls)
      c.arenaCode size alignment
    (.ok res.1, { c with
      arenaCode := res.2
      mprotectCalls := c.mprotectCalls + 1 })⟩

/-- `mem_alloc_data`. -/
def memAllocData (host : Host) (size alignment : Word) : ClientM Word :=
  ⟨fun c =>
    let res := arenaAlloc host.pageSize (host.mprotectRet c.mprotectCalls)
      c.arenaData size alignment
    (.ok res.1, { c with
      arenaData := res.2
      mprotectCalls := c.mprotectCalls + 1 })⟩

def setMem (f : Mem → Mem) : ClientM Unit :=
  Prog.modify fun c => { c with mem := f c.mem }

def getMem : ClientM Mem := do
  let c ← Prog.get
  return c.mem

/-- `mem_write_code`; it cannot fail. -/
def memWriteCode (dst : Word) (bytes : List Byte) : ClientM Unit :=
  setMem fun m => writeBytes m dst bytes

@[simp] theorem run_getMem (c : State) : getMem.run c = (.ok c.mem, c) := rfl

@[simp] theorem run_setMem (f : Mem → Mem) (c : State) :
    (setMem f).run c = (.ok (), { c with mem := f c.mem }) := rfl

@[simp] theorem run_memWriteCode (dst : Word) (bytes : List Byte) (c : State) :
    (memWriteCode dst bytes).run c =
      (.ok (), { c with mem := writeBytes c.mem dst bytes }) := rfl

/-! ## Blocks of the code arena -/

/-- The code arena may have grown; memory is left open and the rest of the
state is the same. -/
structure Grown (host : Host) (c c' : State) : Prop where
  state_eq : c' = { c with
    mem := c'.mem
    arenaCode := c'.arenaCode
    mprotectCalls := c'.mprotectCalls }
  ok : c'.arenaCode.Ok host.pageBits
  start_eq : c'.arenaCode.start = c.arenaCode.start
  endp_eq : c'.arenaCode.endp = c.arenaCode.endp
  brk_le : c.arenaCode.brk.toNat ≤ c'.arenaCode.brk.toNat

theorem Grown.refl {host : Host} {c : State} (hok : c.arenaCode.Ok host.pageBits) :
    Grown host c c :=
  ⟨rfl, hok, rfl, rfl, Nat.le_refl _⟩

theorem Grown.trans {host : Host} {c d e : State} (h : Grown host c d)
    (h' : Grown host d e) : Grown host c e where
  state_eq := by
    rw [h'.state_eq, h.state_eq]
  ok := h'.ok
  start_eq := h'.start_eq.trans h.start_eq
  endp_eq := h'.endp_eq.trans h.endp_eq
  brk_le := h.brk_le.trans h'.brk_le

theorem Grown.objects_eq {host : Host} {c c' : State} (h : Grown host c c') :
    c'.objects = c.objects := by
  rw [h.state_eq]

theorem Grown.plt_eq {host : Host} {c c' : State} (h : Grown host c c') :
    c'.plt = c.plt := by
  rw [h.state_eq]

/-- A change of memory only. -/
theorem Grown.of_mem {host : Host} {c : State} (hok : c.arenaCode.Ok host.pageBits)
    (m : Mem) : Grown host c { c with mem := m } :=
  ⟨rfl, hok, rfl, rfl, Nat.le_refl _⟩

theorem memAllocCode_ok {host : Host} {c c' : State} {p size alignment : Word}
    (hok : c.arenaCode.Ok host.pageBits) (hend : c.arenaCode.endp.toNat ≤ 2 ^ 63)
    (hsize : size.toNat ≤ 2 ^ 60) (hal : alignment.toNat ≤ 2 ^ 60)
    (hrun : (memAllocCode host size alignment).run c = (.ok p, c'))
    (hgood : ¬badAddr p) :
    Grown host c c' ∧ c'.mem = c.mem ∧ c.arenaCode.brk.toNat ≤ p.toNat ∧
      p.toNat + size.toNat = c'.arenaCode.brk.toNat ∧
      p.toNat % (arenaAlignment alignment).toNat = 0 := by
  simp only [memAllocCode, Prod.mk.injEq, Except.ok.injEq] at hrun
  obtain ⟨rfl, rfl⟩ := hrun
  obtain ⟨hok', hs, hen, hle, hsum, hmod⟩ := arenaAlloc_ok host.pageSize_eq host.pageBits_le hok
    hend hsize hal (host.mprotectRet_ge c.mprotectCalls) hgood
  exact ⟨⟨rfl, hok', hs, hen, by dsimp only; omega⟩, rfl, hle, hsum, hmod⟩

theorem memAllocCode_grown {host : Host} {c : State} {size alignment : Word}
    (hok : c.arenaCode.Ok host.pageBits) (hend : c.arenaCode.endp.toNat ≤ 2 ^ 63)
    (hsize : size.toNat ≤ 2 ^ 60) (hal : alignment.toNat ≤ 2 ^ 60) :
    Grown host c ((memAllocCode host size alignment).run c).2 := by
  obtain ⟨hok', hs, hen, hle⟩ := arenaAlloc_keeps host.pageSize_eq host.pageBits_le hok hend
    hsize hal (host.mprotectRet c.mprotectCalls)
  exact ⟨rfl, hok', hs, hen, hle⟩

/-! ## A sample host -/

/-- An x86-64 host with pages of 4 KiB whose kernel grants every request. -/
def quietHost (dispInfo : DispatcherInfo) : Host where
  arch := .x86_64
  pageSize := 0x1000
  pageBits := 12
  pageSize_eq := by decide
  pageBits_ge := by decide
  pageBits_le := by decide
  mprotectRet := fun _ => 0
  mprotectRet_ge := by
    intro _
    decide
  dispInfo := dispInfo
  dispatchAddr := fun _ => 0x500000
  pltAddr := fun _ => 0x600000
  stackBytes := fun _ => 0

def hhvmInfo : DispatcherInfo := ⟨.dispatchHhvmTail, .dispatchHhvmFullresolve, 14⟩

/-- The same host on AArch64. -/
def armHost : Host := { quietHost hhvmInfo with arch := .aarch64 }

/-- Zeroed memory and the arenas where `mem_init` asks for them. -/
def startState : State where
  mem := fun _ => 0
  arenaCode := arenaInit 0x400001000000 memCodeSize
  arenaData := arenaInit 0x400000000000 memDataSize
  mprotectCalls := 0
  objects := rtldInitTable
  plt := 0
  recvbuf := 0
  recvbufSz := 0
  quickTlb := fun _ => (0#64, 0#64)

end PollyInstrew.Client
