import PollyInstrew.Client.Reloc

/-!
# The procedure linkage table and the patch stubs

`plt_create` writes a table of indirect jumps to the client's functions.
`rtld_patch_create_stub` writes a stub that loads the address of its patch
data and jumps to slot 1 of that table, the full dispatch function.
-/

namespace PollyInstrew.Client

open PollyInstrew.ByteMemory PollyInstrew.StateExcept

/-- Names of the entries of `plt_entries`. -/
def pltNames (arch : Arch) : List String :=
  ["instrew_quick_dispatch", "instrew_full_dispatch",
    "syscall", "syscall_rv64", "syscall_aarch64", "cpuid",
    "__divti3", "__udivti3", "__modti3", "__umodti3",
    "floorf", "floor", "ceilf", "ceil", "roundf", "round", "truncf", "trunc",
    "fmaf", "fma", "instrew_tail_cdecl", "instrew_call_cdecl"] ++
  (match arch with
    | .x86_64 => ["instrew_tail_hhvm", "instrew_call_hhvm"]
    | .aarch64 => []) ++
  ["memset", "dprintf"]

/-- Data word `i` of the table: the address slot `i` jumps to. -/
def pltTarget (host : Host) (i : ℕ) (name : String) : Word :=
  if i = 0 then host.dispatchAddr host.dispInfo.quickDispatchFunc
  else if i = 1 then host.dispatchAddr host.dispInfo.fullDispatchFunc
  else host.pltAddr name

/-- `PLT_FUNC_SIZE`. -/
def pltFuncSize : ℕ := 8

def pltCodeSize (host : Host) : ℕ := (pltNames host.arch).length * pltFuncSize

def pltDataOffset (host : Host) : ℕ :=
  (alignUp (BitVec.ofNat 64 (pltCodeSize host)) 0x40#64).toNat

/-- Code of one slot; `offset` is the distance to its data word. -/
def pltSlotCode (arch : Arch) (offset : ℕ) : List Byte :=
  match arch with
  | .x86_64 =>
      leBytes 8 (0x0b0f0000000025ff#64 |||
        ((BitVec.ofNat 64 offset - 6) <<< 16)).toNat
  | .aarch64 =>
      leBytes 4 (0x58000011#64 ||| (BitVec.ofNat 64 offset <<< 3)).toNat ++
        leBytes 4 0xd61f0220

/-- The array `plt` of `plt_create`: the slots, an uninitialised gap and the
data words. -/
def pltBytes (host : Host) : List Byte :=
  let names := pltNames host.arch
  let offset := pltDataOffset host
  (names.flatMap fun _ => pltSlotCode host.arch offset) ++
    (List.range (offset - pltCodeSize host)).map host.stackBytes ++
    (names.zipIdx.flatMap fun e => leBytes 8 (pltTarget host e.2 e.1).toNat)

/-- `plt_create`. -/
def pltCreate (host : Host) : ClientM Word := do
  let bytes := pltBytes host
  let pltcode ← memAllocCode host (BitVec.ofNat 64 bytes.length) 0x40#64
  if badAddr pltcode then
    Prog.fail (ptrInt pltcode)
  else
    memWriteCode pltcode bytes
    return pltcode

/-- `sizeof(stcode)` in `rtld_patch_create_stub`. -/
def stubSize : ℕ := 0x30

/-- The first 16 bytes of an x86-64 stub: `lea` of the patch data, `jmp` to slot
1 of the table, which is `jmptgtdiff` bytes from the stub, `ud2` twice. -/
def x86StubCode (pdr : ℕ) (jmptgtdiff : Word) : List Byte :=
  [BitVec.ofNat 8 (0x48 + if 8 ≤ pdr then 4 else 0), 0x8d#8,
      BitVec.ofNat 8 (5 + (pdr % 8) * 8), 9#8, 0#8, 0#8, 0#8, 0xe9#8] ++
    leBytes 4 (jmptgtdiff - 12).toNat ++ leBytes 4 0x0b0f0b0f

/-- The first 16 bytes of an AArch64 stub: `adr` and `b`. -/
def aarch64StubCode (host : Host) (pdr : ℕ) (jmptgtdiff : Word) : Except ℤ (List Byte) := do
  rtldElfSignedRange (jmptgtdiff - 4) 28
  let branch := ((jmptgtdiff - 4).sshiftRight 2 &&& 0x03ffffff#64) |||
    (0x14000000#64 &&& ~~~0x03ffffff#64)
  return leBytes 4 (0x10000080 + pdr) ++ leBytes 4 branch.toNat ++
    (List.range 8).map fun i => host.stackBytes (8 + i)

def stubCode (host : Host) (jmptgtdiff : Word) : Except ℤ (List Byte) :=
  match host.arch with
  | .x86_64 => .ok (x86StubCode host.dispInfo.patchDataReg jmptgtdiff)
  | .aarch64 => aarch64StubCode host host.dispInfo.patchDataReg jmptgtdiff

/-- `rtld_patch_create_stub`. -/
def rtldPatchCreateStub (host : Host) (pd : RtldPatchData) : ClientM Word := do
  let stub ← memAllocCode host (BitVec.ofNat 64 stubSize) 0x40#64
  if badAddr stub then
    Prog.fail (ptrInt stub)
  else
    let c ← Prog.get
    let jmptgt := c.plt + BitVec.ofNat 64 pltFuncSize
    let code ← Prog.lift (stubCode host (jmptgt - stub))
    memWriteCode stub (code ++ pd.bytes)
    return stub

end PollyInstrew.Client
