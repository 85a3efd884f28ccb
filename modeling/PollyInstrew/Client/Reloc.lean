import PollyInstrew.Client.State

/-!
# Relocations

`rtld_reloc_at` computes the value a relocation stores and blends it into the
target.  `rtld_patch` applies the relocation described by the patch data of a
stub to code that is already in place.
-/

namespace PollyInstrew.Client

open PollyInstrew.ByteMemory PollyInstrew.StateExcept

/-- `struct RtldPatchData`. -/
structure RtldPatchData where
  symAddr : Word
  relType : BitVec 32
  relSize : BitVec 32
  addend : Word
  patchAddr : Word
  deriving DecidableEq, Repr

/-- Memory image of the patch data, 32 bytes. -/
def RtldPatchData.bytes (pd : RtldPatchData) : List Byte :=
  leBytes 8 pd.symAddr.toNat ++ leBytes 4 pd.relType.toNat ++
    leBytes 4 pd.relSize.toNat ++ leBytes 8 pd.addend.toNat ++
    leBytes 8 pd.patchAddr.toNat

/-- The patch data at an address. -/
def readPatchData (m : Mem) (a : Word) : RtldPatchData where
  symAddr := load 64 m a
  relType := load 32 m (a + 8)
  relSize := load 32 m (a + 12)
  addend := load 64 m (a + 16)
  patchAddr := load 64 m (a + 24)

/-- `CHECK_SIGNED_BITS(val, bits)`. -/
def checkSignedBits (val : Word) (bits : ℕ) : Bool :=
  -2 ^ (bits - 1) ≤ val.toInt ∧ val.toInt < 2 ^ (bits - 1) - 1

/-- `CHECK_UNSIGNED_BITS(val, bits)`. -/
def checkUnsignedBits (val : Word) (bits : ℕ) : Bool :=
  val.toNat < 2 ^ bits - 1

/-- `rtld_elf_signed_range`; the message it prints is left out. -/
def rtldElfSignedRange (val : Word) (bits : ℕ) : Except ℤ Unit :=
  if checkSignedBits val bits then .ok () else .error (-EINVAL)

/-- `rtld_elf_unsigned_range`. -/
def rtldElfUnsignedRange (val : Word) (bits : ℕ) : Except ℤ Unit :=
  if checkUnsignedBits val bits then .ok () else .error (-EINVAL)

/-- `rtld_blend`. -/
def rtldBlend (m : Mem) (tgt mask data : Word) : Mem :=
  if 0xffffffff#64 < mask then
    store 64 m tgt ((data &&& mask) ||| (load 64 m tgt &&& ~~~mask))
  else if 0xffff#64 < mask then
    store 32 m tgt
      (((data &&& mask) ||| ((load 32 m tgt).setWidth 64 &&& ~~~mask)).setWidth 32)
  else if 0xff#64 < mask then
    store 16 m tgt
      (((data &&& mask) ||| ((load 16 m tgt).setWidth 64 &&& ~~~mask)).setWidth 16)
  else
    store 8 m tgt
      (((data &&& mask) ||| ((load 8 m tgt).setWidth 64 &&& ~~~mask)).setWidth 8)

def R_X86_64_64 : BitVec 32 := 1
def R_X86_64_PC32 : BitVec 32 := 2
def R_X86_64_PLT32 : BitVec 32 := 4
def R_X86_64_32 : BitVec 32 := 10
def R_X86_64_32S : BitVec 32 := 11
def R_X86_64_PC64 : BitVec 32 := 24

def R_AARCH64_PREL64 : BitVec 32 := 260
def R_AARCH64_PREL32 : BitVec 32 := 261
def R_AARCH64_MOVW_UABS_G0_NC : BitVec 32 := 264
def R_AARCH64_MOVW_UABS_G1_NC : BitVec 32 := 266
def R_AARCH64_MOVW_UABS_G2_NC : BitVec 32 := 268
def R_AARCH64_MOVW_UABS_G3 : BitVec 32 := 269
def R_AARCH64_ADR_PREL_PG_HI21 : BitVec 32 := 275
def R_AARCH64_ADD_ABS_LO12_NC : BitVec 32 := 277
def R_AARCH64_LDST8_ABS_LO12_NC : BitVec 32 := 278
def R_AARCH64_JUMP26 : BitVec 32 := 282
def R_AARCH64_CALL26 : BitVec 32 := 283
def R_AARCH64_LDST16_ABS_LO12_NC : BitVec 32 := 284
def R_AARCH64_LDST32_ABS_LO12_NC : BitVec 32 := 285
def R_AARCH64_LDST64_ABS_LO12_NC : BitVec 32 := 286
def R_AARCH64_LDST128_ABS_LO12_NC : BitVec 32 := 299

/-- Mask and data that `rtld_reloc_at` blends into the target on x86-64. -/
def x86RelocData (relType : BitVec 32) (syma prelSyma : Word) :
    Except ℤ (Word × Word) :=
  if relType = R_X86_64_PC64 then
    .ok (0xffffffffffffffff#64, prelSyma)
  else if relType = R_X86_64_64 then
    .ok (0xffffffffffffffff#64, syma)
  else if relType = R_X86_64_PC32 ∨ relType = R_X86_64_PLT32 then do
    rtldElfSignedRange prelSyma 32
    return (0xffffffff#64, prelSyma)
  else if relType = R_X86_64_32S then do
    rtldElfSignedRange syma 32
    return (0xffffffff#64, syma)
  else if relType = R_X86_64_32 then do
    rtldElfUnsignedRange syma 32
    return (0xffffffff#64, syma)
  else
    .error (-EINVAL)

/-- The veneer `rtld_elf_add_stub` writes: a 64-bit constant moved to `x16`
and a branch to it. -/
def veneerCode (sym : Word) : List Byte :=
  let part (shift : ℕ) : Word := ((sym >>> shift) &&& 0xffff#64) <<< 5
  leBytes 4 (0xd2800010#64 ||| part 0).toNat ++
    leBytes 4 (0xf2a00010#64 ||| part 16).toNat ++
    leBytes 4 (0xf2c00010#64 ||| part 32).toNat ++
    leBytes 4 (0xf2e00010#64 ||| part 48).toNat ++
    leBytes 4 0xd61f0200

/-- `rtld_elf_add_stub`. -/
def rtldElfAddStub (host : Host) (sym : Word) : ClientM Word := do
  let stub ← memAllocCode host 20#64 0x40#64
  if badAddr stub then
    Prog.fail (ptrInt stub)
  else
    memWriteCode stub (veneerCode sym)
    return stub

/-- Displacement of an AArch64 branch; a veneer is created if the target is out
of range. -/
def branchDisplacement (host : Host) (syma pc : Word) : ClientM Word := do
  if checkSignedBits (syma - pc) 28 then
    return syma - pc
  else
    let stub ← rtldElfAddStub host syma
    return stub - pc

/-- Mask and data that `rtld_reloc_at` blends into the target on AArch64. -/
def aarch64RelocData (host : Host) (relType : BitVec 32) (syma pc : Word) :
    ClientM (Word × Word) :=
  let prelSyma := syma - pc
  let lo12 (scale : ℕ) : ClientM (Word × Word) :=
    return ((0xfff#64 >>> scale) <<< 10, (syma >>> scale) <<< 10)
  let movw (shift : ℕ) : ClientM (Word × Word) :=
    return (0xffff#64 <<< 5, (syma >>> shift) <<< 5)
  if relType = R_AARCH64_PREL64 then
    return (0xffffffffffffffff#64, prelSyma)
  else if relType = R_AARCH64_PREL32 then do
    Prog.lift (rtldElfSignedRange prelSyma 32)
    return (0xffffffff#64, prelSyma)
  else if relType = R_AARCH64_JUMP26 ∨ relType = R_AARCH64_CALL26 then do
    let prelSyma ← branchDisplacement host syma pc
    Prog.lift (rtldElfSignedRange prelSyma 28)
    return (0x03ffffff#64, prelSyma.sshiftRight 2)
  else if relType = R_AARCH64_ADR_PREL_PG_HI21 then do
    let prelSyma := (alignDown syma 0x1000#64 - alignDown pc 0x1000#64).sshiftRight 12
    Prog.lift (rtldElfSignedRange prelSyma 21)
    return (0x60ffffe0#64, ((prelSyma &&& 3#64) <<< 29) |||
      ((prelSyma.sshiftRight 2 &&& 0x7ffff#64) <<< 5))
  else if relType = R_AARCH64_ADD_ABS_LO12_NC then
    lo12 0
  else if relType = R_AARCH64_LDST8_ABS_LO12_NC then
    lo12 0
  else if relType = R_AARCH64_LDST16_ABS_LO12_NC then
    lo12 1
  else if relType = R_AARCH64_LDST32_ABS_LO12_NC then
    lo12 2
  else if relType = R_AARCH64_LDST64_ABS_LO12_NC then
    lo12 3
  else if relType = R_AARCH64_LDST128_ABS_LO12_NC then
    lo12 4
  else if relType = R_AARCH64_MOVW_UABS_G0_NC then
    movw 0
  else if relType = R_AARCH64_MOVW_UABS_G1_NC then
    movw 16
  else if relType = R_AARCH64_MOVW_UABS_G2_NC then
    movw 32
  else if relType = R_AARCH64_MOVW_UABS_G3 then
    movw 48
  else
    Prog.fail (-EINVAL)

/-- The part of `rtld_reloc_at` before the target is written: mask and data of
the final `rtld_blend`. -/
def rtldRelocData (host : Host) (pd : RtldPatchData) (sym : Word) :
    ClientM (Word × Word) :=
  let syma := sym + pd.addend
  let pc := pd.patchAddr
  match host.arch with
  | .x86_64 => Prog.lift (x86RelocData pd.relType syma (syma - pc))
  | .aarch64 => aarch64RelocData host pd.relType syma pc

/-- `rtld_reloc_at`. -/
def rtldRelocAt (host : Host) (pd : RtldPatchData) (tgt sym : Word) : ClientM Unit := do
  let (mask, data) ← rtldRelocData host pd sym
  setMem fun m => rtldBlend m tgt mask data

/-- `rtld_patch`: the field is copied to a local buffer, relocated there and
copied back.  A failed relocation leaves the buffer as it was read. -/
def rtldPatch (host : Host) (patchData sym : Word) : ClientM Unit := do
  let m ← getMem
  let pd := readPatchData m patchData
  if patchData = 0#64 then
    return
  else if 8#32 < pd.relSize then
    return
  else
    let relSize := pd.relSize.toNat
    let relocBuf := writeBytes (fun i => host.stackBytes i.toNat) 0#64
      (readBytes m pd.patchAddr relSize)
    let blend ← tryRelocData host pd sym
    let relocBuf :=
      match blend with
      | some (mask, data) => rtldBlend relocBuf 0#64 mask data
      | none => relocBuf
    memWriteCode pd.patchAddr (readBytes relocBuf 0#64 relSize)
where
  /-- `(void) rtld_reloc_at(…)`: the result is ignored. -/
  tryRelocData (host : Host) (pd : RtldPatchData) (sym : Word) :
      ClientM (Option (Word × Word)) :=
    ⟨fun c =>
      match (rtldRelocData host pd sym).run c with
      | (.ok blend, c') => (.ok (some blend), c')
      | (.error _, c') => (.ok none, c')⟩

end PollyInstrew.Client
