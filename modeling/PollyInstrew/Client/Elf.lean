import PollyInstrew.Client.Stub

/-!
# Loading relocatable objects

`rtld_add_object` lays out the allocated sections of an object, relocates them
in the receive buffer, copies them to the code arena and enters the functions
they define in the table.  All headers are read from memory where the source
reads them, at the moment it reads them.
-/

namespace PollyInstrew.Client

open PollyInstrew.ByteMemory PollyInstrew.StateExcept

/-! ## Headers -/

/-- The fields of `Elf64_Shdr` that are read. -/
structure Shdr where
  shType : BitVec 32
  shFlags : Word
  shAddr : Word
  shOffset : Word
  shSize : Word
  shLink : BitVec 32
  shInfo : BitVec 32
  shAddralign : Word
  shEntsize : Word
  deriving DecidableEq, Repr

def readShdr (m : Mem) (a : Word) : Shdr where
  shType := load 32 m (a + 4)
  shFlags := load 64 m (a + 8)
  shAddr := load 64 m (a + 16)
  shOffset := load 64 m (a + 24)
  shSize := load 64 m (a + 32)
  shLink := load 32 m (a + 40)
  shInfo := load 32 m (a + 44)
  shAddralign := load 64 m (a + 48)
  shEntsize := load 64 m (a + 56)

/-- The fields of `Elf64_Sym` that are read. -/
structure Sym where
  stName : BitVec 32
  stInfo : Byte
  stOther : Byte
  stShndx : BitVec 16
  stValue : Word
  deriving DecidableEq, Repr

def readSym (m : Mem) (a : Word) : Sym where
  stName := load 32 m a
  stInfo := load 8 m (a + 4)
  stOther := load 8 m (a + 5)
  stShndx := load 16 m (a + 6)
  stValue := load 64 m (a + 8)

/-- `Elf64_Rela`. -/
structure Rela where
  rOffset : Word
  rInfo : Word
  rAddend : Word
  deriving DecidableEq, Repr

def readRela (m : Mem) (a : Word) : Rela where
  rOffset := load 64 m a
  rInfo := load 64 m (a + 8)
  rAddend := load 64 m (a + 16)

def SHT_PROGBITS : BitVec 32 := 1
def SHT_SYMTAB : BitVec 32 := 2
def SHT_STRTAB : BitVec 32 := 3
def SHT_RELA : BitVec 32 := 4
def SHT_NOBITS : BitVec 32 := 8
def SHF_ALLOC : Word := 0x2
def SHF_EXECINSTR : Word := 0x4
def SHF_MERGE : Word := 0x10
def SHF_STRINGS : Word := 0x20
def SHF_INFO_LINK : Word := 0x40
def SHN_UNDEF : BitVec 16 := 0
def SHN_ABS : BitVec 16 := 0xfff1

/-- `sizeof(Elf64_Shdr)`, `sizeof(Elf64_Sym)` and `sizeof(Elf64_Rela)`. -/
def shdrSize : ℕ := 64
def symSize : ℕ := 24
def relaSize : ℕ := 24

/-- `struct RtldElf`. -/
structure RtldElf where
  base : Word
  size : Word
  skew : Word
  reShdr : Word
  deriving DecidableEq, Repr

/-- `re->re_ehdr->e_shnum`. -/
def shnum (m : Mem) (re : RtldElf) : ℕ := (load 16 m (re.base + 60)).toNat

/-- `re->re_shdr + i`. -/
def shdrAddr (re : RtldElf) (i : ℕ) : Word := re.reShdr + BitVec.ofNat 64 (shdrSize * i)

/-- Section header `i`. -/
def shdr (m : Mem) (re : RtldElf) (i : ℕ) : Shdr := readShdr m (shdrAddr re i)

def emCurrent : Arch → BitVec 16
  | .x86_64 => 62
  | .aarch64 => 183

/-- `rtld_elf_init`. -/
def rtldElfInit (host : Host) (m : Mem) (objBase objSize skew : Word) :
    Except ℤ RtldElf :=
  let eShoff := load 64 m (objBase + 40)
  let eShentsize := load 16 m (objBase + 58)
  let eShnum := load 16 m (objBase + 60)
  if objSize < 64#64 then
    .error (-EINVAL)
  else if readBytes m objBase 4 ≠ [0x7f#8, 0x45#8, 0x4c#8, 0x46#8] then
    .error (-EINVAL)
  else if load 16 m (objBase + 16) ≠ 1#16 then
    .error (-EINVAL)
  else if m (objBase + 4) ≠ 2#8 then
    .error (-EINVAL)
  else if load 16 m (objBase + 18) ≠ emCurrent host.arch then
    .error (-EINVAL)
  else if eShentsize.toNat ≠ shdrSize then
    .error (-EINVAL)
  else if objSize < eShoff + BitVec.ofNat 64 (eShentsize.toNat * eShnum.toNat) then
    .error (-EINVAL)
  else
    .ok ⟨objBase, objSize, skew, objBase + eShoff⟩

/-! ## Names -/

/-- A C string: its characters, by position. -/
abbrev CStr := ℕ → Byte

def cstrAt (m : Mem) (a : Word) : CStr := fun k => m (a + BitVec.ofNat 64 k)

/-- Characters of a string literal. -/
def literal (s : String) : List Byte := s.toList.map fun ch => BitVec.ofNat 8 ch.toNat

def literalCStr (s : String) : CStr := fun k => (literal s)[k]?.getD 0

/-- `!strncmp(name, lit, strlen(lit))`, comparing from position `k` on. -/
def startsWith (name : CStr) : List Byte → ℕ → Bool
  | [], _ => true
  | b :: bs, k => name k = b && startsWith name bs (k + 1)

/-- `!strcmp(name, lit)`, comparing from position `k` on. -/
def equals (name : CStr) : List Byte → ℕ → Bool
  | [], k => name k = 0#8
  | b :: bs, k => name k = b && equals name bs (k + 1)

/-- The digit loop of `rtld_elf_decode_name`; `none` when a character is no
octal digit.  The counter has 32 bits: should it wrap, the next character read
is the leading letter again. -/
def decodeDigits (name : CStr) : ℕ → ℕ → Word → Option Word
  | 0, _, _ => none
  | fuel + 1, k, addr =>
      if name k = 0#8 ∨ name k = 0x5f#8 then
        some addr
      else if name k < 0x30#8 ∨ 0x38#8 ≤ name k then
        none
      else
        decodeDigits name fuel (k + 1)
          ((addr <<< 3) ||| (name k - 0x30#8).setWidth 64)

/-- `rtld_elf_decode_name`.  The result `none` is the return value `0` with
`*out_addr` left alone. -/
def rtldElfDecodeName (skew : Word) (name : CStr) : Except ℤ (Option Word) :=
  if name 0 ≠ 0x5a#8 ∧ name 0 ≠ 0x53#8 then
    .error (-EINVAL)
  else
    .ok ((decodeDigits name (2 ^ 32 - 1) 1 0#64).map fun addr =>
      if name 0 = 0x53#8 then addr + skew else addr)

/-- `rtld_elf_resolve_str`: where the string is. -/
def rtldElfResolveStr (m : Mem) (re : RtldElf) (strtabIdx strIdx : ℕ) :
    Except ℤ Word :=
  if strtabIdx = 0 ∨ shnum m re ≤ strtabIdx then
    .error (-EINVAL)
  else
    let strShdr := shdr m re strtabIdx
    if strShdr.shType ≠ SHT_STRTAB then
      .error (-EINVAL)
    else if strShdr.shSize.toNat ≤ strIdx then
      .error (-EINVAL)
    else
      .ok (re.base + strShdr.shOffset + BitVec.ofNat 64 strIdx)

/-! ## Symbols and relocations -/

/-- Address of symbol `symIdx` of the symbol table `symtabIdx`. -/
def symAddrAt (m : Mem) (re : RtldElf) (symtabIdx symIdx : ℕ) : Word :=
  re.base + (shdr m re symtabIdx).shOffset + BitVec.ofNat 64 (symSize * symIdx)

/-- Index of the first entry of the PLT with the given name. -/
def pltIndex (arch : Arch) (name : CStr) : Option ℕ :=
  (pltNames arch).findIdx? fun entry => equals name (literal entry) 0

/-- The name of an undefined symbol; `"<unknown>"` if there is none. -/
def undefName (m : Mem) (re : RtldElf) (symtabIdx : ℕ) (sym : Sym) : CStr :=
  match rtldElfResolveStr m re (shdr m re symtabIdx).shLink.toNat sym.stName.toNat with
  | .ok a => cstrAt m a
  | .error _ => literalCStr "<unknown>"

/-- The checks on the symbol table and the index at the start of
`rtld_elf_resolve_sym`. -/
def symIdxOk (m : Mem) (re : RtldElf) (symtabIdx symIdx : ℕ) : Bool :=
  let symShdr := shdr m re symtabIdx
  symtabIdx ≠ 0 && symtabIdx < shnum m re && symShdr.shType = SHT_SYMTAB &&
    symShdr.shEntsize.toNat = symSize && symIdx ≠ 0 &&
    symIdx < symShdr.shSize.toNat / symSize

/-- The branch of `rtld_elf_resolve_sym` for a name that decodes to the guest
address `addr`. -/
def resolveGuestAddr (host : Host) (pd : RtldPatchData) (addr : Word) :
    ClientM Word := do
  let c ← Prog.get
  match rtldResolve c.objects addr with
  | .ok entry => return entry
  | .error _ => rtldPatchCreateStub host { pd with symAddr := addr }

/-- The branch of `rtld_elf_resolve_sym` for undefined symbols. -/
def resolveUndefined (host : Host) (re : RtldElf) (name : CStr) (pd : RtldPatchData) :
    ClientM Word := do
  if startsWith name (literal "glob_") 0 then
    Prog.fail (-EINVAL)
  else if equals name (literal "instrew_baseaddr") 0 then
    return re.skew
  else
    match rtldElfDecodeName re.skew name with
    | .ok addr => resolveGuestAddr host pd (addr.getD 0#64)
    | .error _ =>
        let c ← Prog.get
        match pltIndex host.arch name with
        | some i => return c.plt + BitVec.ofNat 64 (i * pltFuncSize)
        | none => Prog.fail (-EINVAL)

/-- `rtld_elf_resolve_sym`. -/
def rtldElfResolveSym (host : Host) (re : RtldElf) (symtabIdx symIdx : ℕ)
    (pd : RtldPatchData) : ClientM Word := do
  let m ← getMem
  if symIdxOk m re symtabIdx symIdx then
    let sym := readSym m (symAddrAt m re symtabIdx symIdx)
    if sym.stShndx = SHN_UNDEF then
      resolveUndefined host re (undefName m re symtabIdx sym) pd
    else if sym.stShndx = SHN_ABS then
      return sym.stValue
    else if sym.stShndx.toNat < shnum m re then
      return (shdr m re sym.stShndx.toNat).shAddr + sym.stValue
    else
      Prog.fail (-EINVAL)
  else
    Prog.fail (-EINVAL)

/-- Relocation `k` of section `relaIdx`. -/
def relaAt (m : Mem) (re : RtldElf) (relaIdx k : ℕ) : Rela :=
  readRela m (re.base + (shdr m re relaIdx).shOffset + BitVec.ofNat 64 (relaSize * k))

/-- The patch data `rtld_elf_process_rela` sets up for a relocation against a
target section. -/
def relaPatchData (rela : Rela) (tgtShdr : Shdr) : RtldPatchData where
  symAddr := 0
  relType := rela.rInfo.setWidth 32
  relSize := 8
  addend := rela.rAddend
  patchAddr := tgtShdr.shAddr + rela.rOffset

/-- Body of the loop of `rtld_elf_process_rela`; `first` points at the first
relocation. -/
def processRelaEntry (host : Host) (re : RtldElf) (first : Word) (tgtIdx symtabIdx : ℕ)
    (secWriteAddr : Word) (k : ℕ) : ClientM Unit := do
  let m ← getMem
  let rela := readRela m (first + BitVec.ofNat 64 (relaSize * k))
  let tgtShdr := shdr m re tgtIdx
  if tgtShdr.shSize ≤ rela.rOffset then
    Prog.fail (-EINVAL)
  else
    let pd := relaPatchData rela tgtShdr
    let sym ← orEinval (rtldElfResolveSym host re symtabIdx
      (rela.rInfo >>> 32).toNat pd)
    rtldRelocAt host pd (secWriteAddr + rela.rOffset) sym
where
  /-- `if (… < 0) return -EINVAL;` -/
  orEinval {α : Type} (x : ClientM α) : ClientM α :=
    ⟨fun c =>
      match x.run c with
      | (.ok a, c') => (.ok a, c')
      | (.error _, c') => (.error (-EINVAL), c')⟩

/-- `rtld_elf_process_rela`. -/
def rtldElfProcessRela (host : Host) (re : RtldElf) (relaIdx : ℕ) : ClientM Unit := do
  let m ← getMem
  let relaShdr := shdr m re relaIdx
  let tgtIdx := relaShdr.shInfo.toNat
  if relaIdx = 0 ∨ shnum m re ≤ relaIdx then
    Prog.fail (-EINVAL)
  else if relaShdr.shType ≠ SHT_RELA then
    Prog.fail (-EINVAL)
  else if relaShdr.shEntsize.toNat ≠ relaSize then
    Prog.fail (-EINVAL)
  else if tgtIdx = 0 ∨ shnum m re ≤ tgtIdx then
    Prog.fail (-EINVAL)
  else if (shdr m re tgtIdx).shFlags &&& SHF_ALLOC = 0#64 then
    Prog.fail (-EINVAL)
  else
    Prog.forRange (relaShdr.shSize.toNat / relaSize)
      (processRelaEntry host re (re.base + relaShdr.shOffset) tgtIdx
        relaShdr.shLink.toNat (re.base + (shdr m re tgtIdx).shOffset))

end PollyInstrew.Client
