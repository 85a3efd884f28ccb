import PollyInstrew.Client.Frame
import PollyInstrew.Support.Trace

/-!
# The accesses of `rtld_add_object`

The functions of the linker once more, with a history of what they read of the
object and of the code and fields they write.  Without the history they are the
functions of the model.
-/

namespace PollyInstrew.Client

open PollyInstrew.ByteMemory PollyInstrew.StateExcept

/-- An access.  Offsets are those of the section or table in the file. -/
inductive Access where
  /-- The ELF header is read. -/
  | ehdr
  /-- Section header `i` is read. -/
  | shdr (i : ℕ)
  /-- The address of section `i` is written to its header. -/
  | place (i : ℕ)
  /-- Relocation `k` of a section is read. -/
  | rela (shOffset : Word) (k : ℕ)
  /-- Symbol `k` of a symbol table is read. -/
  | sym (shOffset : Word) (k : ℕ)
  /-- `n` characters of a name in a string table are read. -/
  | name (shOffset : Word) (stName n : ℕ)
  /-- A field of a section is read and written. -/
  | relocate (shOffset shSize rOffset : Word) (width : ℕ)
  /-- A section is read and copied while `totsz` bytes are allocated at `base`. -/
  | copy (s : Shdr) (base totsz : Word)
  /-- A stub is written to a new block. -/
  | stub (addr : Word) (pd : RtldPatchData) (bytes : List Byte)
  /-- A veneer is written to a new block. -/
  | veneer (addr : Word) (bytes : List Byte)
  deriving DecidableEq

/-- The linker with a history. -/
abbrev TraceM := Prog (State × List Access) ℤ

open Prog (emit silent)

/-! ## Characters of names -/

/-- Characters `strncmp` reads, from position `k` on. -/
def startsExtent (name : CStr) : List Byte → ℕ → ℕ
  | [], k => k
  | b :: bs, k => if name k = b then startsExtent name bs (k + 1) else k + 1

/-- Characters `strcmp` reads. -/
def equalsExtent (name : CStr) : List Byte → ℕ → ℕ
  | [], k => k + 1
  | b :: bs, k => if name k = b then equalsExtent name bs (k + 1) else k + 1

/-- Characters the digit loop of `rtld_elf_decode_name` reads. -/
def digitsExtent (name : CStr) : ℕ → ℕ → ℕ
  | 0, k => k
  | fuel + 1, k =>
      if name k = 0#8 ∨ name k = 0x5f#8 ∨ name k < 0x30#8 ∨ 0x38#8 ≤ name k then k + 1
      else digitsExtent name fuel (k + 1)

def decodeExtent (name : CStr) : ℕ :=
  if name 0 ≠ 0x5a#8 ∧ name 0 ≠ 0x53#8 then 1 else digitsExtent name (2 ^ 32 - 1) 1

/-- Characters up to the end of the string, as `dprintf` reads them. -/
def stringExtent (name : CStr) : ℕ → ℕ → ℕ
  | 0, k => k
  | fuel + 1, k => if name k = 0#8 then k + 1 else stringExtent name fuel (k + 1)

/-- Characters the search through the PLT reads. -/
def pltExtent (name : CStr) : List String → ℕ
  | [] => 0
  | entry :: entries =>
      if equals name (literal entry) 0 then equalsExtent name (literal entry) 0
      else max (equalsExtent name (literal entry) 0) (pltExtent name entries)

/-- Characters `rtld_elf_resolve_sym` reads of the name of an undefined symbol; a
name that is not known is printed. -/
def undefExtent (arch : Arch) (skew : Word) (name : CStr) : ℕ :=
  max (startsExtent name (literal "glob_") 0) <|
    if startsWith name (literal "glob_") 0 then
      stringExtent name (2 ^ 64) 0
    else max (equalsExtent name (literal "instrew_baseaddr") 0) <|
      if equals name (literal "instrew_baseaddr") 0 then
        0
      else max (decodeExtent name) <|
        match rtldElfDecodeName skew name with
        | .ok _ => 0
        | .error _ => max (pltExtent name (pltNames arch)) <|
            if (pltIndex arch name).isNone then stringExtent name (2 ^ 64) 0 else 0

/-- Characters the last pass reads of the name of a defined function; a name that
is not valid is printed. -/
def registerExtent (skew : Word) (name : CStr) : ℕ :=
  max (decodeExtent name) <|
    match rtldElfDecodeName skew name with
    | .ok addr => if addr.getD 0#64 = 0#64 then stringExtent name (2 ^ 64) 0 else 0
    | .error _ => stringExtent name (2 ^ 64) 0

/-! ## Relocations -/

/-- Bytes `rtld_blend` reads and writes. -/
def blendWidth (mask : Word) : ℕ :=
  if 0xffffffff#64 < mask then 8
  else if 0xffff#64 < mask then 4
  else if 0xff#64 < mask then 2
  else 1

def rtldElfAddStubT (host : Host) (sym : Word) : TraceM Word := do
  let stub ← silent (memAllocCode host 20#64 0x40#64)
  if badAddr stub then
    Prog.fail (ptrInt stub)
  else
    emit (.veneer stub (veneerCode sym))
    silent (memWriteCode stub (veneerCode sym))
    return stub

def branchDisplacementT (host : Host) (syma pc : Word) : TraceM Word :=
  if checkSignedBits (syma - pc) 28 then
    return syma - pc
  else do
    let stub ← rtldElfAddStubT host syma
    return stub - pc

def aarch64RelocDataT (host : Host) (relType : BitVec 32) (syma pc : Word) :
    TraceM (Word × Word) :=
  if relType = R_AARCH64_JUMP26 ∨ relType = R_AARCH64_CALL26 then do
    let prelSyma ← branchDisplacementT host syma pc
    Prog.lift (rtldElfSignedRange prelSyma 28)
    return (0x03ffffff#64, prelSyma.sshiftRight 2)
  else
    silent (aarch64RelocData host relType syma pc)

def rtldRelocDataT (host : Host) (pd : RtldPatchData) (sym : Word) : TraceM (Word × Word) :=
  match host.arch with
  | .x86_64 => silent (rtldRelocData host pd sym)
  | .aarch64 => aarch64RelocDataT host pd.relType (sym + pd.addend) pd.patchAddr

/-- The field is at `rOffset` of the section at `shOffset`. -/
def rtldRelocAtT (host : Host) (re : RtldElf) (pd : RtldPatchData)
    (shOffset shSize rOffset sym : Word) : TraceM Unit := do
  let (mask, data) ← rtldRelocDataT host pd sym
  emit (.relocate shOffset shSize rOffset (blendWidth mask))
  silent (setMem fun m => rtldBlend m (re.base + shOffset + rOffset) mask data)

def rtldPatchCreateStubT (host : Host) (pd : RtldPatchData) : TraceM Word := do
  let stub ← silent (memAllocCode host (BitVec.ofNat 64 stubSize) 0x40#64)
  if badAddr stub then
    Prog.fail (ptrInt stub)
  else
    let c ← silent Prog.get
    let jmptgt := c.plt + BitVec.ofNat 64 pltFuncSize
    let code ← Prog.lift (stubCode host (jmptgt - stub))
    emit (.stub stub pd (code ++ pd.bytes))
    silent (memWriteCode stub (code ++ pd.bytes))
    return stub

def resolveGuestAddrT (host : Host) (pd : RtldPatchData) (addr : Word) : TraceM Word := do
  let c ← silent Prog.get
  match rtldResolve c.objects addr with
  | .ok entry => return entry
  | .error _ => rtldPatchCreateStubT host { pd with symAddr := addr }

def resolveUndefinedT (host : Host) (re : RtldElf) (name : CStr) (pd : RtldPatchData) :
    TraceM Word := do
  if startsWith name (literal "glob_") 0 then
    Prog.fail (-EINVAL)
  else if equals name (literal "instrew_baseaddr") 0 then
    return re.skew
  else
    match rtldElfDecodeName re.skew name with
    | .ok addr => resolveGuestAddrT host pd (addr.getD 0#64)
    | .error _ =>
        let c ← silent Prog.get
        match pltIndex host.arch name with
        | some i => return c.plt + BitVec.ofNat 64 (i * pltFuncSize)
        | none => Prog.fail (-EINVAL)

/-- The accesses of `rtld_elf_resolve_str` and those to the string. -/
def traceStr (re : RtldElf) (m : Mem) (strtabIdx strIdx : ℕ) (extent : CStr → ℕ) :
    TraceM Unit :=
  if strtabIdx = 0 ∨ shnum m re ≤ strtabIdx then
    return
  else do
    emit (.shdr strtabIdx)
    match rtldElfResolveStr m re strtabIdx strIdx with
    | .ok a => emit (.name (shdr m re strtabIdx).shOffset strIdx (extent (cstrAt m a)))
    | .error _ => return

/-- A section header is read if the index is valid. -/
def traceShdr (re : RtldElf) (m : Mem) (i : ℕ) : TraceM Unit :=
  if i = 0 ∨ shnum m re ≤ i then return else emit (.shdr i)

def rtldElfResolveSymT (host : Host) (re : RtldElf) (symtabIdx symIdx : ℕ)
    (pd : RtldPatchData) : TraceM Word := do
  let m ← silent getMem
  traceShdr re m symtabIdx
  if symIdxOk m re symtabIdx symIdx then
    emit (.sym (shdr m re symtabIdx).shOffset symIdx)
    let sym := readSym m (symAddrAt m re symtabIdx symIdx)
    if sym.stShndx = SHN_UNDEF then
      traceStr re m (shdr m re symtabIdx).shLink.toNat sym.stName.toNat
        (undefExtent host.arch re.skew)
      resolveUndefinedT host re (undefName m re symtabIdx sym) pd
    else if sym.stShndx = SHN_ABS then
      return sym.stValue
    else if sym.stShndx.toNat < shnum m re then
      emit (.shdr sym.stShndx.toNat)
      return (shdr m re sym.stShndx.toNat).shAddr + sym.stValue
    else
      Prog.fail (-EINVAL)
  else
    Prog.fail (-EINVAL)

/-- `if (… < 0) return -EINVAL;` -/
def orEinvalT {α : Type} (x : TraceM α) : TraceM α :=
  ⟨fun s =>
    match x.run s with
    | (.ok a, s') => (.ok a, s')
    | (.error _, s') => (.error (-EINVAL), s')⟩

/-- The relocations are at `relOff` of the file, the target section at `tgtOff`. -/
def processRelaEntryT (host : Host) (re : RtldElf) (relOff : Word) (tgtIdx symtabIdx : ℕ)
    (tgtOff : Word) (k : ℕ) : TraceM Unit := do
  let m ← silent getMem
  emit (.rela relOff k)
  let rela := readRela m (re.base + relOff + BitVec.ofNat 64 (relaSize * k))
  emit (.shdr tgtIdx)
  let tgtShdr := shdr m re tgtIdx
  if tgtShdr.shSize ≤ rela.rOffset then
    Prog.fail (-EINVAL)
  else
    let pd := relaPatchData rela tgtShdr
    let sym ← orEinvalT (rtldElfResolveSymT host re symtabIdx (rela.rInfo >>> 32).toNat pd)
    rtldRelocAtT host re pd tgtOff tgtShdr.shSize rela.rOffset sym

def rtldElfProcessRelaT (host : Host) (re : RtldElf) (relaIdx : ℕ) : TraceM Unit := do
  let m ← silent getMem
  traceShdr re m relaIdx
  let relaShdr := shdr m re relaIdx
  let tgtIdx := relaShdr.shInfo.toNat
  if relaIdx = 0 ∨ shnum m re ≤ relaIdx then
    Prog.fail (-EINVAL)
  else if relaShdr.shType ≠ SHT_RELA then
    Prog.fail (-EINVAL)
  else if relaShdr.shEntsize.toNat ≠ relaSize then
    Prog.fail (-EINVAL)
  else if tgtIdx = 0 ∨ shnum m re ≤ tgtIdx then
    Prog.fail (-EINVAL)
  else do
    emit (.shdr tgtIdx)
    if (shdr m re tgtIdx).shFlags &&& SHF_ALLOC = 0#64 then
      Prog.fail (-EINVAL)
    else
      Prog.forRange (relaShdr.shSize.toNat / relaSize)
        (processRelaEntryT host re relaShdr.shOffset tgtIdx relaShdr.shLink.toNat
          (shdr m re tgtIdx).shOffset)

/-! ## The passes -/

def layoutPassT (re : RtldElf) : ℕ → ℕ → Word → Word → TraceM (Word × Word)
  | 0, _, totsz, totalign => return (totsz, totalign)
  | fuel + 1, i, totsz, totalign => do
      let m ← silent getMem
      if i < shnum m re then
        emit (.shdr i)
        let s := shdr m re i
        if s.shFlags &&& ~~~supportedFlags ≠ 0#64 then
          Prog.fail (-EINVAL)
        else if s.isAlloc then
          let off := alignUp totsz s.shAddralign
          emit (.place i)
          silent (setShAddr re i off)
          let m ← silent getMem
          let s := shdr m re i
          layoutPassT re fuel (i + 1) (off + s.shSize)
            (if totalign < s.shAddralign then s.shAddralign else totalign)
        else
          layoutPassT re fuel (i + 1) totsz totalign
      else
        return (totsz, totalign)

def forSectionsT (re : RtldElf) (body : ℕ → TraceM Unit) : TraceM Unit :=
  Prog.whileFrom (fun i s => i < shnum s.1.mem re) body shnumBound 0

def rebasePassT (re : RtldElf) (base : Word) : TraceM Unit :=
  forSectionsT re fun i => do
    let m ← silent getMem
    emit (.shdr i)
    let s := shdr m re i
    if s.isAlloc then
      emit (.place i)
      silent (setShAddr re i (s.shAddr + base))

def relocPassT (host : Host) (re : RtldElf) : TraceM Unit :=
  forSectionsT re fun i => do
    let m ← silent getMem
    emit (.shdr i)
    if (shdr m re i).shType = SHT_RELA then rtldElfProcessRelaT host re i

def copyPassT (re : RtldElf) (base totsz : Word) : TraceM Unit :=
  forSectionsT re fun i => do
    let m ← silent getMem
    emit (.shdr i)
    let s := shdr m re i
    if s.shType = SHT_PROGBITS then
      emit (.copy s base totsz)
      silent (memWriteCode s.shAddr (readBytes m (re.base + s.shOffset) s.shSize.toNat))

/-- The symbols are at `symOff` of the file. -/
def registerSymT (re : RtldElf) (symtabIdx : ℕ) (symOff : Word) (k : ℕ) : TraceM Bool := do
  let m ← silent getMem
  emit (.sym symOff k)
  let sym := readSym m (re.base + symOff + BitVec.ofNat 64 (symSize * k))
  if sym.isExported then
    if shnum m re ≤ sym.stShndx.toNat then
      Prog.fail (-EINVAL)
    else
      emit (.shdr sym.stShndx.toNat)
      let entry := (shdr m re sym.stShndx.toNat).shAddr + sym.stValue
      emit (.shdr symtabIdx)
      traceStr re m (shdr m re symtabIdx).shLink.toNat sym.stName.toNat (registerExtent re.skew)
      match rtldElfResolveStr m re (shdr m re symtabIdx).shLink.toNat
          sym.stName.toNat with
      | .error _ => Prog.fail (-EINVAL)
      | .ok name =>
          let addr ← Prog.lift (rtldElfDecodeName re.skew (cstrAt m name))
          let addr := addr.getD 0#64
          if addr = 0#64 then
            return false
          else
            let c ← silent Prog.get
            let res := rtldSet c.objects addr entry re.base re.size
            silent (Prog.modify fun c => { c with objects := res.2 })
            if res.1 < 0 then Prog.fail res.1 else return true
  else
    return true

def registerPassT (re : RtldElf) : ℕ → ℕ → TraceM Unit
  | 0, _ => return
  | fuel + 1, i => do
      let m ← silent getMem
      if i < shnum m re then
        emit (.shdr i)
        let s := shdr m re i
        if s.shType ≠ SHT_SYMTAB then
          registerPassT re fuel (i + 1)
        else if s.shEntsize.toNat ≠ symSize then
          Prog.fail (-EINVAL)
        else
          let more ← Prog.untilFrom (registerSymT re i s.shOffset)
            (s.shSize.toNat / symSize) 0
          if more then registerPassT re fuel (i + 1)

/-- The ELF header is read once the object is known to have its size. -/
def rtldElfInitT (host : Host) (objBase objSize skew : Word) : TraceM RtldElf := do
  let m ← silent getMem
  if objSize < 64#64 then
    Prog.lift (rtldElfInit host m objBase objSize skew)
  else do
    emit .ehdr
    Prog.lift (rtldElfInit host m objBase objSize skew)

def rtldAddObjectT (host : Host) (objBase objSize skew : Word) : TraceM Unit := do
  let re ← rtldElfInitT host objBase objSize skew
  let (totsz, totalign) ← layoutPassT re shnumBound 0 0#64 1#64
  let base ← silent (memAllocCode host totsz totalign)
  if badAddr base then
    Prog.fail (ptrInt base)
  else
    rebasePassT re base
    relocPassT host re
    copyPassT re base totsz
    registerPassT re shnumBound 0

/-! ## Without the history -/

namespace Erases

open Prog (Erases)

theorem traceStr (re : RtldElf) (m : Mem) (strtabIdx strIdx : ℕ) (extent : CStr → ℕ) :
    Erases (traceStr re m strtabIdx strIdx extent) (pure ()) := by
  unfold Client.traceStr
  split
  · exact Erases.pure ()
  · refine Erases.emit ?_
    split
    · exact fun _ => rfl
    · exact Erases.pure ()

theorem traceShdr (re : RtldElf) (m : Mem) (i : ℕ) :
    Erases (traceShdr re m i) (pure ()) := by
  unfold Client.traceShdr
  split
  · exact Erases.pure ()
  · exact fun _ => rfl

theorem rtldElfAddStub (host : Host) (sym : Word) :
    Erases (rtldElfAddStubT host sym) (rtldElfAddStub host sym) := by
  refine Erases.bind (Erases.silent _) fun stub => Erases.ite (Erases.fail _) ?_
  exact Erases.emit (Erases.bind (Erases.silent _) fun _ => Erases.pure _)

theorem branchDisplacement (host : Host) (syma pc : Word) :
    Erases (branchDisplacementT host syma pc) (branchDisplacement host syma pc) :=
  Erases.ite (Erases.pure _) (Erases.bind (rtldElfAddStub host syma) fun _ => Erases.pure _)

theorem aarch64RelocData (host : Host) (relType : BitVec 32) (syma pc : Word) :
    Erases (aarch64RelocDataT host relType syma pc)
      (aarch64RelocData host relType syma pc) := by
  unfold aarch64RelocDataT
  split
  · rename_i hbranch
    have heq : Client.aarch64RelocData host relType syma pc = (do
        let prelSyma ← Client.branchDisplacement host syma pc
        Prog.lift (rtldElfSignedRange prelSyma 28)
        return (0x03ffffff#64, prelSyma.sshiftRight 2)) := by
      unfold Client.aarch64RelocData
      have h64 : relType ≠ R_AARCH64_PREL64 := by
        rintro rfl
        exact absurd hbranch (by decide)
      have h32 : relType ≠ R_AARCH64_PREL32 := by
        rintro rfl
        exact absurd hbranch (by decide)
      rw [if_neg h64, if_neg h32, if_pos hbranch]
    rw [heq]
    refine Erases.bind (branchDisplacement host syma pc) fun prelSyma => ?_
    exact Erases.bind (Erases.lift _) fun _ => Erases.pure _
  · exact Erases.silent _

theorem rtldRelocData (host : Host) (pd : RtldPatchData) (sym : Word) :
    Erases (rtldRelocDataT host pd sym) (rtldRelocData host pd sym) := by
  unfold rtldRelocDataT
  cases harch : host.arch with
  | x86_64 => exact Erases.silent _
  | aarch64 =>
      have heq : Client.rtldRelocData host pd sym =
          Client.aarch64RelocData host pd.relType (sym + pd.addend) pd.patchAddr := by
        simp only [Client.rtldRelocData, harch]
      rw [heq]
      exact aarch64RelocData host _ _ _

theorem rtldRelocAt (host : Host) (re : RtldElf) (pd : RtldPatchData)
    (shOffset shSize rOffset sym : Word) :
    Erases (rtldRelocAtT host re pd shOffset shSize rOffset sym)
      (rtldRelocAt host pd (re.base + shOffset + rOffset) sym) := by
  refine Erases.bind (rtldRelocData host pd sym) fun blend => ?_
  exact Erases.emit (Erases.silent _)

theorem rtldPatchCreateStub (host : Host) (pd : RtldPatchData) :
    Erases (rtldPatchCreateStubT host pd) (rtldPatchCreateStub host pd) := by
  refine Erases.bind (Erases.silent _) fun stub => Erases.ite (Erases.fail _) ?_
  refine Erases.bind (Erases.silent _) fun c => Erases.bind (Erases.lift _) fun code => ?_
  exact Erases.emit (Erases.bind (Erases.silent _) fun _ => Erases.pure _)

theorem resolveGuestAddr (host : Host) (pd : RtldPatchData) (addr : Word) :
    Erases (resolveGuestAddrT host pd addr) (resolveGuestAddr host pd addr) := by
  refine Erases.bind (Erases.silent _) fun c => ?_
  cases rtldResolve c.objects addr with
  | ok entry => exact Erases.pure _
  | error e => exact rtldPatchCreateStub host _

theorem resolveUndefined (host : Host) (re : RtldElf) (name : CStr) (pd : RtldPatchData) :
    Erases (resolveUndefinedT host re name pd) (resolveUndefined host re name pd) := by
  refine Erases.ite (Erases.fail _) (Erases.ite (Erases.pure _) ?_)
  cases rtldElfDecodeName re.skew name with
  | ok addr => exact resolveGuestAddr host _ _
  | error e =>
      refine Erases.bind (Erases.silent _) fun c => ?_
      cases pltIndex host.arch name with
      | some i => exact Erases.pure _
      | none => exact Erases.fail _

theorem rtldElfResolveSym (host : Host) (re : RtldElf) (symtabIdx symIdx : ℕ)
    (pd : RtldPatchData) :
    Erases (rtldElfResolveSymT host re symtabIdx symIdx pd)
      (rtldElfResolveSym host re symtabIdx symIdx pd) := by
  refine Erases.bind (Erases.silent _) fun m => Erases.skip (traceShdr re m _) ?_
  refine Erases.ite (Erases.emit ?_) (Erases.fail _)
  refine Erases.ite (Erases.skip (traceStr re m _ _ _) (resolveUndefined host re _ pd)) ?_
  refine Erases.ite (Erases.pure _) (Erases.ite (Erases.emit (Erases.pure _)) (Erases.fail _))

theorem orEinval {α : Type} {x : TraceM α} {y : ClientM α} (h : Erases x y) :
    Erases (orEinvalT x) (processRelaEntry.orEinval y) := by
  intro s
  have hs := h s
  unfold orEinvalT processRelaEntry.orEinval
  dsimp only
  rw [← hs]
  cases hrun : x.run s with
  | mk r s' =>
      cases r with
      | ok a => rfl
      | error e => rfl

theorem processRelaEntry (host : Host) (re : RtldElf) (relOff : Word)
    (tgtIdx symtabIdx : ℕ) (tgtOff : Word) (k : ℕ) :
    Erases (processRelaEntryT host re relOff tgtIdx symtabIdx tgtOff k)
      (processRelaEntry host re (re.base + relOff) tgtIdx symtabIdx (re.base + tgtOff) k) := by
  refine Erases.bind (Erases.silent _) fun m => Erases.emit (Erases.emit ?_)
  refine Erases.ite (Erases.fail _) ?_
  refine Erases.bind (orEinval (rtldElfResolveSym host re _ _ _)) fun sym => ?_
  exact rtldRelocAt host re _ _ _ _ _

theorem rtldElfProcessRela (host : Host) (re : RtldElf) (relaIdx : ℕ) :
    Erases (rtldElfProcessRelaT host re relaIdx) (rtldElfProcessRela host re relaIdx) := by
  refine Erases.bind (Erases.silent _) fun m => Erases.skip (traceShdr re m _) ?_
  refine Erases.ite (Erases.fail _) (Erases.ite (Erases.fail _) ?_)
  refine Erases.ite (Erases.fail _) (Erases.ite (Erases.fail _) (Erases.emit ?_))
  refine Erases.ite (Erases.fail _) ?_
  exact Erases.loopFrom (processRelaEntry host re _ _ _ _) _ _

theorem layoutPass (re : RtldElf) :
    ∀ fuel i totsz totalign,
      Erases (layoutPassT re fuel i totsz totalign) (layoutPass re fuel i totsz totalign) := by
  intro fuel
  induction fuel with
  | zero => exact fun i totsz totalign => Erases.pure _
  | succ fuel ih =>
      intro i totsz totalign
      refine Erases.bind (Erases.silent _) fun m => ?_
      refine Erases.ite (Erases.emit (Erases.ite (Erases.fail _) ?_)) (Erases.pure _)
      refine Erases.ite (Erases.emit ?_) (ih _ _ _)
      refine Erases.bind (Erases.silent _) fun _ => ?_
      exact Erases.bind (Erases.silent _) fun m => ih _ _ _

theorem forSections {re : RtldElf} {body : ℕ → TraceM Unit} {body' : ℕ → ClientM Unit}
    (h : ∀ i, Erases (body i) (body' i)) :
    Erases (forSectionsT re body) (forSections re body') :=
  Erases.whileFrom (fun i (c : State) => i < shnum c.mem re) h _ _

theorem rebasePass (re : RtldElf) (base : Word) :
    Erases (rebasePassT re base) (rebasePass re base) := by
  refine forSections fun i => Erases.bind (Erases.silent _) fun m => Erases.emit ?_
  exact Erases.ite (Erases.emit (Erases.silent _)) (Erases.pure _)

theorem relocPass (host : Host) (re : RtldElf) :
    Erases (relocPassT host re) (relocPass host re) := by
  refine forSections fun i => Erases.bind (Erases.silent _) fun m => Erases.emit ?_
  exact Erases.ite (rtldElfProcessRela host re i) (Erases.pure _)

theorem copyPass (re : RtldElf) (base totsz : Word) :
    Erases (copyPassT re base totsz) (copyPass re) := by
  refine forSections fun i => Erases.bind (Erases.silent _) fun m => Erases.emit ?_
  exact Erases.ite (Erases.emit (Erases.silent _)) (Erases.pure _)

theorem registerSym (re : RtldElf) (symtabIdx : ℕ) (symOff : Word) (k : ℕ) :
    Erases (registerSymT re symtabIdx symOff k)
      (registerSym re symtabIdx (re.base + symOff) k) := by
  refine Erases.bind (Erases.silent _) fun m => Erases.emit ?_
  refine Erases.ite (Erases.ite (Erases.fail _) ?_) (Erases.pure _)
  refine Erases.emit (Erases.emit (Erases.skip (traceStr re m _ _ _) ?_))
  dsimp only
  cases rtldElfResolveStr m re (shdr m re symtabIdx).shLink.toNat
      (readSym m (re.base + symOff + BitVec.ofNat 64 (symSize * k))).stName.toNat with
  | error e => exact Erases.fail _
  | ok name =>
      refine Erases.bind (Erases.lift _) fun addr => Erases.ite (Erases.pure _) ?_
      refine Erases.bind (Erases.silent _) fun c => Erases.bind (Erases.silent _) fun _ => ?_
      exact Erases.ite (Erases.fail _) (Erases.pure _)

theorem registerPass (re : RtldElf) :
    ∀ fuel i, Erases (registerPassT re fuel i) (registerPass re fuel i) := by
  intro fuel
  induction fuel with
  | zero => exact fun i => Erases.pure ()
  | succ fuel ih =>
      intro i
      refine Erases.bind (Erases.silent _) fun m => ?_
      refine Erases.ite (Erases.emit (Erases.ite (ih _) ?_)) (Erases.pure _)
      refine Erases.ite (Erases.fail _) ?_
      refine Erases.bind (Erases.untilFrom (registerSym re i _) _ _) fun more => ?_
      exact Erases.ite (ih _) (Erases.pure _)

/-- Without its history, `rtldAddObjectT` is `rtld_add_object`. -/
theorem rtldAddObject (host : Host) (objBase objSize skew : Word) :
    Erases (rtldAddObjectT host objBase objSize skew)
      (rtldAddObject host objBase objSize skew) := by
  have hinit : Erases (rtldElfInitT host objBase objSize skew) (getMem >>= fun m =>
      Prog.lift (rtldElfInit host m objBase objSize skew)) := by
    refine Erases.bind (Erases.silent _) fun m => ?_
    split
    · exact Erases.lift _
    · exact Erases.emit (Erases.lift _)
  unfold Client.rtldAddObject
  rw [← Prog.bind_assoc]
  refine Erases.bind hinit fun re => Erases.bind (layoutPass re _ _ _ _) fun tot => ?_
  refine Erases.bind (Erases.silent _) fun base => Erases.ite (Erases.fail _) ?_
  refine Erases.bind (rebasePass re base) fun _ => Erases.bind (relocPass host re) fun _ => ?_
  exact Erases.bind (copyPass re base _) fun _ => registerPass re _ _

end Erases

end PollyInstrew.Client
