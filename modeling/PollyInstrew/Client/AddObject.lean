import PollyInstrew.Client.Elf

/-!
# The four passes of `rtld_add_object`

Layout of the allocated sections, relocation, copying, and registration of the
defined functions.  The number of sections is read again before every
iteration, as in the source; it has 16 bits, which bounds the loops.
-/

namespace PollyInstrew.Client

open PollyInstrew.ByteMemory PollyInstrew.StateExcept

/-- Bound on the iterations of the loops over the section headers. -/
def shnumBound : ℕ := 2 ^ 16

/-- The section flags `rtld_add_object` accepts. -/
def supportedFlags : Word :=
  SHF_ALLOC ||| SHF_EXECINSTR ||| SHF_MERGE ||| SHF_STRINGS ||| SHF_INFO_LINK

def Shdr.isAlloc (s : Shdr) : Bool := s.shFlags &&& SHF_ALLOC ≠ 0#64

/-- `elf_shnt->sh_addr = v` for section `i`. -/
def setShAddr (re : RtldElf) (i : ℕ) (v : Word) : ClientM Unit :=
  setMem fun m => store 64 m (shdrAddr re i + 16) v

/-- First pass, from section `i` on: `totsz` and `totalign` so far. -/
def layoutPass (re : RtldElf) : ℕ → ℕ → Word → Word → ClientM (Word × Word)
  | 0, _, totsz, totalign => return (totsz, totalign)
  | fuel + 1, i, totsz, totalign => do
      let m ← getMem
      if i < shnum m re then
        let s := shdr m re i
        if s.shFlags &&& ~~~supportedFlags ≠ 0#64 then
          Prog.fail (-EINVAL)
        else if s.isAlloc then
          let off := alignUp totsz s.shAddralign
          setShAddr re i off
          let m ← getMem
          let s := shdr m re i
          layoutPass re fuel (i + 1) (off + s.shSize)
            (if totalign < s.shAddralign then s.shAddralign else totalign)
        else
          layoutPass re fuel (i + 1) totsz totalign
      else
        return (totsz, totalign)

/-- A loop over all section headers. -/
def forSections (re : RtldElf) (body : ℕ → ClientM Unit) : ClientM Unit :=
  Prog.whileFrom (fun i c => i < shnum c.mem re) body shnumBound 0

/-- Invariant rule for a loop over all section headers, for an invariant that
fixes their number. -/
theorem forSections_ok {re : RtldElf} {body : ℕ → ClientM Unit} {I : ℕ → State → Prop}
    {n : ℕ} (hn : n < 2 ^ 16) (hnum : ∀ j t, I j t → shnum t.mem re = n)
    (hstep : ∀ j t t', j < n → I j t → (body j).run t = (.ok (), t') → I (j + 1) t')
    {c c' : State} (hinit : I 0 c) (hrun : (forSections re body).run c = (.ok (), c')) :
    I n c' := by
  refine Prog.whileFrom_ok ?_ hstep shnumBound 0 (Nat.zero_le _) ?_ hinit hrun
  · intro j t ht
    simp only [hnum j t ht]
  · simpa [shnumBound] using hn

theorem shnum_lt (m : Mem) (re : RtldElf) : shnum m re < 2 ^ 16 :=
  (load 16 m (re.base + 60)).isLt

/-- The loop that turns the offsets of the first pass into addresses. -/
def rebasePass (re : RtldElf) (base : Word) : ClientM Unit :=
  forSections re fun i => do
    let m ← getMem
    let s := shdr m re i
    if s.isAlloc then setShAddr re i (s.shAddr + base)

/-- Second pass. -/
def relocPass (host : Host) (re : RtldElf) : ClientM Unit :=
  forSections re fun i => do
    let m ← getMem
    if (shdr m re i).shType = SHT_RELA then rtldElfProcessRela host re i

/-- Third pass. -/
def copyPass (re : RtldElf) : ClientM Unit :=
  forSections re fun i => do
    let m ← getMem
    let s := shdr m re i
    if s.shType = SHT_PROGBITS then
      memWriteCode s.shAddr (readBytes m (re.base + s.shOffset) s.shSize.toNat)

/-- A defined global function of default visibility. -/
def Sym.isExported (sym : Sym) : Bool :=
  sym.stInfo >>> 4 = 1#8 && sym.stInfo &&& 0xf#8 = 2#8 && sym.stOther &&& 3#8 = 0#8 &&
    sym.stShndx ≠ SHN_UNDEF

/-- Body of the symbol loop of the last pass; `false` is the `goto out` with
return value `0` for a name that decodes to address `0`. -/
def registerSym (re : RtldElf) (symtabIdx : ℕ) (first : Word) (k : ℕ) : ClientM Bool := do
  let m ← getMem
  let sym := readSym m (first + BitVec.ofNat 64 (symSize * k))
  if sym.isExported then
    if shnum m re ≤ sym.stShndx.toNat then
      Prog.fail (-EINVAL)
    else
      let entry := (shdr m re sym.stShndx.toNat).shAddr + sym.stValue
      match rtldElfResolveStr m re (shdr m re symtabIdx).shLink.toNat
          sym.stName.toNat with
      | .error _ => Prog.fail (-EINVAL)
      | .ok name =>
          let addr ← Prog.lift (rtldElfDecodeName re.skew (cstrAt m name))
          let addr := addr.getD 0#64
          if addr = 0#64 then
            return false
          else
            let c ← Prog.get
            let res := rtldSet c.objects addr entry re.base re.size
            Prog.modify fun c => { c with objects := res.2 }
            if res.1 < 0 then Prog.fail res.1 else return true
  else
    return true

/-- Last pass, from section `i` on. -/
def registerPass (re : RtldElf) : ℕ → ℕ → ClientM Unit
  | 0, _ => return
  | fuel + 1, i => do
      let m ← getMem
      if i < shnum m re then
        let s := shdr m re i
        if s.shType ≠ SHT_SYMTAB then
          registerPass re fuel (i + 1)
        else if s.shEntsize.toNat ≠ symSize then
          Prog.fail (-EINVAL)
        else
          let more ← Prog.untilFrom (registerSym re i (re.base + s.shOffset))
            (s.shSize.toNat / symSize) 0
          if more then registerPass re fuel (i + 1)

/-- `rtld_add_object`; an error is the negative return value. -/
def rtldAddObject (host : Host) (objBase objSize skew : Word) : ClientM Unit := do
  let m ← getMem
  let re ← Prog.lift (rtldElfInit host m objBase objSize skew)
  let (totsz, totalign) ← layoutPass re shnumBound 0 0#64 1#64
  let base ← memAllocCode host totsz totalign
  if badAddr base then
    Prog.fail (ptrInt base)
  else
    rebasePass re base
    relocPass host re
    copyPass re
    registerPass re shnumBound 0

/-- `rtld_init`: the table is fresh zeroed memory. -/
def rtldInit (host : Host) : ClientM Unit := do
  let objects ← memAllocData host (BitVec.ofNat 64 (32 * rtldSlots)) host.pageSize
  if badAddr objects then
    Prog.fail (ptrInt objects)
  else
    Prog.modify fun c => { c with objects := rtldInitTable }
    let plt ← pltCreate host
    Prog.modify fun c => { c with plt := plt }

end PollyInstrew.Client
