import PollyInstrew.Client.InitialStack
import PollyInstrew.Client.LoadBias

/-!
# Loading an executable

`load_elf_binary` reads the headers of the executable and of its interpreter and
maps both.  `lseek` and `read` may fail in every way, and what a buffer holds
beyond the bytes that were read is arbitrary.
-/

namespace PollyInstrew.Client

open PollyInstrew.ByteMemory PollyInstrew.AddressSpace PollyInstrew.StateExcept

def ENAMETOOLONG : ℤ := 36
def ELIBBAD : ℤ := 80

def PATH_MAX : ℕ := 4096

def PT_INTERP : BitVec 32 := 3
def ET_EXEC : BitVec 16 := 2
def ET_DYN : BitVec 16 := 3

/-! ## Files -/

abbrev Errno := {n : ℕ // 0 < n}

inductive Fd where
  | exe
  | interp
  deriving DecidableEq

structure OpenFile where
  content : List Byte
  pos : ℕ

/-- One read of a header or of the interpreter path: where it should be read and how
many bytes, what `lseek` returned, where reading began, what was read, and what
`read_full` returned. -/
structure ReadEvent where
  fd : Fd
  content : List Byte
  off : Word
  size : ℕ
  seekRet : ℤ
  start : ℕ
  got : List Byte
  readRet : ℤ

/-- What the system answers to the loader, and what uninitialised buffers hold. -/
structure Env where
  pagesz : Word
  kernel : Kernel
  place : ℕ → Word → Word
  exe : Except Errno (List Byte)
  lookup : List Byte → Except Errno (List Byte)
  seek : ℕ → Option Errno
  read : ℕ → Except Errno ℕ
  ehdrBuf : Mem
  interpEhdrBuf : Mem
  nameBuf : Mem

/-- The state of the loader, with the reads so far and the indices at which
`interp_name` was read. -/
structure LoadState where
  machine : Machine
  calls : ℕ
  file : Fd → OpenFile
  log : List ReadEvent
  nameReads : List ℕ

abbrev Load := Prog LoadState Stop

def LoadState.init (m : Machine) : LoadState := ⟨m, 0, fun _ => ⟨[], 0⟩, [], []⟩

def openFile (fd : Fd) (content : List Byte) : Load Unit :=
  Prog.modify fun s =>
    { s with file := fun fd' => if fd' = fd then ⟨content, 0⟩ else s.file fd' }

def onMachine {α : Type} (x : Prog Machine Stop α) : Load α :=
  ⟨fun s => ((x.run s.machine).1, { s with machine := (x.run s.machine).2 })⟩

section Reads

variable (env : Env) (fd : Fd)

def lseek (off : Word) : Load ℤ :=
  ⟨fun s =>
    if off.toInt < 0 then
      (.ok (-EINVAL), { s with calls := s.calls + 1 })
    else
      match env.seek s.calls with
      | some errno => (.ok (-errno.val), { s with calls := s.calls + 1 })
      | none =>
          (.ok off.toInt, { s with
            calls := s.calls + 1
            file := fun fd' =>
              if fd' = fd then ⟨(s.file fd).content, off.toNat⟩ else s.file fd' })⟩

/-- `read`: the result and the bytes stored. -/
def readFd (count : ℕ) : Load (ℤ × List Byte) :=
  ⟨fun s =>
    match env.read s.calls with
    | .error errno => (.ok (-errno.val, []), { s with calls := s.calls + 1 })
    | .ok n =>
        let f := s.file fd
        let bytes := (f.content.drop f.pos).take (min n count)
        (.ok (bytes.length, bytes), { s with
          calls := s.calls + 1
          file := fun fd' =>
            if fd' = fd then ⟨f.content, f.pos + bytes.length⟩ else s.file fd' })⟩

/-- The loop of `read_full`, with the bytes read so far; every iteration reads at
least one byte. -/
def readFullLoop : ℕ → ℕ → List Byte → Load (ℤ × List Byte)
  | 0, _, got => pure (got.length, got)
  | fuel + 1, left, got =>
      if left = 0 then
        pure (got.length, got)
      else do
        let r ← readFd env fd left
        if r.1 < 0 then
          pure (r.1, got)
        else if r.1 = 0 then
          pure (- EIO, got)
        else
          readFullLoop fuel (left - r.2.length) (got ++ r.2)

def readFull (nbytes : ℕ) : Load (ℤ × List Byte) := readFullLoop env fd nbytes nbytes []

/-- The record of a read that began in state `s`. -/
def LoadState.event (s : LoadState) (off : Word) (seekRet : ℤ) (nbytes : ℕ)
    (r : ℤ × List Byte) : ReadEvent :=
  ⟨fd, (s.file fd).content, off, nbytes, seekRet, (s.file fd).pos, r.2, r.1⟩

/-- `read_full` with a record of what happened. -/
def recordedRead (off : Word) (seekRet : ℤ) (nbytes : ℕ) : Load (ℤ × List Byte) := do
  let s ← Prog.get
  let r ← readFull env fd nbytes
  Prog.modify fun t => { t with log := t.log ++ [s.event fd off seekRet nbytes r] }
  pure r

/-- `elf_read`: the result and the bytes stored. -/
def elfRead (off : Word) (nbytes : ℕ) : Load (ℤ × List Byte) := do
  let seekRet ← lseek env fd off
  if seekRet = -1 then
    pure (-1, [])
  else do
    let r ← recordedRead env fd off seekRet nbytes
    if r.1 = -1 then pure (-1, r.2) else pure (0, r.2)

end Reads

/-! ## Headers -/

/-- `Elf64_Ehdr`, without the fields that are not read. -/
structure ElfEhdr where
  magic : BitVec 32
  eiClass : Byte
  eType : BitVec 16
  eMachine : BitVec 16
  eEntry : Word
  ePhoff : Word
  ePhentsize : BitVec 16
  ePhnum : BitVec 16

def ElfEhdr.ofBuf (buf : Mem) : ElfEhdr where
  magic := load 32 buf 0
  eiClass := load 8 buf 4
  eType := load 16 buf 16
  eMachine := load 16 buf 18
  eEntry := load 64 buf 24
  ePhoff := load 64 buf 32
  ePhentsize := load 16 buf 54
  ePhnum := load 16 buf 56

/-- `ELFMAG`, and the class and the types that are accepted. -/
def ElfEhdr.accepted (eh : ElfEhdr) : Bool :=
  eh.magic = 0x464c457f && eh.eiClass = 2 && (eh.eType = ET_EXEC || eh.eType = ET_DYN)

def ehdrSize : ℕ := 64
def phdrSize : ℕ := 56

def ElfPhdr.ofBuf (buf : Mem) (a : Word) : ElfPhdr where
  pType := load 32 buf a
  pFlags := load 32 buf (a + 4)
  pOffset := load 64 buf (a + 8)
  pVaddr := load 64 buf (a + 16)
  pFilesz := load 64 buf (a + 32)
  pMemsz := load 64 buf (a + 40)

/-- The program headers in a page that was zero before. -/
def phdrsOf (eh : ElfEhdr) (bytes : List Byte) : List ElfPhdr :=
  (List.range eh.ePhnum.toNat).map fun i =>
    ElfPhdr.ofBuf (writeBytes (fun _ => 0) 0 bytes) (BitVec.ofNat 64 (phdrSize * i))

/-- `mmap` without an address. -/
def mmapAnywhere (env : Env) (length : Word) : Load Word :=
  ⟨fun s => (.ok (env.place s.machine.calls length),
    { s with machine := ⟨s.machine.space, s.machine.calls + 1⟩ })⟩

section Loader

variable (env : Env)

/-- `load_elf_phdrs`. -/
def loadElfPhdrs (fd : Fd) (eh : ElfEhdr) : Load (Option (List ElfPhdr)) :=
  if eh.ePhentsize.toNat ≠ phdrSize then
    pure none
  else if eh.ePhnum.toNat < 1 ∨ 65536 / phdrSize < eh.ePhnum.toNat then
    pure none
  else if 0x1000 < phdrSize * eh.ePhnum.toNat then
    pure none
  else do
    let phdata ← mmapAnywhere env 0x1000
    if badAddr phdata then
      pure none
    else do
      let r ← elfRead env fd eh.ePhoff (phdrSize * eh.ePhnum.toNat)
      if r.1 = -1 then pure none else pure (some (phdrsOf eh r.2))

/-- The path is read and its terminator is looked for, one byte behind it. -/
def readInterpName (ph : ElfPhdr) : Load Mem :=
  if PATH_MAX < ph.pFilesz.toNat ∨ ph.pFilesz.toNat < 2 then
    Prog.fail (.ret (-ENOEXEC))
  else do
    let r ← elfRead env .exe ph.pOffset ph.pFilesz.toNat
    if r.1 < 0 then
      Prog.fail (.ret r.1)
    else do
      let interpName := writeBytes env.nameBuf 0 r.2
      Prog.modify fun s => { s with nameReads := s.nameReads ++ [ph.pFilesz.toNat] }
      if interpName ph.pFilesz ≠ 0 then Prog.fail (.ret (-ENOEXEC)) else pure interpName

/-- The string that begins at index 0, as far as the kernel reads a path. -/
def pathString (interpName : Mem) : List Byte :=
  (readBytes interpName 0 PATH_MAX).takeWhile (· ≠ 0)

def openInterp (interpName : Mem) : Load Unit := do
  let path := pathString interpName
  Prog.modify fun s => { s with
    nameReads := s.nameReads ++ List.range (min (path.length + 1) PATH_MAX) }
  if path.length = PATH_MAX then
    Prog.fail (.ret (-ENAMETOOLONG))
  else
    match env.lookup path with
    | .error errno => Prog.fail (.ret (-errno.val))
    | .ok content => openFile .interp content

/-- The headers of the interpreter. -/
def loadInterpHeaders (eh : ElfEhdr) (ph : ElfPhdr) : Load (ElfEhdr × List ElfPhdr) := do
  let interpName ← readInterpName env ph
  openInterp env interpName
  let r ← elfRead env .interp 0 ehdrSize
  if r.1 < 0 then
    Prog.fail (.ret r.1)
  else
    let interpEhdr := ElfEhdr.ofBuf (writeBytes env.interpEhdrBuf 0 r.2)
    if !interpEhdr.accepted || interpEhdr.eMachine ≠ eh.eMachine then
      Prog.fail (.ret (-ELIBBAD))
    else do
      let phdata ← loadElfPhdrs env .interp interpEhdr
      match phdata with
      | none => Prog.fail (.ret (-ELIBBAD))
      | some interpPhdrs => pure (interpEhdr, interpPhdrs)

/-- The headers of the executable: its own, the program headers, and those of its
interpreter. -/
def loadHeaders : Load (ElfEhdr × List ElfPhdr × Option (ElfEhdr × List ElfPhdr)) := do
  let r ← recordedRead env .exe 0 0 ehdrSize
  if r.1 < 0 then
    Prog.fail (.ret r.1)
  else
    let eh := ElfEhdr.ofBuf (writeBytes env.ehdrBuf 0 r.2)
    if !eh.accepted then
      Prog.fail (.ret (-ENOEXEC))
    else do
      let phdata ← loadElfPhdrs env .exe eh
      match phdata with
      | none => Prog.fail (.ret (-ENOEXEC))
      | some phdrs =>
          match phdrs.find? fun ph => ph.pType = PT_INTERP with
          | none => pure (eh, phdrs, none)
          | some ph => do
              let interp ← loadInterpHeaders env eh ph
              pure (eh, phdrs, some interp)

/-- The load bias of an image, which is 0 unless it is position-independent. -/
def loadBiasOf (eh : ElfEhdr) (phdrs : List ElfPhdr) : Load Word :=
  if eh.eType = ET_DYN then
    ⟨fun s => (.ok (elfDetermineLoadBias env.pagesz (env.place s.machine.calls) phdrs),
      { s with machine := ⟨s.machine.space, s.machine.calls + 1⟩ })⟩
  else
    pure 0

/-- `load_elf_interp`. -/
def loadElfInterp (interpEhdr : ElfEhdr) (interpPhdrs : List ElfPhdr) : Load Word := do
  let loadBias ← loadBiasOf env interpEhdr interpPhdrs
  if badAddr loadBias then
    pure loadBias
  else do
    let s ← Prog.get
    let retval ← onMachine (returnValue
      (loadSegments env.kernel env.pagesz (s.file .interp).content loadBias interpPhdrs))
    if retval < 0 then pure (BitVec.ofInt 64 retval) else pure loadBias

/-- All fields of `BinaryInfo`. -/
structure LoadedBinary extends BinaryInfo where
  execEntry : Word
  machine : BitVec 16

/-- `load_addr`, where the file would begin. -/
def loadAddr (loadBias : Word) (phdrs : List ElfPhdr) : Word :=
  match (loads phdrs).head? with
  | some ph => (ph.pVaddr - ph.pOffset) + loadBias
  | none => 0

/-- The images are mapped. -/
def mapImages (eh : ElfEhdr) (phdrs : List ElfPhdr)
    (interp : Option (ElfEhdr × List ElfPhdr)) : Load LoadedBinary := do
  let loadBias ← loadBiasOf env eh phdrs
  if badAddr loadBias then
    Prog.fail (.ret (ptrInt loadBias))
  else do
    let s ← Prog.get
    onMachine (loadSegments env.kernel env.pagesz (s.file .exe).content loadBias phdrs)
    let elfEntry := loadBias + eh.eEntry
    let info : Word → LoadedBinary := fun entry =>
      { elfEntry := elfEntry
        phdr := loadAddr loadBias phdrs + eh.ePhoff
        phnum := eh.ePhnum.setWidth 64
        phent := eh.ePhentsize.setWidth 64
        execEntry := entry
        machine := eh.eMachine }
    match interp with
    | none => pure (info elfEntry)
    | some i => do
        let interpLoadBias ← loadElfInterp env i.1 i.2
        if badAddr interpLoadBias then
          Prog.fail (.ret (ptrInt interpLoadBias))
        else
          pure (info (interpLoadBias + i.1.eEntry))

/-- `load_elf_binary`. -/
def loadElfBinary : Load LoadedBinary :=
  match env.exe with
  | .error errno => Prog.fail (.ret (-errno.val))
  | .ok content => do
      openFile .exe content
      let h ← loadHeaders env
      mapImages env h.1 h.2.1 h.2.2

end Loader

/-! ## What the reads return -/

/-- From `s` to `s'`, `bytes` were read and nothing else happened. -/
structure ReadsFrom (fd : Fd) (s s' : LoadState) (bytes : List Byte) : Prop where
  content : ∀ fd', (s'.file fd').content = (s.file fd').content
  pos : (s'.file fd).pos = (s.file fd).pos + bytes.length
  bytes : bytes = ((s.file fd).content.drop (s.file fd).pos).take bytes.length
  log : s'.log = s.log
  nameReads : s'.nameReads = s.nameReads

namespace ReadsFrom

variable {fd : Fd} {s s' s'' : LoadState} {xs ys : List Byte}

theorem trans (h : ReadsFrom fd s s' xs) (h' : ReadsFrom fd s' s'' ys) :
    ReadsFrom fd s s'' (xs ++ ys) where
  content fd' := (h'.content fd').trans (h.content fd')
  pos := by rw [h'.pos, h.pos, List.length_append, Nat.add_assoc]
  bytes := by
    have hys := h'.bytes
    rw [h.content, h.pos, ← List.drop_drop] at hys
    rw [List.length_append, List.take_add, ← h.bytes, ← hys]
  log := h'.log.trans h.log
  nameReads := h'.nameReads.trans h.nameReads

end ReadsFrom

section ReadSpecs

variable (env : Env) (fd : Fd)

theorem readFd_spec (count : ℕ) (s : LoadState) :
    ∃ ret bytes s', (readFd env fd count).run s = (.ok (ret, bytes), s') ∧
      ReadsFrom fd s s' bytes ∧ bytes.length ≤ count ∧
      ((ret < 0 ∧ bytes = []) ∨ ret = bytes.length) := by
  rw [readFd]
  dsimp only
  cases env.read s.calls with
  | error errno =>
      have hpos := errno.property
      exact ⟨_, _, _, rfl, ⟨fun _ => rfl, rfl, rfl, rfl, rfl⟩, Nat.zero_le _,
        .inl ⟨by omega, rfl⟩⟩
  | ok n =>
      refine ⟨_, _, _, rfl, ⟨fun fd' => ?_, ?_, ?_, rfl, rfl⟩, ?_, .inr rfl⟩
      · by_cases h : fd' = fd
        · simp [h]
        · simp [h]
      · simp
      · rw [List.length_take, List.take_eq_take_min]
      · rw [List.length_take]
        omega

/-- `read_full` reads everything, or returns an error. -/
theorem readFullLoop_spec :
    ∀ (fuel left : ℕ) (got : List Byte) (s : LoadState), left ≤ fuel →
      ∃ ret more s', (readFullLoop env fd fuel left got).run s = (.ok (ret, got ++ more), s') ∧
        ReadsFrom fd s s' more ∧
        ((0 ≤ ret ∧ more.length = left) ∨ (ret < 0 ∧ more.length < left)) := by
  have hnil : ∀ (got : List Byte) (s : LoadState), ReadsFrom fd s s [] :=
    fun _ _ => ⟨fun _ => rfl, rfl, rfl, rfl, rfl⟩
  intro fuel
  induction fuel with
  | zero =>
      intro left got s hle
      obtain rfl : left = 0 := by omega
      refine ⟨got.length, [], s, ?_, hnil got s, .inl ⟨by omega, rfl⟩⟩
      rw [List.append_nil]
      rfl
  | succ fuel ih =>
      intro left got s hle
      rw [readFullLoop]
      by_cases hleft : left = 0
      · rw [if_pos hleft]
        refine ⟨got.length, [], s, ?_, hnil got s, .inl ⟨by omega, hleft.symm⟩⟩
        rw [List.append_nil]
        rfl
      rw [if_neg hleft]
      obtain ⟨ret, bytes, s₁, hrun, hreads, hlen, hret⟩ := readFd_spec env fd left s
      rw [Prog.run_bind_of_ok hrun]
      dsimp only
      by_cases hneg : ret < 0
      · rw [if_pos hneg]
        rcases hret with ⟨-, rfl⟩ | hret
        · refine ⟨ret, [], s₁, ?_, hreads, .inr ⟨hneg, Nat.pos_of_ne_zero hleft⟩⟩
          rw [List.append_nil]
          rfl
        · omega
      rw [if_neg hneg]
      have hret' : ret = bytes.length := hret.resolve_left fun h => hneg h.1
      by_cases hzero : ret = 0
      · rw [if_pos hzero]
        obtain rfl : bytes = [] := List.length_eq_zero_iff.mp (by omega)
        refine ⟨- EIO, [], s₁, ?_, hreads, .inr ⟨by decide, Nat.pos_of_ne_zero hleft⟩⟩
        rw [List.append_nil]
        rfl
      rw [if_neg hzero]
      obtain ⟨ret', more, s₂, hrun', hreads', hend⟩ :=
        ih (left - bytes.length) (got ++ bytes) s₁ (by omega)
      refine ⟨ret', bytes ++ more, s₂, ?_, hreads.trans hreads', ?_⟩
      · rw [hrun', List.append_assoc]
      · rw [List.length_append]
        omega

/-- A read whose failure, if it failed, was not noticed. -/
structure ReadEvent.Accepted (e : ReadEvent) : Prop where
  seek : 0 ≤ e.seekRet → e.start = e.off.toNat
  read : 0 ≤ e.readRet ↔ e.got.length = e.size
  size_le : e.got.length ≤ e.size
  bytes : e.got = (e.content.drop e.start).take e.got.length

theorem recordedRead_spec (off : Word) (seekRet : ℤ) (nbytes : ℕ) (s : LoadState)
    (hseek : 0 ≤ seekRet → (s.file fd).pos = off.toNat) :
    ∃ e s', (recordedRead env fd off seekRet nbytes).run s = (.ok (e.readRet, e.got), s') ∧
      s'.log = s.log ++ [e] ∧ s'.nameReads = s.nameReads ∧ e.fd = fd ∧ e.off = off ∧
      e.size = nbytes ∧ e.seekRet = seekRet ∧ e.content = (s.file fd).content ∧
      (∀ fd', (s'.file fd').content = (s.file fd').content) ∧ e.Accepted := by
  obtain ⟨ret, got, s₁, hrun, hreads, hend⟩ := readFullLoop_spec env fd nbytes nbytes [] s
    (Nat.le_refl _)
  rw [List.nil_append] at hrun
  refine ⟨s.event fd off seekRet nbytes (ret, got),
    { s₁ with log := s₁.log ++ [s.event fd off seekRet nbytes (ret, got)] }, ?_, ?_,
    hreads.nameReads, rfl, rfl, rfl, rfl, rfl, hreads.content, hseek, ?_, ?_, hreads.bytes⟩
  · rw [recordedRead, Prog.run_bind_of_ok (Prog.run_get s), readFull, Prog.run_bind_of_ok hrun]
    rfl
  · dsimp only
    rw [hreads.log]
  · dsimp only [LoadState.event]
    omega
  · dsimp only [LoadState.event]
    omega

/-- `lseek` changes the position only if it succeeds. -/
theorem lseek_spec (off : Word) (s : LoadState) :
    ∃ ret s', (lseek env fd off).run s = (.ok ret, s') ∧ s'.log = s.log ∧
      s'.nameReads = s.nameReads ∧ (∀ fd', (s'.file fd').content = (s.file fd').content) ∧
      (0 ≤ ret → (s'.file fd).pos = off.toNat) := by
  rw [lseek]
  dsimp only
  split
  · exact ⟨_, _, rfl, rfl, rfl, fun _ => rfl, fun h => absurd h (by decide)⟩
  · split
    · rename_i errno _
      have hpos := errno.property
      exact ⟨_, _, rfl, rfl, rfl, fun _ => rfl, fun h => absurd h (by omega)⟩
    · refine ⟨_, _, rfl, rfl, rfl, fun fd' => ?_, fun _ => ?_⟩
      · by_cases h : fd' = fd
        · simp [h]
        · simp [h]
      · simp

/-- A read after which the loader goes on. -/
structure ReadEvent.Passed (e : ReadEvent) : Prop extends e.Accepted where
  seekRet : e.seekRet ≠ -1
  readRet : e.readRet ≠ -1

/-- The read concerns `size` bytes from `off` on of a file. -/
structure ReadEvent.Reads (e : ReadEvent) (fd : Fd) (content : List Byte) (off : Word)
    (size : ℕ) : Prop where
  fd : e.fd = fd
  content : e.content = content
  off : e.off = off
  size : e.size = size

/-- How `elf_read` ends. -/
theorem elfRead_spec (off : Word) (nbytes : ℕ) (s : LoadState) :
    ∃ r s', (elfRead env fd off nbytes).run s = (.ok r, s') ∧ s'.nameReads = s.nameReads ∧
      (∀ fd', (s'.file fd').content = (s.file fd').content) ∧
      (r.1 = -1 ∨ (r.1 = 0 ∧ ∃ e, s'.log = s.log ++ [e] ∧ r.2 = e.got ∧
        e.Reads fd (s.file fd).content off nbytes ∧ e.Passed)) := by
  obtain ⟨ret, s₁, hseek, hlog₁, hname₁, hcontent₁, hpos⟩ := lseek_spec env fd off s
  rw [elfRead, Prog.run_bind_of_ok hseek]
  by_cases hret : ret = -1
  · rw [if_pos hret]
    exact ⟨_, _, rfl, hname₁, hcontent₁, .inl rfl⟩
  rw [if_neg hret]
  obtain ⟨e, s₂, hread, hlog₂, hname₂, hfd, hoff, hsize, hseekRet, hcontent, hcontent₂,
    haccepted⟩ := recordedRead_spec env fd off ret nbytes s₁ hpos
  have hfiles := fun fd' => (hcontent₂ fd').trans (hcontent₁ fd')
  rw [Prog.run_bind_of_ok hread]
  dsimp only
  by_cases hreadRet : e.readRet = -1
  · rw [if_pos hreadRet]
    exact ⟨_, _, rfl, hname₂.trans hname₁, hfiles, .inl rfl⟩
  · rw [if_neg hreadRet]
    refine ⟨_, _, rfl, hname₂.trans hname₁, hfiles, .inr ⟨rfl, e, ?_, rfl, ?_, ?_⟩⟩
    · rw [hlog₂, hlog₁]
    · exact ⟨hfd, hcontent.trans (hcontent₁ fd), hoff, hsize⟩
    · exact ⟨haccepted, hseekRet ▸ hret, hreadRet⟩

end ReadSpecs

end PollyInstrew.Client
