import PollyInstrew.Client.ElfLoader

/-!
# What the loader has read when it succeeds

`elf_read` compares the results of `lseek` and `read_full` with -1, but both return
negative error numbers.  A truncated executable is accepted, and the terminator of
the interpreter path is looked for behind the bytes that were read.
-/

namespace PollyInstrew.Client

open PollyInstrew.ByteMemory PollyInstrew.AddressSpace PollyInstrew.StateExcept

/-! ## The reads of a run -/

section Headers

variable (env : Env)

theorem loadElfPhdrs_ok {fd : Fd} {eh : ElfEhdr} {phdrs : List ElfPhdr} {s s' : LoadState}
    (hrun : (loadElfPhdrs env fd eh).run s = (.ok (some phdrs), s')) :
    (∀ fd', (s'.file fd').content = (s.file fd').content) ∧
      ∃ e, s'.log = s.log ++ [e] ∧ phdrs = phdrsOf eh e.got ∧ e.Passed ∧
        e.Reads fd (s.file fd).content eh.ePhoff (phdrSize * eh.ePhnum.toNat) := by
  have hnone : ∀ {t : LoadState},
      (pure none : Load (Option (List ElfPhdr))).run t ≠ (.ok (some phdrs), s') := by
    intro t h
    exact absurd (Except.ok.inj (Prod.mk.inj h).1) (by simp)
  rw [loadElfPhdrs] at hrun
  split at hrun
  · exact absurd hrun hnone
  split at hrun
  · exact absurd hrun hnone
  split at hrun
  · exact absurd hrun hnone
  obtain ⟨phdata, s₁, hmmap, hrun⟩ := Prog.run_bind_eq_ok.mp hrun
  obtain ⟨-, rfl⟩ := Prod.mk.inj hmmap
  split at hrun
  · exact absurd hrun hnone
  obtain ⟨r, s₂, hread, -, hfiles, hend⟩ := elfRead_spec env fd eh.ePhoff
    (phdrSize * eh.ePhnum.toNat) { s with machine := ⟨s.machine.space, s.machine.calls + 1⟩ }
  rw [Prog.run_bind_of_ok hread] at hrun
  split at hrun
  · exact absurd hrun hnone
  · obtain ⟨hphdrs, rfl⟩ := Prod.mk.inj hrun
    obtain ⟨-, e, hlog, hgot, hreads, hpassed⟩ := hend.resolve_left ‹_›
    rw [hgot] at hphdrs
    exact ⟨hfiles, e, hlog, (Option.some.inj (Except.ok.inj hphdrs)).symm, hpassed, hreads⟩

theorem readInterpName_ok {ph : ElfPhdr} {interpName : Mem} {s s' : LoadState}
    (hrun : (readInterpName env ph).run s = (.ok interpName, s')) :
    (∀ fd', (s'.file fd').content = (s.file fd').content) ∧
      ∃ e, s'.log = s.log ++ [e] ∧ interpName = writeBytes env.nameBuf 0 e.got ∧ e.Passed ∧
        e.Reads .exe (s.file .exe).content ph.pOffset ph.pFilesz.toNat := by
  rw [readInterpName] at hrun
  split at hrun
  · cases hrun
  obtain ⟨r, s₁, hread, -, hfiles, hend⟩ := elfRead_spec env .exe ph.pOffset ph.pFilesz.toNat s
  rw [Prog.run_bind_of_ok hread] at hrun
  split at hrun
  · cases hrun
  rename_i hneg
  rw [Prog.run_bind_of_ok (Prog.run_modify _ s₁)] at hrun
  split at hrun
  · cases hrun
  · obtain ⟨hname, rfl⟩ := Prod.mk.inj hrun
    obtain ⟨-, e, hlog, hgot, hreads, hpassed⟩ := hend.resolve_left (by omega)
    rw [hgot] at hname
    exact ⟨hfiles, e, hlog, (Except.ok.inj hname).symm, hpassed, hreads⟩

theorem openInterp_ok {interpName : Mem} {s s' : LoadState}
    (hrun : (openInterp env interpName).run s = (.ok (), s')) :
    s'.log = s.log ∧ (s'.file .exe).content = (s.file .exe).content ∧
      env.lookup (pathString interpName) = .ok (s'.file .interp).content := by
  rw [openInterp, Prog.run_bind_of_ok (Prog.run_modify _ s)] at hrun
  split at hrun
  · cases hrun
  split at hrun
  · cases hrun
  · rename_i content hlookup
    obtain ⟨-, rfl⟩ := Prod.mk.inj hrun
    exact ⟨rfl, rfl, hlookup⟩

/-- The reads of the interpreter's headers. -/
def InterpReads (exe : List Byte) (ph : ElfPhdr) (path ihdr iphd : ReadEvent) : Prop :=
  let interpEhdr := ElfEhdr.ofBuf (writeBytes env.interpEhdrBuf 0 ihdr.got)
  ∃ interp, env.lookup (pathString (writeBytes env.nameBuf 0 path.got)) = .ok interp ∧
    path.Reads .exe exe ph.pOffset ph.pFilesz.toNat ∧
    ihdr.Reads .interp interp 0 ehdrSize ∧
    iphd.Reads .interp interp interpEhdr.ePhoff (phdrSize * interpEhdr.ePhnum.toNat)

theorem loadInterpHeaders_ok {eh : ElfEhdr} {ph : ElfPhdr} {i : ElfEhdr × List ElfPhdr}
    {s s' : LoadState} (hrun : (loadInterpHeaders env eh ph).run s = (.ok i, s')) :
    ∃ path ihdr iphd, s'.log = s.log ++ [path, ihdr, iphd] ∧
      InterpReads env (s.file .exe).content ph path ihdr iphd ∧
      path.Passed ∧ ihdr.Passed ∧ iphd.Passed := by
  obtain ⟨interpName, s₁, hname, hrun⟩ := Prog.run_bind_eq_ok.mp hrun
  obtain ⟨⟨⟩, s₂, hopen, hrest⟩ := Prog.run_bind_eq_ok.mp hrun
  obtain ⟨-, path, hlog₁, rfl, hpassed₁, hreads₁⟩ := readInterpName_ok env hname
  obtain ⟨hlog₂, -, hlookup⟩ := openInterp_ok env hopen
  obtain ⟨r, s₃, hread, -, hfiles₃, hend⟩ := elfRead_spec env .interp 0 ehdrSize s₂
  rw [Prog.run_bind_of_ok hread] at hrest
  split at hrest
  · cases hrest
  obtain ⟨-, ihdr, hlog₃, hgot, hreads₃, hpassed₃⟩ := hend.resolve_left (by omega)
  dsimp only at hrest
  split at hrest
  · cases hrest
  obtain ⟨phdata, s₄, hphdrs, hrest⟩ := Prog.run_bind_eq_ok.mp hrest
  cases phdata with
  | none => cases hrest
  | some interpPhdrs =>
      obtain ⟨-, rfl⟩ := Prod.mk.inj hrest
      obtain ⟨-, iphd, hlog₄, -, hpassed₄, hreads₄⟩ := loadElfPhdrs_ok env hphdrs
      rw [hgot, hfiles₃ .interp] at hreads₄
      refine ⟨path, ihdr, iphd, ?_, ⟨_, hlookup, hreads₁, hreads₃, hreads₄⟩, hpassed₁, hpassed₃,
        hpassed₄⟩
      rw [hlog₄, hlog₃, hlog₂, hlog₁]
      simp

/-- The reads that loading an executable takes: its header, its program headers and,
if it has an interpreter, the path, the header and the program headers of that. -/
def RequiredReads (exe : List Byte) (log : List ReadEvent) : Prop :=
  ∃ hdr phd, hdr.Reads .exe exe 0 ehdrSize ∧
    let eh := ElfEhdr.ofBuf (writeBytes env.ehdrBuf 0 hdr.got)
    phd.Reads .exe exe eh.ePhoff (phdrSize * eh.ePhnum.toNat) ∧
    match (phdrsOf eh phd.got).find? fun ph => ph.pType = PT_INTERP with
    | none => log = [hdr, phd]
    | some ph => ∃ path ihdr iphd, InterpReads env exe ph path ihdr iphd ∧
        log = [hdr, phd, path, ihdr, iphd]

theorem loadHeaders_ok {h : ElfEhdr × List ElfPhdr × Option (ElfEhdr × List ElfPhdr)}
    {s s' : LoadState} (hpos : (s.file .exe).pos = 0) (hlog : s.log = [])
    (hrun : (loadHeaders env).run s = (.ok h, s')) :
    RequiredReads env (s.file .exe).content s'.log ∧ ∀ e ∈ s'.log, e.Passed := by
  obtain ⟨hdr, s₁, hread, hlog₁, -, hfd, hoff, hsize, hseekRet, hcontent, hfiles₁, haccepted⟩ :=
    recordedRead_spec env .exe 0 0 ehdrSize s fun _ => hpos
  rw [loadHeaders, Prog.run_bind_of_ok hread] at hrun
  dsimp only at hrun
  split at hrun
  · cases hrun
  rename_i hreadRet
  have hpassed₁ : hdr.Passed := ⟨haccepted, by omega, by omega⟩
  have hreads₁ : hdr.Reads .exe (s.file .exe).content 0 ehdrSize := ⟨hfd, hcontent, hoff, hsize⟩
  split at hrun
  · cases hrun
  obtain ⟨phdata, s₂, hphdrs, hrun⟩ := Prog.run_bind_eq_ok.mp hrun
  cases phdata with
  | none => cases hrun
  | some phdrs =>
      obtain ⟨hfiles₂, phd, hlog₂, rfl, hpassed₂, hreads₂⟩ := loadElfPhdrs_ok env hphdrs
      rw [hfiles₁ .exe] at hreads₂
      rw [hlog, List.nil_append] at hlog₁
      rw [hlog₁] at hlog₂
      dsimp only at hrun
      split at hrun
      · rename_i hfind
        obtain ⟨-, rfl⟩ := Prod.mk.inj hrun
        refine ⟨⟨hdr, phd, hreads₁, hreads₂, ?_⟩, ?_⟩
        · rw [hfind]
          exact hlog₂
        · rw [hlog₂]
          simp [hpassed₁, hpassed₂]
      · rename_i ph hfind
        obtain ⟨i, s₃, hinterp, hrun⟩ := Prog.run_bind_eq_ok.mp hrun
        obtain ⟨-, rfl⟩ := Prod.mk.inj hrun
        obtain ⟨path, ihdr, iphd, hlog₃, hreads₃, hp₁, hp₂, hp₃⟩ := loadInterpHeaders_ok env hinterp
        rw [hfiles₂ .exe, hfiles₁ .exe] at hreads₃
        rw [hlog₂] at hlog₃
        refine ⟨⟨hdr, phd, hreads₁, hreads₂, ?_⟩, ?_⟩
        · rw [hfind]
          exact ⟨path, ihdr, iphd, hreads₃, hlog₃⟩
        · rw [hlog₃]
          simp [hpassed₁, hpassed₂, hp₁, hp₂, hp₃]

/-! ## Mapping reads nothing -/

/-- Whether a part of the loader leaves the record of the reads alone. -/
abbrev KeepsLog {α : Type} (x : Load α) : Prop := Prog.Keeps (fun s t => t.log = s.log) x

theorem KeepsLog.pure {α : Type} (a : α) : KeepsLog (pure a : Load α) :=
  fun _ => rfl

theorem KeepsLog.bind {α β : Type} {x : Load α} {f : α → Load β} (hx : KeepsLog x)
    (hf : ∀ a, KeepsLog (f a)) : KeepsLog (x >>= f) :=
  Prog.Keeps.bind (fun _ _ _ h h' => h'.trans h) hx hf

theorem keepsLog_fail {α : Type} (e : Stop) : KeepsLog (Prog.fail e : Load α) := fun _ => rfl

theorem keepsLog_onMachine {α : Type} (x : Prog Machine Stop α) : KeepsLog (onMachine x) :=
  fun _ => rfl

theorem keepsLog_loadBiasOf (eh : ElfEhdr) (phdrs : List ElfPhdr) :
    KeepsLog (loadBiasOf env eh phdrs) := by
  rw [loadBiasOf]
  split
  · exact fun _ => rfl
  · exact .pure _

theorem keepsLog_loadElfInterp (eh : ElfEhdr) (phdrs : List ElfPhdr) :
    KeepsLog (loadElfInterp env eh phdrs) := by
  refine (keepsLog_loadBiasOf env eh phdrs).bind fun loadBias => ?_
  split
  · exact .pure _
  · refine KeepsLog.bind (fun _ => rfl) fun s => (keepsLog_onMachine _).bind fun retval => ?_
    split
    · exact .pure _
    · exact .pure _

theorem keepsLog_mapImages (eh : ElfEhdr) (phdrs : List ElfPhdr)
    (interp : Option (ElfEhdr × List ElfPhdr)) : KeepsLog (mapImages env eh phdrs interp) := by
  refine (keepsLog_loadBiasOf env eh phdrs).bind fun loadBias => ?_
  split
  · exact keepsLog_fail _
  · refine KeepsLog.bind (fun _ => rfl) fun s => (keepsLog_onMachine _).bind fun _ => ?_
    cases interp with
    | none => exact .pure _
    | some i =>
        refine (keepsLog_loadElfInterp env i.1 i.2).bind fun interpLoadBias => ?_
        split
        · exact keepsLog_fail _
        · exact .pure _

theorem loadElfBinary_ok {m : Machine} {info : LoadedBinary} {s' : LoadState}
    (hrun : (loadElfBinary env).run (.init m) = (.ok info, s')) :
    ∃ exe, env.exe = .ok exe ∧ RequiredReads env exe s'.log ∧ ∀ e ∈ s'.log, e.Passed := by
  rw [loadElfBinary] at hrun
  cases hexe : env.exe with
  | error errno =>
      rw [hexe] at hrun
      cases hrun
  | ok content =>
      rw [hexe] at hrun
      dsimp only at hrun
      rw [openFile, Prog.run_bind_of_ok (Prog.run_modify _ _)] at hrun
      obtain ⟨h, s₁, hheaders, hmap⟩ := Prog.run_bind_eq_ok.mp hrun
      have hlog : s'.log = s₁.log := by
        have h' := keepsLog_mapImages env h.1 h.2.1 h.2.2 s₁
        rwa [hmap] at h'
      obtain ⟨hrequired, hpassed⟩ := loadHeaders_ok env (by rfl) (by rfl) hheaders
      rw [hlog]
      exact ⟨content, rfl, hrequired, hpassed⟩

end Headers

/-! ## Early returns -/

/-- The value a function of the loader returns. -/
def retval {α : Type} : Except Stop α → Option ℤ
  | .ok _ => some 0
  | .error (.ret value) => some value
  | .error .fault => none

/-- Early returns are errors. -/
def ReturnsErrors {σ α : Type} (x : Prog σ Stop α) : Prop :=
  ∀ s v s', x.run s = (.error (.ret v), s') → v < 0

namespace ReturnsErrors

variable {σ α β : Type}

theorem of_ok {x : Prog σ Stop α} (h : ∀ s, ∃ a, (x.run s).1 = .ok a) : ReturnsErrors x := by
  intro s v s' hrun
  obtain ⟨a, ha⟩ := h s
  rw [hrun] at ha
  cases ha

theorem pure (a : α) : ReturnsErrors (Pure.pure a : Prog σ Stop α) := of_ok fun _ => ⟨a, rfl⟩

theorem fail {v : ℤ} (hv : v < 0) : ReturnsErrors (Prog.fail (.ret v) : Prog σ Stop α) := by
  intro s v' s' hrun
  obtain rfl := Stop.ret.inj (Except.error.inj (Prod.mk.inj hrun).1)
  exact hv

theorem bind {x : Prog σ Stop α} {f : α → Prog σ Stop β} (hx : ReturnsErrors x)
    (hf : ∀ a, ReturnsErrors (f a)) : ReturnsErrors (x >>= f) := by
  intro s v s' hrun
  rw [Prog.run_bind] at hrun
  cases hxs : x.run s with
  | mk r t =>
      rw [hxs] at hrun
      cases r with
      | error e =>
          obtain ⟨he, rfl⟩ := Prod.mk.inj hrun
          obtain rfl := Except.error.inj he
          exact hx s v t hxs
      | ok a => exact hf a t v s' hrun

theorem onMachine {x : Prog Machine Stop α} (hx : ReturnsErrors x) :
    ReturnsErrors (onMachine x) := by
  intro s v s' hrun
  exact hx s.machine v _ (Prog.run_eq_of_fst (Prod.mk.inj hrun).1)

end ReturnsErrors

section EarlyReturns

variable (env : Env)

theorem returnsErrors_returnValue (body : Prog Machine Stop Unit) :
    ReturnsErrors (returnValue body) := by
  intro m v m' hrun
  rw [returnValue] at hrun
  dsimp only at hrun
  split at hrun
  · cases hrun
  · cases hrun
  · cases hrun

theorem returnsErrors_loadSegments (kernel : Kernel) (pagesz : Word) (file : List Byte)
    (loadBias : Word) (phdrs : List ElfPhdr) :
    ReturnsErrors (loadSegments kernel pagesz file loadBias phdrs) := by
  induction phdrs with
  | nil => exact .pure ()
  | cons ph phdrs ih =>
      rw [loadSegments]
      split
      · refine (returnsErrors_returnValue _).bind fun retval => ?_
        split
        · exact .fail ‹_›
        · exact ih
      · exact ih

theorem returnsErrors_elfRead (fd : Fd) (off : Word) (nbytes : ℕ) :
    ReturnsErrors (elfRead env fd off nbytes) := by
  refine .of_ok fun s => ?_
  obtain ⟨r, s', hrun, -⟩ := elfRead_spec env fd off nbytes s
  exact ⟨r, by rw [hrun]⟩

theorem returnsErrors_loadElfPhdrs (fd : Fd) (eh : ElfEhdr) :
    ReturnsErrors (loadElfPhdrs env fd eh) := by
  rw [loadElfPhdrs]
  split
  · exact .pure _
  split
  · exact .pure _
  split
  · exact .pure _
  refine ReturnsErrors.bind (.of_ok fun _ => ⟨_, rfl⟩) fun phdata => ?_
  split
  · exact .pure _
  refine (returnsErrors_elfRead env fd _ _).bind fun r => ?_
  split
  · exact .pure _
  · exact .pure _

theorem returnsErrors_loadInterpHeaders (eh : ElfEhdr) (ph : ElfPhdr) :
    ReturnsErrors (loadInterpHeaders env eh ph) := by
  have hname : ReturnsErrors (readInterpName env ph) := by
    rw [readInterpName]
    split
    · exact .fail (by decide)
    refine (returnsErrors_elfRead env _ _ _).bind fun r => ?_
    split
    · exact .fail ‹_›
    refine ReturnsErrors.bind (.of_ok fun _ => ⟨_, rfl⟩) fun _ => ?_
    split
    · exact .fail (by decide)
    · exact .pure _
  have hopen : ∀ interpName, ReturnsErrors (openInterp env interpName) := by
    intro interpName
    refine ReturnsErrors.bind (.of_ok fun _ => ⟨_, rfl⟩) fun _ => ?_
    split
    · exact .fail (by decide)
    split
    · rename_i errno _
      have hpos := errno.property
      exact .fail (by omega)
    · exact .of_ok fun _ => ⟨_, rfl⟩
  refine hname.bind fun interpName => (hopen interpName).bind fun _ => ?_
  refine (returnsErrors_elfRead env _ _ _).bind fun r => ?_
  split
  · exact .fail ‹_›
  dsimp only
  split
  · exact .fail (by decide)
  refine (returnsErrors_loadElfPhdrs env _ _).bind fun phdata => ?_
  cases phdata with
  | none => exact .fail (by decide)
  | some interpPhdrs => exact .pure _

theorem returnsErrors_loadHeaders : ReturnsErrors (loadHeaders env) := by
  have hread : ReturnsErrors (recordedRead env .exe 0 0 ehdrSize) := by
    refine .of_ok fun s => ?_
    obtain ⟨ret, got, s', hrun, -⟩ := readFullLoop_spec env .exe ehdrSize ehdrSize [] s
      (Nat.le_refl _)
    refine ⟨(ret, [] ++ got), ?_⟩
    rw [recordedRead, Prog.run_bind_of_ok (Prog.run_get s), readFull, Prog.run_bind_of_ok hrun]
    rfl
  refine hread.bind fun r => ?_
  split
  · exact .fail ‹_›
  dsimp only
  split
  · exact .fail (by decide)
  refine (returnsErrors_loadElfPhdrs env _ _).bind fun phdata => ?_
  cases phdata with
  | none => exact .fail (by decide)
  | some phdrs =>
      dsimp only
      split
      · exact .pure _
      · exact (returnsErrors_loadInterpHeaders env _ _).bind fun _ => .pure _

theorem returnsErrors_loadBiasOf (eh : ElfEhdr) (phdrs : List ElfPhdr) :
    ReturnsErrors (loadBiasOf env eh phdrs) := by
  rw [loadBiasOf]
  split
  · exact .of_ok fun _ => ⟨_, rfl⟩
  · exact .pure _

theorem returnsErrors_mapImages (eh : ElfEhdr) (phdrs : List ElfPhdr)
    (interp : Option (ElfEhdr × List ElfPhdr)) :
    ReturnsErrors (mapImages env eh phdrs interp) := by
  refine (returnsErrors_loadBiasOf env eh phdrs).bind fun loadBias => ?_
  split
  · exact .fail (ptrInt_neg ‹_›)
  refine ReturnsErrors.bind (.of_ok fun s => ⟨s, rfl⟩) fun s => ?_
  refine (ReturnsErrors.onMachine (returnsErrors_loadSegments _ _ _ _ _)).bind fun _ => ?_
  cases interp with
  | none => exact .pure _
  | some i =>
      have hinterp : ReturnsErrors (loadElfInterp env i.1 i.2) := by
        refine (returnsErrors_loadBiasOf env i.1 i.2).bind fun loadBias => ?_
        split
        · exact .pure _
        refine ReturnsErrors.bind (.of_ok fun s => ⟨s, rfl⟩) fun s => ?_
        refine (ReturnsErrors.onMachine (returnsErrors_returnValue _)).bind fun retval => ?_
        split
        · exact .pure _
        · exact .pure _
      refine hinterp.bind fun interpLoadBias => ?_
      split
      · exact .fail (ptrInt_neg ‹_›)
      · exact .pure _

/-- The loader returns 0 only at its end. -/
theorem loadElfBinary_of_retval {m : Machine}
    (h : retval ((loadElfBinary env).run (.init m)).1 = some 0) :
    ∃ info, (loadElfBinary env).run (.init m) =
      (.ok info, ((loadElfBinary env).run (.init m)).2) := by
  have herrors : ReturnsErrors (loadElfBinary env) := by
    rw [loadElfBinary]
    split
    · rename_i errno _
      have hpos := errno.property
      exact .fail (by omega)
    · refine ReturnsErrors.bind (.of_ok fun _ => ⟨_, rfl⟩) fun _ => ?_
      exact (returnsErrors_loadHeaders env).bind fun _ => returnsErrors_mapImages env _ _ _
  cases hr : ((loadElfBinary env).run (.init m)).1 with
  | ok info => exact ⟨info, Prog.run_eq_of_fst hr⟩
  | error e =>
      rw [hr] at h
      cases e with
      | fault => exact absurd h (by simp [retval])
      | ret v =>
          obtain rfl := Option.some.inj h
          exact absurd (herrors _ _ _ (Prog.run_eq_of_fst hr)) (by decide)

end EarlyReturns

/-! ## Truncated files -/

/-- The bytes were read completely, from where they should be. -/
def ReadEvent.Complete (e : ReadEvent) : Prop :=
  e.start = e.off.toNat ∧ e.got.length = e.size ∧
    e.got = (e.content.drop e.off.toNat).take e.size

/-- The errors of `lseek` and `read_full` are -1, which the loader looks for; an
`lseek` may also fail if the position is right already. -/
def ReadEvent.FailsWithMinusOne (e : ReadEvent) : Prop :=
  (e.seekRet < 0 → e.seekRet = -1 ∨ e.start = e.off.toNat) ∧ (e.readRet < 0 → e.readRet = -1)

theorem ReadEvent.Passed.complete_iff {e : ReadEvent} (h : e.Passed) :
    e.Complete ↔ e.FailsWithMinusOne := by
  have hseek := h.seek
  have hread := h.read
  have hseekRet := h.seekRet
  have hreadRet := h.readRet
  constructor
  · rintro ⟨hstart, hlength, -⟩
    refine ⟨fun _ => .inr hstart, fun hneg => ?_⟩
    have := hread.mpr hlength
    omega
  · rintro ⟨hs, hr⟩
    have hstart : e.start = e.off.toNat := by
      by_cases hneg : e.seekRet < 0
      · exact (hs hneg).resolve_left hseekRet
      · exact hseek (by omega)
    have hlength : e.got.length = e.size := by
      refine hread.mp ?_
      by_contra hneg
      exact hreadRet (hr (by omega))
    refine ⟨hstart, hlength, ?_⟩
    rw [← hstart, ← hlength]
    exact h.bytes

/-- The header of an executable with one program header right behind it. -/
def sampleEhdr : List Byte :=
  [0x7f, 0x45, 0x4c, 0x46, 2, 1, 1, 0] ++ leBytes 8 0 ++ leBytes 2 2 ++ leBytes 2 62 ++
    leBytes 4 1 ++ leBytes 8 0x400078 ++ leBytes 8 64 ++ leBytes 8 0 ++ leBytes 4 0 ++
    leBytes 2 64 ++ leBytes 2 56 ++ leBytes 2 1 ++ leBytes 6 0

def samplePhdr : List Byte :=
  leBytes 4 1 ++ leBytes 4 5 ++ leBytes 8 0 ++ leBytes 8 0x400000 ++ leBytes 8 0x400000 ++
    leBytes 8 120 ++ leBytes 8 120 ++ leBytes 8 0x1000

/-- A system in which nothing fails, with the given executable. -/
def sampleEnv (exe : List Byte) : Env where
  pagesz := 0x1000
  kernel := fun _ _ => .done
  place := fun _ _ => 0x700000000000
  exe := .ok exe
  lookup := fun _ => .error ⟨2, by decide⟩
  seek := fun _ => none
  read := fun _ => .ok 1000
  ehdrBuf := fun _ => 0
  interpEhdrBuf := fun _ => 0
  nameBuf := fun _ => 0

end PollyInstrew.Client
