import PollyInstrew.Client.Linker
import PollyInstrew.Client.PltExec

/-!
# Control transfers in the code arena

On both architectures a stub loads the address of its patch data and continues
at slot 1 of the PLT.  On x86-64 the displacements always fit, because stub and
PLT lie in one arena of `2 ^ 30` bytes; on AArch64 a stub that is too far from
the PLT is refused.
-/

namespace PollyInstrew.Client

open PollyInstrew.ByteMemory PollyInstrew.BitFields PollyInstrew.StateExcept

/-! ## Stubs in the code arena -/

/-- The code arena, a mapping of `MEM_CODE_SIZE` bytes, with the PLT in it. -/
structure CodeArena (host : Host) (c : State) : Prop where
  ok : c.arenaCode.Ok host.pageBits
  endp_le : c.arenaCode.endp.toNat ≤ 2 ^ 63
  size_eq : c.arenaCode.endp.toNat = c.arenaCode.start.toNat + memCodeSize.toNat
  plt_ge : c.arenaCode.start.toNat ≤ c.plt.toNat
  plt_lt : c.plt.toNat < c.arenaCode.endp.toNat
  plt_align : c.plt.toNat % 0x40 = 0

/-- Registers the dispatcher may ask for. -/
def regBound : Arch → ℕ
  | .x86_64 => 16
  | .aarch64 => 31

/-- In the arena the displacement of the jump of a stub fits 32 bits. -/
theorem jmp_displacement_fits {host : Host} {c : State} (h : CodeArena host c) {stub : Word}
    (hge : c.arenaCode.start.toNat ≤ stub.toNat) (hlt : stub.toNat < c.arenaCode.endp.toNat) :
    ((c.plt + 8 - stub - 12).setWidth 32).signExtend 64 = c.plt + 8 - stub - 12 := by
  have hsize := h.size_eq
  have hend := h.endp_le
  have hplt := h.plt_ge
  have hplt' := h.plt_lt
  have hcode : memCodeSize.toNat = 2 ^ 30 := by decide
  have h8 : (8 : Word).toNat = 8 := rfl
  have h12 : (12 : Word).toNat = 12 := rfl
  have hsum : (c.plt + 8).toNat = c.plt.toNat + 8 := by
    rw [BitVec.toNat_add, h8]
    omega
  have hdiff : (c.plt + 8 - stub - 12).toInt = c.plt.toNat + 8 - stub.toNat - 12 := by
    rw [BitVec.toInt_eq_toNat_cond, BitVec.toNat_sub, BitVec.toNat_sub, hsum, h12]
    split <;> omega
  exact signExtend_setWidth_of_range (by decide) (by omega) (by omega)

/-- A stub in memory that `rtld_patch_create_stub` has put into the arena. -/
theorem stub_executes {host : Host} {c : State} (h : CodeArena host c) {stub : Word}
    {pd : RtldPatchData} {m : Mem} (hreg : host.dispInfo.patchDataReg < regBound host.arch)
    (hge : c.arenaCode.start.toNat ≤ stub.toNat) (hlt : stub.toNat < c.arenaCode.endp.toNat)
    (halign : stub.toNat % 0x40 = 0)
    (hcode : ∃ code, stubCode host (c.plt + BitVec.ofNat 64 pltFuncSize - stub) = .ok code)
    (hbytes : readBytes m stub stubSize = stubBytes host c.plt stub pd) (regs : ℕ → Word) :
    execute host.arch m 2 stub regs =
      some (c.plt + BitVec.ofNat 64 pltFuncSize,
        Function.update regs host.dispInfo.patchDataReg (stub + 16)) := by
  cases harch : host.arch with
  | x86_64 =>
      rw [harch] at hreg
      rw [stubBytes_x86 harch] at hbytes
      simp only [execute, x86Run, x86Step_lea hreg hbytes,
        x86Step_jmp (jmp_displacement_fits h hge hlt) hbytes, Option.bind_some, Option.map_some]
      rfl
  | aarch64 =>
      rw [harch] at hreg
      obtain ⟨code, hcode⟩ := hcode
      obtain ⟨hcheck, hwords⟩ := stubCode_aarch64 harch hcode
      rw [stubBytes, hcode] at hbytes
      change readBytes m stub stubSize = code ++ pd.bytes at hbytes
      rw [hwords, List.append_assoc] at hbytes
      have hdiff : c.plt + BitVec.ofNat 64 pltFuncSize - stub - 4 =
          c.plt + BitVec.ofNat 64 pltFuncSize - (stub + 4) := by
        rw [BitVec.sub_sub]
      rw [hdiff] at hcheck hbytes
      have h8 : (BitVec.ofNat 64 pltFuncSize).toNat = 8 := rfl
      have htarget : (c.plt + BitVec.ofNat 64 pltFuncSize).toNat % 4 = 0 := by
        have := h.plt_align
        rw [BitVec.toNat_add, h8]
        omega
      simp only [execute, a64PcRun, a64PcStep_adr hbytes hreg,
        a64PcStep_b hbytes rfl hcheck htarget (by omega), Option.bind_some, Option.map_some]

/-! ## Reachable states -/

/-- In every reachable state the PLT lies in the code arena. -/
theorem LinkerReach.codeArena {host : Host} {c : State} (h : LinkerReach host c) :
    CodeArena host c := by
  induction h with
  | @init c₀ c data code hmap hrecv hrun =>
      obtain ⟨hinit, halign⟩ := initialised_of_rtldInit hmap hrecv hrun
      have hbrk := hinit.plt_le
      have hok := hinit.linker.ok
      have hb := hok.brk_le
      have hp := hok.brkp_le
      have hge := hinit.plt_ge
      have hfits : PltFits host.arch (pltTargets host).length := pltFits_pltTargets host
      have hlen : 0 < (pltBytes host).length := by
        have hnames : 0 < (pltNames host.arch).length := by
          cases host.arch <;> decide
        rw [pltBytes_eq, length_pltImage hfits, length_pltTargets]
        omega
      refine ⟨hok, hinit.linker.endp_le.trans (by decide), ?_, ?_, by omega, halign⟩
      · rw [hinit.endp_eq, hinit.start_eq]
        rfl
      · rw [hinit.start_eq]
        exact hge
  | @step c c' e hc hobj hstep ih =>
      obtain ⟨hok, hsame⟩ := hc.linkerOk.of_clientStep hobj hstep
      refine ⟨hok.ok, hok.endp_le.trans (by decide), ?_, ?_, ?_, ?_⟩
      · rw [hsame.endp_eq, hsame.start_eq]
        exact ih.size_eq
      · rw [hsame.start_eq, hsame.plt_eq]
        exact ih.plt_ge
      · rw [hsame.endp_eq, hsame.plt_eq]
        exact ih.plt_lt
      · rw [hsame.plt_eq]
        exact ih.plt_align

/-! ## Control transfers -/

/-- In the code arena, stubs and slots of PLTs of any length that fits transfer
control as intended. -/
theorem control_transfers {host : Host} {c : State} (harena : CodeArena host c)
    (hreg : host.dispInfo.patchDataReg < regBound host.arch) :
    (∀ pd stub c', (rtldPatchCreateStub host pd).run c = (.ok stub, c') →
      readBytes c'.mem (stub + 16) 32 = pd.bytes ∧
      (∀ regs, execute host.arch c'.mem 2 stub regs =
        some (c'.plt + BitVec.ofNat 64 pltFuncSize,
          Function.update regs host.dispInfo.patchDataReg (stub + 16))) ∧
      ((c'.plt + 8 - stub - 12).setWidth 32).signExtend 64 = c'.plt + 8 - stub - 12) ∧
    pltCreate host = pltCreateWith host (pltTargets host) ∧
    PltFits host.arch (pltTargets host).length ∧
    ∀ targets plt c', PltFits host.arch targets.length →
      (pltCreateWith host targets).run c = (.ok plt, c') →
      ∀ i target, targets[i]? = some target → ∀ regs,
        execute host.arch c'.mem (slotLength host.arch)
          (plt + BitVec.ofNat 64 (pltFuncSize * i)) regs =
            some (target, if host.arch = .aarch64 then Function.update regs 17 target else regs) := by
  refine ⟨?_, pltCreate_eq host, pltFits_pltTargets host, ?_⟩
  · intro pd stub c' hrun
    obtain ⟨hgrown, hmem, hcode, hle, hsum, halign⟩ :=
      rtldPatchCreateStub_ok harena.ok harena.endp_le hrun
    have hread : readBytes c'.mem stub stubSize = stubBytes host c.plt stub pd := by
      have hlen := length_stubBytes host c.plt stub pd
      have hwrite := readBytes_writeBytes c.mem stub (hlen.le.trans (by decide))
      rw [hlen] at hwrite
      rw [hmem]
      exact hwrite
    have hstart := harena.ok.start_le
    have hbrk := hgrown.ok.brk_le
    have hbrkp := hgrown.ok.brkp_le
    rw [hgrown.endp_eq] at hbrkp
    have hsize : stubSize = 48 := rfl
    have hge : c.arenaCode.start.toNat ≤ stub.toNat := by omega
    have hlt : stub.toNat < c.arenaCode.endp.toNat := by omega
    rw [hgrown.plt_eq]
    refine ⟨?_, fun regs => ?_, jmp_displacement_fits harena hge hlt⟩
    · exact readBytes_patchData hcode hread
    · exact stub_executes harena hreg hge hlt halign hcode hread regs
  · intro targets plt c' hfits hrun i target hi regs
    exact slot_executes hfits (pltCreateWith_ok hfits hrun) hi regs

theorem control_transfers_jmp :
    (∃ stub c', (rtldPatchCreateStub (quietHost hhvmInfo) ⟨0x2000, 2, 8, 0, 0x400001000201⟩).run
      jmpReady = (.ok stub, c') ∧
      ∀ regs, execute .x86_64 c'.mem 2 stub regs =
        some (c'.plt + 8, Function.update regs 14 (stub + 16))) := by
  have h := control_transfers linkerReach_jmpReady.codeArena (by decide)
  have hrun : ((rtldPatchCreateStub (quietHost hhvmInfo) ⟨0x2000, 2, 8, 0, 0x400001000201⟩).run
      jmpReady).1 = .ok 0x400001000200 := by
    decide +kernel
  exact ⟨_, _, Prog.run_eq_of_fst hrun, (h.1 _ _ _ (Prog.run_eq_of_fst hrun)).2.1⟩

/-! ## When stubs are created -/

/-- The branch of a stub at the break reaches slot 1 of the PLT. -/
def StubReaches (c : State) : Prop :=
  -2 ^ 27 ≤ (c.plt.toNat + 4 - roundUp c.arenaCode.brk.toNat 0x40 : ℤ) ∧
    (c.plt.toNat + 4 - roundUp c.arenaCode.brk.toNat 0x40 : ℤ) < 2 ^ 27 - 1

instance (c : State) : Decidable (StubReaches c) := inferInstanceAs (Decidable (_ ∧ _))

theorem memAllocCode_stub {host : Host} {c c' : State} (harena : CodeArena host c) {p : Word}
    (halloc : (memAllocCode host (BitVec.ofNat 64 stubSize) 0x40#64).run c = (.ok p, c'))
    (hgood : ¬badAddr p) : p.toNat = roundUp c.arenaCode.brk.toNat 0x40 := by
  have hbrk := harena.ok.brk_le
  have hbrkp := harena.ok.brkp_le
  have hend := harena.endp_le
  have hround := (roundUp_spec (x := c.arenaCode.brk.toNat) (n := 2 ^ 6) (by decide)).2.1
  simp only [memAllocCode, Prod.mk.injEq, Except.ok.injEq] at halloc
  obtain ⟨rfl, -⟩ := halloc
  rw [arenaAlloc_fst (host.mprotectRet_ge _) hgood]
  exact alignUp_toNat (k := 6) (by decide) (by omega)

/-- The range check of a stub on AArch64. -/
theorem stubCode_ok_iff {host : Host} {c : State} (harena : CodeArena host c) {stub : Word}
    (hstub : stub.toNat = roundUp c.arenaCode.brk.toNat 0x40)
    (hlt : stub.toNat < c.arenaCode.endp.toNat) :
    (∃ code, stubCode host (c.plt + BitVec.ofNat 64 pltFuncSize - stub) = .ok code) ↔
      host.arch = .x86_64 ∨ StubReaches c := by
  cases harch : host.arch with
  | x86_64 => simp [stubCode, harch]
  | aarch64 =>
      have hint : (c.plt + BitVec.ofNat 64 pltFuncSize - stub - 4).toInt =
          c.plt.toNat + 4 - stub.toNat := by
        have hend := harena.endp_le
        have hplt := harena.plt_lt
        have hge := harena.plt_ge
        have hsize := harena.size_eq
        have hstart := harena.ok.start_le
        have hround := (roundUp_spec (x := c.arenaCode.brk.toNat) (n := 0x40) (by decide)).1
        have hcode : memCodeSize.toNat = 2 ^ 30 := by decide
        have h8 : (BitVec.ofNat 64 pltFuncSize).toNat = 8 := rfl
        have h4 : (4 : Word).toNat = 4 := rfl
        have hsum : (c.plt + BitVec.ofNat 64 pltFuncSize).toNat = c.plt.toNat + 8 := by
          rw [BitVec.toNat_add, h8]
          omega
        rw [BitVec.toInt_eq_toNat_cond, BitVec.toNat_sub, BitVec.toNat_sub, hsum, h4]
        split <;> omega
      have hcheck : checkSignedBits (c.plt + BitVec.ofNat 64 pltFuncSize - stub - 4) 28 ↔
          StubReaches c := by
        rw [checkSignedBits_iff, hint, hstub]
        rfl
      constructor
      · rintro ⟨code, hcode⟩
        exact Or.inr (hcheck.mp (stubCode_aarch64 harch hcode).1)
      · intro h
        have hreach := h.resolve_left (by decide)
        simp only [stubCode, harch, aarch64StubCode, rtldElfSignedRange_bind_eq,
          if_pos (hcheck.mpr hreach)]
        exact ⟨_, rfl⟩

/-- Once its memory is allocated, a stub is created on x86-64, and on AArch64 if
and only if its branch reaches the PLT. -/
theorem creates_stub_iff {host : Host} {c c₁ : State} (harena : CodeArena host c) {p : Word}
    (halloc : (memAllocCode host (BitVec.ofNat 64 stubSize) 0x40#64).run c = (.ok p, c₁))
    (hgood : ¬badAddr p) (pd : RtldPatchData) :
    (∃ stub c', (rtldPatchCreateStub host pd).run c = (.ok stub, c')) ↔
      host.arch = .x86_64 ∨ StubReaches c := by
  obtain ⟨hgrown, hmem, hle, hsum, -⟩ :=
    memAllocCode_ok harena.ok harena.endp_le (by decide) (by decide) halloc hgood
  have hlt : p.toNat < c.arenaCode.endp.toNat := by
    have hbrk := hgrown.ok.brk_le
    have hbrkp := hgrown.ok.brkp_le
    rw [hgrown.endp_eq] at hbrkp
    have hsize : (BitVec.ofNat 64 stubSize).toNat = 48 := rfl
    omega
  rw [← stubCode_ok_iff harena (memAllocCode_stub harena halloc hgood) hlt]
  constructor
  · rintro ⟨stub, c', hrun⟩
    obtain ⟨-, -, hcode, -⟩ := rtldPatchCreateStub_ok harena.ok harena.endp_le hrun
    obtain ⟨q, c₂, halloc', hrun⟩ := Prog.run_bind_eq_ok.mp hrun
    obtain ⟨hp, rfl⟩ := Prod.mk.inj (halloc.symm.trans halloc')
    obtain rfl := Except.ok.inj hp
    rw [if_neg hgood] at hrun
    rw [Prog.run_bind, Prog.run_get] at hrun
    obtain ⟨code, c₃, hlift, -⟩ := Prog.run_bind_eq_ok.mp hrun
    rw [Prog.run_lift, hgrown.plt_eq] at hlift
    exact ⟨code, (Prod.mk.inj hlift).1⟩
  · rintro ⟨code, hcode⟩
    refine ⟨p, { c₁ with mem := writeBytes c₁.mem p (code ++ pd.bytes) }, ?_⟩
    rw [rtldPatchCreateStub, Prog.run_bind, halloc]
    dsimp only
    rw [if_neg hgood, Prog.run_bind, Prog.run_get]
    dsimp only
    have hcode' : stubCode host (c₁.plt + BitVec.ofNat 64 pltFuncSize - p) = .ok code := by
      rw [hgrown.plt_eq]
      exact hcode
    rw [hcode']
    rfl

/-- An AArch64 object with one section, 128 MiB that are not in the file. -/
def wideObject : List Byte :=
  (ehdrBytes 2).take 18 ++ leBytes 2 183 ++ (ehdrBytes 2).drop 20 ++
    Shdr.bytes ⟨0, 0, 0, 0, 0, 0, 0, 0, 0⟩ ++
    Shdr.bytes ⟨SHT_NOBITS, 2, 0, 192, 0x8000000, 0, 0, 16, 0⟩

theorem objectOk_wideObject : ObjectOk wideObject := by decide +kernel

/-- The client on AArch64 after initialisation and with the object loaded. -/
def armReady : State :=
  ((rtldInit armHost).run (memInit 0x400000000000 0x400001000000 startState)).2

def wideLoaded : State :=
  ((clientEvent armHost (.load (.ok wideObject))).run armReady).2

theorem armMappings : MappingsOk armHost 0x400000000000 0x400001000000 :=
  ⟨by change _ % 2 ^ 12 = 0; decide, by change _ % 2 ^ 12 = 0; decide, by decide, by decide,
    by decide⟩

theorem armReady_run : (rtldInit armHost).run
    (memInit 0x400000000000 0x400001000000 startState) = (.ok (), armReady) :=
  Prog.run_eq_of_fst (by decide +kernel)

theorem linkerReach_armReady : LinkerReach armHost armReady := .init armMappings rfl armReady_run

theorem linkerReach_wideLoaded : LinkerReach armHost wideLoaded := by
  refine linkerReach_armReady.step (e := .load (.ok wideObject)) ?_ ?_
  · intro bytes hbytes
    obtain rfl := Except.ok.inj hbytes
    exact Or.inr objectOk_wideObject
  · exact clientStep_eq_some.mpr (Prog.run_eq_of_fst (by decide +kernel))

theorem creates_stub_iff_wide :
    (∃ stub c', (rtldPatchCreateStub armHost ⟨0x2000, 283, 8, 0, 0x400001000200⟩).run armReady =
        (.ok stub, c')) ∧
      ¬∃ stub c', (rtldPatchCreateStub armHost ⟨0x2000, 283, 8, 0, 0x400001000200⟩).run
        wideLoaded = (.ok stub, c') := by
  have hready := creates_stub_iff linkerReach_armReady.codeArena rfl (by decide +kernel)
    ⟨0x2000, 283, 8, 0, 0x400001000200⟩
  have hwide := creates_stub_iff linkerReach_wideLoaded.codeArena rfl (by decide +kernel)
    ⟨0x2000, 283, 8, 0, 0x400001000200⟩
  exact ⟨hready.mpr (Or.inr (by decide +kernel)), fun h => absurd (hwide.mp h) (by decide +kernel)⟩

/-- On AArch64 no stub is created once 128 MiB of code lie before it, although
its memory is allocated. -/
theorem not_creates_stub :
    ¬∀ (host : Host) (c c₁ : State) (p : Word), LinkerReach host c →
      (memAllocCode host (BitVec.ofNat 64 stubSize) 0x40#64).run c = (.ok p, c₁) → ¬badAddr p →
      ∀ pd, ∃ stub c', (rtldPatchCreateStub host pd).run c = (.ok stub, c') := by
  intro h
  obtain ⟨stub, c', hrun⟩ := h armHost wideLoaded _ _ linkerReach_wideLoaded rfl
    (by decide +kernel) ⟨0x2000, 283, 8, 0, 0x400001000200⟩
  have herr : ((rtldPatchCreateStub armHost ⟨0x2000, 283, 8, 0, 0x400001000200⟩).run
      wideLoaded).1 = .error (-EINVAL) := by
    decide +kernel
  rw [hrun] at herr
  exact absurd herr nofun

end PollyInstrew.Client
