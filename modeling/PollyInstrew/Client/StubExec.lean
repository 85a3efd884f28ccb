import PollyInstrew.Client.Field

/-!
# Creating and executing patch stubs on x86-64

A stub is written to a fresh block of the code arena.  Executing it loads the
address of its patch data into the patch-data register and continues at the
full dispatch function of the selected convention.
-/

namespace PollyInstrew.Client

open PollyInstrew.ByteMemory PollyInstrew.StateExcept

/-! ## Stubs -/

/-- The bytes of a stub at `stub` for the patch data `pd`. -/
def stubBytes (host : Host) (plt stub : Word) (pd : RtldPatchData) : List Byte :=
  (stubCode host (plt + BitVec.ofNat 64 pltFuncSize - stub)).toOption.getD
    (List.replicate 16 0#8) ++ pd.bytes

/-- The same on x86-64. -/
def x86StubBytes (host : Host) (plt stub : Word) (pd : RtldPatchData) : List Byte :=
  x86StubCode host.dispInfo.patchDataReg
    (plt + BitVec.ofNat 64 pltFuncSize - stub) ++ pd.bytes

theorem stubBytes_x86 {host : Host} (harch : host.arch = .x86_64) (plt stub : Word)
    (pd : RtldPatchData) : stubBytes host plt stub pd = x86StubBytes host plt stub pd := by
  rw [stubBytes, stubCode, harch]
  rfl

@[simp] theorem length_x86StubCode (pdr : ℕ) (diff : Word) :
    (x86StubCode pdr diff).length = 16 := by
  simp [x86StubCode]

@[simp] theorem RtldPatchData.length_bytes (pd : RtldPatchData) : pd.bytes.length = 32 := by
  simp [RtldPatchData.bytes]

theorem length_stubCode {host : Host} {diff : Word} {code : List Byte}
    (h : stubCode host diff = .ok code) : code.length = 16 := by
  unfold stubCode at h
  split at h
  · obtain rfl := Except.ok.inj h
    exact length_x86StubCode _ _
  · unfold aarch64StubCode at h
    cases hrange : rtldElfSignedRange (diff - 4) 28 with
    | error e =>
        rw [hrange] at h
        exact absurd h nofun
    | ok _ =>
        rw [hrange] at h
        obtain rfl := Except.ok.inj h
        simp

@[simp] theorem length_stubBytes (host : Host) (plt stub : Word) (pd : RtldPatchData) :
    (stubBytes host plt stub pd).length = stubSize := by
  unfold stubBytes
  cases h : stubCode host (plt + BitVec.ofNat 64 pltFuncSize - stub) with
  | error e => simp [Except.toOption, stubSize]
  | ok code => simp [Except.toOption, stubSize, length_stubCode h]

theorem rtldPatchCreateStub_ok {host : Host} {c c' : State} {stub : Word} {pd : RtldPatchData}
    (hok : c.arenaCode.Ok host.pageBits) (hend : c.arenaCode.endp.toNat ≤ 2 ^ 63)
    (hrun : (rtldPatchCreateStub host pd).run c = (.ok stub, c')) :
    Grown host c c' ∧ c'.mem = writeBytes c.mem stub (stubBytes host c.plt stub pd) ∧
      (∃ code, stubCode host (c.plt + BitVec.ofNat 64 pltFuncSize - stub) = .ok code) ∧
      c.arenaCode.brk.toNat ≤ stub.toNat ∧
      stub.toNat + stubSize = c'.arenaCode.brk.toNat ∧ stub.toNat % 0x40 = 0 := by
  obtain ⟨p, c₁, halloc, hrun⟩ := Prog.run_bind_eq_ok.mp hrun
  by_cases hbad : badAddr p
  · rw [if_pos hbad] at hrun
    simp at hrun
  rw [if_neg hbad] at hrun
  obtain ⟨hgrown, hmem, hle, hsum, halign⟩ :=
    memAllocCode_ok hok hend (by decide) (by decide) halloc hbad
  rw [Prog.run_bind, Prog.run_get] at hrun
  obtain ⟨code, c₂, hlift, hrun⟩ := Prog.run_bind_eq_ok.mp hrun
  rw [Prog.run_lift, hgrown.plt_eq] at hlift
  obtain ⟨hcode, rfl⟩ := Prod.mk.inj hlift
  rw [Prog.run_bind, run_memWriteCode] at hrun
  simp only [Prog.run_pure, Prod.mk.injEq, Except.ok.injEq] at hrun
  obtain ⟨rfl, rfl⟩ := hrun
  refine ⟨hgrown.trans (Grown.of_mem hgrown.ok _), ?_, ⟨code, hcode⟩, hle, hsum, halign⟩
  rw [hmem, stubBytes, hcode]
  rfl

/-- A stub for `pd` at `stub`, below the break of the code arena. -/
structure StubAt (host : Host) (c : State) (stub : Word) (pd : RtldPatchData) : Prop where
  bytes : readBytes c.mem stub stubSize = stubBytes host c.plt stub pd
  code : ∃ code, stubCode host (c.plt + BitVec.ofNat 64 pltFuncSize - stub) = .ok code
  le_brk : stub.toNat + stubSize ≤ c.arenaCode.brk.toNat

/-- Changes outside the used part of the arena keep a stub. -/
theorem StubAt.frame {host : Host} {c c' : State} {stub : Word} {pd : RtldPatchData}
    (h : StubAt host c stub pd) (hplt : c'.plt = c.plt)
    (hbrk : c.arenaCode.brk.toNat ≤ c'.arenaCode.brk.toNat)
    (hmem : ∀ x : Word, stub.toNat ≤ x.toNat → x.toNat < c.arenaCode.brk.toNat →
      c'.mem x = c.mem x) : StubAt host c' stub pd := by
  have hle := h.le_brk
  have hlt := c.arenaCode.brk.isLt
  refine ⟨?_, hplt ▸ h.code, hle.trans hbrk⟩
  rw [hplt, ← h.bytes]
  apply readBytes_congr _ (by decide)
  intro x hx
  rw [inRange_iff (by omega)] at hx
  exact hmem x (by omega) (by omega)

/-- The patch data of a stub reads back. -/
theorem readPatchData_of_bytes {m : Mem} {a : Word} {pd : RtldPatchData}
    (h : readBytes m a 32 = pd.bytes) : readPatchData m a = pd := by
  have hsplit : readBytes m a ((leBytes 8 pd.symAddr.toNat).length +
      (leBytes 4 pd.relType.toNat ++ (leBytes 4 pd.relSize.toNat ++
        (leBytes 8 pd.addend.toNat ++ leBytes 8 pd.patchAddr.toNat))).length) =
      leBytes 8 pd.symAddr.toNat ++ (leBytes 4 pd.relType.toNat ++
        (leBytes 4 pd.relSize.toNat ++
          (leBytes 8 pd.addend.toNat ++ leBytes 8 pd.patchAddr.toNat))) := by
    simpa [RtldPatchData.bytes] using h
  obtain ⟨h₁, hrest⟩ := readBytes_eq_append.mp hsplit
  rw [List.length_append] at hrest
  obtain ⟨h₂, hrest⟩ := readBytes_eq_append.mp hrest
  rw [List.length_append] at hrest
  obtain ⟨h₃, hrest⟩ := readBytes_eq_append.mp hrest
  rw [List.length_append] at hrest
  obtain ⟨h₄, h₅⟩ := readBytes_eq_append.mp hrest
  simp only [length_leBytes, BitVec.add_assoc, ← BitVec.ofNat_add] at h₁ h₂ h₃ h₄ h₅
  have hload : ∀ {w : ℕ} {b : Word} (v : BitVec w), 8 * (w / 8) = w →
      readBytes m b (w / 8) = leBytes (w / 8) v.toNat → load w m b = v := by
    intro w b v hw hb
    rw [load_of_readBytes hw hb, BitVec.ofNat_toNat, BitVec.setWidth_eq]
  have e₁ := hload pd.symAddr (by decide) h₁
  have e₂ := hload pd.relType (by decide) h₂
  have e₃ := hload pd.relSize (by decide) h₃
  have e₄ := hload pd.addend (by decide) h₄
  have e₅ := hload pd.patchAddr (by decide) h₅
  cases pd
  simp only [readPatchData, RtldPatchData.mk.injEq]
  exact ⟨e₁, e₂, e₃, e₄, e₅⟩

/-- The last 32 bytes of a stub are its patch data. -/
theorem readBytes_patchData {host : Host} {m : Mem} {plt stub : Word} {pd : RtldPatchData}
    (hcode : ∃ code, stubCode host (plt + BitVec.ofNat 64 pltFuncSize - stub) = .ok code)
    (hbytes : readBytes m stub stubSize = stubBytes host plt stub pd) :
    readBytes m (stub + 16) 32 = pd.bytes := by
  obtain ⟨code, hcode⟩ := hcode
  have hlen := length_stubCode hcode
  have hsplit : readBytes m stub (code.length + pd.bytes.length) = code ++ pd.bytes := by
    rw [stubBytes, hcode] at hbytes
    rw [hlen, RtldPatchData.length_bytes]
    exact hbytes
  have hpd := (readBytes_eq_append.mp hsplit).2
  rw [hlen, RtldPatchData.length_bytes] at hpd
  exact hpd

theorem StubAt.patchData {host : Host} {c : State} {stub : Word} {pd : RtldPatchData}
    (h : StubAt host c stub pd) : readPatchData c.mem (stub + 16) = pd :=
  readPatchData_of_bytes (readBytes_patchData h.code h.bytes)

/-! ## Execution -/

/-- Instruction pointer and general-purpose registers. -/
structure X86State where
  rip : Word
  regs : ℕ → Word

/-- One step of the instructions stubs and PLT slots consist of:
`lea r64, [rip + disp32]`, `jmp rel32` and `jmp [rip + disp32]`. -/
def x86Step (m : Mem) (s : X86State) : Option X86State :=
  let opcode := m s.rip
  if (opcode = 0x48#8 ∨ opcode = 0x4c#8) ∧ m (s.rip + 1) = 0x8d#8 ∧
      m (s.rip + 2) &&& 0xc7#8 = 0x05#8 then
    let reg := ((m (s.rip + 2) >>> 3) &&& 7#8).toNat + if opcode = 0x4c#8 then 8 else 0
    some
      { rip := s.rip + 7
        regs := Function.update s.regs reg
          (s.rip + 7 + (load 32 m (s.rip + 3)).signExtend 64) }
  else if opcode = 0xe9#8 then
    some { s with rip := s.rip + 5 + (load 32 m (s.rip + 1)).signExtend 64 }
  else if opcode = 0xff#8 ∧ m (s.rip + 1) = 0x25#8 then
    some { s with rip := load 64 m (s.rip + 6 + (load 32 m (s.rip + 2)).signExtend 64) }
  else
    none

/-- Executing `n` instructions. -/
def x86Run (m : Mem) : ℕ → X86State → Option X86State
  | 0, s => some s
  | n + 1, s => (x86Step m s).bind (x86Run m n)

theorem byte_of_readBytes {m : Mem} {a : Word} {bs : List Byte} {n : ℕ}
    (h : readBytes m a n = bs) {i : ℕ} {b : Byte} (hi : bs[i]? = some b) :
    m (a + BitVec.ofNat 64 i) = b := by
  subst h
  obtain ⟨hlt, hb⟩ := List.getElem?_eq_some_iff.mp hi
  rw [← hb, getElem_readBytes]

section StubExec

variable {host : Host} {m : Mem} {plt stub : Word} {pd : RtldPatchData}

/-- The `lea` at the start of a stub. -/
theorem x86Step_lea (hpdr : host.dispInfo.patchDataReg < 16)
    (h : readBytes m stub stubSize = x86StubBytes host plt stub pd) (regs : ℕ → Word) :
    x86Step m ⟨stub, regs⟩ =
      some ⟨stub + 7, Function.update regs host.dispInfo.patchDataReg (stub + 16)⟩ := by
  generalize hreg : host.dispInfo.patchDataReg = pdr at hpdr
  have hbyte : ∀ (i : ℕ) (b : Byte), (x86StubBytes host plt stub pd)[i]? = some b →
      m (stub + BitVec.ofNat 64 i) = b := fun i b hb => byte_of_readBytes h hb
  have h0 := hbyte 0 _ rfl
  have h1 := hbyte 1 _ rfl
  have h2 := hbyte 2 _ rfl
  rw [BitVec.add_zero, hreg] at h0
  rw [hreg] at h2
  have hdisp : load 32 m (stub + BitVec.ofNat 64 3) = 9#32 := by
    refine load_of_readBytes (v := 9) (by decide) ?_
    exact (readBytes_slice h (by decide)).trans rfl
  have hrex : ∀ p < 16, BitVec.ofNat 8 (0x48 + if 8 ≤ p then 4 else 0) = 0x48#8 ∨
      BitVec.ofNat 8 (0x48 + if 8 ≤ p then 4 else 0) = 0x4c#8 := by decide
  have hmodrm : ∀ p < 16, BitVec.ofNat 8 (5 + (p % 8) * 8) &&& 0xc7#8 = 0x05#8 := by decide
  have hfield : ∀ p < 16, ((BitVec.ofNat 8 (5 + (p % 8) * 8) >>> 3) &&& 7#8).toNat +
      (if BitVec.ofNat 8 (0x48 + if 8 ≤ p then 4 else 0) = 0x4c#8 then 8 else 0) = p := by
    decide
  have hsum : stub + 7#64 + BitVec.signExtend 64 9#32 = stub + 16#64 := by
    rw [BitVec.add_assoc]
    congr 1
  unfold x86Step
  dsimp only
  have hmod : m (stub + 2) &&& 0xc7#8 = 0x05#8 := by
    rw [show m (stub + 2) = _ from h2]
    exact hmodrm pdr hpdr
  rw [h0, if_pos ⟨hrex pdr hpdr, h1, hmod⟩]
  · have hreg' : ((m (stub + 2) >>> 3) &&& 7#8).toNat +
        (if BitVec.ofNat 8 (0x48 + if 8 ≤ pdr then 4 else 0) = 0x4c#8 then 8 else 0) =
        pdr := by
      rw [show m (stub + 2) = _ from h2]
      exact hfield pdr hpdr
    rw [hreg']
    have hd : load 32 m (stub + 3) = 9#32 := hdisp
    rw [hd]
    exact congrArg (fun v => some (⟨stub + 7, Function.update regs pdr v⟩ : X86State)) hsum

/-- The `jmp` of a stub reaches slot 1 of the PLT if that is in range. -/
theorem x86Step_jmp
    (hnear : ((plt + 8 - stub - 12).setWidth 32).signExtend 64 = plt + 8 - stub - 12)
    (h : readBytes m stub stubSize = x86StubBytes host plt stub pd) (regs : ℕ → Word) :
    x86Step m ⟨stub + 7, regs⟩ = some ⟨plt + 8, regs⟩ := by
  have hbyte : ∀ (i : ℕ) (b : Byte), (x86StubBytes host plt stub pd)[i]? = some b →
      m (stub + BitVec.ofNat 64 i) = b := fun i b hb => byte_of_readBytes h hb
  have h7 : m (stub + 7) = 0xe9#8 := hbyte 7 _ rfl
  have hdisp : load 32 m (stub + BitVec.ofNat 64 8) =
      BitVec.ofNat 32 (plt + 8 - stub - 12).toNat := by
    refine load_of_readBytes (by decide) ?_
    exact (readBytes_slice h (by decide)).trans rfl
  have hval : BitVec.ofNat 32 (plt + 8 - stub - 12).toNat =
      (plt + 8 - stub - 12).setWidth 32 :=
    BitVec.ofNat_toNat _ _
  unfold x86Step
  dsimp only
  rw [h7, if_neg (fun hlea => absurd hlea.1 (by decide)), if_pos rfl]
  have hload : load 32 m (stub + 7 + 1) = (plt + 8 - stub - 12).setWidth 32 := by
    rw [BitVec.add_assoc]
    exact hdisp.trans hval
  rw [hload, hnear]
  congr 2
  bv_omega

theorem pltDataOffset_eq (harch : host.arch = .x86_64) : pltDataOffset host = 256 := by
  unfold pltDataOffset pltCodeSize
  rw [harch]
  decide

/-- Slot 1 of the PLT jumps to the full dispatch function. -/
theorem x86Step_plt (harch : host.arch = .x86_64)
    (hplt : readBytes m plt (pltBytes host).length = pltBytes host) (regs : ℕ → Word) :
    x86Step m ⟨plt + 8, regs⟩ =
      some ⟨host.dispatchAddr host.dispInfo.fullDispatchFunc, regs⟩ := by
  have hoff := pltDataOffset_eq harch
  have hsize : pltCodeSize host = 208 := by
    unfold pltCodeSize
    rw [harch]
    decide
  have hnames : (pltNames host.arch).length = 26 := by
    rw [harch]
    decide
  unfold pltBytes at hplt
  dsimp only at hplt
  rw [List.length_append] at hplt
  obtain ⟨hcode, hdata⟩ := readBytes_eq_append.mp hplt
  rw [List.length_append] at hcode
  have hslots := (readBytes_eq_append.mp hcode).1
  have hslotLen : ∀ _ : String, (pltSlotCode host.arch (pltDataOffset host)).length = 8 := by
    intro _
    rw [harch]
    rfl
  have hlen1 : ((pltNames host.arch).flatMap
      fun _ => pltSlotCode host.arch (pltDataOffset host)).length =
        8 * (pltNames host.arch).length := by
    rw [List.length_flatMap]
    simp [hslotLen "", Nat.mul_comm]
  rw [hlen1] at hslots
  have hslot := readBytes_flatMap hslotLen hslots (i := 1)
    (x := "instrew_full_dispatch") (by rw [harch]; rfl)
  have hlenData : ∀ e : String × ℕ, (leBytes 8 (pltTarget host e.2 e.1).toNat).length = 8 := by
    intro e
    simp
  have hlen2 : ((pltNames host.arch).zipIdx.flatMap
      fun e => leBytes 8 (pltTarget host e.2 e.1).toNat).length =
        8 * (pltNames host.arch).zipIdx.length := by
    rw [List.length_flatMap]
    simp [Nat.mul_comm]
  rw [hlen2, List.length_append, hlen1, hnames] at hdata
  simp only [List.length_map, List.length_range, hoff, hsize] at hdata
  have hword := readBytes_flatMap hlenData hdata (i := 1)
    (x := ("instrew_full_dispatch", 1)) (by rw [harch]; rfl)
  have htarget : load 64 m (plt + 264) =
      host.dispatchAddr host.dispInfo.fullDispatchFunc := by
    have hw : readBytes m (plt + 264) (64 / 8) = leBytes (64 / 8)
        (host.dispatchAddr host.dispInfo.fullDispatchFunc).toNat := by
      rw [BitVec.add_assoc, ← BitVec.ofNat_add] at hword
      exact hword
    rw [load_of_readBytes (by decide) hw, BitVec.ofNat_toNat, BitVec.setWidth_eq]
  have hslot' : readBytes m (plt + 8) 8 =
      [0xff#8, 0x25#8, 0xfa#8, 0#8, 0#8, 0#8, 0x0f#8, 0x0b#8] := by
    rw [hoff, harch] at hslot
    exact hslot.trans (by decide)
  have h0 : m (plt + 8) = 0xff#8 := by
    have := byte_of_readBytes hslot' (i := 0) rfl
    rwa [BitVec.add_zero] at this
  have h1 : m (plt + 8 + 1) = 0x25#8 := byte_of_readBytes hslot' (i := 1) rfl
  have hdisp : load 32 m (plt + 8 + 2) = 250#32 := by
    refine load_of_readBytes (v := 250) (by decide) ?_
    exact (readBytes_slice hslot' (by decide)).trans rfl
  unfold x86Step
  dsimp only
  rw [h0, if_neg (fun hlea => absurd hlea.1 (by decide)), if_neg (by decide),
    if_pos ⟨rfl, h1⟩, hdisp]
  have haddr : plt + 8 + 6 + BitVec.signExtend 64 250#32 = plt + 264 := by
    rw [BitVec.add_assoc, BitVec.add_assoc]
    congr 1
  rw [haddr, htarget]

/-- Executing a stub loads the address of its patch data and enters the full
dispatch function. -/
theorem x86Run_stub (harch : host.arch = .x86_64)
    (hpdr : host.dispInfo.patchDataReg < 16)
    (hnear : ((plt + 8 - stub - 12).setWidth 32).signExtend 64 = plt + 8 - stub - 12)
    (hstub : readBytes m stub stubSize = x86StubBytes host plt stub pd)
    (hplt : readBytes m plt (pltBytes host).length = pltBytes host) (regs : ℕ → Word) :
    x86Run m 3 ⟨stub, regs⟩ =
      some ⟨host.dispatchAddr host.dispInfo.fullDispatchFunc,
        Function.update regs host.dispInfo.patchDataReg (stub + 16)⟩ := by
  simp only [x86Run, x86Step_lea hpdr hstub, x86Step_jmp hnear hstub,
    x86Step_plt harch hplt, Option.bind_some]

end StubExec

end PollyInstrew.Client
