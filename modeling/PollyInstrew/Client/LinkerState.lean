import PollyInstrew.Client.LoadObject
import PollyInstrew.Client.Receive

/-!
# The state of the linker

Whatever objects are loaded and whatever is dispatched, on either
architecture, the arenas and the receive buffer stay in order and apart, and
the table can be searched.
-/

namespace PollyInstrew.Client

open PollyInstrew.ByteMemory PollyInstrew.StateExcept

variable {host : Host} {c c' : State} {bytes : List Byte}

def ClientEvent.reply : ClientEvent → Reply
  | .load reply => reply
  | .dispatch _ _ reply => reply

/-- The mappings of the arenas: in user space, page aligned, apart. -/
structure MappingsOk (host : Host) (data code : Word) : Prop where
  data_page : data.toNat % 2 ^ host.pageBits = 0
  code_page : code.toNat % 2 ^ host.pageBits = 0
  data_le : data.toNat + memDataSize.toNat ≤ 2 ^ 47
  code_le : code.toNat + memCodeSize.toNat ≤ 2 ^ 47
  disjoint : RangeDisjoint data.toNat memDataSize.toNat code.toNat memCodeSize.toNat

/-- The arenas, the receive buffer and the table are in order. -/
structure LinkerOk (host : Host) (c : State) : Prop where
  recvOk : RecvOk host c
  ok : c.arenaCode.Ok host.pageBits
  endp_le : c.arenaCode.endp.toNat ≤ 2 ^ 47
  sep : c.arenaData.endp.toNat ≤ c.arenaCode.start.toNat ∨
    c.arenaCode.endp.toNat ≤ c.arenaData.start.toNat
  probed : c.objects.Probed

/-- States of the runs of the client, which load objects that are empty or well
formed. -/
inductive LinkerReach (host : Host) : State → Prop
  | init {c₀ c : State} {data code : Word} (hmap : MappingsOk host data code)
      (hrecv : c₀.recvbufSz = 0#64)
      (hrun : (rtldInit host).run (memInit data code c₀) = (.ok (), c)) : LinkerReach host c
  | step {c c' : State} {e : ClientEvent} (hc : LinkerReach host c)
      (hobj : ∀ bytes, e.reply = .ok bytes → bytes = [] ∨ ObjectOk bytes)
      (hstep : clientStep host c e = some c') : LinkerReach host c'

/-! ## Initialisation -/

theorem length_pltBytes_le (host : Host) : (pltBytes host).length ≤ 512 := by
  have hlen : (pltBytes host).length = (pltNames host.arch).length * 8 +
      (pltDataOffset host - pltCodeSize host + (pltNames host.arch).length * 8) := by
    have hslot : ∀ o, (pltSlotCode host.arch o).length = 8 := by
      intro o
      cases host.arch <;> simp [pltSlotCode]
    simp [pltBytes, List.length_flatMap, hslot]
  rw [hlen, pltDataOffset, pltCodeSize]
  cases host.arch <;> decide

theorem memInit_ok {data code : Word} (hmap : MappingsOk host data code) :
    (arenaInit data memDataSize).Ok host.pageBits ∧
      (arenaInit code memCodeSize).Ok host.pageBits := by
  have hpage : ∀ k, host.pageBits ≤ k → 2 ^ k % 2 ^ host.pageBits = 0 := fun k hk =>
    Nat.mod_eq_zero_of_dvd (Nat.pow_dvd_pow 2 hk)
  have hbits := host.pageBits_le
  have hdata : memDataSize.toNat = 2 ^ 24 := by decide
  have hcode : memCodeSize.toNat = 2 ^ 30 := by decide
  have hd := hmap.data_le
  have hc := hmap.code_le
  refine ⟨arenaInit_ok hmap.data_page ?_ (by omega), arenaInit_ok hmap.code_page ?_ (by omega)⟩
  · rw [hdata]
    exact hpage 24 (by omega)
  · rw [hcode]
    exact hpage 30 (by omega)

theorem pltCreate_ok {plt : Word} (hok : c.arenaCode.Ok host.pageBits)
    (hend : c.arenaCode.endp.toNat ≤ 2 ^ 47) (hrun : (pltCreate host).run c = (.ok plt, c')) :
    Grown host c c' ∧ c'.mem = writeBytes c.mem plt (pltBytes host) ∧
      c.arenaCode.brk.toNat ≤ plt.toNat ∧
      plt.toNat + (pltBytes host).length = c'.arenaCode.brk.toNat ∧ plt.toNat % 0x40 = 0 := by
  have hlen := length_pltBytes_le host
  have hsz : (BitVec.ofNat 64 (pltBytes host).length).toNat = (pltBytes host).length := by
    rw [BitVec.toNat_ofNat]
    omega
  obtain ⟨p, c₁, halloc, hrun⟩ := Prog.run_bind_eq_ok.mp hrun
  by_cases hbad : badAddr p
  · rw [if_pos hbad] at hrun
    simp at hrun
  rw [if_neg hbad] at hrun
  obtain ⟨hgrown, hmem, hle, hsum, halign⟩ :=
    memAllocCode_ok hok (hend.trans (by decide)) (by omega) (by decide) halloc hbad
  simp only [Prog.run_bind, run_memWriteCode, Prog.run_pure, Prod.mk.injEq,
    Except.ok.injEq] at hrun
  obtain ⟨rfl, rfl⟩ := hrun
  refine ⟨hgrown.trans (Grown.of_mem hgrown.ok _), by rw [hmem], hle, ?_, halign⟩
  rw [hsz] at hsum
  exact hsum

theorem Host.arenaAlignment_pageSize (host : Host) :
    arenaAlignment host.pageSize = host.pageSize := by
  have hge : 2 ^ 6 ≤ 2 ^ host.pageBits := Nat.pow_le_pow_right (by decide) host.pageBits_ge
  have h64 : (0x40#64).toNat = 0x40 := by decide
  rw [arenaAlignment, if_neg]
  rw [BitVec.lt_def, host.pageSize_eq, h64]
  omega

/-- `rtld_init` takes a block of the data arena, clears the table and creates
the PLT. -/
theorem rtldInit_ok (hok : c.arenaData.Ok host.pageBits) (hend : c.arenaData.endp.toNat ≤ 2 ^ 47)
    (hrun : (rtldInit host).run c = (.ok (), c')) :
    ∃ arena plt c₁, arena.Ok host.pageBits ∧ arena.start = c.arenaData.start ∧
      arena.endp = c.arenaData.endp ∧ arena.brk.toNat % 2 ^ host.pageBits = 0 ∧
      (pltCreate host).run { c with
        arenaData := arena
        mprotectCalls := c.mprotectCalls + 1
        objects := rtldInitTable } = (.ok plt, c₁) ∧
      c' = { c₁ with plt := plt } := by
  have hpow : 2 ^ host.pageBits ≤ 2 ^ 20 :=
    Nat.pow_le_pow_right (by decide) host.pageBits_le
  obtain ⟨objects, c₁, halloc, hrun⟩ := Prog.run_bind_eq_ok.mp hrun
  by_cases hbad : badAddr objects
  · rw [if_pos hbad] at hrun
    simp at hrun
  rw [if_neg hbad] at hrun
  simp only [memAllocData, Prod.mk.injEq, Except.ok.injEq] at halloc
  obtain ⟨rfl, rfl⟩ := halloc
  obtain ⟨hok', hstart, hend', -, hsum, hmod⟩ := arenaAlloc_ok host.pageSize_eq
    host.pageBits_le hok (hend.trans (by decide)) (by decide) (by rw [host.pageSize_eq]; omega)
    (host.mprotectRet_ge _) hbad
  have htable : (BitVec.ofNat 64 (32 * rtldSlots)).toNat % 2 ^ host.pageBits = 0 := by
    have hsize : (BitVec.ofNat 64 (32 * rtldSlots)).toNat = 2 ^ 22 := by decide
    rw [hsize]
    exact Nat.mod_eq_zero_of_dvd (Nat.pow_dvd_pow 2 (by have := host.pageBits_le; omega))
  rw [host.arenaAlignment_pageSize, host.pageSize_eq] at hmod
  rw [Prog.run_bind, Prog.run_modify] at hrun
  obtain ⟨plt, c₂, hplt, hrun⟩ := Prog.run_bind_eq_ok.mp hrun
  obtain ⟨-, rfl⟩ := Prod.mk.inj hrun
  refine ⟨_, plt, c₂, hok', hstart, hend', ?_, hplt, rfl⟩
  rw [← hsum, Nat.add_mod, hmod, htable, Nat.zero_add, Nat.zero_mod]

/-- The state after `mem_init` and `rtld_init`, with the code arena at `code`. -/
structure Initialised (host : Host) (code : Word) (c : State) : Prop where
  linker : LinkerOk host c
  start_eq : c.arenaCode.start = code
  endp_eq : c.arenaCode.endp.toNat = code.toNat + 2 ^ 30
  plt_ge : code.toNat ≤ c.plt.toNat
  plt_le : c.plt.toNat + (pltBytes host).length ≤ c.arenaCode.brk.toNat
  plt_bytes : readBytes c.mem c.plt (pltBytes host).length = pltBytes host

theorem initialised_of_rtldInit {c₀ : State} {data code : Word} (hmap : MappingsOk host data code)
    (hrecv : c₀.recvbufSz = 0#64)
    (hrun : (rtldInit host).run (memInit data code c₀) = (.ok (), c)) :
    Initialised host code c ∧ c.plt.toNat % 0x40 = 0 := by
  obtain ⟨hdataOk, hcodeOk⟩ := memInit_ok hmap
  have hdataSize : memDataSize.toNat = 2 ^ 24 := by decide
  have hcodeSize : memCodeSize.toNat = 2 ^ 30 := by decide
  have hd := hmap.data_le
  have hc := hmap.code_le
  have hdisj := hmap.disjoint
  unfold RangeDisjoint at hdisj
  have hdataEnd : (arenaInit data memDataSize).endp.toNat = data.toNat + 2 ^ 24 := by
    rw [arenaInit, BitVec.toNat_add, hdataSize]
    omega
  have hcodeEnd : (arenaInit code memCodeSize).endp.toNat = code.toNat + 2 ^ 30 := by
    rw [arenaInit, BitVec.toNat_add, hcodeSize]
    omega
  obtain ⟨arena, plt, c₁, hok, hstart, hend, -, hplt, rfl⟩ :=
    rtldInit_ok (c := memInit data code c₀) hdataOk (by rw [memInit]; dsimp only; omega) hrun
  replace hstart : arena.start = data := hstart
  replace hend : arena.endp.toNat = data.toNat + 2 ^ 24 := by rw [hend, ← hdataEnd]; rfl
  obtain ⟨hgrown, hmem, hle, hsum, halign⟩ :=
    pltCreate_ok (by exact hcodeOk) (by rw [memInit]; dsimp only; omega) hplt
  have hcodeStart : c₁.arenaCode.start = code := hgrown.start_eq
  have hcodeEnd' : c₁.arenaCode.endp.toNat = code.toNat + 2 ^ 30 := by
    rw [hgrown.endp_eq, ← hcodeEnd]
    rfl
  have hbytes : readBytes c₁.mem plt (pltBytes host).length = pltBytes host := by
    rw [hmem]
    exact readBytes_writeBytes _ _ (by have := length_pltBytes_le host; omega)
  have hdataEq : c₁.arenaData = arena := by rw [hgrown.state_eq]
  have hsz : c₁.recvbufSz = 0#64 := by
    rw [hgrown.state_eq]
    exact hrecv
  have hpltGe : code.toNat ≤ plt.toNat := hle
  refine ⟨?_, halign⟩
  refine
    { linker :=
        { recvOk := ⟨hdataEq ▸ hok, ?_, Or.inl hsz⟩
          ok := hgrown.ok
          endp_le := ?_
          sep := ?_
          probed := ?_ }
      start_eq := hcodeStart
      endp_eq := hcodeEnd'
      plt_ge := hpltGe
      plt_le := Nat.le_of_eq hsum
      plt_bytes := hbytes }
  · dsimp only
    rw [hdataEq]
    omega
  · dsimp only
    omega
  · dsimp only
    rw [hdataEq, hcodeStart, hstart]
    omega
  · dsimp only
    rw [hgrown.state_eq]
    exact rtldInitTable_probed

/-! ## Loading -/

/-- The bounds of the code arena and the PLT stay where they are. -/
structure SamePlt (c c' : State) : Prop where
  plt_eq : c'.plt = c.plt
  start_eq : c'.arenaCode.start = c.arenaCode.start
  endp_eq : c'.arenaCode.endp = c.arenaCode.endp

theorem SamePlt.refl (c : State) : SamePlt c c := ⟨rfl, rfl, rfl⟩

theorem SamePlt.trans {d e : State} (h : SamePlt c d) (h' : SamePlt d e) : SamePlt c e :=
  ⟨h'.plt_eq.trans h.plt_eq, h'.start_eq.trans h.start_eq, h'.endp_eq.trans h.endp_eq⟩

theorem Received.samePlt (h : Received host bytes c c') : SamePlt c c' := by
  rw [h.state_eq]
  exact ⟨rfl, rfl, rfl⟩

theorem LinkerOk.received (hc : LinkerOk host c) (h : Received host bytes c c') :
    LinkerOk host c' := by
  have hcode : c'.arenaCode = c.arenaCode := by rw [h.state_eq]
  exact
    { recvOk := h.recvOk
      ok := hcode ▸ hc.ok
      endp_le := hcode ▸ hc.endp_le
      sep := by rw [hcode, h.start_eq, h.endp_eq]; exact hc.sep
      probed := by rw [h.state_eq]; exact hc.probed }

theorem LinkerOk.loaded {re : RtldElf} {mid : ℕ} (hc : LinkerOk host c)
    (hspec : LoadSpec host re c c' mid) (hext : TableExt c c') :
    LinkerOk host c' := by
  have hdata : c'.arenaData = c.arenaData := by rw [hspec.state_eq]
  refine
    { recvOk := ?_
      ok := hspec.ok
      endp_le := hspec.endp_eq ▸ hc.endp_le
      sep := by rw [hspec.start_eq, hspec.endp_eq, hdata]; exact hc.sep
      probed := hext.probed hc.probed }
  rw [hspec.state_eq]
  exact ⟨hc.recvOk.ok, hc.recvOk.endp_le, hc.recvOk.buf⟩

theorem length_lt_of_object (hobj : bytes = [] ∨ ObjectOk bytes) :
    bytes.length < 2 ^ 31 := by
  rcases hobj with rfl | hok
  · decide
  · exact hok.length_lt

/-- What happens when an object is received and loaded. -/
structure LoadedFrom (host : Host) (bytes : List Byte) (re : RtldElf) (c c₁ c' : State)
    (mid : ℕ) : Prop where
  received : Received host bytes c c₁
  wf : ObjectWf c₁.mem re
  start_le : c₁.arenaData.start.toNat ≤ re.base.toNat
  le_endp : re.base.toNat + re.size.toNat ≤ c₁.arenaData.endp.toNat
  spec : LoadSpec host re c₁ c' mid
  registered : ∃ c₅, c₅.mem = c'.mem ∧ c₅.objects = c₁.objects ∧
    (registerPass re shnumBound 0).run c₅ = (.ok (), c')
  ext : TableExt c₁ c'

theorem LinkerOk.loadObject {c₁ : State} (h : LinkerOk host c) {skew : Word} {obj : Word × Word}
    (hobj : bytes = [] ∨ ObjectOk bytes)
    (hget : (translatorGetObject host bytes).run c = (.ok obj, c₁))
    (hadd : (rtldAddObject host obj.1 obj.2 skew).run c₁ = (.ok (), c')) :
    ∃ re mid, obj = (c₁.recvbuf, BitVec.ofNat 64 bytes.length) ∧
      rtldElfInit host c₁.mem obj.1 obj.2 skew = .ok re ∧
      LoadedFrom host bytes re c c₁ c' mid := by
  have hlen := length_lt_of_object hobj
  obtain ⟨rfl, hrecv⟩ := translatorGetObject_ok h.recvOk hlen hget
  have h₁ := h.received hrecv
  obtain ⟨re, -, -, -, -, -, -, -, -, hre, -⟩ := rtldAddObject_passes hadd
  have hmem : c₁.mem = writeBytes c.mem c₁.recvbuf bytes := by rw [hrecv.state_eq]
  have hwf : ObjectWf c₁.mem re := by
    rcases hobj with rfl | hok
    · exact absurd hre (by simp [rtldElfInit])
    · rw [hmem] at hre ⊢
      exact hok.wf_received hre
  have hbase : re.base = c₁.recvbuf ∧ re.size.toNat = bytes.length := by
    obtain rfl := rtldElfInit_ok hre
    refine ⟨rfl, ?_⟩
    dsimp only
    rw [BitVec.toNat_ofNat]
    omega
  have hlo := hrecv.start_le
  have hhi := hrecv.le_endp
  rw [← hrecv.start_eq, ← hbase.1] at hlo
  rw [← hrecv.endp_eq, ← hbase.1, ← hbase.2] at hhi
  have hapart : Apart re c₁ := by
    have hend := h₁.recvOk.endp_le
    have hsep := h₁.sep
    refine ⟨?_, by omega, h₁.endp_le⟩
    unfold RtldElf.Fits
    omega
  obtain ⟨mid, hspec, hreg⟩ := rtldAddObject_ok hwf hapart h₁.ok hre hadd
  exact ⟨re, mid, rfl, hre, hrecv, hwf, hlo, hhi, hspec, hreg,
    Prog.Keeps.of_run (keepsTable_rtldAddObject host _ _ _) hadd⟩

theorem LinkerOk.of_loadObject {c₁ : State} (h : LinkerOk host c) {skew : Word} {obj : Word × Word}
    (hobj : bytes = [] ∨ ObjectOk bytes)
    (hget : (translatorGetObject host bytes).run c = (.ok obj, c₁))
    (hadd : (rtldAddObject host obj.1 obj.2 skew).run c₁ = (.ok (), c')) :
    LinkerOk host c' ∧ SamePlt c c' := by
  obtain ⟨re, mid, -, -, hload⟩ := h.loadObject hobj hget hadd
  have hspec := hload.spec
  exact ⟨(h.received hload.received).loaded hspec hload.ext,
    hload.received.samePlt.trans ⟨by rw [hspec.state_eq], hspec.start_eq, hspec.endp_eq⟩⟩

/-! ## Patching -/

/-- The code arena at most grows. -/
def ArenaKept (host : Host) (c c' : State) : Prop :=
  c.arenaCode.Ok host.pageBits → c.arenaCode.endp.toNat ≤ 2 ^ 47 → Grown host c c'

theorem arenaKept_rtldPatch (host : Host) (patchData sym : Word) :
    Prog.Keeps (ArenaKept host) (rtldPatch host patchData sym) := by
  refine keeps_rtldPatch (fun _ hok _ => Grown.refl hok) ?_ ?_ ?_ patchData sym
  · intro c d e hcd hde hok hend
    have hgrown := hcd hok hend
    exact hgrown.trans (hde hgrown.ok (hgrown.endp_eq ▸ hend))
  · intro f c hok _
    exact Grown.of_mem hok _
  · intro c hok hend
    exact memAllocCode_grown hok (hend.trans (by decide)) (by decide) (by decide)

theorem LinkerOk.grown (h : LinkerOk host c) (hgrown : Grown host c c') : LinkerOk host c' := by
  have hdata : c'.arenaData = c.arenaData := by rw [hgrown.state_eq]
  refine
    { recvOk := ?_
      ok := hgrown.ok
      endp_le := hgrown.endp_eq ▸ h.endp_le
      sep := by rw [hgrown.start_eq, hgrown.endp_eq, hdata]; exact h.sep
      probed := hgrown.objects_eq ▸ h.probed }
  rw [hgrown.state_eq]
  exact ⟨h.recvOk.ok, h.recvOk.endp_le, h.recvOk.buf⟩

/-! ## Runs -/

/-- The quick TLB plays no role. -/
theorem LinkerOk.setTlb (h : LinkerOk host c) (tlb : QuickTlb) :
    LinkerOk host { c with quickTlb := tlb } :=
  ⟨⟨h.recvOk.ok, h.recvOk.endp_le, h.recvOk.buf⟩, h.ok, h.endp_le, h.sep, h.probed⟩

theorem LinkerOk.of_resolveFunc (h : LinkerOk host c) {addr patchData func : Word} {trace : Bool}
    {reply : Reply} (hobj : ∀ bytes, reply = .ok bytes → bytes = [] ∨ ObjectOk bytes)
    (hrun : (resolveFunc host addr patchData trace reply).run c = (.ok func, c')) :
    LinkerOk host c' ∧ SamePlt c c' := by
  obtain ⟨c₁, hres, hrest⟩ := resolveFunc_cases hrun
  obtain ⟨h₁, hsame⟩ : LinkerOk host c₁ ∧ SamePlt c c₁ := by
    rcases resolveOrTranslate_cases hres with ⟨-, rfl⟩ | ⟨e, bytes, obj, c₂, -, rfl, hget,
      hadd, -⟩
    · exact ⟨h, SamePlt.refl _⟩
    · exact h.of_loadObject (hobj bytes rfl) hget hadd
  rcases hrest with ⟨-, rfl⟩ | ⟨-, c₂, hpatch, rfl⟩
  · exact ⟨h₁, hsame⟩
  · have hkept := arenaKept_rtldPatch host patchData func c₁
    rw [hpatch] at hkept
    have hgrown := hkept h₁.ok h₁.endp_le
    exact ⟨(h₁.grown hgrown).setTlb _,
      hsame.trans ⟨hgrown.plt_eq, hgrown.start_eq, hgrown.endp_eq⟩⟩

/-- `main` receives an object, which may be empty. -/
theorem LinkerOk.load (h : LinkerOk host c) {reply : Reply}
    (hobj : ∀ bytes, reply = .ok bytes → bytes = [] ∨ ObjectOk bytes)
    (hstep : clientStep host c (.load reply) = some c') :
    ∃ bytes obj c₁, reply = .ok bytes ∧ (translatorGetObject host bytes).run c = (.ok obj, c₁) ∧
      Received host bytes c c₁ ∧ (bytes = [] ∧ c' = c₁ ∨
        bytes ≠ [] ∧ (rtldAddObject host obj.1 obj.2 0#64).run c₁ = (.ok (), c')) := by
  obtain ⟨bytes, obj, c₁, rfl, hget, hrest⟩ := clientStep_load hstep
  have hlen := length_lt_of_object (hobj bytes rfl)
  obtain ⟨rfl, hrecv⟩ := translatorGetObject_ok h.recvOk hlen hget
  have hpos : 0#64 < BitVec.ofNat 64 bytes.length ↔ bytes ≠ [] := by
    rw [BitVec.lt_def, BitVec.toNat_ofNat, BitVec.toNat_ofNat, ← List.length_pos_iff]
    omega
  rw [hpos, not_not] at hrest
  exact ⟨bytes, _, c₁, rfl, hget, hrecv, hrest⟩

theorem LinkerOk.of_clientStep (h : LinkerOk host c) {e : ClientEvent}
    (hobj : ∀ bytes, e.reply = .ok bytes → bytes = [] ∨ ObjectOk bytes)
    (hstep : clientStep host c e = some c') : LinkerOk host c' ∧ SamePlt c c' := by
  cases e with
  | load reply =>
      obtain ⟨bytes, obj, c₁, rfl, hget, hrecv, ⟨-, rfl⟩ | ⟨-, hadd⟩⟩ := h.load hobj hstep
      · exact ⟨h.received hrecv, hrecv.samePlt⟩
      · exact h.of_loadObject (hobj bytes rfl) hget hadd
  | dispatch d trace reply =>
      rcases clientStep_dispatch hstep with ⟨-, -, rfl⟩ | ⟨func, -, hrun⟩
      · exact ⟨h, SamePlt.refl _⟩
      · exact h.of_resolveFunc hobj hrun

theorem LinkerReach.linkerOk (h : LinkerReach host c) :
    LinkerOk host c := by
  induction h with
  | init hmap hrecv hrun => exact (initialised_of_rtldInit hmap hrecv hrun).1.linker
  | step _ hobj hstep ih => exact (ih.of_clientStep hobj hstep).1

/-! ## A sample object -/

theorem objectOk_jmpObject : ObjectOk jmpObject := by decide +kernel

end PollyInstrew.Client
