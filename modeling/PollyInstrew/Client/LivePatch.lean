import PollyInstrew.Client.PatchWindow
import PollyInstrew.Client.Transfer

/-!
# Live patching over whole runs

Over every run of object loads and dispatches the stubs that have been created stay
intact, and so does their patch data.  The window `rtld_patch` works on lies in the
mapped part of the code arena; besides the field it changes at most the block of a
new veneer.
-/

namespace PollyInstrew.Client

open PollyInstrew.ByteMemory PollyInstrew.StateExcept

variable {host : Host} {c c' : State} {stubs : List (Word × RtldPatchData)}

/-! ## Runs -/

/-- The stubs of an object that is received and loaded. -/
def loadStubs (host : Host) (c : State) (skew : Word) (bytes : List Byte) :
    List (Word × RtldPatchData) :=
  let received := ((translatorGetObject host bytes).run c).2
  createdStubs (accesses host received received.recvbuf (BitVec.ofNat 64 bytes.length) skew)

/-- The stubs the lookup of `resolve_func` adds. -/
def resolveStubs (host : Host) (c : State) (addr : Word) (reply : Reply) :
    List (Word × RtldPatchData) :=
  match rtldResolve c.objects addr, reply with
  | .error _, .ok bytes => loadStubs host c addr bytes
  | _, _ => []

/-- The stubs an event adds. -/
def newStubs (host : Host) (c : State) : ClientEvent → List (Word × RtldPatchData)
  | .load (.ok bytes) => if bytes = [] then [] else loadStubs host c 0#64 bytes
  | .load (.error _) => []
  | .dispatch d _ reply =>
      match d.lookup c.quickTlb with
      | some _ => []
      | none =>
          resolveStubs host c (resolveAddr c.mem d.resolveArgs.1 d.resolveArgs.2) reply

/-- The client together with all stubs created so far, by address, and the patch
data they were created for. -/
structure PatchRun where
  client : State
  stubs : List (Word × RtldPatchData)

def patchStep (host : Host) (r : PatchRun) (e : ClientEvent) : Option PatchRun :=
  (clientStep host r.client e).map fun c' => ⟨c', r.stubs ++ newStubs host r.client e⟩

/-- The answer of the translator is empty or a well-formed object. -/
def Reply.Ok (reply : Reply) : Prop := ∀ bytes, reply = .ok bytes → bytes = [] ∨ ObjectOk bytes

/-- Objects are empty or well formed, and patch data is null or that of a stub. -/
structure PatchEventOk (r : PatchRun) (e : ClientEvent) : Prop where
  object : e.reply.Ok
  patchData : ∀ addr p trace reply, e = .dispatch (.resolve addr p) trace reply →
    p = 0#64 ∨ ∃ s ∈ r.stubs, p = s.1 + 16

/-- States of the runs of object loads and dispatches. -/
inductive PatchReach (host : Host) : PatchRun → Prop
  | init {c₀ c : State} {data code : Word} (hmap : MappingsOk host data code)
      (hrecv : c₀.recvbufSz = 0#64)
      (hrun : (rtldInit host).run (memInit data code c₀) = (.ok (), c)) :
      PatchReach host ⟨c, []⟩
  | step {r r' : PatchRun} {e : ClientEvent} (hr : PatchReach host r) (he : PatchEventOk r e)
      (hstep : patchStep host r e = some r') : PatchReach host r'

/-! ## The invariant -/

/-- The field of a stub lies in the code arena in front of the stub, which is
intact. -/
structure StubOk (host : Host) (c : State) (s : Word × RtldPatchData) : Prop where
  relSize_eq : s.2.relSize = 8#32
  start_le : c.arenaCode.start.toNat ≤ s.2.patchAddr.toNat
  le_stub : s.2.patchAddr.toNat + fieldSize s.2.relType ≤ s.1.toNat
  stubAt : StubAt host c s.1 s.2

structure PatchInv (host : Host) (c : State) (stubs : List (Word × RtldPatchData)) : Prop where
  linker : LinkerOk host c
  stub : ∀ s ∈ stubs, StubOk host c s
  apart : ∀ s ∈ stubs, ∀ s' ∈ stubs,
    RangeDisjoint s.2.patchAddr.toNat (fieldSize s.2.relType) s'.1.toNat stubSize

/-- The window of a stub ends below the break. -/
theorem StubOk.window_le {s : Word × RtldPatchData} (h : StubOk host c s) :
    s.2.patchAddr.toNat + 8 ≤ c.arenaCode.brk.toNat := by
  have hfield := fieldSize_eq s.2.relType
  have hle := h.le_stub
  have hbrk := h.stubAt.le_brk
  unfold stubSize at hbrk
  omega

theorem StubOk.patchData_ne {s : Word × RtldPatchData} (h : StubOk host c s)
    (hend : c.arenaCode.brk.toNat ≤ 2 ^ 47) : s.1 + 16 ≠ 0#64 := by
  intro hzero
  have hbrk := h.stubAt.le_brk
  unfold stubSize at hbrk
  have hsum : (s.1 + 16).toNat = s.1.toNat + 16 := by
    have h16 : (16 : Word).toNat = 16 := rfl
    rw [BitVec.toNat_add, h16]
    omega
  rw [hzero] at hsum
  exact absurd hsum (by simp)

theorem LinkerOk.brk_le (h : LinkerOk host c) :
    c.arenaCode.brk.toNat ≤ 2 ^ 47 :=
  h.ok.brk_le.trans (h.ok.brkp_le.trans h.endp_le)

/-- Changes outside the used part of the code arena. -/
theorem PatchInv.frame (h : PatchInv host c stubs) (hlinker : LinkerOk host c')
    (hplt : c'.plt = c.plt) (hstart : c'.arenaCode.start = c.arenaCode.start)
    (hbrk : c.arenaCode.brk.toNat ≤ c'.arenaCode.brk.toNat)
    (hmem : ∀ x : Word, c.arenaCode.start.toNat ≤ x.toNat → x.toNat < c.arenaCode.brk.toNat →
      c'.mem x = c.mem x) :
    PatchInv host c' stubs where
  linker := hlinker
  stub := by
    intro s hs
    have hold := h.stub s hs
    have hlo := hold.start_le
    have hle := hold.le_stub
    refine ⟨hold.relSize_eq, hstart ▸ hlo, hle, hold.stubAt.frame hplt hbrk fun x h₁ h₂ => ?_⟩
    exact hmem x (by omega) h₂
  apart := h.apart

theorem PatchInv.received {bytes : List Byte} (h : PatchInv host c stubs)
    (hrecv : Received host bytes c c') : PatchInv host c' stubs := by
  have hcode : c'.arenaCode = c.arenaCode := by rw [hrecv.state_eq]
  have hbrk := h.linker.ok.brk_le
  have hbrkp := h.linker.ok.brkp_le
  have hend := h.linker.recvOk.endp_le
  have hsep := h.linker.sep
  have hlo := hrecv.start_le
  have hhi := hrecv.le_endp
  refine h.frame (h.linker.received hrecv) (by rw [hrecv.state_eq]) (by rw [hcode])
    (Nat.le_of_eq (by rw [hcode])) fun x h₁ h₂ => ?_
  rw [hrecv.state_eq]
  apply writeBytes_of_not_inRange
  rw [inRange_iff (by omega)]
  omega

/-- Receiving and loading an object. -/
theorem PatchInv.loadObject {c₁ : State} (h : PatchInv host c stubs) {bytes : List Byte}
    {skew : Word} {obj : Word × Word} (hobj : bytes = [] ∨ ObjectOk bytes)
    (hget : (translatorGetObject host bytes).run c = (.ok obj, c₁))
    (hadd : (rtldAddObject host obj.1 obj.2 skew).run c₁ = (.ok (), c')) :
    PatchInv host c' (stubs ++ loadStubs host c skew bytes) := by
  obtain ⟨re, mid, rfl, hre, hload⟩ := h.linker.loadObject hobj hget hadd
  have h₁ := h.received hload.received
  have hspec := hload.spec
  have hlinker := (h.linker.of_loadObject hobj hget hadd).1
  have hbrk := h₁.linker.ok.brk_le
  have hbrkp := h₁.linker.ok.brkp_le
  have hstart := h₁.linker.ok.start_le
  have hsep := h₁.linker.sep
  have hlo := hload.start_le
  have hhi := hload.le_endp
  have hgrow := hspec.le_mid.trans hspec.mid_le
  have hold : PatchInv host c' stubs := by
    refine h₁.frame hlinker (by rw [hspec.state_eq]) hspec.start_eq hgrow fun x hx₁ hx₂ => ?_
    exact hspec.agree x (by omega) (by omega)
  have hapart : Apart re c₁ := by
    have hend := h₁.linker.recvOk.endp_le
    refine ⟨?_, by omega, h₁.linker.endp_le⟩
    unfold RtldElf.Fits
    omega
  obtain ⟨mid', hnew⟩ := newStub_of_load hload.wf hapart h₁.linker.ok hre hadd
  have hstubs : loadStubs host c skew bytes =
      createdStubs (accesses host c₁ c₁.recvbuf (BitVec.ofNat 64 bytes.length) skew) := by
    rw [loadStubs, hget]
  rw [hstubs]
  refine ⟨hlinker, fun s hs => ?_, fun s hs s' hs' => ?_⟩
  · rcases List.mem_append.mp hs with hs | hs
    · exact hold.stub s hs
    · have hn := hnew s hs
      refine ⟨hn.relSize_eq, ?_, hn.hi.trans hn.mid_le, hn.stubAt⟩
      rw [hspec.start_eq]
      exact hstart.trans hn.lo
  · have hbelow : ∀ s ∈ stubs, s.1.toNat + stubSize ≤ c₁.arenaCode.brk.toNat :=
      fun s hs => (h₁.stub s hs).stubAt.le_brk
    unfold RangeDisjoint
    rcases List.mem_append.mp hs with hs | hs
    · rcases List.mem_append.mp hs' with hs' | hs'
      · exact h.apart s hs s' hs'
      · have hle := (h₁.stub s hs).le_stub
        have hb := hbelow s hs
        have hn := hnew s' hs'
        have h₂ := hn.lo
        have h₃ := hn.hi
        have h₄ := hn.mid_le
        omega
    · have hn := hnew s hs
      have h₂ := hn.lo
      have h₃ := hn.hi
      rcases List.mem_append.mp hs' with hs' | hs'
      · have hb := hbelow s' hs'
        omega
      · have h₄ := (hnew s' hs').mid_le
        omega

/-- Patching with the patch data of a stub. -/
theorem PatchInv.patched (h : PatchInv host c stubs) {s : Word × RtldPatchData} (hs : s ∈ stubs)
    (func : Word) :
    Patched host s.2 func c ((rtldPatch host (s.1 + 16) func).run c).2 ∧
      PatchInv host ((rtldPatch host (s.1 + 16) func).run c).2 stubs := by
  have hok := h.stub s hs
  have hpatched : Patched host s.2 func c ((rtldPatch host (s.1 + 16) func).run c).2 :=
    rtldPatch_patched (hok.patchData_ne h.linker.brk_le) hok.stubAt.patchData hok.relSize_eq
      h.linker.ok h.linker.endp_le hok.window_le
  refine ⟨hpatched, h.linker.grown hpatched.grown, fun s' hs' => ?_, h.apart⟩
  have hok' := h.stub s' hs'
  have hbrk := h.linker.brk_le
  have hle := hok'.stubAt.le_brk
  have hwindow := hok.window_le
  have hdisj := h.apart s hs s' hs'
  have hfield := fieldSize_eq s.2.relType
  unfold RangeDisjoint at hdisj
  refine ⟨hok'.relSize_eq, ?_, hok'.le_stub, ?_⟩
  · rw [hpatched.grown.start_eq]
    exact hok'.start_le
  · refine ⟨?_, ?_, hle.trans hpatched.grown.brk_le⟩
    · rw [hpatched.grown.plt_eq, ← hok'.stubAt.bytes]
      apply readBytes_congr _ (by decide)
      intro x hx
      rw [inRange_iff (by omega)] at hx
      refine hpatched.frame x ?_ (by omega)
      rw [inRange_iff (by omega)]
      omega
    · rw [hpatched.grown.plt_eq]
      exact hok'.stubAt.code

/-! ## All runs -/

/-- The lookup of `resolve_func`. -/
theorem PatchInv.resolveOrTranslate (h : PatchInv host c stubs) {addr func : Word} {reply : Reply}
    (hobj : reply.Ok) (hrun : (resolveOrTranslate host addr reply).run c = (.ok func, c')) :
    PatchInv host c' (stubs ++ resolveStubs host c addr reply) := by
  rcases resolveOrTranslate_cases hrun with ⟨hres, rfl⟩ | ⟨e, bytes, obj, c₁, hres, rfl, hget,
    hadd, -⟩
  · simpa only [resolveStubs, hres, List.append_nil] using h
  · simp only [resolveStubs, hres]
    exact h.loadObject (hobj bytes rfl) hget hadd

theorem PatchInv.resolveFunc (h : PatchInv host c stubs) {addr patchData func : Word} {trace : Bool}
    {reply : Reply} (hobj : reply.Ok) (hpd : patchData = 0#64 ∨ ∃ s ∈ stubs, patchData = s.1 + 16)
    (hrun : (resolveFunc host addr patchData trace reply).run c = (.ok func, c')) :
    PatchInv host c' (stubs ++ resolveStubs host c (resolveAddr c.mem addr patchData) reply) := by
  obtain ⟨c₁, hres, hrest⟩ := resolveFunc_cases hrun
  have h₁ := h.resolveOrTranslate hobj hres
  rcases hrest with ⟨-, rfl⟩ | ⟨-, c₂, hpatch, rfl⟩
  · exact h₁
  · have h₂ : PatchInv host c₂
        (stubs ++ resolveStubs host c (resolveAddr c.mem addr patchData) reply) := by
      rcases hpd with rfl | ⟨s, hs, rfl⟩
      · rw [rtldPatch_null] at hpatch
        obtain rfl := (Prod.mk.inj hpatch).2
        exact h₁
      · have hpatched := (h₁.patched (List.mem_append_left _ hs) func).2
        rw [hpatch] at hpatched
        exact hpatched
    exact h₂.frame (h₂.linker.setTlb _) rfl rfl (Nat.le_refl _) fun _ _ _ => rfl

theorem PatchInv.clientStep {r r' : PatchRun} (h : PatchInv host r.client r.stubs) {e : ClientEvent}
    (he : PatchEventOk r e) (hstep : patchStep host r e = some r') :
    PatchInv host r'.client r'.stubs := by
  obtain ⟨c', hclient, rfl⟩ := Option.map_eq_some_iff.mp hstep
  cases e with
  | load reply =>
      obtain ⟨bytes, obj, c₁, rfl, hget, hrecv, ⟨rfl, rfl⟩ | ⟨hne, hadd⟩⟩ :=
        h.linker.load he.object hclient
      · rw [newStubs, if_pos rfl, List.append_nil]
        exact h.received hrecv
      · rw [newStubs, if_neg hne]
        exact h.loadObject (he.object bytes rfl) hget hadd
  | dispatch d trace reply =>
      rw [newStubs]
      rcases clientStep_dispatch hclient with ⟨f, hlook, rfl⟩ | ⟨func, hlook, hrun⟩
      · rw [hlook, List.append_nil]
        exact h
      · rw [hlook]
        refine h.resolveFunc he.object ?_ hrun
        cases d with
        | resolve addr p => exact he.patchData addr p trace reply rfl
        | _ => exact Or.inl rfl

theorem PatchReach.inv {r : PatchRun} (h : PatchReach host r) :
    PatchInv host r.client r.stubs := by
  induction h with
  | init hmap hrecv hrun =>
      exact ⟨(initialised_of_rtldInit hmap hrecv hrun).1.linker, nofun, nofun⟩
  | step _ he hstep ih => exact ih.clientStep he hstep

/-! ## A call over 128 MiB -/

def armEhdrBytes (n : ℕ) : List Byte :=
  (ehdrBytes n).take 18 ++ leBytes 2 183 ++ (ehdrBytes n).drop 20

/-- An AArch64 object whose only instruction calls the guest address 0x2000. -/
def callObject : List Byte :=
  armEhdrBytes 5 ++
    Shdr.bytes ⟨0, 0, 0, 0, 0, 0, 0, 0, 0⟩ ++
    Shdr.bytes ⟨SHT_PROGBITS, 6, 0, 384, 4, 0, 0, 16, 0⟩ ++
    Shdr.bytes ⟨SHT_RELA, 0, 0, 392, 24, 3, 1, 8, 24⟩ ++
    Shdr.bytes ⟨SHT_SYMTAB, 0, 0, 416, 72, 4, 0, 8, 24⟩ ++
    Shdr.bytes ⟨SHT_STRTAB, 0, 0, 488, 11, 0, 0, 1, 0⟩ ++
    leBytes 8 0x94000000 ++
    Rela.bytes ⟨0, 0x20000011b, 0⟩ ++
    Sym.bytes ⟨0, 0, 0, 0, 0⟩ ++ Sym.bytes ⟨1, 0x12, 0, 1, 0⟩ ++ Sym.bytes ⟨4, 0x10, 0, 0, 0⟩ ++
    [0] ++ literal "S0" ++ [0] ++ literal "Z20000" ++ [0]

/-- An AArch64 object whose function follows 128 MiB that are not in the file. -/
def farObject : List Byte :=
  armEhdrBytes 5 ++
    Shdr.bytes ⟨0, 0, 0, 0, 0, 0, 0, 0, 0⟩ ++
    Shdr.bytes ⟨SHT_NOBITS, 2, 0, 384, 0x8000000, 0, 0, 16, 0⟩ ++
    Shdr.bytes ⟨SHT_PROGBITS, 6, 0, 384, 4, 0, 0, 16, 0⟩ ++
    Shdr.bytes ⟨SHT_SYMTAB, 0, 0, 392, 48, 4, 0, 8, 24⟩ ++
    Shdr.bytes ⟨SHT_STRTAB, 0, 0, 440, 4, 0, 0, 1, 0⟩ ++
    leBytes 8 0xd65f03c0 ++
    Sym.bytes ⟨0, 0, 0, 0, 0⟩ ++ Sym.bytes ⟨1, 0x12, 0, 2, 0⟩ ++
    [0] ++ literal "S0" ++ [0]

theorem objectOk_callObject : ObjectOk callObject := by decide +kernel

theorem objectOk_farObject : ObjectOk farObject := by decide +kernel

theorem reply_ok_of_object {bytes : List Byte} (h : ObjectOk bytes) : Reply.Ok (.ok bytes) := by
  intro bytes' hbytes
  obtain rfl := Except.ok.inj hbytes
  exact Or.inr h

def callEvent : ClientEvent := .dispatch (.aapcsx 0x1000) false (.ok callObject)

def callLoaded : State := ((clientEvent armHost callEvent).run armReady).2

/-- The stub of the call. -/
def callStub : Word × RtldPatchData :=
  (0x4000010001c0, ⟨0x2000, R_AARCH64_CALL26, 8, 0, 0x400001000180⟩)

def callRun : PatchRun := ⟨callLoaded, [callStub]⟩

def farLoaded : State :=
  ((resolveOrTranslate armHost callStub.2.symAddr (.ok farObject)).run callRun.client).2

def farPatched : State :=
  ((rtldPatch armHost (callStub.1 + 16) 0x400009000200).run farLoaded).2

theorem patchReach_callRun : PatchReach armHost callRun := by
  have hready : PatchReach armHost ⟨armReady, []⟩ := .init armMappings rfl armReady_run
  refine hready.step (e := callEvent) ⟨reply_ok_of_object objectOk_callObject, nofun⟩ ?_
  have hcall : ((clientEvent armHost callEvent).run armReady).1 = .ok () ∧
      newStubs armHost armReady callEvent = [callStub] := by
    decide +kernel
  have hclient : clientStep armHost armReady callEvent = some callLoaded := by
    rw [callLoaded]
    exact clientStep_eq_some.mpr (Prog.run_eq_of_fst hcall.1)
  rw [patchStep, hclient, hcall.2]
  rfl

theorem farLoaded_checked :
    ((resolveOrTranslate armHost callStub.2.symAddr (.ok farObject)).run callRun.client).1 =
        .ok 0x400009000200 ∧
      ((rtldRelocData armHost callStub.2 0x400009000200).run farLoaded).1 = .error (-EINVAL) ∧
      farLoaded.arenaCode.start = 0x400001000000 ∧ farLoaded.arenaCode.brk = 0x400009000204 ∧
      farLoaded.arenaCode.brkp = 0x400009001000 ∧
      farPatched.mem (0x400009000240 : Word) ≠ farLoaded.mem (0x400009000240 : Word) := by
  decide +kernel

theorem farLoaded_run : (resolveOrTranslate armHost callStub.2.symAddr (.ok farObject)).run
    callRun.client = (.ok 0x400009000200, farLoaded) := by
  rw [farLoaded]
  exact Prog.run_eq_of_fst farLoaded_checked.1

theorem farPatched_run : (rtldPatch armHost (callStub.1 + 16) 0x400009000200).run farLoaded =
    (.ok (), farPatched) := by
  rw [farPatched]
  exact Prog.run_eq_of_fst (rtldPatch_fst _ _ _ _)

/-! ## What a patch changes -/

/-- Whenever `rtld_patch` runs with the patch data of a stub, after the lookup of
`resolve_func`: the patch data is that the stub was created for, the window lies
between the start of the code arena and `brkp`, and every byte outside the field
and outside the block of a new veneer is unchanged.  If the relocation fails, so is
the field.  On x86-64 nothing is allocated. -/
theorem patch_changes_field {host : Host} {r : PatchRun} (hr : PatchReach host r)
    {s : Word × RtldPatchData} (hs : s ∈ r.stubs) {reply : Reply} (hobj : reply.Ok)
    {func : Word} {c : State}
    (hres : (resolveOrTranslate host s.2.symAddr reply).run r.client = (.ok func, c)) :
    readPatchData c.mem (s.1 + 16) = s.2 ∧
      c.arenaCode.start.toNat ≤ s.2.patchAddr.toNat ∧
      s.2.patchAddr.toNat + s.2.relSize.toNat ≤ c.arenaCode.brkp.toNat ∧
      ∃ c', (rtldPatch host (s.1 + 16) func).run c = (.ok (), c') ∧
        (∀ x, ¬InRange s.2.patchAddr (fieldSize s.2.relType) x →
          ¬(c.arenaCode.brk.toNat ≤ x.toNat ∧ x.toNat < c'.arenaCode.brk.toNat) →
          c'.mem x = c.mem x) ∧
        (RelocFails host s.2 func c → ∀ x : Word,
          ¬(c.arenaCode.brk.toNat ≤ x.toNat ∧ x.toNat < c'.arenaCode.brk.toNat) →
          c'.mem x = c.mem x) ∧
        (host.arch = .x86_64 → c'.arenaCode = c.arenaCode) := by
  have h := hr.inv.resolveOrTranslate hobj hres
  have hs' := List.mem_append_left (resolveStubs host r.client s.2.symAddr reply) hs
  have hok := h.stub s hs'
  obtain ⟨hpatched, -⟩ := h.patched hs' func
  have hwindow := hok.window_le
  have hbrkp := h.linker.ok.brk_le
  have hsize : s.2.relSize.toNat = 8 := by
    rw [hok.relSize_eq]
    rfl
  refine ⟨hok.stubAt.patchData, hok.start_le, by omega,
    ((rtldPatch host (s.1 + 16) func).run c).2, ?_, ?_, ?_, ?_⟩
  · exact Prog.run_eq_of_fst (rtldPatch_fst host _ func c)
  · exact fun x hfield hfresh => hpatched.frame x hfield (by omega)
  · exact fun hfails x hfresh => hpatched.failed hfails x (by omega)
  · intro harch
    rw [hpatched.x86 harch]

theorem patch_changes_field_far :
    RelocFails armHost callStub.2 0x400009000200 farLoaded ∧
      farPatched.mem 0x400001000180 = farLoaded.mem 0x400001000180 := by
  obtain ⟨-, herror, -, hbrk, -⟩ := farLoaded_checked
  have hfails : RelocFails armHost callStub.2 0x400009000200 farLoaded := ⟨-EINVAL, herror⟩
  obtain ⟨-, -, -, c', hrun, -, hfailed, -⟩ := patch_changes_field patchReach_callRun
    (List.mem_singleton_self callStub) (reply_ok_of_object objectOk_farObject) farLoaded_run
  obtain rfl : farPatched = c' := (Prod.mk.inj (farPatched_run.symm.trans hrun)).2
  refine ⟨hfails, hfailed hfails _ fun hfresh => ?_⟩
  rw [hbrk] at hfresh
  exact absurd hfresh.1 (by decide)

/-- On AArch64 a patch that fails may still write a veneer for the function that is
out of range. -/
theorem not_patch_changes_field :
    ¬∀ (host : Host) (r : PatchRun) (s : Word × RtldPatchData) (reply : Reply) (func : Word)
      (c c' : State), PatchReach host r → s ∈ r.stubs → reply.Ok →
      (resolveOrTranslate host s.2.symAddr reply).run r.client = (.ok func, c) →
      (rtldPatch host (s.1 + 16) func).run c = (.ok (), c') →
      s.2.patchAddr.toNat + s.2.relSize.toNat ≤ c.arenaCode.brkp.toNat ∧
        ∀ x : Word, c.arenaCode.start.toNat ≤ x.toNat → x.toNat < c.arenaCode.brkp.toNat →
          ¬InRange s.2.patchAddr (fieldSize s.2.relType) x ∨ RelocFails host s.2 func c →
          c'.mem x = c.mem x := by
  intro h
  obtain ⟨-, herror, hstart, -, hbrkp, hveneer⟩ := farLoaded_checked
  obtain ⟨-, hsame⟩ := h armHost _ callStub _ _ _ _ patchReach_callRun
    (List.mem_singleton_self callStub) (reply_ok_of_object objectOk_farObject) farLoaded_run
    farPatched_run
  have hlo : farLoaded.arenaCode.start.toNat ≤ (0x400009000240 : Word).toNat := by
    rw [hstart]
    decide
  have hhi : (0x400009000240 : Word).toNat < farLoaded.arenaCode.brkp.toNat := by
    rw [hbrkp]
    decide
  exact hveneer (hsame 0x400009000240 hlo hhi (Or.inr ⟨-EINVAL, herror⟩))

end PollyInstrew.Client
