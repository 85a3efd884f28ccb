import PollyInstrew.Client.CallSites
import PollyInstrew.Client.PatchWindow

/-!
# Lazy linking

A relocated field that refers to a guest address without an entry is linked to
a stub of its own.  The stub hands its patch data to `resolve_func`, which
translates the guest address and redirects the field to the entry.  Over every
run of loads and dispatches, each such field denotes the registered entry of
its guest address or its own, intact stub.
-/

namespace PollyInstrew.Client

open PollyInstrew.ByteMemory PollyInstrew.StateExcept

/-! ## Patching -/

/-- The relocation of the field can express `sym`. -/
def RelocFits (pd : RtldPatchData) (sym : Word) : Prop :=
  ∃ blend, x86RelocData pd.relType (sym + pd.addend)
    (sym + pd.addend - pd.patchAddr) = .ok blend

/-- What `rtld_patch` does: it redirects the field, or leaves memory alone if
the relocation does not fit; bytes it writes back besides the field are the
ones it read. -/
theorem rtldPatch_ok {host : Host} (harch : host.arch = .x86_64) {patchData sym : Word}
    {pd : RtldPatchData} {c c' : State} (hne : patchData ≠ 0#64)
    (hpd : readPatchData c.mem patchData = pd) (hsize : pd.relSize = 8#32)
    (hrun : (rtldPatch host patchData sym).run c = (.ok (), c')) :
    c' = { c with mem := c'.mem } ∧
      (∀ x, ¬InRange pd.patchAddr (fieldSize pd.relType) x → c'.mem x = c.mem x) ∧
      ((RelocFits pd sym ∧ fieldTarget c'.mem pd.patchAddr pd = sym) ∨
        (¬RelocFits pd sym ∧ c'.mem = c.mem)) := by
  have hreloc : (rtldRelocData host pd sym).run c =
      (x86RelocData pd.relType (sym + pd.addend) (sym + pd.addend - pd.patchAddr), c) := by
    rw [rtldRelocData, harch]
    rfl
  cases hdata : x86RelocData pd.relType (sym + pd.addend)
      (sym + pd.addend - pd.patchAddr) with
  | error e =>
      rw [hdata] at hreloc
      rw [rtldPatch_of_error hne hpd hsize hreloc] at hrun
      obtain ⟨-, rfl⟩ := Prod.mk.inj hrun
      have hsame : writeBytes c.mem pd.patchAddr
          (readBytes (patchBuf host pd c.mem) 0#64 8) = c.mem := by
        funext x
        exact writeBack_of_not_inRange (by decide)
          (fun d _ hd => patchBuf_byte host pd c.mem hd) (Nat.not_lt_zero _)
      refine ⟨rfl, fun x _ => congrFun hsame x, Or.inr ⟨?_, hsame⟩⟩
      rintro ⟨blend, hok⟩
      rw [hdata] at hok
      cases hok
  | ok blend =>
      obtain ⟨mask, data⟩ := blend
      rw [hdata] at hreloc
      rw [rtldPatch_of_ok hne hpd hsize hreloc] at hrun
      obtain ⟨-, rfl⟩ := Prod.mk.inj hrun
      obtain ⟨-, htarget, hframe⟩ := @rtldBlend_spec (patchBuf host pd c.mem) 0#64 _ _ _ _ hdata
      refine ⟨rfl, fun x hx => ?_, Or.inl ⟨⟨_, hdata⟩, ?_⟩⟩
      · refine writeBack_of_not_inRange (by decide) (fun d hle hd => ?_) hx
        rw [hframe _ (not_inRange_zero hle hd), patchBuf_byte host pd c.mem hd]
      · rw [← htarget]
        apply fieldTarget_congr
        intro d hd
        have hfield := fieldSize_eq pd.relType
        have hlt : d < 8 := by omega
        dsimp only
        rw [writeBytes_add (by simpa using hlt) (by simp), getElem_readBytes]

section Patch

variable {host : Host} {c c' : State} {sites : List CallSite} (h : LinkInv host c sites)
  {s : CallSite} (hs : s ∈ sites)
  (hframe : ∀ x, ¬InRange s.pd.patchAddr s.size x → c'.mem x = c.mem x)
include h hs hframe

/-- Bytes of the code arena apart from the field are as before. -/
theorem LinkInv.mem_patched {a : Word} {n d : ℕ} (hd : d < n)
    (ha : a.toNat + n ≤ c.arenaCode.brk.toNat)
    (hdisj : RangeDisjoint s.pd.patchAddr.toNat s.size a.toNat n) :
    c'.mem (a + BitVec.ofNat 64 d) = c.mem (a + BitVec.ofNat 64 d) := by
  have hbrk := h.client.ok.brk_le
  have hbrkp := h.client.ok.brkp_le
  have hend := h.client.endp_le
  have hhi := (h.site s hs).hi
  have haddr : (a + BitVec.ofNat 64 d).toNat = a.toNat + d := by
    rw [BitVec.toNat_add, BitVec.toNat_ofNat]
    omega
  unfold RangeDisjoint at hdisj
  apply hframe
  rw [inRange_iff (by omega), haddr]
  omega

/-- Patching a field does not change where other call sites lead. -/
theorem LinkInv.target_patched {s' : CallSite} (hs' : s' ∈ sites) (hne : s ≠ s') :
    s'.target c'.mem = s'.target c.mem := by
  apply fieldTarget_congr
  intro d hd
  exact h.mem_patched hs hframe (n := s'.size) hd (h.site s' hs').hi
    (h.apart.fields.forall hs hs' hne)

variable (hstate : c' = { c with mem := c'.mem })
include hstate

theorem LinkInv.clientOk_patched : ClientOk host c' := by
  have hc := h.client
  have hlo := (h.site s hs).lo
  have hplt : readBytes c'.mem c.plt (pltBytes host).length = pltBytes host := by
    refine (readBytes_congr_add fun d hd => ?_).trans hc.plt_bytes
    exact h.mem_patched hs hframe hd hc.plt_le (by unfold RangeDisjoint; omega)
  rw [hstate]
  exact
    { recvOk := ⟨hc.recvOk.ok, hc.recvOk.endp_le, hc.recvOk.buf⟩
      ok := hc.ok
      endp_le := hc.endp_le
      size_le := hc.size_le
      sep := hc.sep
      plt_ge := hc.plt_ge
      plt_le := hc.plt_le
      plt_bytes := hplt
      probed := hc.probed }

theorem LinkInv.stubAt_patched {s' : CallSite} (hs' : s' ∈ sites) {t : Word}
    (ht : s'.stub = some t) : StubAt host c' t s'.pd := by
  have hstub := (h.site s' hs').stubAt t ht
  have hbytes : readBytes c'.mem t stubSize = stubBytes host c.plt t s'.pd := by
    refine (readBytes_congr_add fun d hd => ?_).trans hstub.bytes
    exact h.mem_patched hs hframe hd hstub.le_brk (h.apart.stubs s hs s' hs' t ht)
  rw [hstate]
  exact ⟨hbytes, hstub.code, hstub.le_brk⟩

/-- Redirecting a field to the entry of its guest address, or leaving it. -/
theorem LinkInv.patched (htarget : rtldResolve c.objects s.pd.symAddr = .ok (s.target c'.mem) ∨
      s.target c'.mem = s.target c.mem) :
    LinkInv host c' sites := by
  have hplt : c'.plt = c.plt := by rw [hstate]
  have hcode : c'.arenaCode = c.arenaCode := by rw [hstate]
  have hobj : c'.objects = c.objects := by rw [hstate]
  refine ⟨h.clientOk_patched hs hframe hstate, ?_, h.apart⟩
  intro s' hs'
  have hold := h.site s' hs'
  refine
    { hold with
      lo := hplt ▸ hold.lo
      hi := hcode ▸ hold.hi
      stub_lo := hplt ▸ hold.stub_lo
      stubAt := fun t ht => h.stubAt_patched hs hframe hstate hs' ht
      target := ?_ }
  rw [hobj]
  by_cases heq : s = s'
  · subst heq
    rcases htarget with hres | hsame
    · exact Or.inl hres
    · rw [hsame]
      exact hold.target
  · rw [h.target_patched hs hframe hs' heq]
    exact hold.target

end Patch

/-! ## Steps -/

theorem LinkInv.loadObject {host : Host} (harch : host.arch = .x86_64) {c c₁ c' : State}
    {sites : List CallSite} (h : LinkInv host c sites) {bytes : List Byte} {skew : Word}
    {obj : Word × Word} (hobj : bytes = [] ∨ ObjectOk bytes)
    (hget : (translatorGetObject host bytes).run c = (.ok obj, c₁))
    (hadd : (rtldAddObject host obj.1 obj.2 skew).run c₁ = (.ok (), c')) :
    LinkInv host c' (sites ++ loadSites host c skew bytes) ∧ AgreeUsed c c' := by
  obtain ⟨re, mid, rfl, hre, hload⟩ := h.client.loadObject hobj hget hadd
  have hrecv := hload.received
  obtain ⟨h₁, hagree₁⟩ := h.received hrecv
  obtain ⟨hloaded, hagree⟩ :=
    h₁.loaded harch hload.spec hload.ext hload.start_le hload.le_endp
  have hobjects : c₁.objects = c.objects := by rw [hrecv.state_eq]
  have hcode : c₁.arenaCode = c.arenaCode := by rw [hrecv.state_eq]
  have hplt : c₁.plt = c.plt := by rw [hrecv.state_eq]
  constructor
  · unfold loadSites
    simp only [hget]
    rw [hre]
    simp only [hadd]
    rwa [hobjects] at hloaded
  · intro x hx hx'
    rw [hagree x (hplt.symm ▸ hx) (hcode.symm ▸ hx'), hagree₁ x hx hx']

section Step

variable {host : Host} (harch : host.arch = .x86_64) {c c' : State}
  {sites : List CallSite} (h : LinkInv host c sites)
include h

/-- The quick TLB plays no role. -/
theorem LinkInv.setTlb (tlb : QuickTlb) : LinkInv host { c with quickTlb := tlb } sites := by
  have hc := h.client
  have hclient : ClientOk host { c with quickTlb := tlb } :=
    { hc.setTlb tlb with
      size_le := hc.size_le
      plt_ge := hc.plt_ge
      plt_le := hc.plt_le
      plt_bytes := hc.plt_bytes }
  refine h.frame hc ?_ ?_ ?_ hclient fun _ _ => id
  · rfl
  · exact Nat.le_refl _
  · exact fun _ _ _ => rfl

/-- Patch data of a stub. -/
theorem LinkInv.patchData {s : CallSite} (hs : s ∈ sites) {t : Word}
    (ht : s.stub = some t) : t + 16 ≠ 0#64 ∧ readPatchData c.mem (t + 16) = s.pd := by
  have hstub := (h.site s hs).stubAt t ht
  have hle := hstub.le_brk
  have hbrk := h.client.ok.brk_le
  have hbrkp := h.client.ok.brkp_le
  have hend := h.client.endp_le
  refine ⟨?_, hstub.patchData⟩
  intro hzero
  have hnat := congrArg BitVec.toNat hzero
  simp only [BitVec.toNat_add, BitVec.ofNat_eq_ofNat, BitVec.toNat_ofNat] at hnat
  omega

include harch

/-- Patching through a stub. -/
theorem LinkInv.rtldPatch_stub {s : CallSite} (hs : s ∈ sites) {t : Word}
    (ht : s.stub = some t) {sym : Word}
    (hrun : (rtldPatch host (t + 16) sym).run c = (.ok (), c')) :
    c' = { c with mem := c'.mem } ∧
      (∀ x, ¬InRange s.pd.patchAddr s.size x → c'.mem x = c.mem x) ∧
      ((RelocFits s.pd sym ∧ s.target c'.mem = sym) ∨
        (¬RelocFits s.pd sym ∧ c'.mem = c.mem)) := by
  obtain ⟨hne, hpd⟩ := h.patchData hs ht
  exact rtldPatch_ok harch hne hpd (h.site s hs).relSize_eq hrun

/-- The sites `resolve_func` adds when it has to translate. -/
theorem LinkInv.of_resolveOrTranslate {addr func : Word} {reply : Reply}
    (hobj : ∀ bytes, reply = .ok bytes → bytes = [] ∨ ObjectOk bytes)
    (hrun : (resolveOrTranslate host addr reply).run c = (.ok func, c')) :
    LinkInv host c' (sites ++ resolveSites host c addr reply) ∧ AgreeUsed c c' := by
  unfold resolveSites
  rcases resolveOrTranslate_cases hrun with ⟨hres, rfl⟩ | ⟨e, bytes, obj, c₁, herr, rfl, hget,
    hadd, -⟩
  · rw [hres, List.append_nil]
    exact ⟨h, fun _ _ _ => rfl⟩
  · rw [herr]
    exact h.loadObject harch (hobj bytes rfl) hget hadd

theorem LinkInv.of_resolveFunc {addr patchData func : Word} {trace : Bool} {reply : Reply}
    (hobj : ∀ bytes, reply = .ok bytes → bytes = [] ∨ ObjectOk bytes)
    (hpd : patchData = 0#64 ∨ ∃ s ∈ sites, ∃ t, s.stub = some t ∧ patchData = t + 16)
    (hrun : (resolveFunc host addr patchData trace reply).run c = (.ok func, c')) :
    LinkInv host c'
      (sites ++ resolveSites host c (resolveAddr c.mem addr patchData) reply) := by
  obtain ⟨c₁, hres, hrest⟩ := resolveFunc_cases hrun
  obtain ⟨h₁, -⟩ := h.of_resolveOrTranslate harch hobj hres
  rcases hrest with ⟨-, rfl⟩ | ⟨-, c₂, hpatch, rfl⟩
  · exact h₁
  refine LinkInv.setTlb ?_ _
  rcases hpd with rfl | ⟨s, hs, t, ht, rfl⟩
  · rw [rtldPatch_null] at hpatch
    obtain ⟨-, rfl⟩ := Prod.mk.inj hpatch
    exact h₁
  · have hs₁ := List.mem_append_left
      (resolveSites host c (resolveAddr c.mem addr (t + 16)) reply) hs
    obtain ⟨hstate, hframe, heffect⟩ := h₁.rtldPatch_stub harch hs₁ ht hpatch
    refine h₁.patched hs₁ hframe hstate ?_
    rcases heffect with ⟨-, htarget⟩ | ⟨-, hmem⟩
    · obtain ⟨hne, hpd⟩ := h.patchData hs ht
      have hfunc := (resolveOrTranslate_ok hres).2
      rw [resolveAddr, if_pos hne, hpd] at hfunc
      rw [htarget]
      exact Or.inl hfunc
    · rw [hmem]
      exact Or.inr rfl

end Step

theorem LinkInv.of_clientStep {host : Host} (harch : host.arch = .x86_64) {r : LinkRun}
    {e : ClientEvent} {c' : State} (h : LinkInv host r.client r.sites) (he : EventOk r e)
    (hstep : clientStep host r.client e = some c') :
    LinkInv host c' (r.sites ++ newSites host r.client e) := by
  cases e with
  | load reply =>
      obtain ⟨bytes, obj, c₁, rfl, hget, hrecv, ⟨rfl, rfl⟩ | ⟨hne, hadd⟩⟩ :=
        h.client.load he.object hstep
      · rw [newSites, if_pos rfl, List.append_nil]
        exact (h.received hrecv).1
      · rw [newSites, if_neg hne]
        exact (h.loadObject harch (he.object bytes rfl) hget hadd).1
  | dispatch d trace reply =>
      rw [newSites]
      rcases clientStep_dispatch hstep with ⟨f, hlook, rfl⟩ | ⟨func, hlook, hrun⟩
      · rw [hlook, List.append_nil]
        exact h
      · rw [hlook]
        refine h.of_resolveFunc harch he.object ?_ hrun
        cases d with
        | resolve addr p => exact he.patchData addr p trace reply rfl
        | _ => exact Or.inl rfl

/-! ## Runs -/

theorem clientOk_of_rtldInit {host : Host} {c₀ c : State} {data code : Word}
    (hmap : MappingsOk host data code) (hrecv : c₀.recvbufSz = 0#64)
    (hrun : (rtldInit host).run (memInit data code c₀) = (.ok (), c)) : ClientOk host c := by
  have h := (initialised_of_rtldInit hmap hrecv hrun).1
  exact
    { h.linker with
      size_le := by rw [h.endp_eq, h.start_eq]
      plt_ge := by rw [h.start_eq]; exact h.plt_ge
      plt_le := h.plt_le
      plt_bytes := h.plt_bytes }

theorem LinkReach.linkInv {host : Host} (harch : host.arch = .x86_64) {r : LinkRun}
    (hr : LinkReach host r) : LinkInv host r.client r.sites := by
  induction hr with
  | init hmap hrecv hrun =>
      refine ⟨clientOk_of_rtldInit hmap hrecv hrun, ?_, List.Pairwise.nil, ?_⟩
      · intro s hs
        exact absurd hs (List.not_mem_nil)
      · intro s hs
        exact absurd hs (List.not_mem_nil)
  | step hr he hstep ih =>
      obtain ⟨c', hc', rfl⟩ := Option.map_eq_some_iff.mp hstep
      exact ih.of_clientStep harch he hc'

/-! ## Call sites in every reachable state -/

/-- The arguments with which a dispatch function enters `resolve_func` straight
away; `none` for those that look the guest address up first and then pass null
patch data.  Registers are numbered as in the encodings of the architecture. -/
def DispatchFunc.resolveCall (f : DispatchFunc) (regs : ℕ → Word) : Option (Word × Word) :=
  match f with
  | .dispatchHhvmFullresolve => some (regs 3, regs 14)
  | .dispatchAapcsxFullresolve => some (regs 0, regs 16)
  | .dispatchCdecl => none
  | .dispatchHhvmTail => none
  | .dispatchAapcsx => none

/-- Executing the stub at `t` enters the full dispatch function with the address
of the stub's patch data in the patch-data register. -/
def StubEnters (host : Host) (m : Mem) (t : Word) : Prop :=
  ∀ regs, ∃ regs', x86Run m 3 ⟨t, regs⟩ =
      some ⟨host.dispatchAddr host.dispInfo.fullDispatchFunc, regs'⟩ ∧
    regs' = Function.update regs host.dispInfo.patchDataReg (t + 16)

/-- Executing the stub at `t` enters `resolve_func` with the stub's patch data. -/
def StubResolves (host : Host) (m : Mem) (t : Word) : Prop :=
  ∀ regs, ∃ regs' addr, x86Run m 3 ⟨t, regs⟩ =
      some ⟨host.dispatchAddr host.dispInfo.fullDispatchFunc, regs'⟩ ∧
    host.dispInfo.fullDispatchFunc.resolveCall regs' = some (addr, t + 16)

/-- A stub of the code arena that carries the patch data `pd`. -/
structure IsStub (c : State) (t : Word) (pd : RtldPatchData) : Prop where
  start_le : c.arenaCode.start.toNat ≤ t.toNat
  le_brk : t.toNat + stubSize ≤ c.arenaCode.brk.toNat
  patchData : readPatchData c.mem (t + 16) = pd

theorem dispatchGet_x86 {callconv : ℕ} {info : DispatcherInfo}
    (h : dispatchGet .x86_64 callconv = some info) :
    (callconv = 0 ∧ info = ⟨.dispatchCdecl, .dispatchCdecl, 6⟩) ∨
      (callconv = 1 ∧ info = ⟨.dispatchHhvmTail, .dispatchHhvmFullresolve, 14⟩) := by
  match callconv, h with
  | 0, h => exact Or.inl ⟨rfl, (Option.some.inj h).symm⟩
  | 1, h => exact Or.inr ⟨rfl, (Option.some.inj h).symm⟩
  | n + 2, h => exact absurd h (by simp [dispatchGet])

/-- Displacements within the code arena fit in 32 bits. -/
theorem checkSignedBits_of_near {plt stub : Word} (hle : plt.toNat ≤ stub.toNat + 2 ^ 30)
    (hge : stub.toNat ≤ plt.toNat + 2 ^ 30) :
    checkSignedBits (plt + 8 - stub - 12) 32 := by
  have hp := plt.isLt
  have hs := stub.isLt
  have hnat : (plt + 8 - stub - 12).toNat =
      (plt.toNat + 2 ^ 64 + 2 ^ 64 - stub.toNat - 4) % 2 ^ 64 := by
    simp only [BitVec.toNat_sub, BitVec.toNat_add, BitVec.ofNat_eq_ofNat, BitVec.toNat_ofNat]
    omega
  simp only [checkSignedBits, decide_eq_true_eq]
  rw [BitVec.toInt_eq_toNat_cond, hnat]
  split <;> omega

theorem LinkInv.stubEnters {host : Host} (harch : host.arch = .x86_64) {c : State}
    {sites : List CallSite} (h : LinkInv host c sites)
    (hpdr : host.dispInfo.patchDataReg < 16) {s : CallSite} (hs : s ∈ sites) {t : Word}
    (ht : s.stub = some t) : IsStub c t s.pd ∧ StubEnters host c.mem t := by
  have hstub := (h.site s hs).stubAt t ht
  have hlo := (h.site s hs).stub_lo t ht
  have hle := hstub.le_brk
  have hplt := h.client.plt_ge
  have hpltLe := h.client.plt_le
  have hbrk := h.client.ok.brk_le
  have hbrkp := h.client.ok.brkp_le
  have hsize := h.client.size_le
  have hstubSize : stubSize = 48 := rfl
  refine ⟨⟨by omega, hle, (h.patchData hs ht).2⟩, ?_⟩
  intro regs
  have hcheck : checkSignedBits (c.plt + 8 - t - 12) 32 :=
    checkSignedBits_of_near (by omega) (by omega)
  have hnear := signExtend_setWidth_of_check hcheck
  have hbytes := hstub.bytes
  rw [stubBytes_x86 harch] at hbytes
  exact ⟨_, x86Run_stub harch hpdr hnear hbytes h.client.plt_bytes regs, rfl⟩

/-- `resolve_func` entered with the patch data of a stub redirects the field of
that stub, unless the relocation cannot express the entry. -/
theorem LinkInv.resolveFunc_stub {host : Host} (harch : host.arch = .x86_64) {c c' : State}
    {sites : List CallSite} (h : LinkInv host c sites) {s : CallSite} (hs : s ∈ sites)
    {t : Word} (ht : s.stub = some t) {addr func : Word} {reply : Reply}
    (hobj : ∀ bytes, reply = .ok bytes → bytes = [] ∨ ObjectOk bytes)
    (hrun : (resolveFunc host addr (t + 16) false reply).run c = (.ok func, c')) :
    rtldResolve c'.objects s.pd.symAddr = .ok func ∧
      (s.target c'.mem = func ∨
        (¬RelocFits s.pd func ∧ ∀ d < s.size, c'.mem (s.pd.patchAddr + BitVec.ofNat 64 d) =
          c.mem (s.pd.patchAddr + BitVec.ofNat 64 d))) := by
  obtain ⟨hne, hpd⟩ := h.patchData hs ht
  obtain ⟨c₁, hres, ⟨htrace, -⟩ | ⟨-, c₂, hpatch, rfl⟩⟩ := resolveFunc_cases hrun
  · exact absurd htrace (by decide)
  have hfunc := (resolveOrTranslate_ok hres).2
  rw [resolveAddr, if_pos hne, hpd] at hfunc
  obtain ⟨h₁, hagree⟩ := h.of_resolveOrTranslate harch hobj hres
  have hs₁ := List.mem_append_left
    (resolveSites host c (resolveAddr c.mem addr (t + 16)) reply) hs
  obtain ⟨hstate, -, heffect⟩ := h₁.rtldPatch_stub harch hs₁ ht hpatch
  have hobjects : c₂.objects = c₁.objects := by rw [hstate]
  refine ⟨by dsimp only; rw [hobjects]; exact hfunc, ?_⟩
  rcases heffect with ⟨-, htarget⟩ | ⟨hfits, hmem⟩
  · exact Or.inl htarget
  · refine Or.inr ⟨hfits, fun d hd => ?_⟩
    dsimp only
    rw [hmem]
    exact (h.site s hs).field_eq h.client hagree hd

/-- The run that starts the client and dispatches to `0x1000`, whose translation
jumps to `0x2000`. -/
def jmpRun (info : DispatcherInfo) : Option LinkRun :=
  match (rtldInit (quietHost info)).run
      (memInit 0x400000000000 0x400001000000 startState) with
  | (.ok _, c) =>
      linkStep (quietHost info) ⟨c, []⟩ (.dispatch (.hhvm 0x1000) false (.ok jmpObject))
  | (.error _, _) => none

/-- Section 2 holds the only relocation. -/
theorem linkReach_jmpRun {info : DispatcherInfo} {r : LinkRun} (h : jmpRun info = some r) :
    LinkReach (quietHost info) r := by
  unfold jmpRun at h
  split at h
  · next c hinit =>
    refine .step (.init ?_ rfl hinit) ?_ h
    · exact ⟨by change _ % 2 ^ 12 = 0; decide, by change _ % 2 ^ 12 = 0; decide, by decide,
        by decide, by decide⟩
    · refine ⟨?_, ?_⟩
      · intro bytes hbytes
        obtain rfl := Except.ok.inj hbytes
        exact Or.inr objectOk_jmpObject
      · intro addr p trace reply heq
        cases heq
  · cases h

/-- Lazy linking keeps every call site correct.  In every state of a run on
x86-64, the field of each reference to a guest address denotes the registered
entry of that address or a stub with the field's own patch data, whose execution
enters the full dispatch function with this patch data; with the HHVM convention
that is a call of `resolve_func` with it.  Such a call without tracing makes the
field denote the entry, or leaves it alone if the relocation does not fit.  And
`rtld_patch` never changes where another call site leads. -/
theorem linkReach_callSites {host : Host} (harch : host.arch = .x86_64) {callconv : ℕ}
    (hdisp : dispatchGet .x86_64 callconv = some host.dispInfo) {r : LinkRun}
    (hr : LinkReach host r) :
    (∀ s ∈ r.sites,
      rtldResolve r.client.objects s.pd.symAddr = .ok (s.target r.client.mem) ∨
        ∃ t, s.stub = some t ∧ s.target r.client.mem = t ∧ IsStub r.client t s.pd ∧
          StubEnters host r.client.mem t ∧
          (callconv = 1 → StubResolves host r.client.mem t)) ∧
      (∀ s ∈ r.sites, ∀ t, s.stub = some t → ∀ addr reply func c',
        (∀ bytes, reply = .ok bytes → bytes = [] ∨ ObjectOk bytes) →
        (resolveFunc host addr (t + 16) false reply).run r.client = (.ok func, c') →
        rtldResolve c'.objects s.pd.symAddr = .ok func ∧
          (s.target c'.mem = func ∨
            (¬RelocFits s.pd func ∧
              ∀ d < s.size, c'.mem (s.pd.patchAddr + BitVec.ofNat 64 d) =
                r.client.mem (s.pd.patchAddr + BitVec.ofNat 64 d)))) ∧
      ∀ p sym c', (p = 0#64 ∨ ∃ s ∈ r.sites, ∃ t, s.stub = some t ∧ p = t + 16) →
        (rtldPatch host p sym).run r.client = (.ok (), c') →
        ∀ s ∈ r.sites, (∀ t, s.stub = some t → p ≠ t + 16) →
          s.target c'.mem = s.target r.client.mem := by
  have h := hr.linkInv harch
  have hcases := dispatchGet_x86 hdisp
  have hpdr : host.dispInfo.patchDataReg < 16 := by
    rcases hcases with ⟨-, hinfo⟩ | ⟨-, hinfo⟩
    · rw [hinfo]
      decide
    · rw [hinfo]
      decide
  refine ⟨?_, ?_, ?_⟩
  · intro s hs
    refine (h.site s hs).target.imp id fun hstub => ?_
    obtain ⟨his, henters⟩ := h.stubEnters harch hpdr hs hstub
    refine ⟨_, hstub, rfl, his, henters, ?_⟩
    intro hconv regs
    obtain ⟨regs', hrun, hregs⟩ := henters regs
    have hinfo := (hcases.resolve_left (by omega)).2
    refine ⟨regs', regs' 3, hrun, ?_⟩
    rw [hregs, hinfo]
    simp [DispatchFunc.resolveCall]
  · intro s hs t ht addr reply func c' hobj hrun
    exact h.resolveFunc_stub harch hs ht hobj hrun
  · rintro p sym c' (rfl | ⟨s', hs', t', ht', rfl⟩) hrun s hs hother
    · rw [rtldPatch_null] at hrun
      obtain ⟨-, rfl⟩ := Prod.mk.inj hrun
      rfl
    · obtain ⟨-, hframe, -⟩ := h.rtldPatch_stub harch hs' ht' hrun
      refine h.target_patched hs' hframe hs ?_
      rintro rfl
      exact hother t' ht' rfl

/-- The jump of the translation of `0x1000`, which leads to a stub for `0x2000`. -/
def jmpSite : CallSite :=
  ⟨⟨0x2000, 4, 8, -4, 0x400001000201⟩, some 0x400001000240⟩

theorem linkReach_callSites_jmp :
    ∃ r, LinkReach (quietHost hhvmInfo) r ∧ jmpSite ∈ r.sites ∧
      (rtldResolve r.client.objects 0x2000 = .ok (jmpSite.target r.client.mem) ∨
        ∃ t, jmpSite.stub = some t ∧ jmpSite.target r.client.mem = t ∧
          IsStub r.client t jmpSite.pd ∧ StubEnters (quietHost hhvmInfo) r.client.mem t ∧
          (1 = 1 → StubResolves (quietHost hhvmInfo) r.client.mem t)) := by
  have hsites : (jmpRun hhvmInfo).map LinkRun.sites = some [jmpSite] := by decide +kernel
  obtain ⟨r, hrun, hsites⟩ := Option.map_eq_some_iff.mp hsites
  have hr := linkReach_jmpRun hrun
  have hmem : jmpSite ∈ r.sites := by
    rw [hsites]
    exact List.mem_singleton_self _
  have hdisp : dispatchGet .x86_64 1 = some (quietHost hhvmInfo).dispInfo := rfl
  exact ⟨r, hr, hmem, (linkReach_callSites rfl hdisp hr).1 _ hmem⟩

/-- With the C convention the stub does not hand its patch data to
`resolve_func`: `dispatch_cdecl` only looks at the guest program counter. -/
theorem linkReach_cdecl_not_resolves :
    ¬∀ (host : Host) (callconv : ℕ) (r : LinkRun), host.arch = .x86_64 →
      dispatchGet .x86_64 callconv = some host.dispInfo → LinkReach host r →
      ∀ s ∈ r.sites,
        rtldResolve r.client.objects s.pd.symAddr = .ok (s.target r.client.mem) ∨
          ∃ t, s.stub = some t ∧ s.target r.client.mem = t ∧ IsStub r.client t s.pd ∧
            StubResolves host r.client.mem t := by
  intro hall
  have hsites : (jmpRun ⟨.dispatchCdecl, .dispatchCdecl, 6⟩).map
      (fun r => (r.sites, rtldResolve r.client.objects 0x2000)) =
        some ([jmpSite], .error (-ENOENT)) := by
    decide +kernel
  obtain ⟨r, hrun, heq⟩ := Option.map_eq_some_iff.mp hsites
  obtain ⟨hsites, hres⟩ := Prod.mk.inj heq
  have hmem : jmpSite ∈ r.sites := by
    rw [hsites]
    exact List.mem_singleton_self _
  rcases hall _ 0 r rfl rfl (linkReach_jmpRun hrun) jmpSite hmem with
    hok | ⟨t, -, -, -, hresolves⟩
  · exact absurd (hres.symm.trans hok) (by simp)
  · obtain ⟨regs', addr, -, hcall⟩ := hresolves fun _ => 0#64
    exact absurd hcall (by simp [quietHost, DispatchFunc.resolveCall])

end PollyInstrew.Client
