import Mathlib.Data.List.Pairwise
import PollyInstrew.Client.LinkerState

/-!
# Call sites

The relocated fields of loaded objects that refer to guest addresses are the
call sites of a run of the client.  The invariant of lazy linking says that
each leads to the registered entry of its guest address or to a stub of its
own; receiving and loading objects preserve it.
-/

namespace PollyInstrew.Client

open PollyInstrew.ByteMemory PollyInstrew.StateExcept

variable {s : CallSite} {sites : List CallSite}

/-! ## Call sites of a run -/

/-- A relocated field in the code arena that refers to a guest address.  The
patch data gives its address, its relocation and the guest address; `stub` is
the stub created for it, if the guest address had no entry. -/
structure CallSite where
  pd : RtldPatchData
  stub : Option Word
  deriving DecidableEq

/-- Where the field leads. -/
def CallSite.target (s : CallSite) (m : Mem) : Word := fieldTarget m s.pd.patchAddr s.pd

def CallSite.size (s : CallSite) : ℕ := fieldSize s.pd.relType

/-- The relocations of the sections that are copied into the code arena. -/
def siteIndices (m : Mem) (re : RtldElf) : List (ℕ × ℕ) :=
  (List.range (shnum m re)).flatMap fun i =>
    if (shdr m re i).shType = SHT_RELA ∧
        (shdr m re (relaTgt m re i)).shType = SHT_PROGBITS then
      (List.range (shdr m re i).relaCount).map fun k => (i, k)
    else
      []

/-- The call site of a reference in an object that was loaded into the memory
`m` while the table was `objects`. -/
def mkSite (objects : RtldTable) (m : Mem) (pd : RtldPatchData) : CallSite where
  pd := pd
  stub :=
    match rtldResolve objects pd.symAddr with
    | .ok _ => none
    | .error _ => some (fieldTarget m pd.patchAddr pd)

/-- The references of an object to guest addresses, as call sites. -/
def objectSites (objects : RtldTable) (m : Mem) (re : RtldElf) : List CallSite :=
  (siteIndices m re).filterMap fun ik =>
    (entryRef m re ik.1 ik.2).map fun addr =>
      mkSite objects m { entryPatch m re ik.1 ik.2 with symAddr := addr }

/-- The call sites of an object that is received and loaded. -/
def loadSites (host : Host) (c : State) (skew : Word) (bytes : List Byte) : List CallSite :=
  let received := ((translatorGetObject host bytes).run c).2
  let size := BitVec.ofNat 64 bytes.length
  match rtldElfInit host received.mem received.recvbuf size skew with
  | .ok re =>
      let loaded := ((rtldAddObject host received.recvbuf size skew).run received).2
      objectSites c.objects loaded.mem re
  | .error _ => []

/-- The call sites the lookup of `resolve_func` adds. -/
def resolveSites (host : Host) (c : State) (addr : Word) (reply : Reply) : List CallSite :=
  match rtldResolve c.objects addr, reply with
  | .error _, .ok bytes => loadSites host c addr bytes
  | _, _ => []

/-- The call sites an event adds. -/
def newSites (host : Host) (c : State) : ClientEvent → List CallSite
  | .load (.ok bytes) => if bytes = [] then [] else loadSites host c 0#64 bytes
  | .load (.error _) => []
  | .dispatch d _ reply =>
      match d.lookup c.quickTlb with
      | some _ => []
      | none =>
          resolveSites host c (resolveAddr c.mem d.resolveArgs.1 d.resolveArgs.2) reply

/-- The client together with the call sites of all objects loaded so far. -/
structure LinkRun where
  client : State
  sites : List CallSite

def linkStep (host : Host) (r : LinkRun) (e : ClientEvent) : Option LinkRun :=
  (clientStep host r.client e).map fun c' => ⟨c', r.sites ++ newSites host r.client e⟩

/-- Objects are empty or well formed, and patch data is null or that of a stub. -/
structure EventOk (r : LinkRun) (e : ClientEvent) : Prop where
  object : ∀ bytes, e.reply = .ok bytes → bytes = [] ∨ ObjectOk bytes
  patchData : ∀ addr p trace reply, e = .dispatch (.resolve addr p) trace reply →
    p = 0#64 ∨ ∃ s ∈ r.sites, ∃ t, s.stub = some t ∧ p = t + 16

/-- States of the runs of the client: it starts with `mem_init` and `rtld_init`
on a zeroed `struct State`. -/
inductive LinkReach (host : Host) : LinkRun → Prop
  | init {c₀ c : State} {data code : Word} (hmap : MappingsOk host data code)
      (hrecv : c₀.recvbufSz = 0#64)
      (hrun : (rtldInit host).run (memInit data code c₀) = (.ok (), c)) :
      LinkReach host ⟨c, []⟩
  | step {r r' : LinkRun} {e : ClientEvent} (hr : LinkReach host r) (he : EventOk r e)
      (hstep : linkStep host r e = some r') : LinkReach host r'

/-! ## The invariant -/

/-- The linker is in order, and so is the PLT. -/
structure ClientOk (host : Host) (c : State) : Prop extends LinkerOk host c where
  size_le : c.arenaCode.endp.toNat ≤ c.arenaCode.start.toNat + 2 ^ 30
  plt_ge : c.arenaCode.start.toNat ≤ c.plt.toNat
  plt_le : c.plt.toNat + (pltBytes host).length ≤ c.arenaCode.brk.toNat
  plt_bytes : readBytes c.mem c.plt (pltBytes host).length = pltBytes host

/-- A call site leads to the entry of its guest address or to its stub, which
is intact. -/
structure SiteOk (host : Host) (c : State) (s : CallSite) : Prop where
  supported : x86Supported s.pd.relType
  relSize_eq : s.pd.relSize = 8#32
  lo : c.plt.toNat + (pltBytes host).length ≤ s.pd.patchAddr.toNat
  hi : s.pd.patchAddr.toNat + s.size ≤ c.arenaCode.brk.toNat
  stub_lo : ∀ t, s.stub = some t → c.plt.toNat + (pltBytes host).length ≤ t.toNat
  stubAt : ∀ t, s.stub = some t → StubAt host c t s.pd
  target : rtldResolve c.objects s.pd.symAddr = .ok (s.target c.mem) ∨
    s.stub = some (s.target c.mem)

/-- Two fields do not overlap. -/
def CallSite.Apart (s s' : CallSite) : Prop :=
  RangeDisjoint s.pd.patchAddr.toNat s.size s'.pd.patchAddr.toNat s'.size

instance : Std.Symm CallSite.Apart where
  symm s s' h := by
    unfold CallSite.Apart RangeDisjoint at *
    omega

/-- No two call sites overlap, nor do a call site and a stub. -/
structure SitesApart (sites : List CallSite) : Prop where
  fields : sites.Pairwise CallSite.Apart
  stubs : ∀ s ∈ sites, ∀ s' ∈ sites, ∀ t, s'.stub = some t →
    RangeDisjoint s.pd.patchAddr.toNat s.size t.toNat stubSize

structure LinkInv (host : Host) (c : State) (sites : List CallSite) : Prop where
  client : ClientOk host c
  site : ∀ s ∈ sites, SiteOk host c s
  apart : SitesApart sites

/-! ## Changes outside the used part of the code arena -/

/-- The used part of the code arena is as before. -/
def AgreeUsed (c c' : State) : Prop :=
  ∀ x : Word, c.plt.toNat ≤ x.toNat → x.toNat < c.arenaCode.brk.toNat → c'.mem x = c.mem x

section Frame

variable {host : Host} {c c' : State} (hclient : ClientOk host c)
  (hplt : c'.plt = c.plt) (hbrk : c.arenaCode.brk.toNat ≤ c'.arenaCode.brk.toNat)
  (hmem : AgreeUsed c c')
include hclient hmem

/-- The used part of the code arena reads the same. -/
theorem ClientOk.readBytes_eq {a : Word} {n : ℕ} (hlo : c.plt.toNat ≤ a.toNat)
    (hhi : a.toNat + n ≤ c.arenaCode.brk.toNat) :
    readBytes c'.mem a n = readBytes c.mem a n := by
  have hend := hclient.endp_le
  have hbrkLe := hclient.ok.brk_le
  have hbrkpLe := hclient.ok.brkp_le
  apply readBytes_congr _ (by omega)
  intro x hx
  rw [inRange_iff (by omega)] at hx
  exact hmem x (by omega) (by omega)

theorem SiteOk.field_eq (hs : SiteOk host c s) {d : ℕ} (hd : d < s.size) :
    c'.mem (s.pd.patchAddr + BitVec.ofNat 64 d) =
      c.mem (s.pd.patchAddr + BitVec.ofNat 64 d) := by
  have hend := hclient.endp_le
  have hbrkLe := hclient.ok.brk_le
  have hbrkpLe := hclient.ok.brkp_le
  have hlo := hs.lo
  have hhi := hs.hi
  have haddr : (s.pd.patchAddr + BitVec.ofNat 64 d).toNat = s.pd.patchAddr.toNat + d := by
    rw [BitVec.toNat_add, BitVec.toNat_ofNat]
    omega
  exact hmem _ (by omega) (by omega)

theorem SiteOk.target_eq (hs : SiteOk host c s) :
    s.target c'.mem = s.target c.mem :=
  fieldTarget_congr fun _ hd => hs.field_eq hclient hmem hd

include hplt hbrk

theorem SiteOk.frame (hs : SiteOk host c s)
    (hres : ∀ addr entry, rtldResolve c.objects addr = .ok entry →
      rtldResolve c'.objects addr = .ok entry) :
    SiteOk host c' s := by
  have htarget := hs.target_eq hclient hmem
  refine
    { hs with
      lo := hplt ▸ hs.lo
      hi := hs.hi.trans hbrk
      stub_lo := hplt ▸ hs.stub_lo
      stubAt := ?_
      target := ?_ }
  · intro t ht
    have hstub := hs.stubAt t ht
    have hlo := hs.stub_lo t ht
    exact hstub.frame hplt hbrk fun x h₁ h₂ => hmem x (by omega) h₂
  · rw [htarget]
    exact hs.target.imp (hres _ _) id

theorem LinkInv.frame (h : LinkInv host c sites) (hclient' : ClientOk host c')
    (hres : ∀ addr entry, rtldResolve c.objects addr = .ok entry →
      rtldResolve c'.objects addr = .ok entry) :
    LinkInv host c' sites where
  client := hclient'
  site := fun s hs => (h.site s hs).frame hclient hplt hbrk hmem hres
  apart := h.apart

end Frame

theorem TableExt.rtldResolve_eq {c c' : State} (h : TableExt c c') (hc : c.objects.Probed)
    {addr entry : Word} (hres : rtldResolve c.objects addr = .ok entry) :
    rtldResolve c'.objects addr = .ok entry := by
  rw [rtldResolve_eq_ok_iff hc] at hres
  rw [rtldResolve_eq_ok_iff (h.probed hc)]
  exact h.holds hc _ _ hres

/-! ## Receiving -/

theorem ClientOk.received {host : Host} {bytes : List Byte} {c c' : State}
    (hc : ClientOk host c) (h : Received host bytes c c') :
    ClientOk host c' ∧ AgreeUsed c c' := by
  have hbrk := hc.ok.brk_le
  have hbrkp := hc.ok.brkp_le
  have hplt := hc.plt_ge
  have hlo := h.start_le
  have hhi := h.le_endp
  have hend := hc.recvOk.endp_le
  have hsep := hc.sep
  have hcode : c'.arenaCode = c.arenaCode := by rw [h.state_eq]
  have hpltEq : c'.plt = c.plt := by rw [h.state_eq]
  have hmem : AgreeUsed c c' := by
    intro x hx hx'
    rw [h.state_eq]
    apply writeBytes_of_not_inRange
    rw [inRange_iff (by omega)]
    omega
  refine ⟨?_, hmem⟩
  refine
    { hc.toLinkerOk.received h with
      size_le := hcode ▸ hc.size_le
      plt_ge := by rw [hcode, hpltEq]; exact hplt
      plt_le := by rw [hcode, hpltEq]; exact hc.plt_le
      plt_bytes := ?_ }
  rw [hpltEq, hc.readBytes_eq hmem (Nat.le_refl _) hc.plt_le]
  exact hc.plt_bytes

theorem LinkInv.received {host : Host} {bytes : List Byte} {c c' : State} (h : LinkInv host c sites)
    (hrecv : Received host bytes c c') :
    LinkInv host c' sites ∧ AgreeUsed c c' := by
  obtain ⟨hc', hmem⟩ := h.client.received hrecv
  have hcode : c'.arenaCode = c.arenaCode := by rw [hrecv.state_eq]
  have hplt : c'.plt = c.plt := by rw [hrecv.state_eq]
  have hobj : c'.objects = c.objects := by rw [hrecv.state_eq]
  exact ⟨h.frame h.client hplt (Nat.le_of_eq (by rw [hcode])) hmem hc'
    fun _ _ hres => hobj ▸ hres, hmem⟩

/-! ## Loading -/

theorem mem_siteIndices {m : Mem} {re : RtldElf} {i k : ℕ} :
    (i, k) ∈ siteIndices m re ↔ IsSite m re i k := by
  simp only [siteIndices, List.mem_flatMap, List.mem_range]
  constructor
  · rintro ⟨j, hj, hmem⟩
    split at hmem
    · next htype =>
      obtain ⟨l, hl, heq⟩ := List.mem_map.mp hmem
      obtain ⟨rfl, rfl⟩ := Prod.mk.inj heq
      exact ⟨⟨hj, htype.1, List.mem_range.mp hl⟩, htype.2⟩
    · exact absurd hmem (List.not_mem_nil)
  · intro h
    refine ⟨i, h.lt, ?_⟩
    rw [if_pos ⟨h.type_eq, h.progbits⟩]
    exact List.mem_map.mpr ⟨k, List.mem_range.mpr h.count, rfl⟩

theorem nodup_siteIndices (m : Mem) (re : RtldElf) : (siteIndices m re).Nodup := by
  refine List.nodup_flatMap.mpr ⟨?_, ?_⟩
  · intro i _
    split
    · exact List.nodup_range.map fun k l h => (Prod.mk.inj h).2
    · exact List.nodup_nil
  · refine List.nodup_range.imp ?_
    intro i j hne ik hi hj
    have hfst : ∀ n, ik ∈ (if (shdr m re n).shType = SHT_RELA ∧
        (shdr m re (relaTgt m re n)).shType = SHT_PROGBITS then
          (List.range (shdr m re n).relaCount).map fun k => (n, k) else []) → ik.1 = n := by
      intro n hn
      split at hn
      · obtain ⟨k, -, rfl⟩ := List.mem_map.mp hn
        rfl
      · exact absurd hn (List.not_mem_nil)
    exact hne ((hfst i hi).symm.trans (hfst j hj))

theorem mem_objectSites {objects : RtldTable} {m : Mem} {re : RtldElf} :
    s ∈ objectSites objects m re ↔ ∃ i k addr, IsSite m re i k ∧
      entryRef m re i k = some addr ∧
      mkSite objects m { entryPatch m re i k with symAddr := addr } = s := by
  simp only [objectSites, List.mem_filterMap, Prod.exists, mem_siteIndices,
    Option.map_eq_some_iff]
  constructor
  · rintro ⟨i, k, hsite, addr, haddr, hs⟩
    exact ⟨i, k, addr, hsite, haddr, hs⟩
  · rintro ⟨i, k, addr, hsite, haddr, hs⟩
    exact ⟨i, k, hsite, addr, haddr, hs⟩

section Load

variable {host : Host} {re : RtldElf} {c c' : State} {mid : ℕ} (hc : ClientOk host c)
  (hspec : LoadSpec host re c c' mid)
include hc hspec

theorem ClientOk.loaded (hext : TableExt c c')
    (hlo : c.arenaData.start.toNat ≤ re.base.toNat)
    (hhi : re.base.toNat + re.size.toNat ≤ c.arenaData.endp.toNat) :
    ClientOk host c' ∧ AgreeUsed c c' := by
  have hbrk := hc.ok.brk_le
  have hbrkp := hc.ok.brkp_le
  have hplt := hc.plt_ge
  have hsep := hc.sep
  have hgrow := hspec.le_mid.trans hspec.mid_le
  have hpltEq : c'.plt = c.plt := by rw [hspec.state_eq]
  have hmem : AgreeUsed c c' := by
    intro x hx hx'
    exact hspec.agree x (by omega) (by omega)
  refine ⟨?_, hmem⟩
  refine
    { hc.toLinkerOk.loaded hspec hext with
      size_le := by rw [hspec.start_eq, hspec.endp_eq]; exact hc.size_le
      plt_ge := by rw [hspec.start_eq, hpltEq]; exact hplt
      plt_le := by rw [hpltEq]; exact hc.plt_le.trans hgrow
      plt_bytes := ?_ }
  rw [hpltEq, hc.readBytes_eq hmem (Nat.le_refl _) hc.plt_le]
  exact hc.plt_bytes

omit hc in
/-- On x86-64 a field that refers to a guest address denotes its entry, or a stub
above `mid` if there was no entry. -/
theorem LoadSpec.siteTarget (harch : host.arch = .x86_64) {i k : ℕ}
    (hs : IsSite c'.mem re i k) :
    x86Supported (entryPatch c'.mem re i k).relType ∧
      ∀ addr, entryRef c'.mem re i k = some addr →
        let pd := entryPatch c'.mem re i k
        let target := fieldTarget c'.mem pd.patchAddr pd
        rtldResolve c.objects addr = .ok target ∨
          ((∃ e, rtldResolve c.objects addr = .error e) ∧ mid ≤ target.toNat ∧
            StubAt host c' target { pd with symAddr := addr }) := by
  obtain ⟨src, hsrc, hlinked⟩ := hspec.linked i k hs
  obtain ⟨hsupp, hval⟩ := hlinked.fieldTarget_eq harch
  refine ⟨hsupp, ?_⟩
  intro addr haddr
  rw [entrySource, symSource_of_guestRef haddr] at hsrc
  obtain rfl := Option.some.inj hsrc
  exact hval

variable (harch : host.arch = .x86_64)
include harch

omit hc in
/-- Bounds of the sites of a loaded object, and of their stubs. -/
theorem LoadSpec.site_bounds (hs : s ∈ objectSites c.objects c'.mem re) :
    c.arenaCode.brk.toNat ≤ s.pd.patchAddr.toNat ∧ s.pd.patchAddr.toNat + s.size ≤ mid ∧
      ∀ t, s.stub = some t → mid ≤ t.toNat ∧ StubAt host c' t s.pd := by
  obtain ⟨i, k, addr, hsite, haddr, rfl⟩ := mem_objectSites.mp hs
  obtain ⟨hlo, hhi⟩ := hspec.inside i k hsite
  refine ⟨hlo, hhi, ?_⟩
  intro t ht
  have htarget := (hspec.siteTarget harch hsite).2 addr haddr
  dsimp only at htarget
  unfold mkSite at ht
  dsimp only at ht
  rcases htarget with hres | ⟨⟨e, herr⟩, hmid, hstub⟩
  · rw [hres] at ht
    exact absurd ht (by simp)
  · rw [herr] at ht
    obtain rfl := Option.some.inj ht
    exact ⟨hmid, hstub⟩

theorem LoadSpec.siteOk (hext : TableExt c c') (hs : s ∈ objectSites c.objects c'.mem re) :
    SiteOk host c' s := by
  obtain ⟨hlo, hhi, hstub⟩ := hspec.site_bounds harch hs
  have hplt := hc.plt_le
  have hpltEq : c'.plt = c.plt := by rw [hspec.state_eq]
  have hmid := hspec.le_mid
  have hmid' := hspec.mid_le
  obtain ⟨i, k, addr, hsite, haddr, rfl⟩ := mem_objectSites.mp hs
  refine
    { supported := (hspec.siteTarget harch hsite).1
      relSize_eq := rfl
      lo := by rw [hpltEq]; omega
      hi := by omega
      stub_lo := fun t ht => by have := (hstub t ht).1; rw [hpltEq]; omega
      stubAt := fun t ht => (hstub t ht).2
      target := ?_ }
  have htarget := (hspec.siteTarget harch hsite).2 addr haddr
  dsimp only at htarget
  rcases htarget with hres | ⟨⟨e, herr⟩, -, -⟩
  · exact Or.inl (hext.rtldResolve_eq hc.probed hres)
  · refine Or.inr ?_
    simp only [mkSite, herr]
    rfl

omit hc in
theorem LoadSpec.sitesApart (h : LinkInv host c sites) :
    SitesApart (sites ++ objectSites c.objects c'.mem re) := by
  have hbounds := fun s hs => hspec.site_bounds (s := s) harch hs
  have hmid := hspec.le_mid
  constructor
  · refine List.pairwise_append.mpr ⟨h.apart.fields, ?_, ?_⟩
    · refine List.pairwise_filterMap.mpr ?_
      refine (nodup_siteIndices c'.mem re).imp_of_mem ?_
      rintro ⟨i, k⟩ ⟨j, l⟩ hi hj hne s hs s' hs'
      obtain ⟨addr, -, rfl⟩ := Option.map_eq_some_iff.mp hs
      obtain ⟨addr', -, rfl⟩ := Option.map_eq_some_iff.mp hs'
      refine hspec.disjoint i k j l (mem_siteIndices.mp hi) (mem_siteIndices.mp hj) ?_
      rintro ⟨rfl, rfl⟩
      exact hne rfl
    · intro s hs s' hs'
      have hhi := (h.site s hs).hi
      have hlo := (hbounds s' hs').1
      unfold CallSite.Apart RangeDisjoint
      omega
  · intro s hs s' hs' t ht
    unfold RangeDisjoint
    rcases List.mem_append.mp hs with hold | hnew
    · have hhi := (h.site s hold).hi
      rcases List.mem_append.mp hs' with hold' | hnew'
      · exact h.apart.stubs s hold s' hold' t ht
      · have := ((hbounds s' hnew').2.2 t ht).1
        omega
    · obtain ⟨hlo, hhi, -⟩ := hbounds s hnew
      rcases List.mem_append.mp hs' with hold' | hnew'
      · have := ((h.site s' hold').stubAt t ht).le_brk
        omega
      · have := ((hbounds s' hnew').2.2 t ht).1
        omega

end Load

/-- The call sites of a loaded object are in order, and the others stay so. -/
theorem LinkInv.loaded {host : Host} (harch : host.arch = .x86_64) {re : RtldElf} {c c' : State}
    {mid : ℕ} (h : LinkInv host c sites) (hspec : LoadSpec host re c c' mid) (hext : TableExt c c')
    (hlo : c.arenaData.start.toNat ≤ re.base.toNat)
    (hhi : re.base.toNat + re.size.toNat ≤ c.arenaData.endp.toNat) :
    LinkInv host c' (sites ++ objectSites c.objects c'.mem re) ∧ AgreeUsed c c' := by
  obtain ⟨hclient, hmem⟩ := h.client.loaded hspec hext hlo hhi
  have hplt : c'.plt = c.plt := by rw [hspec.state_eq]
  have hold := h.frame h.client hplt (hspec.le_mid.trans hspec.mid_le) hmem hclient
    fun _ _ hres => hext.rtldResolve_eq h.client.probed hres
  refine ⟨⟨hclient, ?_, hspec.sitesApart harch h⟩, hmem⟩
  intro s hs
  rcases List.mem_append.mp hs with hs | hs
  · exact hold.site s hs
  · exact hspec.siteOk h.client harch hext hs

end PollyInstrew.Client
