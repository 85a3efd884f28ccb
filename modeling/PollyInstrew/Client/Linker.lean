import PollyInstrew.Client.LinkerState
import PollyInstrew.Client.RegisterPass

/-!
# `rtld_add_object` as a linker

When `rtld_add_object` returns zero, the sections have been copied with their
fields linked, and no registered address has changed.  The functions of the
object are all registered if and only if none of their names stands for the
guest address zero: at such a name the last pass stops, with return value
zero.
-/

namespace PollyInstrew.Client

open PollyInstrew.ByteMemory PollyInstrew.StateExcept

/-! ## Exported functions -/

/-- The names of all exported functions stand for guest addresses other than
zero. -/
def NamesOk (m : Mem) (re : RtldElf) : Prop :=
  ∀ i < shnum m re, (shdr m re i).shType = SHT_SYMTAB →
    ∀ k < (shdr m re i).shSize.toNat / symSize,
      (symbolAt m re i k).isExported → exportAddr m re i k ≠ 0#64

theorem SameMeta.symbolAt_eq {re : RtldElf} {m m' : Mem} (h : SameMeta m re m' re) {i k : ℕ}
    (hi : i < shnum m re) (ht : (shdr m re i).shType = SHT_SYMTAB)
    (hk : k < (shdr m re i).shSize.toNat / symSize) :
    symbolAt m' re i k = symbolAt m re i k :=
  h.sym_eq i hi ht k hk

theorem SameMeta.isExport_iff {re : RtldElf} {m m' : Mem} (h : SameMeta m re m' re) {i k : ℕ} :
    IsExport m' re i k ↔ IsExport m re i k := by
  constructor
  · rintro ⟨hi, ht, hk, he⟩
    have hi' : i < shnum m re := h.shnum_eq ▸ hi
    rw [h.type_eq hi'] at ht
    rw [h.size_eq hi'] at hk
    rw [h.symbolAt_eq hi' ht hk] at he
    exact ⟨hi', ht, hk, he⟩
  · rintro ⟨hi, ht, hk, he⟩
    refine ⟨h.shnum_eq.symm ▸ hi, (h.type_eq hi).trans ht, (h.size_eq hi).symm ▸ hk, ?_⟩
    rw [h.symbolAt_eq hi ht hk]
    exact he

theorem SameMeta.exportAddr_eq {re : RtldElf} {m m' : Mem} (h : SameMeta m re m' re)
    (hwf : ObjectWf m re) {i k : ℕ} (he : IsExport m re i k) :
    exportAddr m' re i k = exportAddr m re i k := by
  rw [exportAddr, exportAddr, h.symbolAt_eq he.lt he.type_eq he.count,
    rtldElfDecodeName_congr (h.undefName hwf he.lt _)]

/-! ## Linked objects -/

/-- The patch data of a relocation when sections have the given addresses. -/
def sitePatch (m : Mem) (re : RtldElf) (secAddr : ℕ → Word) (i k : ℕ) : RtldPatchData :=
  { entryPatch m re i k with
    patchAddr := secAddr (relaTgt m re i) + (relaAt m re i k).rOffset }

/-- The object `re` in the state `c` has been linked and registered in `c'`.  The
addresses of its sections are those in their headers. -/
structure Linked (host : Host) (re : RtldElf) (c c' : State) : Prop where
  bytes : ∀ j < shnum c.mem re, (shdr c.mem re j).shType = SHT_PROGBITS →
    ∀ d < (shdr c.mem re j).shSize.toNat, OffFields c.mem re j d →
      c'.mem (headerAddr c'.mem re j + BitVec.ofNat 64 d) =
        c.mem (re.base + (shdr c.mem re j).shOffset + BitVec.ofNat 64 d)
  fields : ∀ i k, IsSite c.mem re i k → ∃ src,
    entrySource host.arch c.mem re i k = some src ∧
      FieldLinked (loadEnv host re c c' c.arenaCode.brk.toNat) src
        (sitePatch c.mem re (headerAddr c'.mem re) i k) c.mem (fieldLoc c.mem re i k) c'
        (sitePatch c.mem re (headerAddr c'.mem re) i k).patchAddr
  exports : ∀ i k, IsExport c.mem re i k →
    rtldResolve c'.objects (exportAddr c.mem re i k) =
      .ok (exportEntry c.mem re (headerAddr c'.mem re) i k)
  keeps : ∀ addr entry, rtldResolve c.objects addr = .ok entry →
    rtldResolve c'.objects addr = .ok entry

theorem LoadSpec.fieldLinked {host : Host} {re : RtldElf} {c c' : State} {mid : ℕ}
    (hspec : LoadSpec host re c c' mid) (hwf : ObjectWf c.mem re) {i k : ℕ}
    (hs : IsSite c.mem re i k) :
    ∃ src, entrySource host.arch c.mem re i k = some src ∧
      FieldLinked (loadEnv host re c c' c.arenaCode.brk.toNat) src
        (sitePatch c.mem re (headerAddr c'.mem re) i k) c.mem (fieldLoc c.mem re i k) c'
        (sitePatch c.mem re (headerAddr c'.mem re) i k).patchAddr := by
  have hmeta := hspec.sameMeta
  have hpatch : entryPatch c'.mem re i k = sitePatch c.mem re (headerAddr c'.mem re) i k :=
    hmeta.entryPatch_eq hs.toIsEntry
  obtain ⟨src, hsrc, hlinked⟩ := hspec.linked i k ((hmeta.isSite_iff hwf).mpr hs)
  rw [hmeta.entrySource_eq hs.toIsEntry hwf] at hsrc
  rw [hpatch] at hlinked
  exact ⟨src, hsrc, hlinked.env rfl rfl rfl rfl hspec.le_mid fun _ _ _ => rfl⟩

theorem LoadedFrom.exports {host : Host} {bytes : List Byte} {re : RtldElf} {c c₁ c' : State}
    {mid : ℕ} (h : LoadedFrom host bytes re c c₁ c' mid) (hnames : NamesOk c₁.mem re) {i k : ℕ}
    (he : IsExport c₁.mem re i k) :
    rtldResolve c'.objects (exportAddr c₁.mem re i k) =
      .ok (exportEntry c₁.mem re (headerAddr c'.mem re) i k) := by
  have hmeta := h.spec.sameMeta
  obtain ⟨c₅, hmem, -, hrun⟩ := h.registered
  have hfuel : shnum c₅.mem re ≤ 0 + shnumBound := by
    have := shnum_lt c₅.mem re
    unfold shnumBound
    omega
  have htable := registerPass_inTable shnumBound 0 hfuel hrun
  rw [hmem] at htable
  rcases htable with hall | ⟨j, l, he', hsilent⟩
  · have hres := (hall i k (Nat.zero_le _) (hmeta.isExport_iff.mpr he)).resolve
    rwa [hmeta.exportAddr_eq h.wf he, symEntry, exportEntry,
      hmeta.symbolAt_eq he.lt he.type_eq he.count] at hres
  · have hj := hmeta.isExport_iff.mp he'
    have hzero := hsilent.exportAddr_eq
    rw [hmeta.exportAddr_eq h.wf hj] at hzero
    exact absurd hzero (hnames j hj.lt hj.type_eq l hj.count hj.exported)

/-- In every reachable state, an object for which `rtld_add_object` returns zero
is linked and registered if and only if the names of its functions are good. -/
theorem linked_iff_namesOk {host : Host} {c c₁ c' : State} {bytes : List Byte} {skew : Word}
    {obj : Word × Word} {re : RtldElf} (hreach : LinkerReach host c) (hobj : ObjectOk bytes)
    (hget : (translatorGetObject host bytes).run c = (.ok obj, c₁))
    (hinit : rtldElfInit host c₁.mem obj.1 obj.2 skew = .ok re)
    (hadd : (rtldAddObject host obj.1 obj.2 skew).run c₁ = (.ok (), c')) :
    Linked host re c₁ c' ↔ NamesOk c₁.mem re := by
  have h := hreach.linkerOk
  obtain ⟨re', mid, -, hinit', hload⟩ := h.loadObject (Or.inr hobj) hget hadd
  rw [hinit] at hinit'
  obtain rfl := Except.ok.inj hinit'
  have hprobed := (h.received hload.received).probed
  have hprobed' := hload.ext.probed hprobed
  constructor
  · intro hlinked i hi ht k hk he
    have hres := hlinked.exports i k ⟨hi, ht, hk, he⟩
    rw [rtldResolve_eq_ok_iff hprobed'] at hres
    exact hres.addr_ne_zero
  · intro hnames
    refine
      { bytes := hload.spec.copied
        fields := fun i k hs => hload.spec.fieldLinked hload.wf hs
        exports := ?_
        keeps := fun addr entry hres => ?_ }
    · exact fun i k he => hload.exports hnames he
    · rw [rtldResolve_eq_ok_iff hprobed] at hres
      exact (rtldResolve_eq_ok_iff hprobed' _ _).mpr (hload.ext.holds hprobed _ _ hres)

/-! ## A sample object -/

/-- The client before and after it receives the sample object. -/
def jmpReady : State :=
  ((rtldInit (quietHost hhvmInfo)).run
    (memInit 0x400000000000 0x400001000000 startState)).2

def jmpReceived : State :=
  ((translatorGetObject (quietHost hhvmInfo) jmpObject).run jmpReady).2

/-- Where the sample object is received. -/
def jmpBuf : Word × Word := (0x400000400000, 499)

def jmpLoaded (skew : Word) : State :=
  ((rtldAddObject (quietHost hhvmInfo) jmpBuf.1 jmpBuf.2 skew).run jmpReceived).2

def jmpElf (skew : Word) : RtldElf := ⟨0x400000400000, 499, skew, 0x400000400040⟩

theorem linkerReach_jmpReady : LinkerReach (quietHost hhvmInfo) jmpReady := by
  refine .init ?_ rfl (Prog.run_eq_of_fst (by decide +kernel))
  exact ⟨by change _ % 2 ^ 12 = 0; decide, by change _ % 2 ^ 12 = 0; decide, by decide,
    by decide, by decide⟩

theorem jmpObject_received : (translatorGetObject (quietHost hhvmInfo) jmpObject).run jmpReady =
    (.ok jmpBuf, jmpReceived) :=
  Prog.run_eq_of_fst (by decide +kernel)

/-- The sample object is loaded with either skew. -/
theorem jmpObject_loaded {skew : Word} (h : skew = 0 ∨ skew = 0x1000) :
    rtldElfInit (quietHost hhvmInfo) jmpReceived.mem jmpBuf.1 jmpBuf.2 skew =
        .ok (jmpElf skew) ∧
      (rtldAddObject (quietHost hhvmInfo) jmpBuf.1 jmpBuf.2 skew).run jmpReceived =
        (.ok (), jmpLoaded skew) := by
  rcases h with rfl | rfl
  · exact ⟨by decide +kernel, Prog.run_eq_of_fst (by decide +kernel)⟩
  · exact ⟨by decide +kernel, Prog.run_eq_of_fst (by decide +kernel)⟩

theorem linked_iff_namesOk_jmp :
    NamesOk jmpReceived.mem (jmpElf 0x1000) ∧
      Linked (quietHost hhvmInfo) (jmpElf 0x1000) jmpReceived (jmpLoaded 0x1000) := by
  have hnames : NamesOk jmpReceived.mem (jmpElf 0x1000) := by
    unfold NamesOk
    decide +kernel
  obtain ⟨hinit, hadd⟩ := jmpObject_loaded (Or.inr rfl)
  exact ⟨hnames, (linked_iff_namesOk linkerReach_jmpReady objectOk_jmpObject
    jmpObject_received hinit hadd).mpr hnames⟩

/-- With the skew zero the name `S0` of the function stands for the address zero:
`rtld_add_object` returns zero and registers nothing. -/
theorem not_linked_jmp :
    ¬∀ (host : Host) (bytes : List Byte) (skew : Word) (obj : Word × Word) (re : RtldElf)
      (c c₁ c' : State), LinkerReach host c → ObjectOk bytes →
      (translatorGetObject host bytes).run c = (.ok obj, c₁) →
      rtldElfInit host c₁.mem obj.1 obj.2 skew = .ok re →
      (rtldAddObject host obj.1 obj.2 skew).run c₁ = (.ok (), c') → Linked host re c₁ c' := by
  intro hall
  obtain ⟨hinit, hadd⟩ := jmpObject_loaded (Or.inl rfl)
  have hlinked := hall _ _ 0 _ _ _ _ _ linkerReach_jmpReady objectOk_jmpObject
    jmpObject_received hinit hadd
  have hexport : IsExport jmpReceived.mem (jmpElf 0) 3 1 :=
    ⟨by decide +kernel, by decide +kernel, by decide +kernel, by decide +kernel⟩
  have haddr : exportAddr jmpReceived.mem (jmpElf 0) 3 1 = 0#64 := by decide +kernel
  have hres := hlinked.exports 3 1 hexport
  rw [haddr, rtldResolve, if_pos rfl] at hres
  exact absurd hres (by simp)

end PollyInstrew.Client
