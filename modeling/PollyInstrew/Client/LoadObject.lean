import PollyInstrew.Client.RelocStubs

/-!
# What loading an object does

The copy pass puts the relocated sections in place, the last pass only changes
the table.  Together with the layout and the relocation pass this describes
the whole of `rtld_add_object`: which memory it changes, that sections are
copied as they are in the file apart from their fields, and that the fields
are linked.
-/

namespace PollyInstrew.Client

open PollyInstrew.ByteMemory PollyInstrew.StateExcept

/-! ## Memories that show the same object -/

/-- The same metadata, with the same section addresses. -/
structure SameObject (re : RtldElf) (m m' : Mem) : Prop where
  sameMeta : SameMeta m re m' re
  shdr_eq : ∀ i < shnum m re, shdr m' re i = shdr m re i

/-- A relocation of a section that is copied into the code arena. -/
structure IsSite (m : Mem) (re : RtldElf) (i k : ℕ) : Prop extends IsEntry m re i k where
  progbits : (shdr m re (relaTgt m re i)).shType = SHT_PROGBITS

theorem ObjectWf.isAlloc_of_site {m : Mem} {re : RtldElf} (hwf : ObjectWf m re) {i k : ℕ}
    (hs : IsSite m re i k) : (shdr m re (relaTgt m re i)).isAlloc := by
  obtain ⟨hlt, -, -⟩ := hwf.rela_target i hs.lt hs.type_eq
  have hfield := hwf.rela_field i hs.lt hs.type_eq k hs.count
  have hpos := fieldSize_eq (relaAt m re i k).relType
  rcases hwf.progbits _ hlt hs.progbits with h | h
  · exact h
  · rw [h] at hfield
    have hzero : (0#64).toNat = 0 := rfl
    omega

section SameMeta

variable {re : RtldElf} {m m' : Mem} (h : SameMeta m re m' re)
include h

theorem SameMeta.isEntry_iff {i k : ℕ} : IsEntry m' re i k ↔ IsEntry m re i k := by
  constructor
  · rintro ⟨hi, ht, hk⟩
    have hi' : i < shnum m re := h.shnum_eq ▸ hi
    rw [h.type_eq hi'] at ht
    rw [h.relaCount_eq hi'] at hk
    exact ⟨hi', ht, hk⟩
  · rintro ⟨hi, ht, hk⟩
    refine ⟨h.shnum_eq.symm ▸ hi, ?_, ?_⟩
    · rw [h.type_eq hi]
      exact ht
    · rw [h.relaCount_eq hi]
      exact hk

variable {i k : ℕ} (he : IsEntry m re i k)
include he

theorem SameMeta.relaTgt_eq : relaTgt m' re i = relaTgt m re i := by
  rw [relaTgt, relaTgt, h.info_eq he.lt]

theorem SameMeta.relaAt_eq : relaAt m' re i k = relaAt m re i k :=
  h.rela_eq i he.lt he.type_eq k he.count

theorem SameMeta.entrySize_eq : entrySize m' re i k = entrySize m re i k := by
  rw [entrySize, entrySize, entryPatch, entryPatch, h.relaAt_eq he]
  rfl

theorem SameMeta.entryPatch_eq : entryPatch m' re i k =
    { entryPatch m re i k with
      patchAddr := (shdr m' re (relaTgt m re i)).shAddr + (relaAt m re i k).rOffset } := by
  rw [entryPatch, entryPatch, h.relaTgt_eq he, h.relaAt_eq he]
  rfl

variable (hwf : ObjectWf m re)
include hwf

theorem SameMeta.fieldLoc_eq : fieldLoc m' re i k = fieldLoc m re i k := by
  have htgt : relaTgt m re i < shnum m re := (hwf.rela_target i he.lt he.type_eq).1
  rw [fieldLoc, fieldLoc, fieldOff, fieldOff, h.relaTgt_eq he, h.relaAt_eq he,
    h.offset_eq htgt]

theorem SameMeta.entrySource_eq (arch : Arch) :
    entrySource arch m' re i k = entrySource arch m re i k := by
  rw [entrySource, entrySource, h.link_eq he.lt, h.relaAt_eq he, h.symSource_eq hwf rfl]

end SameMeta

theorem SameMeta.isSite_iff {re : RtldElf} {m m' : Mem} (h : SameMeta m re m' re)
    (hwf : ObjectWf m re) {i k : ℕ} : IsSite m' re i k ↔ IsSite m re i k := by
  have hprog : ∀ he : IsEntry m re i k, (shdr m' re (relaTgt m' re i)).shType =
      (shdr m re (relaTgt m re i)).shType := by
    intro he
    have htgt : relaTgt m re i < shnum m re := (hwf.rela_target i he.lt he.type_eq).1
    rw [h.relaTgt_eq he, h.type_eq htgt]
  constructor
  · rintro ⟨he, hp⟩
    have he' := h.isEntry_iff.mp he
    exact ⟨he', hprog he' ▸ hp⟩
  · rintro ⟨he, hp⟩
    exact ⟨h.isEntry_iff.mpr he, (hprog he).trans hp⟩

section SameObject

variable {re : RtldElf} {m m' m'' : Mem}

theorem SameObject.trans (h : SameObject re m m') (h' : SameObject re m' m'') :
    SameObject re m m'' where
  sameMeta := h.sameMeta.trans h'.sameMeta
  shdr_eq := by
    intro i hi
    rw [h'.shdr_eq i (h.sameMeta.shnum_eq ▸ hi), h.shdr_eq i hi]

/-- A change outside the object. -/
theorem sameObject_of_agree (hwf : ObjectWf m re)
    (h : ∀ o < re.size.toNat,
      m' (re.base + BitVec.ofNat 64 o) = m (re.base + BitVec.ofNat 64 o)) :
    SameObject re m m' := by
  have hmeta : SameMeta m re m' re :=
    sameMeta_of_agree rfl fun o ho => h o (ho.lt_size hwf)
  refine ⟨hmeta, ?_⟩
  intro i hi
  have hle := hwf.table_le
  have hmul : shdrSize * (i + 1) ≤ shdrSize * shnum m re := Nat.mul_le_mul_left _ hi
  have haddr : (shdr m' re i).shAddr = (shdr m re i).shAddr := by
    refine load_add_congr (w := 64) 16 fun d hge hlt => ?_
    rw [shdrAddr_add]
    apply h
    simp only [shdrSize] at *
    omega
  exact Shdr.eq_of_noAddr (hmeta.shdr_eq i hi) haddr

variable (h : SameObject re m m')
include h

theorem SameObject.entryPatch_eq (hwf : ObjectWf m re) {i k : ℕ} (he : IsEntry m re i k) :
    entryPatch m' re i k = entryPatch m re i k := by
  have htgt : relaTgt m re i < shnum m re := (hwf.rela_target i he.lt he.type_eq).1
  rw [h.sameMeta.entryPatch_eq he, h.shdr_eq _ htgt]
  rfl

theorem SameObject.laid {n lo totsz : ℕ} (hn : n ≤ shnum m re) (hlaid : Laid m re n lo totsz) :
    Laid m' re n lo totsz := by
  constructor
  · intro j hj
    rw [h.shdr_eq j (by omega)]
    exact hlaid.inside j hj
  · intro j k hjk hk
    rw [h.shdr_eq j (by omega), h.shdr_eq k (by omega)]
    exact hlaid.ordered j k hjk hk

end SameObject

/-! ## The copy pass -/

/-- Sections before `j` have been copied. -/
structure CopyInv (re : RtldElf) (lo totsz : ℕ) (c : State) (j : ℕ) (t : State) : Prop where
  state_eq : t = { c with mem := t.mem }
  agree : ∀ x : Word, ¬(lo ≤ x.toNat ∧ x.toNat < lo + totsz) → t.mem x = c.mem x
  copied : ∀ l < j, (shdr c.mem re l).shType = SHT_PROGBITS →
    ∀ d < (shdr c.mem re l).shSize.toNat,
      t.mem ((shdr c.mem re l).shAddr + BitVec.ofNat 64 d) =
        c.mem (re.base + (shdr c.mem re l).shOffset + BitVec.ofNat 64 d)

section CopyPass

variable {re : RtldElf} {lo totsz : ℕ} {c : State} (hwf : ObjectWf c.mem re)
  (hfits : re.Fits) (hlaid : Laid c.mem re (shnum c.mem re) lo totsz)
  (hsep : re.base.toNat + re.size.toNat ≤ lo ∨ lo + totsz ≤ re.base.toNat)
  (hbound : lo + totsz ≤ 2 ^ 63)
include hwf hfits hsep

omit hwf in
theorem CopyInv.buffer_eq {j : ℕ} {t : State} (h : CopyInv re lo totsz c j t) {o : ℕ}
    (ho : o < re.size.toNat) :
    t.mem (re.base + BitVec.ofNat 64 o) = c.mem (re.base + BitVec.ofNat 64 o) := by
  unfold RtldElf.Fits at hfits
  have haddr : (re.base + BitVec.ofNat 64 o).toNat = re.base.toNat + o := by
    rw [BitVec.toNat_add, BitVec.toNat_ofNat]
    omega
  apply h.agree
  rw [haddr]
  omega

theorem CopyInv.sameObject {j : ℕ} {t : State} (h : CopyInv re lo totsz c j t) :
    SameObject re c.mem t.mem :=
  sameObject_of_agree hwf fun _ ho => h.buffer_eq hfits hsep ho

theorem CopyInv.readSection_eq {j l : ℕ} {t : State} (h : CopyInv re lo totsz c j t)
    (hl : l < shnum c.mem re) (hcontent : (shdr c.mem re l).hasContent) :
    readBytes t.mem (re.base + (shdr c.mem re l).shOffset) (shdr c.mem re l).shSize.toNat =
      readBytes c.mem (re.base + (shdr c.mem re l).shOffset)
        (shdr c.mem re l).shSize.toNat := by
  have hle := hwf.content_le l hl hcontent
  apply readBytes_congr_add
  intro d hd
  have hsum : (shdr c.mem re l).shOffset + BitVec.ofNat 64 d =
      BitVec.ofNat 64 ((shdr c.mem re l).shOffset.toNat + d) := by
    rw [BitVec.ofNat_add, BitVec.ofNat_toNat, BitVec.setWidth_eq]
  rw [BitVec.add_assoc, hsum]
  exact h.buffer_eq hfits hsep (by omega)

include hlaid hbound

theorem CopyInv.step {j : ℕ} (hj : j < shnum c.mem re) {t t' : State}
    (h : CopyInv re lo totsz c j t)
    (hbody : (do
      let m ← getMem
      let s := shdr m re j
      if s.shType = SHT_PROGBITS then
        memWriteCode s.shAddr
          (readBytes m (re.base + s.shOffset) s.shSize.toNat) : ClientM Unit).run t =
        (.ok (), t')) :
    CopyInv re lo totsz c (j + 1) t' := by
  have hsame := h.sameObject hwf hfits hsep
  rw [Prog.run_bind, run_getMem] at hbody
  dsimp only at hbody
  rw [hsame.shdr_eq j hj] at hbody
  by_cases htype : (shdr c.mem re j).shType = SHT_PROGBITS
  swap
  · rw [if_neg htype] at hbody
    obtain ⟨-, rfl⟩ := Prod.mk.inj hbody
    refine ⟨h.state_eq, h.agree, ?_⟩
    intro l hl ht
    have hlj : l ≠ j := by
      rintro rfl
      exact htype ht
    exact h.copied l (by omega) ht
  rw [if_pos htype, run_memWriteCode] at hbody
  obtain ⟨-, rfl⟩ := Prod.mk.inj hbody
  have hcontent : (shdr c.mem re j).hasContent := by
    simp [Shdr.hasContent, htype, SHT_PROGBITS, SHT_NOBITS]
  have hsize : (shdr c.mem re j).shSize.toNat ≤ 2 ^ 64 := by
    have := (shdr c.mem re j).shSize.isLt
    omega
  rw [h.readSection_eq hwf hfits hsep hj hcontent]
  have halloc := hwf.progbits j hj htype
  have hrange : ∀ x : Word,
      InRange (shdr c.mem re j).shAddr (shdr c.mem re j).shSize.toNat x →
      (shdr c.mem re j).isAlloc ∧ (shdr c.mem re j).shAddr.toNat ≤ x.toNat ∧
        x.toNat < (shdr c.mem re j).shAddr.toNat + (shdr c.mem re j).shSize.toNat := by
    intro x hx
    rcases halloc with ha | hzero
    · have hin := hlaid.inside j hj ha
      rw [inRange_iff (by omega)] at hx
      exact ⟨ha, hx⟩
    · rw [hzero] at hx
      exact absurd hx (Nat.not_lt_zero _)
  refine ⟨by rw [h.state_eq], ?_, ?_⟩
  · intro x hx
    dsimp only
    rw [writeBytes_of_not_inRange, h.agree x hx]
    rw [length_readBytes]
    intro hin
    obtain ⟨ha, h₁, h₂⟩ := hrange x hin
    have := hlaid.inside j hj ha
    omega
  · intro l hl ht d hd
    dsimp only
    rcases Nat.lt_succ_iff_lt_or_eq.mp hl with hlt | rfl
    · rw [writeBytes_of_not_inRange, h.copied l hlt ht d hd]
      rw [length_readBytes]
      intro hin
      obtain ⟨ha, h₁, h₂⟩ := hrange _ hin
      have hal : (shdr c.mem re l).isAlloc := by
        rcases hwf.progbits l (by omega) ht with hal | hzero
        · exact hal
        · rw [hzero] at hd
          exact absurd hd (Nat.not_lt_zero _)
      have hord := hlaid.ordered l j hlt hj hal ha
      have hin := hlaid.inside l (by omega) hal
      have haddr : ((shdr c.mem re l).shAddr + BitVec.ofNat 64 d).toNat =
          (shdr c.mem re l).shAddr.toNat + d := by
        rw [BitVec.toNat_add, BitVec.toNat_ofNat]
        omega
      omega
    · rw [writeBytes_add (by simpa using hd) (by simpa using hsize), getElem_readBytes]

theorem copyPass_ok {c' : State} (hrun : (copyPass re).run c = (.ok (), c')) :
    CopyInv re lo totsz c (shnum c.mem re) c' :=
  forSections_ok (shnum_lt _ _)
    (fun _ _ h => (h.sameObject hwf hfits hsep).sameMeta.shnum_eq)
    (fun _ _ _ hj h hbody => h.step hwf hfits hlaid hsep hbound hj hbody)
    ⟨rfl, fun _ _ => rfl, fun _ hl => absurd hl (Nat.not_lt_zero _)⟩ hrun

end CopyPass

/-! ## The last pass -/

/-- Only the table of translated code changes. -/
def OnlyObjects (c c' : State) : Prop := c' = { c with objects := c'.objects }

theorem OnlyObjects.refl (c : State) : OnlyObjects c c := rfl

theorem OnlyObjects.trans (c d e : State) (h : OnlyObjects c d) (h' : OnlyObjects d e) :
    OnlyObjects c e := by
  unfold OnlyObjects at *
  rw [h', h]

theorem onlyObjects_tableFrame : TableFrame OnlyObjects where
  refl := OnlyObjects.refl
  trans := OnlyObjects.trans
  set := fun _ _ _ _ _ => rfl

/-! ## The whole load -/

/-- The environment of the relocations when an object is loaded: stubs and
veneers are put above `lo`. -/
def loadEnv (host : Host) (re : RtldElf) (c c' : State) (lo : ℕ) : LinkEnv where
  host := host
  objects := c.objects
  plt := c.plt
  lo := lo
  secAddr := fun i => (shdr c'.mem re i).shAddr
  skew := re.skew

/-- The byte at `d` of section `j` belongs to no field. -/
def OffFields (m : Mem) (re : RtldElf) (j d : ℕ) : Prop :=
  ∀ i k, IsEntry m re i k → relaTgt m re i = j →
    d < (relaAt m re i k).rOffset.toNat ∨
      (relaAt m re i k).rOffset.toNat + entrySize m re i k ≤ d

/-- What a load does: fields lie between the old break and `mid`, stubs between
`mid` and the new break. -/
structure LoadSpec (host : Host) (re : RtldElf) (c c' : State) (mid : ℕ) : Prop where
  state_eq : c' = { c with
    mem := c'.mem
    arenaCode := c'.arenaCode
    mprotectCalls := c'.mprotectCalls
    objects := c'.objects }
  ok : c'.arenaCode.Ok host.pageBits
  start_eq : c'.arenaCode.start = c.arenaCode.start
  endp_eq : c'.arenaCode.endp = c.arenaCode.endp
  le_mid : c.arenaCode.brk.toNat ≤ mid
  mid_le : mid ≤ c'.arenaCode.brk.toNat
  sameMeta : SameMeta c.mem re c'.mem re
  agree : ∀ x : Word,
    (x.toNat < re.base.toNat ∨ re.base.toNat + re.size.toNat ≤ x.toNat) →
    (c.arenaCode.brk.toNat ≤ x.toNat → c'.arenaCode.brk.toNat ≤ x.toNat) →
    c'.mem x = c.mem x
  inside : ∀ i k, IsSite c'.mem re i k →
    c.arenaCode.brk.toNat ≤ (entryPatch c'.mem re i k).patchAddr.toNat ∧
      (entryPatch c'.mem re i k).patchAddr.toNat + entrySize c'.mem re i k ≤ mid
  copied : ∀ j < shnum c.mem re, (shdr c.mem re j).shType = SHT_PROGBITS →
    ∀ d < (shdr c.mem re j).shSize.toNat, OffFields c.mem re j d →
      c'.mem ((shdr c'.mem re j).shAddr + BitVec.ofNat 64 d) =
        c.mem (re.base + (shdr c.mem re j).shOffset + BitVec.ofNat 64 d)
  linked : ∀ i k, IsSite c'.mem re i k → ∃ src,
    entrySource host.arch c'.mem re i k = some src ∧
      FieldLinked (loadEnv host re c c' mid) src (entryPatch c'.mem re i k) c.mem
        (fieldLoc c.mem re i k) c' (entryPatch c'.mem re i k).patchAddr
  disjoint : ∀ i k j l, IsSite c'.mem re i k → IsSite c'.mem re j l → ¬(i = j ∧ k = l) →
    RangeDisjoint (entryPatch c'.mem re i k).patchAddr.toNat (entrySize c'.mem re i k)
      (entryPatch c'.mem re j l).patchAddr.toNat (entrySize c'.mem re j l)

/-- The passes of a load that succeeds. -/
theorem rtldAddObject_passes {host : Host} {objBase objSize skew : Word} {c c' : State}
    (hrun : (rtldAddObject host objBase objSize skew).run c = (.ok (), c')) :
    ∃ re totsz totalign base c₁ c₂ c₃ c₄ c₅,
      rtldElfInit host c.mem objBase objSize skew = .ok re ∧
      (layoutPass re shnumBound 0 0#64 1#64).run c = (.ok (totsz, totalign), c₁) ∧
      (memAllocCode host totsz totalign).run c₁ = (.ok base, c₂) ∧ ¬badAddr base ∧
      (rebasePass re base).run c₂ = (.ok (), c₃) ∧
      (relocPass host re).run c₃ = (.ok (), c₄) ∧
      (copyPass re).run c₄ = (.ok (), c₅) ∧
      (registerPass re shnumBound 0).run c₅ = (.ok (), c') := by
  unfold rtldAddObject at hrun
  rw [Prog.run_bind, run_getMem] at hrun
  obtain ⟨re, c₀, hinit, hrun⟩ := Prog.run_bind_eq_ok.mp hrun
  rw [Prog.run_lift] at hinit
  obtain ⟨helf, rfl⟩ := Prod.mk.inj hinit
  obtain ⟨⟨totsz, totalign⟩, c₁, hlayout, hrun⟩ := Prog.run_bind_eq_ok.mp hrun
  obtain ⟨base, c₂, halloc, hrun⟩ := Prog.run_bind_eq_ok.mp hrun
  by_cases hbad : badAddr base
  · rw [if_pos hbad] at hrun
    simp at hrun
  rw [if_neg hbad] at hrun
  obtain ⟨⟨⟩, c₃, hrebase, hrun⟩ := Prog.run_bind_eq_ok.mp hrun
  obtain ⟨⟨⟩, c₄, hreloc, hrun⟩ := Prog.run_bind_eq_ok.mp hrun
  obtain ⟨⟨⟩, c₅, hcopy, hregister⟩ := Prog.run_bind_eq_ok.mp hrun
  exact ⟨re, totsz, totalign, base, c₁, c₂, c₃, c₄, c₅, helf, hlayout, halloc, hbad,
    hrebase, hreloc, hcopy, hregister⟩

/-- The object after the first two passes: sections have their addresses in a
fresh block of the code arena. -/
structure Placed (host : Host) (re : RtldElf) (c c₃ : State) (lo totsz : ℕ) : Prop where
  grown : Grown host c c₃
  sameMeta : SameMeta c.mem re c₃.mem re
  agree : AgreeOffTable c.mem re c₃.mem
  laid : Laid c₃.mem re (shnum c₃.mem re) lo totsz
  brk_le : c.arenaCode.brk.toNat ≤ lo
  brk_eq : lo + totsz = c₃.arenaCode.brk.toNat

section Load

variable {host : Host} {re : RtldElf} {c c₃ c₄ c₅ : State} {lo totsz : ℕ}
  (hwf : ObjectWf c.mem re) (hapart : Apart re c) (hok : c.arenaCode.Ok host.pageBits)
include hwf hapart hok

theorem placed_of_passes {totsz totalign base : Word} {c₁ c₂ : State}
    (hlayout : (layoutPass re shnumBound 0 0#64 1#64).run c = (.ok (totsz, totalign), c₁))
    (halloc : (memAllocCode host totsz totalign).run c₁ = (.ok base, c₂))
    (hgood : ¬badAddr base) (hrebase : (rebasePass re base).run c₂ = (.ok (), c₃)) :
    Placed host re c c₃ base.toNat totsz.toNat := by
  have hend := hapart.endp_le
  have hspec := layoutPass_ok hapart.fits shnumBound 0 hwf (Nat.zero_le _)
    (by have := shnum_lt c.mem re; unfold shnumBound; omega)
    ⟨fun _ hj => absurd hj (Nat.not_lt_zero _), fun _ _ _ hk => absurd hk (Nat.not_lt_zero _)⟩
    (Nat.zero_le _) (by decide) hlayout
  have harena : c₁.arenaCode = c.arenaCode := by rw [hspec.state_eq]
  obtain ⟨hgrown, hmem, hle, hsum, -⟩ := memAllocCode_ok (harena ▸ hok)
    ((harena ▸ hend).trans (by decide))
    hspec.totsz_le hspec.totalign_le halloc hgood
  have hgrown₁ : Grown host c c₁ := by
    rw [hspec.state_eq]
    exact Grown.of_mem hok _
  have hwf₁ := hspec.sameMeta.wf hwf rfl rfl
  rw [← hmem] at hwf₁
  have hnum : shnum c₂.mem re = shnum c.mem re := by rw [hmem, hspec.sameMeta.shnum_eq]
  have hlaid := hspec.laid
  rw [← hmem, ← hnum] at hlaid
  have hbrk := hgrown.ok.brk_le
  have hbrkp := hgrown.ok.brkp_le
  rw [hgrown.endp_eq, harena] at hbrkp
  obtain ⟨hstate, hmeta, hagree, hlaid'⟩ :=
    rebasePass_ok hapart.fits hwf₁ hlaid (by omega) hrebase
  have hgrown₃ : Grown host c₂ c₃ := by
    rw [hstate]
    exact Grown.of_mem hgrown.ok _
  rw [harena] at hle
  refine ⟨(hgrown₁.trans hgrown).trans hgrown₃, ?_, ?_, ?_, hle, ?_⟩
  · rw [hmem] at hmeta
    exact hspec.sameMeta.trans hmeta
  · intro x hx
    rw [hagree x (by rw [hnum]; exact hx), hmem, hspec.agree x hx]
  · rw [hmeta.shnum_eq]
    exact hlaid'
  · rw [hsum, hstate]

omit hwf hok in
theorem Placed.apart (hplaced : Placed host re c c₃ lo totsz) : Apart re c₃ := by
  have hgrown := hplaced.grown
  refine ⟨hapart.fits, ?_, ?_⟩
  · rw [hgrown.start_eq, hgrown.endp_eq]
    exact hapart.sep
  · rw [hgrown.endp_eq]
    exact hapart.endp_le

omit hwf in
/-- Where the block of the object lies. -/
theorem Placed.bounds (hplaced : Placed host re c c₃ lo totsz) :
    (re.base.toNat + re.size.toNat ≤ lo ∨ lo + totsz ≤ re.base.toNat) ∧
      lo + totsz ≤ 2 ^ 47 := by
  have hgrown := hplaced.grown
  have hbrk := hgrown.ok.brk_le
  have hbrkp := hgrown.ok.brkp_le
  rw [hgrown.endp_eq] at hbrkp
  have hend := hapart.endp_le
  have hsep := hapart.sep
  have hle := hplaced.brk_le
  have heq := hplaced.brk_eq
  have hstart := hok.start_le
  omega

variable (hplaced : Placed host re c c₃ lo totsz)
include hplaced

/-- The field of a relocation of an allocated section in the arena. -/
theorem entryAddr_toNat {i k : ℕ} (he : IsEntry c₃.mem re i k)
    (halloc : (shdr c₃.mem re (relaTgt c₃.mem re i)).isAlloc) :
    (entryPatch c₃.mem re i k).patchAddr.toNat =
        (shdr c₃.mem re (relaTgt c₃.mem re i)).shAddr.toNat +
          (relaAt c₃.mem re i k).rOffset.toNat ∧
      lo ≤ (entryPatch c₃.mem re i k).patchAddr.toNat ∧
      (entryPatch c₃.mem re i k).patchAddr.toNat + entrySize c₃.mem re i k ≤ lo + totsz := by
  have hwf₃ := hplaced.sameMeta.wf hwf rfl rfl
  have hbounds := hplaced.bounds hapart hok
  obtain ⟨hlt, -, -⟩ := hwf₃.rela_target i he.lt he.type_eq
  have hfield := hwf₃.rela_field i he.lt he.type_eq k he.count
  have hpos := entrySize_pos c₃.mem re i k
  have hin := hplaced.laid.inside _ hlt halloc
  change _ + entrySize c₃.mem re i k ≤
    (shdr c₃.mem re (relaTgt c₃.mem re i)).shSize.toNat at hfield
  have hsum : (entryPatch c₃.mem re i k).patchAddr.toNat =
      (shdr c₃.mem re (relaTgt c₃.mem re i)).shAddr.toNat +
        (relaAt c₃.mem re i k).rOffset.toNat := by
    change ((shdr c₃.mem re (relaTgt c₃.mem re i)).shAddr +
      (relaAt c₃.mem re i k).rOffset).toNat = _
    rw [BitVec.toNat_add]
    unfold relaTgt at *
    omega
  unfold relaTgt at *
  omega

theorem patchAddr_toNat {i k : ℕ} (hsite : IsSite c₃.mem re i k) :
    (entryPatch c₃.mem re i k).patchAddr.toNat =
        (shdr c₃.mem re (relaTgt c₃.mem re i)).shAddr.toNat +
          (relaAt c₃.mem re i k).rOffset.toNat ∧
      lo ≤ (entryPatch c₃.mem re i k).patchAddr.toNat ∧
      (entryPatch c₃.mem re i k).patchAddr.toNat + entrySize c₃.mem re i k ≤ lo + totsz :=
  entryAddr_toNat hwf hapart hok hplaced hsite.toIsEntry
    ((hplaced.sameMeta.wf hwf rfl rfl).isAlloc_of_site hsite)

/-- Fields of different relocations do not overlap in the arena either. -/
theorem patchAddr_disjoint {i k j l : ℕ} (hs : IsSite c₃.mem re i k)
    (hs' : IsSite c₃.mem re j l) (hne : ¬(i = j ∧ k = l)) :
    RangeDisjoint (entryPatch c₃.mem re i k).patchAddr.toNat (entrySize c₃.mem re i k)
      (entryPatch c₃.mem re j l).patchAddr.toNat (entrySize c₃.mem re j l) := by
  have hwf₃ := hplaced.sameMeta.wf hwf rfl rfl
  obtain ⟨hi, -, -⟩ := patchAddr_toNat hwf hapart hok hplaced hs
  obtain ⟨hj, -, -⟩ := patchAddr_toNat hwf hapart hok hplaced hs'
  have hdisj := field_disjoint hwf₃ hs.toIsEntry hs'.toIsEntry hne
  have hbi := fieldOff_bounds hwf₃ hs.toIsEntry
  have hbj := fieldOff_bounds hwf₃ hs'.toIsEntry
  unfold RangeDisjoint
  by_cases htgt : relaTgt c₃.mem re i = relaTgt c₃.mem re j
  · unfold fieldOff at hdisj
    rw [hi, hj, htgt]
    rw [htgt] at hdisj
    omega
  · obtain ⟨hlt, -, -⟩ := hwf₃.rela_target i hs.lt hs.type_eq
    obtain ⟨hlt', -, -⟩ := hwf₃.rela_target j hs'.lt hs'.type_eq
    have hai := hwf₃.isAlloc_of_site hs
    have haj := hwf₃.isAlloc_of_site hs'
    unfold fieldOff at hbi hbj
    rcases Nat.lt_or_gt_of_ne htgt with h | h
    · have := hplaced.laid.ordered _ _ h hlt' hai haj
      unfold relaTgt at *
      omega
    · have := hplaced.laid.ordered _ _ h hlt haj hai
      unfold relaTgt at *
      omega

variable (hreloc : RelocInv host re c₃ (IsEntry c₃.mem re) c₄)
include hreloc

omit hok in
theorem sameObject_reloc : SameObject re c₃.mem c₄.mem where
  sameMeta := hreloc.sameMeta (hplaced.sameMeta.wf hwf rfl rfl)
    (hplaced.apart hapart) hplaced.grown.ok (fun _ _ h => h)
  shdr_eq := fun _ hi => hreloc.shdr_eq (hplaced.sameMeta.wf hwf rfl rfl)
    (hplaced.apart hapart) hplaced.grown.ok (fun _ _ h => h) hi

theorem copied_of_passes (hrun : (copyPass re).run c₄ = (.ok (), c₅)) :
    CopyInv re lo totsz c₄ (shnum c₄.mem re) c₅ := by
  have hsame := sameObject_reloc hwf hapart hplaced hreloc
  have hwf₄ := hsame.sameMeta.wf (hplaced.sameMeta.wf hwf rfl rfl) rfl rfl
  obtain ⟨hsep, hbound⟩ := hplaced.bounds hapart hok
  have hlaid : Laid c₄.mem re (shnum c₄.mem re) lo totsz := by
    rw [hsame.sameMeta.shnum_eq]
    exact hsame.laid (Nat.le_refl _) hplaced.laid
  exact copyPass_ok hwf₄ hapart.fits hlaid hsep (by omega) hrun

variable (hcopy : CopyInv re lo totsz c₄ (shnum c₄.mem re) c₅)
include hcopy

theorem sameObject_copy : SameObject re c₄.mem c₅.mem := by
  have hsame := sameObject_reloc hwf hapart hplaced hreloc
  have hwf₄ := hsame.sameMeta.wf (hplaced.sameMeta.wf hwf rfl rfl) rfl rfl
  exact hcopy.sameObject hwf₄ hapart.fits (hplaced.bounds hapart hok).1

omit hok in
/-- The bytes of a section are copied. -/
theorem section_copied {j : ℕ} (hj : j < shnum c₃.mem re)
    (htype : (shdr c₃.mem re j).shType = SHT_PROGBITS) {d : ℕ}
    (hd : d < (shdr c₃.mem re j).shSize.toNat) :
    c₅.mem ((shdr c₃.mem re j).shAddr + BitVec.ofNat 64 d) =
      c₄.mem (re.base + (shdr c₃.mem re j).shOffset + BitVec.ofNat 64 d) := by
  have hsame := sameObject_reloc hwf hapart hplaced hreloc
  have hcopied := hcopy.copied j (by rw [hsame.sameMeta.shnum_eq]; exact hj)
  rw [hsame.shdr_eq j hj] at hcopied
  exact hcopied htype d hd

omit hok in
/-- The relocated field is copied with its section. -/
theorem field_copied {i k : ℕ} (hsite : IsSite c₃.mem re i k) {d : ℕ}
    (hd : d < entrySize c₃.mem re i k) :
    c₅.mem ((entryPatch c₃.mem re i k).patchAddr + BitVec.ofNat 64 d) =
      c₄.mem (fieldLoc c₃.mem re i k + BitVec.ofNat 64 d) := by
  have hwf₃ := hplaced.sameMeta.wf hwf rfl rfl
  obtain ⟨hlt, -, -⟩ := hwf₃.rela_target i hsite.lt hsite.type_eq
  have hfield := hwf₃.rela_field i hsite.lt hsite.type_eq k hsite.count
  change _ + entrySize c₃.mem re i k ≤
    (shdr c₃.mem re (relaTgt c₃.mem re i)).shSize.toNat at hfield
  have hcopied := section_copied hwf hapart hplaced hreloc hcopy (j := relaTgt c₃.mem re i) hlt
    hsite.progbits (d := (relaAt c₃.mem re i k).rOffset.toNat + d) (by omega)
  rw [BitVec.ofNat_add, BitVec.ofNat_toNat, BitVec.setWidth_eq, ← BitVec.add_assoc,
    ← BitVec.add_assoc] at hcopied
  have hloc : fieldLoc c₃.mem re i k =
      re.base + (shdr c₃.mem re (relaTgt c₃.mem re i)).shOffset +
        (relaAt c₃.mem re i k).rOffset := by
    rw [fieldLoc, fieldOff, BitVec.ofNat_add, BitVec.ofNat_toNat, BitVec.ofNat_toNat,
      BitVec.setWidth_eq, BitVec.setWidth_eq, BitVec.add_assoc]
  rw [hloc]
  exact hcopied

omit hok hreloc hcopy in
/-- The first passes change the section headers only. -/
theorem content_placed {j : ℕ} (hj : j < shnum c.mem re) (hcontent : (shdr c.mem re j).hasContent)
    {o : ℕ} (hlo : (shdr c.mem re j).shOffset.toNat ≤ o)
    (hhi : o < (shdr c.mem re j).shOffset.toNat + (shdr c.mem re j).shSize.toNat) :
    c₃.mem (re.base + BitVec.ofNat 64 o) = c.mem (re.base + BitVec.ofNat 64 o) := by
  have hdisj := (hwf.content_header j hj hcontent).2
  have hle := hwf.content_le j hj hcontent
  have htable := hwf.table_le
  have hfits := hapart.fits
  unfold RtldElf.Fits at hfits
  unfold RangeDisjoint at hdisj
  apply hplaced.agree
  rw [inRange_offset (by omega) (by omega)]
  omega

omit hok in
/-- A byte of a section outside its fields is the one of the file. -/
theorem section_off_fields {j : ℕ} (hj : j < shnum c.mem re)
    (htype : (shdr c.mem re j).shType = SHT_PROGBITS) {d : ℕ}
    (hd : d < (shdr c.mem re j).shSize.toNat) (hoff : OffFields c.mem re j d) :
    c₅.mem ((shdr c₃.mem re j).shAddr + BitVec.ofNat 64 d) =
      c.mem (re.base + (shdr c.mem re j).shOffset + BitVec.ofNat 64 d) := by
  have hmeta := hplaced.sameMeta
  have hwf₃ := hmeta.wf hwf rfl rfl
  have hj₃ : j < shnum c₃.mem re := hmeta.shnum_eq.symm ▸ hj
  have hcontent : (shdr c.mem re j).hasContent := by
    simp [Shdr.hasContent, htype, SHT_PROGBITS, SHT_NOBITS]
  have hle := hwf.content_le j hj hcontent
  have hsum : re.base + (shdr c.mem re j).shOffset + BitVec.ofNat 64 d =
      re.base + BitVec.ofNat 64 ((shdr c.mem re j).shOffset.toNat + d) := by
    rw [BitVec.ofNat_add, BitVec.ofNat_toNat, BitVec.setWidth_eq, BitVec.add_assoc]
  rw [section_copied hwf hapart hplaced hreloc hcopy hj₃ (by rw [hmeta.type_eq hj, htype])
    (by rw [hmeta.size_eq hj]; exact hd), hmeta.offset_eq hj, hsum,
    hreloc.buffer_eq hwf₃ (hplaced.apart hapart) hplaced.grown.ok (fun _ _ h => h) (by omega) ?_,
    content_placed hwf hapart hplaced hj hcontent (by omega) (by omega)]
  intro i k he
  have he₀ := hmeta.isEntry_iff.mp he
  obtain ⟨hlt, hc, -⟩ := hwf.rela_target i he₀.lt he₀.type_eq
  have htgt : relaTgt c.mem re i < shnum c.mem re := hlt
  have hb := fieldOff_bounds hwf₃ he
  rw [hmeta.relaTgt_eq he₀, hmeta.offset_eq htgt, hmeta.size_eq htgt] at hb
  by_cases heq : relaTgt c.mem re i = j
  · have hd' := hoff i k he₀ heq
    rw [fieldOff, hmeta.relaTgt_eq he₀, hmeta.relaAt_eq he₀, hmeta.offset_eq htgt, heq,
      hmeta.entrySize_eq he₀]
    omega
  · have hdisj := hwf.content_disjoint _ htgt j hj heq hc hcontent
    unfold RangeDisjoint at hdisj
    omega

omit hok in
/-- Memory outside the buffer and the newly used part of the arena. -/
theorem agree_of_passes (x : Word)
    (hx : x.toNat < re.base.toNat ∨ re.base.toNat + re.size.toNat ≤ x.toNat)
    (hbrk : c.arenaCode.brk.toNat ≤ x.toNat → c₄.arenaCode.brk.toNat ≤ x.toNat) :
    c₅.mem x = c.mem x := by
  have hwf₃ := hplaced.sameMeta.wf hwf rfl rfl
  have hapart₃ := hplaced.apart hapart
  have hle := hplaced.brk_le
  have heq := hplaced.brk_eq
  have hgrow := hreloc.grown.brk_le
  have hgrow₃ := hplaced.grown.brk_le
  rw [hcopy.agree x (by omega), hreloc.agree x ?_ (by omega), hplaced.agree x ?_]
  · have htable := hwf.table_le
    have hfits := hapart.fits
    unfold RtldElf.Fits at hfits
    have hbase : (re.base + BitVec.ofNat 64 (shoff re)).toNat = re.base.toNat + shoff re := by
      rw [BitVec.toNat_add, BitVec.toNat_ofNat]
      omega
    rw [inRange_iff (by omega), hbase]
    omega
  · intro i k he
    rw [inField_iff hwf₃ he hapart₃.fits]
    have := fieldOff_bounds hwf₃ he
    omega

/-- Fields are linked where their sections are copied to. -/
theorem fieldLinked_copied {i k : ℕ} (hsite : IsSite c₃.mem re i k) :
    ∃ src, entrySource host.arch c₃.mem re i k = some src ∧
      FieldLinked (loadEnv host re c c₅ (lo + totsz)) src (entryPatch c₃.mem re i k) c.mem
        (fieldLoc c.mem re i k) c₅ (entryPatch c₃.mem re i k).patchAddr := by
  have hmeta := hplaced.sameMeta
  have hwf₃ := hmeta.wf hwf rfl rfl
  have hsame := (sameObject_reloc hwf hapart hplaced hreloc).trans
    (sameObject_copy hwf hapart hok hplaced hreloc hcopy)
  have he₀ := hmeta.isEntry_iff.mp hsite.toIsEntry
  obtain ⟨htgt, hc, -⟩ := hwf.rela_target i he₀.lt he₀.type_eq
  have heq := hplaced.brk_eq
  have hplt : c₅.plt = c₄.plt := by rw [hcopy.state_eq]
  have hbrk : c₅.arenaCode = c₄.arenaCode := by rw [hcopy.state_eq]
  obtain ⟨src, hsrc, hlinked⟩ := hreloc.field i k hsite.toIsEntry
  have hfile : ∀ d < entrySize c₃.mem re i k, c.mem (fieldLoc c.mem re i k + BitVec.ofNat 64 d) =
      c₃.mem (fieldLoc c₃.mem re i k + BitVec.ofNat 64 d) := by
    intro d hd
    have hb := fieldOff_bounds hwf he₀
    rw [hmeta.entrySize_eq he₀] at hd
    rw [hmeta.fieldLoc_eq he₀ hwf, fieldLoc, BitVec.add_assoc, ← BitVec.ofNat_add]
    exact (content_placed hwf hapart hplaced htgt hc (by unfold relaTgt at hb; omega)
      (by unfold relaTgt at hb; omega)).symm
  refine ⟨src, hsrc, ((hlinked.frame hplt (by rw [hbrk]) ?_
    fun d hd => field_copied hwf hapart hplaced hreloc hcopy hsite hd).file hfile).env rfl
    hplaced.grown.objects_eq.symm hplaced.grown.plt_eq.symm rfl (Nat.le_of_eq heq) ?_⟩
  · intro x hlo _
    have hx : lo + totsz ≤ x.toNat := heq.trans_le hlo
    exact hcopy.agree x (by omega)
  · rintro idx value rfl
    exact congrArg Shdr.shAddr (hsame.shdr_eq idx (symSource_inSection hsrc))

theorem loadSpec_of_passes : LoadSpec host re c c₅ (lo + totsz) := by
  have hwf₃ := hplaced.sameMeta.wf hwf rfl rfl
  have hsame := (sameObject_reloc hwf hapart hplaced hreloc).trans
    (sameObject_copy hwf hapart hok hplaced hreloc hcopy)
  have harena : c₅.arenaCode = c₄.arenaCode := by rw [hcopy.state_eq]
  have hgrown : Grown host c c₅ := by
    refine (hplaced.grown.trans hreloc.grown).trans ?_
    rw [hcopy.state_eq]
    exact Grown.of_mem hreloc.grown.ok _
  have hsite : ∀ {i k}, IsSite c₅.mem re i k → IsSite c₃.mem re i k :=
    fun h => (hsame.sameMeta.isSite_iff hwf₃).mp h
  have hpatch : ∀ {i k}, IsSite c₅.mem re i k →
      entryPatch c₅.mem re i k = entryPatch c₃.mem re i k :=
    fun h => hsame.entryPatch_eq hwf₃ (hsite h).toIsEntry
  have hsize : ∀ {i k}, IsSite c₅.mem re i k →
      entrySize c₅.mem re i k = entrySize c₃.mem re i k :=
    fun h => hsame.sameMeta.entrySize_eq (hsite h).toIsEntry
  have hle := hplaced.brk_le
  have heq := hplaced.brk_eq
  have hgrow := hreloc.grown.brk_le
  refine
    { state_eq := ?_
      ok := hgrown.ok
      start_eq := hgrown.start_eq
      endp_eq := hgrown.endp_eq
      le_mid := by omega
      mid_le := by rw [harena]; omega
      sameMeta := hplaced.sameMeta.trans hsame.sameMeta
      agree := fun x hx hbrk =>
        agree_of_passes hwf hapart hplaced hreloc hcopy x hx (harena ▸ hbrk)
      inside := ?_
      copied := ?_
      linked := ?_
      disjoint := ?_ }
  · exact hgrown.state_eq.trans (by rw [hgrown.objects_eq])
  · intro i k h
    have := patchAddr_toNat hwf hapart hok hplaced (hsite h)
    rw [hpatch h, hsize h]
    omega
  · intro j hj htype d hd hoff
    rw [hsame.shdr_eq j (hplaced.sameMeta.shnum_eq.symm ▸ hj)]
    exact section_off_fields hwf hapart hplaced hreloc hcopy hj htype hd hoff
  · intro i k h
    rw [hsame.sameMeta.entrySource_eq (hsite h).toIsEntry hwf₃, hpatch h]
    exact fieldLinked_copied hwf hapart hok hplaced hreloc hcopy (hsite h)
  · intro i k j l h h' hne
    rw [hpatch h, hpatch h', hsize h, hsize h']
    exact patchAddr_disjoint hwf hapart hok hplaced (hsite h) (hsite h') hne

end Load

/-- The last pass does not touch what the others did. -/
theorem LoadSpec.onlyObjects {host : Host} {re : RtldElf} {c c₅ c' : State} {mid : ℕ}
    (h : LoadSpec host re c c₅ mid) (hreg : OnlyObjects c₅ c') :
    LoadSpec host re c c' mid := by
  unfold OnlyObjects at hreg
  generalize c'.objects = objects at hreg
  subst hreg
  refine
    { h with
      state_eq := by rw [h.state_eq]
      linked := ?_ }
  intro i k hs
  obtain ⟨src, hsrc, hlinked⟩ := h.linked i k hs
  refine ⟨src, hsrc, FieldLinked.frame ?_ ?_ ?_ hlinked ?_⟩
  · rfl
  · exact Nat.le_refl _
  · exact fun _ _ _ => rfl
  · exact fun _ _ => rfl

/-- The specification of `rtld_add_object`. -/
theorem rtldAddObject_ok {host : Host} {re : RtldElf} {objBase objSize skew : Word}
    {c c' : State} (hwf : ObjectWf c.mem re) (hapart : Apart re c)
    (hok : c.arenaCode.Ok host.pageBits)
    (hinit : rtldElfInit host c.mem objBase objSize skew = .ok re)
    (hrun : (rtldAddObject host objBase objSize skew).run c = (.ok (), c')) :
    ∃ mid, LoadSpec host re c c' mid ∧
      ∃ c₅, c₅.mem = c'.mem ∧ c₅.objects = c.objects ∧
        (registerPass re shnumBound 0).run c₅ = (.ok (), c') := by
  obtain ⟨re', totsz, totalign, base, c₁, c₂, c₃, c₄, c₅, hinit', hlayout, halloc, hgood,
    hrebase, hrelocRun, hcopyRun, hregRun⟩ := rtldAddObject_passes hrun
  rw [hinit] at hinit'
  obtain rfl := Except.ok.inj hinit'
  have hplaced := placed_of_passes hwf hapart hok hlayout halloc hgood hrebase
  have hwf₃ := hplaced.sameMeta.wf hwf rfl rfl
  have hreloc :=
    relocPass_ok hwf₃ (hplaced.apart hapart) hplaced.grown.ok hrelocRun
  have hcopy := copied_of_passes hwf hapart hok hplaced hreloc hcopyRun
  have hreg : OnlyObjects c₅ c' := (onlyObjects_tableFrame.registerPass _ _ _).of_run hregRun
  refine ⟨_, (loadSpec_of_passes hwf hapart hok hplaced hreloc hcopy).onlyObjects hreg,
    c₅, ?_, ?_, hregRun⟩
  · rw [hreg]
  · rw [hcopy.state_eq]
    exact hreloc.grown.objects_eq.trans hplaced.grown.objects_eq

end PollyInstrew.Client
