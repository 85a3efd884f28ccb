import PollyInstrew.Client.ObjectMeta

/-!
# Section layout

The first pass of `rtld_add_object` writes an offset into the address field of
every allocated section, the loop after the allocation adds the base address.
Both change no other part of the metadata.
-/

namespace PollyInstrew.Client

open PollyInstrew.ByteMemory PollyInstrew.StateExcept

/-- The object lies in memory without wrapping around. -/
def RtldElf.Fits (re : RtldElf) : Prop := re.base.toNat + re.size.toNat ≤ 2 ^ 63

/-- Outside the section headers the memories agree. -/
def AgreeOffTable (m : Mem) (re : RtldElf) (m' : Mem) : Prop :=
  ∀ x, ¬InRange (re.base + BitVec.ofNat 64 (shoff re)) (shdrSize * shnum m re) x →
    m' x = m x

theorem MetaOff.lt_size {m : Mem} {re : RtldElf} (hwf : ObjectWf m re) {o : ℕ}
    (ho : MetaOff m re o) : o < re.size.toNat := by
  have hge := hwf.table_ge
  have hle := hwf.table_le
  cases ho with
  | ehdr ho => omega
  | @table i d hi hd =>
      have : shdrSize * (i + 1) ≤ shdrSize * shnum m re := Nat.mul_le_mul_left _ hi
      simp only [shdrSize] at *
      omega
  | @content i o hi hmeta hlo hhi =>
      have := hwf.content_le i hi (Shdr.hasContent_of_isMeta hmeta)
      omega

section SetShAddr

variable {m : Mem} {re : RtldElf} (hwf : ObjectWf m re) (hfits : re.Fits)
  {i : ℕ} (hi : i < shnum m re) (v : Word)
include hwf hfits hi

theorem store_shAddr_off {o : ℕ} (ho : o < re.size.toNat)
    (hout : o < shoff re + shdrSize * i + 16 ∨ shoff re + shdrSize * i + 24 ≤ o) :
    store 64 m (shdrAddr re i + 16) v (re.base + BitVec.ofNat 64 o) =
      m (re.base + BitVec.ofNat 64 o) := by
  have hle := hwf.table_le
  have hmul : shdrSize * (i + 1) ≤ shdrSize * shnum m re := Nat.mul_le_mul_left _ hi
  simp only [RtldElf.Fits, shdrSize] at *
  apply store_of_not_inRange
  have haddr : shdrAddr re i + 16 =
      re.base + BitVec.ofNat 64 (shoff re + shdrSize * i + 16) :=
    shdrAddr_add re i 16
  rw [haddr, inRange_offset (by simp only [shdrSize]; omega) (by omega)]
  simp only [shdrSize]
  omega

theorem store_shAddr_sameMeta :
    SameMeta m re (store 64 m (shdrAddr re i + 16) v) re := by
  have hge := hwf.table_ge
  have hmul : shdrSize * (i + 1) ≤ shdrSize * shnum m re := Nat.mul_le_mul_left _ hi
  apply sameMeta_of_agree rfl
  intro o ho
  apply store_shAddr_off hwf hfits hi v (ho.lt_size hwf)
  cases ho with
  | ehdr ho => omega
  | @table j d hj hd =>
      simp only [shdrSize]
      omega
  | @content j o hj hmeta hlo hhi =>
      have hdisj := (hwf.content_header j hj (Shdr.hasContent_of_isMeta hmeta)).2
      simp only [RangeDisjoint, shdrSize] at *
      omega

theorem store_shAddr_shAddr (j : ℕ) (hj : j < shnum m re) :
    (shdr (store 64 m (shdrAddr re i + 16) v) re j).shAddr =
      if j = i then v else (shdr m re j).shAddr := by
  have hle := hwf.table_le
  have hmul : shdrSize * (j + 1) ≤ shdrSize * shnum m re := Nat.mul_le_mul_left _ hj
  by_cases hji : j = i
  · subst hji
    rw [if_pos rfl]
    exact load_store_64 m _ v
  · rw [if_neg hji]
    refine load_add_congr (w := 64) 16 fun d hge hlt => ?_
    rw [shdrAddr_add]
    apply store_shAddr_off hwf hfits hi v
    · simp only [shdrSize] at *
      omega
    · simp only [shdrSize]
      omega

theorem store_shAddr_agree : AgreeOffTable m re (store 64 m (shdrAddr re i + 16) v) := by
  intro x hx
  apply store_of_not_inRange
  intro hin
  apply hx
  have hle := hwf.table_le
  have hmul : shdrSize * (i + 1) ≤ shdrSize * shnum m re := Nat.mul_le_mul_left _ hi
  have haddr : shdrAddr re i + 16 =
      re.base + BitVec.ofNat 64 (shoff re + shdrSize * i + 16) :=
    shdrAddr_add re i 16
  obtain ⟨d, hd, rfl⟩ := exists_of_inRange hin
  simp only [RtldElf.Fits, shdrSize] at *
  rw [haddr, BitVec.add_assoc, ← BitVec.ofNat_add, inRange_offset (by omega) (by omega)]
  omega

end SetShAddr

theorem AgreeOffTable.trans {m m' m'' : Mem} {re : RtldElf} (h : AgreeOffTable m re m')
    (h' : AgreeOffTable m' re m'') (hnum : shnum m' re = shnum m re) :
    AgreeOffTable m re m'' := by
  intro x hx
  rw [h' x (by rwa [hnum]), h x hx]

/-- The allocated sections before `i` lie one after another in the `totsz` bytes
from `lo` on. -/
structure Laid (m : Mem) (re : RtldElf) (i lo totsz : ℕ) : Prop where
  inside : ∀ j < i, (shdr m re j).isAlloc → lo ≤ (shdr m re j).shAddr.toNat ∧
    (shdr m re j).shAddr.toNat + (shdr m re j).shSize.toNat ≤ lo + totsz
  ordered : ∀ j k, j < k → k < i → (shdr m re j).isAlloc → (shdr m re k).isAlloc →
    (shdr m re j).shAddr.toNat + (shdr m re j).shSize.toNat ≤ (shdr m re k).shAddr.toNat

/-- What the first pass does to memory. -/
structure LayoutSpec (c c' : State) (re : RtldElf) (totsz totalign : Word) : Prop where
  state_eq : c' = { c with mem := c'.mem }
  sameMeta : SameMeta c.mem re c'.mem re
  agree : AgreeOffTable c.mem re c'.mem
  laid : Laid c'.mem re (shnum c.mem re) 0 totsz.toNat
  totsz_le : totsz.toNat ≤ 2 ^ 60
  totalign_le : totalign.toNat ≤ 2 ^ 60

/-- Placing one more section at the next aligned offset. -/
theorem Laid.step {m : Mem} {re : RtldElf} (hwf : ObjectWf m re) (hfits : re.Fits)
    {i : ℕ} (hi : i < shnum m re) {totsz off : Word} (hlaid : Laid m re i 0 totsz.toNat)
    (hle : totsz.toNat ≤ off.toNat) :
    Laid (store 64 m (shdrAddr re i + 16) off) re (i + 1) 0
      (off.toNat + (shdr m re i).shSize.toNat) := by
  have hmeta := store_shAddr_sameMeta hwf hfits hi off
  have haddr := store_shAddr_shAddr hwf hfits hi off
  constructor
  · intro j hj halloc
    have hjn : j < shnum m re := by omega
    rw [hmeta.isAlloc_eq hjn] at halloc
    rw [haddr j hjn, hmeta.size_eq hjn]
    by_cases hji : j = i
    · rw [if_pos hji, hji]
      omega
    · rw [if_neg hji]
      have := hlaid.inside j (by omega) halloc
      omega
  · intro j k hjk hk hja hka
    have hjn : j < shnum m re := by omega
    have hkn : k < shnum m re := by omega
    rw [hmeta.isAlloc_eq hjn] at hja
    rw [hmeta.isAlloc_eq hkn] at hka
    rw [haddr j hjn, haddr k hkn, hmeta.size_eq hjn, if_neg (by omega)]
    by_cases hki : k = i
    · rw [if_pos hki]
      have := hlaid.inside j (by omega) hja
      omega
    · rw [if_neg hki]
      exact hlaid.ordered j k hjk (by omega) hja hka

theorem Laid.skip {m : Mem} {re : RtldElf} {i lo totsz : ℕ} (hlaid : Laid m re i lo totsz)
    (hna : ¬(shdr m re i).isAlloc) : Laid m re (i + 1) lo totsz := by
  constructor
  · intro j hj halloc
    have hji : j ≠ i := by
      rintro rfl
      exact hna halloc
    exact hlaid.inside j (by omega) halloc
  · intro j k hjk hk hja hka
    have hki : k ≠ i := by
      rintro rfl
      exact hna hka
    exact hlaid.ordered j k hjk (by omega) hja hka

theorem layoutRoom_mono {m : Mem} {re : RtldElf} {i j : ℕ} (hij : i ≤ j) :
    layoutRoom m re i ≤ layoutRoom m re j := by
  induction hij with
  | refl => exact Nat.le_refl _
  | step _ ih => exact ih.trans (Nat.le_add_right _ _)

/-- The offset of an allocated section and the room it takes. -/
theorem alignUp_layout {m : Mem} {re : RtldElf} (hwf : ObjectWf m re) {i : ℕ}
    (hi : i < shnum m re) (halloc : (shdr m re i).isAlloc) {totsz : Word}
    (hroom : totsz.toNat ≤ layoutRoom m re i) :
    totsz.toNat ≤ (alignUp totsz (shdr m re i).shAddralign).toNat ∧
      (alignUp totsz (shdr m re i).shAddralign).toNat + (shdr m re i).shSize.toNat ≤
        layoutRoom m re (i + 1) ∧
      (shdr m re i).shAddralign.toNat ≤ 2 ^ 60 := by
  obtain ⟨k, hk, hpow⟩ := hwf.align i hi halloc
  have hsum : layoutRoom m re (i + 1) = layoutRoom m re i +
      ((shdr m re i).shSize.toNat + (shdr m re i).shAddralign.toNat) := by
    rw [layoutRoom, if_pos halloc]
  have hle : layoutRoom m re (i + 1) ≤ 2 ^ 60 := (layoutRoom_mono hi).trans hwf.room
  have h60 : (2 : ℕ) ^ k ≤ 2 ^ 60 := Nat.pow_le_pow_right (by decide) (by omega)
  obtain ⟨hge, hlt, -⟩ := alignUp_spec hpow (x := totsz) (by omega)
  refine ⟨hge, ?_, ?_⟩
  · rw [hsum]
    omega
  · rw [hpow]
    exact h60

theorem layoutPass_ok {re : RtldElf} (hfits : re.Fits) :
    ∀ (fuel i : ℕ) {totsz totalign totsz' totalign' : Word} {c c' : State},
      ObjectWf c.mem re → i ≤ shnum c.mem re → shnum c.mem re ≤ i + fuel →
      Laid c.mem re i 0 totsz.toNat → totsz.toNat ≤ layoutRoom c.mem re i →
      totalign.toNat ≤ 2 ^ 60 →
      (layoutPass re fuel i totsz totalign).run c = (.ok (totsz', totalign'), c') →
      LayoutSpec c c' re totsz' totalign' := by
  intro fuel
  have hdone : ∀ {i : ℕ} {totsz totalign : Word} {c : State}, ObjectWf c.mem re →
      i = shnum c.mem re → Laid c.mem re i 0 totsz.toNat →
      totsz.toNat ≤ layoutRoom c.mem re i → totalign.toNat ≤ 2 ^ 60 →
      LayoutSpec c c re totsz totalign := by
    intro i totsz totalign c hwf hi hlaid hroom halign
    subst hi
    exact ⟨rfl, SameMeta.refl _ _, fun _ _ => rfl, hlaid, hroom.trans hwf.room, halign⟩
  induction fuel with
  | zero =>
      intro i totsz totalign totsz' totalign' c c' hwf hi hfuel hlaid hroom halign hrun
      simp only [layoutPass, Prog.run_pure, Prod.mk.injEq, Except.ok.injEq] at hrun
      obtain ⟨⟨rfl, rfl⟩, rfl⟩ := hrun
      exact hdone hwf (by omega) hlaid hroom halign
  | succ fuel ih =>
      intro i totsz totalign totsz' totalign' c c' hwf hi hfuel hlaid hroom halign hrun
      rw [layoutPass, Prog.run_bind, run_getMem] at hrun
      dsimp only at hrun
      by_cases hlt : i < shnum c.mem re
      swap
      · rw [if_neg hlt] at hrun
        simp only [Prog.run_pure, Prod.mk.injEq, Except.ok.injEq] at hrun
        obtain ⟨⟨rfl, rfl⟩, rfl⟩ := hrun
        exact hdone hwf (by omega) hlaid hroom halign
      rw [if_pos hlt] at hrun
      split at hrun
      · simp at hrun
      by_cases halloc : (shdr c.mem re i).isAlloc
      swap
      · rw [if_neg halloc] at hrun
        refine ih (i + 1) hwf hlt (by omega) (hlaid.skip halloc) ?_ halign hrun
        exact hroom.trans (layoutRoom_mono (Nat.le_succ i))
      rw [if_pos halloc, Prog.run_bind, setShAddr, run_setMem] at hrun
      dsimp only at hrun
      rw [Prog.run_bind, run_getMem] at hrun
      dsimp only at hrun
      obtain ⟨hge, hnext, hal⟩ := alignUp_layout hwf hlt halloc hroom
      have hmeta := store_shAddr_sameMeta hwf hfits hlt
        (alignUp totsz (shdr c.mem re i).shAddralign)
      have hagree := store_shAddr_agree hwf hfits hlt
        (alignUp totsz (shdr c.mem re i).shAddralign)
      have hstep := hlaid.step hwf hfits hlt hge
      generalize hoff : alignUp totsz (shdr c.mem re i).shAddralign = off at *
      have hle : layoutRoom c.mem re (i + 1) ≤ 2 ^ 60 :=
        (layoutRoom_mono hlt).trans hwf.room
      have hsum : (off + (shdr c.mem re i).shSize).toNat =
          off.toNat + (shdr c.mem re i).shSize.toNat := by
        rw [BitVec.toNat_add]
        omega
      rw [hmeta.size_eq hlt, hmeta.addralign_eq hlt] at hrun
      have halign' : (if totalign < (shdr c.mem re i).shAddralign then
          (shdr c.mem re i).shAddralign else totalign).toNat ≤ 2 ^ 60 := by
        split
        · exact hal
        · exact halign
      have hspec := ih (i + 1) (c := { c with mem := store 64 c.mem (shdrAddr re i + 16) off })
        (hmeta.wf hwf rfl rfl)
        (by rw [hmeta.shnum_eq]; omega) (by rw [hmeta.shnum_eq]; omega)
        (by rw [hsum]; exact hstep)
        (by rw [hsum, hmeta.layoutRoom_eq hlt]; exact hnext)
        halign' hrun
      refine ⟨?_, hmeta.trans hspec.sameMeta, hagree.trans hspec.agree hmeta.shnum_eq,
        hmeta.shnum_eq ▸ hspec.laid, hspec.totsz_le, hspec.totalign_le⟩
      rw [hspec.state_eq]

/-- Between two iterations of the loop after the allocation: the sections before
`j` have been moved by `base`. -/
structure RebaseInv (re : RtldElf) (base : Word) (c : State) (j : ℕ) (t : State) :
    Prop where
  state_eq : t = { c with mem := t.mem }
  sameMeta : SameMeta c.mem re t.mem re
  agree : AgreeOffTable c.mem re t.mem
  addr_eq : ∀ l < shnum c.mem re, (shdr t.mem re l).shAddr =
    if l < j ∧ (shdr c.mem re l).isAlloc then (shdr c.mem re l).shAddr + base
    else (shdr c.mem re l).shAddr

theorem RebaseInv.step {re : RtldElf} (hfits : re.Fits) {base : Word} {c t t' : State}
    (hwf : ObjectWf c.mem re) {j : ℕ} (hj : j < shnum c.mem re)
    (h : RebaseInv re base c j t)
    (hbody : (do
      let m ← getMem
      let s := shdr m re j
      if s.isAlloc then setShAddr re j (s.shAddr + base) : ClientM Unit).run t =
        (.ok (), t')) :
    RebaseInv re base c (j + 1) t' := by
  obtain ⟨hstate, hmeta, hagree, haddr⟩ := h
  rw [Prog.run_bind, run_getMem] at hbody
  dsimp only at hbody
  have haddrj : (shdr t.mem re j).shAddr = (shdr c.mem re j).shAddr := by
    rw [haddr j hj, if_neg (by omega)]
  rw [hmeta.isAlloc_eq hj, haddrj] at hbody
  have hj' : j < shnum t.mem re := hmeta.shnum_eq ▸ hj
  have hwf' := hmeta.wf hwf rfl rfl
  by_cases halloc : (shdr c.mem re j).isAlloc
  · rw [if_pos halloc, setShAddr, run_setMem] at hbody
    obtain ⟨-, rfl⟩ := Prod.mk.inj hbody
    have hmeta' := store_shAddr_sameMeta hwf' hfits hj' ((shdr c.mem re j).shAddr + base)
    have hagree' := store_shAddr_agree hwf' hfits hj' ((shdr c.mem re j).shAddr + base)
    refine ⟨by rw [hstate], hmeta.trans hmeta', hagree.trans hagree' hmeta.shnum_eq, ?_⟩
    intro l hl
    have hl' : l < shnum t.mem re := hmeta.shnum_eq ▸ hl
    dsimp only
    rw [store_shAddr_shAddr hwf' hfits hj' _ l hl', haddr l hl]
    by_cases hlj : l = j
    · subst hlj
      rw [if_pos rfl, if_pos ⟨by omega, halloc⟩]
    · rw [if_neg hlj]
      have hiff : l < j + 1 ↔ l < j := by omega
      simp only [hiff]
  · rw [if_neg halloc] at hbody
    obtain ⟨-, rfl⟩ := Prod.mk.inj hbody
    refine ⟨hstate, hmeta, hagree, ?_⟩
    intro l hl
    rw [haddr l hl]
    by_cases hlj : l = j
    · subst hlj
      simp [halloc]
    · have hiff : l < j + 1 ↔ l < j := by omega
      simp only [hiff]

/-- The loop after the allocation moves the layout to the base address. -/
theorem rebasePass_ok {re : RtldElf} (hfits : re.Fits) {base totsz : Word}
    {c c' : State} (hwf : ObjectWf c.mem re)
    (hlaid : Laid c.mem re (shnum c.mem re) 0 totsz.toNat)
    (hbase : base.toNat + totsz.toNat < 2 ^ 64)
    (hrun : (rebasePass re base).run c = (.ok (), c')) :
    c' = { c with mem := c'.mem } ∧ SameMeta c.mem re c'.mem re ∧
      AgreeOffTable c.mem re c'.mem ∧
      Laid c'.mem re (shnum c.mem re) base.toNat totsz.toNat := by
  obtain ⟨hstate, hmeta, hagree, haddr⟩ : RebaseInv re base c (shnum c.mem re) c' :=
    forSections_ok (shnum_lt _ _) (fun _ _ h => h.sameMeta.shnum_eq)
      (fun _ _ _ hj h hbody => h.step hfits hwf hj hbody)
      ⟨rfl, SameMeta.refl _ _, fun _ _ => rfl, by simp⟩ hrun
  refine ⟨hstate, hmeta, hagree, ?_⟩
  have haddr' : ∀ l < shnum c.mem re, (shdr c.mem re l).isAlloc →
      (shdr c'.mem re l).shAddr.toNat = (shdr c.mem re l).shAddr.toNat + base.toNat := by
    intro l hl halloc
    have hin := hlaid.inside l hl halloc
    rw [haddr l hl, if_pos ⟨hl, halloc⟩, BitVec.toNat_add]
    omega
  constructor
  · intro j hj halloc
    rw [hmeta.isAlloc_eq hj] at halloc
    have hin := hlaid.inside j hj halloc
    rw [haddr' j hj halloc, hmeta.size_eq hj]
    omega
  · intro j k hjk hk hja hka
    have hj : j < shnum c.mem re := by omega
    rw [hmeta.isAlloc_eq hj] at hja
    rw [hmeta.isAlloc_eq hk] at hka
    have := hlaid.ordered j k hjk hk hja hka
    rw [haddr' j hj hja, haddr' k hk hka, hmeta.size_eq hj]
    omega

end PollyInstrew.Client
