import PollyInstrew.Client.Layout
import PollyInstrew.Client.LinkedField

/-!
# The relocation pass

While `rtld_add_object` relocates, it writes the relocated fields in the
receive buffer and new stubs and veneers in the code arena, nothing else.
After the pass every field is linked; a field that refers to a guest address
without an entry is linked to a stub of its own.
-/

namespace PollyInstrew.Client

open PollyInstrew.ByteMemory PollyInstrew.StateExcept

/-! ## Relocation entries -/

/-- Target section of the relocations of section `i`. -/
def relaTgt (m : Mem) (re : RtldElf) (i : ℕ) : ℕ := (shdr m re i).shInfo.toNat

/-- File offset of the field of relocation `k` of section `i`. -/
def fieldOff (m : Mem) (re : RtldElf) (i k : ℕ) : ℕ :=
  (shdr m re (relaTgt m re i)).shOffset.toNat + (relaAt m re i k).rOffset.toNat

/-- Where the field lies in the receive buffer. -/
def fieldLoc (m : Mem) (re : RtldElf) (i k : ℕ) : Word :=
  re.base + BitVec.ofNat 64 (fieldOff m re i k)

/-- Patch data of the relocation, without the guest address. -/
def entryPatch (m : Mem) (re : RtldElf) (i k : ℕ) : RtldPatchData :=
  relaPatchData (relaAt m re i k) (shdr m re (relaTgt m re i))

/-- The guest address the relocation refers to, if any. -/
def entryRef (m : Mem) (re : RtldElf) (i k : ℕ) : Option Word :=
  guestRef m re (shdr m re i).shLink.toNat ((relaAt m re i k).rInfo >>> 32).toNat

/-- What the symbol of the relocation stands for. -/
def entrySource (arch : Arch) (m : Mem) (re : RtldElf) (i k : ℕ) : Option SymSource :=
  symSource arch m re (shdr m re i).shLink.toNat ((relaAt m re i k).rInfo >>> 32).toNat

/-- Relocation `k` of section `i` exists. -/
structure IsEntry (m : Mem) (re : RtldElf) (i k : ℕ) : Prop where
  lt : i < shnum m re
  type_eq : (shdr m re i).shType = SHT_RELA
  count : k < (shdr m re i).relaCount

/-- Number of bytes of the field of a relocation. -/
def entrySize (m : Mem) (re : RtldElf) (i k : ℕ) : ℕ :=
  fieldSize (entryPatch m re i k).relType

theorem entrySize_pos (m : Mem) (re : RtldElf) (i k : ℕ) :
    4 ≤ entrySize m re i k ∧ entrySize m re i k ≤ 8 := by
  have := fieldSize_eq (entryPatch m re i k).relType
  unfold entrySize
  omega

section Entry

variable {m : Mem} {re : RtldElf} (hwf : ObjectWf m re) {i k : ℕ} (he : IsEntry m re i k)
include hwf he

theorem fieldOff_bounds :
    (shdr m re (relaTgt m re i)).shOffset.toNat ≤ fieldOff m re i k ∧
      fieldOff m re i k + entrySize m re i k ≤
        (shdr m re (relaTgt m re i)).shOffset.toNat +
          (shdr m re (relaTgt m re i)).shSize.toNat ∧
      (shdr m re (relaTgt m re i)).shOffset.toNat +
          (shdr m re (relaTgt m re i)).shSize.toNat ≤ re.size.toNat := by
  obtain ⟨hlt, hc, -⟩ := hwf.rela_target i he.lt he.type_eq
  have hfield := hwf.rela_field i he.lt he.type_eq k he.count
  have hsize := hwf.content_le _ hlt hc
  unfold fieldOff entrySize
  refine ⟨Nat.le_add_right _ _, ?_, hsize⟩
  rw [Nat.add_assoc]
  exact Nat.add_le_add_left hfield _

theorem fieldLoc_toNat (hfits : re.Fits) :
    (fieldLoc m re i k).toNat = re.base.toNat + fieldOff m re i k := by
  obtain ⟨-, h₁, h₂⟩ := fieldOff_bounds hwf he
  have hpos := entrySize_pos m re i k
  unfold RtldElf.Fits at hfits
  rw [fieldLoc, BitVec.toNat_add, BitVec.toNat_ofNat]
  omega

theorem inField_iff (hfits : re.Fits) (x : Word) :
    InRange (fieldLoc m re i k) (entrySize m re i k) x ↔
      re.base.toNat + fieldOff m re i k ≤ x.toNat ∧
        x.toNat < re.base.toNat + fieldOff m re i k + entrySize m re i k := by
  obtain ⟨-, h₁, h₂⟩ := fieldOff_bounds hwf he
  have hpos := entrySize_pos m re i k
  have hloc := fieldLoc_toNat hwf he hfits
  unfold RtldElf.Fits at hfits
  rw [inRange_iff (by omega), hloc]

/-- Fields of different relocations do not overlap. -/
theorem field_disjoint {j l : ℕ} (he' : IsEntry m re j l) (hne : ¬(i = j ∧ k = l)) :
    fieldOff m re i k + entrySize m re i k ≤ fieldOff m re j l ∨
      fieldOff m re j l + entrySize m re j l ≤ fieldOff m re i k := by
  have hi := fieldOff_bounds hwf he
  have hj := fieldOff_bounds hwf he'
  have hpi := entrySize_pos m re i k
  have hpj := entrySize_pos m re j l
  by_cases hinfo : (shdr m re i).shInfo = (shdr m re j).shInfo
  · have hdisj := hwf.rela_disjoint i he.lt j he'.lt he.type_eq he'.type_eq hinfo
      k he.count l he'.count hne
    have htgt : relaTgt m re i = relaTgt m re j := by rw [relaTgt, relaTgt, hinfo]
    unfold RangeDisjoint at hdisj
    unfold fieldOff entrySize at *
    rw [htgt] at *
    simp only [entryPatch, relaPatchData, Rela.relType] at *
    omega
  · have htgt : relaTgt m re i ≠ relaTgt m re j := by
      intro heq
      exact hinfo (BitVec.eq_of_toNat_eq heq)
    obtain ⟨hlt, hc, -⟩ := hwf.rela_target i he.lt he.type_eq
    obtain ⟨hlt', hc', -⟩ := hwf.rela_target j he'.lt he'.type_eq
    have hdisj := hwf.content_disjoint _ hlt _ hlt' htgt hc hc'
    unfold RangeDisjoint at hdisj
    unfold relaTgt at *
    omega

/-- No field overlaps a section header. -/
theorem table_not_field {o : ℕ} (ho : shoff re ≤ o)
    (ho' : o < shoff re + shdrSize * shnum m re) :
    o < fieldOff m re i k ∨ fieldOff m re i k + entrySize m re i k ≤ o := by
  obtain ⟨hlt, hc, -⟩ := hwf.rela_target i he.lt he.type_eq
  have hb := fieldOff_bounds hwf he
  have hdisj := (hwf.content_header _ hlt hc).2
  have hpos := entrySize_pos m re i k
  unfold RangeDisjoint at hdisj
  unfold relaTgt at hb
  omega

/-- No field overlaps metadata. -/
theorem meta_not_field {o : ℕ} (ho : MetaOff m re o) :
    o < fieldOff m re i k ∨ fieldOff m re i k + entrySize m re i k ≤ o := by
  obtain ⟨hlt, hc, hnm⟩ := hwf.rela_target i he.lt he.type_eq
  have hb := fieldOff_bounds hwf he
  have hpos := entrySize_pos m re i k
  have hhead := hwf.content_header _ hlt hc
  cases ho with
  | ehdr ho =>
      have hdisj := hhead.1
      unfold RangeDisjoint at hdisj
      unfold relaTgt at hb
      omega
  | @table j d hj hd =>
      have hmul : shdrSize * (j + 1) ≤ shdrSize * shnum m re := Nat.mul_le_mul_left _ hj
      have hd64 : d < shdrSize := by simp only [shdrSize]; omega
      have hlt' : shdrSize * j + d < shdrSize * (j + 1) := by
        rw [Nat.mul_succ]
        omega
      exact table_not_field hwf he (by omega) (by omega)
  | @content j o hj hmeta hle hlt' =>
      have hne : j ≠ (shdr m re i).shInfo.toNat := by
        intro heq
        rw [heq] at hmeta
        exact hnm hmeta
      have hdisj := hwf.content_disjoint j hj _ hlt hne (Shdr.hasContent_of_isMeta hmeta) hc
      unfold RangeDisjoint at hdisj
      unfold relaTgt at hb
      omega

end Entry

/-! ## The invariant of the pass -/

/-- The object and the code arena lie apart. -/
structure Apart (re : RtldElf) (c : State) : Prop where
  fits : re.Fits
  sep : re.base.toNat + re.size.toNat ≤ c.arenaCode.start.toNat ∨
    c.arenaCode.endp.toNat ≤ re.base.toNat
  endp_le : c.arenaCode.endp.toNat ≤ 2 ^ 47

/-- The field of relocation `k` of section `i` has been relocated. -/
def FieldDone (host : Host) (re : RtldElf) (c₀ c : State) (i k : ℕ) : Prop :=
  ∃ src, entrySource host.arch c₀.mem re i k = some src ∧
    FieldLinked (relocEnv host re c₀) src (entryPatch c₀.mem re i k) c₀.mem
      (fieldLoc c₀.mem re i k) c (fieldLoc c₀.mem re i k)

/-- The state `c` after the relocations `done`, starting from `c₀`. -/
structure RelocInv (host : Host) (re : RtldElf) (c₀ : State) (done : ℕ → ℕ → Prop)
    (c : State) : Prop where
  grown : Grown host c₀ c
  agree : ∀ x, (∀ i k, done i k →
      ¬InRange (fieldLoc c₀.mem re i k) (entrySize c₀.mem re i k) x) →
    (c₀.arenaCode.brk.toNat ≤ x.toNat → c.arenaCode.brk.toNat ≤ x.toNat) →
    c.mem x = c₀.mem x
  field : ∀ i k, done i k → FieldDone host re c₀ c i k

section RelocInv

variable {host : Host} {re : RtldElf} {c₀ c : State} {done : ℕ → ℕ → Prop}
  (hwf : ObjectWf c₀.mem re) (hapart : Apart re c₀)
  (hok : c₀.arenaCode.Ok host.pageBits)
  (hdone : ∀ i k, done i k → IsEntry c₀.mem re i k)
  (hinv : RelocInv host re c₀ done c)
include hwf hapart hok hdone hinv

omit hwf hdone in
/-- The buffer does not meet the used part of the code arena. -/
theorem RelocInv.buffer_outside {o : ℕ} (ho : o < re.size.toNat) :
    (re.base + BitVec.ofNat 64 o).toNat = re.base.toNat + o ∧
      (c₀.arenaCode.brk.toNat ≤ re.base.toNat + o →
        c.arenaCode.brk.toNat ≤ re.base.toNat + o) := by
  have hfits := hapart.fits
  unfold RtldElf.Fits at hfits
  have hstart := hok.start_le
  have hok' := hinv.grown.ok
  have hb := hok'.brk_le
  have hp := hok'.brkp_le
  rw [hinv.grown.endp_eq] at hp
  constructor
  · rw [BitVec.toNat_add, BitVec.toNat_ofNat]
    omega
  · have := hapart.sep
    omega

/-- Bytes of the object outside the fields are as before. -/
theorem RelocInv.buffer_eq {o : ℕ} (ho : o < re.size.toNat)
    (hout : ∀ i k, IsEntry c₀.mem re i k → o < fieldOff c₀.mem re i k ∨
      fieldOff c₀.mem re i k + entrySize c₀.mem re i k ≤ o) :
    c.mem (re.base + BitVec.ofNat 64 o) = c₀.mem (re.base + BitVec.ofNat 64 o) := by
  obtain ⟨haddr, hbrk⟩ := hinv.buffer_outside hapart hok ho
  apply hinv.agree
  · intro i k hd
    have he := hdone i k hd
    rw [inField_iff hwf he hapart.fits, haddr]
    have := hout i k he
    omega
  · rw [haddr]
    exact hbrk

theorem RelocInv.sameMeta : SameMeta c₀.mem re c.mem re := by
  apply sameMeta_of_agree rfl
  intro o ho
  exact hinv.buffer_eq hwf hapart hok hdone (ho.lt_size hwf)
    fun i k he => meta_not_field hwf he ho

theorem RelocInv.shdr_eq {i : ℕ} (hi : i < shnum c₀.mem re) :
    shdr c.mem re i = shdr c₀.mem re i := by
  have hmeta := (hinv.sameMeta hwf hapart hok hdone).shdr_eq i hi
  have hle := hwf.table_le
  have hmul : shdrSize * (i + 1) ≤ shdrSize * shnum c₀.mem re := Nat.mul_le_mul_left _ hi
  have haddr : (shdr c.mem re i).shAddr = (shdr c₀.mem re i).shAddr := by
    refine load_add_congr (w := 64) 16 fun d hge hlt => ?_
    have hd : d < shdrSize := by simp only [shdrSize]; omega
    have hoff : shoff re + shdrSize * i + d < shoff re + shdrSize * shnum c₀.mem re := by
      rw [Nat.mul_succ] at hmul
      omega
    rw [shdrAddr_add]
    apply hinv.buffer_eq hwf hapart hok hdone (by omega)
    intro j k he
    exact table_not_field hwf he (by omega) hoff
  exact Shdr.eq_of_noAddr hmeta haddr

end RelocInv

/-! ## One relocation -/

theorem orEinval_ok {α : Type} {x : ClientM α} {c c' : State} {a : α}
    (hrun : (processRelaEntry.orEinval x).run c = (.ok a, c')) :
    x.run c = (.ok a, c') := by
  unfold processRelaEntry.orEinval at hrun
  dsimp only at hrun
  split at hrun
  · next heq =>
    rw [heq]
    exact hrun
  · simp at hrun

section Step

variable {host : Host} {re : RtldElf} {c₀ c : State} {done : ℕ → ℕ → Prop}
  (hwf : ObjectWf c₀.mem re) (hapart : Apart re c₀)
include hwf hapart

/-- Bytes of the code arena belong to no field. -/
theorem arena_not_field {i k : ℕ} (he : IsEntry c₀.mem re i k) {x : Word}
    (hlo : c₀.arenaCode.start.toNat ≤ x.toNat) (hhi : x.toNat < c₀.arenaCode.endp.toNat) :
    ¬InRange (fieldLoc c₀.mem re i k) (entrySize c₀.mem re i k) x := by
  rw [inField_iff hwf he hapart.fits]
  have hb := fieldOff_bounds hwf he
  have := hapart.sep
  omega

omit hwf hapart in
/-- Later changes outside a field and outside the used arena keep what has been
established about the field. -/
theorem FieldDone.frame {c' : State} (hgrown' : Grown host c c')
    {i k : ℕ} (h : FieldDone host re c₀ c i k)
    (hfield : ∀ x, InRange (fieldLoc c₀.mem re i k) (entrySize c₀.mem re i k) x →
      c'.mem x = c.mem x)
    (harena : ∀ x : Word, c₀.arenaCode.brk.toNat ≤ x.toNat →
      x.toNat < c.arenaCode.brk.toNat → c'.mem x = c.mem x) :
    FieldDone host re c₀ c' i k := by
  obtain ⟨src, hsrc, hlinked⟩ := h
  refine ⟨src, hsrc, hlinked.frame hgrown'.plt_eq hgrown'.brk_le harena fun d hd => ?_⟩
  have hpos := entrySize_pos c₀.mem re i k
  exact hfield _ (inRange_add hd (by omega))

/-- A relocation reads as before the pass. -/
theorem RelocInv.entry_eq {i k : ℕ} (hok : c₀.arenaCode.Ok host.pageBits)
    (hdone : ∀ i k, done i k → IsEntry c₀.mem re i k) (hinv : RelocInv host re c₀ done c)
    (he : IsEntry c₀.mem re i k) :
    readRela c.mem (re.base + (shdr c₀.mem re i).shOffset + BitVec.ofNat 64 (relaSize * k)) =
        relaAt c₀.mem re i k ∧
      shdr c.mem re (relaTgt c₀.mem re i) = shdr c₀.mem re (relaTgt c₀.mem re i) := by
  have hmeta := hinv.sameMeta hwf hapart hok hdone
  obtain ⟨htgt, -, -⟩ := hwf.rela_target i he.lt he.type_eq
  constructor
  · rw [← hmeta.rela_eq i he.lt he.type_eq k he.count, relaAt,
      hinv.shdr_eq hwf hapart hok hdone he.lt]
  · exact hinv.shdr_eq hwf hapart hok hdone htgt

omit hwf hapart in
theorem fieldLoc_eq (m : Mem) (i k : ℕ) :
    re.base + (shdr m re (relaTgt m re i)).shOffset + (relaAt m re i k).rOffset =
      fieldLoc m re i k := by
  rw [fieldLoc, fieldOff, BitVec.ofNat_add, BitVec.ofNat_toNat, BitVec.ofNat_toNat,
    BitVec.setWidth_eq, BitVec.setWidth_eq, BitVec.add_assoc]

/-- The symbol and the field of one relocation. -/
theorem processRelaEntry_ok {i k : ℕ} {c' : State}
    (hok : c₀.arenaCode.Ok host.pageBits)
    (hdone : ∀ i k, done i k → IsEntry c₀.mem re i k) (hinv : RelocInv host re c₀ done c)
    (he : IsEntry c₀.mem re i k)
    (hrun : (processRelaEntry host re (re.base + (shdr c₀.mem re i).shOffset)
      (relaTgt c₀.mem re i) (shdr c₀.mem re i).shLink.toNat
      (re.base + (shdr c₀.mem re (relaTgt c₀.mem re i)).shOffset) k).run c = (.ok (), c')) :
    ∃ sym c₁,
      (rtldElfResolveSym host re (shdr c₀.mem re i).shLink.toNat
        ((relaAt c₀.mem re i k).rInfo >>> 32).toNat (entryPatch c₀.mem re i k)).run c =
        (.ok sym, c₁) ∧
      (rtldRelocAt host (entryPatch c₀.mem re i k) (fieldLoc c₀.mem re i k) sym).run c₁ =
        (.ok (), c') := by
  obtain ⟨hrela, hshdr⟩ := hinv.entry_eq hwf hapart hok hdone he
  have hpatch : relaPatchData (relaAt c₀.mem re i k) (shdr c₀.mem re (relaTgt c₀.mem re i)) =
      entryPatch c₀.mem re i k := rfl
  unfold processRelaEntry at hrun
  rw [Prog.run_bind, run_getMem] at hrun
  dsimp only at hrun
  rw [hrela, hshdr, hpatch, fieldLoc_eq] at hrun
  split at hrun
  · simp at hrun
  obtain ⟨sym, c₁, hsym, hreloc⟩ := Prog.run_bind_eq_ok.mp hrun
  exact ⟨sym, c₁, orEinval_ok hsym, hreloc⟩

omit hwf hapart in
theorem symSource_inSection {arch : Arch} {m : Mem} {symtabIdx symIdx idx : ℕ} {value : Word}
    (h : symSource arch m re symtabIdx symIdx = some (.inSection idx value)) :
    idx < shnum m re := by
  unfold symSource nameSource at h
  split at h
  · dsimp only at h
    split at h
    · split at h
      · simp at h
      · split at h
        · simp at h
        · split at h <;> simp at h
    · split at h
      · simp at h
      · split at h
        · next hlt =>
          simp only [Option.some.injEq, SymSource.inSection.injEq] at h
          omega
        · simp at h
  · simp at h

/-- Processing one relocation. -/
theorem RelocInv.step (hok : c₀.arenaCode.Ok host.pageBits)
    (hdone : ∀ i k, done i k → IsEntry c₀.mem re i k) (hinv : RelocInv host re c₀ done c)
    {i k : ℕ} (he : IsEntry c₀.mem re i k) (hnew : ¬done i k) {c' : State}
    (hrun : (processRelaEntry host re (re.base + (shdr c₀.mem re i).shOffset)
      (relaTgt c₀.mem re i) (shdr c₀.mem re i).shLink.toNat
      (re.base + (shdr c₀.mem re (relaTgt c₀.mem re i)).shOffset) k).run c = (.ok (), c')) :
    RelocInv host re c₀ (fun j l => done j l ∨ (j = i ∧ l = k)) c' := by
  obtain ⟨sym, c₁, hsym, hreloc⟩ := processRelaEntry_ok hwf hapart hok hdone hinv he hrun
  have hend : c.arenaCode.endp.toNat ≤ 2 ^ 47 := by
    rw [hinv.grown.endp_eq]
    exact hapart.endp_le
  obtain ⟨src, hsrc, hgrown, hfresh, hval⟩ := rtldElfResolveSym_ok hinv.grown.ok hend hsym
  have hmeta := hinv.sameMeta hwf hapart hok hdone
  rw [hmeta.symSource_eq hwf rfl] at hsrc
  have hstart := hok.start_le
  have hbrk := hinv.grown.brk_le
  have hbrk₁ := hgrown.brk_le
  have hendp : c₁.arenaCode.brk.toNat ≤ c₀.arenaCode.endp.toNat := by
    have h₁ := hgrown.ok.brk_le
    have h₂ := hgrown.ok.brkp_le
    rw [hgrown.endp_eq, hinv.grown.endp_eq] at h₂
    omega
  have hout : ∀ {j l}, IsEntry c₀.mem re j l → ∀ x : Word,
      InRange (fieldLoc c₀.mem re j l) (entrySize c₀.mem re j l) x →
      c₀.arenaCode.start.toNat ≤ x.toNat → c₀.arenaCode.endp.toNat ≤ x.toNat := by
    intro j l hjl x hx hle
    by_contra hlt
    exact arena_not_field hwf hapart hjl hle (by omega) hx
  obtain ⟨hgrown', hframe, e, target, henc, hreach, hwritten⟩ :=
    rtldRelocAt_ok hgrown.ok (hgrown.endp_eq ▸ hend)
      (fun x hx hle => by
        rw [hgrown.endp_eq, hinv.grown.endp_eq]
        exact hout he x hx (by omega))
      hreloc
  change ∀ x, ¬InRange (fieldLoc c₀.mem re i k) (entrySize c₀.mem re i k) x → _ at hframe
  have hbrk' := hgrown'.brk_le
  have hendp' : c'.arenaCode.brk.toNat ≤ c₀.arenaCode.endp.toNat := by
    have h₁ := hgrown'.ok.brk_le
    have h₂ := hgrown'.ok.brkp_le
    rw [hgrown'.endp_eq, hgrown.endp_eq, hinv.grown.endp_eq] at h₂
    omega
  have harena : ∀ x : Word, c₀.arenaCode.brk.toNat ≤ x.toNat →
      x.toNat < c₁.arenaCode.brk.toNat → c'.mem x = c₁.mem x :=
    fun x hlo hhi => hframe x (fun hx => by have := hout he x hx (by omega); omega) (by omega)
  refine ⟨hinv.grown.trans (hgrown.trans hgrown'), ?_, ?_⟩
  · intro x hnot hfree
    rw [hframe x (hnot i k (Or.inr ⟨rfl, rfl⟩)) (by omega), hfresh x (by omega)]
    exact hinv.agree x (fun j l hd => hnot j l (Or.inl hd)) (by omega)
  · rintro j l (hd | ⟨rfl, rfl⟩)
    · have hej := hdone j l hd
      have hne : ¬(j = i ∧ l = k) := by
        rintro ⟨rfl, rfl⟩
        exact hnew hd
      refine (hinv.field j l hd).frame (hgrown.trans hgrown') ?_ ?_
      · intro x hx
        have hfar := hout hej x hx
        rw [inField_iff hwf hej hapart.fits] at hx
        have hdisj := field_disjoint hwf hej he hne
        rw [hframe x (by rw [inField_iff hwf he hapart.fits]; omega) (by omega)]
        exact hfresh x (by omega)
      · intro x hlo hhi
        rw [harena x hlo (by omega)]
        exact hfresh x (by omega)
    · have hold : ∀ d < fieldSize (entryPatch c₀.mem re j l).relType,
          c₀.mem (fieldLoc c₀.mem re j l + BitVec.ofNat 64 d) =
            c₁.mem (fieldLoc c₀.mem re j l + BitVec.ofNat 64 d) := by
        intro d hd
        have hpos := entrySize_pos c₀.mem re j l
        have hin : InRange (fieldLoc c₀.mem re j l) (entrySize c₀.mem re j l)
            (fieldLoc c₀.mem re j l + BitVec.ofNat 64 d) :=
          inRange_add hd (by omega)
        have hfar := hout he _ hin
        rw [hfresh _ (by omega), hinv.agree _ ?_ (by omega)]
        intro j' l' hd' hin'
        have hej := hdone j' l' hd'
        rw [inField_iff hwf hej hapart.fits] at hin'
        rw [inField_iff hwf he hapart.fits] at hin
        have hdisj := field_disjoint hwf hej he (by rintro ⟨rfl, rfl⟩; exact hnew hd')
        omega
      have hlinked : FieldLinked (relocEnv host re c) src (entryPatch c₀.mem re j l) c₁.mem
          (fieldLoc c₀.mem re j l) c' (fieldLoc c₀.mem re j l) := by
        refine ⟨sym, e, target, ?_, henc, ?_, hwritten⟩
        · exact hval.frame hgrown'.plt_eq hbrk' fun x hlo hhi =>
            harena x (hbrk.trans hlo) hhi
        · exact hreach.imp id fun ⟨hb, hf, hle, hv⟩ => ⟨hb, hf, hbrk₁.trans hle, hv⟩
      refine ⟨src, hsrc, (hlinked.file hold).env rfl hinv.grown.objects_eq.symm
        hinv.grown.plt_eq.symm rfl hbrk ?_⟩
      rintro idx value rfl
      have hidx := symSource_inSection hsrc
      exact congrArg Shdr.shAddr (hinv.shdr_eq hwf hapart hok hdone hidx).symm

/-! ## All relocations -/

omit hwf hapart in
theorem RelocInv.congr {done' : ℕ → ℕ → Prop} (h : ∀ i k, done' i k ↔ done i k)
    (hinv : RelocInv host re c₀ done c) : RelocInv host re c₀ done' c where
  grown := hinv.grown
  agree := by
    intro x hout
    exact hinv.agree x fun i k hd => hout i k ((h i k).mpr hd)
  field := by
    intro i k hd
    exact hinv.field i k ((h i k).mp hd)

end Step

end PollyInstrew.Client
