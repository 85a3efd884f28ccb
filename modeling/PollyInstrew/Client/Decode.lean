import PollyInstrew.Client.Encoding
import PollyInstrew.Support.BitFields

/-!
# Relocated fields as the processor reads them

Decoding a relocated field the way the processor does gives back the address
the relocation refers to.  A branch that cannot reach its target is sent to a
veneer; executing the veneer continues at the target.
-/

namespace PollyInstrew.Client

open PollyInstrew.ByteMemory PollyInstrew.StateExcept PollyInstrew.BitFields

/-! ## Decoding -/

/-- What the processor makes of the field at `tgt` when it executes it, or reads
it, at the address `pc`. -/
def Encoding.decode (e : Encoding) (m : Mem) (tgt pc : Word) : Word :=
  let insn := load 32 m tgt
  match e with
  | .data64 pcRel => load 64 m tgt + if pcRel then pc else 0#64
  | .signed32 pcRel => insn.signExtend 64 + if pcRel then pc else 0#64
  | .unsigned32 => insn.setWidth 64
  | .branch26 => pc + (insn.extractLsb' 0 26 ++ 0#2).signExtend 64
  | .page21 =>
      alignDown pc 0x1000#64 +
        ((insn.extractLsb' 5 19 ++ insn.extractLsb' 29 2) ++ 0#12).signExtend 64
  | .lo12 scale => (insn.extractLsb' 10 12).setWidth 64 <<< scale.val
  | .movw group => (insn.extractLsb' 5 16).setWidth 64 <<< (16 * group.val)

/-- The bits `lo` up to `lo + 16` of a word. -/
def group16 (group : Fin 4) : Word := 0xffff#64 <<< (16 * group.val)

/-- The part of the address that the field stands for. -/
def Encoding.part (e : Encoding) (target : Word) : Word :=
  match e with
  | .page21 => alignDown target 0x1000#64
  | .lo12 _ => target &&& 0xfff#64
  | .movw group => target &&& group16 group
  | _ => target

/-- What the encoding takes for granted about the word, the address and the
place: instructions are aligned, the immediate of a load or store is zero and
its address a multiple of the size of the access. -/
def Encoding.Applies (e : Encoding) (m : Mem) (tgt target pc : Word) : Prop :=
  match e with
  | .branch26 => target.toNat % 4 = 0 ∧ pc.toNat % 4 = 0
  | .lo12 scale =>
      scale.val = 0 ∨ (load 32 m tgt).extractLsb' 10 12 = 0#12 ∧ target.toNat % 2 ^ scale.val = 0
  | _ => True

/-! ## Blending -/

/-- The word `old` with the field replaced. -/
def Encoding.blend (e : Encoding) (data old : Word) : Word :=
  (data &&& e.mask) ||| (old &&& ~~~e.mask)

theorem Encoding.rtldBlend_eq (e : Encoding) (m : Mem) (tgt data : Word) :
    rtldBlend m tgt e.mask data =
      store e.width m tgt ((e.blend data ((load e.width m tgt).setWidth 64)).setWidth e.width) := by
  have hmask : ∀ e : Encoding, e.width = 32 → ¬0xffffffff#64 < e.mask ∧ 0xffff#64 < e.mask := by
    intro e he
    cases e with
    | data64 _ => exact absurd he (by decide +revert)
    | lo12 scale => decide +revert
    | movw group => decide +revert
    | signed32 _ => decide +revert
    | unsigned32 => decide
    | branch26 => decide
    | page21 => decide
  have h32 : e.width = 32 → rtldBlend m tgt e.mask data =
      store e.width m tgt
        ((e.blend data ((load e.width m tgt).setWidth 64)).setWidth e.width) := by
    intro he
    obtain ⟨h₁, h₂⟩ := hmask e he
    rw [rtldBlend, if_neg h₁, if_pos h₂, Encoding.blend, he]
  cases e with
  | data64 pcRel =>
      have hlt : 0xffffffff#64 < 0xffffffffffffffff#64 := by decide
      rw [rtldBlend, Encoding.mask, if_pos hlt, Encoding.blend]
      simp [Encoding.width, Encoding.mask]
  | lo12 scale => exact h32 rfl
  | movw group => exact h32 rfl
  | signed32 _ => exact h32 rfl
  | unsigned32 => exact h32 rfl
  | branch26 => exact h32 rfl
  | page21 => exact h32 rfl

/-- The word after the blend, and the memory around it. -/
theorem Encoding.load_rtldBlend (e : Encoding) (m : Mem) (tgt data : Word) :
    load e.width (rtldBlend m tgt e.mask data) tgt =
      (e.blend data ((load e.width m tgt).setWidth 64)).setWidth e.width := by
  rw [e.rtldBlend_eq]
  cases e with
  | data64 _ => exact load_store_64 _ _ _
  | lo12 _ => exact load_store_32 _ _ _
  | movw _ => exact load_store_32 _ _ _
  | signed32 _ => exact load_store_32 _ _ _
  | unsigned32 => exact load_store_32 _ _ _
  | branch26 => exact load_store_32 _ _ _
  | page21 => exact load_store_32 _ _ _

theorem Encoding.rtldBlend_of_not_inRange (e : Encoding) {m : Mem} {tgt data x : Word}
    (hx : ¬InRange tgt (e.width / 8) x) : rtldBlend m tgt e.mask data x = m x := by
  rw [e.rtldBlend_eq]
  exact store_of_not_inRange hx

/-- A field that is the whole word. -/
theorem Encoding.setWidth_blend (e : Encoding) (data old : Word)
    (hmask : e.mask.setWidth e.width = BitVec.allOnes e.width)
    (hnot : (~~~e.mask).setWidth e.width = 0#e.width) :
    (e.blend data old).setWidth e.width = data.setWidth e.width := by
  rw [Encoding.blend, BitVec.setWidth_or, BitVec.setWidth_and, BitVec.setWidth_and, hmask, hnot,
    BitVec.and_allOnes, BitVec.and_zero, BitVec.or_zero]

/-- A field of the blended word. -/
theorem Encoding.extract_blend (e : Encoding) {data old : Word} {lo len : ℕ}
    (hle : lo + len ≤ 32) (h : e.mask.extractLsb' lo len = BitVec.allOnes len) :
    ((e.blend data old).setWidth 32).extractLsb' lo len = data.extractLsb' lo len := by
  rw [BitVec.extractLsb'_setWidth_of_le hle, Encoding.blend,
    BitFields.extract_blend (by omega) h]

/-! ## Each encoding -/

theorem decode_branch26 {target pc old : Word}
    (hcheck : checkSignedBits (target - pc) 28) (ht : target.toNat % 4 = 0)
    (hp : pc.toNat % 4 = 0) :
    pc + (((Encoding.branch26.blend (Encoding.branch26.bits (target - pc)) old).setWidth
      32).extractLsb' 0 26 ++ 0#2).signExtend 64 = target := by
  rw [checkSignedBits_iff] at hcheck
  have hdvd : (target - pc).toInt % 4 = 0 := by
    rw [BitVec.toInt_eq_toNat_cond, BitVec.toNat_sub]
    split <;> omega
  have hshift : ((target - pc).sshiftRight 2).toInt = (target - pc).toInt / 4 := by
    rw [BitVec.toInt_sshiftRight, Int.shiftRight_eq_div_pow]
    rfl
  have hdisp := signExtend_append_zero (x := (target - pc).sshiftRight 2) (y := target - pc)
    (n := 25) (k := 2) (by decide) (by omega) (by omega) (by omega)
  rw [Encoding.extract_blend _ (by decide) (by decide), Encoding.bits,
    ← BitVec.setWidth_eq_extractLsb' (by decide), hdisp, BitVec.add_comm,
    BitVec.sub_add_cancel]

theorem alignDown_page_mod (a : Word) : (alignDown a 0x1000#64).toNat % 0x1000 = 0 := by
  rw [alignDown_toNat (k := 12) (by decide)]
  omega

/-- The two parts of the immediate of `ADRP`, put together. -/
theorem page21_parts (v : Word) :
    (Encoding.page21.bits v).extractLsb' 5 19 ++ (Encoding.page21.bits v).extractLsb' 29 2 =
      v.setWidth 21 := by
  have h3 : 3#64 = (BitVec.allOnes 2).setWidth 64 := by decide
  have h19 : 0x7ffff#64 = (BitVec.allOnes 19).setWidth 64 := by decide
  apply BitVec.eq_of_getLsbD_eq
  intro i hi
  rw [Encoding.bits, h3, h19, BitVec.getLsbD_append, BitVec.getLsbD_setWidth]
  simp only [BitVec.getLsbD_extractLsb', BitVec.getLsbD_or, BitVec.getLsbD_shiftLeft,
    BitVec.getLsbD_and, BitVec.getLsbD_setWidth, BitVec.getLsbD_allOnes,
    BitVec.getLsbD_sshiftRight]
  split
  · next hlt =>
    have h₁ : 29 + i < 64 := by omega
    have h₂ : ¬29 + i - 5 < 19 := by omega
    have h₃ : i < 64 := by omega
    simp [hlt, hi, h₁, h₂, h₃]
  · next hge =>
    have h₁ : i - 2 < 19 := by omega
    have h₂ : 5 + (i - 2) < 29 := by omega
    have h₃ : 5 + (i - 2) < 64 := by omega
    have h₄ : 2 + (i - 2) = i := by omega
    have h₅ : i < 64 := by omega
    have h₆ : i - 2 < 64 := by omega
    simp [hi, h₁, h₂, h₃, h₄, h₅, h₆]

theorem decode_page21 {target pc old : Word}
    (hcheck : checkSignedBits (Encoding.page21.value target pc) 21) :
    alignDown pc 0x1000#64 +
      ((((Encoding.page21.blend (Encoding.page21.bits (Encoding.page21.value target pc))
        old).setWidth 32).extractLsb' 5 19 ++
        ((Encoding.page21.blend (Encoding.page21.bits (Encoding.page21.value target pc))
        old).setWidth 32).extractLsb' 29 2) ++ 0#12).signExtend 64 =
      alignDown target 0x1000#64 := by
  rw [checkSignedBits_iff] at hcheck
  have hdvd : (alignDown target 0x1000#64 - alignDown pc 0x1000#64).toInt % 0x1000 = 0 := by
    have ht := alignDown_page_mod target
    have hp := alignDown_page_mod pc
    rw [BitVec.toInt_eq_toNat_cond, BitVec.toNat_sub]
    split <;> omega
  have hshift : (Encoding.page21.value target pc).toInt =
      (alignDown target 0x1000#64 - alignDown pc 0x1000#64).toInt / 0x1000 := by
    rw [Encoding.value, BitVec.toInt_sshiftRight, Int.shiftRight_eq_div_pow]
    rfl
  have hdisp := signExtend_append_zero (x := Encoding.page21.value target pc)
    (y := alignDown target 0x1000#64 - alignDown pc 0x1000#64)
    (n := 20) (k := 12) (by decide) (by omega) (by omega) (by omega)
  generalize Encoding.page21.value target pc = v at hdisp hcheck
  rw [Encoding.extract_blend _ (by decide) (by decide),
    Encoding.extract_blend _ (by decide) (by decide)]
  rw [page21_parts, hdisp, BitVec.add_comm, BitVec.sub_add_cancel]

theorem decode_lo12 {scale : Fin 5} {target old : Word}
    (happ : scale.val = 0 ∨ old.extractLsb' 10 12 = 0#12 ∧ target.toNat % 2 ^ scale.val = 0) :
    (((((Encoding.lo12 scale).blend ((Encoding.lo12 scale).bits target) old).setWidth
      32).extractLsb' 10 12).setWidth 64) <<< scale.val = target &&& 0xfff#64 := by
  have hmask : 0xfff#64 = (BitVec.allOnes 12).setWidth 64 := by decide
  rcases happ with hscale | ⟨hzero, hmod⟩
  · obtain rfl : scale = 0 := Fin.ext hscale
    rw [Encoding.extract_blend _ (by decide) (by decide), Encoding.bits,
      extract_shiftLeft _ (by decide), shiftLeft_extract_shiftRight, hmask]
    rfl
  · have hlow : ∀ i < scale.val, target.getLsbD i = false := by
      intro i hi
      have hbit := Nat.testBit_mod_two_pow target.toNat scale.val i
      rw [hmod, Nat.zero_testBit, decide_eq_true hi, Bool.true_and] at hbit
      exact hbit.symm
    rw [BitVec.extractLsb'_setWidth_of_le (by decide), Encoding.blend,
      extract_blend_zero hzero, Encoding.bits, Encoding.mask, extract_shiftLeft _ (by decide),
      extract_shiftLeft _ (by decide), hmask]
    apply BitVec.eq_of_getLsbD_eq
    intro i hi
    have hscale := scale.isLt
    simp only [BitVec.getLsbD_and, BitVec.getLsbD_shiftLeft, BitVec.getLsbD_setWidth,
      BitVec.getLsbD_extractLsb', BitVec.getLsbD_ushiftRight, BitVec.getLsbD_allOnes, hi]
    by_cases hlt : i < scale.val
    · simp [hlt, hlow i hlt]
    · have hsub : scale.val + (0 + (i - scale.val)) = i := by omega
      rw [hsub]
      by_cases h12 : i < 12
      · have h₁ : i - scale.val < 64 := by omega
        have h₂ : i - scale.val < 12 := by omega
        simp [hlt, h12, hi, h₁, h₂]
      · simp [h12]

theorem decode_movw (group : Fin 4) (target old : Word) :
    (((((Encoding.movw group).blend ((Encoding.movw group).bits target) old).setWidth
      32).extractLsb' 5 16).setWidth 64) <<< (16 * group.val) = target &&& group16 group := by
  have hmask : 0xffff#64 = (BitVec.allOnes 16).setWidth 64 := by decide
  rw [Encoding.extract_blend _ (by decide) (by decide +revert), Encoding.bits,
    extract_shiftLeft _ (by decide), shiftLeft_extract_shiftRight, group16, hmask]

/-- The field of the blended word stands for the address it was made for. -/
theorem Encoding.decode_eq {e : Encoding} {m m' : Mem} {tgt₀ tgt target pc : Word}
    (hword : load e.width m' tgt =
      (e.blend (e.bits (e.value target pc)) ((load e.width m tgt₀).setWidth 64)).setWidth e.width)
    (hcheck : e.check (e.value target pc)) (happ : e.Applies m tgt₀ target pc) :
    e.decode m' tgt pc = e.part target := by
  cases e with
  | data64 pcRel =>
      have hload : load 64 m' tgt = ((Encoding.data64 pcRel).value target pc).setWidth 64 :=
        hword.trans (Encoding.setWidth_blend (.data64 pcRel) _ _ rfl (by cases pcRel <;> decide))
      rw [Encoding.decode, hload, BitVec.setWidth_eq]
      cases pcRel with
      | true => exact BitVec.sub_add_cancel _ _
      | false => exact BitVec.add_zero _
  | signed32 pcRel =>
      have hload : load 32 m' tgt = ((Encoding.signed32 pcRel).value target pc).setWidth 32 :=
        hword.trans (Encoding.setWidth_blend (.signed32 pcRel) _ _ rfl (by cases pcRel <;> decide))
      rw [Encoding.check, checkSignedBits_iff] at hcheck
      rw [Encoding.decode, hload,
        signExtend_setWidth_of_range (n := 31) (by decide) (by omega) (by omega)]
      cases pcRel with
      | true => exact BitVec.sub_add_cancel _ _
      | false => exact BitVec.add_zero _
  | unsigned32 =>
      have hload : load 32 m' tgt = target.setWidth 32 :=
        hword.trans (Encoding.setWidth_blend .unsigned32 _ _ rfl (by decide))
      rw [Encoding.check, checkUnsignedBits_iff, Encoding.value] at hcheck
      rw [Encoding.decode, hload]
      apply BitVec.eq_of_toNat_eq
      change _ = target.toNat
      rw [BitVec.toNat_setWidth, BitVec.toNat_setWidth]
      omega
  | branch26 =>
      rw [Encoding.decode, show load 32 m' tgt = _ from hword]
      exact decode_branch26 hcheck happ.1 happ.2
  | page21 =>
      rw [Encoding.decode, show load 32 m' tgt = _ from hword]
      exact decode_page21 hcheck
  | lo12 scale =>
      rw [Encoding.decode, show load 32 m' tgt = _ from hword]
      apply decode_lo12
      refine happ.imp id fun h => ⟨?_, h.2⟩
      rw [BitVec.extractLsb'_setWidth_of_le (by decide)]
      exact h.1
  | movw group =>
      rw [Encoding.decode, show load 32 m' tgt = _ from hword]
      exact decode_movw group target _

/-! ## Veneers -/

/-- Program counter and general-purpose registers of AArch64. -/
structure A64State where
  pc : Word
  regs : ℕ → Word

/-- Register 31 reads as zero. -/
def A64State.read (s : A64State) (n : ℕ) : Word := if n = 31 then 0#64 else s.regs n

def A64State.write (s : A64State) (n : ℕ) (v : Word) : A64State :=
  if n = 31 then s else { s with regs := Function.update s.regs n v }

/-- One instruction of those that occur in veneers: the 64-bit forms of `MOVZ`
and `MOVK`, and `BR`. -/
def a64Step (m : Mem) (s : A64State) : Option A64State :=
  let insn := load 32 m s.pc
  let rd := (insn.extractLsb' 0 5).toNat
  let imm16 := (insn.extractLsb' 5 16).setWidth 64
  let shift := 16 * (insn.extractLsb' 21 2).toNat
  let next : A64State := { s with pc := s.pc + 4 }
  if insn.extractLsb' 23 9 = 0x1a5#9 then
    some (next.write rd (imm16 <<< shift))
  else if insn.extractLsb' 23 9 = 0x1e5#9 then
    some (next.write rd ((s.read rd &&& ~~~(0xffff#64 <<< shift)) ||| imm16 <<< shift))
  else if insn &&& 0xfffffc1f#32 = 0xd61f0000#32 then
    some { s with pc := s.read (insn.extractLsb' 5 5).toNat }
  else
    none

def a64Run (m : Mem) : ℕ → A64State → Option A64State
  | 0, s => some s
  | n + 1, s => (a64Step m s).bind (a64Run m n)

/-- An instruction word with a 16-bit immediate put into bits 5 to 20. -/
def movwInsn (op x : Word) : BitVec 32 := (op ||| ((x &&& 0xffff#64) <<< 5)).setWidth 32

theorem movwInsn_imm16 {op x : Word} (hop : op.extractLsb' 5 16 = 0#16) :
    (movwInsn op x).extractLsb' 5 16 = x.extractLsb' 0 16 := by
  have hmask : (0xffff#64).extractLsb' 0 16 = BitVec.allOnes 16 := by decide
  rw [movwInsn, BitVec.extractLsb'_setWidth_of_le (by decide), BitVec.extractLsb'_or, hop,
    BitVec.zero_or, extract_shiftLeft _ (by decide), BitVec.extractLsb'_and, hmask,
    BitVec.and_allOnes]

/-- The other fields are those of the opcode. -/
theorem movwInsn_extract {op x : Word} {lo len : ℕ} (hle : lo + len ≤ 32)
    (hout : lo + len ≤ 5 ∨ 21 ≤ lo) :
    (movwInsn op x).extractLsb' lo len = op.extractLsb' lo len := by
  have hmask : 0xffff#64 = (BitVec.allOnes 16).setWidth 64 := by decide
  have hzero : ((x &&& 0xffff#64) <<< 5).extractLsb' lo len = 0#(len) := by
    apply BitVec.eq_of_getLsbD_eq
    intro i hi
    rw [BitVec.getLsbD_extractLsb', BitVec.getLsbD_shiftLeft, BitVec.getLsbD_and, hmask,
      BitVec.getLsbD_setWidth, BitVec.getLsbD_allOnes]
    by_cases hlt : lo + i < 5
    · simp [hlt]
    · have h16 : ¬lo + i - 5 < 16 := by omega
      simp [h16]
  rw [movwInsn, BitVec.extractLsb'_setWidth_of_le hle, BitVec.extractLsb'_or, hzero,
    BitVec.or_zero]

section MoveWide

variable {m : Mem} {s : A64State} {op x : Word} {g : Fin 4}
  (hword : load 32 m s.pc = movwInsn op (x >>> (16 * g.val)))
  (himm : op.extractLsb' 5 16 = 0#16) (hrd : op.extractLsb' 0 5 = 16#5)
  (hhw : (op.extractLsb' 21 2).toNat = g.val)
include hword himm hrd hhw

theorem movwInsn_fields :
    ((load 32 m s.pc).extractLsb' 0 5).toNat = 16 ∧
      ((load 32 m s.pc).extractLsb' 21 2).toNat = g.val ∧
      ((load 32 m s.pc).extractLsb' 5 16).setWidth 64 <<< (16 * g.val) =
        x &&& group16 g := by
  have hmask : 0xffff#64 = (BitVec.allOnes 16).setWidth 64 := by decide
  rw [hword, movwInsn_extract (by decide) (by decide), movwInsn_extract (by decide) (by decide),
    movwInsn_imm16 himm, hrd, hhw, shiftLeft_extract_shiftRight, group16, hmask]
  exact ⟨rfl, rfl, rfl⟩

/-- `movz x16` with a group of `x`. -/
theorem a64Step_movz (hop : op.extractLsb' 23 9 = 0x1a5#9) :
    a64Step m s = some ⟨s.pc + 4, Function.update s.regs 16 (x &&& group16 g)⟩ := by
  obtain ⟨h₁, h₂, h₃⟩ := movwInsn_fields hword himm hrd hhw
  have hcode : (load 32 m s.pc).extractLsb' 23 9 = 0x1a5#9 := by
    rw [hword, movwInsn_extract (by decide) (by decide), hop]
  unfold a64Step
  dsimp only
  rw [if_pos hcode, h₁, h₂, h₃]
  rfl

/-- `movk x16` with a group of `x`. -/
theorem a64Step_movk (hop : op.extractLsb' 23 9 = 0x1e5#9) :
    a64Step m s = some ⟨s.pc + 4, Function.update s.regs 16
      ((s.regs 16 &&& ~~~group16 g) ||| (x &&& group16 g))⟩ := by
  obtain ⟨h₁, h₂, h₃⟩ := movwInsn_fields hword himm hrd hhw
  have hcode : (load 32 m s.pc).extractLsb' 23 9 = 0x1e5#9 := by
    rw [hword, movwInsn_extract (by decide) (by decide), hop]
  unfold a64Step
  dsimp only
  rw [if_neg (by rw [hcode]; decide), if_pos hcode, h₁, h₂, h₃]
  rfl

end MoveWide

theorem a64Step_br {m : Mem} {s : A64State} (hword : load 32 m s.pc = 0xd61f0200#32) :
    a64Step m s = some { s with pc := s.regs 16 } := by
  unfold a64Step
  rw [hword]
  rfl

/-- The groups of a word do not overlap and are all of it. -/
theorem group16_all (x : Word) :
    (((((x &&& group16 0) &&& ~~~group16 1 ||| (x &&& group16 1)) &&& ~~~group16 2 |||
      (x &&& group16 2)) &&& ~~~group16 3) ||| (x &&& group16 3)) = x := by
  have h₁ : group16 0 &&& ~~~group16 1 ||| group16 1 = 0xffffffff#64 := by decide
  have h₂ : 0xffffffff#64 &&& ~~~group16 2 ||| group16 2 = 0xffffffffffff#64 := by decide
  have h₃ : 0xffffffffffff#64 &&& ~~~group16 3 ||| group16 3 = BitVec.allOnes 64 := by decide
  have hstep : ∀ a b : Word, (x &&& a) &&& ~~~b ||| (x &&& b) = x &&& (a &&& ~~~b ||| b) := by
    intro a b
    rw [BitVec.and_assoc, ← BitVec.and_or_distrib_left]
  rw [hstep, h₁, hstep, h₂, hstep, h₃, BitVec.and_allOnes]

/-- The instructions of a veneer. -/
theorem load_veneer {m : Mem} {stub sym : Word}
    (h : readBytes m stub 20 = veneerCode sym) :
    load 32 m stub = movwInsn 0xd2800010#64 (sym >>> (16 * (0 : Fin 4).val)) ∧
      load 32 m (stub + 4) = movwInsn 0xf2a00010#64 (sym >>> (16 * (1 : Fin 4).val)) ∧
      load 32 m (stub + 4 + 4) = movwInsn 0xf2c00010#64 (sym >>> (16 * (2 : Fin 4).val)) ∧
      load 32 m (stub + 4 + 4 + 4) = movwInsn 0xf2e00010#64 (sym >>> (16 * (3 : Fin 4).val)) ∧
      load 32 m (stub + 4 + 4 + 4 + 4) = 0xd61f0200#32 := by
  let word (op : Word) (g : Fin 4) : Word := op ||| (((sym >>> (16 * g.val)) &&& 0xffff#64) <<< 5)
  have hsplit : readBytes m stub ((leBytes 4 (word 0xd2800010#64 0).toNat).length +
      (leBytes 4 (word 0xf2a00010#64 1).toNat ++ (leBytes 4 (word 0xf2c00010#64 2).toNat ++
        (leBytes 4 (word 0xf2e00010#64 3).toNat ++ leBytes 4 0xd61f0200))).length) =
      leBytes 4 (word 0xd2800010#64 0).toNat ++
        (leBytes 4 (word 0xf2a00010#64 1).toNat ++ (leBytes 4 (word 0xf2c00010#64 2).toNat ++
          (leBytes 4 (word 0xf2e00010#64 3).toNat ++ leBytes 4 0xd61f0200))) := by
    simpa [veneerCode, word] using h
  obtain ⟨h₀, hrest⟩ := readBytes_eq_append.mp hsplit
  rw [List.length_append] at hrest
  obtain ⟨h₁, hrest⟩ := readBytes_eq_append.mp hrest
  rw [List.length_append] at hrest
  obtain ⟨h₂, hrest⟩ := readBytes_eq_append.mp hrest
  rw [List.length_append] at hrest
  obtain ⟨h₃, h₄⟩ := readBytes_eq_append.mp hrest
  simp only [length_leBytes] at h₀ h₁ h₂ h₃ h₄
  have hload : ∀ {a v : Word}, readBytes m a 4 = leBytes 4 v.toNat →
      load 32 m a = v.setWidth 32 := by
    intro a v ha
    rw [load_of_readBytes (by decide) ha]
    exact BitVec.eq_of_toNat_eq rfl
  exact ⟨hload h₀, hload h₁, hload h₂, hload h₃, load_of_readBytes (by decide) h₄⟩

/-- Executing a veneer continues at its symbol and changes `x16` only. -/
theorem a64Run_veneer {m : Mem} {stub sym : Word} (h : readBytes m stub 20 = veneerCode sym)
    (regs : ℕ → Word) :
    ∃ regs', a64Run m 5 ⟨stub, regs⟩ = some ⟨sym, regs'⟩ ∧ ∀ n, n ≠ 16 → regs' n = regs n := by
  obtain ⟨h₀, h₁, h₂, h₃, h₄⟩ := load_veneer h
  refine ⟨Function.update regs 16 sym, ?_, ?_⟩
  · have e₀ := a64Step_movz (s := ⟨stub, regs⟩) h₀ (by decide) (by decide) (by decide)
      (by decide)
    have e₁ := fun r => a64Step_movk (s := ⟨stub + 4, r⟩) h₁ (by decide) (by decide) (by decide)
      (by decide)
    have e₂ := fun r => a64Step_movk (s := ⟨stub + 4 + 4, r⟩) h₂ (by decide) (by decide) (by decide)
      (by decide)
    have e₃ := fun r => a64Step_movk (s := ⟨stub + 4 + 4 + 4, r⟩) h₃ (by decide) (by decide)
      (by decide) (by decide)
    have e₄ := fun r => a64Step_br (s := ⟨stub + 4 + 4 + 4 + 4, r⟩) h₄
    simp only [a64Run]
    rw [e₀, Option.bind_some, e₁, Option.bind_some, e₂, Option.bind_some, e₃, Option.bind_some,
      e₄, Option.bind_some]
    simp only [Function.update_self, Function.update_idem, group16_all]
  · intro n hn
    exact Function.update_of_ne hn _ _

theorem length_veneerCode (sym : Word) : (veneerCode sym).length = 20 := by
  simp [veneerCode]

/-- A veneer is written to a fresh block of the code arena. -/
theorem rtldElfAddStub_ok {host : Host} {c c' : State} {sym stub : Word}
    (hok : c.arenaCode.Ok host.pageBits) (hend : c.arenaCode.endp.toNat ≤ 2 ^ 47)
    (hrun : (rtldElfAddStub host sym).run c = (.ok stub, c')) :
    Grown host c c' ∧ c'.mem = writeBytes c.mem stub (veneerCode sym) ∧
      c.arenaCode.brk.toNat ≤ stub.toNat ∧ stub.toNat + 20 = c'.arenaCode.brk.toNat ∧
      stub.toNat % 4 = 0 := by
  obtain ⟨p, c₁, halloc, hrun⟩ := Prog.run_bind_eq_ok.mp hrun
  by_cases hbad : badAddr p
  · rw [if_pos hbad] at hrun
    simp at hrun
  rw [if_neg hbad] at hrun
  obtain ⟨hgrown, hmem, hle, hsum, hmod⟩ :=
    memAllocCode_ok hok (hend.trans (by decide)) (by decide) (by decide) halloc hbad
  rw [Prog.run_bind, run_memWriteCode] at hrun
  simp only [Prog.run_pure, Prod.mk.injEq, Except.ok.injEq] at hrun
  obtain ⟨rfl, rfl⟩ := hrun
  have hal : (arenaAlignment 0x40#64).toNat = 64 := by decide
  rw [hal] at hmod
  refine ⟨hgrown.trans (Grown.of_mem hgrown.ok _), ?_, hle, hsum, by omega⟩
  rw [hmem]

/-! ## Relocating a field -/

/-- A veneer for `sym` at `stub`, below the break of the code arena. -/
structure VeneerAt (c : State) (stub sym : Word) : Prop where
  bytes : readBytes c.mem stub 20 = veneerCode sym
  le_brk : stub.toNat + 20 ≤ c.arenaCode.brk.toNat

/-- What happens before the field at `pc` is made to refer to `target`: nothing,
or a new veneer for the branch to `syma`. -/
inductive Encoding.Via (e : Encoding) (host : Host) (syma pc : Word) (c : State) :
    Word → State → Prop
  | direct (hnear : e = .branch26 → checkSignedBits (syma - pc) 28) : e.Via host syma pc c syma c
  | veneer {stub : Word} {c' : State} (hbranch : e = .branch26)
      (hfar : ¬checkSignedBits (syma - pc) 28) (hgrown : Grown host c c')
      (hle : c.arenaCode.brk.toNat ≤ stub.toNat) (hmod : stub.toNat % 4 = 0)
      (hframe : ∀ x : Word,
        (c.arenaCode.brk.toNat ≤ x.toNat → c'.arenaCode.brk.toNat ≤ x.toNat) →
          c'.mem x = c.mem x)
      (hveneer : VeneerAt c' stub syma) : e.Via host syma pc c stub c'

theorem Encoding.via_of_target {e : Encoding} {host : Host} {syma pc target : Word}
    {c c' : State} (hok : e = .branch26 → c.arenaCode.Ok host.pageBits)
    (hend : e = .branch26 → c.arenaCode.endp.toNat ≤ 2 ^ 47)
    (hrun : (e.target host syma pc).run c = (.ok target, c')) :
    e.Via host syma pc c target c' := by
  unfold Encoding.target at hrun
  by_cases hbranch : e = .branch26
  swap
  · rw [if_neg hbranch] at hrun
    obtain ⟨ht, rfl⟩ := Prod.mk.inj hrun
    obtain rfl := Except.ok.inj ht
    exact .direct fun h => absurd h hbranch
  rw [if_pos hbranch, branchTarget] at hrun
  by_cases hcheck : checkSignedBits (syma - pc) 28
  · rw [if_pos hcheck] at hrun
    obtain ⟨ht, rfl⟩ := Prod.mk.inj hrun
    obtain rfl := Except.ok.inj ht
    exact .direct fun _ => hcheck
  · rw [if_neg hcheck] at hrun
    obtain ⟨hgrown, hmem, hle, hsum, hmod⟩ := rtldElfAddStub_ok (hok hbranch) (hend hbranch) hrun
    have hbrk := hgrown.ok.brk_le
    have hbrkp := hgrown.ok.brkp_le
    have hendp := hend hbranch
    rw [hgrown.endp_eq] at hbrkp
    refine .veneer hbranch hcheck hgrown hle hmod ?_ ⟨?_, by omega⟩
    · intro x hx
      rw [hmem]
      apply writeBytes_of_not_inRange
      rw [length_veneerCode, inRange_iff (by omega)]
      omega
    · have hlen : (veneerCode syma).length ≤ 2 ^ 64 := by
        rw [length_veneerCode]
        decide
      have hread := readBytes_writeBytes c.mem target hlen
      rwa [length_veneerCode, ← hmem] at hread

/-- A relocation that succeeds finds its target, passes its check and replaces
its field. -/
theorem rtldRelocAt_spec {host : Host} {pd : RtldPatchData} {tgt sym : Word} {c c' : State}
    (hok : encoding host.arch pd.relType = some .branch26 → c.arenaCode.Ok host.pageBits)
    (hend : encoding host.arch pd.relType = some .branch26 →
      c.arenaCode.endp.toNat ≤ 2 ^ 47)
    (hrun : (rtldRelocAt host pd tgt sym).run c = (.ok (), c')) :
    ∃ e target c₁, encoding host.arch pd.relType = some e ∧
      e.Via host (sym + pd.addend) pd.patchAddr c target c₁ ∧
      e.check (e.value target pd.patchAddr) ∧
      c' = { c₁ with
        mem := rtldBlend c₁.mem tgt e.mask (e.bits (e.value target pd.patchAddr)) } := by
  cases he : encoding host.arch pd.relType with
  | none =>
      rw [rtldRelocAt, rtldRelocData_eq, he] at hrun
      simp [Prog.run_bind] at hrun
  | some e =>
      rw [run_rtldRelocAt he] at hrun
      cases ht : (e.target host (sym + pd.addend) pd.patchAddr).run c with
      | mk r c₁ =>
          rw [ht] at hrun
          cases r with
          | error err => simp at hrun
          | ok target =>
              dsimp only at hrun
              have hvia := Encoding.via_of_target (fun h => hok (by rw [he, h]))
                (fun h => hend (by rw [he, h])) ht
              unfold Encoding.relocData at hrun
              by_cases hcheck : e.check (e.value target pd.patchAddr)
              · rw [if_pos hcheck] at hrun
                exact ⟨e, target, c₁, rfl, hvia, hcheck, (Prod.mk.inj hrun).2.symm⟩
              · rw [if_neg hcheck] at hrun
                simp at hrun

/-- The word at `tgt` is no part of the unused code arena, where veneers are
put. -/
structure TargetApart (host : Host) (c : State) (tgt : Word) : Prop where
  ok : c.arenaCode.Ok host.pageBits
  endp_le : c.arenaCode.endp.toNat ≤ 2 ^ 47
  fits : tgt.toNat + 4 ≤ 2 ^ 64
  apart : tgt.toNat + 4 ≤ c.arenaCode.brk.toNat ∨ c.arenaCode.endp.toNat ≤ tgt.toNat

/-- The field at `tgt`, for the address `pc`, stands for `syma` in the memory
`m'`, and the rest of its word is as in `m`. -/
structure Encoding.Encoded (e : Encoding) (m m' : Mem) (tgt syma pc : Word) : Prop where
  direct : (e = .branch26 → -2 ^ 27 ≤ (syma - pc).toInt ∧ (syma - pc).toInt < 2 ^ 27) →
    e.decode m' tgt pc = e.part syma
  veneer : e = .branch26 → ¬(-2 ^ 27 ≤ (syma - pc).toInt ∧ (syma - pc).toInt < 2 ^ 27) →
    ∀ regs, ∃ regs', a64Run m' 5 ⟨e.decode m' tgt pc, regs⟩ = some ⟨syma, regs'⟩ ∧
      ∀ n, n ≠ 16 → regs' n = regs n
  keeps : (load e.width m' tgt).setWidth 64 &&& ~~~e.mask =
    (load e.width m tgt).setWidth 64 &&& ~~~e.mask

/-- Aligned displacements pass the check of a branch if and only if they are in
reach. -/
theorem checkSignedBits_28_iff {syma pc : Word} (hs : syma.toNat % 4 = 0)
    (hp : pc.toNat % 4 = 0) :
    checkSignedBits (syma - pc) 28 ↔
      -2 ^ 27 ≤ (syma - pc).toInt ∧ (syma - pc).toInt < 2 ^ 27 := by
  have hdvd : (syma - pc).toInt % 4 = 0 := by
    rw [BitVec.toInt_eq_toNat_cond, BitVec.toNat_sub]
    split <;> omega
  rw [checkSignedBits_iff]
  omega

theorem Encoding.keeps_rtldBlend (e : Encoding) (m : Mem) (tgt data : Word) :
    (load e.width (rtldBlend m tgt e.mask data) tgt).setWidth 64 &&& ~~~e.mask =
      (load e.width m tgt).setWidth 64 &&& ~~~e.mask := by
  rw [e.load_rtldBlend, Encoding.blend]
  apply BitVec.eq_of_getLsbD_eq
  intro i hi
  simp only [BitVec.getLsbD_and, BitVec.getLsbD_or, BitVec.getLsbD_not, BitVec.getLsbD_setWidth,
    hi, decide_true, Bool.true_and]
  cases e.mask.getLsbD i with
  | true => simp
  | false =>
      by_cases hw : i < e.width
      · simp [hw]
      · simp [hw, BitVec.getLsbD_of_ge _ _ (Nat.le_of_not_lt hw)]

/-- A successful relocation of one field. -/
theorem Encoding.encoded_of_run {host : Host} {pd : RtldPatchData} {tgt sym : Word}
    {c c' : State} {e : Encoding} (he : encoding host.arch pd.relType = some e)
    (happ : e.Applies c.mem tgt (sym + pd.addend) pd.patchAddr)
    (hapart : e = .branch26 → TargetApart host c tgt)
    (hrun : (rtldRelocAt host pd tgt sym).run c = (.ok (), c')) :
    e.Encoded c.mem c'.mem tgt (sym + pd.addend) pd.patchAddr := by
  have hbranch : encoding host.arch pd.relType = some .branch26 → e = .branch26 := by
    intro h
    rw [he] at h
    exact Option.some.inj h
  obtain ⟨e', target, c₁, he', hvia, hcheck, rfl⟩ := rtldRelocAt_spec
    (fun h => (hapart (hbranch h)).ok) (fun h => (hapart (hbranch h)).endp_le) hrun
  rw [he] at he'
  obtain rfl := Option.some.inj he'
  have hword := e.load_rtldBlend c₁.mem tgt (e.bits (e.value target pd.patchAddr))
  have hkeeps := e.keeps_rtldBlend c₁.mem tgt (e.bits (e.value target pd.patchAddr))
  cases hvia with
  | direct hnear =>
      refine ⟨fun _ => Encoding.decode_eq hword hcheck happ, ?_, hkeeps⟩
      intro hb hfar
      subst hb
      exact absurd ((checkSignedBits_28_iff happ.1 happ.2).mp (hnear rfl)) hfar
  | veneer hb hfar hgrown hle hmod hframe hveneer =>
      subst hb
      rw [checkSignedBits_28_iff happ.1 happ.2] at hfar
      obtain ⟨hok, hend, hfits, hsep⟩ := hapart rfl
      have hdecode := Encoding.decode_eq (e := .branch26) hword hcheck ⟨hmod, happ.2⟩
      have hbrk := hgrown.ok.brk_le
      have hbrkp := hgrown.ok.brkp_le
      have hstub := hveneer.le_brk
      have hgrow := hgrown.brk_le
      rw [hgrown.endp_eq] at hbrkp
      have hold : load 32 c₁.mem tgt = load 32 c.mem tgt := by
        apply load_congr (by decide)
        intro x hx
        rw [inRange_iff (by omega)] at hx
        exact hframe x (by omega)
      refine ⟨fun hnear => absurd (hnear rfl) hfar, ?_, ?_⟩
      · intro _ _ regs
        dsimp only
        rw [hdecode, show Encoding.part .branch26 target = target from rfl]
        apply a64Run_veneer
        rw [← hveneer.bytes]
        apply readBytes_congr _ (by decide)
        intro x hx
        apply Encoding.rtldBlend_of_not_inRange .branch26
        rw [inRange_iff (by omega)] at hx
        change ¬InRange tgt 4 x
        rw [inRange_iff (by omega)]
        omega
      · rw [hkeeps, show load (Encoding.width .branch26) c₁.mem tgt = _ from hold]
        rfl

/-- The relocation types of the four groups of an absolute address. -/
def movwType : Fin 4 → BitVec 32
  | 0 => R_AARCH64_MOVW_UABS_G0_NC
  | 1 => R_AARCH64_MOVW_UABS_G1_NC
  | 2 => R_AARCH64_MOVW_UABS_G2_NC
  | 3 => R_AARCH64_MOVW_UABS_G3

/-- A relocation that succeeds encodes its target: decoded as the processor does,
the field gives the address, or the part of it that the type stands for; a branch
that cannot reach it leads to a veneer that continues there; and the bits outside
the field are as before.  Four instructions relocated with the types of the four
groups give all 64 bits. -/
theorem rtldRelocAt_encodes (host : Host) :
    (∀ (pd : RtldPatchData) (tgt sym : Word) (c c' : State) (e : Encoding),
      encoding host.arch pd.relType = some e →
      e.Applies c.mem tgt (sym + pd.addend) pd.patchAddr →
      (e = .branch26 → TargetApart host c tgt) →
      (rtldRelocAt host pd tgt sym).run c = (.ok (), c') →
      e.Encoded c.mem c'.mem tgt (sym + pd.addend) pd.patchAddr) ∧
    ∀ (pd : Fin 4 → RtldPatchData) (tgt sym : Fin 4 → Word) (c c' : Fin 4 → State) (syma : Word),
      host.arch = .aarch64 → (∀ g, (pd g).relType = movwType g) →
      (∀ g, sym g + (pd g).addend = syma) →
      (∀ g, (rtldRelocAt host (pd g) (tgt g) (sym g)).run (c g) = (.ok (), c' g)) →
      let group (g : Fin 4) : Word :=
        (Encoding.movw g).decode (c' g).mem (tgt g) (pd g).patchAddr
      group 0 ||| group 1 ||| group 2 ||| group 3 = syma := by
  refine ⟨fun _ _ _ _ _ _ => Encoding.encoded_of_run, ?_⟩
  intro pd tgt sym c c' syma harch htype hsyma hrun
  have hgroup : ∀ g, (Encoding.movw g).decode (c' g).mem (tgt g) (pd g).patchAddr =
      syma &&& group16 g := by
    intro g
    have he : encoding host.arch (pd g).relType = some (.movw g) := by
      rw [harch, htype]
      revert g
      decide
    have hencoded := Encoding.encoded_of_run he trivial (by simp) (hrun g)
    rw [hsyma] at hencoded
    exact hencoded.direct (by simp)
  dsimp only
  have hall : group16 0 ||| group16 1 ||| group16 2 ||| group16 3 = BitVec.allOnes 64 := by
    decide
  rw [hgroup, hgroup, hgroup, hgroup, ← BitVec.and_or_distrib_left, ← BitVec.and_or_distrib_left,
    ← BitVec.and_or_distrib_left, hall, BitVec.and_allOnes]

/-- Patch data of a jump at the end of the data arena. -/
def farJump : RtldPatchData := ⟨0, R_AARCH64_JUMP26, 8, 0, 0x400000ffff00⟩

theorem rtldRelocAt_encodes_farJump :
    ∃ c', (rtldRelocAt armHost farJump 0x2000 0x500000).run startState = (.ok (), c') ∧
      Encoding.branch26.Encoded startState.mem c'.mem 0x2000 0x500000 0x400000ffff00 := by
  have hok : ((rtldRelocAt armHost farJump 0x2000 0x500000).run startState).1 = .ok () := by
    decide +kernel
  have hrun := Prod.ext (x := (rtldRelocAt armHost farJump 0x2000 0x500000).run startState)
    (y := (.ok (), _)) hok rfl
  refine ⟨_, hrun, (rtldRelocAt_encodes armHost).1 farJump _ _ _ _ .branch26 rfl ?_ ?_ hrun⟩
  · exact ⟨by decide, by decide⟩
  · intro _
    exact ⟨arenaInit_ok (by decide) (by decide) (by decide), by decide, by decide, by decide⟩

end PollyInstrew.Client
