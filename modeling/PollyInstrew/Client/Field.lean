import PollyInstrew.Client.ObjectMeta

/-!
# Relocated fields on x86-64

The address a relocated field denotes, read the way the processor reads it,
and what a successful `rtld_reloc_at` makes of it.
-/

namespace PollyInstrew.Client

open PollyInstrew.ByteMemory PollyInstrew.StateExcept

/-- The relocation types `rtld_reloc_at` handles on x86-64. -/
def x86Supported (relType : BitVec 32) : Prop :=
  relType = R_X86_64_PC64 ∨ relType = R_X86_64_64 ∨ relType = R_X86_64_PC32 ∨
    relType = R_X86_64_PLT32 ∨ relType = R_X86_64_32S ∨ relType = R_X86_64_32

instance (relType : BitVec 32) : Decidable (x86Supported relType) :=
  inferInstanceAs (Decidable (_ ∨ _))

def isPcRel (relType : BitVec 32) : Prop :=
  relType = R_X86_64_PC64 ∨ relType = R_X86_64_PC32 ∨ relType = R_X86_64_PLT32

instance (relType : BitVec 32) : Decidable (isPcRel relType) :=
  inferInstanceAs (Decidable (_ ∨ _))

/-- The value of the field at `loc`, extended as the processor does. -/
def fieldValue (m : Mem) (loc : Word) (relType : BitVec 32) : Word :=
  if fieldSize relType = 8 then
    load 64 m loc
  else if relType = R_X86_64_32 then
    (load 32 m loc).setWidth 64
  else
    (load 32 m loc).signExtend 64

/-- The address the field at `loc` denotes: its value without the addend,
relative to the patch address for the PC-relative types. -/
def fieldTarget (m : Mem) (loc : Word) (pd : RtldPatchData) : Word :=
  fieldValue m loc pd.relType + (if isPcRel pd.relType then pd.patchAddr else 0#64) -
    pd.addend

theorem fieldSize_eq (relType : BitVec 32) :
    fieldSize relType = 8 ∨ fieldSize relType = 4 := by
  unfold fieldSize
  split
  · exact Or.inl rfl
  · exact Or.inr rfl

/-- The target only depends on the bytes of the field. -/
theorem fieldTarget_congr {m m' : Mem} {loc loc' : Word} {pd : RtldPatchData}
    (h : ∀ d < fieldSize pd.relType,
      m' (loc' + BitVec.ofNat 64 d) = m (loc + BitVec.ofNat 64 d)) :
    fieldTarget m' loc' pd = fieldTarget m loc pd := by
  have hload : ∀ w, w / 8 ≤ fieldSize pd.relType → load w m' loc' = load w m loc := by
    intro w hw
    have heq : load w m' (loc' + BitVec.ofNat 64 0) = load w m (loc + BitVec.ofNat 64 0) :=
      load_add_congr 0 fun d _ hlt => h d (by omega)
    rwa [BitVec.add_zero, BitVec.add_zero] at heq
  have hvalue : fieldValue m' loc' pd.relType = fieldValue m loc pd.relType := by
    unfold fieldValue
    rcases fieldSize_eq pd.relType with h8 | h4
    · rw [if_pos h8, if_pos h8, hload 64 (by omega)]
    · have hne : fieldSize pd.relType ≠ 8 := by omega
      rw [hload 32 (by omega), if_neg hne, if_neg hne]
  rw [fieldTarget, fieldTarget, hvalue]

/-! ## Blending -/

theorem rtldBlend_full (m : Mem) (tgt data : Word) :
    rtldBlend m tgt 0xffffffffffffffff#64 data = store 64 m tgt data := by
  have hones : 0xffffffffffffffff#64 = BitVec.allOnes 64 := by decide
  rw [rtldBlend, if_pos (by decide), hones, BitVec.and_allOnes, BitVec.not_allOnes,
    BitVec.and_zero, BitVec.or_zero]

theorem rtldBlend_low32 (m : Mem) (tgt data : Word) :
    rtldBlend m tgt 0xffffffff#64 data = store 32 m tgt (data.setWidth 32) := by
  have hmask : (0xffffffff#64).setWidth 32 = BitVec.allOnes 32 := by decide
  have hnot : (~~~0xffffffff#64).setWidth 32 = 0#32 := by decide
  rw [rtldBlend, if_neg (by decide), if_pos (by decide), BitVec.setWidth_or,
    BitVec.setWidth_and, BitVec.setWidth_and, hmask, hnot, BitVec.and_allOnes,
    BitVec.and_zero, BitVec.or_zero]

/-- A value that passes the range check survives truncation. -/
theorem signExtend_setWidth_of_check {v : Word} (h : checkSignedBits v 32) :
    (v.setWidth 32).signExtend 64 = v := by
  simp only [checkSignedBits, decide_eq_true_eq] at h
  apply BitVec.eq_of_toInt_eq
  rw [BitVec.toInt_signExtend_of_le (by decide)]
  have hv := v.isLt
  rw [BitVec.toInt_eq_toNat_cond] at h ⊢
  rw [BitVec.toInt_eq_toNat_cond, BitVec.toNat_setWidth]
  split at h <;> split <;> omega

theorem setWidth_setWidth_of_check {v : Word} (h : checkUnsignedBits v 32) :
    (v.setWidth 32).setWidth 64 = v := by
  simp only [checkUnsignedBits, decide_eq_true_eq] at h
  apply BitVec.eq_of_toNat_eq
  rw [BitVec.toNat_setWidth, BitVec.toNat_setWidth]
  omega

/-- What a successful relocation blends: a whole word, or a number of 32 bits
that passed the check of its type. -/
structure BlendSpec (relType : BitVec 32) (syma prelSyma mask data : Word) : Prop where
  supported : x86Supported relType
  data_eq : data = if isPcRel relType then prelSyma else syma
  mask_eq : (fieldSize relType = 8 ∧ mask = 0xffffffffffffffff#64) ∨
    (fieldSize relType = 4 ∧ mask = 0xffffffff#64 ∧
      if relType = R_X86_64_32 then checkUnsignedBits data 32 else checkSignedBits data 32)

theorem rtldElfSignedRange_bind {v : Word} {bits : ℕ} {p q : Word × Word}
    (h : (do rtldElfSignedRange v bits; return p : Except ℤ (Word × Word)) = .ok q) :
    checkSignedBits v bits ∧ p = q := by
  unfold rtldElfSignedRange at h
  by_cases hc : checkSignedBits v bits
  · rw [if_pos hc] at h
    exact ⟨hc, Except.ok.inj h⟩
  · rw [if_neg hc] at h
    exact absurd h (by simp [bind, Except.bind])

theorem rtldElfUnsignedRange_bind {v : Word} {bits : ℕ} {p q : Word × Word}
    (h : (do rtldElfUnsignedRange v bits; return p : Except ℤ (Word × Word)) = .ok q) :
    checkUnsignedBits v bits ∧ p = q := by
  unfold rtldElfUnsignedRange at h
  by_cases hc : checkUnsignedBits v bits
  · rw [if_pos hc] at h
    exact ⟨hc, Except.ok.inj h⟩
  · rw [if_neg hc] at h
    exact absurd h (by simp [bind, Except.bind])

theorem x86RelocData_ok {relType : BitVec 32} {syma prelSyma mask data : Word}
    (h : x86RelocData relType syma prelSyma = .ok (mask, data)) :
    BlendSpec relType syma prelSyma mask data := by
  unfold x86RelocData at h
  split at h
  · next ht =>
    cases h
    subst ht
    exact ⟨Or.inl rfl, rfl, Or.inl ⟨rfl, rfl⟩⟩
  split at h
  · next ht =>
    cases h
    subst ht
    exact ⟨Or.inr (Or.inl rfl), rfl, Or.inl ⟨rfl, rfl⟩⟩
  split at h
  · next ht =>
    obtain ⟨hc, heq⟩ := rtldElfSignedRange_bind h
    obtain ⟨rfl, rfl⟩ := Prod.mk.inj heq
    rcases ht with rfl | rfl
    · exact ⟨Or.inr (Or.inr (Or.inl rfl)), rfl, Or.inr ⟨rfl, rfl, hc⟩⟩
    · exact ⟨Or.inr (Or.inr (Or.inr (Or.inl rfl))), rfl, Or.inr ⟨rfl, rfl, hc⟩⟩
  split at h
  · next ht =>
    obtain ⟨hc, heq⟩ := rtldElfSignedRange_bind h
    obtain ⟨rfl, rfl⟩ := Prod.mk.inj heq
    subst ht
    exact ⟨Or.inr (Or.inr (Or.inr (Or.inr (Or.inl rfl)))), rfl, Or.inr ⟨rfl, rfl, hc⟩⟩
  split at h
  · next ht =>
    obtain ⟨hc, heq⟩ := rtldElfUnsignedRange_bind h
    obtain ⟨rfl, rfl⟩ := Prod.mk.inj heq
    subst ht
    exact ⟨Or.inr (Or.inr (Or.inr (Or.inr (Or.inr rfl)))), rfl, Or.inr ⟨rfl, rfl, hc⟩⟩
  · simp at h

/-- A relocation that succeeds makes the field denote the symbol and changes
no other byte. -/
theorem rtldBlend_spec {m : Mem} {loc sym mask data : Word} {pd : RtldPatchData}
    (h : x86RelocData pd.relType (sym + pd.addend) (sym + pd.addend - pd.patchAddr) =
      .ok (mask, data)) :
    x86Supported pd.relType ∧ fieldTarget (rtldBlend m loc mask data) loc pd = sym ∧
      ∀ x, ¬InRange loc (fieldSize pd.relType) x → rtldBlend m loc mask data x = m x := by
  obtain ⟨hsupp, hdata, hmask⟩ := x86RelocData_ok h
  have hvalue : fieldValue (rtldBlend m loc mask data) loc pd.relType = data := by
    unfold fieldValue
    rcases hmask with ⟨h8, rfl⟩ | ⟨h4, rfl, hcheck⟩
    · rw [if_pos h8, rtldBlend_full, load_store_64]
    · rw [if_neg (by omega), rtldBlend_low32, load_store_32]
      split
      · next ht =>
        rw [if_pos ht] at hcheck
        exact setWidth_setWidth_of_check hcheck
      · next ht =>
        rw [if_neg ht] at hcheck
        exact signExtend_setWidth_of_check hcheck
  refine ⟨hsupp, ?_, ?_⟩
  · rw [fieldTarget, hvalue, hdata]
    split
    · rw [BitVec.sub_add_cancel, BitVec.add_sub_cancel]
    · rw [BitVec.add_zero, BitVec.add_sub_cancel]
  · intro x hx
    rcases hmask with ⟨h8, rfl⟩ | ⟨h4, rfl, -⟩
    · rw [rtldBlend_full]
      rw [h8] at hx
      exact store_of_not_inRange hx
    · rw [rtldBlend_low32]
      rw [h4] at hx
      exact store_of_not_inRange hx

end PollyInstrew.Client
