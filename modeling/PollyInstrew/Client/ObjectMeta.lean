import PollyInstrew.Client.AddObject

/-!
# Well-formed objects

The headers, relocations, symbols and names of an object are its metadata.
`ObjectWf` says when an object is well formed; `SameMeta` says that two
memories show the same metadata, up to the section addresses, which the loader
itself writes.  Whatever changes no metadata byte preserves both.
-/

namespace PollyInstrew.Client

open PollyInstrew.ByteMemory PollyInstrew.StateExcept

/-- Number of bytes of a relocated field. -/
def fieldSize (relType : BitVec 32) : ℕ :=
  if relType = R_X86_64_PC64 ∨ relType = R_X86_64_64 ∨ relType = R_AARCH64_PREL64 then 8 else 4

/-- The section has bytes in the file. -/
def Shdr.hasContent (s : Shdr) : Bool := s.shType ≠ 0#32 && s.shType ≠ SHT_NOBITS

/-- The header without the address. -/
def Shdr.noAddr (s : Shdr) : Shdr := { s with shAddr := 0#64 }

def Rela.relType (rela : Rela) : BitVec 32 := rela.rInfo.setWidth 32

/-- Number of relocations of a section. -/
def Shdr.relaCount (s : Shdr) : ℕ := s.shSize.toNat / relaSize

/-- The ranges of `n` bytes from `a` and `k` bytes from `b` do not overlap. -/
def RangeDisjoint (a n b k : ℕ) : Prop := n = 0 ∨ k = 0 ∨ a + n ≤ b ∨ b + k ≤ a

instance (a n b k : ℕ) : Decidable (RangeDisjoint a n b k) :=
  inferInstanceAs (Decidable (_ ∨ _))

/-- File offset of the section headers. -/
def shoff (re : RtldElf) : ℕ := (re.reShdr - re.base).toNat

/-- Room the layout of the sections before `n` may take. -/
def layoutRoom (m : Mem) (re : RtldElf) : ℕ → ℕ
  | 0 => 0
  | n + 1 => layoutRoom m re n +
      if (shdr m re n).isAlloc then
        (shdr m re n).shSize.toNat + (shdr m re n).shAddralign.toNat
      else 0

/-- The section holds metadata the loader reads. -/
def Shdr.isMeta (s : Shdr) : Bool :=
  s.shType = SHT_RELA || s.shType = SHT_SYMTAB || s.shType = SHT_STRTAB

theorem Shdr.hasContent_of_isMeta {s : Shdr} (h : s.isMeta) : s.hasContent := by
  simp only [Shdr.isMeta, Bool.or_eq_true, decide_eq_true_eq] at h
  rcases h with (ht | ht) | ht <;>
    simp [Shdr.hasContent, ht, SHT_RELA, SHT_SYMTAB, SHT_STRTAB, SHT_NOBITS]

/-- A well-formed object in memory. -/
@[mk_iff]
structure ObjectWf (m : Mem) (re : RtldElf) : Prop where
  table_ge : 64 ≤ shoff re
  table_le : shoff re + shdrSize * shnum m re ≤ re.size.toNat
  content_le : ∀ i < shnum m re, (shdr m re i).hasContent →
    (shdr m re i).shOffset.toNat + (shdr m re i).shSize.toNat ≤ re.size.toNat
  content_header : ∀ i < shnum m re, (shdr m re i).hasContent →
    RangeDisjoint 0 64 (shdr m re i).shOffset.toNat (shdr m re i).shSize.toNat ∧
      RangeDisjoint (shoff re) (shdrSize * shnum m re)
        (shdr m re i).shOffset.toNat (shdr m re i).shSize.toNat
  content_disjoint : ∀ i < shnum m re, ∀ j < shnum m re, i ≠ j →
    (shdr m re i).hasContent → (shdr m re j).hasContent →
    RangeDisjoint (shdr m re i).shOffset.toNat (shdr m re i).shSize.toNat
      (shdr m re j).shOffset.toNat (shdr m re j).shSize.toNat
  align : ∀ i < shnum m re, (shdr m re i).isAlloc →
    ∃ k < 60, (shdr m re i).shAddralign.toNat = 2 ^ k
  room : layoutRoom m re (shnum m re) ≤ 2 ^ 60
  progbits : ∀ i < shnum m re, (shdr m re i).shType = SHT_PROGBITS →
    (shdr m re i).isAlloc ∨ (shdr m re i).shSize = 0#64
  strtab : ∀ i < shnum m re, (shdr m re i).shType = SHT_STRTAB →
    0 < (shdr m re i).shSize.toNat →
    m (re.base + (shdr m re i).shOffset +
      BitVec.ofNat 64 ((shdr m re i).shSize.toNat - 1)) = 0#8
  rela_target : ∀ i < shnum m re, (shdr m re i).shType = SHT_RELA →
    (shdr m re i).shInfo.toNat < shnum m re ∧
      (shdr m re (shdr m re i).shInfo.toNat).hasContent ∧
      ¬(shdr m re (shdr m re i).shInfo.toNat).isMeta
  rela_field : ∀ i < shnum m re, (shdr m re i).shType = SHT_RELA →
    ∀ k < (shdr m re i).relaCount,
      (relaAt m re i k).rOffset.toNat + fieldSize (relaAt m re i k).relType ≤
        (shdr m re (shdr m re i).shInfo.toNat).shSize.toNat
  rela_disjoint : ∀ i < shnum m re, ∀ j < shnum m re,
    (shdr m re i).shType = SHT_RELA → (shdr m re j).shType = SHT_RELA →
    (shdr m re i).shInfo = (shdr m re j).shInfo →
    ∀ k < (shdr m re i).relaCount, ∀ l < (shdr m re j).relaCount,
      ¬(i = j ∧ k = l) →
      RangeDisjoint (relaAt m re i k).rOffset.toNat (fieldSize (relaAt m re i k).relType)
        (relaAt m re j l).rOffset.toNat (fieldSize (relaAt m re j l).relType)

set_option synthInstance.maxSize 2048 in
instance (m : Mem) (re : RtldElf) : Decidable (ObjectWf m re) :=
  decidable_of_iff' _ (objectWf_iff m re)

/-- File offsets of the metadata, without the section addresses. -/
inductive MetaOff (m : Mem) (re : RtldElf) : ℕ → Prop
  | ehdr {o : ℕ} (ho : o < 64) : MetaOff m re o
  | table {i d : ℕ} (hi : i < shnum m re) (hd : d < 16 ∨ (24 ≤ d ∧ d < 64)) :
      MetaOff m re (shoff re + shdrSize * i + d)
  | content {i o : ℕ} (hi : i < shnum m re) (hmeta : (shdr m re i).isMeta)
      (hle : (shdr m re i).shOffset.toNat ≤ o)
      (hlt : o < (shdr m re i).shOffset.toNat + (shdr m re i).shSize.toNat) :
      MetaOff m re o

/-- Two memories show the same metadata. -/
structure SameMeta (m : Mem) (re : RtldElf) (m' : Mem) (re' : RtldElf) : Prop where
  shnum_eq : shnum m' re' = shnum m re
  shdr_eq : ∀ i < shnum m re, (shdr m' re' i).noAddr = (shdr m re i).noAddr
  rela_eq : ∀ i < shnum m re, (shdr m re i).shType = SHT_RELA →
    ∀ k < (shdr m re i).relaCount, relaAt m' re' i k = relaAt m re i k
  sym_eq : ∀ i < shnum m re, (shdr m re i).shType = SHT_SYMTAB →
    ∀ k < (shdr m re i).shSize.toNat / symSize,
      readSym m' (symAddrAt m' re' i k) = readSym m (symAddrAt m re i k)
  str_eq : ∀ i < shnum m re, (shdr m re i).shType = SHT_STRTAB →
    ∀ k < (shdr m re i).shSize.toNat,
      m' (re'.base + (shdr m re i).shOffset + BitVec.ofNat 64 k) =
        m (re.base + (shdr m re i).shOffset + BitVec.ofNat 64 k)

/-! ## Agreement on the metadata bytes -/

theorem shdrAddr_add (re : RtldElf) (i d : ℕ) :
    shdrAddr re i + BitVec.ofNat 64 d =
      re.base + BitVec.ofNat 64 (shoff re + shdrSize * i + d) := by
  have hbase : re.reShdr = re.base + BitVec.ofNat 64 (shoff re) := by
    rw [shoff, BitVec.ofNat_toNat, BitVec.setWidth_eq, BitVec.add_comm,
      BitVec.sub_add_cancel]
  rw [shdrAddr, hbase, BitVec.ofNat_add, BitVec.ofNat_add, BitVec.add_assoc,
    BitVec.add_assoc, BitVec.add_assoc]

theorem readShdr_noAddr_congr {m m' : Mem} {a a' : Word}
    (h : ∀ d, d < 16 ∨ (24 ≤ d ∧ d < 64) →
      m' (a' + BitVec.ofNat 64 d) = m (a + BitVec.ofNat 64 d)) :
    (readShdr m' a').noAddr = (readShdr m a).noAddr := by
  have hfield : ∀ (w f : ℕ), f + w / 8 ≤ 16 ∨ (24 ≤ f ∧ f + w / 8 ≤ 64) →
      load w m' (a' + BitVec.ofNat 64 f) = load w m (a + BitVec.ofNat 64 f) := by
    intro w f hf
    exact load_add_congr f fun d hle hlt => h d (by omega)
  simp only [readShdr, Shdr.noAddr, Shdr.mk.injEq]
  exact ⟨hfield 32 4 (by decide), hfield 64 8 (by decide), trivial,
    hfield 64 24 (by decide), hfield 64 32 (by decide), hfield 32 40 (by decide),
    hfield 32 44 (by decide), hfield 64 48 (by decide), hfield 64 56 (by decide)⟩

theorem readRela_congr {m m' : Mem} {a a' : Word}
    (h : ∀ d < relaSize, m' (a' + BitVec.ofNat 64 d) = m (a + BitVec.ofNat 64 d)) :
    readRela m' a' = readRela m a := by
  have hfield : ∀ f, f + 8 ≤ relaSize →
      load 64 m' (a' + BitVec.ofNat 64 f) = load 64 m (a + BitVec.ofNat 64 f) := by
    intro f hf
    exact load_add_congr f fun d _ hlt => h d (by omega)
  have hfirst := hfield 0 (by decide)
  rw [BitVec.add_zero, BitVec.add_zero] at hfirst
  simp only [readRela, Rela.mk.injEq]
  exact ⟨hfirst, hfield 8 (by decide), hfield 16 (by decide)⟩

theorem readSym_congr {m m' : Mem} {a a' : Word}
    (h : ∀ d < symSize, m' (a' + BitVec.ofNat 64 d) = m (a + BitVec.ofNat 64 d)) :
    readSym m' a' = readSym m a := by
  have hfield : ∀ w f, f + w / 8 ≤ symSize →
      load w m' (a' + BitVec.ofNat 64 f) = load w m (a + BitVec.ofNat 64 f) := by
    intro w f hf
    exact load_add_congr f fun d _ hlt => h d (by omega)
  have hfirst := hfield 32 0 (by decide)
  rw [BitVec.add_zero, BitVec.add_zero] at hfirst
  simp only [readSym, Sym.mk.injEq]
  exact ⟨hfirst, hfield 8 4 (by decide), hfield 8 5 (by decide), hfield 16 6 (by decide),
    hfield 64 8 (by decide)⟩

theorem Shdr.eq_of_noAddr_eq {s t : Shdr} (h : s.noAddr = t.noAddr) :
    s.shType = t.shType ∧ s.shFlags = t.shFlags ∧ s.shOffset = t.shOffset ∧
      s.shSize = t.shSize ∧ s.shLink = t.shLink ∧ s.shInfo = t.shInfo ∧
      s.shAddralign = t.shAddralign ∧ s.shEntsize = t.shEntsize := by
  simpa [Shdr.noAddr] using h

theorem Shdr.eq_of_noAddr {s t : Shdr} (h : s.noAddr = t.noAddr)
    (haddr : s.shAddr = t.shAddr) : s = t := by
  cases s
  cases t
  simp only [Shdr.noAddr, Shdr.mk.injEq] at h ⊢
  simp only at haddr
  tauto

/-- Agreement on the bytes of the metadata is agreement on the metadata. -/
theorem sameMeta_of_agree
    {m m' : Mem} {re re' : RtldElf} (hshoff : shoff re' = shoff re)
    (h : ∀ o, MetaOff m re o →
      m' (re'.base + BitVec.ofNat 64 o) = m (re.base + BitVec.ofNat 64 o)) :
    SameMeta m re m' re' := by
  have hshdr : ∀ i < shnum m re, (shdr m' re' i).noAddr = (shdr m re i).noAddr := by
    intro i hi
    apply readShdr_noAddr_congr
    intro d hd
    rw [shdrAddr_add, shdrAddr_add, hshoff]
    exact h _ (.table hi hd)
  have hcontent : ∀ i < shnum m re, (shdr m re i).isMeta →
      ∀ k < (shdr m re i).shSize.toNat,
        m' (re'.base + (shdr m re i).shOffset + BitVec.ofNat 64 k) =
          m (re.base + (shdr m re i).shOffset + BitVec.ofNat 64 k) := by
    intro i hi hmeta k hk
    have hsum : (shdr m re i).shOffset + BitVec.ofNat 64 k =
        BitVec.ofNat 64 ((shdr m re i).shOffset.toNat + k) := by
      rw [BitVec.ofNat_add, BitVec.ofNat_toNat, BitVec.setWidth_eq]
    rw [BitVec.add_assoc, BitVec.add_assoc, hsum]
    exact h _ (.content hi hmeta (by omega) (by omega))
  refine ⟨?_, hshdr, ?_, ?_, ?_⟩
  · have hload : load 16 m' (re'.base + BitVec.ofNat 64 60) =
        load 16 m (re.base + BitVec.ofNat 64 60) :=
      load_add_congr 60 fun d _ hlt => h d (.ehdr (by omega))
    exact congrArg BitVec.toNat hload
  · intro i hi htype k hk
    have hoff := (Shdr.eq_of_noAddr_eq (hshdr i hi)).2.2.1
    have hlen : relaSize * (k + 1) ≤ (shdr m re i).shSize.toNat :=
      (Nat.mul_le_mul_left _ hk).trans (Nat.mul_div_le _ _)
    rw [relaAt, relaAt, hoff]
    apply readRela_congr
    intro d hd
    rw [BitVec.add_assoc, BitVec.add_assoc _ _ (BitVec.ofNat 64 d), ← BitVec.ofNat_add]
    exact hcontent i hi (by simp [Shdr.isMeta, htype]) _ (by simp only [relaSize] at *; omega)
  · intro i hi htype k hk
    have hoff := (Shdr.eq_of_noAddr_eq (hshdr i hi)).2.2.1
    have hlen : symSize * (k + 1) ≤ (shdr m re i).shSize.toNat :=
      (Nat.mul_le_mul_left _ hk).trans (Nat.mul_div_le _ _)
    rw [symAddrAt, symAddrAt, hoff]
    apply readSym_congr
    intro d hd
    rw [BitVec.add_assoc, BitVec.add_assoc _ _ (BitVec.ofNat 64 d), ← BitVec.ofNat_add]
    exact hcontent i hi (by simp [Shdr.isMeta, htype]) _ (by simp only [symSize] at *; omega)
  · intro i hi htype k hk
    exact hcontent i hi (by simp [Shdr.isMeta, htype]) k hk

theorem SameMeta.refl (m : Mem) (re : RtldElf) : SameMeta m re m re :=
  sameMeta_of_agree rfl fun _ _ => rfl

section SameMeta

variable {m m' : Mem} {re re' : RtldElf} (h : SameMeta m re m' re')
include h

theorem SameMeta.field_eq {i : ℕ} (hi : i < shnum m re) :
    (shdr m' re' i).shType = (shdr m re i).shType ∧
      (shdr m' re' i).shFlags = (shdr m re i).shFlags ∧
      (shdr m' re' i).shOffset = (shdr m re i).shOffset ∧
      (shdr m' re' i).shSize = (shdr m re i).shSize ∧
      (shdr m' re' i).shLink = (shdr m re i).shLink ∧
      (shdr m' re' i).shInfo = (shdr m re i).shInfo ∧
      (shdr m' re' i).shAddralign = (shdr m re i).shAddralign ∧
      (shdr m' re' i).shEntsize = (shdr m re i).shEntsize :=
  Shdr.eq_of_noAddr_eq (h.shdr_eq i hi)

theorem SameMeta.type_eq {i : ℕ} (hi : i < shnum m re) :
    (shdr m' re' i).shType = (shdr m re i).shType := (h.field_eq hi).1

theorem SameMeta.offset_eq {i : ℕ} (hi : i < shnum m re) :
    (shdr m' re' i).shOffset = (shdr m re i).shOffset := (h.field_eq hi).2.2.1

theorem SameMeta.size_eq {i : ℕ} (hi : i < shnum m re) :
    (shdr m' re' i).shSize = (shdr m re i).shSize := (h.field_eq hi).2.2.2.1

theorem SameMeta.link_eq {i : ℕ} (hi : i < shnum m re) :
    (shdr m' re' i).shLink = (shdr m re i).shLink := (h.field_eq hi).2.2.2.2.1

theorem SameMeta.info_eq {i : ℕ} (hi : i < shnum m re) :
    (shdr m' re' i).shInfo = (shdr m re i).shInfo := (h.field_eq hi).2.2.2.2.2.1

theorem SameMeta.addralign_eq {i : ℕ} (hi : i < shnum m re) :
    (shdr m' re' i).shAddralign = (shdr m re i).shAddralign :=
  (h.field_eq hi).2.2.2.2.2.2.1

theorem SameMeta.entsize_eq {i : ℕ} (hi : i < shnum m re) :
    (shdr m' re' i).shEntsize = (shdr m re i).shEntsize :=
  (h.field_eq hi).2.2.2.2.2.2.2

theorem SameMeta.isAlloc_eq {i : ℕ} (hi : i < shnum m re) :
    (shdr m' re' i).isAlloc = (shdr m re i).isAlloc := by
  rw [Shdr.isAlloc, Shdr.isAlloc, (h.field_eq hi).2.1]

theorem SameMeta.hasContent_eq {i : ℕ} (hi : i < shnum m re) :
    (shdr m' re' i).hasContent = (shdr m re i).hasContent := by
  rw [Shdr.hasContent, Shdr.hasContent, h.type_eq hi]

theorem SameMeta.isMeta_eq {i : ℕ} (hi : i < shnum m re) :
    (shdr m' re' i).isMeta = (shdr m re i).isMeta := by
  rw [Shdr.isMeta, Shdr.isMeta, h.type_eq hi]

theorem SameMeta.relaCount_eq {i : ℕ} (hi : i < shnum m re) :
    (shdr m' re' i).relaCount = (shdr m re i).relaCount := by
  rw [Shdr.relaCount, Shdr.relaCount, h.size_eq hi]

theorem SameMeta.layoutRoom_eq {n : ℕ} (hn : n ≤ shnum m re) :
    layoutRoom m' re' n = layoutRoom m re n := by
  induction n with
  | zero => rfl
  | succ n ih =>
      rw [layoutRoom, layoutRoom, ih (by omega), h.isAlloc_eq (by omega),
        h.size_eq (by omega), h.addralign_eq (by omega)]

/-- Well-formedness only speaks about the metadata. -/
theorem SameMeta.wf (hwf : ObjectWf m re) (hshoff : shoff re' = shoff re)
    (hsize : re'.size = re.size) : ObjectWf m' re' where
  table_ge := hshoff ▸ hwf.table_ge
  table_le := by
    rw [hshoff, h.shnum_eq, hsize]
    exact hwf.table_le
  content_le := by
    intro i hi hc
    rw [h.shnum_eq] at hi
    rw [h.hasContent_eq hi] at hc
    rw [h.offset_eq hi, h.size_eq hi, hsize]
    exact hwf.content_le i hi hc
  content_header := by
    intro i hi hc
    rw [h.shnum_eq] at hi
    rw [h.hasContent_eq hi] at hc
    rw [h.offset_eq hi, h.size_eq hi, hshoff, h.shnum_eq]
    exact hwf.content_header i hi hc
  content_disjoint := by
    intro i hi j hj hne hci hcj
    rw [h.shnum_eq] at hi hj
    rw [h.hasContent_eq hi] at hci
    rw [h.hasContent_eq hj] at hcj
    rw [h.offset_eq hi, h.size_eq hi, h.offset_eq hj, h.size_eq hj]
    exact hwf.content_disjoint i hi j hj hne hci hcj
  align := by
    intro i hi ha
    rw [h.shnum_eq] at hi
    rw [h.isAlloc_eq hi] at ha
    rw [h.addralign_eq hi]
    exact hwf.align i hi ha
  room := by
    rw [h.shnum_eq, h.layoutRoom_eq (Nat.le_refl _)]
    exact hwf.room
  progbits := by
    intro i hi ht
    rw [h.shnum_eq] at hi
    rw [h.type_eq hi] at ht
    rw [h.isAlloc_eq hi, h.size_eq hi]
    exact hwf.progbits i hi ht
  strtab := by
    intro i hi ht hpos
    rw [h.shnum_eq] at hi
    rw [h.type_eq hi] at ht
    rw [h.size_eq hi] at hpos
    rw [h.offset_eq hi, h.size_eq hi, h.str_eq i hi ht _ (by omega)]
    exact hwf.strtab i hi ht hpos
  rela_target := by
    intro i hi ht
    rw [h.shnum_eq] at hi
    rw [h.type_eq hi] at ht
    obtain ⟨hlt, hc⟩ := hwf.rela_target i hi ht
    rw [h.info_eq hi, h.shnum_eq, h.hasContent_eq hlt, h.isMeta_eq hlt]
    exact ⟨hlt, hc⟩
  rela_field := by
    intro i hi ht k hk
    rw [h.shnum_eq] at hi
    rw [h.type_eq hi] at ht
    rw [h.relaCount_eq hi] at hk
    obtain ⟨hlt, -⟩ := hwf.rela_target i hi ht
    rw [h.info_eq hi, h.rela_eq i hi ht k hk, h.size_eq hlt]
    exact hwf.rela_field i hi ht k hk
  rela_disjoint := by
    intro i hi j hj hti htj hinfo k hk l hl hne
    rw [h.shnum_eq] at hi hj
    rw [h.type_eq hi] at hti
    rw [h.type_eq hj] at htj
    rw [h.info_eq hi, h.info_eq hj] at hinfo
    rw [h.relaCount_eq hi] at hk
    rw [h.relaCount_eq hj] at hl
    rw [h.rela_eq i hi hti k hk, h.rela_eq j hj htj l hl]
    exact hwf.rela_disjoint i hi j hj hti htj hinfo k hk l hl hne

end SameMeta

theorem SameMeta.trans {m m' m'' : Mem} {re re' re'' : RtldElf}
    (h : SameMeta m re m' re') (h' : SameMeta m' re' m'' re'') : SameMeta m re m'' re'' where
  shnum_eq := h'.shnum_eq.trans h.shnum_eq
  shdr_eq := by
    intro i hi
    exact (h'.shdr_eq i (h.shnum_eq ▸ hi)).trans (h.shdr_eq i hi)
  rela_eq := by
    intro i hi ht k hk
    have hi' : i < shnum m' re' := h.shnum_eq ▸ hi
    rw [h'.rela_eq i hi' ((h.type_eq hi).trans ht) k (by rwa [h.relaCount_eq hi])]
    exact h.rela_eq i hi ht k hk
  sym_eq := by
    intro i hi ht k hk
    have hi' : i < shnum m' re' := h.shnum_eq ▸ hi
    rw [h'.sym_eq i hi' ((h.type_eq hi).trans ht) k (by rwa [h.size_eq hi])]
    exact h.sym_eq i hi ht k hk
  str_eq := by
    intro i hi ht k hk
    have hi' : i < shnum m' re' := h.shnum_eq ▸ hi
    have hstr := h'.str_eq i hi' ((h.type_eq hi).trans ht) k (by rwa [h.size_eq hi])
    rw [h.offset_eq hi] at hstr
    rw [hstr]
    exact h.str_eq i hi ht k hk

/-! ## Guest addresses named by undefined symbols -/

/-- The guest address an undefined symbol names; `0` for a name with a letter
`Z` or `S` that is not followed by octal digits. -/
def guestRef (m : Mem) (re : RtldElf) (symtabIdx symIdx : ℕ) : Option Word :=
  if symIdxOk m re symtabIdx symIdx then
    let sym := readSym m (symAddrAt m re symtabIdx symIdx)
    if sym.stShndx = SHN_UNDEF then
      match rtldElfDecodeName re.skew (undefName m re symtabIdx sym) with
      | .ok addr => some (addr.getD 0#64)
      | .error _ => none
    else
      none
  else
    none

/-- What a symbol stands for. -/
inductive SymSource where
  | inSection (idx : ℕ) (value : Word)
  | absolute (value : Word)
  /-- `instrew_baseaddr`. -/
  | baseaddr
  | pltSlot (idx : ℕ)
  | guest (addr : Word)
  deriving DecidableEq, Repr

/-- What the name of an undefined symbol stands for. -/
def nameSource (arch : Arch) (skew : Word) (name : CStr) : Option SymSource :=
  if startsWith name (literal "glob_") 0 then
    none
  else if equals name (literal "instrew_baseaddr") 0 then
    some .baseaddr
  else
    match rtldElfDecodeName skew name with
    | .ok addr => some (.guest (addr.getD 0#64))
    | .error _ => (pltIndex arch name).map .pltSlot

def symSource (arch : Arch) (m : Mem) (re : RtldElf) (symtabIdx symIdx : ℕ) :
    Option SymSource :=
  if symIdxOk m re symtabIdx symIdx then
    let sym := readSym m (symAddrAt m re symtabIdx symIdx)
    if sym.stShndx = SHN_UNDEF then
      nameSource arch re.skew (undefName m re symtabIdx sym)
    else if sym.stShndx = SHN_ABS then
      some (.absolute sym.stValue)
    else if sym.stShndx.toNat < shnum m re then
      some (.inSection sym.stShndx.toNat sym.stValue)
    else
      none
  else
    none

/-- The same characters up to the terminator. -/
def SameString (s s' : CStr) : Prop := ∀ k, (∀ j < k, s j ≠ 0#8) → s' k = s k

theorem SameString.refl (s : CStr) : SameString s s := fun _ _ => rfl

theorem ne_zero_succ {s : CStr} {k : ℕ} (hk : ∀ j < k, s j ≠ 0#8) (hz : s k ≠ 0#8) :
    ∀ j < k + 1, s j ≠ 0#8 := by
  intro j hj
  rcases Nat.lt_succ_iff_lt_or_eq.mp hj with hlt | rfl
  · exact hk j hlt
  · exact hz

theorem decodeDigits_congr {s s' : CStr} (h : SameString s s') :
    ∀ fuel k addr, (∀ j < k, s j ≠ 0#8) →
      decodeDigits s' fuel k addr = decodeDigits s fuel k addr := by
  intro fuel
  induction fuel with
  | zero =>
      intro k addr _
      rfl
  | succ fuel ih =>
      intro k addr hk
      rw [decodeDigits, decodeDigits, h k hk]
      by_cases hend : s k = 0#8 ∨ s k = 0x5f#8
      · rw [if_pos hend, if_pos hend]
      · rw [if_neg hend, if_neg hend]
        rw [ih _ _ (ne_zero_succ hk fun hz => hend (Or.inl hz))]

theorem rtldElfDecodeName_congr {s s' : CStr} (h : SameString s s') (skew : Word) :
    rtldElfDecodeName skew s' = rtldElfDecodeName skew s := by
  have hzero : s' 0 = s 0 := h 0 (by simp)
  unfold rtldElfDecodeName
  rw [hzero]
  by_cases hletter : s 0 ≠ 0x5a#8 ∧ s 0 ≠ 0x53#8
  · rw [if_pos hletter, if_pos hletter]
  · rw [if_neg hletter, if_neg hletter]
    have hne : ∀ j < 1, s j ≠ 0#8 := by
      intro j hj hz
      obtain rfl : j = 0 := by omega
      rw [hz] at hletter
      exact hletter (by decide)
    rw [decodeDigits_congr h _ 1 _ hne]

theorem startsWith_congr {s s' : CStr} (h : SameString s s') :
    ∀ (bs : List Byte) (k : ℕ), (∀ b ∈ bs, b ≠ 0#8) → (∀ j < k, s j ≠ 0#8) →
      startsWith s' bs k = startsWith s bs k := by
  intro bs
  induction bs with
  | nil =>
      intro k _ _
      rfl
  | cons b bs ih =>
      intro k hbs hk
      rw [startsWith, startsWith, h k hk]
      by_cases hb : s k = b
      · rw [ih (k + 1) (fun b hb => hbs b (List.mem_cons_of_mem _ hb))
          (ne_zero_succ hk (hb ▸ hbs b List.mem_cons_self))]
      · simp [hb]

theorem equals_congr {s s' : CStr} (h : SameString s s') :
    ∀ (bs : List Byte) (k : ℕ), (∀ b ∈ bs, b ≠ 0#8) → (∀ j < k, s j ≠ 0#8) →
      equals s' bs k = equals s bs k := by
  intro bs
  induction bs with
  | nil =>
      intro k _ hk
      rw [equals, equals, h k hk]
  | cons b bs ih =>
      intro k hbs hk
      rw [equals, equals, h k hk]
      by_cases hb : s k = b
      · rw [ih (k + 1) (fun b hb => hbs b (List.mem_cons_of_mem _ hb))
          (ne_zero_succ hk (hb ▸ hbs b List.mem_cons_self))]
      · simp [hb]

theorem pltIndex_congr {s s' : CStr} (h : SameString s s') (arch : Arch) :
    pltIndex arch s' = pltIndex arch s := by
  have hnames : ∀ entry ∈ pltNames arch, ∀ b ∈ literal entry, b ≠ 0#8 := by
    cases arch <;> simp [pltNames, literal]
  unfold pltIndex
  generalize pltNames arch = names at hnames ⊢
  induction names with
  | nil => rfl
  | cons entry names ih =>
      rw [List.findIdx?_cons, List.findIdx?_cons,
        equals_congr h _ 0 (hnames entry List.mem_cons_self) (by simp),
        ih fun e he => hnames e (List.mem_cons_of_mem _ he)]

theorem nameSource_congr {s s' : CStr} (h : SameString s s') (arch : Arch) (skew : Word) :
    nameSource arch skew s' = nameSource arch skew s := by
  unfold nameSource
  rw [startsWith_congr h _ 0 (by decide) (by simp), equals_congr h _ 0 (by decide) (by simp),
    rtldElfDecodeName_congr h, pltIndex_congr h]

section SameMeta

variable {m m' : Mem} {re re' : RtldElf} (h : SameMeta m re m' re') (hwf : ObjectWf m re)
include h

theorem SameMeta.symIdxOk_eq (symtabIdx symIdx : ℕ) :
    symIdxOk m' re' symtabIdx symIdx = symIdxOk m re symtabIdx symIdx := by
  unfold symIdxOk
  by_cases hlt : symtabIdx < shnum m re
  · simp only [h.shnum_eq, h.type_eq hlt, h.entsize_eq hlt, h.size_eq hlt]
  · simp [h.shnum_eq, hlt]

include hwf

/-- Strings of a string table end inside it, so they are the same. -/
theorem SameMeta.sameString {i k : ℕ} (hi : i < shnum m re)
    (htype : (shdr m re i).shType = SHT_STRTAB) (hk : k < (shdr m re i).shSize.toNat) :
    SameString (cstrAt m (re.base + (shdr m re i).shOffset + BitVec.ofNat 64 k))
      (cstrAt m' (re'.base + (shdr m re i).shOffset + BitVec.ofNat 64 k)) := by
  intro j hj
  have hlt : k + j < (shdr m re i).shSize.toNat := by
    by_contra hge
    have hend := hwf.strtab i hi htype (by omega)
    refine hj ((shdr m re i).shSize.toNat - 1 - k) (by omega) ?_
    rw [cstrAt, BitVec.add_assoc _ (BitVec.ofNat 64 k), ← BitVec.ofNat_add]
    rwa [show k + ((shdr m re i).shSize.toNat - 1 - k) =
      (shdr m re i).shSize.toNat - 1 by omega]
  rw [cstrAt, cstrAt, BitVec.add_assoc _ (BitVec.ofNat 64 k),
    BitVec.add_assoc _ (BitVec.ofNat 64 k), ← BitVec.ofNat_add]
  exact h.str_eq i hi htype _ hlt

theorem SameMeta.undefName {symtabIdx : ℕ} (hlt : symtabIdx < shnum m re) (sym : Sym) :
    SameString (undefName m re symtabIdx sym) (undefName m' re' symtabIdx sym) := by
  unfold Client.undefName rtldElfResolveStr
  rw [h.link_eq hlt, h.shnum_eq]
  by_cases hidx : (shdr m re symtabIdx).shLink.toNat = 0 ∨
      shnum m re ≤ (shdr m re symtabIdx).shLink.toNat
  · rw [if_pos hidx, if_pos hidx]
    exact SameString.refl _
  · have hstr : (shdr m re symtabIdx).shLink.toNat < shnum m re := by omega
    rw [if_neg hidx, if_neg hidx]
    dsimp only
    rw [h.type_eq hstr, h.size_eq hstr, h.offset_eq hstr]
    by_cases htype : (shdr m re (shdr m re symtabIdx).shLink.toNat).shType ≠ SHT_STRTAB
    · rw [if_pos htype, if_pos htype]
      exact SameString.refl _
    · rw [if_neg htype, if_neg htype]
      by_cases hlen : (shdr m re (shdr m re symtabIdx).shLink.toNat).shSize.toNat ≤
          sym.stName.toNat
      · rw [if_pos hlen, if_pos hlen]
        exact SameString.refl _
      · rw [if_neg hlen, if_neg hlen]
        exact h.sameString hwf hstr (not_not.mp htype) (by omega)

/-- Symbols stand for the same things. -/
theorem SameMeta.symSource_eq (hskew : re'.skew = re.skew) (arch : Arch)
    (symtabIdx symIdx : ℕ) :
    symSource arch m' re' symtabIdx symIdx = symSource arch m re symtabIdx symIdx := by
  unfold symSource
  rw [h.symIdxOk_eq]
  by_cases hok : symIdxOk m re symtabIdx symIdx
  · rw [if_pos hok, if_pos hok]
    simp only [symIdxOk, Bool.and_eq_true, decide_eq_true_eq] at hok
    obtain ⟨⟨⟨⟨⟨-, hlt⟩, htype⟩, -⟩, -⟩, hidx⟩ := hok
    dsimp only
    rw [h.sym_eq _ hlt htype _ hidx, hskew, nameSource_congr (h.undefName hwf hlt _),
      h.shnum_eq]
  · rw [if_neg hok, if_neg hok]

end SameMeta

end PollyInstrew.Client
