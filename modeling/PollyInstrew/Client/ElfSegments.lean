import PollyInstrew.Client.ElfMap

/-!
# What the mapped segments hold

After `elf_map` the addresses of a segment hold the bytes of the file, followed
by zeros, with the protection of the segment; nothing changes outside the pages
of the segment.  Segments whose pages are disjoint do not disturb each other.
-/

namespace PollyInstrew.Client

open PollyInstrew.ByteMemory PollyInstrew.AddressSpace PollyInstrew.StateExcept

/-! ## The ranges of a segment -/

/-- A segment whose size in the file is not larger than that in memory, and whose
pages at `addr` do not wrap around. -/
structure SegmentFits (pagesz addr : Word) (ph : ElfPhdr) : Prop where
  size : ph.pFilesz.toNat ≤ ph.pMemsz.toNat
  fits : addr.toNat + ph.pMemsz.toNat + pagesz.toNat ≤ 2 ^ 64

/-- A segment that can be loaded: the file holds its bytes, too. -/
structure SegmentOk (pagesz : Word) (file : List Byte) (addr : Word) (ph : ElfPhdr) : Prop
    extends SegmentFits pagesz addr ph where
  file : ∀ i < ph.pFilesz.toNat, ph.pOffset.toNat + i < file.length

section Ranges

variable {pagesz addr : Word} {ph : ElfPhdr} {k : ℕ} (hpage : pagesz.toNat = 2 ^ k)
  (h : SegmentFits pagesz addr ph)

include hpage h

theorem dataend_toNat : (addr + ph.pFilesz).toNat = addr.toNat + ph.pFilesz.toNat := by
  have hsize := h.size
  have hfits := h.fits
  have hpos := Nat.two_pow_pos k
  rw [BitVec.toNat_add]
  omega

theorem memend_toNat : (addr + ph.pMemsz).toNat = addr.toNat + ph.pMemsz.toNat := by
  have hfits := h.fits
  have hpos := Nat.two_pow_pos k
  rw [BitVec.toNat_add]
  omega

theorem roundUp_lt {n : ℕ} (hn : n ≤ addr.toNat + ph.pMemsz.toNat) :
    roundUp n (2 ^ k) < 2 ^ 64 := by
  have hspec := roundUp_spec (x := n) (Nat.two_pow_pos k)
  have hfits := h.fits
  omega

theorem mapend_toNat :
    (alignUp (addr + ph.pFilesz) pagesz).toNat =
      roundUp (addr.toNat + ph.pFilesz.toNat) (2 ^ k) := by
  have hdata := dataend_toNat hpage h
  have hsize := h.size
  rw [alignUp_toNat hpage (by rw [hdata]; exact roundUp_lt hpage h (by omega)), hdata]

theorem pageend_toNat :
    (alignUp (addr + ph.pMemsz) pagesz).toNat =
      roundUp (addr.toNat + ph.pMemsz.toNat) (2 ^ k) := by
  have hmem := memend_toNat hpage h
  rw [alignUp_toNat hpage (by rw [hmem]; exact roundUp_lt hpage h (Nat.le_refl _)), hmem]

/-- The end of the allocation lies in the last page. -/
theorem allocEnd_toNat :
    addr.toNat + ph.pMemsz.toNat ≤ (allocEnd pagesz addr ph).toNat ∧
      roundUp (allocEnd pagesz addr ph).toNat (2 ^ k) =
        roundUp (addr.toNat + ph.pMemsz.toNat) (2 ^ k) := by
  have hspec := roundUp_spec (x := addr.toNat + ph.pMemsz.toNat) (Nat.two_pow_pos k)
  rw [allocEnd]
  split
  · rw [pageend_toNat hpage h]
    exact ⟨hspec.1, roundUp_of_mod_eq_zero (Nat.two_pow_pos k) hspec.2.2⟩
  · rw [memend_toNat hpage h]
    exact ⟨Nat.le_refl _, rfl⟩

theorem mem_pageRange_iff (x : Word) :
    PageRange pagesz addr ph.pMemsz x ↔
      addr.toNat - addr.toNat % 2 ^ k ≤ x.toNat ∧
        x.toNat < roundUp (addr.toNat + ph.pMemsz.toNat) (2 ^ k) := by
  have hspec := roundUp_spec (x := addr.toNat + ph.pMemsz.toNat) (Nat.two_pow_pos k)
  have hdown := alignDown_toNat hpage addr
  have hend := pageend_toNat hpage h
  rw [PageRange, inRange_sub (by omega), hdown, hend]

/-- The file pages. -/
theorem mem_filePages_iff (x : Word)
    (hlt : alignDown addr pagesz < alignUp (addr + ph.pFilesz) pagesz) :
    InRange (alignDown addr pagesz)
        (roundUp (alignUp (addr + ph.pFilesz) pagesz - alignDown addr pagesz).toNat
          pagesz.toNat) x ↔
      addr.toNat - addr.toNat % 2 ^ k ≤ x.toNat ∧
        x.toNat < roundUp (addr.toNat + ph.pFilesz.toNat) (2 ^ k) := by
  have hspec := roundUp_spec (x := addr.toNat + ph.pFilesz.toNat) (Nat.two_pow_pos k)
  have hdown := alignDown_toNat hpage addr
  have hend := mapend_toNat hpage h
  have hle := Nat.le_of_lt (BitVec.lt_def.mp hlt)
  have hmod : (alignUp (addr + ph.pFilesz) pagesz - alignDown addr pagesz).toNat % 2 ^ k = 0 := by
    rw [BitVec.toNat_sub_of_le (BitVec.le_def.mpr hle)]
    apply Nat.sub_mod_eq_zero_of_mod_eq
    rw [hend, hspec.2.2, hdown]
    exact (Nat.sub_mod_eq_zero_of_mod_eq (Nat.mod_mod _ _).symm).symm
  rw [hpage, roundUp_of_mod_eq_zero (Nat.two_pow_pos k) hmod, inRange_sub hle, hdown, hend]

theorem zeroPage_toNat :
    (zeroPage pagesz (addr + ph.pFilesz) (allocEnd pagesz addr ph)).toNat =
      min (roundUp (addr.toNat + ph.pFilesz.toNat) (2 ^ k)) (allocEnd pagesz addr ph).toNat := by
  have hend := mapend_toNat hpage h
  rw [zeroPage]
  split
  · rename_i hlt
    rw [BitVec.lt_def] at hlt
    omega
  · rename_i hlt
    rw [BitVec.lt_def] at hlt
    omega

/-- The bytes to be zeroed behind the end of the file. -/
theorem mem_pageEnd_iff (x : Word)
    (hlt : addr + ph.pFilesz < zeroPage pagesz (addr + ph.pFilesz) (allocEnd pagesz addr ph)) :
    InRange (addr + ph.pFilesz)
        (zeroPage pagesz (addr + ph.pFilesz) (allocEnd pagesz addr ph) -
          (addr + ph.pFilesz)).toNat x ↔
      addr.toNat + ph.pFilesz.toNat ≤ x.toNat ∧
        x.toNat < min (roundUp (addr.toNat + ph.pFilesz.toNat) (2 ^ k))
          (allocEnd pagesz addr ph).toNat := by
  rw [inRange_sub (Nat.le_of_lt (BitVec.lt_def.mp hlt)), dataend_toNat hpage h,
    zeroPage_toNat hpage h]

/-- The page in which the bytes of the file end. -/
theorem mem_lastPage_iff (x : Word)
    (hlt : addr.toNat + ph.pFilesz.toNat < roundUp (addr.toNat + ph.pFilesz.toNat) (2 ^ k)) :
    InRange (alignDown (addr + ph.pFilesz) pagesz) (roundUp pagesz.toNat pagesz.toNat) x ↔
      addr.toNat + ph.pFilesz.toNat - (addr.toNat + ph.pFilesz.toNat) % 2 ^ k ≤ x.toNat ∧
        x.toNat < roundUp (addr.toNat + ph.pFilesz.toNat) (2 ^ k) := by
  have hsize := h.size
  have hpos := Nat.two_pow_pos k
  have hdown := alignDown_toNat hpage (addr + ph.pFilesz)
  have hup := roundUp_eq_add hpos hlt
  have hbound := roundUp_lt hpage h (n := addr.toNat + ph.pFilesz.toNat) (by omega)
  rw [dataend_toNat hpage h] at hdown
  rw [hpage, roundUp_of_mod_eq_zero hpos (Nat.mod_self _), inRange_iff (by omega), hdown, hup]

/-- The pages of zeros. -/
theorem mem_zeroPages_iff (x : Word)
    (hlt : zeroPage pagesz (addr + ph.pFilesz) (allocEnd pagesz addr ph) <
      allocEnd pagesz addr ph) :
    InRange (zeroPage pagesz (addr + ph.pFilesz) (allocEnd pagesz addr ph))
        (roundUp (allocEnd pagesz addr ph -
          zeroPage pagesz (addr + ph.pFilesz) (allocEnd pagesz addr ph)).toNat pagesz.toNat) x ↔
      roundUp (addr.toNat + ph.pFilesz.toNat) (2 ^ k) ≤ x.toNat ∧
        x.toNat < roundUp (addr.toNat + ph.pMemsz.toNat) (2 ^ k) := by
  have hspec := roundUp_spec (x := addr.toNat + ph.pFilesz.toNat) (Nat.two_pow_pos k)
  have hzero : zeroPage pagesz (addr + ph.pFilesz) (allocEnd pagesz addr ph) =
      alignUp (addr + ph.pFilesz) pagesz := by
    rw [zeroPage] at hlt ⊢
    split at hlt
    · exact absurd hlt (BitVec.lt_irrefl _)
    · rw [if_neg ‹_›]
  rw [hzero] at hlt ⊢
  rw [BitVec.lt_def, mapend_toNat hpage h] at hlt
  have hsum : roundUp (addr.toNat + ph.pFilesz.toNat) (2 ^ k) +
      roundUp ((allocEnd pagesz addr ph).toNat -
        roundUp (addr.toNat + ph.pFilesz.toNat) (2 ^ k)) (2 ^ k) =
      roundUp (addr.toNat + ph.pMemsz.toNat) (2 ^ k) := by
    rw [← roundUp_add hspec.2.2, Nat.add_sub_cancel' (Nat.le_of_lt hlt),
      (allocEnd_toNat hpage h).2]
  have hbound := roundUp_lt hpage h (Nat.le_refl _)
  rw [BitVec.toNat_sub_of_le (BitVec.le_def.mpr (by rw [mapend_toNat hpage h]; omega)),
    mapend_toNat hpage h, hpage, inRange_iff (by rw [mapend_toNat hpage h]; omega),
    mapend_toNat hpage h, hsum]

end Ranges

/-! ## The parts of `elf_map` -/

/-- The kernel never refuses to take write permission away. -/
def Restores (kernel : Kernel) : Prop :=
  ∀ n addr length prot, prot.write = false → kernel n (.mprotect addr length prot) = .done

section Mprotect

variable {kernel : Kernel} {pagesz addr length : Word} {prot : Prot} {m m' : Machine}

theorem mprotectOrReturn_ok
    (h : (mprotectOrReturn kernel pagesz addr length prot).run m = (.ok (), m')) :
    m'.space = m.space.protect addr (roundUp length.toNat pagesz.toNat) prot := by
  rcases mprotectOrReturn_cases kernel pagesz addr length prot m with hrun | ⟨v, hrun, -⟩
  · rw [hrun] at h
    obtain ⟨-, rfl⟩ := Prod.mk.inj h
    rfl
  · rw [hrun] at h
    cases h

theorem byteAt_mprotect {v : ℤ}
    (h : (mprotect kernel pagesz addr length prot).run m = (.ok v, m')) (x : Word) :
    m'.space.byteAt x = m.space.byteAt x := by
  rcases mprotect_cases kernel pagesz addr length prot m with hrun | ⟨v', hrun, -⟩
  · rw [hrun] at h
    obtain ⟨-, rfl⟩ := Prod.mk.inj h
    exact Space.byteAt_protect _ _ _ _ _
  · rw [hrun] at h
    obtain ⟨-, rfl⟩ := Prod.mk.inj h
    rfl

theorem mprotect_of_restores {v : ℤ} (hrestores : Restores kernel) (hw : prot.write = false)
    (h : (mprotect kernel pagesz addr length prot).run m = (.ok v, m')) :
    m'.space = m.space.protect addr (roundUp length.toNat pagesz.toNat) prot := by
  rw [mprotect] at h
  dsimp only at h
  rw [hrestores _ _ _ _ hw] at h
  obtain ⟨-, rfl⟩ := Prod.mk.inj h
  rfl

end Mprotect

theorem fileByte_eq {pagesz : Word} {file : List Byte} (hpos : 0 < pagesz.toNat) {off : ℕ}
    (hoff : off < file.length) : fileByte pagesz file off = file[off]? := by
  have hspec := roundUp_spec (x := file.length) hpos
  rw [fileByte, if_pos (by omega), List.getD_eq_getElem?_getD, List.getElem?_eq_getElem hoff]
  rfl

section Parts

variable (kernel : Kernel) {pagesz addr : Word} {file : List Byte} {ph : ElfPhdr} {k : ℕ}
  (hpage : pagesz.toNat = 2 ^ k) (h : SegmentFits pagesz addr ph)

include hpage h

theorem within_mapFilePages :
    Within (PageRange pagesz addr ph.pMemsz) (mapFilePages kernel pagesz file addr ph) := by
  have hsize := h.size
  have hmono := roundUp_mono (2 ^ k)
    (by omega : addr.toNat + ph.pFilesz.toNat ≤ addr.toNat + ph.pMemsz.toNat)
  rw [mapFilePages]
  refine .ite (fun hlt => ?_) fun _ => .pure ()
  refine (within_mmapOrReturn kernel pagesz _ _ _ _).mono fun x hx => ?_
  rw [mem_filePages_iff hpage h x hlt] at hx
  rw [mem_pageRange_iff hpage h]
  omega

theorem lt_roundUp_of_lt_zeroPage
    (hlt : addr + ph.pFilesz < zeroPage pagesz (addr + ph.pFilesz) (allocEnd pagesz addr ph)) :
    addr.toNat + ph.pFilesz.toNat < roundUp (addr.toNat + ph.pFilesz.toNat) (2 ^ k) := by
  rw [BitVec.lt_def, zeroPage_toNat hpage h, dataend_toNat hpage h] at hlt
  omega

theorem within_zeroPageEnd :
    Within (PageRange pagesz addr ph.pMemsz)
      (zeroPageEnd kernel pagesz (addr + ph.pFilesz)
        (zeroPage pagesz (addr + ph.pFilesz) (allocEnd pagesz addr ph)) ph.prot) := by
  have hsize := h.size
  have hmono := roundUp_mono (2 ^ k)
    (by omega : addr.toNat + ph.pFilesz.toNat ≤ addr.toNat + ph.pMemsz.toNat)
  have hdown := roundDown_mono (2 ^ k) (Nat.le_add_right addr.toNat ph.pFilesz.toNat)
  rw [zeroPageEnd]
  refine .ite (fun hlt => ?_) fun _ => .pure ()
  have hpart := lt_roundUp_of_lt_zeroPage hpage h hlt
  have hmemset : ∀ x, InRange (addr + ph.pFilesz)
      (zeroPage pagesz (addr + ph.pFilesz) (allocEnd pagesz addr ph) -
        (addr + ph.pFilesz)).toNat x → PageRange pagesz addr ph.pMemsz x := by
    intro x hx
    rw [mem_pageEnd_iff hpage h x hlt] at hx
    rw [mem_pageRange_iff hpage h]
    omega
  have hprotect : ∀ x, InRange (alignDown (addr + ph.pFilesz) pagesz)
      (roundUp pagesz.toNat pagesz.toNat) x → PageRange pagesz addr ph.pMemsz x := by
    intro x hx
    rw [mem_lastPage_iff hpage h x hpart] at hx
    rw [mem_pageRange_iff hpage h]
    omega
  refine .ite (fun _ => (within_memset _ _ _).mono hmemset) fun _ => ?_
  refine ((within_mprotectOrReturn kernel pagesz _ _ _).mono hprotect).bind fun _ => ?_
  refine ((within_memset _ _ _).mono hmemset).bind fun _ => ?_
  exact ((within_mprotect kernel pagesz _ _ _).mono hprotect).bind fun _ => .pure ()

theorem within_mapZeroPages :
    Within (PageRange pagesz addr ph.pMemsz)
      (mapZeroPages kernel pagesz
        (zeroPage pagesz (addr + ph.pFilesz) (allocEnd pagesz addr ph))
        (allocEnd pagesz addr ph) ph.prot) := by
  have hspec := roundUp_spec (x := addr.toNat + ph.pFilesz.toNat) (Nat.two_pow_pos k)
  rw [mapZeroPages]
  refine .ite (fun hlt => ?_) fun _ => .pure ()
  refine (within_mmapOrReturn kernel pagesz _ _ _ _).mono fun x hx => ?_
  rw [mem_zeroPages_iff hpage h x hlt] at hx
  rw [mem_pageRange_iff hpage h]
  omega

/-- The contents of the file pages. -/
theorem mapFilePages_ok {m m' : Machine}
    (hrun : (mapFilePages kernel pagesz file addr ph).run m = (.ok (), m')) (x : Word) :
    (addr.toNat - addr.toNat % 2 ^ k ≤ x.toNat →
      x.toNat < roundUp (addr.toNat + ph.pFilesz.toNat) (2 ^ k) →
        m'.space.byteAt x = fileByte pagesz file ((ph.pOffset.toNat - ph.pOffset.toNat % 2 ^ k) +
          (x.toNat - (addr.toNat - addr.toNat % 2 ^ k))) ∧
        m'.space.protAt x = some ph.prot) := by
  intro hge hlt
  have hdown := alignDown_toNat hpage addr
  have hmap : alignDown addr pagesz < alignUp (addr + ph.pFilesz) pagesz := by
    rw [BitVec.lt_def, hdown, mapend_toNat hpage h]
    omega
  rw [mapFilePages, if_pos hmap] at hrun
  have hin := (mem_filePages_iff hpage h x hmap).mpr ⟨hge, hlt⟩
  rw [mmapOrReturn_ok kernel pagesz _ _ _ _ hrun]
  refine ⟨?_, Space.protAt_map hin _ _⟩
  have hsub : (x - alignDown addr pagesz).toNat =
      x.toNat - (addr.toNat - addr.toNat % 2 ^ k) := by
    rw [BitVec.toNat_sub_of_le (BitVec.le_def.mpr (by rw [hdown]; exact hge)), hdown]
  rw [Space.byteAt_map hin, alignDown_toNat hpage, hsub]

/-- The second part only zeroes bytes, and restores the protection if the kernel
lets it. -/
theorem zeroPageEnd_ok {m m' : Machine}
    (hrun : (zeroPageEnd kernel pagesz (addr + ph.pFilesz)
      (zeroPage pagesz (addr + ph.pFilesz) (allocEnd pagesz addr ph)) ph.prot).run m =
        (.ok (), m')) (x : Word) :
    (addr.toNat + ph.pFilesz.toNat ≤ x.toNat →
      x.toNat < roundUp (addr.toNat + ph.pFilesz.toNat) (2 ^ k) →
      x.toNat < (allocEnd pagesz addr ph).toNat → m'.space.byteAt x = some 0) ∧
    (x.toNat < addr.toNat + ph.pFilesz.toNat → m'.space.byteAt x = m.space.byteAt x) ∧
    (Restores kernel → m.space.protAt x = some ph.prot → m'.space.protAt x = some ph.prot) := by
  have hmin := zeroPage_toNat hpage h
  have hdata := dataend_toNat hpage h
  have hle := fun n : Word => Nat.le_of_lt n.isLt
  rw [zeroPageEnd] at hrun
  by_cases hlt : addr + ph.pFilesz <
      zeroPage pagesz (addr + ph.pFilesz) (allocEnd pagesz addr ph)
  · rw [if_pos hlt] at hrun
    have hmem := mem_pageEnd_iff hpage h x hlt
    -- the stores, whatever the protection was changed to
    have hfill : ∀ {s s' : Space}, s.fill 0 (addr + ph.pFilesz)
        (zeroPage pagesz (addr + ph.pFilesz) (allocEnd pagesz addr ph) -
          (addr + ph.pFilesz)).toNat = some s' →
        (addr.toNat + ph.pFilesz.toNat ≤ x.toNat →
          x.toNat < roundUp (addr.toNat + ph.pFilesz.toNat) (2 ^ k) →
          x.toNat < (allocEnd pagesz addr ph).toNat → s'.byteAt x = some 0) ∧
        (x.toNat < addr.toNat + ph.pFilesz.toNat → s'.byteAt x = s.byteAt x) := by
      intro s s' hs
      refine ⟨fun h₁ h₂ h₃ => Space.byteAt_fill _ (hle _) hs (hmem.mpr (by omega)), fun hx => ?_⟩
      exact Space.byteAt_congr (Space.fill_of_not_inRange (hle _) hs fun hin => by
        have := hmem.mp hin
        omega)
    by_cases hw : ph.prot.write = true
    · rw [if_pos hw] at hrun
      have hs := memset_ok hrun
      obtain ⟨hzero, hkeep⟩ := hfill hs
      refine ⟨hzero, hkeep, fun _ hprot => ?_⟩
      rw [Space.protAt_fill (hle _) hs, hprot]
    · rw [if_neg hw] at hrun
      obtain ⟨⟨⟩, m₁, hrun₁, hrun⟩ := Prog.run_bind_eq_ok.mp hrun
      obtain ⟨⟨⟩, m₂, hrun₂, hrun⟩ := Prog.run_bind_eq_ok.mp hrun
      obtain ⟨v, m₃, hrun₃, hrun⟩ := Prog.run_bind_eq_ok.mp hrun
      obtain ⟨-, rfl⟩ := Prod.mk.inj hrun
      have hs := memset_ok hrun₂
      obtain ⟨hzero, hkeep⟩ := hfill hs
      have hspace₁ := mprotectOrReturn_ok hrun₁
      rw [byteAt_mprotect hrun₃ x]
      refine ⟨hzero, fun hx => ?_, fun hrestores hprot => ?_⟩
      · rw [hkeep hx, hspace₁, Space.byteAt_protect]
      · rw [mprotect_of_restores hrestores (Bool.eq_false_iff.mpr hw) hrun₃]
        refine Space.protAt_protect_of_eq hprot ⟨ph.prot.read, true⟩ ?_
        rw [Space.protAt_fill (hle _) hs, hspace₁]
  · rw [if_neg hlt] at hrun
    obtain ⟨-, rfl⟩ := Prod.mk.inj hrun
    rw [BitVec.lt_def, hmin, hdata] at hlt
    exact ⟨fun h₁ h₂ h₃ => absurd hlt (by omega), fun _ => rfl, fun _ hprot => hprot⟩

/-- The third part provides the pages behind the file pages. -/
theorem mapZeroPages_ok {m m' : Machine}
    (hrun : (mapZeroPages kernel pagesz
      (zeroPage pagesz (addr + ph.pFilesz) (allocEnd pagesz addr ph))
      (allocEnd pagesz addr ph) ph.prot).run m = (.ok (), m')) (x : Word) :
    (roundUp (addr.toNat + ph.pFilesz.toNat) (2 ^ k) ≤ x.toNat →
      x.toNat < roundUp (addr.toNat + ph.pMemsz.toNat) (2 ^ k) →
        m'.space.byteAt x = some 0 ∧ m'.space.protAt x = some ph.prot) ∧
    (x.toNat < roundUp (addr.toNat + ph.pFilesz.toNat) (2 ^ k) → m'.space x = m.space x) := by
  have hpos := Nat.two_pow_pos k
  have hspec := roundUp_spec (x := addr.toNat + ph.pFilesz.toNat) hpos
  have hmin := zeroPage_toNat hpage h
  rw [mapZeroPages] at hrun
  by_cases hlt : zeroPage pagesz (addr + ph.pFilesz) (allocEnd pagesz addr ph) <
      allocEnd pagesz addr ph
  · rw [if_pos hlt] at hrun
    have hmem := mem_zeroPages_iff hpage h x hlt
    rw [mmapOrReturn_ok kernel pagesz _ _ _ _ hrun]
    refine ⟨fun h₁ h₂ => ?_, fun hx => ?_⟩
    · have hin := hmem.mpr ⟨h₁, h₂⟩
      exact ⟨Space.byteAt_map hin _ _, Space.protAt_map hin _ _⟩
    · refine Space.map_of_not_inRange (fun hin => ?_) _ _
      have := hmem.mp hin
      omega
  · rw [if_neg hlt] at hrun
    obtain ⟨-, rfl⟩ := Prod.mk.inj hrun
    rw [BitVec.lt_def, hmin] at hlt
    -- the allocation ends before the end of the file pages
    have hend := (allocEnd_toNat hpage h).2
    have hle := roundUp_le (x := (allocEnd pagesz addr ph).toNat) hpos hspec.2.2 (by omega)
    exact ⟨fun h₁ h₂ => absurd h₂ (by omega), fun _ => rfl⟩

end Parts

/-! ## One segment -/

/-- The addresses of the segment hold its bytes, followed by zeros. -/
structure SegmentLoaded (file : List Byte) (addr : Word) (ph : ElfPhdr) (space : Space) :
    Prop where
  data : ∀ i < ph.pFilesz.toNat,
    space.byteAt (addr + BitVec.ofNat 64 i) = file[ph.pOffset.toNat + i]?
  zero : ∀ i, ph.pFilesz.toNat ≤ i → i < ph.pMemsz.toNat →
    space.byteAt (addr + BitVec.ofNat 64 i) = some 0

/-- The pages of the segment have its protection. -/
def SegmentProtected (pagesz addr : Word) (ph : ElfPhdr) (space : Space) : Prop :=
  ∀ x, PageRange pagesz addr ph.pMemsz x → space.protAt x = some ph.prot

theorem returnValue_ok_zero {body : Prog Machine Stop Unit} {m m' : Machine} {v : ℤ}
    (h : (returnValue body).run m = (.ok v, m')) :
    (v = 0 ∧ body.run m = (.ok (), m')) ∨ body.run m = (.error (.ret v), m') := by
  rw [returnValue] at h
  dsimp only at h
  split at h
  · rename_i m₁ hrun
    obtain ⟨hv, rfl⟩ := Prod.mk.inj h
    exact .inl ⟨(Except.ok.inj hv).symm, hrun⟩
  · rename_i value m₁ hrun
    obtain ⟨hv, rfl⟩ := Prod.mk.inj h
    obtain rfl := Except.ok.inj hv
    exact .inr hrun
  · cases h

section OneSegment

variable (kernel : Kernel) {pagesz addr : Word} {file : List Byte} {ph : ElfPhdr} {k : ℕ}
  (hpage : pagesz.toNat = 2 ^ k) (h : SegmentFits pagesz addr ph)

/-- The three parts, after the test of the offset. -/
def elfMapParts (kernel : Kernel) (pagesz : Word) (file : List Byte) (addr : Word)
    (ph : ElfPhdr) : Prog Machine Stop Unit := do
  mapFilePages kernel pagesz file addr ph
  if addr + ph.pFilesz < allocEnd pagesz addr ph then do
    zeroPageEnd kernel pagesz (addr + ph.pFilesz)
      (zeroPage pagesz (addr + ph.pFilesz) (allocEnd pagesz addr ph)) ph.prot
    mapZeroPages kernel pagesz (zeroPage pagesz (addr + ph.pFilesz) (allocEnd pagesz addr ph))
      (allocEnd pagesz addr ph) ph.prot
  else
    pure ()

include hpage in
theorem elfMapBody_eq :
    elfMapBody kernel pagesz file addr ph =
      if ph.pVaddr.toNat % 2 ^ k ≠ ph.pOffset.toNat % 2 ^ k then
        Prog.fail (.ret (-ENOEXEC))
      else
        elfMapParts kernel pagesz file addr ph := by
  have hiff : ph.pVaddr &&& (pagesz - 1) ≠ ph.pOffset &&& (pagesz - 1) ↔
      ph.pVaddr.toNat % 2 ^ k ≠ ph.pOffset.toNat % 2 ^ k := by
    rw [← and_sub_one_toNat hpage, ← and_sub_one_toNat hpage, BitVec.toNat_ne_iff_ne]
  rw [elfMapBody, if_congr hiff rfl rfl]
  rfl

include hpage h

theorem within_elfMapParts :
    Within (PageRange pagesz addr ph.pMemsz) (elfMapParts kernel pagesz file addr ph) := by
  refine (within_mapFilePages kernel hpage h).bind fun _ => ?_
  refine .ite (fun _ => ?_) fun _ => .pure ()
  exact (within_zeroPageEnd kernel hpage h).bind fun _ => within_mapZeroPages kernel hpage h

/-- What the three parts leave at an address of the segment's pages. -/
theorem elfMapParts_ok {m m' : Machine}
    (hrun : (elfMapParts kernel pagesz file addr ph).run m = (.ok (), m')) (x : Word) :
    (addr.toNat ≤ x.toNat → x.toNat < addr.toNat + ph.pFilesz.toNat →
      m'.space.byteAt x = fileByte pagesz file ((ph.pOffset.toNat - ph.pOffset.toNat % 2 ^ k) +
        (x.toNat - (addr.toNat - addr.toNat % 2 ^ k)))) ∧
    (addr.toNat + ph.pFilesz.toNat ≤ x.toNat → x.toNat < addr.toNat + ph.pMemsz.toNat →
      m'.space.byteAt x = some 0) ∧
    (Restores kernel → PageRange pagesz addr ph.pMemsz x →
      m'.space.protAt x = some ph.prot) := by
  have hpos := Nat.two_pow_pos k
  have hspec := roundUp_spec (x := addr.toNat + ph.pFilesz.toNat) hpos
  have hspec' := roundUp_spec (x := addr.toNat + ph.pMemsz.toNat) hpos
  obtain ⟨hend, hround⟩ := allocEnd_toNat hpage h
  obtain ⟨⟨⟩, m₁, hrun₁, hrun⟩ := Prog.run_bind_eq_ok.mp hrun
  have hfile := mapFilePages_ok kernel hpage h hrun₁ x
  rw [mem_pageRange_iff hpage h]
  by_cases hlt : addr + ph.pFilesz < allocEnd pagesz addr ph
  · rw [if_pos hlt] at hrun
    obtain ⟨⟨⟩, m₂, hrun₂, hrun₃⟩ := Prog.run_bind_eq_ok.mp hrun
    obtain ⟨hzero, hkeep, hprot⟩ := zeroPageEnd_ok kernel hpage h hrun₂ x
    obtain ⟨hpages, hsame⟩ := mapZeroPages_ok kernel hpage h hrun₃ x
    by_cases hx : x.toNat < roundUp (addr.toNat + ph.pFilesz.toNat) (2 ^ k)
    · rw [Space.byteAt_congr (hsame hx), Space.protAt_congr (hsame hx)]
      refine ⟨fun h₁ h₂ => ?_, fun h₁ h₂ => hzero h₁ hx (by omega), fun hr hp => ?_⟩
      · rw [hkeep h₂]
        exact (hfile (by omega) hx).1
      · exact hprot hr (hfile hp.1 hx).2
    · refine ⟨fun h₁ h₂ => absurd h₂ (by omega), fun h₁ h₂ => ?_, fun _ hp => ?_⟩
      · exact (hpages (by omega) (by omega)).1
      · exact (hpages (by omega) hp.2).2
  · rw [if_neg hlt] at hrun
    obtain ⟨-, rfl⟩ := Prod.mk.inj hrun
    rw [BitVec.lt_def, dataend_toNat hpage h] at hlt
    have hsize := h.size
    -- the file pages are all pages of the segment
    have heq : addr.toNat + ph.pFilesz.toNat = addr.toNat + ph.pMemsz.toNat := by omega
    refine ⟨fun h₁ h₂ => (hfile (by omega) (by omega)).1, fun h₁ h₂ => absurd h₂ (by omega),
      fun _ hp => (hfile hp.1 (by rw [heq]; exact hp.2)).2⟩

theorem add_toNat_of_lt {i : ℕ} (hi : i < ph.pMemsz.toNat) :
    (addr + BitVec.ofNat 64 i).toNat = addr.toNat + i := by
  have hfits := h.fits
  have hpos := Nat.two_pow_pos k
  rw [BitVec.toNat_add, BitVec.toNat_ofNat]
  omega

theorem mem_pageRange_add {i : ℕ} (hi : i < ph.pMemsz.toNat) :
    PageRange pagesz addr ph.pMemsz (addr + BitVec.ofNat 64 i) := by
  have hspec := roundUp_spec (x := addr.toNat + ph.pMemsz.toNat) (Nat.two_pow_pos k)
  rw [mem_pageRange_iff hpage h, add_toNat_of_lt hpage h hi]
  omega

variable (file) in
/-- `elf_map` changes nothing outside the pages of the segment, however it ends. -/
theorem elfMap_frame (m : Machine) {x : Word} (hx : ¬PageRange pagesz addr ph.pMemsz x) :
    ((elfMap kernel pagesz file addr ph).run m).2.space x = m.space x := by
  have hbody : ((elfMapBody kernel pagesz file addr ph).run m).2.space x = m.space x := by
    rw [elfMapBody_eq kernel hpage]
    split
    · rfl
    · exact (within_elfMapParts kernel hpage h).frame m x hx
  rw [elfMap, returnValue]
  dsimp only
  split
  · rename_i hrun
    rwa [hrun] at hbody
  · rename_i hrun
    rwa [hrun] at hbody
  · rename_i hrun
    rwa [hrun] at hbody

/-- Early returns of `elf_map`. -/
theorem elfMap_ret {m m' : Machine} {v : ℤ}
    (hrun : (elfMapBody kernel pagesz file addr ph).run m = (.error (.ret v), m')) :
    v < 0 ∧ ((ph.pVaddr.toNat % 2 ^ k ≠ ph.pOffset.toNat % 2 ^ k ∧ v = -ENOEXEC ∧ m' = m) ∨
      (ph.pVaddr.toNat % 2 ^ k = ph.pOffset.toNat % 2 ^ k ∧ m.calls < m'.calls)) := by
  rw [elfMapBody_eq kernel hpage] at hrun
  split at hrun
  · rename_i hne
    obtain ⟨he, rfl⟩ := Prod.mk.inj hrun
    obtain rfl := Stop.ret.inj (Except.error.inj he)
    exact ⟨by decide, .inl ⟨hne, rfl, rfl⟩⟩
  · rename_i heq
    obtain ⟨hneg, hcalls⟩ := (within_elfMapParts kernel hpage h).error m v m' hrun
    exact ⟨hneg, .inr ⟨not_not.mp heq, hcalls⟩⟩

theorem elfMap_noexec_iff (m : Machine) :
    (elfMap kernel pagesz file addr ph).run m = (.ok (-ENOEXEC), m) ↔
      ph.pVaddr.toNat % 2 ^ k ≠ ph.pOffset.toNat % 2 ^ k := by
  constructor
  · intro hrun
    rcases returnValue_ok_zero hrun with ⟨hv, -⟩ | hret
    · exact absurd hv (by decide)
    · rcases (elfMap_ret kernel hpage h hret).2 with ⟨hne, -⟩ | ⟨-, hcalls⟩
      · exact hne
      · exact absurd hcalls (Nat.lt_irrefl _)
  · intro hne
    rw [elfMap, returnValue, elfMapBody_eq kernel hpage, if_pos hne]
    rfl

theorem elfMap_nonneg {m m' : Machine} {v : ℤ}
    (hrun : (elfMap kernel pagesz file addr ph).run m = (.ok v, m')) (hv : 0 ≤ v) :
    (elfMapParts kernel pagesz file addr ph).run m = (.ok (), m') ∧
      ph.pVaddr.toNat % 2 ^ k = ph.pOffset.toNat % 2 ^ k := by
  rcases returnValue_ok_zero hrun with ⟨-, hok⟩ | hret
  · rw [elfMapBody_eq kernel hpage] at hok
    split at hok
    · cases hok
    · exact ⟨hok, not_not.mp ‹_›⟩
  · exact absurd (elfMap_ret kernel hpage h hret).1 (by omega)

/-- What a successful `elf_map` leaves, if the file holds the bytes of the segment. -/
theorem elfMap_ok (hfile : ∀ i < ph.pFilesz.toNat, ph.pOffset.toNat + i < file.length)
    (hcongr : addr.toNat % 2 ^ k = ph.pVaddr.toNat % 2 ^ k) {m m' : Machine} {v : ℤ}
    (hrun : (elfMap kernel pagesz file addr ph).run m = (.ok v, m')) (hv : 0 ≤ v) :
    SegmentLoaded file addr ph m'.space ∧
      (Restores kernel → SegmentProtected pagesz addr ph m'.space) := by
  obtain ⟨hparts, hoff⟩ := elfMap_nonneg kernel hpage h hrun hv
  have hok := elfMapParts_ok kernel hpage h hparts
  refine ⟨⟨fun i hi => ?_, fun i h₁ h₂ => ?_⟩, fun hr x hx => (hok x).2.2 hr hx⟩
  · have hsize := h.size
    have hx := add_toNat_of_lt hpage h (i := i) (by omega)
    have hbyte := (hok (addr + BitVec.ofNat 64 i)).1 (by omega) (by omega)
    have hle := Nat.mod_le addr.toNat (2 ^ k)
    have hle' := Nat.mod_le ph.pOffset.toNat (2 ^ k)
    have hindex : ph.pOffset.toNat - ph.pOffset.toNat % 2 ^ k +
        (addr.toNat + i - (addr.toNat - addr.toNat % 2 ^ k)) = ph.pOffset.toNat + i := by
      omega
    rw [hx, hindex, fileByte_eq (by rw [hpage]; exact Nat.two_pow_pos k) (hfile i hi)] at hbyte
    exact hbyte
  · have hx := add_toNat_of_lt hpage h h₂
    exact (hok _).2.1 (by omega) (by omega)

theorem SegmentLoaded.congr {s s' : Space} (hs : SegmentLoaded file addr ph s)
    (heq : ∀ x, PageRange pagesz addr ph.pMemsz x → s' x = s x) :
    SegmentLoaded file addr ph s' where
  data i hi := by
    have hsize := h.size
    rw [Space.byteAt_congr (heq _ (mem_pageRange_add hpage h (by omega)))]
    exact hs.data i hi
  zero i h₁ h₂ := by
    rw [Space.byteAt_congr (heq _ (mem_pageRange_add hpage h h₂))]
    exact hs.zero i h₁ h₂

end OneSegment

/-! ## All segments -/

section AllSegments

variable (kernel : Kernel) {pagesz loadBias : Word} {file : List Byte} {k : ℕ}
  (hpage : pagesz.toNat = 2 ^ k)

/-- The pages of a segment of the image. -/
def ImagePages (pagesz loadBias : Word) (ph : ElfPhdr) (x : Word) : Prop :=
  PageRange pagesz (loadBias + ph.pVaddr) ph.pMemsz x

instance (pagesz loadBias : Word) (ph : ElfPhdr) (x : Word) :
    Decidable (ImagePages pagesz loadBias ph x) :=
  inferInstanceAs (Decidable (PageRange _ _ _ _))

/-- No two segments share a page. -/
def DisjointSegments (pagesz loadBias : Word) (phdrs : List ElfPhdr) : Prop :=
  (phdrs.filter fun ph => ph.pType = PT_LOAD).Pairwise fun p q =>
    ∀ x, ImagePages pagesz loadBias p x → ¬ImagePages pagesz loadBias q x

include hpage

variable (file) in
theorem loadSegments_frame (phdrs : List ElfPhdr)
    (hok : ∀ ph ∈ phdrs, ph.pType = PT_LOAD →
      SegmentFits pagesz (loadBias + ph.pVaddr) ph) (m : Machine) {x : Word}
    (hx : ∀ ph ∈ phdrs, ph.pType = PT_LOAD → ¬ImagePages pagesz loadBias ph x) :
    ((loadSegments kernel pagesz file loadBias phdrs).run m).2.space x = m.space x := by
  induction phdrs generalizing m with
  | nil => rfl
  | cons ph phdrs ih =>
      have hrest := fun m => ih (fun p hp => hok p (List.mem_cons_of_mem _ hp)) m
        fun p hp => hx p (List.mem_cons_of_mem _ hp)
      rw [loadSegments]
      split
      · rename_i hload
        have hframe := elfMap_frame kernel file hpage (hok ph List.mem_cons_self hload) m
          (hx ph List.mem_cons_self hload)
        rw [Prog.run_bind]
        cases hrun : (elfMap kernel pagesz file (loadBias + ph.pVaddr) ph).run m with
        | mk r m₁ =>
            rw [hrun] at hframe
            cases r with
            | error e => exact hframe
            | ok v =>
                dsimp only
                split
                · exact hframe
                · exact (hrest m₁).trans hframe
      · exact hrest m

/-- The segment loop leaves every segment as it should be. -/
theorem loadSegments_ok (hbias : loadBias.toNat % 2 ^ k = 0) (phdrs : List ElfPhdr)
    (hok : ∀ ph ∈ phdrs, ph.pType = PT_LOAD →
      SegmentOk pagesz file (loadBias + ph.pVaddr) ph)
    (hdisj : DisjointSegments pagesz loadBias phdrs) {m m' : Machine}
    (hrun : (loadSegments kernel pagesz file loadBias phdrs).run m = (.ok (), m')) :
    ∀ ph ∈ phdrs, ph.pType = PT_LOAD →
      SegmentLoaded file (loadBias + ph.pVaddr) ph m'.space ∧
        (Restores kernel → SegmentProtected pagesz (loadBias + ph.pVaddr) ph m'.space) := by
  induction phdrs generalizing m with
  | nil => exact fun ph hph => absurd hph List.not_mem_nil
  | cons p phdrs ih =>
      have hokRest := fun q hq => hok q (List.mem_cons_of_mem _ hq)
      rw [loadSegments] at hrun
      rw [DisjointSegments, List.filter_cons] at hdisj
      by_cases hload : p.pType = PT_LOAD
      · rw [if_pos hload] at hrun
        rw [if_pos (by simpa using hload), List.pairwise_cons] at hdisj
        obtain ⟨v, m₁, hmap, hrest⟩ := Prog.run_bind_eq_ok.mp hrun
        split at hrest
        · cases hrest
        · rename_i hv
          intro ph hph hphload
          rcases List.mem_cons.mp hph with rfl | hmem
          · have hseg := hok ph List.mem_cons_self hload
            have hcongr := add_mod_page hpage hbias ph.pVaddr
            obtain ⟨hloaded, hprot⟩ := 
              elfMap_ok kernel hpage hseg.toSegmentFits hseg.file hcongr hmap (by omega)
            have hkeep : ∀ x, PageRange pagesz (loadBias + ph.pVaddr) ph.pMemsz x →
                m'.space x = m₁.space x := by
              intro x hx
              have hframe := loadSegments_frame kernel file hpage phdrs
                (fun q hq hqload => (hokRest q hq hqload).toSegmentFits) m₁ (x := x)
                fun q hq hqload => hdisj.1 q
                  (List.mem_filter.mpr ⟨hq, by simpa using hqload⟩) x hx
              rwa [hrest] at hframe
            refine ⟨hloaded.congr hpage hseg.toSegmentFits hkeep, fun hr x hx => ?_⟩
            rw [Space.protAt_congr (hkeep x hx)]
            exact hprot hr x hx
          · exact ih hokRest hdisj.2 hrest ph hmem hphload
      · rw [if_neg hload] at hrun
        rw [if_neg (by simpa using hload)] at hdisj
        intro ph hph hphload
        rcases List.mem_cons.mp hph with rfl | hmem
        · exact absurd hphload hload
        · exact ih hokRest hdisj hrun ph hmem hphload

end AllSegments

/-- If the segment is not to be written, none of its pages is writable. -/
def SegmentReadOnly (pagesz addr : Word) (ph : ElfPhdr) (space : Space) : Prop :=
  ph.pFlags &&& 2 = 0 → ∀ x, PageRange pagesz addr ph.pMemsz x →
    ∀ prot, space.protAt x = some prot → prot.write = false

theorem SegmentProtected.readOnly {pagesz addr : Word} {ph : ElfPhdr} {space : Space}
    (h : SegmentProtected pagesz addr ph space) : SegmentReadOnly pagesz addr ph space := by
  intro hflags x hx prot hprot
  rw [h x hx] at hprot
  obtain rfl := Option.some.inj hprot
  simpa [ElfPhdr.prot] using hflags

/-- `elf_map` realises a segment, and fails with `-ENOEXEC` before any system call
exactly if its offset does not fit its address; the segment loop realises all
segments. -/
theorem elf_map_contract {pagesz : Word} {k : ℕ} (hpage : pagesz.toNat = 2 ^ k)
    (kernel : Kernel) (file : List Byte) :
    (∀ (addr : Word) (ph : ElfPhdr) (m : Machine), SegmentOk pagesz file addr ph →
      addr.toNat % 2 ^ k = ph.pVaddr.toNat % 2 ^ k →
      (∀ m', (elfMap kernel pagesz file addr ph).run m = (.ok 0, m') →
        SegmentLoaded file addr ph m'.space ∧
        (Restores kernel → SegmentReadOnly pagesz addr ph m'.space) ∧
        ∀ x, ¬PageRange pagesz addr ph.pMemsz x → m'.space x = m.space x) ∧
      ((elfMap kernel pagesz file addr ph).run m = (.ok (-ENOEXEC), m) ↔
        ph.pVaddr.toNat % 2 ^ k ≠ ph.pOffset.toNat % 2 ^ k)) ∧
    (∀ (loadBias : Word) (phdrs : List ElfPhdr) (m m' : Machine), loadBias.toNat % 2 ^ k = 0 →
      (∀ ph ∈ phdrs, ph.pType = PT_LOAD → SegmentOk pagesz file (loadBias + ph.pVaddr) ph) →
      DisjointSegments pagesz loadBias phdrs →
      (loadSegments kernel pagesz file loadBias phdrs).run m = (.ok (), m') →
      ∀ ph ∈ phdrs, ph.pType = PT_LOAD →
        SegmentLoaded file (loadBias + ph.pVaddr) ph m'.space ∧
        (Restores kernel → SegmentReadOnly pagesz (loadBias + ph.pVaddr) ph m'.space)) := by
  constructor
  · intro addr ph m h hcongr
    refine ⟨fun m' hrun => ?_, elfMap_noexec_iff kernel hpage h.toSegmentFits m⟩
    obtain ⟨hloaded, hprot⟩ :=
      elfMap_ok kernel hpage h.toSegmentFits h.file hcongr hrun (Int.le_refl 0)
    refine ⟨hloaded, fun hr => (hprot hr).readOnly, fun x hx => ?_⟩
    have hframe := elfMap_frame kernel file hpage h.toSegmentFits m hx
    rwa [hrun] at hframe
  · intro loadBias phdrs m m' hbias hok hdisj hrun ph hph hload
    obtain ⟨hloaded, hprot⟩ :=
      loadSegments_ok kernel hpage hbias phdrs hok hdisj hrun ph hph hload
    exact ⟨hloaded, fun hr => (hprot hr).readOnly⟩

/-- A read-only segment of ten bytes of the file and thirty zeros. -/
def roPhdr : ElfPhdr where
  pType := PT_LOAD
  pFlags := 4
  pOffset := 0x12
  pVaddr := 0x1012
  pFilesz := 10
  pMemsz := 40

def roFile : List Byte := (List.range 40).map (BitVec.ofNat 8)

theorem elf_map_contract_roPhdr :
    ∃ m',
      (elfMap (fun _ _ => .done) 16 roFile 0x1012 roPhdr).run ⟨fun _ => none, 0⟩ = (.ok 0, m') ∧
      SegmentLoaded roFile 0x1012 roPhdr m'.space ∧
      SegmentReadOnly 16 0x1012 roPhdr m'.space := by
  have hok : SegmentOk 16 roFile 0x1012 roPhdr := ⟨⟨by decide, by decide⟩, by decide⟩
  have hrun := Prog.run_eq_of_fst (x := elfMap (fun _ _ => .done) 16 roFile 0x1012 roPhdr)
    (s := ⟨fun _ => none, 0⟩) (r := .ok 0) (by decide +kernel)
  obtain ⟨hmap, -⟩ := (elf_map_contract (k := 4) (by decide) (fun _ _ => .done) roFile).1 0x1012
    roPhdr ⟨fun _ => none, 0⟩ hok (by decide)
  obtain ⟨hloaded, hro, -⟩ := hmap _ hrun
  exact ⟨_, hrun, hloaded, hro fun _ _ _ _ _ => rfl⟩

end PollyInstrew.Client
