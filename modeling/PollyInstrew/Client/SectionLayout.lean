import PollyInstrew.Client.QuickTlb

/-!
# The layout loop on arbitrary section headers

The first pass of `rtld_add_object` folds `ALIGN_UP` over the sizes and
alignments of the allocated sections.  The fold is studied on its own: the
sections do not overlap as long as every section whose `sh_addralign` is zero
comes before all allocated bytes, because `ALIGN_UP` with zero is zero.
-/

namespace PollyInstrew.Client

open PollyInstrew.ByteMemory PollyInstrew.StateExcept

/-! ## The fold -/

/-- `totsz` and `totalign` after the first `i` sections. -/
def layoutTotals (sec : ℕ → Shdr) : ℕ → Word × Word
  | 0 => (0#64, 1#64)
  | i + 1 =>
      let (totsz, totalign) := layoutTotals sec i
      if (sec i).isAlloc then
        (alignUp totsz (sec i).shAddralign + (sec i).shSize,
          if totalign < (sec i).shAddralign then (sec i).shAddralign else totalign)
      else
        (totsz, totalign)

/-- The offset of section `i`. -/
def layoutOffset (sec : ℕ → Shdr) (i : ℕ) : Word :=
  alignUp (layoutTotals sec i).1 (sec i).shAddralign

/-- The alignment a section asks for; zero and one ask for nothing. -/
def Shdr.alignment (s : Shdr) : ℕ := max 1 s.shAddralign.toNat

/-- The room the first `i` sections take one after another. -/
def sectionRoom (sec : ℕ → Shdr) : ℕ → ℕ
  | 0 => 0
  | i + 1 =>
      if (sec i).isAlloc then
        roundUp (sectionRoom sec i) (sec i).alignment + (sec i).shSize.toNat
      else
        sectionRoom sec i

/-- Sections without an alignment come before all allocated bytes. -/
def ZeroAlignFirst (sec : ℕ → Shdr) (n : ℕ) : Prop :=
  ∀ i < n, (sec i).isAlloc → (sec i).shAddralign = 0#64 →
    ∀ j < i, (sec j).isAlloc → (sec j).shSize = 0#64

section Fold

variable {sec : ℕ → Shdr}

theorem layoutTotals_succ_of_alloc {i : ℕ} (h : (sec i).isAlloc) :
    layoutTotals sec (i + 1) = (layoutOffset sec i + (sec i).shSize,
      if (layoutTotals sec i).2 < (sec i).shAddralign then (sec i).shAddralign
      else (layoutTotals sec i).2) := by
  rw [layoutTotals]
  dsimp only
  rw [if_pos h]
  rfl

theorem layoutTotals_succ_of_not_alloc {i : ℕ} (h : ¬(sec i).isAlloc) :
    layoutTotals sec (i + 1) = layoutTotals sec i := by
  rw [layoutTotals]
  dsimp only
  rw [if_neg h]

theorem sectionRoom_succ_of_alloc {i : ℕ} (h : (sec i).isAlloc) :
    sectionRoom sec (i + 1) =
      roundUp (sectionRoom sec i) (sec i).alignment + (sec i).shSize.toNat := by
  rw [sectionRoom, if_pos h]

theorem sectionRoom_le_succ (i : ℕ) : sectionRoom sec i ≤ sectionRoom sec (i + 1) := by
  rw [sectionRoom]
  split
  · have := (roundUp_spec (x := sectionRoom sec i) (n := (sec i).alignment)
      (Nat.lt_of_lt_of_le Nat.one_pos (Nat.le_max_left 1 _))).1
    omega
  · exact Nat.le_refl _

theorem sectionRoom_mono {i j : ℕ} (h : i ≤ j) : sectionRoom sec i ≤ sectionRoom sec j := by
  induction h with
  | refl => exact Nat.le_refl _
  | step _ ih => exact ih.trans (sectionRoom_le_succ _)

/-- `ALIGN_UP` with alignment zero is zero. -/
theorem alignUp_by_zero (x : Word) : alignUp x 0#64 = 0#64 := by
  have h : ~~~(0#64 - 1 : Word) = 0#64 := by decide
  rw [alignUp, h, BitVec.and_zero]

theorem alignUp_of_zero (a : Word) : alignUp 0#64 a = 0#64 := by
  rw [alignUp, BitVec.zero_add, and_not_eq_sub, BitVec.and_self, BitVec.sub_self]

/-- As long as no bytes are allocated, `totsz` stays zero. -/
theorem layoutTotals_zero {i j : ℕ} (hij : i ≤ j) (h : (layoutTotals sec i).1 = 0#64)
    (hempty : ∀ l, i ≤ l → l < j → (sec l).isAlloc → (sec l).shSize = 0#64) :
    (layoutTotals sec j).1 = 0#64 := by
  induction hij with
  | refl => exact h
  | @step j hij ih =>
      have ih := ih fun l hl hlj => hempty l hl (Nat.lt_succ_of_lt hlj)
      by_cases halloc : (sec j).isAlloc
      · rw [layoutTotals_succ_of_alloc halloc, layoutOffset, ih, alignUp_of_zero,
          hempty j hij (Nat.lt_succ_self j) halloc]
        rfl
      · rw [layoutTotals_succ_of_not_alloc halloc]
        exact ih

theorem sectionRoom_zero {i : ℕ} (hempty : ∀ l < i, (sec l).isAlloc → (sec l).shSize = 0#64) :
    sectionRoom sec i = 0 := by
  induction i with
  | zero => rfl
  | succ i ih =>
      have ih := ih fun l hl => hempty l (Nat.lt_succ_of_lt hl)
      rw [sectionRoom]
      split
      · next halloc =>
        have hpos : 0 < (sec i).alignment := Nat.lt_of_lt_of_le Nat.one_pos (Nat.le_max_left 1 _)
        rw [ih, hempty i (Nat.lt_succ_self i) halloc, roundUp, Nat.zero_add,
          Nat.mod_eq_of_lt (by omega), Nat.sub_self]
        rfl
      · exact ih

end Fold

/-! ## When the fold lays out the sections -/

section Layout

variable {sec : ℕ → Shdr} {n : ℕ}
  (halign : ∀ i < n, (sec i).isAlloc →
    (sec i).shAddralign = 0#64 ∨ ∃ k, (sec i).shAddralign.toNat = 2 ^ k)

/-- Sections at the offsets `off` are aligned, lie in `totsz` bytes and do not
overlap. -/
structure SectionsPlaced (sec : ℕ → Shdr) (n : ℕ) (off : ℕ → Word) (totsz : Word) : Prop where
  aligned : ∀ i < n, (sec i).isAlloc → (off i).toNat % (sec i).alignment = 0
  disjoint : ∀ i < n, ∀ j < n, i ≠ j → (sec i).isAlloc → (sec j).isAlloc → ∀ x : ℕ,
    (off i).toNat ≤ x → x < (off i).toNat + (sec i).shSize.toNat →
    (off j).toNat ≤ x → ¬x < (off j).toNat + (sec j).shSize.toNat
  inside : ∀ i < n, (sec i).isAlloc →
    (off i).toNat + (sec i).shSize.toNat ≤ totsz.toNat

theorem SectionsPlaced.congr {off off' : ℕ → Word} {totsz : Word}
    (h : SectionsPlaced sec n off totsz)
    (heq : ∀ i < n, (sec i).isAlloc → off' i = off i) : SectionsPlaced sec n off' totsz where
  aligned := by
    intro i hi hia
    rw [heq i hi hia]
    exact h.aligned i hi hia
  disjoint := by
    intro i hi j hj hij hia hja
    rw [heq i hi hia, heq j hj hja]
    exact h.disjoint i hi j hj hij hia hja
  inside := by
    intro i hi hia
    rw [heq i hi hia]
    exact h.inside i hi hia

/-- What the fold does with the sections. -/
def LaidOut (sec : ℕ → Shdr) (n : ℕ) : Prop :=
  SectionsPlaced sec n (layoutOffset sec) (layoutTotals sec n).1

include halign in
theorem layoutOffset_aligned {i : ℕ} (hi : i < n) (halloc : (sec i).isAlloc) :
    (layoutOffset sec i).toNat % (sec i).alignment = 0 := by
  rcases halign i hi halloc with hzero | ⟨k, hk⟩
  · rw [layoutOffset, hzero, alignUp_by_zero]
    exact Nat.zero_mod _
  · have hpos := Nat.two_pow_pos k
    have hal : (sec i).alignment = 2 ^ k := by
      rw [Shdr.alignment, hk]
      omega
    rw [hal, layoutOffset]
    exact alignUp_mod hk _

section Exact

variable (hfit : sectionRoom sec n < 2 ^ 64) (hzero : ZeroAlignFirst sec n)
include halign hfit hzero

theorem layoutOffset_toNat {i : ℕ} (hi : i < n) (halloc : (sec i).isAlloc)
    (htot : (layoutTotals sec i).1.toNat = sectionRoom sec i) :
    (layoutOffset sec i).toNat = roundUp (sectionRoom sec i) (sec i).alignment := by
  have hroom : sectionRoom sec (i + 1) ≤ sectionRoom sec n := sectionRoom_mono hi
  rw [sectionRoom_succ_of_alloc halloc] at hroom
  rcases halign i hi halloc with hal | ⟨k, hk⟩
  · have hempty := hzero i hi halloc hal
    have hone : (sec i).alignment = 1 := by
      rw [Shdr.alignment, hal]
      rfl
    rw [layoutOffset, hal, alignUp_by_zero, sectionRoom_zero hempty, hone]
    rfl
  · have hpos := Nat.two_pow_pos k
    have hal : (sec i).alignment = 2 ^ k := by
      rw [Shdr.alignment, hk]
      omega
    rw [hal] at hroom ⊢
    rw [layoutOffset, alignUp_toNat hk (by rw [htot]; omega), htot]

/-- Where the zero alignments come first, the fold is the one over numbers. -/
theorem layoutTotals_toNat {i : ℕ} (hi : i ≤ n) :
    (layoutTotals sec i).1.toNat = sectionRoom sec i := by
  induction i with
  | zero => rfl
  | succ i ih =>
      have ih := ih (Nat.le_of_succ_le hi)
      by_cases halloc : (sec i).isAlloc
      · have hroom : sectionRoom sec (i + 1) ≤ sectionRoom sec n := sectionRoom_mono hi
        rw [sectionRoom_succ_of_alloc halloc] at hroom ⊢
        rw [layoutTotals_succ_of_alloc halloc, BitVec.toNat_add,
          layoutOffset_toNat halign hfit hzero hi halloc ih]
        exact Nat.mod_eq_of_lt (by omega)
      · rw [layoutTotals_succ_of_not_alloc halloc, sectionRoom, if_neg halloc]
        exact ih

/-- A section lies between the room before it and the room with it. -/
theorem section_bounds {i : ℕ} (hi : i < n) (halloc : (sec i).isAlloc) :
    sectionRoom sec i ≤ (layoutOffset sec i).toNat ∧
      (layoutOffset sec i).toNat + (sec i).shSize.toNat = sectionRoom sec (i + 1) := by
  have htot := layoutTotals_toNat halign hfit hzero (Nat.le_of_lt hi)
  rw [layoutOffset_toNat halign hfit hzero hi halloc htot, sectionRoom_succ_of_alloc halloc]
  exact ⟨(roundUp_spec (Nat.lt_of_lt_of_le Nat.one_pos (Nat.le_max_left 1 _))).1, rfl⟩

theorem laidOut_of_zeroAlignFirst : LaidOut sec n where
  aligned := fun _ hi halloc => layoutOffset_aligned halign hi halloc
  disjoint := by
    intro i hi j hj hij hia hja x hix hxi hjx hxj
    obtain ⟨hilo, hihi⟩ := section_bounds halign hfit hzero hi hia
    obtain ⟨hjlo, hjhi⟩ := section_bounds halign hfit hzero hj hja
    rcases Nat.lt_or_gt_of_ne hij with hlt | hgt
    · have hmono : sectionRoom sec (i + 1) ≤ sectionRoom sec j := sectionRoom_mono hlt
      omega
    · have hmono : sectionRoom sec (j + 1) ≤ sectionRoom sec i := sectionRoom_mono hgt
      omega
  inside := by
    intro i hi halloc
    rw [(section_bounds halign hfit hzero hi halloc).2,
      layoutTotals_toNat halign hfit hzero (Nat.le_refl n)]
    exact sectionRoom_mono hi

end Exact

/-- The first section with bytes behind section `i`, if `totsz` is zero there,
starts at offset zero. -/
theorem layoutOffset_first {i j : ℕ} (hij : i ≤ j) (h : (layoutTotals sec i).1 = 0#64)
    (hempty : ∀ l, i ≤ l → l < j → (sec l).isAlloc → (sec l).shSize = 0#64) :
    layoutOffset sec j = 0#64 := by
  rw [layoutOffset, layoutTotals_zero hij h hempty, alignUp_of_zero]

/-- The least section with bytes in a range of sections. -/
theorem exists_first_bytes {i j : ℕ} (hij : i ≤ j) (hj : (sec j).isAlloc)
    (hbytes : (sec j).shSize ≠ 0#64) :
    ∃ k, i ≤ k ∧ k ≤ j ∧ (sec k).isAlloc ∧ (sec k).shSize ≠ 0#64 ∧
      ∀ l, i ≤ l → l < k → (sec l).isAlloc → (sec l).shSize = 0#64 := by
  induction j using Nat.strong_induction_on with
  | _ j ih =>
      by_cases hearlier : ∃ l, i ≤ l ∧ l < j ∧ (sec l).isAlloc ∧ (sec l).shSize ≠ 0#64
      · obtain ⟨l, hil, hlj, hl, hne⟩ := hearlier
        obtain ⟨k, hik, hkl, hk⟩ := ih l hlj hil hl hne
        exact ⟨k, hik, hkl.trans (Nat.le_of_lt hlj), hk⟩
      · refine ⟨j, hij, Nat.le_refl j, hj, hbytes, fun l hil hlj hl => ?_⟩
        by_contra hne
        exact hearlier ⟨l, hil, hlj, hl, hne⟩

theorem toNat_pos_of_ne_zero {w : Word} (h : w ≠ 0#64) : 0 < w.toNat := by
  refine Nat.pos_of_ne_zero fun h0 => h (BitVec.eq_of_toNat_eq ?_)
  rw [h0]
  rfl

/-- Two sections with bytes at offset zero overlap. -/
theorem not_laidOut_of_zero {i j : ℕ} (h : LaidOut sec n) (hi : i < n) (hj : j < n) (hij : i ≠ j)
    (hia : (sec i).isAlloc) (hja : (sec j).isAlloc) (hib : (sec i).shSize ≠ 0#64)
    (hjb : (sec j).shSize ≠ 0#64) (hio : layoutOffset sec i = 0#64)
    (hjo : layoutOffset sec j = 0#64) : False := by
  have hi0 := toNat_pos_of_ne_zero hib
  have hj0 := toNat_pos_of_ne_zero hjb
  have hz : (0#64 : Word).toNat = 0 := rfl
  have hio' : (layoutOffset sec i).toNat = 0 := by rw [hio, hz]
  have hjo' : (layoutOffset sec j).toNat = 0 := by rw [hjo, hz]
  exact h.disjoint i hi j hj hij hia hja 0 (by omega) (by omega) (by omega) (by omega)

theorem zeroAlignFirst_of_laidOut (h : LaidOut sec n) : ZeroAlignFirst sec n := by
  intro i hi hia hal j hj hja
  by_contra hbytes
  have hio : layoutOffset sec i = 0#64 := by
    rw [layoutOffset, hal, alignUp_by_zero]
  obtain ⟨k, -, hkj, hka, hkb, hbefore⟩ := exists_first_bytes (Nat.zero_le j) hja hbytes
  have hko := layoutOffset_first (Nat.zero_le k) rfl hbefore
  by_cases hib : (sec i).shSize = 0#64
  · have htot : (layoutTotals sec (i + 1)).1 = 0#64 := by
      rw [layoutTotals_succ_of_alloc hia, hio, hib]
      rfl
    by_cases hlater : ∃ l, i + 1 ≤ l ∧ l < n ∧ (sec l).isAlloc ∧ (sec l).shSize ≠ 0#64
    · obtain ⟨l, hil, hln, hla, hlb⟩ := hlater
      obtain ⟨r, hir, hrl, hra, hrb, hbetween⟩ := exists_first_bytes hil hla hlb
      exact not_laidOut_of_zero h (by omega) (by omega) (by omega) hka hra hkb hrb hko
        (layoutOffset_first hir htot hbetween)
    · have hend : (layoutTotals sec n).1 = 0#64 := by
        refine layoutTotals_zero hi htot fun l hil hln hla => ?_
        by_contra hlb
        exact hlater ⟨l, hil, hln, hla, hlb⟩
      have hin := h.inside k (by omega) hka
      rw [hend, hko] at hin
      have hpos := toNat_pos_of_ne_zero hkb
      have hz : (0#64 : Word).toNat = 0 := rfl
      omega
  · exact not_laidOut_of_zero h (by omega) hi (by omega) hka hia hkb hib hko hio

end Layout

/-! ## The passes over the section headers -/

/-- The field `e_shnum` does not lie in an address field of the section headers. -/
def ShnumApart (m : Mem) (re : RtldElf) : Prop :=
  ∀ i < shnum m re, ∀ d < 2,
    ¬InRange (shdrAddr re i + 16) 8 (re.base + 60 + BitVec.ofNat 64 d)

/-- Writing an address field changes no other field of the section headers. -/
theorem shdr_store (m : Mem) (re : RtldElf) {i j : ℕ} (hi : i < 2 ^ 16) (hj : j < 2 ^ 16)
    (v : Word) :
    shdr (store 64 m (shdrAddr re i + 16) v) re j =
      if j = i then { shdr m re j with shAddr := v } else shdr m re j := by
  have hbyte : ∀ d, d < 64 → (j = i → d < 16 ∨ 24 ≤ d) →
      store 64 m (shdrAddr re i + 16) v (shdrAddr re j + BitVec.ofNat 64 d) =
        m (shdrAddr re j + BitVec.ofNat 64 d) := by
    intro d hd hne
    apply store_of_not_inRange
    have hsplit : ∀ k e, shdrAddr re k + BitVec.ofNat 64 e =
        re.reShdr + BitVec.ofNat 64 (shdrSize * k + e) := by
      intro k e
      rw [shdrAddr, BitVec.add_assoc, ← BitVec.ofNat_add]
    have h16 : shdrAddr re i + 16 = re.reShdr + BitVec.ofNat 64 (shdrSize * i + 16) := hsplit i 16
    simp only [shdrSize] at *
    rw [h16, hsplit j d, inRange_offset (by omega) (by omega)]
    omega
  have hfield : ∀ {w : ℕ} (f : ℕ), f + w / 8 ≤ 64 → (j = i → f + w / 8 ≤ 16 ∨ 24 ≤ f) →
      load w (store 64 m (shdrAddr re i + 16) v) (shdrAddr re j + BitVec.ofNat 64 f) =
        load w m (shdrAddr re j + BitVec.ofNat 64 f) := by
    intro w f hf hne
    refine load_add_congr f fun d hge hlt => hbyte d (by omega) fun hji => ?_
    have := hne hji
    omega
  have h₁ := hfield (w := 32) 4 (by decide) (by omega)
  have h₂ := hfield (w := 64) 8 (by decide) (by omega)
  have h₃ := hfield (w := 64) 24 (by decide) (by omega)
  have h₄ := hfield (w := 64) 32 (by decide) (by omega)
  have h₅ := hfield (w := 32) 40 (by decide) (by omega)
  have h₆ := hfield (w := 32) 44 (by decide) (by omega)
  have h₇ := hfield (w := 64) 48 (by decide) (by omega)
  have h₈ := hfield (w := 64) 56 (by decide) (by omega)
  by_cases hji : j = i
  · subst hji
    rw [if_pos rfl]
    simp only [shdr, readShdr, Shdr.mk.injEq]
    exact ⟨h₁, h₂, load_store_64 m _ v, h₃, h₄, h₅, h₆, h₇, h₈⟩
  · rw [if_neg hji]
    have h₀ := hfield (w := 64) 16 (by decide) (by omega)
    simp only [shdr, readShdr, Shdr.mk.injEq]
    exact ⟨h₁, h₂, h₀, h₃, h₄, h₅, h₆, h₇, h₈⟩

theorem ShnumApart.shnum_store {m : Mem} {re : RtldElf} (h : ShnumApart m re) {i : ℕ}
    (hi : i < shnum m re) (v : Word) :
    shnum (store 64 m (shdrAddr re i + 16) v) re = shnum m re := by
  have hload : load 16 (store 64 m (shdrAddr re i + 16) v) (re.base + 60) =
      load 16 m (re.base + 60) := by
    apply load_congr (by decide)
    intro x hx
    obtain ⟨d, hd, rfl⟩ := exists_of_inRange hx
    exact store_of_not_inRange (h i hi d hd)
  rw [shnum, shnum, hload]

/-- The address fields of the sections before `i` are those of `addr`, everything
else is as in `m`. -/
structure Readdressed (re : RtldElf) (m : Mem) (addr : ℕ → Word) (i : ℕ) (m' : Mem) :
    Prop where
  shnum_eq : shnum m' re = shnum m re
  shdr_eq : ∀ j < 2 ^ 16, shdr m' re j =
    if j < i ∧ (shdr m re j).isAlloc then { shdr m re j with shAddr := addr j } else shdr m re j

section Readdressed

variable {re : RtldElf} {m m' : Mem} {addr : ℕ → Word} {i : ℕ}

theorem Readdressed.isAlloc_eq (h : Readdressed re m addr i m') {j : ℕ} (hj : j < 2 ^ 16) :
    (shdr m' re j).isAlloc = (shdr m re j).isAlloc := by
  rw [h.shdr_eq j hj]
  split <;> rfl

theorem Readdressed.shdr_self (h : Readdressed re m addr i m') (hi : i < 2 ^ 16) :
    shdr m' re i = shdr m re i := by
  rw [h.shdr_eq i hi, if_neg (by omega)]

theorem Readdressed.skip (h : Readdressed re m addr i m') (hna : ¬(shdr m re i).isAlloc) :
    Readdressed re m addr (i + 1) m' := by
  refine ⟨h.shnum_eq, fun j hj => ?_⟩
  rw [h.shdr_eq j hj]
  by_cases hji : j = i
  · subst hji
    rw [if_neg (by omega), if_neg fun h => hna h.2]
  · have hiff : j < i ↔ j < i + 1 := by omega
    simp only [hiff]

theorem Readdressed.store (h : Readdressed re m addr i m') (hapart : ShnumApart m re)
    (hi : i < shnum m re) (halloc : (shdr m re i).isAlloc) :
    Readdressed re m addr (i + 1) (store 64 m' (shdrAddr re i + 16) (addr i)) := by
  have hi16 : i < 2 ^ 16 := hi.trans (shnum_lt m re)
  have hapart' : ShnumApart m' re := by
    intro j hj
    exact hapart j (h.shnum_eq ▸ hj)
  refine ⟨(hapart'.shnum_store (h.shnum_eq ▸ hi) _).trans h.shnum_eq, fun j hj => ?_⟩
  rw [shdr_store m' re hi16 hj, h.shdr_eq j hj]
  by_cases hji : j = i
  · subst hji
    rw [if_pos rfl, if_neg (by omega), if_pos ⟨Nat.lt_succ_self j, halloc⟩]
  · have hiff : j < i ↔ j < i + 1 := by omega
    rw [if_neg hji]
    simp only [hiff]

end Readdressed

/-- The first pass computes the fold and writes the offsets. -/
theorem layoutPass_totals {re : RtldElf} {m : Mem} (hapart : ShnumApart m re) :
    ∀ (fuel i : ℕ) {c c' : State} {r : Word × Word}, i ≤ shnum m re → shnum m re ≤ i + fuel →
      Readdressed re m (layoutOffset (shdr m re)) i c.mem →
      (layoutPass re fuel i (layoutTotals (shdr m re) i).1 (layoutTotals (shdr m re) i).2).run c =
        (.ok r, c') →
      r = layoutTotals (shdr m re) (shnum m re) ∧ c' = { c with mem := c'.mem } ∧
        Readdressed re m (layoutOffset (shdr m re)) (shnum m re) c'.mem := by
  intro fuel
  induction fuel with
  | zero =>
      intro i c c' r hi hfuel haddr hrun
      simp only [layoutPass, Prog.run_pure, Prod.mk.injEq, Except.ok.injEq] at hrun
      obtain ⟨rfl, rfl⟩ := hrun
      obtain rfl : i = shnum m re := by omega
      exact ⟨rfl, rfl, haddr⟩
  | succ fuel ih =>
      intro i c c' r hi hfuel haddr hrun
      rw [layoutPass, Prog.run_bind, run_getMem] at hrun
      dsimp only at hrun
      rw [haddr.shnum_eq] at hrun
      by_cases hlt : i < shnum m re
      swap
      · rw [if_neg hlt] at hrun
        simp only [Prog.run_pure, Prod.mk.injEq, Except.ok.injEq] at hrun
        obtain ⟨rfl, rfl⟩ := hrun
        obtain rfl : i = shnum m re := by omega
        exact ⟨rfl, rfl, haddr⟩
      have hi16 : i < 2 ^ 16 := hlt.trans (shnum_lt m re)
      rw [if_pos hlt, haddr.shdr_self hi16] at hrun
      split at hrun
      · simp at hrun
      by_cases halloc : (shdr m re i).isAlloc
      swap
      · rw [if_neg halloc] at hrun
        refine ih (i + 1) hlt (by omega) (haddr.skip halloc) ?_
        rw [layoutTotals_succ_of_not_alloc halloc]
        exact hrun
      have hnext := haddr.store hapart hlt halloc
      have hoff : alignUp (layoutTotals (shdr m re) i).1 (shdr m re i).shAddralign =
          layoutOffset (shdr m re) i := rfl
      have htot := layoutTotals_succ_of_alloc halloc
      rw [if_pos halloc, hoff, Prog.run_bind, setShAddr, run_setMem] at hrun
      generalize layoutOffset (shdr m re) i = off at *
      dsimp only at hrun
      rw [Prog.run_bind, run_getMem] at hrun
      dsimp only at hrun
      rw [shdr_store c.mem re hi16 hi16, if_pos rfl, haddr.shdr_self hi16] at hrun
      dsimp only at hrun
      have hrest : (layoutPass re fuel (i + 1) (layoutTotals (shdr m re) (i + 1)).1
          (layoutTotals (shdr m re) (i + 1)).2).run
            { c with mem := store 64 c.mem (shdrAddr re i + 16) off } = (.ok r, c') := by
        rw [htot]
        dsimp only
        exact hrun
      obtain ⟨hr, hstate, hfinal⟩ := ih (i + 1) hlt (by omega) hnext hrest
      exact ⟨hr, by rw [hstate], hfinal⟩

/-- The loop after the allocation adds the base to the offsets. -/
theorem rebasePass_addr {re : RtldElf} {base : Word} {c c' : State}
    (hapart : ShnumApart c.mem re) (hrun : (rebasePass re base).run c = (.ok (), c')) :
    Readdressed re c.mem (fun i => (shdr c.mem re i).shAddr + base) (shnum c.mem re) c'.mem := by
  have hinit : Readdressed re c.mem (fun i => (shdr c.mem re i).shAddr + base) 0 c.mem :=
    ⟨rfl, fun j _ => (if_neg (by omega)).symm⟩
  refine forSections_ok (I := fun i t =>
    Readdressed re c.mem (fun i => (shdr c.mem re i).shAddr + base) i t.mem)
    (shnum_lt c.mem re) (fun j t ht => ht.shnum_eq) ?_ hinit hrun
  intro i t t' hi ht hbody
  have hi16 : i < 2 ^ 16 := hi.trans (shnum_lt c.mem re)
  rw [Prog.run_bind, run_getMem] at hbody
  dsimp only at hbody
  rw [ht.shdr_self hi16] at hbody
  by_cases halloc : (shdr c.mem re i).isAlloc
  · rw [if_pos halloc, setShAddr, run_setMem] at hbody
    obtain ⟨-, rfl⟩ := Prod.mk.inj hbody
    exact ht.store hapart hi halloc
  · rw [if_neg halloc] at hbody
    obtain ⟨-, rfl⟩ := Prod.mk.inj hbody
    exact ht.skip halloc

/-! ## Final addresses -/

/-- `totalign` is a power of two that no section exceeds. -/
theorem layoutTotals_align {sec : ℕ → Shdr} {n : ℕ}
    (halign : ∀ i < n, (sec i).isAlloc →
      (sec i).shAddralign = 0#64 ∨ ∃ k, (sec i).shAddralign.toNat = 2 ^ k) :
    (∃ k, (layoutTotals sec n).2.toNat = 2 ^ k) ∧
      ∀ i < n, (sec i).isAlloc → (sec i).shAddralign.toNat ≤ (layoutTotals sec n).2.toNat := by
  induction n with
  | zero => exact ⟨⟨0, rfl⟩, fun i hi => absurd hi (Nat.not_lt_zero i)⟩
  | succ n ih =>
      obtain ⟨hpow, hle⟩ := ih fun i hi => halign i (Nat.lt_succ_of_lt hi)
      by_cases halloc : (sec n).isAlloc
      · rw [layoutTotals_succ_of_alloc halloc]
        dsimp only
        split
        · next hlt =>
          rw [BitVec.lt_def] at hlt
          refine ⟨(halign n (Nat.lt_succ_self n) halloc).resolve_left ?_, fun i hi hia => ?_⟩
          · intro hzero
            rw [hzero] at hlt
            exact absurd hlt (Nat.not_lt_zero _)
          · rcases Nat.lt_succ_iff_lt_or_eq.mp hi with hi | rfl
            · exact (hle i hi hia).trans (Nat.le_of_lt hlt)
            · exact Nat.le_refl _
        · next hge =>
          rw [BitVec.lt_def] at hge
          refine ⟨hpow, fun i hi hia => ?_⟩
          rcases Nat.lt_succ_iff_lt_or_eq.mp hi with hi | rfl
          · exact hle i hi hia
          · omega
      · rw [layoutTotals_succ_of_not_alloc halloc]
        refine ⟨hpow, fun i hi hia => ?_⟩
        rcases Nat.lt_succ_iff_lt_or_eq.mp hi with hi | rfl
        · exact hle i hi hia
        · exact absurd hia halloc

/-- The base is a multiple of every power of two up to `totalign`. -/
theorem memAllocCode_aligned {host : Host} {c c' : State} {size alignment base : Word} {k l : ℕ}
    (hrun : (memAllocCode host size alignment).run c = (.ok base, c')) (hgood : ¬badAddr base)
    (hk : alignment.toNat = 2 ^ k) (hl : 2 ^ l ≤ alignment.toNat) : base.toNat % 2 ^ l = 0 := by
  simp only [memAllocCode, Prod.mk.injEq, Except.ok.injEq] at hrun
  obtain ⟨rfl, -⟩ := hrun
  rw [arenaAlloc_fst (host.mprotectRet_ge _) hgood]
  have hpow : ∃ r, (arenaAlignment alignment).toNat = 2 ^ r ∧ l ≤ r := by
    unfold arenaAlignment
    split
    · next hlt =>
      rw [BitVec.lt_def] at hlt
      refine ⟨6, rfl, (Nat.pow_le_pow_iff_right (by decide)).mp (hl.trans (Nat.le_of_lt ?_))⟩
      exact hlt
    · exact ⟨k, hk, (Nat.pow_le_pow_iff_right (by decide)).mp (hk ▸ hl)⟩
  obtain ⟨r, hr, hlr⟩ := hpow
  exact Nat.mod_eq_zero_of_dvd (Nat.dvd_trans (Nat.pow_dvd_pow 2 hlr)
    (Nat.dvd_of_mod_eq_zero (alignUp_mod hr _)))

/-- Sums of multiples of a power of two are multiples, even if they wrap around. -/
theorem add_mod_two_pow {x y : Word} {k : ℕ} (hk : k ≤ 64) (hx : x.toNat % 2 ^ k = 0)
    (hy : y.toNat % 2 ^ k = 0) : (x + y).toNat % 2 ^ k = 0 := by
  rw [BitVec.toNat_add, Nat.mod_mod_of_dvd _ (Nat.pow_dvd_pow 2 hk), Nat.add_mod, hx, hy]
  rfl

/-- With the base of the allocation the sections keep their alignment. -/
theorem final_addresses {host : Host} {re : RtldElf} {c c₁ c₂ c₃ : State} {totsz base : Word}
    (hapart : ShnumApart c.mem re)
    (halign : ∀ i < shnum c.mem re, (shdr c.mem re i).isAlloc →
      (shdr c.mem re i).shAddralign = 0#64 ∨
        ∃ k, (shdr c.mem re i).shAddralign.toNat = 2 ^ k)
    (haddr : Readdressed re c.mem (layoutOffset (shdr c.mem re)) (shnum c.mem re) c₁.mem)
    (halloc : (memAllocCode host totsz (layoutTotals (shdr c.mem re) (shnum c.mem re)).2).run c₁ =
      (.ok base, c₂)) (hgood : ¬badAddr base)
    (hrebase : (rebasePass re base).run c₂ = (.ok (), c₃)) {i : ℕ} (hi : i < shnum c.mem re)
    (hia : (shdr c.mem re i).isAlloc) :
    (shdr c₃.mem re i).shAddr = base + (shdr c₁.mem re i).shAddr ∧
      (shdr c₃.mem re i).shAddr.toNat % (shdr c.mem re i).alignment = 0 := by
  have hi16 : i < 2 ^ 16 := hi.trans (shnum_lt c.mem re)
  have hmem : c₂.mem = c₁.mem := by
    rw [← (Prod.mk.inj halloc).2]
  have hapart₂ : ShnumApart c₂.mem re := by
    rw [hmem]
    intro j hj
    rw [haddr.shnum_eq] at hj
    exact hapart j hj
  have hi₁ : i < shnum c₁.mem re := by
    rw [haddr.shnum_eq]
    exact hi
  have hia₁ : (shdr c₁.mem re i).isAlloc := by
    rw [haddr.isAlloc_eq hi16]
    exact hia
  have hoff : (shdr c₁.mem re i).shAddr = layoutOffset (shdr c.mem re) i := by
    rw [haddr.shdr_eq i hi16, if_pos ⟨hi, hia⟩]
  have hreb := (rebasePass_addr hapart₂ hrebase).shdr_eq i hi16
  rw [hmem, if_pos ⟨hi₁, hia₁⟩] at hreb
  have hfinal : (shdr c₃.mem re i).shAddr = base + (shdr c₁.mem re i).shAddr := by
    rw [hreb, BitVec.add_comm]
  refine ⟨hfinal, ?_⟩
  rw [hfinal, hoff]
  obtain ⟨⟨k, hk⟩, hle⟩ := layoutTotals_align halign
  rcases halign i hi hia with hal | ⟨l, hl⟩
  · rw [Shdr.alignment, hal]
    exact Nat.mod_one _
  · have hal : (shdr c.mem re i).alignment = 2 ^ l := by
      have hpos := Nat.two_pow_pos l
      rw [Shdr.alignment, hl]
      omega
    have hl64 : l ≤ 64 := by
      have hlt := (shdr c.mem re i).shAddralign.isLt
      rw [hl] at hlt
      exact Nat.le_of_lt ((Nat.pow_lt_pow_iff_right (by decide)).mp hlt)
    have hpow := hle i hi hia
    rw [hl] at hpow
    have hofs := layoutOffset_aligned halign hi hia
    rw [hal] at hofs ⊢
    exact add_mod_two_pow hl64 (memAllocCode_aligned halloc hgood hk hpow) hofs

/-- The layout loop places the sections without overlap, at offsets that the base
of the allocation keeps aligned, if and only if sections without an alignment come
before all allocated bytes. -/
theorem section_layout_iff {re : RtldElf} {c c₁ : State} {totsz totalign : Word}
    (hapart : ShnumApart c.mem re)
    (halign : ∀ i < shnum c.mem re, (shdr c.mem re i).isAlloc →
      (shdr c.mem re i).shAddralign = 0#64 ∨
        ∃ k, (shdr c.mem re i).shAddralign.toNat = 2 ^ k)
    (hfit : sectionRoom (shdr c.mem re) (shnum c.mem re) < 2 ^ 64)
    (hrun : (layoutPass re shnumBound 0 0#64 1#64).run c = (.ok (totsz, totalign), c₁)) :
    (SectionsPlaced (shdr c.mem re) (shnum c.mem re) (fun i => (shdr c₁.mem re i).shAddr) totsz ∧
      ∀ host base c₂ c₃, (memAllocCode host totsz totalign).run c₁ = (.ok base, c₂) →
        ¬badAddr base → (rebasePass re base).run c₂ = (.ok (), c₃) →
        ∀ i < shnum c.mem re, (shdr c.mem re i).isAlloc →
          (shdr c₃.mem re i).shAddr = base + (shdr c₁.mem re i).shAddr ∧
          (shdr c₃.mem re i).shAddr.toNat % (shdr c.mem re i).alignment = 0) ↔
      ZeroAlignFirst (shdr c.mem re) (shnum c.mem re) := by
  have hinit : Readdressed re c.mem (layoutOffset (shdr c.mem re)) 0 c.mem :=
    ⟨rfl, fun j _ => (if_neg (by omega)).symm⟩
  have hbound : shnum c.mem re ≤ 0 + shnumBound := by
    rw [Nat.zero_add]
    exact Nat.le_of_lt (shnum_lt c.mem re)
  have hstart : layoutTotals (shdr c.mem re) 0 = (0#64, 1#64) := rfl
  have hrun' : (layoutPass re shnumBound 0 (layoutTotals (shdr c.mem re) 0).1
      (layoutTotals (shdr c.mem re) 0).2).run c = (.ok (totsz, totalign), c₁) := by
    rw [hstart]
    dsimp only
    exact hrun
  obtain ⟨hr, -, haddr⟩ :=
    layoutPass_totals hapart shnumBound 0 (Nat.zero_le _) hbound hinit hrun'
  have hoff : ∀ i < shnum c.mem re, (shdr c.mem re i).isAlloc →
      (shdr c₁.mem re i).shAddr = layoutOffset (shdr c.mem re) i := by
    intro i hi hia
    rw [haddr.shdr_eq i (hi.trans (shnum_lt c.mem re)), if_pos ⟨hi, hia⟩]
  have htotsz : totsz = (layoutTotals (shdr c.mem re) (shnum c.mem re)).1 := by rw [← hr]
  have htotalign : totalign = (layoutTotals (shdr c.mem re) (shnum c.mem re)).2 := by rw [← hr]
  constructor
  · rintro ⟨hplaced, -⟩
    refine zeroAlignFirst_of_laidOut ?_
    rw [LaidOut, ← htotsz]
    exact hplaced.congr fun i hi hia => (hoff i hi hia).symm
  · intro hzero
    have hlaid := laidOut_of_zeroAlignFirst halign hfit hzero
    rw [LaidOut, ← htotsz] at hlaid
    refine ⟨hlaid.congr hoff, ?_⟩
    intro host base c₂ c₃ halloc hgood hrebase i hi hia
    rw [htotalign] at halloc
    exact final_addresses hapart halign haddr halloc hgood hrebase hi hia

/-- The headers of two allocated sections of five and four bytes in memory; the
second has alignment `align`. -/
def twoSections (align : Word) : State :=
  { startState with
    mem := writeBytes (fun _ => 0) 0x1000#64 (ehdrBytes 3 ++
      Shdr.bytes ⟨0, 0, 0, 0, 0, 0, 0, 0, 0⟩ ++
      Shdr.bytes ⟨SHT_PROGBITS, 6, 0, 256, 5, 0, 0, 16, 0⟩ ++
      Shdr.bytes ⟨SHT_PROGBITS, 2, 0, 264, 4, 0, 0, align, 0⟩) }

def twoElf : RtldElf := ⟨0x1000, 268, 0, 0x1040⟩

def twoLaid (align : Word) : State :=
  ((layoutPass twoElf shnumBound 0 0#64 1#64).run (twoSections align)).2

theorem section_layout_iff_two :
    SectionsPlaced (shdr (twoSections 4).mem twoElf) (shnum (twoSections 4).mem twoElf)
      (fun i => (shdr (twoLaid 4).mem twoElf i).shAddr) 12#64 := by
  have hpow : ∀ i < shnum (twoSections 4).mem twoElf, (shdr (twoSections 4).mem twoElf i).isAlloc →
      (shdr (twoSections 4).mem twoElf i).shAddralign = 0#64 ∨
        ∃ k < 64, (shdr (twoSections 4).mem twoElf i).shAddralign.toNat = 2 ^ k := by
    decide +kernel
  have hapart : ShnumApart (twoSections 4).mem twoElf := by
    unfold ShnumApart
    decide +kernel
  have hzero : ZeroAlignFirst (shdr (twoSections 4).mem twoElf)
      (shnum (twoSections 4).mem twoElf) := by
    unfold ZeroAlignFirst
    decide +kernel
  have hrun : (layoutPass twoElf shnumBound 0 0#64 1#64).run (twoSections 4) =
      (.ok (12#64, 16#64), twoLaid 4) :=
    Prog.run_eq_of_fst (by decide +kernel)
  exact ((section_layout_iff hapart
    (fun i hi hia => (hpow i hi hia).imp_right fun ⟨k, hk⟩ => ⟨k, hk.2⟩)
    (by decide +kernel) hrun).mpr hzero).1

/-- A section without an alignment is placed over the one before it. -/
theorem not_section_layout :
    ¬∀ (re : RtldElf) (c c₁ : State) (totsz totalign : Word), ShnumApart c.mem re →
      (∀ i < shnum c.mem re, (shdr c.mem re i).isAlloc →
        (shdr c.mem re i).shAddralign = 0#64 ∨
          ∃ k, (shdr c.mem re i).shAddralign.toNat = 2 ^ k) →
      sectionRoom (shdr c.mem re) (shnum c.mem re) < 2 ^ 64 →
      (layoutPass re shnumBound 0 0#64 1#64).run c = (.ok (totsz, totalign), c₁) →
      SectionsPlaced (shdr c.mem re) (shnum c.mem re) (fun i => (shdr c₁.mem re i).shAddr) totsz := by
  intro h
  have hpow : ∀ i < shnum (twoSections 0).mem twoElf, (shdr (twoSections 0).mem twoElf i).isAlloc →
      (shdr (twoSections 0).mem twoElf i).shAddralign = 0#64 ∨
        ∃ k < 64, (shdr (twoSections 0).mem twoElf i).shAddralign.toNat = 2 ^ k := by
    decide +kernel
  have hapart : ShnumApart (twoSections 0).mem twoElf := by
    unfold ShnumApart
    decide +kernel
  have hrun : (layoutPass twoElf shnumBound 0 0#64 1#64).run (twoSections 0) =
      (.ok (4#64, 16#64), twoLaid 0) :=
    Prog.run_eq_of_fst (by decide +kernel)
  have hplaced := h twoElf (twoSections 0) (twoLaid 0) 4 16 hapart
    (fun i hi hia => (hpow i hi hia).imp_right fun ⟨k, hk⟩ => ⟨k, hk.2⟩) (by decide +kernel) hrun
  have hin := hplaced.inside 1 (by decide +kernel) (by decide +kernel)
  revert hin
  decide +kernel

end PollyInstrew.Client
