import PollyInstrew.Client.ElfSegments

/-!
# Room for the image

`elf_determine_load_bias` asks the kernel for a range that reaches from the start
of the first segment to the end of the last one in the order of the headers.  The
range has room for the image exactly if no other segment reaches further.
-/

namespace PollyInstrew.Client

open PollyInstrew.ByteMemory PollyInstrew.AddressSpace PollyInstrew.StateExcept

/-! ## The load bias -/

/-- `has_first`, `start` and `end` of the loop. -/
structure Extent where
  hasFirst : Bool
  start : Word
  stop : Word

def Extent.step (pagesz : Word) (e : Extent) (ph : ElfPhdr) : Extent :=
  if ph.pType ≠ PT_LOAD then
    e
  else
    ⟨true, if e.hasFirst then e.start else alignDown ph.pVaddr pagesz, ph.pVaddr + ph.pMemsz⟩

def imageExtent (pagesz : Word) (phdrs : List ElfPhdr) : Extent :=
  phdrs.foldl (Extent.step pagesz) ⟨false, 0, 0⟩

/-- `elf_determine_load_bias`; `grant` is the result of `mmap` for a size. -/
def elfDetermineLoadBias (pagesz : Word) (grant : Word → Word) (phdrs : List ElfPhdr) : Word :=
  let e := imageExtent pagesz phdrs
  if e.stop ≤ e.start then
    errPtr (-ENOEXEC)
  else
    let loadBiasPtr := grant (e.stop - e.start)
    if badAddr loadBiasPtr then loadBiasPtr else loadBiasPtr - e.start

/-! ## The extent of the image -/

/-- The segments that are loaded. -/
def loads (phdrs : List ElfPhdr) : List ElfPhdr := phdrs.filter fun ph => ph.pType = PT_LOAD

theorem mem_loads {phdrs : List ElfPhdr} {ph : ElfPhdr} :
    ph ∈ loads phdrs ↔ ph ∈ phdrs ∧ ph.pType = PT_LOAD := by
  simp [loads]

/-- The extent reaches from the first segment to the last one. -/
theorem foldl_extent (pagesz : Word) (phdrs : List ElfPhdr) (e : Extent) :
    phdrs.foldl (Extent.step pagesz) e =
      match (loads phdrs).head?, (loads phdrs).getLast? with
      | some first, some last =>
          ⟨true, if e.hasFirst then e.start else alignDown first.pVaddr pagesz,
            last.pVaddr + last.pMemsz⟩
      | _, _ => e := by
  induction phdrs generalizing e with
  | nil => rfl
  | cons ph phdrs ih =>
      rw [List.foldl_cons, ih, Extent.step]
      by_cases hload : ph.pType = PT_LOAD
      · have hcons : loads (ph :: phdrs) = ph :: loads phdrs := by simp [loads, hload]
        rw [hcons, if_neg (not_not.mpr hload)]
        cases hrest : loads phdrs with
        | nil => simp
        | cons q qs =>
            rw [List.getLast?_cons_cons, List.getLast?_eq_some_getLast (List.cons_ne_nil q qs)]
            simp
      · have hcons : loads (ph :: phdrs) = loads phdrs := by simp [loads, hload]
        rw [hcons, if_pos hload]

theorem imageExtent_eq (pagesz : Word) {phdrs : List ElfPhdr} {first last : ElfPhdr}
    (hfirst : (loads phdrs).head? = some first) (hlast : (loads phdrs).getLast? = some last) :
    imageExtent pagesz phdrs =
      ⟨true, alignDown first.pVaddr pagesz, last.pVaddr + last.pMemsz⟩ := by
  rw [imageExtent, foldl_extent, hfirst, hlast]
  rfl

theorem exists_first_last {phdrs : List ElfPhdr} (h : loads phdrs ≠ []) :
    ∃ first last, (loads phdrs).head? = some first ∧ (loads phdrs).getLast? = some last ∧
      first ∈ loads phdrs ∧ last ∈ loads phdrs :=
  ⟨(loads phdrs).head h, (loads phdrs).getLast h, List.head?_eq_some_head h,
    List.getLast?_eq_some_getLast h, List.head_mem h, List.getLast_mem h⟩

/-- The pages of a segment lie between those of the first and of the last one, or
there are none. -/
def ExtentCovers (pagesz : Word) (phdrs : List ElfPhdr) : Prop :=
  ∀ first ∈ (loads phdrs).head?, ∀ last ∈ (loads phdrs).getLast?, ∀ ph ∈ loads phdrs,
    alignUp (ph.pVaddr + ph.pMemsz) pagesz = alignDown ph.pVaddr pagesz ∨
    (alignDown first.pVaddr pagesz ≤ alignDown ph.pVaddr pagesz ∧
      alignUp (ph.pVaddr + ph.pMemsz) pagesz ≤ alignUp (last.pVaddr + last.pMemsz) pagesz)

instance (pagesz : Word) (phdrs : List ElfPhdr) : Decidable (ExtentCovers pagesz phdrs) :=
  inferInstanceAs (Decidable (∀ first ∈ _, ∀ last ∈ _, ∀ ph ∈ _, _ ∨ _))

/-! ## The range the kernel granted -/

section Room

variable {pagesz : Word} {k : ℕ} (hpage : pagesz.toNat = 2 ^ k) {phdrs : List ElfPhdr}

/-- The pages of the segments do not wrap around. -/
def NoWrap (pagesz : Word) (phdrs : List ElfPhdr) : Prop :=
  ∀ ph ∈ loads phdrs, ph.pVaddr.toNat + ph.pMemsz.toNat + pagesz.toNat ≤ 2 ^ 64

include hpage

theorem segment_toNat {ph : ElfPhdr}
    (hwrap : ph.pVaddr.toNat + ph.pMemsz.toNat + pagesz.toNat ≤ 2 ^ 64) :
    (ph.pVaddr + ph.pMemsz).toNat = ph.pVaddr.toNat + ph.pMemsz.toNat ∧
      (alignDown ph.pVaddr pagesz).toNat ≤ ph.pVaddr.toNat ∧
      (ph.pVaddr + ph.pMemsz).toNat ≤ (alignUp (ph.pVaddr + ph.pMemsz) pagesz).toNat := by
  have hpos := Nat.two_pow_pos k
  have hsum : (ph.pVaddr + ph.pMemsz).toNat = ph.pVaddr.toNat + ph.pMemsz.toNat := by
    rw [BitVec.toNat_add]
    omega
  refine ⟨hsum, ?_, (alignUp_spec hpage (by omega)).1⟩
  rw [alignDown_toNat hpage]
  exact Nat.sub_le _ _

theorem sub_mod_page {ptr start : Word} (hptr : ptr.toNat % 2 ^ k = 0)
    (hstart : start.toNat % 2 ^ k = 0) : (ptr - start).toNat % 2 ^ k = 0 := by
  have h := add_mod_page hpage hstart (ptr - start)
  have hsum : start + (ptr - start) = ptr := by
    bv_omega
  rw [hsum, hptr] at h
  exact h.symm

/-- The pages of a segment in the granted range. -/
theorem segment_reserved_iff {ptr start stop : Word} (hptr : ptr.toNat % 2 ^ k = 0)
    (hstart : start.toNat % 2 ^ k = 0) (hlt : start.toNat < stop.toNat)
    (hstop : stop.toNat + pagesz.toNat ≤ 2 ^ 64) {ph : ElfPhdr}
    (hwrap : ph.pVaddr.toNat + ph.pMemsz.toNat + pagesz.toNat ≤ 2 ^ 64) :
    (∀ x, ImagePages pagesz (ptr - start) ph x → PageRange pagesz ptr (stop - start) x) ↔
      alignUp (ph.pVaddr + ph.pMemsz) pagesz = alignDown ph.pVaddr pagesz ∨
      (start ≤ alignDown ph.pVaddr pagesz ∧
        alignUp (ph.pVaddr + ph.pMemsz) pagesz ≤ alignUp stop pagesz) := by
  obtain ⟨hsum, hdown, hup⟩ := segment_toNat hpage hwrap
  have hbias := sub_mod_page hpage hptr hstart
  have hself : alignDown ptr pagesz = ptr := by
    apply BitVec.eq_of_toNat_eq
    rw [alignDown_toNat hpage, hptr, Nat.sub_zero]
  have hsize : alignUp (ptr + (stop - start)) pagesz - alignDown ptr pagesz =
      alignUp stop pagesz - start := by
    have hrange : ptr + (stop - start) = (ptr - start) + stop := by
      bv_omega
    rw [hrange, alignUp_add hpage hbias, hself]
    bv_omega
  have hpages : alignUp (ptr - start + ph.pVaddr + ph.pMemsz) pagesz -
      alignDown (ptr - start + ph.pVaddr) pagesz =
        alignUp (ph.pVaddr + ph.pMemsz) pagesz - alignDown ph.pVaddr pagesz := by
    rw [BitVec.add_assoc, alignUp_add hpage hbias, alignDown_add hpage hbias]
    bv_omega
  have hoff : alignDown (ptr - start + ph.pVaddr) pagesz - ptr =
      alignDown ph.pVaddr pagesz - start := by
    rw [alignDown_add hpage hbias]
    bv_omega
  have hend := (alignUp_spec hpage (x := stop) (by omega)).1
  have hlo := (alignDown ph.pVaddr pagesz).isLt
  have hhi := (alignUp stop pagesz).isLt
  have hlength : (alignUp (ph.pVaddr + ph.pMemsz) pagesz - alignDown ph.pVaddr pagesz).toNat =
      (alignUp (ph.pVaddr + ph.pMemsz) pagesz).toNat - (alignDown ph.pVaddr pagesz).toNat :=
    BitVec.toNat_sub_of_le (BitVec.le_def.mpr (by omega))
  have htotal : (alignUp stop pagesz - start).toNat =
      (alignUp stop pagesz).toNat - start.toNat :=
    BitVec.toNat_sub_of_le (BitVec.le_def.mpr (by omega))
  unfold ImagePages PageRange
  rw [hsize, hpages, hself, inRange_subset_iff, hoff, BitVec.le_def, BitVec.le_def,
    ← BitVec.toNat_inj, hlength, htotal, BitVec.toNat_sub]
  omega

theorem alignDown_mod (x : Word) : (alignDown x pagesz).toNat % 2 ^ k = 0 := by
  rw [alignDown_toNat hpage]
  exact Nat.sub_mod_eq_zero_of_mod_eq (Nat.mod_mod _ _).symm

/-- There is a page behind an address that is a multiple of the page size. -/
theorem add_page_le {n : ℕ} (hn : n < 2 ^ 64) (hmod : n % 2 ^ k = 0) :
    n + pagesz.toNat ≤ 2 ^ 64 := by
  have hlt := pagesz.isLt
  rw [hpage] at hlt ⊢
  obtain ⟨q, hq⟩ : 2 ^ k ∣ 2 ^ 64 :=
    Nat.pow_dvd_pow 2 (Nat.le_of_lt ((Nat.pow_lt_pow_iff_right (by decide)).mp hlt))
  obtain ⟨r, rfl⟩ := Nat.dvd_of_mod_eq_zero hmod
  rw [hq] at hn ⊢
  have hr : r + 1 ≤ q := Nat.lt_of_mul_lt_mul_left hn
  calc
    2 ^ k * r + 2 ^ k = 2 ^ k * (r + 1) := (Nat.mul_succ _ _).symm
    _ ≤ 2 ^ k * q := Nat.mul_le_mul_left _ hr

/-- A segment in the granted range can be mapped. -/
theorem segment_fits {ptr start stop : Word} (hptr : ptr.toNat % 2 ^ k = 0)
    (hstart : start.toNat % 2 ^ k = 0) (hlt : start.toNat < stop.toNat)
    (hstop : stop.toNat + pagesz.toNat ≤ 2 ^ 64)
    (hroom : ptr.toNat + (stop - start).toNat + pagesz.toNat ≤ 2 ^ 64) {ph : ElfPhdr}
    (hwrap : ph.pVaddr.toNat + ph.pMemsz.toNat + pagesz.toNat ≤ 2 ^ 64)
    (hin : alignUp (ph.pVaddr + ph.pMemsz) pagesz = alignDown ph.pVaddr pagesz ∨
      (start ≤ alignDown ph.pVaddr pagesz ∧
        alignUp (ph.pVaddr + ph.pMemsz) pagesz ≤ alignUp stop pagesz)) :
    (ptr - start + ph.pVaddr).toNat + ph.pMemsz.toNat + pagesz.toNat ≤ 2 ^ 64 := by
  obtain ⟨hsum, hdown, hup⟩ := segment_toNat hpage hwrap
  have hbias := sub_mod_page hpage hptr hstart
  rcases hin with heq | ⟨hlo, hhi⟩
  · rw [heq] at hup
    have hv : ph.pVaddr.toNat % 2 ^ k = 0 := by
      have h := alignDown_mod hpage ph.pVaddr
      have hself : (alignDown ph.pVaddr pagesz).toNat = ph.pVaddr.toNat := by omega
      rwa [hself] at h
    have hmod := add_mod_page hpage hbias ph.pVaddr
    have h := add_page_le hpage (ptr - start + ph.pVaddr).isLt (hmod.trans hv)
    omega
  · rw [BitVec.le_def] at hlo hhi
    have htotal : (stop - start).toNat = stop.toNat - start.toNat :=
      BitVec.toNat_sub_of_le (BitVec.le_def.mpr (by omega))
    obtain ⟨hge, hless, hupmod⟩ := alignUp_spec hpage (x := stop) (by omega)
    have hpages : (ptr.toNat + ((alignUp stop pagesz).toNat - start.toNat)) % 2 ^ k = 0 := by
      have hsub : ((alignUp stop pagesz).toNat - start.toNat) % 2 ^ k = 0 :=
        Nat.sub_mod_eq_zero_of_mod_eq (hupmod.trans hstart.symm)
      rw [Nat.add_mod, hptr, hsub]
      exact Nat.zero_mod _
    have hend := add_page_le hpage (by omega) hpages
    have hoff : ptr - start + ph.pVaddr = ptr + (ph.pVaddr - start) := by
      bv_omega
    have hdiff : (ph.pVaddr - start).toNat = ph.pVaddr.toNat - start.toNat :=
      BitVec.toNat_sub_of_le (BitVec.le_def.mpr (by omega))
    rw [hoff, BitVec.toNat_add, hdiff]
    omega

end Room

/-- What a load bias that is not an error comes from. -/
theorem elfDetermineLoadBias_good {pagesz : Word} {grant : Word → Word} {phdrs : List ElfPhdr}
    (hgood : badAddr (elfDetermineLoadBias pagesz grant phdrs) = false) :
    (imageExtent pagesz phdrs).start.toNat < (imageExtent pagesz phdrs).stop.toNat ∧
      elfDetermineLoadBias pagesz grant phdrs =
        grant ((imageExtent pagesz phdrs).stop - (imageExtent pagesz phdrs).start) -
          (imageExtent pagesz phdrs).start := by
  rw [elfDetermineLoadBias] at hgood ⊢
  by_cases hle : (imageExtent pagesz phdrs).stop ≤ (imageExtent pagesz phdrs).start
  · rw [if_pos hle] at hgood
    exact absurd hgood (by decide)
  · rw [if_neg hle] at hgood ⊢
    rw [BitVec.le_def] at hle
    refine ⟨by omega, ?_⟩
    dsimp only at hgood ⊢
    split
    · rw [if_pos ‹_›] at hgood
      exact absurd ‹_› (Bool.eq_false_iff.mp hgood)
    · rfl

theorem loads_ne_nil {pagesz : Word} {phdrs : List ElfPhdr}
    (h : (imageExtent pagesz phdrs).start.toNat < (imageExtent pagesz phdrs).stop.toNat) :
    loads phdrs ≠ [] := by
  intro hnil
  rw [imageExtent, foldl_extent, hnil] at h
  exact absurd h (Nat.lt_irrefl _)

/-- The granted range has room for the pages of all segments exactly if those of
the first and of the last one enclose them; then loading the image changes nothing
else. -/
theorem load_bias_reserves_iff {pagesz : Word} {k : ℕ} (hpage : pagesz.toNat = 2 ^ k)
    (grant : Word → Word) (phdrs : List ElfPhdr) (hwrap : NoWrap pagesz phdrs)
    (hgood : badAddr (elfDetermineLoadBias pagesz grant phdrs) = false) :
    let total := (imageExtent pagesz phdrs).stop - (imageExtent pagesz phdrs).start
    let loadBias := elfDetermineLoadBias pagesz grant phdrs
    (grant total).toNat % 2 ^ k = 0 →
    (grant total).toNat + total.toNat + pagesz.toNat ≤ 2 ^ 64 →
    ((∀ ph ∈ loads phdrs, ∀ x, ImagePages pagesz loadBias ph x →
        PageRange pagesz (grant total) total x) ↔
      ExtentCovers pagesz phdrs) ∧
    (ExtentCovers pagesz phdrs → (∀ ph ∈ loads phdrs, ph.pFilesz.toNat ≤ ph.pMemsz.toNat) →
      ∀ (kernel : Kernel) (file : List Byte) (m : Machine) (x : Word),
        ¬PageRange pagesz (grant total) total x →
        ((loadSegments kernel pagesz file loadBias phdrs).run m).2.space x = m.space x) := by
  intro total loadBias halign hroom
  obtain ⟨hlt, hbias⟩ := elfDetermineLoadBias_good hgood
  obtain ⟨first, last, hfirst, hlast, hfirstMem, hlastMem⟩ := exists_first_last (loads_ne_nil hlt)
  have hextent := imageExtent_eq pagesz hfirst hlast
  have hstart : (imageExtent pagesz phdrs).start.toNat % 2 ^ k = 0 := by
    rw [hextent]
    exact alignDown_mod hpage first.pVaddr
  have hlastSum := (segment_toNat hpage (hwrap last hlastMem)).1
  have hstop : (imageExtent pagesz phdrs).stop.toNat + pagesz.toNat ≤ 2 ^ 64 := by
    have h := hwrap last hlastMem
    rw [hextent]
    dsimp only
    omega
  have hone : ∀ ph ∈ loads phdrs, (∀ x, ImagePages pagesz loadBias ph x →
        PageRange pagesz (grant total) total x) ↔
      (alignUp (ph.pVaddr + ph.pMemsz) pagesz = alignDown ph.pVaddr pagesz ∨
        (alignDown first.pVaddr pagesz ≤ alignDown ph.pVaddr pagesz ∧
          alignUp (ph.pVaddr + ph.pMemsz) pagesz ≤
            alignUp (last.pVaddr + last.pMemsz) pagesz)) := by
    intro ph hph
    have h := segment_reserved_iff hpage halign hstart hlt hstop (hwrap ph hph)
    rw [← hbias] at h
    rw [h, hextent]
  have hiff : (∀ ph ∈ loads phdrs, ∀ x, ImagePages pagesz loadBias ph x →
        PageRange pagesz (grant total) total x) ↔ ExtentCovers pagesz phdrs := by
    constructor
    · intro h first' hfirst' last' hlast' ph hph
      obtain rfl := Option.some.inj (hfirst.symm.trans hfirst')
      obtain rfl := Option.some.inj (hlast.symm.trans hlast')
      exact (hone ph hph).mp (h ph hph)
    · intro h ph hph
      exact (hone ph hph).mpr (h first hfirst last hlast ph hph)
  refine ⟨hiff, fun hcovers hsize kernel file m x hx => ?_⟩
  refine loadSegments_frame kernel file hpage phdrs (fun ph hph hload => ?_) m fun ph hph hload =>
    fun hpages => hx (hiff.mpr hcovers ph (mem_loads.mpr ⟨hph, hload⟩) x hpages)
  have hmem := mem_loads.mpr ⟨hph, hload⟩
  refine ⟨hsize ph hmem, ?_⟩
  have hin := hcovers first hfirst last hlast ph hmem
  have h := segment_fits hpage halign hstart hlt hstop hroom (hwrap ph hmem)
    (by rw [hextent]; exact hin)
  rwa [← hbias] at h

/-- An image whose second segment lies in front of the first one. -/
def backwardPhdrs : List ElfPhdr :=
  [⟨PT_LOAD, 5, 0x2000, 0x2000, 0x1000, 0x1000⟩, ⟨PT_LOAD, 6, 0, 0, 0x1000, 0x2800⟩]

/-- An image in the order of the addresses. -/
def forwardPhdrs : List ElfPhdr :=
  [⟨PT_LOAD, 5, 0, 0, 0x1000, 0x1000⟩, ⟨PT_LOAD, 6, 0x1ff0, 0x2ff0, 0x20, 0x800⟩]

theorem load_bias_reserves_forward :
    (∀ ph ∈ loads forwardPhdrs, ∀ x,
      ImagePages 0x1000 (elfDetermineLoadBias 0x1000 (fun _ => 0x700000000000) forwardPhdrs) ph x →
        PageRange 0x1000 0x700000000000 0x37f0 x) ∧
    ∀ (kernel : Kernel) (file : List Byte) (m : Machine),
      ((loadSegments kernel 0x1000 file 0x700000000000 forwardPhdrs).run m).2.space 0x6fffffffffff =
        m.space 0x6fffffffffff := by
  obtain ⟨hiff, hframe⟩ := load_bias_reserves_iff (k := 12) (by decide : (0x1000 : Word).toNat = _)
    (fun _ => 0x700000000000) forwardPhdrs (by unfold NoWrap; decide) (by decide) (by decide)
    (by decide)
  have hcovers : ExtentCovers 0x1000 forwardPhdrs := by decide
  exact ⟨hiff.mpr hcovers, fun kernel file m =>
    hframe hcovers (by decide) kernel file m 0x6fffffffffff (by decide)⟩

/-- The kernel grants one page, and the second segment replaces what is mapped in
front of it. -/
theorem backward_not_reserved :
    elfDetermineLoadBias 0x1000 (fun _ => 0x700000000000) backwardPhdrs = 0x6fffffffe000 ∧
    (∃ ph ∈ loads backwardPhdrs, ImagePages 0x1000 0x6fffffffe000 ph 0x6fffffffe000 ∧
      ¬PageRange 0x1000 0x700000000000 0x800 0x6fffffffe000) ∧
    ((loadSegments (fun _ _ => .done) 0x1000 [] 0x6fffffffe000 backwardPhdrs).run
      ⟨fun _ => some ⟨⟨true, true⟩, some 7⟩, 0⟩).2.space 0x6fffffffe000 ≠
        some ⟨⟨true, true⟩, some 7⟩ := by
  decide +kernel

end PollyInstrew.Client
