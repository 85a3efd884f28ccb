import PollyInstrew.Client.Reloc

/-!
# Encodings of relocated fields

Every relocation type that `rtld_reloc_at` handles puts one number into one
field of the code: a data word, the immediate of an instruction or a part of
it.  This module says which, in one table for both architectures, and brings
`rtld_reloc_at` into a form that is the same for all types.  The range checks
are then compared with the ranges of the fields.
-/

namespace PollyInstrew.Client

open PollyInstrew.ByteMemory PollyInstrew.StateExcept

/-- What a relocation puts into the code. -/
inductive Encoding where
  /-- A 64-bit word, relative to its address or not. -/
  | data64 (pcRel : Bool)
  /-- A signed 32-bit word. -/
  | signed32 (pcRel : Bool)
  | unsigned32
  /-- Displacement of `B` and `BL`. -/
  | branch26
  /-- Page displacement of `ADRP`. -/
  | page21
  /-- The low 12 bits in units of `2 ^ scale` bytes, in `ADD` and in loads and stores. -/
  | lo12 (scale : Fin 5)
  /-- One of the four groups of 16 bits, in `MOVZ` and `MOVK`. -/
  | movw (group : Fin 4)
  deriving DecidableEq, Repr

/-- The relocation types of each architecture. -/
def encodings : Arch → List (BitVec 32 × Encoding)
  | .x86_64 =>
      [(R_X86_64_PC64, .data64 true), (R_X86_64_64, .data64 false),
        (R_X86_64_PC32, .signed32 true), (R_X86_64_PLT32, .signed32 true),
        (R_X86_64_32S, .signed32 false), (R_X86_64_32, .unsigned32)]
  | .aarch64 =>
      [(R_AARCH64_PREL64, .data64 true), (R_AARCH64_PREL32, .signed32 true),
        (R_AARCH64_JUMP26, .branch26), (R_AARCH64_CALL26, .branch26),
        (R_AARCH64_ADR_PREL_PG_HI21, .page21), (R_AARCH64_ADD_ABS_LO12_NC, .lo12 0),
        (R_AARCH64_LDST8_ABS_LO12_NC, .lo12 0), (R_AARCH64_LDST16_ABS_LO12_NC, .lo12 1),
        (R_AARCH64_LDST32_ABS_LO12_NC, .lo12 2), (R_AARCH64_LDST64_ABS_LO12_NC, .lo12 3),
        (R_AARCH64_LDST128_ABS_LO12_NC, .lo12 4), (R_AARCH64_MOVW_UABS_G0_NC, .movw 0),
        (R_AARCH64_MOVW_UABS_G1_NC, .movw 1), (R_AARCH64_MOVW_UABS_G2_NC, .movw 2),
        (R_AARCH64_MOVW_UABS_G3, .movw 3)]

def encoding (arch : Arch) (relType : BitVec 32) : Option Encoding :=
  (encodings arch).lookup relType

/-- Number of bits of the word that holds the field. -/
def Encoding.width : Encoding → ℕ
  | .data64 _ => 64
  | _ => 32

/-- The bits of the word that belong to the field. -/
def Encoding.mask : Encoding → Word
  | .data64 _ => 0xffffffffffffffff#64
  | .signed32 _ => 0xffffffff#64
  | .unsigned32 => 0xffffffff#64
  | .branch26 => 0x03ffffff#64
  | .page21 => 0x60ffffe0#64
  | .lo12 scale => (0xfff#64 >>> scale.val) <<< 10
  | .movw _ => 0xffff#64 <<< 5

/-- The number that is encoded for a field at `pc` that refers to `target`. -/
def Encoding.value (e : Encoding) (target pc : Word) : Word :=
  match e with
  | .data64 pcRel => if pcRel then target - pc else target
  | .signed32 pcRel => if pcRel then target - pc else target
  | .unsigned32 => target
  | .branch26 => target - pc
  | .page21 => (alignDown target 0x1000#64 - alignDown pc 0x1000#64).sshiftRight 12
  | .lo12 _ => target
  | .movw _ => target

/-- The check `rtld_reloc_at` makes on the number. -/
def Encoding.check (e : Encoding) (v : Word) : Bool :=
  match e with
  | .signed32 _ => checkSignedBits v 32
  | .unsigned32 => checkUnsignedBits v 32
  | .branch26 => checkSignedBits v 28
  | .page21 => checkSignedBits v 21
  | _ => true

/-- The number at its place in the word. -/
def Encoding.bits (e : Encoding) (v : Word) : Word :=
  match e with
  | .branch26 => v.sshiftRight 2
  | .page21 => ((v &&& 3#64) <<< 29) ||| ((v.sshiftRight 2 &&& 0x7ffff#64) <<< 5)
  | .lo12 scale => (v >>> scale.val) <<< 10
  | .movw group => (v >>> (16 * group.val)) <<< 5
  | _ => v

/-- Where a branch to `syma` is sent: to a veneer if `syma` is out of range. -/
def branchTarget (host : Host) (syma pc : Word) : ClientM Word :=
  if checkSignedBits (syma - pc) 28 then return syma else rtldElfAddStub host syma

/-- The address the field is made to refer to. -/
def Encoding.target (e : Encoding) (host : Host) (syma pc : Word) : ClientM Word :=
  if e = .branch26 then branchTarget host syma pc else return syma

/-- Check the number and put it in place. -/
def Encoding.relocData (e : Encoding) (target pc : Word) : Except ℤ (Word × Word) :=
  if e.check (e.value target pc) then .ok (e.mask, e.bits (e.value target pc))
  else .error (-EINVAL)

/-! ## The uniform form of `rtld_reloc_at` -/

theorem rtldElfSignedRange_bind_eq {α : Type} (v : Word) (bits : ℕ) (a : α) :
    (do rtldElfSignedRange v bits; return a : Except ℤ α) =
      if checkSignedBits v bits then .ok a else .error (-EINVAL) := by
  unfold rtldElfSignedRange
  split
  · rfl
  · rfl

theorem rtldElfUnsignedRange_bind_eq {α : Type} (v : Word) (bits : ℕ) (a : α) :
    (do rtldElfUnsignedRange v bits; return a : Except ℤ α) =
      if checkUnsignedBits v bits then .ok a else .error (-EINVAL) := by
  unfold rtldElfUnsignedRange
  split
  · rfl
  · rfl

theorem mem_encodings {arch : Arch} {relType : BitVec 32} {e : Encoding}
    (h : encoding arch relType = some e) : (relType, e) ∈ encodings arch := by
  obtain ⟨l₁, l₂, heq, -⟩ := List.lookup_eq_some_iff.mp h
  rw [heq]
  exact List.mem_append_right _ List.mem_cons_self

theorem ne_of_encoding_none {arch : Arch} {relType : BitVec 32}
    (h : encoding arch relType = none) : ∀ p ∈ encodings arch, relType ≠ p.1 := by
  intro p hp
  simpa using List.lookup_eq_none_iff.mp h p hp

theorem x86RelocData_eq (relType : BitVec 32) (syma pc : Word) :
    x86RelocData relType syma (syma - pc) =
      match encoding .x86_64 relType with
      | some e => e.relocData syma pc
      | none => .error (-EINVAL) := by
  unfold x86RelocData
  simp only [rtldElfSignedRange_bind_eq, rtldElfUnsignedRange_bind_eq]
  cases h : encoding .x86_64 relType with
  | none =>
      have hne := ne_of_encoding_none h
      simp only [encodings, List.forall_mem_cons] at hne
      simp [hne]
  | some e =>
      have hmem := mem_encodings h
      simp only [encodings, List.mem_cons, Prod.mk.injEq, List.not_mem_nil, or_false] at hmem
      rcases hmem with ⟨rfl, rfl⟩ | ⟨rfl, rfl⟩ | ⟨rfl, rfl⟩ | ⟨rfl, rfl⟩ | ⟨rfl, rfl⟩ |
        ⟨rfl, rfl⟩ <;> rfl

theorem lift_signedRange_bind {α : Type} (v : Word) (bits : ℕ) (a : α) :
    (do Prog.lift (rtldElfSignedRange v bits); return a : ClientM α) =
      Prog.lift (if checkSignedBits v bits then .ok a else .error (-EINVAL)) := by
  rw [← rtldElfSignedRange_bind_eq]
  cases h : rtldElfSignedRange v bits with
  | error e => rfl
  | ok _ => rfl

theorem branchDisplacement_bind {α : Type} (host : Host) (syma pc : Word)
    (f : Word → ClientM α) :
    (branchDisplacement host syma pc >>= f) =
      (branchTarget host syma pc >>= fun target => f (target - pc)) := by
  unfold branchDisplacement branchTarget
  split
  · rfl
  · apply Prog.ext
    funext c
    simp only [Prog.run_bind]
    cases (rtldElfAddStub host syma).run c with
    | mk r c' => cases r <;> rfl

theorem aarch64RelocData_eq (host : Host) (relType : BitVec 32) (syma pc : Word) :
    aarch64RelocData host relType syma pc =
      match encoding .aarch64 relType with
      | some e => do
          let target ← e.target host syma pc
          Prog.lift (e.relocData target pc)
      | none => Prog.fail (-EINVAL) := by
  unfold aarch64RelocData
  simp only [lift_signedRange_bind, branchDisplacement_bind]
  cases h : encoding .aarch64 relType with
  | none =>
      have hne := ne_of_encoding_none h
      simp only [encodings, List.forall_mem_cons] at hne
      simp [hne]
  | some e =>
      have hmem := mem_encodings h
      simp only [encodings, List.mem_cons, Prod.mk.injEq, List.not_mem_nil, or_false] at hmem
      rcases hmem with ⟨rfl, rfl⟩ | ⟨rfl, rfl⟩ | ⟨rfl, rfl⟩ | ⟨rfl, rfl⟩ | ⟨rfl, rfl⟩ |
        ⟨rfl, rfl⟩ | ⟨rfl, rfl⟩ | ⟨rfl, rfl⟩ | ⟨rfl, rfl⟩ | ⟨rfl, rfl⟩ | ⟨rfl, rfl⟩ |
        ⟨rfl, rfl⟩ | ⟨rfl, rfl⟩ | ⟨rfl, rfl⟩ | ⟨rfl, rfl⟩ <;> rfl

/-- `rtld_reloc_at` up to the final write, for both architectures. -/
theorem rtldRelocData_eq (host : Host) (pd : RtldPatchData) (sym : Word) :
    rtldRelocData host pd sym =
      match encoding host.arch pd.relType with
      | some e => do
          let target ← e.target host (sym + pd.addend) pd.patchAddr
          Prog.lift (e.relocData target pd.patchAddr)
      | none => Prog.fail (-EINVAL) := by
  unfold rtldRelocData
  cases host.arch with
  | x86_64 =>
      dsimp only
      rw [x86RelocData_eq]
      cases h : encoding .x86_64 pd.relType with
      | none => rfl
      | some e =>
          have hbranch : e ≠ .branch26 := by
            rintro rfl
            have hmem := mem_encodings h
            simp [encodings] at hmem
          dsimp only
          rw [Encoding.target, if_neg hbranch]
          rfl
  | aarch64 => exact aarch64RelocData_eq host _ _ _

/-! ## What relocating can change -/

section Keeps

variable {R : State → State → Prop} (hrefl : ∀ c, R c c)
  (htrans : ∀ c d e, R c d → R d e → R c e) (hmem : ∀ f : Mem → Mem, Prog.Keeps R (setMem f))
  {host : Host} (halloc : Prog.Keeps R (memAllocCode host 20#64 0x40#64))
include hrefl htrans hmem halloc

theorem keeps_rtldElfAddStub (sym : Word) : Prog.Keeps R (rtldElfAddStub host sym) := by
  refine Prog.Keeps.bind htrans halloc fun stub => Prog.Keeps.ite (Prog.Keeps.fail hrefl _) ?_
  exact Prog.Keeps.bind htrans (hmem _) fun _ => Prog.Keeps.pure hrefl _

/-- Relocating keeps what allocating veneers and writing memory keep. -/
theorem keeps_rtldRelocData (pd : RtldPatchData) (sym : Word) :
    Prog.Keeps R (rtldRelocData host pd sym) := by
  rw [rtldRelocData_eq]
  cases encoding host.arch pd.relType with
  | none => exact Prog.Keeps.fail hrefl _
  | some e =>
      refine Prog.Keeps.bind htrans ?_ fun _ => Prog.Keeps.lift hrefl _
      refine Prog.Keeps.ite (Prog.Keeps.ite (Prog.Keeps.pure hrefl _) ?_)
        (Prog.Keeps.pure hrefl _)
      exact keeps_rtldElfAddStub hrefl htrans hmem halloc _

theorem keeps_rtldPatch (patchData sym : Word) :
    Prog.Keeps R (rtldPatch host patchData sym) := by
  have htry : ∀ pd, Prog.Keeps R (rtldPatch.tryRelocData host pd sym) := by
    intro pd c
    have hc := keeps_rtldRelocData hrefl htrans hmem halloc pd sym c
    unfold rtldPatch.tryRelocData
    cases hrun : (rtldRelocData host pd sym).run c with
    | mk r c' =>
        rw [hrun] at hc
        cases r with
        | ok blend => simpa [hrun] using hc
        | error e => simpa [hrun] using hc
  refine Prog.Keeps.bind htrans (fun c => hrefl c) fun m => ?_
  refine Prog.Keeps.ite (Prog.Keeps.pure hrefl _) (Prog.Keeps.ite (Prog.Keeps.pure hrefl _) ?_)
  exact Prog.Keeps.bind htrans (htry _) fun _ => hmem _

end Keeps

/-! ## Range checks -/

/-- A number and the interval of the numbers its field can hold. -/
structure Limits where
  number : ℤ
  lo : ℤ
  hi : ℤ
  lo_le : lo ≤ hi := by decide

def Limits.Fits (l : Limits) : Prop := l.lo ≤ l.number ∧ l.number ≤ l.hi

/-- The number a field at `pc` has to hold to refer to `target`, for the fields
that cannot hold every number: signed and unsigned words of 32 bits, the byte
displacement of a branch and the signed page count of `ADRP`. -/
def Encoding.limits (e : Encoding) (target pc : Word) : Option Limits :=
  match e with
  | .signed32 pcRel =>
      some
        { number := (if pcRel then target - pc else target).toInt
          lo := -2 ^ 31
          hi := 2 ^ 31 - 1 }
  | .unsigned32 => some { number := target.toNat, lo := 0, hi := 2 ^ 32 - 1 }
  | .branch26 => some { number := (target - pc).toInt, lo := -2 ^ 27, hi := 2 ^ 27 - 1 }
  | .page21 =>
      some
        { number := (alignDown target 0x1000#64 - alignDown pc 0x1000#64).toInt / 0x1000
          lo := -2 ^ 20
          hi := 2 ^ 20 - 1 }
  | _ => none

theorem checkSignedBits_iff (v : Word) (bits : ℕ) :
    checkSignedBits v bits ↔ -2 ^ (bits - 1) ≤ v.toInt ∧ v.toInt < 2 ^ (bits - 1) - 1 :=
  decide_eq_true_iff

theorem checkUnsignedBits_iff (v : Word) (bits : ℕ) :
    checkUnsignedBits v bits ↔ v.toNat < 2 ^ bits - 1 :=
  decide_eq_true_iff

/-- The checks leave out the largest number of each field. -/
theorem Encoding.check_iff {e : Encoding} {target pc : Word} {l : Limits}
    (h : e.limits target pc = some l) :
    e.check (e.value target pc) ↔ l.Fits ∧ l.number ≠ l.hi := by
  cases e with
  | data64 _ => cases h
  | lo12 _ => cases h
  | movw _ => cases h
  | signed32 pcRel =>
      obtain rfl := Option.some.inj h
      simp only [Encoding.check, Encoding.value, checkSignedBits_iff, Limits.Fits]
      omega
  | unsigned32 =>
      obtain rfl := Option.some.inj h
      simp only [Encoding.check, Encoding.value, checkUnsignedBits_iff, Limits.Fits]
      omega
  | branch26 =>
      obtain rfl := Option.some.inj h
      simp only [Encoding.check, Encoding.value, checkSignedBits_iff, Limits.Fits]
      omega
  | page21 =>
      obtain rfl := Option.some.inj h
      simp only [Encoding.check, Encoding.value, checkSignedBits_iff, Limits.Fits,
        BitVec.toInt_sshiftRight, Int.shiftRight_eq_div_pow]
      omega

/-- `rtld_elf_add_stub` is called: it makes the only allocation of
`rtld_reloc_at`. -/
def CreatesVeneer (host : Host) (pd : RtldPatchData) (tgt sym : Word) (c : State) : Prop :=
  ((rtldRelocAt host pd tgt sym).run c).2.mprotectCalls ≠ c.mprotectCalls

/-- The range checks are exact: the relocation is refused, or sent through a
veneer if it is a branch, if and only if the field cannot hold the number. -/
def RangeExact (host : Host) (pd : RtldPatchData) (tgt sym : Word) (c : State) : Prop :=
  ∀ e l, encoding host.arch pd.relType = some e →
    e.limits (sym + pd.addend) pd.patchAddr = some l →
    if e = .branch26 then CreatesVeneer host pd tgt sym c ↔ ¬l.Fits
    else ((rtldRelocAt host pd tgt sym).run c).1 = .error (-EINVAL) ↔ ¬l.Fits

theorem run_rtldRelocAt {host : Host} {pd : RtldPatchData} {e : Encoding}
    (he : encoding host.arch pd.relType = some e) (tgt sym : Word) (c : State) :
    (rtldRelocAt host pd tgt sym).run c =
      match (e.target host (sym + pd.addend) pd.patchAddr).run c with
      | (.ok target, c') =>
          match e.relocData target pd.patchAddr with
          | .ok (mask, data) => (.ok (), { c' with mem := rtldBlend c'.mem tgt mask data })
          | .error err => (.error err, c')
      | (.error err, c') => (.error err, c') := by
  rw [rtldRelocAt, rtldRelocData_eq, he]
  simp only [Prog.run_bind, Prog.run_lift]
  cases (e.target host (sym + pd.addend) pd.patchAddr).run c with
  | mk r c' =>
      cases r with
      | error err => rfl
      | ok target =>
          dsimp only
          cases e.relocData target pd.patchAddr with
          | error err => rfl
          | ok p => rfl

theorem rtldElfAddStub_mprotectCalls (host : Host) (sym : Word) (c : State) :
    ((rtldElfAddStub host sym).run c).2.mprotectCalls = c.mprotectCalls + 1 := by
  rw [rtldElfAddStub, Prog.run_bind, memAllocCode]
  dsimp only
  split
  · rfl
  · rfl

/-- What follows the choice of the target allocates nothing. -/
theorem rtldRelocAt_mprotectCalls {host : Host} {pd : RtldPatchData} {e : Encoding}
    (he : encoding host.arch pd.relType = some e) (tgt sym : Word) (c : State) :
    ((rtldRelocAt host pd tgt sym).run c).2.mprotectCalls =
      ((e.target host (sym + pd.addend) pd.patchAddr).run c).2.mprotectCalls := by
  rw [run_rtldRelocAt he]
  cases (e.target host (sym + pd.addend) pd.patchAddr).run c with
  | mk r c' =>
      cases r with
      | error err => rfl
      | ok target =>
          dsimp only
          cases e.relocData target pd.patchAddr with
          | error err => rfl
          | ok p => rfl

/-- Where the checks reject, the relocation fails or a veneer is created. -/
theorem rtldRelocAt_rejects {host : Host} {pd : RtldPatchData} {e : Encoding}
    (he : encoding host.arch pd.relType = some e) (tgt sym : Word) (c : State) :
    if e = .branch26 then
      CreatesVeneer host pd tgt sym c ↔ ¬e.check (e.value (sym + pd.addend) pd.patchAddr)
    else
      ((rtldRelocAt host pd tgt sym).run c).1 = .error (-EINVAL) ↔
        ¬e.check (e.value (sym + pd.addend) pd.patchAddr) := by
  split
  · next hbranch =>
    subst hbranch
    rw [CreatesVeneer, rtldRelocAt_mprotectCalls he, Encoding.target, if_pos rfl, branchTarget,
      Encoding.check, Encoding.value]
    split
    · next hcheck => simp [hcheck]
    · next hcheck => simp [hcheck, rtldElfAddStub_mprotectCalls]
  · next hbranch =>
    rw [run_rtldRelocAt he, Encoding.target, if_neg hbranch]
    by_cases hcheck : e.check (e.value (sym + pd.addend) pd.patchAddr)
    · simp [Encoding.relocData, hcheck]
    · simp [Encoding.relocData, hcheck]

/-- The range checks of `rtld_reloc_at` are exact except for the largest number
a field can hold, which they reject. -/
theorem rangeExact_iff (host : Host) (pd : RtldPatchData) (tgt sym : Word) (c : State) :
    RangeExact host pd tgt sym c ↔
      ∀ e l, encoding host.arch pd.relType = some e →
        e.limits (sym + pd.addend) pd.patchAddr = some l → l.number ≠ l.hi := by
  refine forall₄_congr fun e l he hl => ?_
  have hrejects := rtldRelocAt_rejects he tgt sym c
  have hcheck := Encoding.check_iff hl
  have hexact : (¬e.check (e.value (sym + pd.addend) pd.patchAddr) ↔ ¬l.Fits) ↔
      l.number ≠ l.hi := by
    have hmax : l.number = l.hi → l.Fits := by
      intro heq
      exact ⟨heq ▸ l.lo_le, heq.le⟩
    tauto
  split at hrejects
  · next hbranch => rw [if_pos hbranch, hrejects, hexact]
  · next hbranch => rw [if_neg hbranch, hrejects, hexact]

/-- A distance of `2 ^ 31 - 1` fits in a signed word of 32 bits and is refused; a
branch over `2 ^ 27 - 1` bytes gets a veneer it does not need. -/
theorem not_rangeExact_max :
    ¬RangeExact (quietHost hhvmInfo) ⟨0, R_X86_64_PC32, 8, 0, 0⟩ 0x2000 0x7fffffff startState ∧
      ¬RangeExact armHost ⟨0, R_AARCH64_JUMP26, 8, 0, 0⟩ 0x2000 0x7ffffff startState := by
  constructor
  · intro h
    have hfits := h (.signed32 true) _ rfl rfl
    rw [if_neg (by decide)] at hfits
    exact hfits.mp (by decide +kernel) (by unfold Limits.Fits; decide)
  · intro h
    have hfits := h .branch26 _ rfl rfl
    rw [if_pos rfl, CreatesVeneer] at hfits
    exact hfits.mp (by decide +kernel) (by unfold Limits.Fits; decide)

end PollyInstrew.Client
