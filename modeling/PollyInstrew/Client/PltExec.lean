import PollyInstrew.Client.LinkerState

/-!
# Executing stubs on AArch64 and slots of the PLT

The instructions of stubs and slots on AArch64, and PLTs of any length: slot `i`
continues at the address stored for entry `i` as long as the distance to the
data words fits the instruction.
-/

namespace PollyInstrew.Client

open PollyInstrew.ByteMemory PollyInstrew.BitFields PollyInstrew.StateExcept

/-! ## Instructions of AArch64 -/

/-- One instruction of those that occur in stubs and slots of the PLT: `ADR`, `B`
and `LDR` of a literal, besides those of veneers. -/
def a64PcStep (m : Mem) (s : A64State) : Option A64State :=
  let insn := load 32 m s.pc
  let rd := (insn.extractLsb' 0 5).toNat
  let imm19 := insn.extractLsb' 5 19
  let next : A64State := { s with pc := s.pc + 4 }
  if insn.extractLsb' 24 5 = 0x10#5 ∧ insn.extractLsb' 31 1 = 0#1 then
    some (next.write rd (s.pc + (imm19 ++ insn.extractLsb' 29 2).signExtend 64))
  else if insn.extractLsb' 26 6 = 0x05#6 then
    some { s with pc := s.pc + (insn.extractLsb' 0 26 ++ 0#2).signExtend 64 }
  else if insn.extractLsb' 24 8 = 0x58#8 then
    some (next.write rd (load 64 m (s.pc + (imm19 ++ 0#2).signExtend 64)))
  else
    a64Step m s

def a64PcRun (m : Mem) : ℕ → A64State → Option A64State
  | 0, s => some s
  | n + 1, s => (a64PcStep m s).bind (a64PcRun m n)

/-- Executing `n` instructions on either architecture: where execution continues,
with which registers. -/
def execute (arch : Arch) (m : Mem) (n : ℕ) (pc : Word) (regs : ℕ → Word) :
    Option (Word × (ℕ → Word)) :=
  match arch with
  | .x86_64 => (x86Run m n ⟨pc, regs⟩).map fun s => (s.rip, s.regs)
  | .aarch64 => (a64PcRun m n ⟨pc, regs⟩).map fun s => (s.pc, s.regs)

/-! ## Stubs on AArch64 -/

/-- What a stub consists of, if its branch is in range. -/
theorem stubCode_aarch64 {host : Host} (harch : host.arch = .aarch64) {diff : Word}
    {code : List Byte} (h : stubCode host diff = .ok code) :
    checkSignedBits (diff - 4) 28 ∧
      code = leBytes 4 (0x10000080 + host.dispInfo.patchDataReg) ++
        leBytes 4 (Encoding.branch26.blend (Encoding.branch26.bits (diff - 4))
          0x14000000#64).toNat ++ (List.range 8).map fun i => host.stackBytes (8 + i) := by
  unfold stubCode at h
  rw [harch] at h
  dsimp only at h
  unfold aarch64StubCode at h
  rw [rtldElfSignedRange_bind_eq] at h
  by_cases hcheck : checkSignedBits (diff - 4) 28
  · rw [if_pos hcheck] at h
    exact ⟨hcheck, (Except.ok.inj h).symm⟩
  · rw [if_neg hcheck] at h
    exact absurd h nofun

section A64Stub

variable {m : Mem} {stub : Word} {pdr : ℕ} {branch : Word} {rest : List Byte}
  (hstub : readBytes m stub stubSize = leBytes 4 (0x10000080 + pdr) ++ leBytes 4 branch.toNat ++
    rest)
include hstub

theorem a64PcStep_adr (hpdr : pdr < 31) (regs : ℕ → Word) :
    a64PcStep m ⟨stub, regs⟩ = some ⟨stub + 4, Function.update regs pdr (stub + 16)⟩ := by
  have hload : load 32 m stub = BitVec.ofNat 32 (0x10000080 + pdr) := by
    refine load_of_readBytes (by decide) ?_
    have hslice := readBytes_slice hstub (k := 0) (j := 4) (by decide)
    rw [BitVec.add_zero] at hslice
    exact hslice.trans rfl
  have hfields : ∀ p < 31,
      (BitVec.ofNat 32 (0x10000080 + p)).extractLsb' 24 5 = 0x10#5 ∧
      (BitVec.ofNat 32 (0x10000080 + p)).extractLsb' 31 1 = 0#1 ∧
      ((BitVec.ofNat 32 (0x10000080 + p)).extractLsb' 0 5).toNat = p ∧
      ((BitVec.ofNat 32 (0x10000080 + p)).extractLsb' 5 19 ++
        (BitVec.ofNat 32 (0x10000080 + p)).extractLsb' 29 2).signExtend 64 = 16#64 := by
    decide
  obtain ⟨h₁, h₂, h₃, h₄⟩ := hfields pdr hpdr
  unfold a64PcStep
  dsimp only
  rw [hload, if_pos ⟨h₁, h₂⟩, h₃, h₄, A64State.write, if_neg (by omega)]
  rfl

/-- The branch of a stub reaches an aligned target in its range. -/
theorem a64PcStep_b {target : Word}
    (hbranch : branch = Encoding.branch26.blend (Encoding.branch26.bits (target - (stub + 4)))
      0x14000000#64)
    (hcheck : checkSignedBits (target - (stub + 4)) 28) (ht : target.toNat % 4 = 0)
    (hs : stub.toNat % 4 = 0) (regs : ℕ → Word) :
    a64PcStep m ⟨stub + 4, regs⟩ = some ⟨target, regs⟩ := by
  have hload : load 32 m (stub + 4) = branch.setWidth 32 := by
    have hslice := readBytes_slice hstub (k := 4) (j := 4) (by decide)
    rw [← BitVec.ofNat_toNat]
    exact load_of_readBytes (by decide) (hslice.trans rfl)
  have hop : (branch.setWidth 32).extractLsb' 26 6 = 0x05#6 := by
    rw [BitVec.extractLsb'_setWidth_of_le (by decide), hbranch, Encoding.blend,
      extract_blend_outside (by decide) (by decide)]
    decide
  have hadr : (branch.setWidth 32).extractLsb' 24 5 ≠ 0x10#5 := by
    intro heq
    have hbit := congrArg (fun v => v.getLsbD 2) heq
    have hbit' := congrArg (fun v => v.getLsbD 0) hop
    simp only [BitVec.getLsbD_extractLsb'] at hbit hbit'
    rw [show (24 + 2 : ℕ) = 26 + 0 from rfl] at hbit
    simp_all
  have hpc : (stub + 4).toNat % 4 = 0 := by
    have h4 : (4 : Word).toNat = 4 := rfl
    rw [BitVec.toNat_add, h4]
    omega
  have hdec : stub + 4 + ((branch.setWidth 32).extractLsb' 0 26 ++ 0#2).signExtend 64 = target :=
    hbranch ▸ decode_branch26 hcheck ht hpc
  unfold a64PcStep
  dsimp only
  rw [hload, if_neg fun h => hadr h.1, if_pos hop, hdec]

end A64Stub

/-! ## PLTs of any length -/

/-- Distance from a slot to its data word, with `n` entries. -/
def pltOffset (n : ℕ) : ℕ := (alignUp (BitVec.ofNat 64 (n * pltFuncSize)) 0x40#64).toNat

/-- The array `plt` of `plt_create` for entries that store the given addresses;
`gap` is what lies on the stack between code and data. -/
def pltImage (arch : Arch) (gap : ℕ → Byte) (targets : List Word) : List Byte :=
  (targets.flatMap fun _ => pltSlotCode arch (pltOffset targets.length)) ++
    (List.range (pltOffset targets.length - targets.length * pltFuncSize)).map gap ++
    (targets.flatMap fun target => leBytes 8 target.toNat)

/-- `plt_create` with a table `plt_entries` of any length. -/
def pltCreateWith (host : Host) (targets : List Word) : ClientM Word := do
  let bytes := pltImage host.arch host.stackBytes targets
  let pltcode ← memAllocCode host (BitVec.ofNat 64 bytes.length) 0x40#64
  if badAddr pltcode then
    Prog.fail (ptrInt pltcode)
  else
    memWriteCode pltcode bytes
    return pltcode

/-- The addresses `plt_create` stores. -/
def pltTargets (host : Host) : List Word :=
  (pltNames host.arch).zipIdx.map fun e => pltTarget host e.2 e.1

theorem flatMap_const {α β γ : Type} {xs : List α} {ys : List β} (h : xs.length = ys.length)
    (l : List γ) : (xs.flatMap fun _ => l) = ys.flatMap fun _ => l := by
  rw [List.flatMap_def, List.flatMap_def, List.map_const', List.map_const', h]

theorem length_pltTargets (host : Host) :
    (pltTargets host).length = (pltNames host.arch).length := by
  simp [pltTargets]

theorem pltBytes_eq (host : Host) :
    pltBytes host = pltImage host.arch host.stackBytes (pltTargets host) := by
  have hlen := length_pltTargets host
  have hdata : ((pltTargets host).flatMap fun target => leBytes 8 target.toNat) =
      (pltNames host.arch).zipIdx.flatMap fun e => leBytes 8 (pltTarget host e.2 e.1).toNat := by
    rw [pltTargets, List.flatMap_map]
  rw [pltBytes, pltImage, hdata, flatMap_const hlen, hlen]
  rfl

theorem pltCreate_eq (host : Host) : pltCreate host = pltCreateWith host (pltTargets host) := by
  rw [pltCreate, pltCreateWith, pltBytes_eq]

/-- The distances between slots and data words fit the instruction. -/
def PltFits (arch : Arch) (n : ℕ) : Prop :=
  match arch with
  | .x86_64 => roundUp (n * pltFuncSize) 0x40 < 2 ^ 31 + 6
  | .aarch64 => roundUp (n * pltFuncSize) 0x40 < 2 ^ 20

/-- The table of the client fits. -/
theorem pltFits_pltTargets (host : Host) : PltFits host.arch (pltTargets host).length := by
  rw [length_pltTargets]
  cases host.arch <;> (unfold PltFits; decide)

theorem PltFits.pltOffset_eq {arch : Arch} {n : ℕ} (h : PltFits arch n) :
    pltOffset n = roundUp (n * pltFuncSize) 0x40 ∧ pltOffset n < 2 ^ 31 + 6 ∧
      n * pltFuncSize ≤ pltOffset n ∧ pltOffset n % 0x40 = 0 := by
  have hlt : roundUp (n * pltFuncSize) 0x40 < 2 ^ 31 + 6 := by
    cases arch with
    | x86_64 => exact h
    | aarch64 => exact Nat.lt_trans h (by decide)
  obtain ⟨hle, -, hmod⟩ := roundUp_spec (x := n * pltFuncSize) (n := 0x40) (by decide)
  have hnat : (BitVec.ofNat 64 (n * pltFuncSize)).toNat = n * pltFuncSize := by
    rw [BitVec.toNat_ofNat]
    omega
  have heq : pltOffset n = roundUp (n * pltFuncSize) 0x40 := by
    have hfit : roundUp (BitVec.ofNat 64 (n * pltFuncSize)).toNat (2 ^ 6) < 2 ^ 64 := by
      rw [hnat]
      exact Nat.lt_trans hlt (by decide)
    have halign := alignUp_toNat (a := 0x40) (by decide) hfit
    rw [hnat] at halign
    exact halign
  rw [heq]
  exact ⟨rfl, hlt, hle, hmod⟩

theorem length_pltSlotCode (arch : Arch) (offset : ℕ) :
    (pltSlotCode arch offset).length = pltFuncSize := by
  cases arch <;> simp [pltSlotCode, pltFuncSize]

section PltImage

variable {arch : Arch} {gap : ℕ → Byte} {targets : List Word} (hfits : PltFits arch targets.length)
include hfits

theorem length_pltImage :
    (pltImage arch gap targets).length = pltOffset targets.length + 8 * targets.length := by
  obtain ⟨-, -, hle, -⟩ := hfits.pltOffset_eq
  have hslots : (targets.flatMap fun _ => pltSlotCode arch (pltOffset targets.length)).length =
      targets.length * pltFuncSize := by
    rw [List.length_flatMap]
    simp [length_pltSlotCode]
  have hdata : (targets.flatMap fun target => leBytes 8 target.toNat).length =
      8 * targets.length := by
    rw [List.length_flatMap]
    simp [Nat.mul_comm]
  rw [pltImage, List.length_append, List.length_append, hslots, hdata, List.length_map,
    List.length_range]
  omega

/-- A slot and its data word. -/
theorem read_pltImage {m : Mem} {plt : Word}
    (hplt : readBytes m plt (pltImage arch gap targets).length = pltImage arch gap targets)
    {i : ℕ} {target : Word} (hi : targets[i]? = some target) :
    readBytes m (plt + BitVec.ofNat 64 (pltFuncSize * i)) pltFuncSize =
        pltSlotCode arch (pltOffset targets.length) ∧
      load 64 m (plt + BitVec.ofNat 64 (pltFuncSize * i) +
        BitVec.ofNat 64 (pltOffset targets.length)) = target := by
  obtain ⟨-, -, hle, -⟩ := hfits.pltOffset_eq
  have hslots : (targets.flatMap fun _ => pltSlotCode arch (pltOffset targets.length)).length =
      pltFuncSize * targets.length := by
    rw [List.length_flatMap]
    simp [length_pltSlotCode, Nat.mul_comm]
  have hdata : (targets.flatMap fun target => leBytes 8 target.toNat).length =
      8 * targets.length := by
    rw [List.length_flatMap]
    simp [Nat.mul_comm]
  unfold pltImage at hplt
  rw [List.length_append] at hplt
  obtain ⟨hcode, hwords⟩ := readBytes_eq_append.mp hplt
  rw [List.length_append] at hcode
  have hcode' := (readBytes_eq_append.mp hcode).1
  rw [hslots] at hcode'
  refine ⟨readBytes_flatMap (fun _ => length_pltSlotCode arch _) hcode' hi, ?_⟩
  rw [hdata, List.length_append, hslots, List.length_map, List.length_range] at hwords
  have hword := readBytes_flatMap (fun _ => length_leBytes 8 _) hwords hi
  have hoff : pltFuncSize * targets.length +
      (pltOffset targets.length - targets.length * pltFuncSize) + 8 * i =
      pltFuncSize * i + pltOffset targets.length := by
    have hsize : pltFuncSize = 8 := rfl
    rw [hsize] at hle ⊢
    omega
  rw [BitVec.add_assoc, ← BitVec.ofNat_add, hoff] at hword
  rw [BitVec.add_assoc, ← BitVec.ofNat_add, load_of_readBytes (w := 64) (by decide) hword,
    BitVec.ofNat_toNat, BitVec.setWidth_eq]

end PltImage

/-- The slot of x86-64, `jmp [rip + disp32]`. -/
theorem x86Step_slot {m : Mem} {slot target : Word} {offset : ℕ} (hoff : offset < 2 ^ 31 + 6)
    (hpos : 6 ≤ offset)
    (hslot : readBytes m slot pltFuncSize = pltSlotCode .x86_64 offset)
    (hdata : load 64 m (slot + BitVec.ofNat 64 offset) = target) (regs : ℕ → Word) :
    x86Step m ⟨slot, regs⟩ = some ⟨target, regs⟩ := by
  generalize hdisp : BitVec.ofNat 64 offset - 6 = disp at *
  have hword : load (8 * 8) m slot = 0x0b0f0000000025ff#64 ||| (disp <<< 16) := by
    have hload := load_of_readBytes (w := 64) (by decide) hslot
    rw [hdisp, BitVec.ofNat_toNat, BitVec.setWidth_eq] at hload
    exact hload
  have hfield : ∀ k n, k + n ≤ 8 → load (8 * n) m (slot + BitVec.ofNat 64 k) =
      (0x0b0f0000000025ff#64).extractLsb' (8 * k) (8 * n) |||
        (disp <<< 16).extractLsb' (8 * k) (8 * n) := by
    intro k n hk
    rw [← extract_load hk, hword, BitVec.extractLsb'_or]
  have h0 : m slot = 0xff#8 := by
    have := hfield 0 1 (by decide)
    rw [extract_shiftLeft_zero _ (by decide), BitVec.add_zero] at this
    exact (load_byte m slot).symm.trans this
  have h1 : m (slot + 1) = 0x25#8 := by
    have := hfield 1 1 (by decide)
    rw [extract_shiftLeft_zero _ (by decide)] at this
    exact (load_byte m (slot + 1)).symm.trans this
  have h2 : load 32 m (slot + 2) = disp.setWidth 32 := by
    have := hfield 2 4 (by decide)
    rw [extract_shiftLeft _ (by decide), ← BitVec.setWidth_eq_extractLsb' (by decide)] at this
    exact this.trans (BitVec.zero_or)
  have hnat : disp.toNat = offset - 6 := by
    have h6 : (6 : Word).toNat = 6 := rfl
    rw [← hdisp, BitVec.toNat_sub, BitVec.toNat_ofNat, h6]
    omega
  have hext : (disp.setWidth 32).signExtend 64 = disp := by
    have hint : disp.toInt = disp.toNat := by
      rw [BitVec.toInt_eq_toNat_cond]
      split <;> omega
    exact signExtend_setWidth_of_range (by decide) (by omega) (by omega)
  have haddr : slot + 6 + disp = slot + BitVec.ofNat 64 offset := by
    rw [← hdisp, BitVec.add_assoc, BitVec.add_comm 6, BitVec.sub_add_cancel]
  unfold x86Step
  dsimp only
  rw [h0, if_neg (fun hlea => absurd hlea.1 (by decide)), if_neg (by decide),
    if_pos ⟨rfl, h1⟩, h2, hext, haddr, hdata]

/-- The slot of AArch64, `LDR` of the data word and `BR`. -/
theorem a64PcRun_slot {m : Mem} {slot target : Word} {offset : ℕ} (hoff : offset < 2 ^ 20)
    (hmod : offset % 0x40 = 0)
    (hslot : readBytes m slot pltFuncSize = pltSlotCode .aarch64 offset)
    (hdata : load 64 m (slot + BitVec.ofNat 64 offset) = target) (regs : ℕ → Word) :
    a64PcRun m 2 ⟨slot, regs⟩ = some ⟨target, Function.update regs 17 target⟩ := by
  have hnat : (BitVec.ofNat 64 offset).toNat = offset := by
    rw [BitVec.toNat_ofNat]
    omega
  generalize hw : BitVec.ofNat 64 offset = w at *
  have hldr : load 32 m slot = (0x58000011#64 ||| (w <<< 3)).setWidth 32 := by
    have hslice := readBytes_slice hslot (k := 0) (j := 4) (by decide)
    rw [BitVec.add_zero] at hslice
    have hload := load_of_readBytes (w := 32) (by decide) (hslice.trans rfl)
    rw [hload, ← hw, BitVec.ofNat_toNat]
  have hbr : load 32 m (slot + 4) = 0xd61f0220#32 := by
    have hslice := readBytes_slice hslot (k := 4) (j := 4) (by decide)
    exact load_of_readBytes (w := 32) (by decide) (hslice.trans rfl)
  have hfield : ∀ lo len, lo + len ≤ 32 →
      ((0x58000011#64 ||| (w <<< 3)).setWidth 32).extractLsb' lo len =
        (0x58000011#64).extractLsb' lo len ||| (w <<< 3).extractLsb' lo len := by
    intro lo len hle
    rw [BitVec.extractLsb'_setWidth_of_le hle, BitVec.extractLsb'_or]
  have hhigh : ∀ lo len, 24 ≤ lo → lo + len ≤ 32 → (w <<< 3).extractLsb' lo len = 0#(len) := by
    intro lo len hlo hle
    have hpow : 2 ^ 21 ≤ 2 ^ (lo - 3) := Nat.pow_le_pow_right (by decide) (by omega)
    apply BitVec.eq_of_toNat_eq
    rw [extract_shiftLeft_of_le w (by omega) (by omega), BitVec.extractLsb'_toNat,
      Nat.shiftRight_eq_div_pow, Nat.div_eq_of_lt (by omega)]
    simp
  have hlow : (w <<< 3).extractLsb' 0 5 = 0#5 := by
    apply BitVec.eq_of_toNat_eq
    rw [BitVec.extractLsb'_toNat, BitVec.toNat_shiftLeft, Nat.shiftLeft_eq, Nat.shiftRight_zero]
    simp only [BitVec.toNat_ofNat]
    omega
  have himm : ((w <<< 3).extractLsb' 5 19 ++ 0#2).signExtend 64 = w := by
    have hx : (w >>> 2).toNat = offset / 4 := by
      rw [BitVec.toNat_ushiftRight, Nat.shiftRight_eq_div_pow, hnat]
    have hint : (w >>> 2).toInt = (offset / 4 : ℕ) := by
      rw [BitVec.toInt_eq_toNat_cond, hx]
      split <;> omega
    have hint' : w.toInt = offset := by
      rw [BitVec.toInt_eq_toNat_cond, hnat]
      split <;> omega
    have hcut : (w <<< 3).extractLsb' 5 19 = (w >>> 2).setWidth 19 := by
      rw [extract_shiftLeft_of_le w (by decide) (by decide)]
      apply BitVec.eq_of_getLsbD_eq
      intro i hi
      rw [BitVec.getLsbD_extractLsb', BitVec.getLsbD_setWidth, BitVec.getLsbD_ushiftRight]
    rw [hcut]
    exact signExtend_append_zero (n := 18) (k := 2) (by decide) (by omega) (by omega) (by omega)
  have hstep₁ : a64PcStep m ⟨slot, regs⟩ =
      some ⟨slot + 4, Function.update regs 17 target⟩ := by
    unfold a64PcStep
    dsimp only
    rw [hldr, hfield 24 5 (by decide), hfield 31 1 (by decide), hfield 26 6 (by decide),
      hfield 24 8 (by decide), hfield 5 19 (by decide), hfield 0 5 (by decide),
      hhigh 24 5 (by decide) (by decide), hhigh 26 6 (by decide) (by decide),
      hhigh 24 8 (by decide) (by decide), hlow, if_neg (fun h => absurd h.1 (by decide)),
      if_neg (by decide), if_pos (by decide)]
    have hzero : (0x58000011#64).extractLsb' 5 19 = 0#19 := by decide
    rw [hzero, BitVec.zero_or, himm, hdata]
    rfl
  have hstep₂ : ∀ regs', a64PcStep m ⟨slot + 4, regs'⟩ = some ⟨regs' 17, regs'⟩ := by
    intro regs'
    unfold a64PcStep a64Step
    dsimp only
    rw [hbr, if_neg (fun h => absurd h.1 (by decide)), if_neg (by decide), if_neg (by decide),
      if_neg (by decide), if_neg (by decide), if_pos (by decide)]
    rfl
  simp only [a64PcRun, hstep₁, hstep₂, Option.bind_some, Function.update_self]

/-! ## Executing a slot -/

/-- Instructions a slot consists of. -/
def slotLength : Arch → ℕ
  | .x86_64 => 1
  | .aarch64 => 2

/-- Executing slot `i` continues at the address of entry `i`; on AArch64 the
address is also left in `x17`. -/
theorem slot_executes {arch : Arch} {gap : ℕ → Byte} {targets : List Word}
    (hfits : PltFits arch targets.length) {m : Mem} {plt : Word}
    (hplt : readBytes m plt (pltImage arch gap targets).length = pltImage arch gap targets)
    {i : ℕ} {target : Word} (hi : targets[i]? = some target) (regs : ℕ → Word) :
    execute arch m (slotLength arch) (plt + BitVec.ofNat 64 (pltFuncSize * i)) regs =
      some (target, if arch = .aarch64 then Function.update regs 17 target else regs) := by
  obtain ⟨hslot, hdata⟩ := read_pltImage hfits hplt hi
  obtain ⟨heq, hlt, hle, hmod⟩ := hfits.pltOffset_eq
  cases arch with
  | x86_64 =>
      have hpos : 6 ≤ pltOffset targets.length := by
        have hlen : i < targets.length := (List.getElem?_eq_some_iff.mp hi).1
        have hsize : pltFuncSize = 8 := rfl
        rw [hsize] at hle
        omega
      simp only [execute, slotLength, x86Run, x86Step_slot hlt hpos hslot hdata,
        Option.bind_some, Option.map_some]
      rfl
  | aarch64 =>
      have hlt' : pltOffset targets.length < 2 ^ 20 := heq ▸ hfits
      simp only [execute, slotLength, a64PcRun_slot hlt' hmod hslot hdata, Option.map_some,
        if_true]

theorem pltCreateWith_ok {host : Host} {targets : List Word} {c c' : State} {plt : Word}
    (hfits : PltFits host.arch targets.length)
    (hrun : (pltCreateWith host targets).run c = (.ok plt, c')) :
    readBytes c'.mem plt (pltImage host.arch host.stackBytes targets).length =
      pltImage host.arch host.stackBytes targets := by
  obtain ⟨p, c₁, halloc, hrun⟩ := Prog.run_bind_eq_ok.mp hrun
  by_cases hbad : badAddr p
  · rw [if_pos hbad] at hrun
    exact absurd (Prod.mk.inj hrun).1 nofun
  rw [if_neg hbad] at hrun
  simp only [Prog.run_bind, run_memWriteCode, Prog.run_pure, Prod.mk.injEq,
    Except.ok.injEq] at hrun
  obtain ⟨rfl, rfl⟩ := hrun
  obtain ⟨-, hlt, hle, -⟩ := hfits.pltOffset_eq
  apply readBytes_writeBytes
  rw [length_pltImage hfits]
  have hsize : pltFuncSize = 8 := rfl
  rw [hsize] at hle
  omega

end PollyInstrew.Client
