import PollyInstrew.Client.Linker

/-!
# Registering the functions of an object

When `rtld_add_object` returns zero, the functions after a name that stands for
no address are missing in the table.  A function that is refused ends it with an
error, and the functions before it stay in the table.
-/

namespace PollyInstrew.Client

open PollyInstrew.ByteMemory PollyInstrew.StateExcept

/-! ## All functions are entered -/

/-- When `rtld_add_object` returns zero, each function of the object is in the
table under the address its name stands for, if and only if no name of a function
is silent. -/
theorem inTable_iff_not_silent {host : Host} {objBase objSize skew : Word} {re : RtldElf}
    {c c₁ c' : State}
    (hplace : (placeObject host objBase objSize skew).run c = (.ok re, c₁))
    (hrun : (rtldAddObject host objBase objSize skew).run c = (.ok (), c')) :
    (∀ i k, IsExport c₁.mem re i k → InTable c₁.mem re c'.objects i k) ↔
      ∀ i k, IsExport c₁.mem re i k → ¬SilentName c₁.mem re i k := by
  rw [rtldAddObject_eq, Prog.run_bind_of_ok hplace] at hrun
  constructor
  · intro hall i k he
    exact (hall i k he).not_silent
  · intro hnames i k he
    have hfuel : shnum c₁.mem re ≤ 0 + shnumBound := by
      have := shnum_lt c₁.mem re
      unfold shnumBound
      omega
    rcases registerPass_inTable shnumBound 0 hfuel hrun with hall | ⟨j, l, he', hsilent⟩
    · exact hall i k (Nat.zero_le i) he
    · exact absurd hsilent (hnames j l he')

/-- The client after the sample object has been put in place. -/
def jmpPlaced (skew : Word) : State :=
  ((placeObject (quietHost hhvmInfo) jmpBuf.1 jmpBuf.2 skew).run jmpReceived).2

theorem jmpObject_placed {skew : Word} (h : skew = 0 ∨ skew = 0x1000) :
    (placeObject (quietHost hhvmInfo) jmpBuf.1 jmpBuf.2 skew).run jmpReceived =
      (.ok (jmpElf skew), jmpPlaced skew) := by
  rcases h with rfl | rfl
  · exact Prog.run_eq_of_fst (by decide +kernel)
  · exact Prog.run_eq_of_fst (by decide +kernel)

theorem inTable_iff_not_silent_jmp :
    NamesOk (jmpPlaced 0x1000).mem (jmpElf 0x1000) ∧
      ∀ i k, IsExport (jmpPlaced 0x1000).mem (jmpElf 0x1000) i k →
        InTable (jmpPlaced 0x1000).mem (jmpElf 0x1000) (jmpLoaded 0x1000).objects i k := by
  have hnames : NamesOk (jmpPlaced 0x1000).mem (jmpElf 0x1000) := by
    unfold NamesOk
    decide +kernel
  refine ⟨hnames, (inTable_iff_not_silent (jmpObject_placed (Or.inr rfl))
    (jmpObject_loaded (Or.inr rfl)).2).mpr ?_⟩
  intro i k he hsilent
  exact hnames i he.lt he.type_eq k he.count he.exported hsilent.exportAddr_eq

/-- With the skew zero the name `S0` of the sample's function is silent. -/
theorem not_inTable_jmp :
    ¬∀ (host : Host) (objBase objSize skew : Word) (re : RtldElf) (c c₁ c' : State),
      (placeObject host objBase objSize skew).run c = (.ok re, c₁) →
      (rtldAddObject host objBase objSize skew).run c = (.ok (), c') →
      ∀ i k, IsExport c₁.mem re i k → InTable c₁.mem re c'.objects i k := by
  intro hall
  obtain ⟨hlt, htype, hcount, hexp, hzero⟩ : 3 < shnum (jmpPlaced 0).mem (jmpElf 0) ∧
      (shdr (jmpPlaced 0).mem (jmpElf 0) 3).shType = SHT_SYMTAB ∧
      1 < (shdr (jmpPlaced 0).mem (jmpElf 0) 3).shSize.toNat / symSize ∧
      (symbolAt (jmpPlaced 0).mem (jmpElf 0) 3 1).isExported ∧
      exportAddr (jmpPlaced 0).mem (jmpElf 0) 3 1 = 0#64 := by
    decide +kernel
  have hin := hall _ _ _ 0 _ _ _ _ (jmpObject_placed (Or.inl rfl))
    (jmpObject_loaded (Or.inl rfl)).2 3 1 ⟨hlt, htype, hcount, hexp⟩
  exact hin.exportAddr_ne hzero

/-! ## Rejected objects -/

/-- An address that `rtld_resolve` did not find in `c` it finds in `c'`. -/
def Gains (c c' : State) : Prop :=
  ∃ addr e entry, rtldResolve c.objects addr = .error e ∧
    rtldResolve c'.objects addr = .ok entry

theorem Gains.mono {c d e : State} (h : Gains c d) (h' : Finds d e) : Gains c e := by
  obtain ⟨addr, err, entry, hbefore, hafter⟩ := h
  exact ⟨addr, err, entry, hbefore, h' addr entry hafter⟩

theorem Accepts.gains {c : State} {re : RtldElf} {i k : ℕ} {addr : Word}
    (h : Accepts c re i k addr) : Gains c { c with objects := (setSym c re i k addr).2 } := by
  obtain ⟨⟨e, hbefore⟩, hafter⟩ := h.resolve
  exact ⟨addr, e, _, hbefore, hafter⟩

/-- The first function among the symbols `k, …, k + count - 1` of a table is
accepted. -/
def SymsEnter (c : State) (re : RtldElf) (i k count : ℕ) : Prop :=
  ∃ l addr, k ≤ l ∧ l < k + count ∧ (symbolAt c.mem re i l).isExported ∧
    (∀ l', k ≤ l' → l' < l → ¬(symbolAt c.mem re i l').isExported) ∧ Accepts c re i l addr

/-- The loop over the symbols of a table changes the lookup if and only if its
first function is accepted; otherwise it changes nothing. -/
theorem registerSyms_gains {re : RtldElf} {i : ℕ} {c : State} :
    ∀ (count k : ℕ) {r : Except ℤ Bool} {c' : State},
      (Prog.untilFrom (registerSym re i (re.base + (shdr c.mem re i).shOffset)) count k).run c =
        (r, c') →
      (SymsEnter c re i k count ∧ Gains c c') ∨
        (¬SymsEnter c re i k count ∧ c' = c ∧
          (r = .ok true ↔ ∀ l, k ≤ l → l < k + count →
            ¬(symbolAt c.mem re i l).isExported)) := by
  intro count
  induction count with
  | zero =>
      intro k r c' hrun
      obtain ⟨rfl, rfl⟩ := Prod.mk.inj hrun
      refine Or.inr ⟨?_, rfl, fun _ l _ _ => by omega, fun _ => rfl⟩
      rintro ⟨l, addr, hle, hlt, -⟩
      omega
  | succ count ih =>
      intro k r c' hrun
      rw [Prog.untilFrom, Prog.run_bind] at hrun
      rcases registerSym_cases re i k c with ⟨hexp, hcase⟩ | ⟨hexp, addr, hacc, hcase⟩ |
        ⟨hexp, hrej, hcase⟩
      · rw [hcase] at hrun
        have henter : SymsEnter c re i k (count + 1) ↔ SymsEnter c re i (k + 1) count := by
          constructor
          · rintro ⟨l, addr, hle, hlt, hl, hbefore, hacc⟩
            have hne : l ≠ k := by
              rintro rfl
              exact hexp hl
            exact ⟨l, addr, by omega, by omega, hl, fun l' h₁ h₂ => hbefore l' (by omega) h₂,
              hacc⟩
          · rintro ⟨l, addr, hle, hlt, hl, hbefore, hacc⟩
            refine ⟨l, addr, by omega, by omega, hl, fun l' h₁ h₂ => ?_, hacc⟩
            rcases Nat.lt_or_eq_of_le h₁ with h₁ | rfl
            · exact hbefore l' h₁ h₂
            · exact hexp
        have hnone : (∀ l, k ≤ l → l < k + (count + 1) → ¬(symbolAt c.mem re i l).isExported) ↔
            ∀ l, k + 1 ≤ l → l < k + 1 + count → ¬(symbolAt c.mem re i l).isExported := by
          constructor
          · intro h l h₁ h₂
            exact h l (by omega) (by omega)
          · intro h l h₁ h₂
            rcases Nat.lt_or_eq_of_le h₁ with h₁ | rfl
            · exact h l h₁ (by omega)
            · exact hexp
        rw [henter, hnone]
        exact ih (k + 1) hrun
      · rw [hcase] at hrun
        refine Or.inl ⟨⟨k, addr, Nat.le_refl k, by omega, hexp, fun _ _ _ => by omega, hacc⟩, ?_⟩
        dsimp only at hrun
        rw [if_pos rfl] at hrun
        exact hacc.gains.mono ((registers_tableFrame.registerSyms re i _ _ _).of_run hrun).finds
      · have hnot : ¬SymsEnter c re i k (count + 1) := by
          rintro ⟨l, addr, hle, hlt, hl, hbefore, hacc⟩
          rcases Nat.lt_or_eq_of_le hle with hle | rfl
          · exact hbefore k (Nat.le_refl k) hle hexp
          · exact hrej ⟨addr, hacc⟩
        have hsome : ¬∀ l, k ≤ l → l < k + (count + 1) → ¬(symbolAt c.mem re i l).isExported :=
          fun h => h k (Nat.le_refl k) (by omega) hexp
        refine Or.inr ⟨hnot, ?_⟩
        rcases hcase with ⟨-, hcase⟩ | ⟨e, hcase⟩
        · rw [hcase] at hrun
          obtain ⟨rfl, rfl⟩ := Prod.mk.inj hrun
          exact ⟨rfl, fun h => absurd h nofun, fun h => absurd h hsome⟩
        · rw [hcase] at hrun
          obtain ⟨rfl, rfl⟩ := Prod.mk.inj hrun
          exact ⟨rfl, fun h => absurd h nofun, fun h => absurd h hsome⟩

/-- Symbol `k` of section `j` is the first function from section `i` on, and the
symbol tables up to it have entries of the right size. -/
structure FirstExport (m : Mem) (re : RtldElf) (i j k : ℕ) : Prop where
  le : i ≤ j
  isExport : IsExport m re j k
  first : ∀ j' k', i ≤ j' → IsExport m re j' k' → j < j' ∨ (j = j' ∧ k ≤ k')
  sized : ∀ j', i ≤ j' → j' ≤ j → (shdr m re j').shType = SHT_SYMTAB →
    (shdr m re j').shEntsize.toNat = symSize

/-- The first function from section `i` on is accepted. -/
def EntersFrom (c : State) (re : RtldElf) (i : ℕ) : Prop :=
  ∃ j k addr, FirstExport c.mem re i j k ∧ Accepts c re j k addr

section FirstExport

variable {m : Mem} {re : RtldElf} {i j k : ℕ}

/-- A section without functions may be skipped. -/
theorem firstExport_succ_iff (hnone : ∀ l, ¬IsExport m re i l)
    (hsized : (shdr m re i).shType = SHT_SYMTAB → (shdr m re i).shEntsize.toNat = symSize) :
    FirstExport m re i j k ↔ FirstExport m re (i + 1) j k := by
  constructor
  · intro h
    have hne : i ≠ j := by
      rintro rfl
      exact hnone k h.isExport
    have hle := h.le
    exact ⟨by omega, h.isExport, fun j' k' hle => h.first j' k' (by omega),
      fun j' hle => h.sized j' (by omega)⟩
  · intro h
    refine ⟨Nat.le_of_succ_le h.le, h.isExport, fun j' k' hle he => ?_,
      fun j' hle hle' ht => ?_⟩
    · rcases Nat.lt_or_eq_of_le hle with hle | rfl
      · exact h.first j' k' hle he
      · exact absurd he (hnone k')
    · rcases Nat.lt_or_eq_of_le hle with hle | rfl
      · exact h.sized j' hle hle' ht
      · exact hsized ht

end FirstExport

/-- The last pass changes the lookup if and only if the first function is
accepted. -/
theorem registerPass_gains {re : RtldElf} {c : State} :
    ∀ (fuel i : ℕ) {r : Except ℤ Unit} {c' : State}, shnum c.mem re ≤ i + fuel →
      (registerPass re fuel i).run c = (r, c') →
      (EntersFrom c re i ∧ Gains c c') ∨ (¬EntersFrom c re i ∧ c' = c) := by
  intro fuel
  induction fuel with
  | zero =>
      intro i r c' hfuel hrun
      obtain ⟨-, rfl⟩ := Prod.mk.inj hrun
      refine Or.inr ⟨?_, rfl⟩
      rintro ⟨j, k, addr, hfirst, -⟩
      have := hfirst.le
      have := hfirst.isExport.lt
      omega
  | succ fuel ih =>
      intro i r c' hfuel hrun
      rw [registerPass, Prog.run_bind, run_getMem] at hrun
      dsimp only at hrun
      by_cases hlt : i < shnum c.mem re
      swap
      · rw [if_neg hlt] at hrun
        obtain ⟨-, rfl⟩ := Prod.mk.inj hrun
        refine Or.inr ⟨?_, rfl⟩
        rintro ⟨j, k, addr, hfirst, -⟩
        have := hfirst.le
        have := hfirst.isExport.lt
        omega
      rw [if_pos hlt] at hrun
      have hskip : (∀ l, ¬IsExport c.mem re i l) →
          ((shdr c.mem re i).shType = SHT_SYMTAB →
            (shdr c.mem re i).shEntsize.toNat = symSize) →
          (EntersFrom c re i ↔ EntersFrom c re (i + 1)) := by
        intro hnone hsized
        simp only [EntersFrom, firstExport_succ_iff hnone hsized]
      by_cases htype : (shdr c.mem re i).shType ≠ SHT_SYMTAB
      · rw [if_pos htype] at hrun
        rw [hskip (fun l he => htype he.type_eq) fun h => absurd h htype]
        exact ih (i + 1) (by omega) hrun
      rw [if_neg htype] at hrun
      rw [not_not] at htype
      by_cases hsize : (shdr c.mem re i).shEntsize.toNat ≠ symSize
      · rw [if_pos hsize] at hrun
        obtain ⟨-, rfl⟩ := Prod.mk.inj hrun
        refine Or.inr ⟨?_, rfl⟩
        rintro ⟨j, k, addr, hfirst, -⟩
        exact hsize (hfirst.sized i (Nat.le_refl i) hfirst.le htype)
      rw [if_neg hsize] at hrun
      rw [not_not] at hsize
      rw [Prog.run_bind] at hrun
      cases hsyms : (Prog.untilFrom (registerSym re i (re.base + (shdr c.mem re i).shOffset))
          ((shdr c.mem re i).shSize.toNat / symSize) 0).run c with
      | mk r₁ c₁ =>
      rw [hsyms] at hrun
      rcases registerSyms_gains _ 0 hsyms with ⟨henter, hgains⟩ | ⟨hnot, rfl, htrue⟩
      · obtain ⟨l, addr, -, hl, hexp, hbefore, hacc⟩ := henter
        have hfirst : FirstExport c.mem re i i l := by
          refine ⟨Nat.le_refl i, ⟨hlt, htype, by omega, hexp⟩, fun j' k' hle he => ?_,
            fun j' hle hle' _ => ?_⟩
          · rcases Nat.lt_or_eq_of_le hle with hle | rfl
            · exact Or.inl hle
            · refine Or.inr ⟨rfl, Nat.le_of_not_lt fun hlt' => ?_⟩
              exact hbefore k' (Nat.zero_le _) hlt' he.exported
          · obtain rfl : j' = i := by omega
            exact hsize
        refine Or.inl ⟨⟨i, l, addr, hfirst, hacc⟩, ?_⟩
        cases r₁ with
        | error e =>
            obtain ⟨-, rfl⟩ := Prod.mk.inj hrun
            exact hgains
        | ok more =>
            dsimp only at hrun
            cases more with
            | false =>
                obtain ⟨-, rfl⟩ := Prod.mk.inj hrun
                exact hgains
            | true =>
                rw [if_pos rfl] at hrun
                exact hgains.mono ((registers_tableFrame.registerPass re _ _).of_run hrun).finds
      · by_cases hr : r₁ = .ok true
        · obtain rfl := hr
          dsimp only at hrun
          rw [if_pos rfl] at hrun
          rw [hskip (fun l he => htrue.mp rfl l (Nat.zero_le _) (by have := he.count; omega)
            he.exported) fun _ => hsize]
          exact ih (i + 1) (by omega) hrun
        · have hstop : c' = c₁ := by
            cases r₁ with
            | error e => exact (Prod.mk.inj hrun).2.symm
            | ok more =>
                cases more with
                | false => exact (Prod.mk.inj hrun).2.symm
                | true => exact absurd rfl hr
          refine Or.inr ⟨?_, hstop⟩
          rintro ⟨j, k, addr, hfirst, hacc⟩
          apply hr
          rw [htrue]
          intro l _ hl hexp
          rcases hfirst.first i l (Nat.le_refl i) ⟨hlt, htype, by omega, hexp⟩ with
            hji | ⟨rfl, -⟩
          · have := hfirst.le
            omega
          · refine hnot ⟨k, addr, Nat.zero_le k, ?_, hfirst.isExport.exported, ?_, hacc⟩
            · have := hfirst.isExport.count
              omega
            · intro l' _ hl' hexp'
              have hcount := hfirst.isExport.count
              rcases hfirst.first j l' (Nat.le_refl j) ⟨hlt, htype, by omega, hexp'⟩ with
                h | ⟨-, h⟩
              · omega
              · omega

/-- The object gets through the first three passes, and its first function is
accepted. -/
def Enters (host : Host) (objBase objSize skew : Word) (c : State) : Prop :=
  ∃ re c₁, (placeObject host objBase objSize skew).run c = (.ok re, c₁) ∧ EntersFrom c₁ re 0

/-- An object that defines two functions for the guest address `8`. -/
def twiceObject : List Byte :=
  ehdrBytes 4 ++
    Shdr.bytes ⟨0, 0, 0, 0, 0, 0, 0, 0, 0⟩ ++
    Shdr.bytes ⟨SHT_PROGBITS, 6, 0, 320, 8, 0, 0, 16, 0⟩ ++
    Shdr.bytes ⟨SHT_SYMTAB, 0, 0, 328, 72, 3, 0, 8, 24⟩ ++
    Shdr.bytes ⟨SHT_STRTAB, 0, 0, 400, 5, 0, 0, 1, 0⟩ ++
    leBytes 8 0xc3 ++
    Sym.bytes ⟨0, 0, 0, 0, 0⟩ ++ Sym.bytes ⟨1, 0x12, 0, 1, 0⟩ ++ Sym.bytes ⟨1, 0x12, 0, 1, 4⟩ ++
    [0] ++ literal "Z10" ++ [0]

def twiceBuf : Word × Word := (0x400000400000, 405)

def twiceReceived : State :=
  ((translatorGetObject (quietHost hhvmInfo) twiceObject).run jmpReady).2

def twiceRejected : State :=
  ((rtldAddObject (quietHost hhvmInfo) twiceBuf.1 twiceBuf.2 0).run twiceReceived).2

theorem twiceObject_rejected :
    (rtldAddObject (quietHost hhvmInfo) twiceBuf.1 twiceBuf.2 0).run twiceReceived =
      (.error (-EEXIST), twiceRejected) :=
  Prog.run_eq_of_fst (by decide +kernel)

/-- The second function is refused, the first one has become reachable. -/
theorem twiceObject_reachable :
    ¬∀ addr, rtldResolve twiceRejected.objects addr =
      rtldResolve twiceReceived.objects addr := by
  intro hall
  have hsome : (rtldResolve twiceRejected.objects 8).isOk ∧
      ¬(rtldResolve twiceReceived.objects 8).isOk := by
    decide +kernel
  rw [hall 8] at hsome
  exact hsome.2 hsome.1

end PollyInstrew.Client
