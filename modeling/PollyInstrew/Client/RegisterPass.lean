import PollyInstrew.Client.Frame

/-!
# The last pass of `rtld_add_object`

The last pass enters the functions of an object one by one.  A name that stands
for no address ends it with return value zero, and the functions after it are
lost.  Nothing here needs a well-formed object or table.
-/

namespace PollyInstrew.Client

open PollyInstrew.ByteMemory PollyInstrew.StateExcept

variable {re : RtldElf} {i k : ℕ} {m : Mem}

/-! ## Exported functions -/

/-- Symbol `k` of the symbol table in section `i`. -/
def symbolAt (m : Mem) (re : RtldElf) (i k : ℕ) : Sym := readSym m (symAddrAt m re i k)

/-- Symbol `k` of section `i` is a global function of default visibility that
the object defines. -/
structure IsExport (m : Mem) (re : RtldElf) (i k : ℕ) : Prop where
  lt : i < shnum m re
  type_eq : (shdr m re i).shType = SHT_SYMTAB
  count : k < (shdr m re i).shSize.toNat / symSize
  exported : (symbolAt m re i k).isExported

/-- The guest address the name of a symbol stands for; zero if there is none. -/
def exportAddr (m : Mem) (re : RtldElf) (i k : ℕ) : Word :=
  match rtldElfDecodeName re.skew (undefName m re i (symbolAt m re i k)) with
  | .ok addr => addr.getD 0#64
  | .error _ => 0#64

/-- Where a symbol is defined. -/
def exportEntry (m : Mem) (re : RtldElf) (secAddr : ℕ → Word) (i k : ℕ) : Word :=
  secAddr (symbolAt m re i k).stShndx.toNat + (symbolAt m re i k).stValue

/-- Sections have the addresses of their headers. -/
def headerAddr (m : Mem) (re : RtldElf) (i : ℕ) : Word := (shdr m re i).shAddr

/-! ## One symbol -/

/-- The name of symbol `k` of section `i` stands for the address `addr`. -/
def NamesAddr (m : Mem) (re : RtldElf) (i k : ℕ) (addr : Word) : Prop :=
  ∃ name, rtldElfResolveStr m re (shdr m re i).shLink.toNat
      (symbolAt m re i k).stName.toNat = .ok name ∧
    rtldElfDecodeName re.skew (cstrAt m name) = .ok (some addr)

/-- The name of the symbol is no error, but stands for no address or for address
zero. -/
def SilentName (m : Mem) (re : RtldElf) (i k : ℕ) : Prop :=
  ∃ name addr, rtldElfResolveStr m re (shdr m re i).shLink.toNat
      (symbolAt m re i k).stName.toNat = .ok name ∧
    rtldElfDecodeName re.skew (cstrAt m name) = .ok addr ∧ addr.getD 0#64 = 0#64

/-- Where a symbol is defined, by the section headers. -/
def symEntry (m : Mem) (re : RtldElf) (i k : ℕ) : Word :=
  exportEntry m re (headerAddr m re) i k

/-- `rtld_set` for a symbol. -/
def setSym (c : State) (re : RtldElf) (i k : ℕ) (addr : Word) : ℤ × RtldTable :=
  rtldSet c.objects addr (symEntry c.mem re i k) re.base re.size

/-- The symbol is entered under the address `addr`. -/
structure Accepts (c : State) (re : RtldElf) (i k : ℕ) (addr : Word) : Prop where
  shndx_lt : (symbolAt c.mem re i k).stShndx.toNat < shnum c.mem re
  names : NamesAddr c.mem re i k addr
  ne_zero : addr ≠ 0#64
  set : ¬(setSym c re i k addr).1 < 0

/-- Everything the loop over the symbols can do with one of them. -/
theorem registerSym_cases (re : RtldElf) (i k : ℕ) (c : State) :
    (¬(symbolAt c.mem re i k).isExported ∧
        (registerSym re i (re.base + (shdr c.mem re i).shOffset) k).run c = (.ok true, c)) ∨
      ((symbolAt c.mem re i k).isExported ∧ ∃ addr, Accepts c re i k addr ∧
        (registerSym re i (re.base + (shdr c.mem re i).shOffset) k).run c =
          (.ok true, { c with objects := (setSym c re i k addr).2 })) ∨
      ((symbolAt c.mem re i k).isExported ∧ (¬∃ addr, Accepts c re i k addr) ∧
        ((SilentName c.mem re i k ∧
            (registerSym re i (re.base + (shdr c.mem re i).shOffset) k).run c =
              (.ok false, c)) ∨
          ∃ e, (registerSym re i (re.base + (shdr c.mem re i).shOffset) k).run c =
            (.error e, c))) := by
  generalize hrun : (registerSym re i (re.base + (shdr c.mem re i).shOffset) k).run c = out
  unfold registerSym at hrun
  rw [Prog.run_bind, run_getMem] at hrun
  dsimp only at hrun
  change (if (symbolAt c.mem re i k).isExported then _ else _ : ClientM Bool).run c = _ at hrun
  by_cases hexp : (symbolAt c.mem re i k).isExported
  swap
  · rw [if_neg hexp] at hrun
    exact Or.inl ⟨hexp, hrun.symm⟩
  rw [if_pos hexp] at hrun
  change (if shnum c.mem re ≤ (symbolAt c.mem re i k).stShndx.toNat then _ else _ :
    ClientM Bool).run c = _ at hrun
  right
  by_cases hlt : shnum c.mem re ≤ (symbolAt c.mem re i k).stShndx.toNat
  · rw [if_pos hlt] at hrun
    refine Or.inr ⟨hexp, ?_, Or.inr ⟨_, hrun.symm⟩⟩
    rintro ⟨addr, hacc⟩
    have := hacc.shndx_lt
    omega
  rw [if_neg hlt] at hrun
  cases hstr : rtldElfResolveStr c.mem re (shdr c.mem re i).shLink.toNat
      (symbolAt c.mem re i k).stName.toNat with
  | error e =>
      have hstr' := hstr
      unfold symbolAt symAddrAt at hstr'
      rw [hstr'] at hrun
      refine Or.inr ⟨hexp, ?_, Or.inr ⟨_, hrun.symm⟩⟩
      rintro ⟨addr, hacc⟩
      obtain ⟨name, hname, -⟩ := hacc.names
      rw [hstr] at hname
      cases hname
  | ok name =>
      have hstr' := hstr
      unfold symbolAt symAddrAt at hstr'
      rw [hstr'] at hrun
      dsimp only at hrun
      rw [Prog.run_bind, Prog.run_lift] at hrun
      have hnames : ∀ addr, NamesAddr c.mem re i k addr →
          rtldElfDecodeName re.skew (cstrAt c.mem name) = .ok (some addr) := by
        rintro addr ⟨name', hname', hdec⟩
        rw [hstr] at hname'
        rwa [Except.ok.inj hname']
      cases hdec : rtldElfDecodeName re.skew (cstrAt c.mem name) with
      | error e =>
          rw [hdec] at hrun
          refine Or.inr ⟨hexp, ?_, Or.inr ⟨_, hrun.symm⟩⟩
          rintro ⟨addr, hacc⟩
          have := hnames addr hacc.names
          rw [hdec] at this
          cases this
      | ok addr =>
          rw [hdec] at hrun
          dsimp only at hrun
          by_cases hzero : addr.getD 0#64 = 0#64
          · rw [if_pos hzero] at hrun
            refine Or.inr ⟨hexp, ?_, Or.inl ⟨⟨name, addr, hstr, hdec, hzero⟩, hrun.symm⟩⟩
            rintro ⟨a, hacc⟩
            have := hnames a hacc.names
            rw [hdec] at this
            rw [Except.ok.inj this] at hzero
            exact hacc.ne_zero hzero
          · rw [if_neg hzero, Prog.run_bind, Prog.run_get] at hrun
            dsimp only at hrun
            rw [Prog.run_bind, Prog.run_modify] at hrun
            dsimp only at hrun
            change (if (setSym c re i k (addr.getD 0#64)).1 < 0 then _ else _ :
              ClientM Bool).run { c with objects := (setSym c re i k (addr.getD 0#64)).2 } = _
              at hrun
            obtain ⟨a, rfl⟩ : ∃ a, addr = some a := by
              cases addr with
              | none => exact absurd rfl hzero
              | some a => exact ⟨a, rfl⟩
            change a ≠ 0#64 at hzero
            change (if (setSym c re i k a).1 < 0 then _ else _ :
              ClientM Bool).run { c with objects := (setSym c re i k a).2 } = _ at hrun
            by_cases hset : (setSym c re i k a).1 < 0
            · have hsame : (setSym c re i k a).2 = c.objects := by
                rcases rtldSet_outcome c.objects a (symEntry c.mem re i k) re.base re.size with
                  ⟨-, h⟩ | ⟨h, -⟩
                · exact h
                · exact absurd hset h
              rw [if_pos hset, hsame] at hrun
              refine Or.inr ⟨hexp, ?_, Or.inr ⟨_, hrun.symm⟩⟩
              rintro ⟨a', hacc⟩
              have := hnames a' hacc.names
              rw [hdec] at this
              obtain rfl := Option.some.inj (Except.ok.inj this)
              exact hacc.set hset
            · rw [if_neg hset] at hrun
              exact Or.inl ⟨hexp, a, ⟨by omega, ⟨name, hstr, hdec⟩, hzero, hset⟩, hrun.symm⟩

/-! ## What the table gains -/

/-- What `rtld_resolve` finds in `c` it still finds in `c'`. -/
def Finds (c c' : State) : Prop :=
  ∀ addr entry, rtldResolve c.objects addr = .ok entry →
    rtldResolve c'.objects addr = .ok entry

theorem Finds.refl (c : State) : Finds c c := fun _ _ => id

theorem Finds.trans (c d e : State) (h : Finds c d) (h' : Finds d e) : Finds c e :=
  fun addr entry hres => h' addr entry (h addr entry hres)

/-- An accepted symbol was not found before and is found afterwards. -/
theorem Accepts.resolve {c : State} {addr : Word} (h : Accepts c re i k addr) :
    (∃ e, rtldResolve c.objects addr = .error e) ∧
      rtldResolve (setSym c re i k addr).2 addr = .ok (symEntry c.mem re i k) := by
  rcases rtldSet_outcome c.objects addr (symEntry c.mem re i k) re.base re.size with
    ⟨hneg, -⟩ | ⟨-, hbefore, hafter, -⟩
  · exact absurd hneg h.set
  · exact ⟨hbefore, hafter⟩

/-- The memory stays and no binding is lost. -/
structure Registers (c c' : State) : Prop where
  mem_eq : c'.mem = c.mem
  finds : Finds c c'

theorem Registers.refl (c : State) : Registers c c := ⟨rfl, Finds.refl c⟩

theorem Registers.trans (c d e : State) (h : Registers c d) (h' : Registers d e) :
    Registers c e :=
  ⟨h'.mem_eq.trans h.mem_eq, Finds.trans c d e h.finds h'.finds⟩

theorem registers_tableFrame : TableFrame Registers where
  refl := Registers.refl
  trans := Registers.trans
  set := by
    intro c addr entry objBase objSize
    refine ⟨rfl, ?_⟩
    rcases rtldSet_outcome c.objects addr entry objBase objSize with ⟨-, hsame⟩ | ⟨-, -, -, hkeep⟩
    · rw [hsame]
      exact Finds.refl c
    · exact hkeep

/-! ## All functions are entered -/

/-- Symbol `k` of section `i` is in the table under the address of its name. -/
def InTable (m : Mem) (re : RtldElf) (objects : RtldTable) (i k : ℕ) : Prop :=
  ∃ addr, NamesAddr m re i k addr ∧ rtldResolve objects addr = .ok (symEntry m re i k)

theorem InTable.resolve {objects : RtldTable} (h : InTable m re objects i k) :
    rtldResolve objects (exportAddr m re i k) = .ok (symEntry m re i k) := by
  obtain ⟨addr, ⟨name, hname, hdec⟩, hres⟩ := h
  rw [exportAddr, undefName, hname, hdec]
  exact hres

theorem InTable.exportAddr_ne {objects : RtldTable} (h : InTable m re objects i k) :
    exportAddr m re i k ≠ 0#64 := by
  intro hzero
  have hres := h.resolve
  rw [hzero, rtldResolve, if_pos rfl] at hres
  cases hres

theorem SilentName.exportAddr_eq (h : SilentName m re i k) :
    exportAddr m re i k = 0#64 := by
  obtain ⟨name, addr, hname, hdec, hzero⟩ := h
  rw [exportAddr, undefName, hname, hdec]
  exact hzero

theorem InTable.not_silent {objects : RtldTable} (h : InTable m re objects i k) :
    ¬SilentName m re i k :=
  fun hsilent => h.exportAddr_ne hsilent.exportAddr_eq

theorem InTable.mono {c c' : State} (hfinds : Finds c c') (h : InTable m re c.objects i k) :
    InTable m re c'.objects i k := by
  obtain ⟨addr, hname, hres⟩ := h
  exact ⟨addr, hname, hfinds addr _ hres⟩

/-- A loop over symbols that succeeds has entered all of them, or has met a
silent name. -/
theorem registerSyms_inTable :
    ∀ (count k : ℕ) {c c' : State} {more : Bool}, c.mem = m →
      (Prog.untilFrom (registerSym re i (re.base + (shdr m re i).shOffset)) count k).run c =
        (.ok more, c') →
      (more = true ∧ ∀ l, k ≤ l → l < k + count → (symbolAt m re i l).isExported →
          InTable m re c'.objects i l) ∨
        ∃ l < k + count, (symbolAt m re i l).isExported ∧ SilentName m re i l := by
  intro count
  induction count with
  | zero =>
      intro k c c' more _ hrun
      obtain ⟨hmore, rfl⟩ := Prod.mk.inj hrun
      exact Or.inl ⟨(Except.ok.inj hmore).symm, fun l _ hlt => by omega⟩
  | succ count ih =>
      intro k c c' more hm hrun
      have hsum : k + (count + 1) = k + 1 + count := by omega
      obtain ⟨more₁, c₁, hsym, hrest⟩ := Prog.run_bind_eq_ok.mp hrun
      subst hm
      rcases registerSym_cases re i k c with ⟨hexp, hcase⟩ | ⟨hexp, addr, hacc, hcase⟩ |
        ⟨hexp, -, ⟨hsilent, hcase⟩ | ⟨e, hcase⟩⟩
      · rw [hcase] at hsym
        obtain ⟨hmore, rfl⟩ := Prod.mk.inj hsym
        obtain rfl := Except.ok.inj hmore
        rw [hsum]
        refine (ih (k + 1) rfl hrest).imp (fun hall => ⟨hall.1, ?_⟩) id
        intro l hle hlt hl
        rcases Nat.lt_or_eq_of_le hle with hle | rfl
        · exact hall.2 l hle hlt hl
        · exact absurd hl hexp
      · rw [hcase] at hsym
        obtain ⟨hmore, rfl⟩ := Prod.mk.inj hsym
        obtain rfl := Except.ok.inj hmore
        have hin : InTable c.mem re (setSym c re i k addr).2 i k :=
          ⟨addr, hacc.names, hacc.resolve.2⟩
        have hm₁ : ({ c with objects := (setSym c re i k addr).2 } : State).mem = c.mem := rfl
        rw [if_pos rfl] at hrest
        have hreg := (registers_tableFrame.registerSyms re i _ _ _).of_run hrest
        rw [hsum]
        refine (ih (k + 1) hm₁ hrest).imp (fun hall => ⟨hall.1, ?_⟩) id
        intro l hle hlt hl
        rcases Nat.lt_or_eq_of_le hle with hle | rfl
        · exact hall.2 l hle hlt hl
        · exact hin.mono hreg.finds
      · exact Or.inr ⟨k, by omega, hexp, hsilent⟩
      · rw [hcase] at hsym
        cases hsym

/-- The last pass, when it succeeds, has entered all functions or has met a
silent name. -/
theorem registerPass_inTable :
    ∀ (fuel i : ℕ) {c c' : State}, shnum c.mem re ≤ i + fuel →
      (registerPass re fuel i).run c = (.ok (), c') →
      (∀ j k, i ≤ j → IsExport c.mem re j k → InTable c.mem re c'.objects j k) ∨
        ∃ j k, IsExport c.mem re j k ∧ SilentName c.mem re j k := by
  intro fuel
  induction fuel with
  | zero =>
      intro i c c' hfuel _
      refine Or.inl fun j k hij he => ?_
      have := he.lt
      omega
  | succ fuel ih =>
      intro i c c' hfuel hrun
      rw [registerPass, Prog.run_bind, run_getMem] at hrun
      dsimp only at hrun
      by_cases hlt : i < shnum c.mem re
      swap
      · refine Or.inl fun j k hij he => ?_
        have := he.lt
        omega
      rw [if_pos hlt] at hrun
      by_cases htype : (shdr c.mem re i).shType ≠ SHT_SYMTAB
      · rw [if_pos htype] at hrun
        refine (ih (i + 1) (by omega) hrun).imp (fun hall j k hij he => ?_) id
        rcases Nat.lt_or_eq_of_le hij with hij | rfl
        · exact hall j k hij he
        · exact absurd he.type_eq htype
      rw [if_neg htype] at hrun
      split at hrun
      · cases hrun
      obtain ⟨more, c₁, hsyms, hrest⟩ := Prog.run_bind_eq_ok.mp hrun
      have hreg₁ := (registers_tableFrame.registerSyms re i _ _ _).of_run hsyms
      rcases registerSyms_inTable _ 0 rfl hsyms with ⟨rfl, hall⟩ | ⟨l, hl, hexp, hsilent⟩
      swap
      · exact Or.inr ⟨i, l, ⟨hlt, not_not.mp htype, by omega, hexp⟩, hsilent⟩
      rw [if_pos rfl] at hrest
      have hreg₂ := (registers_tableFrame.registerPass re _ _).of_run hrest
      have hrec := ih (i + 1) (by rw [hreg₁.mem_eq]; omega) hrest
      rw [hreg₁.mem_eq] at hrec
      refine hrec.imp (fun hrec j k hij he => ?_) id
      rcases Nat.lt_or_eq_of_le hij with hij | rfl
      · exact hrec j k hij he
      · exact (hall k (Nat.zero_le _) (by have := he.count; omega) he.exported).mono hreg₂.finds

end PollyInstrew.Client
