import PollyInstrew.Client.LinkerState

/-!
# What `rtld_patch` touches

`rtld_patch` copies eight bytes from the field of a relocation, relocates them and
copies them back, whatever the size of the field.  The window is mapped because the
stub whose patch data it works on was allocated behind the field.  Of the bytes
below the break only the field changes.
-/

namespace PollyInstrew.Client

open PollyInstrew.ByteMemory PollyInstrew.StateExcept

/-! ## Relocating -/

/-- The arena at most grows, and memory changes in its new part only. -/
def GrownFresh (host : Host) (c c' : State) : Prop :=
  c.arenaCode.Ok host.pageBits → c.arenaCode.endp.toNat ≤ 2 ^ 47 →
    Grown host c c' ∧ FreshOnly c c'

theorem GrownFresh.refl (host : Host) (c : State) : GrownFresh host c c :=
  fun hok _ => ⟨Grown.refl hok, fun _ _ => rfl⟩

theorem GrownFresh.trans (host : Host) (c d e : State) (h : GrownFresh host c d)
    (h' : GrownFresh host d e) : GrownFresh host c e := by
  intro hok hend
  obtain ⟨hgrown, hfresh⟩ := h hok hend
  obtain ⟨hgrown', hfresh'⟩ := h' hgrown.ok (hgrown.endp_eq ▸ hend)
  exact ⟨hgrown.trans hgrown', hfresh.trans hfresh' hgrown.brk_le hgrown'.brk_le⟩

/-- A veneer is created, or nothing is written. -/
theorem grownFresh_rtldElfAddStub (host : Host) (sym : Word) :
    Prog.Keeps (GrownFresh host) (rtldElfAddStub host sym) := by
  intro c hok hend
  cases hrun : (rtldElfAddStub host sym).run c with
  | mk r c' =>
      cases r with
      | ok stub =>
          obtain ⟨hgrown, hmem, hle, hsum, -⟩ := rtldElfAddStub_ok hok hend hrun
          have hb := hgrown.ok.brk_le
          have hp := hgrown.ok.brkp_le
          rw [hgrown.endp_eq] at hp
          refine ⟨hgrown, fun x hx => ?_⟩
          dsimp only at hx ⊢
          rw [hmem]
          apply writeBytes_of_not_inRange
          rw [length_veneerCode, inRange_iff (by omega)]
          omega
      | error e =>
          have hgrown : Grown host c ((memAllocCode host 20#64 0x40#64).run c).2 :=
            memAllocCode_grown hok (hend.trans (by decide)) (by decide) (by decide)
          have hstate : c' = ((memAllocCode host 20#64 0x40#64).run c).2 := by
            unfold rtldElfAddStub at hrun
            rw [Prog.run_bind] at hrun
            simp only [memAllocCode] at hrun ⊢
            split at hrun
            · exact (Prod.mk.inj hrun).2.symm
            · simp [Prog.run_bind] at hrun
          rw [hstate]
          exact ⟨hgrown, fun _ _ => rfl⟩

/-- Computing a relocation may create a veneer and writes nothing else. -/
theorem grownFresh_rtldRelocData (host : Host) (pd : RtldPatchData) (sym : Word) :
    Prog.Keeps (GrownFresh host) (rtldRelocData host pd sym) := by
  have hrefl := GrownFresh.refl host
  have htrans := GrownFresh.trans host
  rw [rtldRelocData_eq]
  cases encoding host.arch pd.relType with
  | none => exact Prog.Keeps.fail hrefl _
  | some e =>
      refine Prog.Keeps.bind htrans ?_ fun _ => Prog.Keeps.lift hrefl _
      refine Prog.Keeps.ite (Prog.Keeps.ite (Prog.Keeps.pure hrefl _) ?_)
        (Prog.Keeps.pure hrefl _)
      exact grownFresh_rtldElfAddStub host _

/-- A relocation that succeeds is one of the known ones. -/
theorem rtldRelocData_ok {host : Host} {pd : RtldPatchData} {sym mask data : Word} {c c' : State}
    (hrun : (rtldRelocData host pd sym).run c = (.ok (mask, data), c')) :
    ∃ e, encoding host.arch pd.relType = some e ∧ mask = e.mask := by
  rw [rtldRelocData_eq] at hrun
  cases henc : encoding host.arch pd.relType with
  | none =>
      rw [henc] at hrun
      simp at hrun
  | some e =>
      rw [henc] at hrun
      obtain ⟨target, c₁, -, hdata⟩ := Prog.run_bind_eq_ok.mp hrun
      rw [Prog.run_lift, Encoding.relocData] at hdata
      refine ⟨e, rfl, ?_⟩
      split at hdata
      · simp only [Prod.mk.injEq, Except.ok.injEq] at hdata
        exact hdata.1.1.symm
      · simp at hdata

/-! ## Patching -/

/-- The relocation of the field cannot be made to refer to `sym`. -/
def RelocFails (host : Host) (pd : RtldPatchData) (sym : Word) (c : State) : Prop :=
  ∃ e, ((rtldRelocData host pd sym).run c).1 = .error e

/-- What `rtld_patch` changes, for a window below the break. -/
structure Patched (host : Host) (pd : RtldPatchData) (sym : Word) (c c' : State) : Prop where
  grown : Grown host c c'
  frame : ∀ x, ¬InRange pd.patchAddr (fieldSize pd.relType) x →
    (c.arenaCode.brk.toNat ≤ x.toNat → c'.arenaCode.brk.toNat ≤ x.toNat) → c'.mem x = c.mem x
  failed : RelocFails host pd sym c → FreshOnly c c'
  x86 : host.arch = .x86_64 → c' = { c with mem := c'.mem }

/-- A byte of the buffer behind the field. -/
theorem not_inRange_zero {n d : ℕ} (hle : n ≤ d) (hd : d < 8) :
    ¬InRange 0#64 n (0#64 + BitVec.ofNat 64 d) := by
  have hoff := inRange_offset (b := 0#64) (p := 0) (n := n) (o := d) (by omega) (by omega)
  rw [BitVec.add_zero] at hoff
  rw [hoff]
  omega

/-- `reloc_buf`, which starts with the eight bytes at the field. -/
def patchBuf (host : Host) (pd : RtldPatchData) (m : Mem) : Mem :=
  writeBytes (fun i => host.stackBytes i.toNat) 0#64 (readBytes m pd.patchAddr 8)

theorem patchBuf_byte (host : Host) (pd : RtldPatchData) (m : Mem) {d : ℕ} (hd : d < 8) :
    patchBuf host pd m (0#64 + BitVec.ofNat 64 d) = m (pd.patchAddr + BitVec.ofNat 64 d) := by
  rw [patchBuf, writeBytes_add (by simpa using hd) (by simp), getElem_readBytes]

section Run

variable {host : Host} {patchData sym : Word} {pd : RtldPatchData} {c : State}
  (hne : patchData ≠ 0#64) (hpd : readPatchData c.mem patchData = pd) (hsize : pd.relSize = 8#32)
include hne hpd hsize

theorem rtldPatch_run (blend : Option (Word × Word)) {c₁ : State}
    (hrun : (rtldPatch.tryRelocData host pd sym).run c = (.ok blend, c₁)) :
    (rtldPatch host patchData sym).run c = (.ok (), { c₁ with
      mem := writeBytes c₁.mem pd.patchAddr (readBytes (blend.elim (patchBuf host pd c.mem)
        fun b => rtldBlend (patchBuf host pd c.mem) 0#64 b.1 b.2) 0#64 8) }) := by
  have height : (8#32).toNat = 8 := rfl
  unfold rtldPatch
  rw [Prog.run_bind, run_getMem]
  dsimp only
  rw [if_neg hne, hpd, hsize, if_neg (by decide), height, Prog.run_bind_of_ok hrun]
  cases blend <;> rfl

theorem rtldPatch_of_error {e : ℤ} {c₁ : State}
    (hrun : (rtldRelocData host pd sym).run c = (.error e, c₁)) :
    (rtldPatch host patchData sym).run c = (.ok (), { c₁ with
      mem := writeBytes c₁.mem pd.patchAddr (readBytes (patchBuf host pd c.mem) 0#64 8) }) := by
  refine rtldPatch_run hne hpd hsize none ?_
  unfold rtldPatch.tryRelocData
  dsimp only
  rw [hrun]

theorem rtldPatch_of_ok {mask data : Word} {c₁ : State}
    (hrun : (rtldRelocData host pd sym).run c = (.ok (mask, data), c₁)) :
    (rtldPatch host patchData sym).run c = (.ok (), { c₁ with
      mem := writeBytes c₁.mem pd.patchAddr
        (readBytes (rtldBlend (patchBuf host pd c.mem) 0#64 mask data) 0#64 8) }) := by
  refine rtldPatch_run hne hpd hsize (some (mask, data)) ?_
  unfold rtldPatch.tryRelocData
  dsimp only
  rw [hrun]

theorem rtldPatch_patched (hok : c.arenaCode.Ok host.pageBits)
    (hend : c.arenaCode.endp.toNat ≤ 2 ^ 47)
    (hbelow : pd.patchAddr.toNat + 8 ≤ c.arenaCode.brk.toNat) :
    Patched host pd sym c ((rtldPatch host patchData sym).run c).2 := by
  obtain ⟨hgrown, hfresh⟩ := grownFresh_rtldRelocData host pd sym c hok hend
  cases hrun : (rtldRelocData host pd sym).run c with
  | mk r c₁ =>
      rw [hrun] at hgrown hfresh
      -- the window lies below the break, where nothing has changed so far
      have hbyte : ∀ d < 8, patchBuf host pd c.mem (0#64 + BitVec.ofNat 64 d) =
          c₁.mem (pd.patchAddr + BitVec.ofNat 64 d) := by
        intro d hd
        have haddr : (pd.patchAddr + BitVec.ofNat 64 d).toNat = pd.patchAddr.toNat + d := by
          have := c.arenaCode.brk.isLt
          rw [BitVec.toNat_add, BitVec.toNat_ofNat]
          omega
        rw [hfresh _ (by rw [haddr]; omega)]
        exact patchBuf_byte host pd c.mem hd
      have hstate : ∀ m : Mem, host.arch = .x86_64 →
          { c₁ with mem := m } = { c with mem := m } := by
        intro m harch
        rw [rtldRelocData, harch] at hrun
        rw [(Prod.mk.inj hrun).2]
      cases r with
      | error e =>
          have hmem : writeBytes c₁.mem pd.patchAddr
              (readBytes (patchBuf host pd c.mem) 0#64 8) = c₁.mem := by
            funext x
            exact writeBack_of_not_inRange (by decide) (fun d _ hd => hbyte d hd)
              (Nat.not_lt_zero _)
          rw [rtldPatch_of_error hne hpd hsize hrun, hmem]
          exact
            { grown := hgrown
              frame := fun x _ hx => hfresh x hx
              failed := fun _ => hfresh
              x86 := fun harch => hstate _ harch }
      | ok blend =>
          obtain ⟨mask, data⟩ := blend
          obtain ⟨e, henc, rfl⟩ := rtldRelocData_ok hrun
          rw [rtldPatch_of_ok hne hpd hsize hrun]
          have hframe : ∀ x, ¬InRange pd.patchAddr (fieldSize pd.relType) x →
              writeBytes c₁.mem pd.patchAddr (readBytes (rtldBlend (patchBuf host pd c.mem) 0#64
                e.mask data) 0#64 8) x = c₁.mem x := by
            intro x hx
            refine writeBack_of_not_inRange (by decide) (fun d hle hd => ?_) hx
            rw [e.rtldBlend_of_not_inRange ?_, hbyte d hd]
            rw [encoding_width henc]
            exact not_inRange_zero hle hd
          refine
            { grown := hgrown.trans (Grown.of_mem hgrown.ok _)
              frame := fun x hout hx => (hframe x hout).trans (hfresh x hx)
              failed := ?_
              x86 := fun harch => hstate _ harch }
          rintro ⟨err, herr⟩
          rw [hrun] at herr
          exact absurd herr (by simp)

end Run

theorem rtldPatch_null (host : Host) (sym : Word) (c : State) :
    (rtldPatch host 0#64 sym).run c = (.ok (), c) := by
  simp [rtldPatch, Prog.run_bind]

/-- `rtld_patch` cannot fail. -/
theorem rtldPatch_fst (host : Host) (patchData sym : Word) (c : State) :
    ((rtldPatch host patchData sym).run c).1 = .ok () := by
  unfold rtldPatch
  rw [Prog.run_bind, run_getMem]
  dsimp only
  split
  · rfl
  · split
    · rfl
    · rw [Prog.run_bind]
      unfold rtldPatch.tryRelocData
      dsimp only
      cases (rtldRelocData host (readPatchData c.mem patchData) sym).run c with
      | mk r c' => cases r <;> rfl

/-! ## The stubs of an object -/

/-- The passes of a load that succeeds; only the second one creates stubs. -/
theorem rtldAddObjectT_passes {host : Host} {objBase objSize skew : Word} {c : State}
    {s' : State × List Access}
    (hrun : (rtldAddObjectT host objBase objSize skew).run (c, []) = (.ok (), s')) :
    ∃ re totsz totalign base c₁ c₂ c₅ s₃ s₄,
      rtldElfInit host c.mem objBase objSize skew = .ok re ∧
      (layoutPass re shnumBound 0 0#64 1#64).run c = (.ok (totsz, totalign), c₁) ∧
      (memAllocCode host totsz totalign).run c₁ = (.ok base, c₂) ∧ ¬badAddr base ∧
      (rebasePass re base).run c₂ = (.ok (), s₃.1) ∧ createdStubs s₃.2 = [] ∧
      (relocPassT host re).run s₃ = (.ok (), s₄) ∧
      (copyPass re).run s₄.1 = (.ok (), c₅) ∧
      (registerPass re shnumBound 0).run c₅ = (.ok (), s'.1) ∧
      createdStubs s'.2 = createdStubs s₄.2 := by
  unfold rtldAddObjectT at hrun
  obtain ⟨re, s₀, hinit, hrun⟩ := Prog.run_bind_eq_ok.mp hrun
  obtain ⟨hfst, hstate, hehdr⟩ := rtldElfInitT_run host objBase objSize skew c
  rw [hinit] at hfst hstate hehdr
  have hnone := traced_noStubs re objSize
  have hlog₀ : createdStubs s₀.2 = [] := by
    refine List.filterMap_eq_nil_iff.mpr fun acc hacc => ?_
    rw [(hehdr acc hacc).1]
  obtain ⟨⟨totsz, totalign⟩, s₁, hlayout, hrun⟩ := Prog.run_bind_eq_ok.mp hrun
  have hlog₁ := createdStubs_of_run (hnone.layoutPass _ _ _ _) hlayout
  obtain ⟨base, s₂, halloc, hrun⟩ := Prog.run_bind_eq_ok.mp hrun
  have hlog₂ := createdStubs_of_run (hnone.alloc host totsz totalign) halloc
  by_cases hbad : badAddr base
  · rw [if_pos hbad] at hrun
    simp at hrun
  rw [if_neg hbad] at hrun
  obtain ⟨⟨⟩, s₃, hrebase, hrun⟩ := Prog.run_bind_eq_ok.mp hrun
  have hlog₃ := createdStubs_of_run (hnone.rebasePass base) hrebase
  obtain ⟨⟨⟩, s₄, hreloc, hrun⟩ := Prog.run_bind_eq_ok.mp hrun
  obtain ⟨⟨⟩, s₅, hcopy, hregister⟩ := Prog.run_bind_eq_ok.mp hrun
  have hlog₅ := createdStubs_of_run (hnone.copyPass base totsz) hcopy
  have hlog' := createdStubs_of_run (hnone.registerPass _ _) hregister
  have hlayout' := (Erases.layoutPass re _ _ _ _).run_ok hlayout
  rw [show s₀.1 = c from hstate] at hlayout'
  refine ⟨re, totsz, totalign, base, s₁.1, s₂.1, s₅.1, s₃, s₄, hfst.symm, hlayout',
    (Prog.Erases.silent _).run_ok halloc, hbad, (Erases.rebasePass re base).run_ok hrebase, ?_,
    hreloc, (Erases.copyPass re base totsz).run_ok hcopy,
    (Erases.registerPass re _ _).run_ok hregister, hlog'.trans hlog₅⟩
  rw [hlog₃, hlog₂, hlog₁, hlog₀]

/-- A stub created by a load: its field lies between the old break and `mid`, the
stub behind `mid`. -/
structure NewStub (host : Host) (c c' : State) (mid : ℕ) (s : Word × RtldPatchData) : Prop where
  relSize_eq : s.2.relSize = 8#32
  lo : c.arenaCode.brk.toNat ≤ s.2.patchAddr.toNat
  hi : s.2.patchAddr.toNat + fieldSize s.2.relType ≤ mid
  mid_le : mid ≤ s.1.toNat
  stubAt : StubAt host c' s.1 s.2

/-- The stubs of an object that is loaded. -/
theorem newStub_of_load {host : Host} {re : RtldElf} {objBase objSize skew : Word} {c c' : State}
    (hwf : ObjectWf c.mem re) (hapart : Apart re c) (hok : c.arenaCode.Ok host.pageBits)
    (hinit : rtldElfInit host c.mem objBase objSize skew = .ok re)
    (hrun : (rtldAddObject host objBase objSize skew).run c = (.ok (), c')) :
    ∃ mid, ∀ s ∈ createdStubs (accesses host c objBase objSize skew),
      NewStub host c c' mid s := by
  have herase := Erases.rtldAddObject host objBase objSize skew (c, [])
  rw [hrun] at herase
  obtain ⟨hfst, hstate⟩ := Prod.mk.inj herase
  obtain ⟨re', totsz, totalign, base, c₁, c₂, c₅, s₃, s₄, hinit', hlayout, halloc, hgood,
    hrebase, hlog, hrelocRun, hcopyRun, hregRun, hstubs⟩ :=
    rtldAddObjectT_passes (Prod.ext hfst rfl)
  rw [hinit] at hinit'
  obtain rfl := Except.ok.inj hinit'
  have hplaced := placed_of_passes hwf hapart hok hlayout halloc hgood hrebase
  have hwf₃ := hplaced.sameMeta.wf hwf rfl rfl
  obtain ⟨c₃, log₃⟩ := s₃
  have htrace := relocPassT_ok hwf₃ (hplaced.apart hapart) hplaced.grown.ok hlog hrelocRun
  have hcopy := copied_of_passes hwf hapart hok hplaced htrace.inv hcopyRun
  have hreg : OnlyObjects c₅ c' := by
    rw [hstate] at hregRun
    exact (onlyObjects_tableFrame.registerPass _ _ _).of_run hregRun
  have hstub₅ : ∀ {t : Word × RtldPatchData}, base.toNat + totsz.toNat ≤ t.1.toNat →
      StubAt host s₄.1 t.1 t.2 → StubAt host c' t.1 t.2 := by
    intro t hle hat
    have harena : c₅.arenaCode = s₄.1.arenaCode := by rw [hcopy.state_eq]
    have h₅ : StubAt host c₅ t.1 t.2 := by
      refine hat.frame (by rw [hcopy.state_eq]) (Nat.le_of_eq (by rw [harena])) ?_
      exact fun x hx _ => hcopy.agree x (by omega)
    refine h₅.frame ?_ ?_ fun _ _ _ => ?_
    · rw [hreg]
    · exact Nat.le_of_eq (by rw [hreg])
    · rw [hreg]
  refine ⟨base.toNat + totsz.toNat, fun s hs => ?_⟩
  rw [accesses, hstubs] at hs
  have hof := htrace.stub s hs
  have hlo := hof.brk_le
  rw [← hplaced.brk_eq] at hlo
  obtain ⟨i, k, addr, he, halloc', hpd⟩ := hof.entry
  obtain ⟨-, hge, hle⟩ := entryAddr_toNat hwf hapart hok hplaced he halloc'
  have hbrk := hplaced.brk_le
  rw [entrySize] at hle
  refine
    { relSize_eq := by rw [hpd]; rfl
      lo := by rw [hpd]; exact hbrk.trans hge
      hi := by rw [hpd]; exact hle
      mid_le := hlo
      stubAt := hstub₅ hlo hof.stubAt }

end PollyInstrew.Client
