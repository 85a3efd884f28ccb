import PollyInstrew.Client.AccessBounds
import PollyInstrew.Client.RelocPass

/-!
# The stubs of the relocation pass

The pass goes through all relocations.  Along its history every stub that is
created belongs to a relocation of an allocated section, and stays intact
until the pass ends.
-/

namespace PollyInstrew.Client

open PollyInstrew.ByteMemory PollyInstrew.StateExcept

variable {s s' : State × List Access} {i : ℕ}

/-! ## Stubs of a history -/

/-- The stubs that are created, with their patch data. -/
def createdStubs (log : List Access) : List (Word × RtldPatchData) :=
  log.filterMap fun
    | .stub addr pd _ => some (addr, pd)
    | _ => none

@[simp] theorem createdStubs_append (log new : List Access) :
    createdStubs (log ++ new) = createdStubs log ++ createdStubs new :=
  List.filterMap_append

theorem createdStubs_singleton {acc : Access} (h : acc.isStub = false) :
    createdStubs [acc] = [] := by
  cases acc with
  | stub addr pd bytes => exact absurd h (by simp [Access.isStub])
  | _ => rfl

/-- No stub is created. -/
def NoStubs (new : List Access) (_ _ : State) : Prop := createdStubs new = []

theorem traced_noStubs (re : RtldElf) (objSize : Word) : Traced re objSize NoStubs where
  nil _ := rfl
  append := by
    intro new new' c d e h h'
    unfold NoStubs at *
    rw [createdStubs_append, h, h', List.append_nil]
  quiet _ := rfl
  event _ hacc _ := createdStubs_singleton hacc
  write _ hacc _ _ := createdStubs_singleton hacc

/-- A run that creates no stubs. -/
theorem createdStubs_of_run {α : Type} {x : TraceM α} (h : Prog.Logs NoStubs x) {r : Except ℤ α}
    (hrun : x.run s = (r, s')) :
    createdStubs s'.2 = createdStubs s.2 := by
  obtain ⟨new, hnew, hnone⟩ := h s
  rw [hrun] at hnew
  rw [hnew, createdStubs_append, show createdStubs new = [] from hnone, List.append_nil]

/-! ## Resolving symbols -/

/-- Memory changes between the old break and the new one only, where the new stubs
lie.  They are for the patch data `pd`. -/
def FreshStubs (host : Host) (pd : RtldPatchData) (new : List Access) (c c' : State) : Prop :=
  c.arenaCode.Ok host.pageBits → c.arenaCode.endp.toNat ≤ 2 ^ 47 →
    Grown host c c' ∧ FreshOnly c c' ∧
      ∀ s ∈ createdStubs new, (∃ addr, s.2 = { pd with symAddr := addr }) ∧
        c.arenaCode.brk.toNat ≤ s.1.toNat ∧ StubAt host c' s.1 s.2

theorem FreshOnly.trans {c d e : State} (h : FreshOnly c d) (h' : FreshOnly d e)
    (hle : c.arenaCode.brk.toNat ≤ d.arenaCode.brk.toNat)
    (hle' : d.arenaCode.brk.toNat ≤ e.arenaCode.brk.toNat) : FreshOnly c e := by
  intro x hx
  rw [h' x (by omega), h x (by omega)]

section FreshStubs

variable (host : Host) (pd : RtldPatchData)

theorem log_freshStubs : Prog.Log (FreshStubs host pd) where
  nil _ hok _ := ⟨Grown.refl hok, fun _ _ => rfl, nofun⟩
  append := by
    intro new new' c d e h h' hok hend
    obtain ⟨hgrown, hfresh, hstubs⟩ := h hok hend
    obtain ⟨hgrown', hfresh', hstubs'⟩ := h' hgrown.ok (hgrown.endp_eq ▸ hend)
    refine ⟨hgrown.trans hgrown', hfresh.trans hfresh' hgrown.brk_le hgrown'.brk_le, ?_⟩
    intro s hs
    rw [createdStubs_append] at hs
    rcases List.mem_append.mp hs with hs | hs
    · obtain ⟨haddr, hle, hat⟩ := hstubs s hs
      refine ⟨haddr, hle, hat.frame hgrown'.plt_eq hgrown'.brk_le fun x _ hx => ?_⟩
      exact hfresh' x (by omega)
    · obtain ⟨haddr, hle, hat⟩ := hstubs' s hs
      exact ⟨haddr, hgrown.brk_le.trans hle, hat⟩

theorem freshStubs_of_noStubs {new : List Access} (h : createdStubs new = []) (c : State) :
    FreshStubs host pd new c c :=
  fun hok _ => ⟨Grown.refl hok, fun _ _ => rfl, fun _ hs => absurd (h ▸ hs) List.not_mem_nil⟩

variable {host pd} in
/-- A program that keeps the state and creates no stubs. -/
theorem freshStubs_of_erases {x : TraceM Unit} (herase : Prog.Erases x (pure ()))
    (h : Prog.Logs NoStubs x) : Prog.Logs (FreshStubs host pd) x := by
  intro s
  obtain ⟨new, hnew, hnone⟩ := h s
  have hstate : (x.run s).2.1 = s.1 := (Prod.mk.inj (herase s)).2
  refine ⟨new, hnew, ?_⟩
  rw [hstate]
  exact freshStubs_of_noStubs host pd hnone s.1

/-- The outcomes of creating a stub: nothing but an allocation, or a stub. -/
theorem run_rtldPatchCreateStubT (c : State) (log : List Access) :
    (∃ r, (rtldPatchCreateStubT host pd).run (c, log) =
        (r, ((memAllocCode host (BitVec.ofNat 64 stubSize) 0x40#64).run c).2, log)) ∨
      ∃ stub bytes c', (rtldPatchCreateStubT host pd).run (c, log) =
        (.ok stub, c', log ++ [.stub stub pd bytes]) := by
  unfold rtldPatchCreateStubT
  rw [Prog.run_bind, Prog.run_silent]
  generalize (memAllocCode host (BitVec.ofNat 64 stubSize) 0x40#64).run c = alloc
  obtain ⟨r, c₁⟩ := alloc
  cases r with
  | error e => exact Or.inl ⟨_, rfl⟩
  | ok stub =>
      dsimp only
      split
      · exact Or.inl ⟨_, rfl⟩
      · rw [Prog.run_bind, Prog.run_silent, Prog.run_get]
        dsimp only
        cases stubCode host (c₁.plt + BitVec.ofNat 64 pltFuncSize - stub) with
        | error e => exact Or.inl ⟨_, rfl⟩
        | ok code => exact Or.inr ⟨_, _, _, rfl⟩

theorem freshStubs_rtldPatchCreateStub (addr : Word) :
    Prog.Logs (FreshStubs host pd) (rtldPatchCreateStubT host { pd with symAddr := addr }) := by
  rintro ⟨c, log⟩
  rcases run_rtldPatchCreateStubT host { pd with symAddr := addr } c log with
    ⟨r, hrun⟩ | ⟨stub, bytes, c', hrun⟩
  · rw [hrun]
    refine ⟨[], (List.append_nil log).symm, fun hok hend => ⟨?_, fun _ _ => rfl, nofun⟩⟩
    exact memAllocCode_grown hok (hend.trans (by decide)) (by decide) (by decide)
  · have hplain := (Erases.rtldPatchCreateStub host { pd with symAddr := addr }).run_ok hrun
    rw [hrun]
    refine ⟨[.stub stub { pd with symAddr := addr } bytes], rfl, fun hok hend => ?_⟩
    obtain ⟨hgrown, hfresh, hle, hat⟩ := rtldPatchCreateStub_fresh hok hend hplain
    refine ⟨hgrown, hfresh, fun s hs => ?_⟩
    obtain rfl := List.mem_singleton.mp hs
    exact ⟨⟨addr, rfl⟩, hle, hat⟩

theorem freshStubs_resolveGuestAddr (addr : Word) :
    Prog.Logs (FreshStubs host pd) (resolveGuestAddrT host pd addr) := by
  have hlog := log_freshStubs host pd
  refine hlog.bind (Prog.Log.silent hlog.nil) fun c => ?_
  split
  · exact hlog.pure _
  · exact freshStubs_rtldPatchCreateStub host pd addr

theorem freshStubs_resolveUndefined (re : RtldElf) (name : CStr) :
    Prog.Logs (FreshStubs host pd) (resolveUndefinedT host re name pd) := by
  have hlog := log_freshStubs host pd
  refine Prog.Keeps.ite (hlog.fail _) (Prog.Keeps.ite (hlog.pure _) ?_)
  split
  · exact freshStubs_resolveGuestAddr host pd _
  · refine hlog.bind (Prog.Log.silent hlog.nil) fun c => ?_
    split
    · exact hlog.pure _
    · exact hlog.fail _

/-- Resolving a symbol creates stubs for its patch data only, and nothing else. -/
theorem freshStubs_rtldElfResolveSym (re : RtldElf) (symtabIdx symIdx : ℕ) :
    Prog.Logs (FreshStubs host pd) (rtldElfResolveSymT host re symtabIdx symIdx pd) := by
  have hlog := log_freshStubs host pd
  have hnone := traced_noStubs re 0#64
  have hshdr : ∀ i, Prog.Logs (FreshStubs host pd) (Prog.emit (.shdr i) : TraceM Unit) :=
    fun i => Prog.Log.emit (freshStubs_of_noStubs host pd rfl)
  refine hlog.bind (Prog.Log.silent hlog.nil) fun m => ?_
  refine hlog.bind (freshStubs_of_erases (Erases.traceShdr re m _) (hnone.traceShdr m _))
    fun _ => ?_
  refine Prog.Keeps.ite ?_ (hlog.fail _)
  refine hlog.bind (Prog.Log.emit (freshStubs_of_noStubs host pd rfl)) fun _ => ?_
  refine Prog.Keeps.ite ?_ (Prog.Keeps.ite (hlog.pure _) ?_)
  · refine hlog.bind (freshStubs_of_erases (Erases.traceStr re m _ _ _)
      (hnone.traceStr m _ _ (undefExtent_pos _ _))) fun _ => ?_
    exact freshStubs_resolveUndefined host pd re _
  · exact Prog.Keeps.ite (hlog.bind (hshdr _) fun _ => hlog.pure _) (hlog.fail _)

end FreshStubs

/-! ## One relocation -/

/-- The stub belongs to a relocation of an allocated section and lies above the
break before the pass. -/
structure StubOf (host : Host) (re : RtldElf) (c₀ c : State) (s : Word × RtldPatchData) :
    Prop where
  entry : ∃ i k addr, IsEntry c₀.mem re i k ∧
    (shdr c₀.mem re (relaTgt c₀.mem re i)).isAlloc ∧
    s.2 = { entryPatch c₀.mem re i k with symAddr := addr }
  brk_le : c₀.arenaCode.brk.toNat ≤ s.1.toNat
  stubAt : StubAt host c s.1 s.2

/-- The state after the relocations `done`, and the stubs created so far. -/
structure RelocTrace (host : Host) (re : RtldElf) (c₀ : State) (done : ℕ → ℕ → Prop)
    (s : State × List Access) : Prop where
  inv : RelocInv host re c₀ done s.1
  stub : ∀ t ∈ createdStubs s.2, StubOf host re c₀ s.1 t

theorem RelocTrace.congr {host : Host} {re : RtldElf} {c₀ : State} {done done' : ℕ → ℕ → Prop}
    (h : ∀ i k, done' i k ↔ done i k) (hs : RelocTrace host re c₀ done s) :
    RelocTrace host re c₀ done' s :=
  ⟨hs.inv.congr h, hs.stub⟩

theorem orEinvalT_ok {α : Type} {x : TraceM α} {a : α} (hrun : (orEinvalT x).run s = (.ok a, s')) :
    x.run s = (.ok a, s') := by
  unfold orEinvalT at hrun
  dsimp only at hrun
  split at hrun
  · next heq =>
    rw [heq]
    exact hrun
  · simp at hrun

section Step

variable {host : Host} {re : RtldElf} {c₀ : State} {done : ℕ → ℕ → Prop}
  (hwf : ObjectWf c₀.mem re) (hapart : Apart re c₀) (hok : c₀.arenaCode.Ok host.pageBits)
include hwf hapart hok

/-- The symbol and the field of one relocation, with the history. -/
theorem processRelaEntryT_ok {k : ℕ} (hdone : ∀ i k, done i k → IsEntry c₀.mem re i k)
    (hinv : RelocInv host re c₀ done s.1) (he : IsEntry c₀.mem re i k)
    (hrun : (processRelaEntryT host re (shdr c₀.mem re i).shOffset (relaTgt c₀.mem re i)
      (shdr c₀.mem re i).shLink.toNat (shdr c₀.mem re (relaTgt c₀.mem re i)).shOffset k).run s =
        (.ok (), s')) :
    ∃ sym log s₁, createdStubs log = createdStubs s.2 ∧
      (rtldElfResolveSymT host re (shdr c₀.mem re i).shLink.toNat
        ((relaAt c₀.mem re i k).rInfo >>> 32).toNat (entryPatch c₀.mem re i k)).run (s.1, log) =
        (.ok sym, s₁) ∧
      (relaAt c₀.mem re i k).rOffset.toNat <
        (shdr c₀.mem re (relaTgt c₀.mem re i)).shSize.toNat ∧
      (rtldRelocAtT host re (entryPatch c₀.mem re i k)
        (shdr c₀.mem re (relaTgt c₀.mem re i)).shOffset
        (shdr c₀.mem re (relaTgt c₀.mem re i)).shSize (relaAt c₀.mem re i k).rOffset sym).run s₁ =
        (.ok (), s') := by
  obtain ⟨hrela, hshdr⟩ := hinv.entry_eq hwf hapart hok hdone he
  have hpatch : relaPatchData (relaAt c₀.mem re i k) (shdr c₀.mem re (relaTgt c₀.mem re i)) =
      entryPatch c₀.mem re i k := rfl
  unfold processRelaEntryT at hrun
  rw [Prog.run_bind, Prog.run_silent, run_getMem] at hrun
  dsimp only at hrun
  rw [Prog.run_bind, Prog.run_emit] at hrun
  dsimp only at hrun
  rw [Prog.run_bind, Prog.run_emit] at hrun
  dsimp only at hrun
  rw [hrela, hshdr, hpatch] at hrun
  split at hrun
  · simp at hrun
  next hoff =>
  obtain ⟨sym, s₁, hsym, hreloc⟩ := Prog.run_bind_eq_ok.mp hrun
  refine ⟨sym, _, s₁, ?_, orEinvalT_ok hsym, BitVec.lt_def.mp (BitVec.not_le.mp hoff), hreloc⟩
  rw [createdStubs_append, createdStubs_append, createdStubs_singleton rfl,
    createdStubs_singleton rfl, List.append_nil, List.append_nil]

/-- Relocating a field leaves the used part of the code arena alone. -/
theorem arena_of_rtldRelocAt {k : ℕ} (he : IsEntry c₀.mem re i k) {c c' : State} {sym : Word}
    (hgrown : Grown host c₀ c)
    (hrun : (rtldRelocAt host (entryPatch c₀.mem re i k) (fieldLoc c₀.mem re i k) sym).run c =
      (.ok (), c')) :
    Grown host c c' ∧ ∀ x : Word, c₀.arenaCode.start.toNat ≤ x.toNat →
      x.toNat < c.arenaCode.brk.toNat → c'.mem x = c.mem x := by
  have hbrk := hgrown.ok.brk_le
  have hbrkp := hgrown.ok.brkp_le
  have hstart := hok.start_le
  have hbrk₀ := hgrown.brk_le
  rw [hgrown.endp_eq] at hbrkp
  have hout : ∀ x, InRange (fieldLoc c₀.mem re i k) (entrySize c₀.mem re i k) x →
      c.arenaCode.brk.toNat ≤ x.toNat → c.arenaCode.endp.toNat ≤ x.toNat := by
    intro x hx hle
    rw [hgrown.endp_eq]
    by_contra hlt
    exact arena_not_field hwf hapart he (by omega) (by omega) hx
  obtain ⟨hgrown', hframe, -⟩ :=
    rtldRelocAt_ok hgrown.ok (hgrown.endp_eq ▸ hapart.endp_le) hout hrun
  refine ⟨hgrown', fun x hlo hhi => ?_⟩
  exact hframe x (arena_not_field hwf hapart he hlo (by omega)) (by omega)

/-- Processing one relocation. -/
theorem RelocTrace.step (hdone : ∀ i k, done i k → IsEntry c₀.mem re i k)
    (hs : RelocTrace host re c₀ done s) {k : ℕ} (he : IsEntry c₀.mem re i k)
    (halloc : (shdr c₀.mem re (relaTgt c₀.mem re i)).isAlloc) (hnew : ¬done i k)
    (hrun : (processRelaEntryT host re (shdr c₀.mem re i).shOffset (relaTgt c₀.mem re i)
      (shdr c₀.mem re i).shLink.toNat (shdr c₀.mem re (relaTgt c₀.mem re i)).shOffset k).run s =
        (.ok (), s')) :
    RelocTrace host re c₀ (fun j l => done j l ∨ (j = i ∧ l = k)) s' := by
  have hplain := (Erases.processRelaEntry host re _ _ _ _ k).run_ok hrun
  refine ⟨hs.inv.step hwf hapart hok hdone he hnew hplain, ?_⟩
  obtain ⟨sym, log, s₁, hlog, hsym, hoff, hreloc⟩ :=
    processRelaEntryT_ok hwf hapart hok hdone hs.inv he hrun
  have hend : s.1.arenaCode.endp.toNat ≤ 2 ^ 47 := by
    rw [hs.inv.grown.endp_eq]
    exact hapart.endp_le
  -- the symbol may have created a stub, relocating the field creates none
  obtain ⟨new, hsplit, hfresh⟩ := freshStubs_rtldElfResolveSym host (entryPatch c₀.mem re i k) re
    (shdr c₀.mem re i).shLink.toNat ((relaAt c₀.mem re i k).rInfo >>> 32).toNat (s.1, log)
  rw [hsym] at hsplit hfresh
  dsimp only at hfresh
  obtain ⟨hgrown, hfreshOnly, hstubs⟩ := hfresh hs.inv.grown.ok hend
  have hlogs := createdStubs_of_run ((traced_noStubs re 0#64).rtldRelocAt host _ _ _ hoff) hreloc
  have hplainReloc := (Erases.rtldRelocAt host re _ _ _ _ _).run_ok hreloc
  rw [fieldLoc_eq] at hplainReloc
  obtain ⟨hgrown', harena⟩ := arena_of_rtldRelocAt hwf hapart hok he
    (hs.inv.grown.trans hgrown) hplainReloc
  have hstart := hok.start_le
  have hbrk := hs.inv.grown.brk_le
  intro t ht
  rw [hlogs, show s₁.2 = log ++ new from hsplit, createdStubs_append, hlog] at ht
  have hkeep : ∀ {t : Word × RtldPatchData}, c₀.arenaCode.brk.toNat ≤ t.1.toNat →
      StubAt host s₁.1 t.1 t.2 → StubAt host s'.1 t.1 t.2 := fun hlo hat =>
    hat.frame hgrown'.plt_eq hgrown'.brk_le fun x h₁ h₂ => harena x (by omega) h₂
  rcases List.mem_append.mp ht with ht | ht
  · have hold := hs.stub t ht
    refine ⟨hold.entry, hold.brk_le, hkeep hold.brk_le ?_⟩
    exact hold.stubAt.frame hgrown.plt_eq hgrown.brk_le fun x _ hx => hfreshOnly x (by omega)
  · obtain ⟨⟨addr, haddr⟩, hle, hat⟩ := hstubs t ht
    have hlo : c₀.arenaCode.brk.toNat ≤ t.1.toNat := hbrk.trans hle
    exact ⟨⟨i, k, addr, he, halloc, haddr⟩, hlo, hkeep hlo hat⟩

/-! ## All relocations -/

/-- The relocations before relocation `k` of section `i`. -/
def DoneBefore (m : Mem) (re : RtldElf) (i k j l : ℕ) : Prop :=
  IsEntry m re j l ∧ (j < i ∨ (j = i ∧ l < k))

omit hwf hapart hok in
/-- A relocation section that passes its checks is processed entry by entry. -/
theorem rtldElfProcessRelaT_ok (hrun : (rtldElfProcessRelaT host re i).run s = (.ok (), s')) :
    (shdr s.1.mem re (relaTgt s.1.mem re i)).isAlloc ∧
      ∃ log, createdStubs log = createdStubs s.2 ∧
        (Prog.forRange (shdr s.1.mem re i).relaCount
          (processRelaEntryT host re (shdr s.1.mem re i).shOffset (relaTgt s.1.mem re i)
            (shdr s.1.mem re i).shLink.toNat
            (shdr s.1.mem re (relaTgt s.1.mem re i)).shOffset)).run (s.1, log) = (.ok (), s') := by
  unfold rtldElfProcessRelaT at hrun
  rw [Prog.run_bind, Prog.run_silent, run_getMem] at hrun
  dsimp only at hrun
  obtain ⟨⟨⟩, s₁, hshdr, hrun⟩ := Prog.run_bind_eq_ok.mp hrun
  have hstate := (Erases.traceShdr re s.1.mem i).run_ok hshdr
  obtain ⟨-, hstate⟩ := Prod.mk.inj hstate
  have hlog := createdStubs_of_run ((traced_noStubs re 0#64).traceShdr s.1.mem i) hshdr
  iterate 4
    split at hrun
    · exact absurd hrun (by simp)
  rw [Prog.run_bind, Prog.run_emit] at hrun
  dsimp only at hrun
  split at hrun
  · exact absurd hrun (by simp)
  next halloc =>
  refine ⟨decide_eq_true halloc, s₁.2 ++ [.shdr (relaTgt s.1.mem re i)], ?_, ?_⟩
  · rw [createdStubs_append, createdStubs_singleton rfl, List.append_nil]
    exact hlog
  · rw [show s.1 = s₁.1 from hstate]
    rw [show s.1 = s₁.1 from hstate] at hrun
    exact hrun

/-- Processing a relocation section. -/
theorem RelocTrace.processRela (hi : i < shnum c₀.mem re)
    (htype : (shdr c₀.mem re i).shType = SHT_RELA)
    (hs : RelocTrace host re c₀ (DoneBefore c₀.mem re i 0) s)
    (hrun : (rtldElfProcessRelaT host re i).run s = (.ok (), s')) :
    RelocTrace host re c₀ (DoneBefore c₀.mem re i (shdr c₀.mem re i).relaCount) s' := by
  obtain ⟨htgt, -, -⟩ := hwf.rela_target i hi htype
  have hshdr := hs.inv.shdr_eq hwf hapart hok (fun _ _ hd => hd.1) hi
  have hshdr' : shdr s.1.mem re (relaTgt c₀.mem re i) = shdr c₀.mem re (relaTgt c₀.mem re i) :=
    hs.inv.shdr_eq hwf hapart hok (fun _ _ hd => hd.1) htgt
  have htgt_eq : relaTgt s.1.mem re i = relaTgt c₀.mem re i := by
    rw [relaTgt, relaTgt, hshdr]
  obtain ⟨halloc, log, hlog, hloop⟩ := rtldElfProcessRelaT_ok hrun
  rw [htgt_eq, hshdr'] at halloc
  rw [hshdr, htgt_eq, hshdr'] at hloop
  have hinit : RelocTrace host re c₀ (DoneBefore c₀.mem re i 0) (s.1, log) :=
    ⟨hs.inv, fun t ht => hs.stub t (hlog ▸ ht)⟩
  refine Prog.forRange_ok (I := fun k t => RelocTrace host re c₀ (DoneBefore c₀.mem re i k) t)
    ?_ hinit hloop
  intro k t t' hk ht hbody
  have he : IsEntry c₀.mem re i k := ⟨hi, htype, hk⟩
  have hnew : ¬DoneBefore c₀.mem re i k i k := by
    rintro ⟨-, h | ⟨-, h⟩⟩ <;> omega
  refine (ht.step hwf hapart hok (fun _ _ hd => hd.1) he halloc hnew hbody).congr ?_
  intro j l
  constructor
  · rintro ⟨hjl, h | ⟨rfl, h⟩⟩
    · exact Or.inl ⟨hjl, Or.inl h⟩
    · rcases Nat.lt_succ_iff_lt_or_eq.mp h with h | rfl
      · exact Or.inl ⟨hjl, Or.inr ⟨rfl, h⟩⟩
      · exact Or.inr ⟨rfl, rfl⟩
  · rintro (⟨hjl, h | ⟨rfl, h⟩⟩ | ⟨rfl, rfl⟩)
    · exact ⟨hjl, Or.inl h⟩
    · exact ⟨hjl, Or.inr ⟨rfl, by omega⟩⟩
    · exact ⟨he, Or.inr ⟨rfl, by omega⟩⟩

/-- One section of the pass. -/
theorem RelocTrace.section (hi : i < shnum c₀.mem re)
    (hs : RelocTrace host re c₀ (DoneBefore c₀.mem re i 0) s)
    (hbody : (do
      let m ← Prog.silent getMem
      Prog.emit (.shdr i)
      if (shdr m re i).shType = SHT_RELA then rtldElfProcessRelaT host re i : TraceM Unit).run s =
        (.ok (), s')) :
    RelocTrace host re c₀ (DoneBefore c₀.mem re (i + 1) 0) s' := by
  rw [Prog.run_bind, Prog.run_silent, run_getMem] at hbody
  dsimp only at hbody
  rw [Prog.run_bind, Prog.run_emit] at hbody
  dsimp only at hbody
  rw [hs.inv.shdr_eq hwf hapart hok (fun _ _ hd => hd.1) hi] at hbody
  have hs' : RelocTrace host re c₀ (DoneBefore c₀.mem re i 0) (s.1, s.2 ++ [.shdr i]) := by
    refine ⟨hs.inv, fun t ht => hs.stub t ?_⟩
    rwa [createdStubs_append, createdStubs_singleton rfl, List.append_nil] at ht
  by_cases htype : (shdr c₀.mem re i).shType = SHT_RELA
  · rw [if_pos htype] at hbody
    refine (hs'.processRela hwf hapart hok hi htype hbody).congr ?_
    intro j l
    constructor
    · rintro ⟨hjl, h | ⟨-, h⟩⟩
      · rcases Nat.lt_succ_iff_lt_or_eq.mp h with h | rfl
        · exact ⟨hjl, Or.inl h⟩
        · exact ⟨hjl, Or.inr ⟨rfl, hjl.count⟩⟩
      · omega
    · rintro ⟨hjl, h | ⟨rfl, -⟩⟩
      · exact ⟨hjl, Or.inl (by omega)⟩
      · exact ⟨hjl, Or.inl (by omega)⟩
  · rw [if_neg htype] at hbody
    obtain ⟨-, rfl⟩ := Prod.mk.inj hbody
    refine hs'.congr ?_
    intro j l
    constructor
    · rintro ⟨hjl, h | ⟨-, h⟩⟩
      · rcases Nat.lt_succ_iff_lt_or_eq.mp h with h | rfl
        · exact ⟨hjl, Or.inl h⟩
        · exact absurd hjl.type_eq htype
      · omega
    · rintro ⟨hjl, h | ⟨-, h⟩⟩
      · exact ⟨hjl, Or.inl (by omega)⟩
      · omega

/-- The second pass of `rtld_add_object` with its history. -/
theorem relocPassT_ok {log : List Access} (hlog : createdStubs log = [])
    (hrun : (relocPassT host re).run (c₀, log) = (.ok (), s')) :
    RelocTrace host re c₀ (IsEntry c₀.mem re) s' := by
  have hinit : RelocTrace host re c₀ (DoneBefore c₀.mem re 0 0) (c₀, log) := by
    refine ⟨⟨Grown.refl hok, fun _ _ _ => rfl, ?_⟩, fun t ht => ?_⟩
    · rintro i k ⟨-, h | ⟨-, h⟩⟩ <;> omega
    · exact absurd (hlog ▸ ht) List.not_mem_nil
  have hbound : shnum c₀.mem re < 0 + shnumBound := by
    have := shnum_lt c₀.mem re
    unfold shnumBound
    omega
  unfold relocPassT forSectionsT at hrun
  have hend := Prog.whileFrom_ok (n := shnum c₀.mem re)
    (I := fun i t => RelocTrace host re c₀ (DoneBefore c₀.mem re i 0) t) (fun i t ht => ?_)
    (fun i t t' hi ht hbody => ht.section hwf hapart hok hi hbody)
    shnumBound 0 (Nat.zero_le _) hbound hinit hrun
  · exact hend.congr fun i k => ⟨fun he => ⟨he, Or.inl he.lt⟩, fun hd => hd.1⟩
  · have hnum := (ht.inv.sameMeta hwf hapart hok (fun _ _ hd => hd.1)).shnum_eq
    rw [hnum]

/-- The second pass of `rtld_add_object`. -/
theorem relocPass_ok {c' : State} (hrun : (relocPass host re).run c₀ = (.ok (), c')) :
    RelocInv host re c₀ (IsEntry c₀.mem re) c' := by
  have herase := Erases.relocPass host re (c₀, [])
  rw [hrun] at herase
  obtain ⟨hok', hstate⟩ := Prod.mk.inj herase
  have htrace := relocPassT_ok hwf hapart hok rfl (Prod.ext hok' rfl)
  rw [← hstate]
  exact htrace.inv

end Step

end PollyInstrew.Client
