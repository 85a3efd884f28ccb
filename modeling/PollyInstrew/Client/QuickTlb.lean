import PollyInstrew.Client.Dispatch
import PollyInstrew.Client.Frame

/-!
# The quick TLB agrees with the table of translated code

The quick TLB is only written by `resolve_func`, with an address and what the
table holds for it; the table never drops or changes an entry.  So a slot whose
tag is a guest address always carries the entry a full resolution would find.
-/

namespace PollyInstrew.Client

open PollyInstrew.ByteMemory PollyInstrew.StateExcept

variable {c c' : State} {host : Host} {addr func : Word}

/-! ## Placing an object keeps the TLB and the table -/

/-- The quick TLB and the table are the same. -/
structure SameLookup (c c' : State) : Prop where
  quickTlb_eq : c'.quickTlb = c.quickTlb
  objects_eq : c'.objects = c.objects

theorem SameLookup.refl (c : State) : SameLookup c c := ⟨rfl, rfl⟩

theorem SameLookup.trans
    (c d e : State) (h : SameLookup c d) (h' : SameLookup d e) : SameLookup c e :=
  ⟨h'.quickTlb_eq.trans h.quickTlb_eq, h'.objects_eq.trans h.objects_eq⟩

theorem sameLookup_frame (host : Host) : Frame host SameLookup where
  refl := SameLookup.refl
  trans := SameLookup.trans
  setMem := fun _ _ => ⟨rfl, rfl⟩
  alloc := fun _ _ _ => ⟨rfl, rfl⟩

/-! ## Everything except `resolve_func` keeps the TLB and extends the table -/

/-- The quick TLB is the same and the table has at least the same entries. -/
structure TableExt (c c' : State) : Prop where
  quickTlb_eq : c'.quickTlb = c.quickTlb
  probed : c.objects.Probed → c'.objects.Probed
  holds : c.objects.Probed → ∀ addr entry,
    c.objects.Holds addr entry → c'.objects.Holds addr entry

theorem TableExt.trans
    (c d e : State) (h : TableExt c d) (h' : TableExt d e) : TableExt c e where
  quickTlb_eq := h'.quickTlb_eq.trans h.quickTlb_eq
  probed := fun hc => h'.probed (h.probed hc)
  holds := fun hc addr entry he => h'.holds (h.probed hc) addr entry (h.holds hc addr entry he)

/-- A change of other parts of the state. -/
theorem TableExt.of_eq (hobj : c'.objects = c.objects) (htlb : c'.quickTlb = c.quickTlb) :
    TableExt c c' where
  quickTlb_eq := htlb
  probed := fun hc => hobj ▸ hc
  holds := fun _ _ _ he => hobj ▸ he

theorem TableExt.refl (c : State) : TableExt c c := .of_eq rfl rfl

theorem rtldSet_extends
    {r : RtldTable} (hr : r.Probed) (addr entry objBase objSize : Word) :
    (rtldSet r addr entry objBase objSize).2.Probed ∧
      ∀ a e, r.Holds a e → (rtldSet r addr entry objBase objSize).2.Holds a e := by
  by_cases hzero : addr = 0#64
  · rw [rtldSet, if_pos hzero]
    exact ⟨hr, fun _ _ => id⟩
  · obtain ⟨res, hloop, hres⟩ := rtldSet_cases hr hzero entry objBase objSize
    rw [rtldSet_eq_of_loop hzero hloop]
    rcases hres with ⟨-, rfl⟩ | ⟨j, hj, -, hprobed, rfl⟩ | ⟨-, -, rfl⟩
    · exact ⟨hr, fun _ _ => id⟩
    · refine ⟨hprobed, ?_⟩
      intro a e he
      exact (holds_update_iff hj hzero a e).mpr (Or.inl he)
    · exact ⟨hr, fun _ _ => id⟩

abbrev KeepsTable {α : Type} (x : ClientM α) : Prop := Prog.Keeps TableExt x

section KeepsTable

variable {α β : Type}

theorem keepsTable_of_sameLookup {x : ClientM α} (hx : Prog.Keeps SameLookup x) :
    KeepsTable x :=
  fun c => .of_eq (hx c).objects_eq (hx c).quickTlb_eq

theorem keepsTable_pure (a : α) : KeepsTable (pure a : ClientM α) :=
  Prog.Keeps.pure TableExt.refl a

theorem keepsTable_fail (e : ℤ) : KeepsTable (Prog.fail e : ClientM α) :=
  Prog.Keeps.fail TableExt.refl e

theorem keepsTable_lift (x : Except ℤ α) : KeepsTable (Prog.lift x : ClientM α) :=
  Prog.Keeps.lift TableExt.refl x

theorem keepsTable_get : KeepsTable (Prog.get : ClientM State) :=
  Prog.Keeps.get TableExt.refl

theorem keepsTable_bind {x : ClientM α} {f : α → ClientM β}
    (hx : KeepsTable x) (hf : ∀ a, KeepsTable (f a)) : KeepsTable (x >>= f) :=
  Prog.Keeps.bind TableExt.trans hx hf

theorem keepsTable_ite {p : Prop} [Decidable p] {x y : ClientM α}
    (hx : KeepsTable x) (hy : KeepsTable y) : KeepsTable (if p then x else y) :=
  Prog.Keeps.ite hx hy

theorem keepsTable_setMem (f : Mem → Mem) : KeepsTable (setMem f) :=
  Prog.Keeps.modify fun _ => TableExt.of_eq rfl rfl

theorem keepsTable_memAllocData (host : Host) (size alignment : Word) :
    KeepsTable (memAllocData host size alignment) :=
  fun _ => TableExt.of_eq rfl rfl

end KeepsTable

/-- Registering an address may add an entry to the table. -/
theorem tableExt_tableFrame : TableFrame TableExt where
  refl := TableExt.refl
  trans := TableExt.trans
  set := fun _ _ _ _ _ =>
    { quickTlb_eq := rfl
      probed := fun hc => (rtldSet_extends hc _ _ _ _).1
      holds := fun hc => (rtldSet_extends hc _ _ _ _).2 }

theorem keepsTable_rtldAddObject (host : Host) (objBase objSize skew : Word) :
    KeepsTable (rtldAddObject host objBase objSize skew) := by
  rw [rtldAddObject_eq]
  exact keepsTable_bind (keepsTable_of_sameLookup ((sameLookup_frame host).placeObject _ _ _))
    fun re => tableExt_tableFrame.registerPass re _ _

theorem keepsTable_translatorGetObject (host : Host) (bytes : List Byte) :
    KeepsTable (translatorGetObject host bytes) := by
  refine keepsTable_bind keepsTable_get fun c => ?_
  have hrest : KeepsTable (do
      let c ← Prog.get
      setMem fun m => writeBytes m c.recvbuf bytes
      return (c.recvbuf, BitVec.ofNat 64 bytes.length) : ClientM (Word × Word)) :=
    keepsTable_bind keepsTable_get fun c =>
      keepsTable_bind (keepsTable_setMem _) fun _ => keepsTable_pure _
  refine keepsTable_ite ?_ ?_
  · refine keepsTable_bind (keepsTable_memAllocData _ _ _) fun buf => ?_
    refine keepsTable_bind (Prog.Keeps.modify fun _ => TableExt.of_eq rfl rfl) fun _ => ?_
    refine keepsTable_ite (keepsTable_bind (keepsTable_fail _) fun _ => hrest) ?_
    exact keepsTable_bind (Prog.Keeps.modify fun _ => TableExt.of_eq rfl rfl) fun _ => hrest
  · exact hrest

theorem keepsTable_translatorGet (host : Host) (reply : Reply) :
    KeepsTable (translatorGet host reply) :=
  keepsTable_bind (keepsTable_lift _) (keepsTable_translatorGetObject host)

/-! ## Coherence -/

/-- Every slot tagged with a guest address holds its registered entry. -/
structure TlbCoherent (c : State) : Prop where
  probed : c.objects.Probed
  holds : ∀ addr func, addr ≠ 0#64 → c.quickTlb (quickTlbSlot addr) = (addr, func) →
    c.objects.Holds addr func

theorem TlbCoherent.of_tableExt (hc : TlbCoherent c) (hext : TableExt c c') : TlbCoherent c' where
  probed := hext.probed hc.probed
  holds := by
    intro addr func hne hslot
    rw [hext.quickTlb_eq] at hslot
    exact hext.holds hc.probed addr func (hc.holds addr func hne hslot)

theorem resolveOrTranslate_ok {reply : Reply}
    (hrun : (resolveOrTranslate host addr reply).run c = (.ok func, c')) :
    TableExt c c' ∧ rtldResolve c'.objects addr = .ok func := by
  rcases resolveOrTranslate_cases hrun with ⟨hres, rfl⟩ | ⟨e, bytes, obj, c₁, -, rfl, hget,
    hadd, hfunc⟩
  · exact ⟨TableExt.refl c', hres⟩
  · have hext₁ := Prog.Keeps.of_run (keepsTable_translatorGetObject host bytes) hget
    have hext₂ := Prog.Keeps.of_run (keepsTable_rtldAddObject host _ _ _) hadd
    exact ⟨hext₁.trans _ _ _ hext₂, hfunc⟩

/-- Filling a slot with a registered entry keeps the other slots coherent. -/
theorem TlbCoherent.updateQuickTlb (hc : TlbCoherent c)
    (hfunc : rtldResolve c.objects addr = .ok func) :
    TlbCoherent { c with
      quickTlb := Function.update c.quickTlb (quickTlbSlot addr) (addr, func) } where
  probed := hc.probed
  holds := by
    intro a f hne hslot
    by_cases hsame : quickTlbSlot a = quickTlbSlot addr
    · dsimp only at hslot
      rw [hsame, Function.update_self, Prod.mk.injEq] at hslot
      obtain ⟨rfl, rfl⟩ := hslot
      exact (rtldResolve_eq_ok_iff hc.probed _ _).mp hfunc
    · dsimp only at hslot
      rw [Function.update_of_ne hsame] at hslot
      exact hc.holds a f hne hslot

theorem TlbCoherent.resolveFunc {patchData : Word} {trace : Bool} {reply : Reply}
    (hc : TlbCoherent c)
    (hrun : (resolveFunc host addr patchData trace reply).run c = (.ok func, c')) :
    TlbCoherent c' := by
  obtain ⟨c₁, hres, hrest⟩ := resolveFunc_cases hrun
  obtain ⟨hext, hfunc⟩ := resolveOrTranslate_ok hres
  have hc₁ := hc.of_tableExt hext
  rcases hrest with ⟨-, rfl⟩ | ⟨-, c₂, hpatch, rfl⟩
  · exact hc₁
  · have hext₂ := Prog.Keeps.of_run (keepsTable_of_sameLookup
      ((sameLookup_frame host).rtldPatch patchData func)) hpatch
    have hc₂ := hc₁.of_tableExt hext₂
    have hholds := hext₂.holds hc₁.probed _ _
      ((rtldResolve_eq_ok_iff hc₁.probed _ _).mp hfunc)
    exact hc₂.updateQuickTlb ((rtldResolve_eq_ok_iff hc₂.probed _ _).mpr hholds)

theorem TlbCoherent.clientStep {e : ClientEvent} (hc : TlbCoherent c)
    (hstep : clientStep host c e = some c') : TlbCoherent c' := by
  cases e with
  | load reply =>
      refine hc.of_tableExt (Prog.Keeps.of_run ?_ (clientStep_eq_some.mp hstep))
      exact keepsTable_bind (keepsTable_translatorGet host reply) fun _ =>
        keepsTable_ite (keepsTable_rtldAddObject host _ _ _) (keepsTable_pure _)
  | dispatch d trace reply =>
      rcases clientStep_dispatch hstep with ⟨-, -, rfl⟩ | ⟨func, -, hrun⟩
      · exact hc
      · exact hc.resolveFunc hrun

/-! ## Slots and byte offsets -/

theorem and_tlbMask_toNat (addr : Word) :
    (addr &&& (quickTlbMask <<< quickTlbBitoff)).toNat = 16 * (quickTlbSlot addr).val := by
  have hmask : (quickTlbMask <<< quickTlbBitoff).toNat = 1023 <<< 4 := by decide
  have hsplit : addr.toNat &&& 1023 <<< 4 = (addr.toNat >>> 4 &&& 1023) <<< 4 := by
    apply Nat.eq_of_testBit_eq
    intro i
    simp only [Nat.testBit_and, Nat.testBit_shiftLeft, Nat.testBit_shiftRight]
    by_cases hi : 4 ≤ i
    · simp [hi, Nat.add_sub_cancel' hi]
    · simp [hi]
  have hslot : (quickTlbSlot addr).val = addr.toNat / 16 % 1024 := quickTlbHash_toNat addr
  rw [BitVec.toNat_and, hmask, hsplit, hslot, Nat.shiftLeft_eq,
    Nat.shiftRight_eq_div_pow, show (1023 : ℕ) = 2 ^ 10 - 1 by decide,
    Nat.and_two_pow_sub_one_eq_mod, Nat.mul_comm]

theorem hhvmTlbOffset_toNat (addr : Word) :
    (hhvmTlbOffset addr).toNat = 16 * (quickTlbSlot addr).val := by
  rw [hhvmTlbOffset, quickTlbIdxscale, BitVec.one_mul, and_tlbMask_toNat]

theorem aapcsxTlbOffset_toNat (addr : Word) :
    (aapcsxTlbOffset addr).toNat = 16 * (quickTlbSlot addr).val := by
  rw [aapcsxTlbOffset, quickTlbBitoff, Nat.sub_self, BitVec.shiftLeft_zero]
  exact and_tlbMask_toNat addr

/-- An assembler lookup with the right byte offset reads the slot the C lookup
reads. -/
theorem lookupAsm_eq_lookupCdecl {tlbOffset : Word → Word} {tlb : QuickTlb}
    (hoff : (tlbOffset addr).toNat = 16 * (quickTlbSlot addr).val) :
    lookupAsm tlbOffset tlb addr = lookupCdecl tlb addr := by
  have hlt := (quickTlbSlot addr).isLt
  have hslots : quickTlbSlots = 1024 := rfl
  have hnext : (tlbOffset addr + 8).toNat = 16 * (quickTlbSlot addr).val + 8 := by
    rw [BitVec.toNat_add, hoff]
    simp only [BitVec.ofNat_eq_ofNat, BitVec.toNat_ofNat]
    omega
  have hdiv : (16 * (quickTlbSlot addr).val + 8) / 16 = (quickTlbSlot addr).val := by
    omega
  have hmod : (16 * (quickTlbSlot addr).val + 8) % 16 = 8 := by omega
  have htag : quickTlbWord tlb (tlbOffset addr) = (tlb (quickTlbSlot addr)).1 := by
    simp [quickTlbWord, hoff, hlt]
  have hfunc : quickTlbWord tlb (tlbOffset addr + 8) = (tlb (quickTlbSlot addr)).2 := by
    simp only [quickTlbWord, hnext, hdiv, hmod, hlt, dite_true]
    rfl
  simp only [lookupAsm, lookupCdecl, htag, hfunc]

/-- A hit of a lookup is the entry of the table, which `resolve_func` returns
as well. -/
theorem TlbCoherent.lookup_hit (hc : TlbCoherent c) (hne : addr ≠ 0#64)
    (hhit : lookupCdecl c.quickTlb addr = some func) :
    rtldResolve c.objects addr = .ok func := by
  unfold lookupCdecl at hhit
  dsimp only at hhit
  split at hhit
  · simp at hhit
  · next htag =>
    rw [not_not] at htag
    obtain rfl := Option.some.inj hhit
    rw [rtldResolve_eq_ok_iff hc.probed]
    exact hc.holds addr _ hne (Prod.ext htag rfl)

theorem resolveFunc_of_resolved {trace : Bool} {reply : Reply}
    (hres : rtldResolve c.objects addr = .ok func) :
    ∃ c', (resolveFunc host addr 0#64 trace reply).run c = (.ok func, c') := by
  have hlook : (resolveOrTranslate host addr reply).run c = (.ok func, c) := by
    simp [resolveOrTranslate, Prog.run_bind, hres]
  have hpatch : (rtldPatch host 0#64 func).run c = (.ok (), c) := by
    simp [rtldPatch, Prog.run_bind]
  cases trace with
  | true => exact ⟨c, by simp [resolveFunc, Prog.run_bind, hlook]⟩
  | false => exact ⟨_, by simp [resolveFunc, Prog.run_bind, hlook, hpatch]; rfl⟩

/-- The state before the first object is loaded: `rtld_init` has cleared the
table and `main` the quick TLB. -/
structure State.Fresh (c : State) : Prop where
  objects_eq : c.objects = rtldInitTable
  quickTlb_eq : c.quickTlb = fun _ => (0#64, 0#64)

theorem State.Fresh.tlbCoherent (hc : c.Fresh) : TlbCoherent c where
  probed := hc.objects_eq ▸ rtldInitTable_probed
  holds := by
    intro addr func hne hslot
    rw [hc.quickTlb_eq] at hslot
    exact absurd (Prod.mk.inj hslot).1.symm hne

/-! ## A small object

The text is a single `jmp` to the guest address `0x2000`; the object defines
the translation of the guest address it is loaded for. -/

def Shdr.bytes (s : Shdr) : List Byte :=
  leBytes 4 0 ++ leBytes 4 s.shType.toNat ++ leBytes 8 s.shFlags.toNat ++
    leBytes 8 s.shAddr.toNat ++ leBytes 8 s.shOffset.toNat ++ leBytes 8 s.shSize.toNat ++
    leBytes 4 s.shLink.toNat ++ leBytes 4 s.shInfo.toNat ++
    leBytes 8 s.shAddralign.toNat ++ leBytes 8 s.shEntsize.toNat

def Sym.bytes (s : Sym) : List Byte :=
  leBytes 4 s.stName.toNat ++ leBytes 1 s.stInfo.toNat ++ leBytes 1 s.stOther.toNat ++
    leBytes 2 s.stShndx.toNat ++ leBytes 8 s.stValue.toNat ++ leBytes 8 0

def Rela.bytes (rela : Rela) : List Byte :=
  leBytes 8 rela.rOffset.toNat ++ leBytes 8 rela.rInfo.toNat ++ leBytes 8 rela.rAddend.toNat

/-- The ELF header of an x86-64 object with `n` sections whose headers follow. -/
def ehdrBytes (n : ℕ) : List Byte :=
  leBytes 4 0x464c457f ++ leBytes 4 2 ++ leBytes 8 0 ++ leBytes 2 1 ++ leBytes 2 62 ++
    leBytes 4 1 ++ leBytes 8 0 ++ leBytes 8 0 ++ leBytes 8 64 ++ leBytes 4 0 ++
    leBytes 2 64 ++ leBytes 2 0 ++ leBytes 2 0 ++ leBytes 2 64 ++ leBytes 2 n ++ leBytes 2 0

def jmpObject : List Byte :=
  ehdrBytes 5 ++
    Shdr.bytes ⟨0, 0, 0, 0, 0, 0, 0, 0, 0⟩ ++
    Shdr.bytes ⟨SHT_PROGBITS, 6, 0, 384, 5, 0, 0, 16, 0⟩ ++
    Shdr.bytes ⟨SHT_RELA, 0, 0, 392, 24, 3, 1, 8, 24⟩ ++
    Shdr.bytes ⟨SHT_SYMTAB, 0, 0, 416, 72, 4, 0, 8, 24⟩ ++
    Shdr.bytes ⟨SHT_STRTAB, 0, 0, 488, 11, 0, 0, 1, 0⟩ ++
    leBytes 8 0xe9 ++
    Rela.bytes ⟨1, 0x200000004, -4⟩ ++
    Sym.bytes ⟨0, 0, 0, 0, 0⟩ ++ Sym.bytes ⟨1, 0x12, 0, 1, 0⟩ ++ Sym.bytes ⟨4, 0x10, 0, 0, 0⟩ ++
    [0] ++ literal "S0" ++ [0] ++ literal "Z20000" ++ [0]

/-! ## Runs -/

/-- In every state of every run, a slot tagged with a guest address carries
what `rtld_resolve` returns for it, so all lookups that hit jump where
`resolve_func` would; and the C and assembler lookups use the same slot. -/
theorem runClient_quickTlb_agrees
    {host : Host} {c₀ c : State} {events : List ClientEvent}
    (hfresh : c₀.Fresh) (hrun : runClient host c₀ events = some c) :
    (∀ addr func, addr ≠ 0#64 → c.quickTlb (quickTlbSlot addr) = (addr, func) →
        rtldResolve c.objects addr = .ok func) ∧
      (∀ addr func, addr ≠ 0#64 → ∀ d ∈ [Dispatch.cdecl addr, .hhvm addr, .aapcsx addr],
        d.lookup c.quickTlb = some func →
        rtldResolve c.objects addr = .ok func ∧
          ∀ trace reply, ∃ c',
            (resolveFunc host addr 0#64 trace reply).run c = (.ok func, c')) ∧
      ∀ addr, (hhvmTlbOffset addr).toNat = 16 * (quickTlbHash addr).toNat ∧
        (aapcsxTlbOffset addr).toNat = 16 * (quickTlbHash addr).toNat := by
  have hc : TlbCoherent c := foldlM_invariant
    (fun _ _ _ hs hstep => TlbCoherent.clientStep hs hstep) events hfresh.tlbCoherent hrun
  refine ⟨?_, ?_, ?_⟩
  · intro addr func hne hslot
    exact (rtldResolve_eq_ok_iff hc.probed _ _).mpr (hc.holds addr func hne hslot)
  · intro addr func hne d hd hhit
    have hhit' : lookupCdecl c.quickTlb addr = some func := by
      simp only [List.mem_cons, List.not_mem_nil, or_false] at hd
      rcases hd with rfl | rfl | rfl
      · exact hhit
      · rw [← lookupAsm_eq_lookupCdecl (hhvmTlbOffset_toNat addr)]
        exact hhit
      · rw [← lookupAsm_eq_lookupCdecl (aapcsxTlbOffset_toNat addr)]
        exact hhit
    have hres := hc.lookup_hit hne hhit'
    exact ⟨hres, fun trace reply => resolveFunc_of_resolved hres⟩
  · intro addr
    exact ⟨hhvmTlbOffset_toNat addr, aapcsxTlbOffset_toNat addr⟩

/-- After a first dispatch of `0x1000` the slot holds the loaded translation. -/
theorem runClient_quickTlb_agrees_jmp :
    ∃ c, runClient (quietHost hhvmInfo) startState
        [.dispatch (.hhvm 0x1000) false (.ok jmpObject)] = some c ∧
      rtldResolve c.objects 0x1000 = .ok 0x400001000000 := by
  have hslot : (runClient (quietHost hhvmInfo) startState
      [.dispatch (.hhvm 0x1000) false (.ok jmpObject)]).map
        (fun c => c.quickTlb (quickTlbSlot 0x1000)) = some (0x1000, 0x400001000000) := by
    decide +kernel
  obtain ⟨c, hrun, hslot⟩ := Option.map_eq_some_iff.mp hslot
  exact ⟨c, hrun, (runClient_quickTlb_agrees ⟨rfl, rfl⟩ hrun).1 0x1000 _ (by decide) hslot⟩

/-! ## One function for every guest address -/

theorem resolveFunc_holds {patchData : Word} {trace : Bool} {reply : Reply}
    (hc : c.objects.Probed)
    (hrun : (resolveFunc host addr patchData trace reply).run c = (.ok func, c')) :
    (∀ a e, c.objects.Holds a e → c'.objects.Holds a e) ∧
      c'.objects.Holds (resolveAddr c.mem addr patchData) func := by
  obtain ⟨c₁, hres, hrest⟩ := resolveFunc_cases hrun
  obtain ⟨hext, hfunc⟩ := resolveOrTranslate_ok hres
  have hc₁ := hext.probed hc
  have hholds := (rtldResolve_eq_ok_iff hc₁ _ _).mp hfunc
  rcases hrest with ⟨-, rfl⟩ | ⟨-, c₂, hpatch, rfl⟩
  · exact ⟨hext.holds hc, hholds⟩
  · have hext₂ := Prog.Keeps.of_run (keepsTable_of_sameLookup
      ((sameLookup_frame host).rtldPatch patchData func)) hpatch
    exact ⟨fun a e h => hext₂.holds hc₁ a e (hext.holds hc a e h), hext₂.holds hc₁ _ _ hholds⟩

/-- No event removes or changes an entry. -/
theorem clientStep_holds {e : ClientEvent} (hc : c.objects.Probed)
    (hstep : clientStep host c e = some c') (h : c.objects.Holds addr func) :
    c'.objects.Holds addr func := by
  cases e with
  | load reply =>
      refine TableExt.holds (Prog.Keeps.of_run ?_ (clientStep_eq_some.mp hstep)) hc _ _ h
      exact keepsTable_bind (keepsTable_translatorGet host reply) fun _ =>
        keepsTable_ite (keepsTable_rtldAddObject host _ _ _) (keepsTable_pure _)
  | dispatch d trace reply =>
      rcases clientStep_dispatch hstep with ⟨-, -, rfl⟩ | ⟨func, -, hrun⟩
      · exact h
      · exact (resolveFunc_holds hc hrun).1 _ _ h

/-- The guest address that a dispatch is for. -/
def Dispatch.guestAddr (m : Mem) (d : Dispatch) : Word :=
  resolveAddr m d.resolveArgs.1 d.resolveArgs.2

theorem TlbCoherent.dispatch_holds {d : Dispatch} {trace : Bool} {reply : Reply}
    (hc : TlbCoherent c) (hne : d.guestAddr c.mem ≠ 0#64)
    (hrun : (dispatch host d trace reply).run c = (.ok func, c')) :
    c'.objects.Holds (d.guestAddr c.mem) func := by
  rw [dispatch, Prog.run_bind, Prog.run_get] at hrun
  dsimp only at hrun
  cases hlook : d.lookup c.quickTlb with
  | none =>
      rw [hlook] at hrun
      exact (resolveFunc_holds hc.probed hrun).2
  | some f =>
      rw [hlook] at hrun
      obtain ⟨hf, rfl⟩ := Prod.mk.inj hrun
      obtain rfl := Except.ok.inj hf
      rw [← rtldResolve_eq_ok_iff hc.probed]
      cases d with
      | cdecl a => exact hc.lookup_hit hne hlook
      | hhvm a =>
          rw [Dispatch.lookup, lookupAsm_eq_lookupCdecl (hhvmTlbOffset_toNat a)] at hlook
          exact hc.lookup_hit hne hlook
      | aapcsx a =>
          rw [Dispatch.lookup, lookupAsm_eq_lookupCdecl (aapcsxTlbOffset_toNat a)] at hlook
          exact hc.lookup_hit hne hlook
      | resolve a p => cases hlook

/-- All dispatches of a run to one guest address jump to the same function, through the quick
TLB, the table or a patch stub, and whatever is loaded in between. -/
theorem runClient_dispatch_same {c₀ c₁ c₁' c₂ c₂' : State} {events later : List ClientEvent}
    {d₁ d₂ : Dispatch} {trace₁ trace₂ : Bool} {reply₁ reply₂ : Reply} {func₁ func₂ : Word}
    (hfresh : c₀.Fresh) (hrun : runClient host c₀ events = some c₁)
    (hd₁ : (dispatch host d₁ trace₁ reply₁).run c₁ = (.ok func₁, c₁'))
    (hlater : runClient host c₁' later = some c₂)
    (hd₂ : (dispatch host d₂ trace₂ reply₂).run c₂ = (.ok func₂, c₂'))
    (hne : d₁.guestAddr c₁.mem ≠ 0#64) (hsame : d₂.guestAddr c₂.mem = d₁.guestAddr c₁.mem) :
    func₂ = func₁ := by
  have hstep : ∀ {c c' d trace reply func}, (dispatch host d trace reply).run c = (.ok func, c') →
      clientStep host c (.dispatch d trace reply) = some c' := by
    intro c c' d trace reply func hd
    rw [clientStep_eq_some, clientEvent, Prog.run_bind_of_ok hd]
    rfl
  have hc₁ : TlbCoherent c₁ := foldlM_invariant
    (fun _ _ _ hs hstep => TlbCoherent.clientStep hs hstep) events hfresh.tlbCoherent hrun
  obtain ⟨hc₂, hholds⟩ := foldlM_invariant
    (fun _ _ _ hs hstep => And.intro (TlbCoherent.clientStep hs.1 hstep)
      (clientStep_holds hs.1.probed hstep hs.2)) later
    (And.intro (hc₁.clientStep (hstep hd₁)) (hc₁.dispatch_holds hne hd₁)) hlater
  have h₁ := clientStep_holds hc₂.probed (hstep hd₂) hholds
  have h₂ := hc₂.dispatch_holds (hsame ▸ hne) hd₂
  have hprobed := (hc₂.clientStep (hstep hd₂)).probed
  rw [hsame, ← rtldResolve_eq_ok_iff hprobed] at h₂
  rw [← rtldResolve_eq_ok_iff hprobed, h₂] at h₁
  exact Except.ok.inj h₁

theorem runClient_dispatch_same_jmp :
    ∃ c func c', (dispatch (quietHost hhvmInfo) (.hhvm 0x1000) false (.ok jmpObject)).run
        startState = (.ok 0x400001000000, c) ∧
      (dispatch (quietHost hhvmInfo) (.cdecl 0x1000) true (.error 5)).run c = (.ok func, c') ∧
        func = 0x400001000000 := by
  have hfirst : ((dispatch (quietHost hhvmInfo) (.hhvm 0x1000) false (.ok jmpObject)).run
      startState).1 = .ok 0x400001000000 := by
    decide +kernel
  have hsecond : ((dispatch (quietHost hhvmInfo) (.cdecl 0x1000) true (.error 5)).run
      ((dispatch (quietHost hhvmInfo) (.hhvm 0x1000) false (.ok jmpObject)).run startState).2).1 =
        .ok 0x400001000000 := by
    decide +kernel
  have hnil : ∀ c, runClient (quietHost hhvmInfo) c [] = some c := fun _ => rfl
  have haddr : ∀ m, (Dispatch.cdecl 0x1000).guestAddr m = 0x1000 := fun _ => rfl
  exact ⟨_, _, _, Prog.run_eq_of_fst hfirst, Prog.run_eq_of_fst hsecond,
    runClient_dispatch_same ⟨rfl, rfl⟩ (hnil _) (Prog.run_eq_of_fst hfirst) (hnil _)
      (Prog.run_eq_of_fst hsecond) (by decide) (haddr _)⟩

end PollyInstrew.Client
