import PollyInstrew.Client.AddObject

/-!
# Dispatching

`resolve_func` finds or requests the translation of a guest address, patches
the code that led to it and fills the quick TLB.  The dispatchers of the
calling conventions look an address up in the quick TLB first, the C function
by slot number and the assembler code by byte offset.
-/

namespace PollyInstrew.Client

open PollyInstrew.ByteMemory PollyInstrew.StateExcept

/-- `(1 << QUICK_TLB_BITS) - 1`. -/
def quickTlbMask : Word := (1#64 <<< 10) - 1#64

/-- `QUICK_TLB_BITOFF`. -/
def quickTlbBitoff : ℕ := 4

/-- `QUICK_TLB_HASH(addr)`. -/
def quickTlbHash (addr : Word) : Word := (addr >>> quickTlbBitoff) &&& quickTlbMask

theorem quickTlbHash_toNat (addr : Word) :
    (quickTlbHash addr).toNat = addr.toNat / 16 % quickTlbSlots := by
  have hmask : quickTlbMask.toNat = 2 ^ 10 - 1 := by decide
  rw [quickTlbHash, BitVec.toNat_and, hmask, Nat.and_two_pow_sub_one_eq_mod,
    BitVec.toNat_ushiftRight, Nat.shiftRight_eq_div_pow]
  rfl

theorem quickTlbHash_lt (addr : Word) : (quickTlbHash addr).toNat < quickTlbSlots := by
  rw [quickTlbHash_toNat]
  exact Nat.mod_lt _ (by decide)

def quickTlbSlot (addr : Word) : Fin quickTlbSlots :=
  ⟨(quickTlbHash addr).toNat, quickTlbHash_lt addr⟩

/-- The receive side of `translator_get_object`: `bytes` is the payload of the
object message.  The result is the object's address and size. -/
def translatorGetObject (host : Host) (bytes : List Byte) : ClientM (Word × Word) := do
  let sz := BitVec.ofNat 64 bytes.length
  let c ← Prog.get
  if c.recvbufSz ≤ sz then
    let newsz := alignUp sz host.pageSize
    let buf ← memAllocData host newsz host.pageSize
    Prog.modify fun c => { c with recvbuf := buf }
    if badAddr buf then
      Prog.fail (ptrInt buf)
    else
      Prog.modify fun c => { c with recvbufSz := newsz }
  let c ← Prog.get
  setMem fun m => writeBytes m c.recvbuf bytes
  return (c.recvbuf, sz)

/-- What the translator answers to a request: an error or an object. -/
abbrev Reply := Except ℤ (List Byte)

/-- `translator_get` as `resolve_func` sees it. -/
def translatorGet (host : Host) (reply : Reply) : ClientM (Word × Word) := do
  let bytes ← Prog.lift reply
  translatorGetObject host bytes

/-- The lookup of `resolve_func`: the registered entry, after a request to the
translator if there is none. -/
def resolveOrTranslate (host : Host) (addr : Word) (reply : Reply) : ClientM Word := do
  let c ← Prog.get
  match rtldResolve c.objects addr with
  | .ok func => return func
  | .error _ =>
      let (objBase, objSize) ← translatorGet host reply
      rtldAddObject host objBase objSize addr
      let c ← Prog.get
      Prog.lift (rtldResolve c.objects addr)

/-- `cpu_state->quick_tlb[QUICK_TLB_HASH(addr)] = {addr, func}`. -/
def updateQuickTlb (addr func : Word) : ClientM Unit :=
  Prog.modify fun c => { c with
    quickTlb := Function.update c.quickTlb (quickTlbSlot addr) (addr, func) }

/-- The guest address `resolve_func` works on. -/
def resolveAddr (m : Mem) (addr patchData : Word) : Word :=
  if patchData ≠ 0#64 then (readPatchData m patchData).symAddr else addr

@[simp] theorem resolveAddr_null (m : Mem) (addr : Word) :
    resolveAddr m addr 0#64 = addr := by
  simp [resolveAddr]

/-- `resolve_func`; an error stands for the `_exit` at its end.  `trace` is
`tc_print_trace`, `patchData` a pointer that may be null. -/
def resolveFunc (host : Host) (addr patchData : Word) (trace : Bool) (reply : Reply) :
    ClientM Word := do
  let m ← getMem
  let addr := resolveAddr m addr patchData
  let func ← resolveOrTranslate host addr reply
  if trace then
    return func
  else
    rtldPatch host patchData func
    updateQuickTlb addr func
    return func

/-- What the lookup of `resolve_func` does. -/
theorem resolveOrTranslate_cases
    {host : Host} {addr func : Word} {reply : Reply} {c c' : State}
    (hrun : (resolveOrTranslate host addr reply).run c = (.ok func, c')) :
    (rtldResolve c.objects addr = .ok func ∧ c' = c) ∨
      ∃ e bytes obj c₁, rtldResolve c.objects addr = .error e ∧ reply = .ok bytes ∧
        (translatorGetObject host bytes).run c = (.ok obj, c₁) ∧
        (rtldAddObject host obj.1 obj.2 addr).run c₁ = (.ok (), c') ∧
        rtldResolve c'.objects addr = .ok func := by
  unfold resolveOrTranslate at hrun
  rw [Prog.run_bind, Prog.run_get] at hrun
  dsimp only at hrun
  cases hres : rtldResolve c.objects addr with
  | ok entry =>
      rw [hres] at hrun
      obtain ⟨hfunc, rfl⟩ := Prod.mk.inj hrun
      exact Or.inl ⟨hfunc, rfl⟩
  | error e =>
      rw [hres] at hrun
      obtain ⟨obj, c₁, hget, hrun⟩ := Prog.run_bind_eq_ok.mp hrun
      obtain ⟨⟨⟩, c₂, hadd, hrun⟩ := Prog.run_bind_eq_ok.mp hrun
      simp only [Prog.run_bind, Prog.run_get, Prog.run_lift, Prod.mk.injEq] at hrun
      obtain ⟨hfunc, rfl⟩ := hrun
      obtain ⟨bytes, c₃, hlift, hget⟩ := Prog.run_bind_eq_ok.mp hget
      rw [Prog.run_lift] at hlift
      obtain ⟨hreply, rfl⟩ := Prod.mk.inj hlift
      exact Or.inr ⟨e, bytes, obj, c₁, rfl, hreply, hget, hadd, hfunc⟩

/-- `resolve_func` looks up or translates, then patches and fills the quick TLB
unless it traces. -/
theorem resolveFunc_cases
    {host : Host} {addr patchData func : Word} {trace : Bool} {reply : Reply}
    {c c' : State}
    (hrun : (resolveFunc host addr patchData trace reply).run c = (.ok func, c')) :
    ∃ c₁, (resolveOrTranslate host (resolveAddr c.mem addr patchData) reply).run c =
        (.ok func, c₁) ∧
      (trace = true ∧ c' = c₁ ∨
        trace = false ∧ ∃ c₂, (rtldPatch host patchData func).run c₁ = (.ok (), c₂) ∧
          c' = { c₂ with
            quickTlb := Function.update c₂.quickTlb
              (quickTlbSlot (resolveAddr c.mem addr patchData))
              (resolveAddr c.mem addr patchData, func) }) := by
  obtain ⟨m, c₀, hmem, hrun⟩ := Prog.run_bind_eq_ok.mp hrun
  obtain ⟨hm, rfl⟩ := Prod.mk.inj hmem
  obtain rfl := Except.ok.inj hm
  obtain ⟨f, c₁, hres, hrun⟩ := Prog.run_bind_eq_ok.mp hrun
  cases trace with
  | true =>
      obtain ⟨hf, rfl⟩ := Prod.mk.inj hrun
      obtain rfl := Except.ok.inj hf
      exact ⟨c₁, hres, Or.inl ⟨rfl, rfl⟩⟩
  | false =>
      obtain ⟨⟨⟩, c₂, hpatch, hrun⟩ := Prog.run_bind_eq_ok.mp hrun
      obtain ⟨⟨⟩, c₃, htlb, hrun⟩ := Prog.run_bind_eq_ok.mp hrun
      obtain ⟨-, rfl⟩ := Prod.mk.inj htlb
      obtain ⟨hf, rfl⟩ := Prod.mk.inj hrun
      obtain rfl := Except.ok.inj hf
      exact ⟨c₁, hres, Or.inr ⟨rfl, c₂, hpatch, rfl⟩⟩

/-! ## The dispatchers -/

/-- The lookup of `dispatch_cdecl`. -/
def lookupCdecl (tlb : QuickTlb) (addr : Word) : Option Word :=
  let slot := tlb (quickTlbSlot addr)
  if slot.1 ≠ addr then none else some slot.2

/-- `quick_tlb` as the array of 8-byte words the assembler code indexes by byte
offsets; other offsets are not used. -/
def quickTlbWord (tlb : QuickTlb) (offset : Word) : Word :=
  if h : offset.toNat / 16 < quickTlbSlots then
    let slot := tlb ⟨offset.toNat / 16, h⟩
    if offset.toNat % 16 = 0 then slot.1
    else if offset.toNat % 16 = 8 then slot.2
    else 0
  else
    0

/-- `QUICK_TLB_IDXSCALE`. -/
def quickTlbIdxscale : Word := 1#64

/-- Byte offset `QUICK_TLB_IDXSCALE*r14` of `dispatch_hhvm_tail`,
`dispatch_hhvm_call` and `dispatch_hhvm`, with `r14` the masked address. -/
def hhvmTlbOffset (addr : Word) : Word :=
  quickTlbIdxscale * (addr &&& (quickTlbMask <<< quickTlbBitoff))

/-- Byte offset of `dispatch_aapcsx` and `dispatch_aapcsx_loop`: the masked
address shifted by `4 - QUICK_TLB_BITOFF`. -/
def aapcsxTlbOffset (addr : Word) : Word :=
  (addr &&& (quickTlbMask <<< quickTlbBitoff)) <<< (4 - quickTlbBitoff)

/-- An assembler lookup: compare the first word at the offset with the address
and take the second. -/
def lookupAsm (tlbOffset : Word → Word) (tlb : QuickTlb) (addr : Word) : Option Word :=
  let offset := tlbOffset addr
  if quickTlbWord tlb offset ≠ addr then none else some (quickTlbWord tlb (offset + 8))

/-- The ways translated code and the dispatch loops reach a function. -/
inductive Dispatch where
  /-- `dispatch_cdecl`, also as one round of `dispatch_cdecl_loop`. -/
  | cdecl (addr : Word)
  /-- The lookups of `dispatch_hhvm_tail`, `dispatch_hhvm_call` and of the hot
  loop of `dispatch_hhvm`. -/
  | hhvm (addr : Word)
  /-- The lookups of `dispatch_aapcsx` and `dispatch_aapcsx_loop`. -/
  | aapcsx (addr : Word)
  /-- `resolve_func` entered directly: by a patch stub, or with null patch data
  by the entry of `dispatch_hhvm`. -/
  | resolve (addr patchData : Word)
  deriving DecidableEq, Repr

/-- The guest address a dispatch asks for. -/
def Dispatch.lookup (tlb : QuickTlb) : Dispatch → Option Word
  | .cdecl addr => lookupCdecl tlb addr
  | .hhvm addr => lookupAsm hhvmTlbOffset tlb addr
  | .aapcsx addr => lookupAsm aapcsxTlbOffset tlb addr
  | .resolve _ _ => none

/-- Arguments of `resolve_func` on the slow path. -/
def Dispatch.resolveArgs : Dispatch → Word × Word
  | .cdecl addr => (addr, 0#64)
  | .hhvm addr => (addr, 0#64)
  | .aapcsx addr => (addr, 0#64)
  | .resolve addr patchData => (addr, patchData)

/-- A dispatch: the function that is jumped to. -/
def dispatch (host : Host) (d : Dispatch) (trace : Bool) (reply : Reply) :
    ClientM Word := do
  let c ← Prog.get
  match d.lookup c.quickTlb with
  | some func => return func
  | none => resolveFunc host d.resolveArgs.1 d.resolveArgs.2 trace reply

/-! ## Runs -/

/-- What happens to the client while a guest runs. -/
inductive ClientEvent where
  /-- `main` receives and loads the initial object. -/
  | load (reply : Reply)
  | dispatch (d : Dispatch) (trace : Bool) (reply : Reply)

def clientEvent (host : Host) : ClientEvent → ClientM Unit
  | .load reply => do
      let (objBase, objSize) ← translatorGet host reply
      if 0#64 < objSize then rtldAddObject host objBase objSize 0#64
  | .dispatch d trace reply => do
      let _ ← dispatch host d trace reply

/-- One event; `none` when the client exits. -/
def clientStep (host : Host) (c : State) (e : ClientEvent) : Option State :=
  match (clientEvent host e).run c with
  | (.ok _, c') => some c'
  | (.error _, _) => none

def runClient (host : Host) (c : State) (events : List ClientEvent) : Option State :=
  events.foldlM (clientStep host) c

theorem clientStep_eq_some {host : Host} {c c' : State} {e : ClientEvent} :
    clientStep host c e = some c' ↔ (clientEvent host e).run c = (.ok (), c') := by
  unfold clientStep
  cases hrun : (clientEvent host e).run c with
  | mk r d =>
      cases r with
      | ok u => simp
      | error err => simp

section Step

variable {host : Host} {c c' : State} {reply : Reply}

/-- `main` receives an object and loads it unless it is empty. -/
theorem clientStep_load (hstep : clientStep host c (.load reply) = some c') :
    ∃ bytes obj c₁, reply = .ok bytes ∧ (translatorGetObject host bytes).run c = (.ok obj, c₁) ∧
      (¬0#64 < obj.2 ∧ c' = c₁ ∨
        0#64 < obj.2 ∧ (rtldAddObject host obj.1 obj.2 0#64).run c₁ = (.ok (), c')) := by
  obtain ⟨obj, c₁, hreply, hadd⟩ := Prog.run_bind_eq_ok.mp (clientStep_eq_some.mp hstep)
  obtain ⟨bytes, c₂, hlift, hget⟩ := Prog.run_bind_eq_ok.mp hreply
  rw [Prog.run_lift] at hlift
  obtain ⟨rfl, rfl⟩ := Prod.mk.inj hlift
  refine ⟨bytes, obj, c₁, rfl, hget, ?_⟩
  dsimp only at hadd
  by_cases hpos : 0#64 < obj.2
  · rw [if_pos hpos] at hadd
    exact Or.inr ⟨hpos, hadd⟩
  · rw [if_neg hpos] at hadd
    exact Or.inl ⟨hpos, (Prod.mk.inj hadd).2.symm⟩

/-- A dispatch finds the function in the quick TLB or enters `resolve_func`. -/
theorem clientStep_dispatch {d : Dispatch} {trace : Bool}
    (hstep : clientStep host c (.dispatch d trace reply) = some c') :
    (∃ func, d.lookup c.quickTlb = some func ∧ c' = c) ∨
      ∃ func, d.lookup c.quickTlb = none ∧
        (resolveFunc host d.resolveArgs.1 d.resolveArgs.2 trace reply).run c =
          (.ok func, c') := by
  obtain ⟨func, c₁, hd, hrun⟩ := Prog.run_bind_eq_ok.mp (clientStep_eq_some.mp hstep)
  obtain ⟨-, rfl⟩ := Prod.mk.inj hrun
  unfold dispatch at hd
  rw [Prog.run_bind, Prog.run_get] at hd
  dsimp only at hd
  cases hlook : d.lookup c.quickTlb with
  | some f =>
      rw [hlook] at hd
      exact Or.inl ⟨f, rfl, (Prod.mk.inj hd).2.symm⟩
  | none =>
      rw [hlook] at hd
      exact Or.inr ⟨func, rfl, hd⟩

end Step

end PollyInstrew.Client
