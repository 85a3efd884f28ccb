import PollyInstrew.Client.AddObject
import PollyInstrew.Client.Encoding

/-!
# What adding an object can change

All passes of `rtld_add_object` except the last one change the state only by
writing memory and by allocating from the code arena.  So does `rtld_patch`.
Whatever relation of states these two keep, the passes keep.  The last pass only
enters functions in the table of translated code.
-/

namespace PollyInstrew.Client

open PollyInstrew.ByteMemory PollyInstrew.StateExcept

/-- Writing memory and allocating code keep the relation `R`. -/
structure Frame (host : Host) (R : State → State → Prop) : Prop where
  refl : ∀ c, R c c
  trans : ∀ c d e, R c d → R d e → R c e
  setMem : ∀ f, Prog.Keeps R (setMem f)
  alloc : ∀ size alignment, Prog.Keeps R (memAllocCode host size alignment)

namespace Frame

variable {host : Host} {R : State → State → Prop} (h : Frame host R)
include h

theorem pure {α : Type} (a : α) : Prog.Keeps R (Pure.pure a : ClientM α) :=
  Prog.Keeps.pure h.refl a

theorem fail {α : Type} (e : ℤ) : Prog.Keeps R (Prog.fail e : ClientM α) :=
  Prog.Keeps.fail h.refl e

theorem lift {α : Type} (x : Except ℤ α) : Prog.Keeps R (Prog.lift x : ClientM α) :=
  Prog.Keeps.lift h.refl x

theorem get : Prog.Keeps R (Prog.get : ClientM State) :=
  Prog.Keeps.get h.refl

theorem bind {α β : Type} {x : ClientM α} {f : α → ClientM β} (hx : Prog.Keeps R x)
    (hf : ∀ a, Prog.Keeps R (f a)) : Prog.Keeps R (x >>= f) :=
  Prog.Keeps.bind h.trans hx hf

theorem getMem : Prog.Keeps R getMem :=
  h.bind h.get fun c => h.pure c.mem

theorem rtldRelocAt (pd : RtldPatchData) (tgt sym : Word) :
    Prog.Keeps R (rtldRelocAt host pd tgt sym) :=
  h.bind (keeps_rtldRelocData h.refl h.trans h.setMem (h.alloc _ _) pd sym) fun _ => h.setMem _

theorem rtldPatch (patchData sym : Word) : Prog.Keeps R (rtldPatch host patchData sym) :=
  keeps_rtldPatch h.refl h.trans h.setMem (h.alloc _ _) patchData sym

theorem rtldPatchCreateStub (pd : RtldPatchData) :
    Prog.Keeps R (rtldPatchCreateStub host pd) := by
  refine h.bind (h.alloc _ _) fun stub => Prog.Keeps.ite (h.fail _) ?_
  refine h.bind h.get fun c => h.bind (h.lift _) fun code => ?_
  exact h.bind (h.setMem _) fun _ => h.pure _

theorem resolveGuestAddr (pd : RtldPatchData) (addr : Word) :
    Prog.Keeps R (resolveGuestAddr host pd addr) := by
  refine h.bind h.get fun c => ?_
  split
  · exact h.pure _
  · exact h.rtldPatchCreateStub _

theorem resolveUndefined (re : RtldElf) (name : CStr) (pd : RtldPatchData) :
    Prog.Keeps R (resolveUndefined host re name pd) := by
  refine Prog.Keeps.ite (h.fail _) (Prog.Keeps.ite (h.pure _) ?_)
  split
  · exact h.resolveGuestAddr _ _
  · refine h.bind h.get fun c => ?_
    split
    · exact h.pure _
    · exact h.fail _

theorem rtldElfResolveSym (re : RtldElf) (symtabIdx symIdx : ℕ) (pd : RtldPatchData) :
    Prog.Keeps R (rtldElfResolveSym host re symtabIdx symIdx pd) := by
  refine h.bind h.getMem fun m => Prog.Keeps.ite ?_ (h.fail _)
  refine Prog.Keeps.ite (h.resolveUndefined _ _ _) (Prog.Keeps.ite (h.pure _) ?_)
  exact Prog.Keeps.ite (h.pure _) (h.fail _)

omit h in
theorem orEinval {α : Type} {x : ClientM α} (hx : Prog.Keeps R x) :
    Prog.Keeps R (processRelaEntry.orEinval x) := by
  intro c
  have hc := hx c
  unfold processRelaEntry.orEinval
  cases hrun : x.run c with
  | mk r c' =>
      rw [hrun] at hc
      cases r with
      | ok a => simpa [hrun] using hc
      | error e => simpa [hrun] using hc

theorem processRelaEntry (re : RtldElf) (first : Word) (tgtIdx symtabIdx : ℕ)
    (secWriteAddr : Word) (k : ℕ) :
    Prog.Keeps R (processRelaEntry host re first tgtIdx symtabIdx secWriteAddr k) := by
  refine h.bind h.getMem fun m => Prog.Keeps.ite (h.fail _) ?_
  exact h.bind (orEinval (h.rtldElfResolveSym _ _ _ _)) fun sym => h.rtldRelocAt _ _ _

theorem rtldElfProcessRela (re : RtldElf) (relaIdx : ℕ) :
    Prog.Keeps R (rtldElfProcessRela host re relaIdx) := by
  refine h.bind h.getMem fun m => Prog.Keeps.ite (h.fail _) (Prog.Keeps.ite (h.fail _) ?_)
  refine Prog.Keeps.ite (h.fail _) (Prog.Keeps.ite (h.fail _) (Prog.Keeps.ite (h.fail _) ?_))
  exact Prog.Keeps.loopFrom h.refl h.trans (h.processRelaEntry re _ _ _ _) _ _

theorem layoutPass (re : RtldElf) :
    ∀ fuel i totsz totalign, Prog.Keeps R (layoutPass re fuel i totsz totalign) := by
  intro fuel
  induction fuel with
  | zero =>
      intro i totsz totalign
      exact h.pure _
  | succ fuel ih =>
      intro i totsz totalign
      refine h.bind h.getMem fun m => ?_
      refine Prog.Keeps.ite (Prog.Keeps.ite (h.fail _) ?_) (h.pure _)
      refine Prog.Keeps.ite ?_ (ih _ _ _)
      refine h.bind (h.setMem _) fun _ => ?_
      exact h.bind h.getMem fun m => ih _ _ _

/-- A loop over all section headers whose body may do something for its section. -/
theorem forSections {re : RtldElf} {p : Mem → ℕ → Prop} [∀ m i, Decidable (p m i)]
    {x : Mem → ℕ → ClientM Unit} (hx : ∀ m i, Prog.Keeps R (x m i)) :
    Prog.Keeps R (forSections re fun i => do
      let m ← Client.getMem
      if p m i then x m i) := by
  refine Prog.Keeps.whileFrom h.refl h.trans (fun i => ?_) _ _
  exact h.bind h.getMem fun m => Prog.Keeps.ite (hx m i) (h.pure _)

theorem rebasePass (re : RtldElf) (base : Word) : Prog.Keeps R (rebasePass re base) :=
  h.forSections fun _ _ => h.setMem _

theorem relocPass (re : RtldElf) : Prog.Keeps R (relocPass host re) :=
  h.forSections fun _ _ => h.rtldElfProcessRela _ _

theorem copyPass (re : RtldElf) : Prog.Keeps R (copyPass re) :=
  h.forSections fun _ _ => h.setMem _

end Frame

/-! ## The passes before the registration -/

/-- `rtld_add_object` up to its last pass. -/
def placeObject (host : Host) (objBase objSize skew : Word) : ClientM RtldElf := do
  let m ← getMem
  let re ← Prog.lift (rtldElfInit host m objBase objSize skew)
  let (totsz, totalign) ← layoutPass re shnumBound 0 0#64 1#64
  let base ← memAllocCode host totsz totalign
  if badAddr base then
    Prog.fail (ptrInt base)
  else
    rebasePass re base
    relocPass host re
    copyPass re
    return re

theorem rtldAddObject_eq (host : Host) (objBase objSize skew : Word) :
    rtldAddObject host objBase objSize skew =
      placeObject host objBase objSize skew >>= fun re => registerPass re shnumBound 0 := by
  simp only [rtldAddObject, placeObject, Prog.bind_assoc, Prog.ite_bind, Prog.fail_bind,
    Prog.pure_bind]

theorem Frame.placeObject {host : Host} {R : State → State → Prop} (h : Frame host R)
    (objBase objSize skew : Word) : Prog.Keeps R (placeObject host objBase objSize skew) := by
  refine h.bind h.getMem fun m => h.bind (h.lift _) fun re => ?_
  refine h.bind (h.layoutPass re _ _ _ _) fun tot => h.bind (h.alloc _ _) fun base => ?_
  refine Prog.Keeps.ite (h.fail _) (h.bind (h.rebasePass re base) fun _ => ?_)
  exact h.bind (h.relocPass re) fun _ => h.bind (h.copyPass re) fun _ => h.pure re

/-! ## The registration -/

/-- Entering a function in the table keeps the relation `R`. -/
structure TableFrame (R : State → State → Prop) : Prop where
  refl : ∀ c, R c c
  trans : ∀ c d e, R c d → R d e → R c e
  set : ∀ c addr entry objBase objSize,
    R c { c with objects := (rtldSet c.objects addr entry objBase objSize).2 }

namespace TableFrame

variable {R : State → State → Prop} (h : TableFrame R)
include h

theorem registerSym (re : RtldElf) (symtabIdx : ℕ) (first : Word) (k : ℕ) :
    Prog.Keeps R (registerSym re symtabIdx first k) := by
  refine Prog.Keeps.bind h.trans h.refl fun m => Prog.Keeps.ite ?_ h.refl
  refine Prog.Keeps.ite h.refl ?_
  dsimp only
  split
  · exact h.refl
  refine Prog.Keeps.bind h.trans h.refl fun addr => Prog.Keeps.ite h.refl ?_
  intro c
  have hset := h.set c (addr.getD 0#64)
  simp only [Prog.run_bind, Prog.run_get, Prog.run_modify]
  split
  · exact hset _ _ _
  · exact hset _ _ _

theorem registerSyms (re : RtldElf) (symtabIdx : ℕ) (first : Word) (count k : ℕ) :
    Prog.Keeps R (Prog.untilFrom (Client.registerSym re symtabIdx first) count k) :=
  Prog.Keeps.untilFrom h.refl h.trans (h.registerSym re symtabIdx first) count k

theorem registerPass (re : RtldElf) : ∀ fuel i, Prog.Keeps R (registerPass re fuel i) := by
  intro fuel
  induction fuel with
  | zero =>
      intro i
      exact h.refl
  | succ fuel ih =>
      intro i
      refine Prog.Keeps.bind h.trans h.refl fun m => Prog.Keeps.ite ?_ h.refl
      refine Prog.Keeps.ite (ih _) (Prog.Keeps.ite h.refl ?_)
      exact Prog.Keeps.bind h.trans (h.registerSyms re _ _ _ _) fun more =>
        Prog.Keeps.ite (ih _) h.refl

end TableFrame

end PollyInstrew.Client
