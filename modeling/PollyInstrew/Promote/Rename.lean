import PollyInstrew.Promote.Candidates
import PollyInstrew.Server.LiveInBlocks

/-!
# Slots of several blocks

The third case of `GEPpromoteMem2Reg::run` on functions with arbitrary pointers:
live-in blocks, PHI nodes, renaming, uses that are left in unreachable blocks, and
the PHI nodes that can be simplified or completed.
-/

namespace PollyInstrew.Promote

open PollyInstrew.Worklist

/-- What a call that may run forever or fail an assertion comes to. -/
inductive Outcome (α : Type) where
  | running
  | abort
  | done (a : α)

def Outcome.bind {α β : Type} (x : Outcome α) (f : α → Outcome β) : Outcome β :=
  match x with
  | .running => .running
  | .abort => .abort
  | .done a => f a

instance : Monad Outcome where
  pure := .done
  bind := Outcome.bind

/-! ## Live-in blocks -/

/-- The accesses through a name, with the values left out. -/
def Inst.slotInstr (i : Inst) : Server.Instr :=
  match i.op with
  | .load _ (.inst gep) _ => .load i.id gep
  | .store _ (.inst gep) _ => .store .undef gep
  | _ => .other i.id []

/-- What `ComputeLiveInBlocks` looks at. -/
def Func.slots (fn : Func) : Server.Func where
  size := fn.blocks.length
  block b := ⟨[], (fn.block b).insts.map Inst.slotInstr, [], (fn.block b).succs⟩

def computeLiveInBlocks (fn : Func) (gep : ℕ) (info : GEPInfo) : Outcome (List ℕ) :=
  let f := fn.slots
  let work := compact (fun b => !(b ∈ info.definingBlocks && Server.storesFirst f gep b))
    info.usingBlocks 0
  let r := run (Server.liveInStep f info.definingBlocks)
    (work.length + unseen f.size (fun b => (f.preds b).length) []) [] work.reverse
  if r.2.isEmpty then .done r.1 else .running

/-! ## Inserting PHI nodes -/

/-- `NewPhiNodes`: for a block and a number in `GEPs`, the name of the node. -/
abbrev PhiMap := List ((ℕ × ℕ) × ℕ)

/-- `QueuePhiNode`. -/
def queuePhiNode (gepNo : ℕ) (ty : Ty) (s : Func × PhiMap) (b : ℕ) : Func × PhiMap :=
  if s.2.any fun e => e.1 = (b, gepNo) then s
  else (s.1.insert b 0 (.phi ty []), ((b, gepNo), s.1.fresh) :: s.2)

/-- `PhiToGEPMap`. -/
def phiToGEPMap (phis : PhiMap) (id : ℕ) : Option ℕ :=
  (phis.find? fun e => e.2 = id).map fun e => e.1.2

/-! ## RenamePass -/

/-- `APN->getNumOperands()` of a PHI node. -/
def Op.numIncoming : Op → Option ℕ
  | .phi _ incoming => some incoming.length
  | _ => none

def Op.addIncoming (entries : List (Value × ℕ)) : Op → Op
  | .phi ty incoming => .phi ty (incoming ++ entries)
  | op => op

/-- The loop over the PHI nodes of a block, as long as they have as many entries as the
first one had. -/
def addIncoming (phis : PhiMap) (numOperands numEdges pred : ℕ) :
    List Inst → (ℕ → Value) → List Inst × (ℕ → Value)
  | [], values => ([], values)
  | i :: insts, values =>
      if i.op.numIncoming = some numOperands then
        let gepNo := (phiToGEPMap phis i.id).getD 0
        let entries := List.replicate numEdges (values gepNo, pred)
        let r := addIncoming phis numOperands numEdges pred insts
          (Function.update values gepNo (.inst i.id))
        (⟨i.id, i.op.addIncoming entries⟩ :: r.1, r.2)
      else
        (i :: insts, values)

theorem map_id_addIncoming (phis : PhiMap) (numOperands numEdges pred : ℕ) (insts : List Inst)
    (values : ℕ → Value) :
    (addIncoming phis numOperands numEdges pred insts values).1.map Inst.id =
      insts.map Inst.id := by
  induction insts generalizing values with
  | nil => rfl
  | cons i insts ih =>
      rw [addIncoming]
      split
      · simp [ih]
      · rfl

/-- The beginning of `RenamePass`. -/
def updatePhis (phis : PhiMap) (fn : Func) (b : ℕ) (pred : Option ℕ) (values : ℕ → Value) :
    Func × (ℕ → Value) :=
  match (fn.block b).insts, pred with
  | i :: _, some a =>
      match phiToGEPMap phis i.id, i.op.numIncoming with
      | some _, some numOperands =>
          let numEdges := (fn.block a).succs.count b
          (fn.editBlock b (fun l => (addIncoming phis numOperands numEdges a l values).1)
              fun l => by rw [map_id_addIncoming],
            (addIncoming phis numOperands numEdges a (fn.block b).insts values).2)
      | _, _ => (fn, values)
  | _, _ => (fn, values)

/-- The body of the loop over the instructions of a block. -/
def renameInst (A : Analyses) (lookup : ℕ → Option ℕ) (s : Func × (ℕ → Value)) (id : ℕ) :
    Func × (ℕ → Value) :=
  match s.1.inst? (.inst id) with
  | some (.load ty (.inst gep) _) =>
      match lookup gep with
      | none => s
      | some gepNo =>
          let v := s.2 gepNo
          ((assumeNonNull A s.1 id ty v).replace id v, s.2)
  | some (.store value (.inst gep) _) =>
      match lookup gep with
      | none => s
      | some gepNo => (s.1.erase id, Function.update s.2 gepNo value)
  | _ => s

structure RenamePassData where
  bb : ℕ
  pred : Option ℕ
  values : ℕ → Value

/-- Successors that are not in the set yet, each of them once. -/
def newSuccs : List ℕ → List ℕ → List ℕ
  | _, [] => []
  | visitedSuccs, c :: succs =>
      if c ∈ visitedSuccs then
        newSuccs visitedSuccs succs
      else
        c :: newSuccs (c :: visitedSuccs) succs

theorem length_newSuccs_le (visitedSuccs succs : List ℕ) :
    (newSuccs visitedSuccs succs).length ≤ succs.length := by
  induction succs generalizing visitedSuccs with
  | nil => exact Nat.le_refl 0
  | cons c succs ih =>
      rw [newSuccs, List.length_cons]
      split
      · exact Nat.le_succ_of_le (ih visitedSuccs)
      · exact Nat.succ_le_succ (ih (c :: visitedSuccs))

/-- One iteration of `RenamePass` on the function and `Visited`.  The first successor is
what the pass goes on with, so it is on top of the new jobs. -/
def renameStep (A : Analyses) (lookup : ℕ → Option ℕ) (phis : PhiMap) (s : Func × List ℕ)
    (job : RenamePassData) : (Func × List ℕ) × List RenamePassData :=
  let t := updatePhis phis s.1 job.bb job.pred job.values
  if job.bb ∈ s.2 then
    ((t.1, s.2), [])
  else
    let t := ((t.1.block job.bb).insts.map Inst.id).foldl (renameInst A lookup) t
    match (t.1.block job.bb).succs with
    | [] => ((t.1, job.bb :: s.2), [])
    | c :: succs =>
        ((t.1, job.bb :: s.2),
          (c :: (newSuccs [c] succs).reverse).map fun c => ⟨c, some job.bb, t.2⟩)

/-- The loop over `RenamePassWorkList`. -/
def rename (A : Analyses) (lookup : ℕ → Option ℕ) (phis : PhiMap) (fn : Func)
    (values : ℕ → Value) : Outcome Func :=
  let r := run (renameStep A lookup phis)
    (1 + unseen fn.blocks.length (fun b => (fn.block b).succs.length) []) (fn, [])
    [⟨0, none, values⟩]
  if r.2.isEmpty then .done r.1.1 else .running

/-- Uses that are left are replaced. -/
def poisonUses (fn : Func) (gep : ℕ) : Func :=
  match fn.inst? (.inst gep) with
  | some op => fn.replaceAllUsesWith gep (.poison (op.resultTy.getD (.ptr 0)))
  | none => fn

/-! ## PHI nodes that merge one value -/

def Value.isUndef : Value → Bool
  | .undef _ => true
  | .poison _ => true
  | _ => false

/-- LLVM's `valueDominatesPHI`. -/
def valueDominatesPHI (A : Analyses) (fn : Func) (v : Value) (phi : ℕ) : Bool :=
  match v with
  | .inst id => A.dominates (fn.parent id) (fn.parent phi) && fn.parent id != fn.parent phi
  | _ => true

/-- LLVM's `simplifyPHINode`. -/
def simplifyPHINode (A : Analyses) (fn : Func) (phi : ℕ) (ty : Ty)
    (incoming : List (Value × ℕ)) : Option Value :=
  let values := (incoming.map Prod.fst).filter fun v => v ≠ .inst phi
  match values.filter fun v => !v.isUndef with
  | [] => some (.undef ty)
  | v :: vs =>
      if vs.all fun w => w = v then
        if values.any Value.isUndef && !valueDominatesPHI A fn v phi then none else some v
      else
        none

/-- `simplifyInstruction` of a PHI node. -/
def simplifyInstruction (A : Analyses) (fn : Func) (phi : ℕ) : Option Value :=
  match fn.inst? (.inst phi) with
  | some (.phi ty incoming) => simplifyPHINode A fn phi ty incoming
  | _ => none

/-- One pass over `NewPhiNodes`; the result has the entries that are left and whether
one was erased. -/
def eliminatePass (A : Analyses) : Func → PhiMap → Func × PhiMap × Bool
  | fn, [] => (fn, [], false)
  | fn, e :: phis =>
      match simplifyInstruction A fn e.2 with
      | some v =>
          let r := eliminatePass A (fn.replace e.2 v) phis
          (r.1, r.2.1, true)
      | none =>
          let r := eliminatePass A fn phis
          (r.1, e :: r.2.1, r.2.2)

theorem length_eliminatePass (A : Analyses) (fn : Func) (phis : PhiMap) :
    (eliminatePass A fn phis).2.1.length ≤ phis.length ∧
      ((eliminatePass A fn phis).2.2 = true →
        (eliminatePass A fn phis).2.1.length < phis.length) := by
  fun_induction eliminatePass A fn phis with
  | case1 fn => simp
  | case2 fn e phis v _ r ih =>
      exact ⟨Nat.le_succ_of_le ih.1, fun _ => Nat.lt_succ_of_le ih.1⟩
  | case3 fn e phis _ r ih =>
      exact ⟨Nat.succ_le_succ ih.1, fun h => Nat.succ_lt_succ (ih.2 h)⟩

/-- The loop `while (EliminatedAPHI)`. -/
def eliminatePhis (A : Analyses) (fn : Func) (phis : PhiMap) : Func × PhiMap :=
  if _h : (eliminatePass A fn phis).2.2 = true then
    eliminatePhis A (eliminatePass A fn phis).1 (eliminatePass A fn phis).2.1
  else
    ((eliminatePass A fn phis).1, (eliminatePass A fn phis).2.1)
termination_by phis.length
decreasing_by exact (length_eliminatePass A fn phis).2 ‹_›

/-! ## Entries for unreachable predecessors -/

/-- Dummy entries for the PHI nodes that have as many as the first one. -/
def addDummies (numBadPreds : ℕ) (preds : List ℕ) : List Inst → List Inst
  | [] => []
  | i :: insts =>
      match i.op with
      | .phi ty incoming =>
          if incoming.length = numBadPreds then
            ⟨i.id, .phi ty (incoming ++ preds.map fun a => (.undef ty, a))⟩ ::
              addDummies numBadPreds preds insts
          else
            i :: insts
      | _ => i :: insts

theorem map_id_addDummies (numBadPreds : ℕ) (preds : List ℕ) (insts : List Inst) :
    (addDummies numBadPreds preds insts).map Inst.id = insts.map Inst.id := by
  induction insts with
  | nil => rfl
  | cons i insts ih =>
      rw [addDummies]
      split
      · split
        · simp [ih]
        · rfl
      · rfl

/-- The body of the last loop of `run`. -/
def completePhis (fn : Func) (e : (ℕ × ℕ) × ℕ) : Func :=
  let b := fn.parent e.2
  match (fn.block b).insts with
  | [] => fn
  | i :: _ =>
      match i.op with
      | .phi _ incoming =>
          if i.id ≠ e.2 then
            fn
          else if incoming.length = (fn.slots.preds b).length then
            fn
          else
            fn.editBlock b (addDummies incoming.length
              ((fn.slots.preds b).diff (incoming.map Prod.snd))) fun l => by
                rw [map_id_addDummies]
      | _ => fn

/-! ## The third case -/

/-- What is left of `run` after its loop over `GEPs`. -/
def promoteThird (A : Analyses) (fn : Func) (geps : List ℕ) (lookup : ℕ → Option ℕ)
    (phis : PhiMap) (values : ℕ → Value) : Outcome Func := do
  let fn ← rename A lookup phis fn values
  let r := eliminatePhis A (geps.foldl poisonUses fn) (A.phiOrder phis)
  return r.2.foldl completePhis r.1

end PollyInstrew.Promote
