import PollyInstrew.Promote.Third

/-!
# The pass

`GEPpromoteMem2Reg::run` on the candidates of a block, and the loop of
`GEPpromoteMemToRegister` that runs it until the number of promoted slots is the
number of candidates.
-/

namespace PollyInstrew.Promote

open PollyInstrew.Worklist

/-! ## The loop over candidates -/

/-- The function, `GEPLookup`, `NewPhiNodes`, and the values the renaming starts
with. -/
structure RunState where
  fn : Func
  lookup : ℕ → Option ℕ
  phis : PhiMap
  values : ℕ → Value

def RunState.init (fn : Func) : RunState := ⟨fn, fun _ => none, [], fun _ => .poison (.ptr 0)⟩

/-- The third case up to `QueuePhiNode`. -/
def queueGep (A : Analyses) (gepNum gep : ℕ) (info : GEPInfo) (s : RunState) :
    Outcome (RunState × Bool) :=
  match info.storeType with
  | none => .abort
  | some ty => do
      let live ← computeLiveInBlocks s.fn gep info
      let r := ((A.idf info.definingBlocks live).mergeSort (· ≤ ·)).foldl
        (queuePhiNode gepNum ty) (s.fn, s.phis)
      return (⟨r.1, Function.update s.lookup gep (some gepNum), r.2,
        Function.update s.values gepNum (.undef ty)⟩, false)

/-- The second and third case. -/
def runBlocks (A : Analyses) (gepNum gep : ℕ) (info : GEPInfo) (s : RunState) :
    Outcome (RunState × Bool) :=
  if info.onlyUsedInOneBlock then
    let r := promoteSingleBlock A s.fn gep
    if r.2 then .done ({ s with fn := r.1 }, true)
    else queueGep A gepNum gep info { s with fn := r.1 }
  else
    queueGep A gepNum gep info s

/-- The body of the loop of `run`, with whether the slot was promoted. -/
def runGep (A : Analyses) (gepNum gep : ℕ) (s : RunState) : Outcome (RunState × Bool) :=
  if !s.fn.isUsed gep then
    .done (s, true)
  else
    match analyzeGEP A s.fn gep with
    | none => .abort
    | some info =>
        if info.definingBlocks.length = 1 then
          match info.onlyStore.bind (rewriteSingleStore A s.fn gep) with
          | none => .abort
          | some r =>
              if r.2.isEmpty then .done ({ s with fn := r.1 }, true)
              else runBlocks A gepNum gep { info with usingBlocks := r.2 } { s with fn := r.1 }
        else
          runBlocks A gepNum gep info s

/-- The loop over `GEPs`, with the candidates that are left and the number of those that
were promoted. -/
def runLoop (A : Analyses) : ℕ → List ℕ → ℕ → RunState → Outcome (RunState × List ℕ × ℕ)
  | 0, geps, gepNum, s => if geps.length ≤ gepNum then .done (s, geps, 0) else .running
  | fuel + 1, geps, gepNum, s =>
      match geps[gepNum]? with
      | none => .done (s, geps, 0)
      | some gep =>
          match runGep A gepNum gep s with
          | .running => .running
          | .abort => .abort
          | .done (s, true) =>
              match runLoop A fuel (swapRemove geps gepNum) gepNum s with
              | .running => .running
              | .abort => .abort
              | .done r => .done (r.1, r.2.1, r.2.2 + 1)
          | .done (s, false) => runLoop A fuel geps (gepNum + 1) s

/-- `GEPpromoteMem2Reg::run`, with the value of `NumPromoteGEP` if it was 0. -/
def run (A : Analyses) (fn : Func) (geps : List ℕ) : Outcome (Func × ℕ) := do
  let r ← runLoop A geps.length geps 0 (.init fn)
  if r.2.1.isEmpty then
    return (r.1.fn, r.2.2)
  else
    let fn ← promoteThird A r.1.fn r.2.1 r.1.lookup r.1.phis r.1.values
    return (fn, r.2.2)

/-! ## The loop over a block -/

/-- The candidates of a block. -/
def candidates (fn : Func) (b : ℕ) : List ℕ :=
  ((fn.block b).insts.map Inst.id).filter (isGEPPromotable fn)

/-- The loop `while(true)` for a block, with all that was handed to `run`. -/
def whileTrue (A : Analyses) (b : ℕ) : ℕ → Func → ℤ → List ℕ × Outcome (Func × ℤ)
  | 0, _, _ => ([], .running)
  | fuel + 1, fn, numPromoteGEP =>
      let geps := candidates fn b
      if numPromoteGEP = geps.length then
        ([], .done (fn, numPromoteGEP))
      else if geps.isEmpty then
        whileTrue A b fuel fn 0
      else
        match run A fn geps with
        | .running => (geps, .running)
        | .abort => (geps, .abort)
        | .done r =>
            let t := whileTrue A b fuel r.1 r.2
            (geps ++ t.1, t.2)

def Func.usedGeps (fn : Func) : ℕ := fn.gepIds.countP fn.isUsed

/-- A bound on the iterations of the loop. -/
def roundBound (fn : Func) : ℕ :=
  fn.accesses * (fn.gepIds.length + 1) + fn.usedGeps + 2

/-- What the loop for a block has found when it was reached, and all that it has handed
to `run`. -/
structure Visit where
  candidates : List ℕ
  numPromoteGEP : ℤ
  handed : List ℕ

/-- The loop over the blocks. -/
def promoteBlocks (A : Analyses) : List ℕ → Func → ℤ → List Visit × Outcome (Func × ℤ)
  | [], fn, numPromoteGEP => ([], .done (fn, numPromoteGEP))
  | b :: bs, fn, numPromoteGEP =>
      let t := whileTrue A b (roundBound fn) fn numPromoteGEP
      let visit := ⟨candidates fn b, numPromoteGEP, t.1⟩
      match t.2 with
      | .running => ([visit], .running)
      | .abort => ([visit], .abort)
      | .done r =>
          let u := promoteBlocks A bs r.1 r.2
          (visit :: u.1, u.2)

/-- `GEPpromoteMemToRegister`. -/
def promoteMemToRegister (A : Analyses) (fn : Func) (numPromoteGEP : ℤ) :
    List Visit × Outcome (Func × ℤ) :=
  promoteBlocks A (List.range fn.blocks.length) fn numPromoteGEP

end PollyInstrew.Promote
