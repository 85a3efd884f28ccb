import Mathlib.Data.List.Induction
import PollyInstrew.Server.IrExec

/-!
# Slots with one store, slots of one block

The first two cases of `GEPpromoteMem2Reg::run`.  A slot with a single store has
its loads replaced by the stored value where the store dominates them, and
everywhere if the value is no instruction; a slot that is accessed in one block
only has each load replaced by the store above it.  Guest memory has a content
when the function is entered, so a load that is not preceded by the store may
not be replaced: the first rule is right if and only if constants and arguments
are stored on every path to the loads.
-/

namespace PollyInstrew.Server

open PollyInstrew.Dominance

/-! ## What the passes look at -/

/-- The instruction loads from or stores to the slot. -/
def Instr.accesses (gep : ℕ) : Instr → Bool
  | .load _ gep' => gep' = gep
  | .store _ gep' => gep' = gep
  | .other _ _ => false

/-- `GEP->users()`, in the order of the use list. -/
structure Users (f : Func) (gep : ℕ) (users : List (ℕ × ℕ)) : Prop where
  nodup : users.Nodup
  mem_iff : ∀ u, u ∈ users ↔ ∃ i, f.at u = some i ∧ i.accesses gep

/-- The dominator tree LLVM computes. -/
structure DomTree (f : Func) where
  dominates : ℕ → ℕ → Bool
  dominates_iff : ∀ a b, dominates a b = true ↔ f.cfg.Dom a b

/-- `!isa<Instruction>(V)`. -/
def Operand.isGlobal : Operand → Bool
  | .name _ => false
  | _ => true

/-- `GEPInfo`; the blocks of all stores and of all loads, and whether these are
one block. -/
structure GepInfo where
  definingBlocks : List ℕ
  usingBlocks : List ℕ
  onlyStore : Option (ℕ × ℕ)
  onlyBlock : Option ℕ
  onlyUsedInOneBlock : Bool

def GepInfo.clear : GepInfo := ⟨[], [], none, none, true⟩

/-- The body of the loop of `AnalyzeGEP`. -/
def GepInfo.analyzeUser (f : Func) (info : GepInfo) (u : ℕ × ℕ) : GepInfo :=
  let info :=
    match f.at u with
    | some (.store _ _) =>
        { info with
          definingBlocks := info.definingBlocks ++ [u.1]
          onlyStore := some u }
    | _ => { info with usingBlocks := info.usingBlocks ++ [u.1] }
  if info.onlyUsedInOneBlock then
    match info.onlyBlock with
    | none => { info with onlyBlock := some u.1 }
    | some b => { info with onlyUsedInOneBlock := b = u.1 }
  else
    info

def analyzeGEP (f : Func) (users : List (ℕ × ℕ)) : GepInfo :=
  users.foldl (GepInfo.analyzeUser f) .clear

/-- Operands are replaced everywhere at once, so the present operands are a
function of the original ones; `replaced` lists the erased loads with what they
were replaced by. -/
structure Promotion where
  uses : Operand → Operand
  replaced : List (ℕ × Operand)

def Promotion.init : Promotion := ⟨id, []⟩

/-- `LI->replaceAllUsesWith(ReplVal)`, with poison for a load that would be
replaced by itself. -/
def Promotion.replace (p : Promotion) (id : ℕ) (replVal : Operand) : Promotion :=
  let replVal := if replVal = .name (.inst id) then .poison else replVal
  { uses := fun v => if p.uses v = .name (.inst id) then replVal else p.uses v
    replaced := p.replaced ++ [(id, replVal)] }

/-- The body of the loop of `GEPrewriteSingleStore`; the second component is
`Info.UsingBlocks`. -/
def rewriteLoad (f : Func) (dt : DomTree f) (onlyStore : ℕ × ℕ) (value : Operand)
    (s : Promotion × List ℕ) (u : ℕ × ℕ) : Promotion × List ℕ :=
  match f.at u with
  | some (.load id _) =>
      if value.isGlobal then
        (s.1.replace id (s.1.uses value), s.2)
      else if u.1 = onlyStore.1 then
        if onlyStore.2 > u.2 then
          (s.1, s.2 ++ [onlyStore.1])
        else
          (s.1.replace id (s.1.uses value), s.2)
      else if !dt.dominates onlyStore.1 u.1 then
        (s.1, s.2 ++ [u.1])
      else
        (s.1.replace id (s.1.uses value), s.2)
  | _ => s

/-- `GEPrewriteSingleStore`; the pass is done if no using block is left. -/
def rewriteSingleStore (f : Func) (dt : DomTree f) (users : List (ℕ × ℕ))
    (onlyStore : ℕ × ℕ) (value : Operand) : Promotion × List ℕ :=
  users.foldl (rewriteLoad f dt onlyStore value) (.init, [])

def indexedStore (f : Func) (u : ℕ × ℕ) : Option (ℕ × Operand) :=
  match f.at u with
  | some (.store value _) => some (u.2, value)
  | _ => none

/-- The stores of the block with their indices, sorted. -/
def storesByIndex (f : Func) (users : List (ℕ × ℕ)) : List (ℕ × Operand) :=
  (users.filterMap (indexedStore f)).mergeSort fun a b => a.1 ≤ b.1

/-- The store before the first one that does not come before the index. -/
def nearestStore (stores : List (ℕ × Operand)) (index : ℕ) : Option (ℕ × Operand) :=
  (stores.takeWhile fun s => s.1 < index).getLast?

/-- The loop of `GEPpromoteSingleBlock`. -/
def promoteLoads (f : Func) (stores : List (ℕ × Operand)) :
    List (ℕ × ℕ) → Promotion → Promotion × Bool
  | [], p => (p, true)
  | u :: users, p =>
      match f.at u with
      | some (.load id _) =>
          match nearestStore stores u.2 with
          | none =>
              if stores.isEmpty then
                promoteLoads f stores users (p.replace id .undef)
              else
                (p, false)
          | some s => promoteLoads f stores users (p.replace id (p.uses s.2))
      | _ => promoteLoads f stores users p

def promoteSingleBlock (f : Func) (users : List (ℕ × ℕ)) (p : Promotion) : Promotion × Bool :=
  promoteLoads f (storesByIndex f users) users p

/-- The users that are left after loads were erased. -/
def remainingUsers (f : Func) (users : List (ℕ × ℕ)) (p : Promotion) : List (ℕ × ℕ) :=
  users.filter fun u =>
    match f.at u with
    | some (.load id _) => id ∉ p.replaced.map Prod.fst
    | _ => true

/-- The first two cases of `GEPpromoteMem2Reg::run` for one slot. -/
def promoteGep (f : Func) (dt : DomTree f) (users : List (ℕ × ℕ)) : Promotion :=
  let info := analyzeGEP f users
  let first : Promotion × Bool :=
    match info.definingBlocks.length, info.onlyStore with
    | 1, some u =>
        match f.at u with
        | some (.store value _) =>
            let s := rewriteSingleStore f dt users u value
            (s.1, s.2.isEmpty)
        | _ => (.init, false)
    | _, _ => (.init, false)
  if first.2 then
    first.1
  else if info.onlyUsedInOneBlock then
    (promoteSingleBlock f (remainingUsers f users first.1) first.1).1
  else
    first.1

/-! ## The stores of a slot -/

/-- The place holds a store. -/
def Func.isStore (f : Func) (u : ℕ × ℕ) : Bool :=
  match f.at u with
  | some (.store _ _) => true
  | _ => false

theorem isStore_iff {f : Func} {u : ℕ × ℕ} :
    f.isStore u = true ↔ ∃ value gep, f.at u = some (.store value gep) := by
  rw [Func.isStore]
  split
  · simp_all
  · rename_i h
    simpa using h

theorem analyzeGEP_append (f : Func) (users : List (ℕ × ℕ)) (u : ℕ × ℕ) :
    analyzeGEP f (users ++ [u]) = (analyzeGEP f users).analyzeUser f u := by
  rw [analyzeGEP, List.foldl_append]
  rfl

theorem analyzeGEP_stores (f : Func) (users : List (ℕ × ℕ)) :
    (analyzeGEP f users).definingBlocks = (users.filter f.isStore).map Prod.fst ∧
      (analyzeGEP f users).onlyStore = (users.filter f.isStore).getLast? := by
  induction users using List.reverseRecOn with
  | nil => exact ⟨rfl, rfl⟩
  | append_singleton users u ih =>
      rw [analyzeGEP_append, List.filter_append]
      have hfields : ∀ info : GepInfo,
          (info.analyzeUser f u).definingBlocks =
            info.definingBlocks ++ (if f.isStore u then [u.1] else []) ∧
          (info.analyzeUser f u).onlyStore =
            if f.isStore u then some u else info.onlyStore := by
        intro info
        rw [GepInfo.analyzeUser, Func.isStore]
        split <;> dsimp only <;> split <;> (try split) <;> simp_all
      rw [(hfields _).1, (hfields _).2, ih.1, ih.2]
      cases h : f.isStore u <;> simp [h]

theorem analyzeGEP_block (f : Func) (users : List (ℕ × ℕ))
    (hone : (analyzeGEP f users).onlyUsedInOneBlock = true) :
    ∀ u ∈ users, (analyzeGEP f users).onlyBlock = some u.1 := by
  induction users using List.reverseRecOn with
  | nil =>
      intro u hu
      exact absurd hu (by simp)
  | append_singleton users u ih =>
      rw [analyzeGEP_append] at hone ⊢
      generalize analyzeGEP f users = info at ih hone
      have hfields : (info.analyzeUser f u).onlyBlock =
            (if info.onlyUsedInOneBlock then some (info.onlyBlock.getD u.1)
              else info.onlyBlock) ∧
          (info.analyzeUser f u).onlyUsedInOneBlock =
            (info.onlyUsedInOneBlock && decide (info.onlyBlock.getD u.1 = u.1)) := by
        rw [GepInfo.analyzeUser]
        split <;> dsimp only <;> split <;> (try split) <;> simp_all
      rw [hfields.2, Bool.and_eq_true, decide_eq_true_eq] at hone
      rw [hfields.1, if_pos hone.1]
      intro v hv
      rcases List.mem_append.mp hv with hv | hv
      · rw [ih hone.1 v hv, Option.getD_some]
      · rw [List.mem_singleton.mp hv, hone.2]

/-! ## A slot with one store -/

section SingleStore

variable {f : Func} {gep : ℕ} {u : ℕ × ℕ} {value : Operand}

/-- The replacement has the value the load reads, whenever it is executed. -/
def Right (f : Func) (gep : ℕ) (r : ℕ × Operand) : Prop :=
  ∀ (α : Type) (d : Driver α) (mem : ℕ → Option α) (n : ℕ) (st : ExecState α) (k : ℕ),
    f.run d mem n = some st → f.at (st.block, k) = some (.load r.1 gep) →
    (f.machineAt d st k).mem gep = r.2.eval d (f.machineAt d st k).env

/-- The place is the only one that stores to the slot. -/
def OnlyStore (f : Func) (gep : ℕ) (u : ℕ × ℕ) (value : Operand) : Prop :=
  f.at u = some (.store value gep) ∧ ∀ u' v, f.at u' = some (.store v gep) → u' = u

/-- The point of a place. -/
def pointOf (u : ℕ × ℕ) : ℕ × ℕ := (u.1, u.2 + 1)

theorem OnlyStore.available (hssa : f.Ssa) (hstore : OnlyStore f gep u value)
    (hreach : f.cfg.Reachable u.1) : f.Available value (pointOf u) :=
  hssa.use u.1 u.2 _ value hreach hstore.1 List.mem_cons_self

section Frame

variable {α : Type} {d : Driver α} {mem : ℕ → Option α} {n : ℕ} {st st' : ExecState α}

/-- A step within a block that comes after the store. -/
theorem OnlyStore.step (hssa : f.Ssa) (hstore : OnlyStore f gep u value) {k : ℕ} {i : Instr}
    (hreach : f.cfg.Reachable st.block) (hi : f.at (st.block, k) = some i)
    (hbefore : f.cfg.Before (pointOf u) (st.block, k + 1))
    (h : (f.machineAt d st k).mem gep = value.eval d (f.machineAt d st k).env) :
    (f.machineAt d st (k + 1)).mem gep = value.eval d (f.machineAt d st (k + 1)).env := by
  rw [machineAt_succ hi, Instr.mem_exec, h]
  · symm
    apply Operand.eval_congr
    intro x hx
    apply Instr.env_exec
    intro hres
    have hu : f.cfg.Reachable u.1 := hbefore.dom.reachable hreach
    obtain ⟨p, hp, hpu⟩ := hstore.available hssa hu x hx
    rw [hssa.unique x p _ hp (defines_at hi hres)] at hpu
    exact hpu.asymm hbefore hreach
  · intro v hv
    subst hv
    rw [← hstore.2 _ _ hi] at hbefore
    exact Cfg.Before.irrefl _ hbefore

/-- What holds at the beginning of a block carries over to all its points. -/
theorem OnlyStore.in_block (hssa : f.Ssa) (hstore : OnlyStore f gep u value)
    (hreach : f.cfg.Reachable st.block)
    (h : f.cfg.SDom u.1 st.block → st.machine.mem gep = value.eval d st.machine.env) :
    ∀ k, k ≤ (f.block st.block).body.length → f.cfg.Before (pointOf u) (st.block, k + 1) →
      (f.machineAt d st k).mem gep = value.eval d (f.machineAt d st k).env := by
  intro k
  induction k with
  | zero =>
      rintro - (hbefore | ⟨-, hlt⟩)
      · exact h hbefore
      · dsimp only [pointOf] at hlt
        omega
  | succ k ih =>
      intro hk hbefore
      obtain ⟨i, hi⟩ := exists_at (Nat.lt_of_succ_le hk)
      by_cases hprev : f.cfg.Before (pointOf u) (st.block, k + 1)
      · exact hstore.step hssa hreach hi hprev (ih (Nat.le_of_succ_le hk) hprev)
      · -- the store itself
        have hplace : u = (st.block, k) := by
          rcases hbefore with hbefore | ⟨hblock, hlt⟩
          · exact absurd (.inl hbefore) hprev
          · have hle : ¬u.2 + 1 < k + 1 := fun hlt' => hprev (.inr ⟨hblock, hlt'⟩)
            dsimp only [pointOf] at hblock hlt
            exact Prod.ext hblock (by dsimp only; omega)
        rw [machineAt_succ (hplace ▸ hstore.1)]
        simp only [Instr.exec, Function.update_self]

/-- After the only store the slot holds the stored value. -/
theorem OnlyStore.mem_eq (hssa : f.Ssa) (hstore : OnlyStore f gep u value)
    (hrun : f.run d mem n = some st) :
    ∀ k, k ≤ (f.block st.block).body.length → f.cfg.Before (pointOf u) (st.block, k + 1) →
      (f.machineAt d st k).mem gep = value.eval d (f.machineAt d st k).env := by
  induction n generalizing st with
  | zero =>
      refine hstore.in_block hssa (run_reachable hrun) fun hdom => ?_
      obtain rfl := Option.some.inj hrun
      exact absurd (List.mem_singleton.mp (hdom.1 [] .entry)) hdom.2
  | succ n ih =>
      refine hstore.in_block hssa (run_reachable hrun) fun hdom => ?_
      obtain ⟨st₀, hrun₀, hnext⟩ := run_succ hrun
      obtain ⟨-, hsucc, hmachine⟩ := next_eq_some hnext
      have hend : f.cfg.Before (pointOf u) (f.endOf st₀.block) := by
        by_cases heq : u.1 = st₀.block
        · have hlt := lt_length_of_at hstore.1
          exact .inr ⟨heq, by rw [Func.endOf, ← heq]; exact Nat.succ_lt_succ hlt⟩
        · exact .inl ⟨hdom.dom_pred hsucc, heq⟩
      have hprev := ih hrun₀ _ (Nat.le_refl _) hend
      rw [hmachine]
      change (f.finish d st₀).mem gep = _
      rw [mem_finish, hprev, ← env_finish]
      symm
      apply Operand.eval_congr
      intro x hx
      apply env_enter_of_not_phi
      rintro p hp rfl
      have hreach := run_reachable hrun
      obtain ⟨q, hq, hqu⟩ := hstore.available hssa (hdom.1.reachable hreach) _ hx
      rw [hssa.unique _ q _ hq (.phi hp)] at hqu
      exact hdom.asymm hqu.dom hreach

end Frame

/-- The load at a place is replaced by the stored value. -/
def Covered (dt : DomTree f) (u : ℕ × ℕ) (value : Operand) (l : ℕ × ℕ) : Prop :=
  value.isGlobal = true ∨ (l.1 = u.1 ∧ u.2 ≤ l.2) ∨
    (l.1 ≠ u.1 ∧ dt.dominates u.1 l.1 = true)

/-- The state of the loop of `GEPrewriteSingleStore` after some users. -/
structure RewriteInv (dt : DomTree f) (u : ℕ × ℕ) (value : Operand) (users : List (ℕ × ℕ))
    (s : Promotion × List ℕ) : Prop where
  uses : f.cfg.Reachable u.1 ∨ value.isGlobal = true → s.1.uses value = value
  sound : ∀ r ∈ s.1.replaced, ∃ l gep', l ∈ users ∧ f.at l = some (.load r.1 gep') ∧
    Covered dt u value l ∧ (f.cfg.Reachable u.1 ∨ value.isGlobal = true → r.2 = value)
  complete : ∀ l ∈ users, ∀ id gep', f.at l = some (.load id gep') →
    Covered dt u value l → ∃ r ∈ s.1.replaced, r.1 = id
  left : s.2 = [] ↔ ∀ l ∈ users, ∀ id gep', f.at l = some (.load id gep') →
    Covered dt u value l

/-- One iteration replaces a load that is covered and leaves the others. -/
theorem rewriteLoad_eq (dt : DomTree f) (s : Promotion × List ℕ) {l : ℕ × ℕ} {id gep' : ℕ}
    (hl : f.at l = some (.load id gep')) :
    (Covered dt u value l ∧
      rewriteLoad f dt u value s l = (s.1.replace id (s.1.uses value), s.2)) ∨
    (¬Covered dt u value l ∧ ∃ b, rewriteLoad f dt u value s l = (s.1, s.2 ++ [b])) := by
  rw [rewriteLoad, hl]
  dsimp only
  cases hglobal : value.isGlobal with
  | true => exact .inl ⟨.inl hglobal, by simp⟩
  | false =>
      by_cases hblock : l.1 = u.1
      · by_cases hlt : u.2 > l.2
        · refine .inr ⟨?_, u.1, by simp [hblock, hlt]⟩
          rintro (h | ⟨-, h⟩ | ⟨h, -⟩)
          · exact absurd h (by simp [hglobal])
          · omega
          · exact h hblock
        · exact .inl ⟨.inr (.inl ⟨hblock, Nat.le_of_not_lt hlt⟩), by simp [hblock, hlt]⟩
      · cases hdom : dt.dominates u.1 l.1 with
        | true => exact .inl ⟨.inr (.inr ⟨hblock, hdom⟩), by simp [hblock]⟩
        | false =>
            refine .inr ⟨?_, l.1, by simp [hblock]⟩
            rintro (h | ⟨h, -⟩ | ⟨-, h⟩)
            · exact absurd h (by simp [hglobal])
            · exact hblock h
            · exact absurd h (by simp [hdom])

/-- A covered load comes after the store. -/
theorem Covered.before (hstore : OnlyStore f gep u value) {dt : DomTree f} {l : ℕ × ℕ}
    {id gep' : ℕ} (hl : f.at l = some (.load id gep')) (hglobal : value.isGlobal = false)
    (h : Covered dt u value l) : f.cfg.Before (pointOf u) (pointOf l) := by
  rcases h with h | ⟨hblock, hle⟩ | ⟨hblock, hdom⟩
  · exact absurd h (by simp [hglobal])
  · have hne : u.2 ≠ l.2 := by
      intro heq
      rw [Prod.ext hblock heq.symm, hstore.1] at hl
      exact absurd hl (by simp)
    exact .inr ⟨hblock.symm, by dsimp only [pointOf]; omega⟩
  · exact .inl ⟨(dt.dominates_iff _ _).mp hdom, Ne.symm hblock⟩

/-- A covered load is not the stored value. -/
theorem Covered.value_ne (hssa : f.Ssa) (hstore : OnlyStore f gep u value) {dt : DomTree f}
    {l : ℕ × ℕ} {id gep' : ℕ} (hl : f.at l = some (.load id gep'))
    (h : Covered dt u value l) (hreach : f.cfg.Reachable u.1 ∨ value.isGlobal = true) :
    value ≠ .name (.inst id) := by
  rintro rfl
  replace hreach := hreach.resolve_right (by simp [Operand.isGlobal])
  obtain ⟨p, hp, hpu⟩ := hstore.available hssa hreach _ rfl
  rw [hssa.unique _ p _ hp (defines_at hl rfl)] at hpu
  exact hpu.asymm (h.before hstore hl rfl) (hpu.dom.reachable hreach)

theorem rewriteInv_init (dt : DomTree f) : RewriteInv dt u value [] (.init, []) where
  uses _ := rfl
  sound r hr := absurd hr (by simp [Promotion.init])
  complete l hl := absurd hl (by simp)
  left := by simp

theorem RewriteInv.step (hssa : f.Ssa) (hstore : OnlyStore f gep u value) {dt : DomTree f}
    {users : List (ℕ × ℕ)} {s : Promotion × List ℕ} (h : RewriteInv dt u value users s)
    (l : ℕ × ℕ) : RewriteInv dt u value (users ++ [l]) (rewriteLoad f dt u value s l) := by
  have hold : ∀ l', l' ∈ users → l' ∈ users ++ [l] := fun l' => List.mem_append_left [l]
  have hsound : ∀ r ∈ s.1.replaced, ∃ l' gep', l' ∈ users ++ [l] ∧
      f.at l' = some (.load r.1 gep') ∧ Covered dt u value l' ∧
      (f.cfg.Reachable u.1 ∨ value.isGlobal = true → r.2 = value) := by
    intro r hr
    obtain ⟨l', gep', hl', hrest⟩ := h.sound r hr
    exact ⟨l', gep', hold l' hl', hrest⟩
  by_cases hload : ∃ id gep', f.at l = some (.load id gep')
  · obtain ⟨id, gep', hl⟩ := hload
    rcases rewriteLoad_eq dt s hl with ⟨hcov, heq⟩ | ⟨hcov, b, heq⟩
    · rw [heq]
      have hne := hcov.value_ne hssa hstore hl
      refine ⟨fun hreach => ?_, fun r hr => ?_, fun l' hl' id' gep'' hat hcov' => ?_, ?_⟩
      · simp only [Promotion.replace, h.uses hreach, if_neg (hne hreach)]
      · rcases List.mem_append.mp hr with hr | hr
        · exact hsound r hr
        · obtain rfl := List.mem_singleton.mp hr
          refine ⟨l, gep', by simp, hl, hcov, fun hreach => ?_⟩
          simp only [h.uses hreach, if_neg (hne hreach)]
      · rcases List.mem_append.mp hl' with hl' | hl'
        · obtain ⟨r, hr, hid⟩ := h.complete l' hl' id' gep'' hat hcov'
          exact ⟨r, List.mem_append_left _ hr, hid⟩
        · rw [List.mem_singleton.mp hl', hl] at hat
          obtain ⟨rfl, rfl⟩ := Instr.load.inj (Option.some.inj hat)
          exact ⟨_, List.mem_append_right _ (List.mem_singleton_self _), rfl⟩
      · rw [h.left]
        constructor
        · intro hall l' hl' id' gep'' hat
          rcases List.mem_append.mp hl' with hl' | hl'
          · exact hall l' hl' id' gep'' hat
          · exact List.mem_singleton.mp hl' ▸ hcov
        · exact fun hall l' hl' => hall l' (hold l' hl')
    · rw [heq]
      refine ⟨h.uses, hsound, fun l' hl' id' gep'' hat hcov' => ?_, by simp, fun hall => ?_⟩
      · rcases List.mem_append.mp hl' with hl' | hl'
        · exact h.complete l' hl' id' gep'' hat hcov'
        · exact absurd (List.mem_singleton.mp hl' ▸ hcov') hcov
      · exact absurd (hall l (by simp) id gep' hl) hcov
  · have heq : rewriteLoad f dt u value s l = s := by
      rw [rewriteLoad]
      split
      · exact absurd ⟨_, _, ‹_›⟩ hload
      · rfl
    have hnew : ∀ l' ∈ users ++ [l], ∀ id gep', f.at l' = some (.load id gep') → l' ∈ users := by
      intro l' hl' id gep' hat
      rcases List.mem_append.mp hl' with hl' | hl'
      · exact hl'
      · exact absurd ⟨id, gep', List.mem_singleton.mp hl' ▸ hat⟩ hload
    rw [heq]
    refine ⟨h.uses, hsound, fun l' hl' id gep' hat =>
      h.complete l' (hnew l' hl' id gep' hat) id gep' hat, ?_⟩
    rw [h.left]
    exact ⟨fun hall l' hl' id gep' hat => hall l' (hnew l' hl' id gep' hat) id gep' hat,
      fun hall l' hl' => hall l' (hold l' hl')⟩

theorem rewriteInv_rewriteSingleStore (hssa : f.Ssa) (hstore : OnlyStore f gep u value)
    (dt : DomTree f) (users : List (ℕ × ℕ)) :
    RewriteInv dt u value users (rewriteSingleStore f dt users u value) := by
  induction users using List.reverseRecOn with
  | nil => exact rewriteInv_init dt
  | append_singleton users l ih =>
      rw [rewriteSingleStore, List.foldl_append]
      exact ih.step hssa hstore l

/-- A slot with one store is loaded after it, if constants and arguments are
stored. -/
def SingleStoreOk (f : Func) (gep : ℕ) : Prop :=
  ∀ u value, OnlyStore f gep u value → value.isGlobal = true →
    ∀ l id, f.at l = some (.load id gep) → f.cfg.Reachable l.1 →
      f.cfg.Before (pointOf u) (pointOf l)

/-- What `GEPrewriteSingleStore` puts in place of a load is right. -/
theorem RewriteInv.right (hssa : f.Ssa) (hstore : OnlyStore f gep u value) {dt : DomTree f}
    {users : List (ℕ × ℕ)} {s : Promotion × List ℕ} (h : RewriteInv dt u value users s)
    (hok : SingleStoreOk f gep) {r : ℕ × Operand} (hr : r ∈ s.1.replaced) : Right f gep r := by
  intro α d mem n st k hrun hload
  obtain ⟨l, gep', -, hl, hcov, hvalue⟩ := h.sound r hr
  have hreach := run_reachable hrun
  have hplace : pointOf l = (st.block, k + 1) :=
    hssa.unique _ _ _ (defines_at hl rfl) (defines_at hload rfl)
  obtain rfl : l = (st.block, k) := by
    obtain ⟨hblock, hindex⟩ := Prod.mk.inj hplace
    exact Prod.ext hblock (by dsimp only; omega)
  have hbefore : f.cfg.Before (pointOf u) (st.block, k + 1) := by
    cases hglobal : value.isGlobal with
    | true => exact hok u value hstore hglobal _ _ hload hreach
    | false => exact hcov.before hstore hl hglobal
  rw [hvalue (.inl (hbefore.dom.reachable hreach))]
  exact hstore.mem_eq hssa hrun k (Nat.le_of_lt (lt_length_of_at hload)) hbefore

/-! ## Loads that the store does not precede -/

theorem mem_machineAt {α : Type} {d : Driver α} {st : ExecState α}
    (hstore : OnlyStore f gep u value) :
    ∀ k, k ≤ (f.block st.block).body.length → (u.1 = st.block → k ≤ u.2) →
      (f.machineAt d st k).mem gep = st.machine.mem gep := by
  intro k
  induction k with
  | zero =>
      intro _ _
      rfl
  | succ k ih =>
      intro hk hu
      obtain ⟨i, hi⟩ := exists_at (Nat.lt_of_succ_le hk)
      rw [machineAt_succ hi, Instr.mem_exec, ih (by omega) (fun h => Nat.le_of_succ_le (hu h))]
      intro v hv
      have hplace := hstore.2 _ v (hv ▸ hi)
      have hle := hu (by rw [← hplace])
      rw [← hplace] at hle
      exact Nat.not_succ_le_self k hle

/-- Before the store the slot holds what it held at the beginning. -/
theorem mem_run {α : Type} {d : Driver α} {mem : ℕ → Option α} {n : ℕ} {st : ExecState α}
    (hstore : OnlyStore f gep u value) (hrun : f.run d mem n = some st) (hu : u.1 ∉ st.past) :
    st.machine.mem gep = mem gep := by
  induction n generalizing st with
  | zero =>
      obtain rfl := Option.some.inj hrun
      rfl
  | succ n ih =>
      obtain ⟨st₀, hrun₀, hnext⟩ := run_succ hrun
      obtain ⟨hpast, -, hmachine⟩ := next_eq_some hnext
      rw [hpast, List.mem_cons, not_or] at hu
      rw [hmachine]
      change (f.finish d st₀).mem gep = _
      rw [mem_finish, mem_machineAt hstore _ (Nat.le_refl _) (fun h => absurd h hu.1),
        ih hrun₀ hu.2]

/-- There is a path to the load on which the store does not come first. -/
theorem exists_path_of_not_before {l : ℕ × ℕ} (hl : f.cfg.Reachable l.1)
    (h : ¬f.cfg.Before (pointOf u) (pointOf l)) :
    ∃ π, f.cfg.Path (l.1 :: π) ∧ u.1 ∉ π ∧ (u.1 = l.1 → l.2 ≤ u.2) := by
  by_cases hblock : u.1 = l.1
  · obtain ⟨π, hπ, hfresh⟩ := hl.exists_fresh
    refine ⟨π, hπ, hblock ▸ hfresh, fun _ => ?_⟩
    by_contra hlt
    exact h (.inr ⟨hblock, by dsimp only [pointOf]; omega⟩)
  · have hdom : ¬f.cfg.Dom u.1 l.1 := fun hdom => h (.inl ⟨hdom, hblock⟩)
    simp only [Cfg.Dom, not_forall] at hdom
    obtain ⟨π, hπ, hnot⟩ := hdom
    exact ⟨π, hπ, fun hu => hnot (List.mem_cons_of_mem _ hu), fun h => absurd h hblock⟩

/-- A constant or an argument in the place of such a load is wrong. -/
theorem not_right_of_not_before (hstore : OnlyStore f gep u value)
    (hglobal : value.isGlobal = true) {l : ℕ × ℕ} {id : ℕ}
    (hl : f.at l = some (.load id gep)) (hreach : f.cfg.Reachable l.1)
    (h : ¬f.cfg.Before (pointOf u) (pointOf l)) : ¬Right f gep (id, value) := by
  intro hright
  obtain ⟨π, hπ, hu, hle⟩ := exists_path_of_not_before hreach h
  obtain ⟨edge, hedge⟩ := exists_run (α := Bool) hπ
  let d : Driver Bool := ⟨fun _ => false, fun _ => none, edge⟩
  obtain ⟨st, hrun, hpath⟩ := hedge d (fun _ => some true) (fun _ _ => rfl)
  obtain ⟨hblock, rfl⟩ : st.block = l.1 ∧ st.past = π := by simpa [ExecState.path] using hpath
  have hload : f.at (st.block, l.2) = some (.load id gep) := by rwa [hblock]
  have heq := hright Bool d _ _ st l.2 hrun hload
  rw [mem_machineAt hstore l.2 (Nat.le_of_lt (lt_length_of_at hload))
    (fun h => hle (h.trans hblock)), mem_run hstore hrun hu] at heq
  cases value with
  | name n => exact absurd hglobal (by simp [Operand.isGlobal])
  | global c => exact absurd heq (by simp [Operand.eval, d])
  | undef => exact absurd heq (by simp [Operand.eval])
  | poison => exact absurd heq (by simp [Operand.eval])

end SingleStore

end PollyInstrew.Server
