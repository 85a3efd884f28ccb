import PollyInstrew.Support.Dominance

/-!
# Functions in SSA form

The part of LLVM's intermediate representation that promotion of guest stack
slots looks at: PHI nodes, loads and stores through `getelementptr`
instructions with a constant address, and everything else as instructions with
operands and a result.  An execution is driven by the results of the other
instructions and by the edges it takes; what can be observed of it are the
operands that instructions and terminators receive.
-/

namespace PollyInstrew.Server

open PollyInstrew.Dominance

/-! ## Syntax -/

/-- Instructions of the original function, and the PHI node that promotion
inserts into a block for a slot. -/
inductive Name where
  | inst (id : ℕ)
  | phi (block gepNo : ℕ)
  deriving DecidableEq

/-- An operand; constants and arguments are `global`. -/
inductive Operand where
  | name (n : Name)
  | global (c : ℕ)
  | undef
  | poison
  deriving DecidableEq

structure PhiNode where
  name : Name
  incoming : List (Operand × ℕ)
  deriving DecidableEq

/-- Loads and stores through a `getelementptr`, and other instructions. -/
inductive Instr where
  | load (id gep : ℕ)
  | store (value : Operand) (gep : ℕ)
  | other (id : ℕ) (operands : List Operand)
  deriving DecidableEq

structure BasicBlock where
  phis : List PhiNode
  body : List Instr
  terminator : List Operand
  succs : List ℕ
  deriving DecidableEq

/-- A function; block `0` is its entry block. -/
structure Func where
  size : ℕ
  block : ℕ → BasicBlock

def Func.cfg (f : Func) : Cfg ℕ where
  entry := 0
  succ b c := c ∈ (f.block b).succs

def Instr.result : Instr → Option Name
  | .load id _ => some (.inst id)
  | .store _ _ => none
  | .other id _ => some (.inst id)

def Instr.operands : Instr → List Operand
  | .load _ _ => []
  | .store value _ => [value]
  | .other _ operands => operands

/-- The operand for a predecessor. -/
def PhiNode.value (p : PhiNode) (pred : ℕ) : Operand :=
  match p.incoming.find? fun e => e.2 = pred with
  | some e => e.1
  | none => .poison

/-! ## Executions -/

section Exec

variable {α : Type}

/-- What an execution depends on besides the function: the values of constants
and arguments, the results of other instructions and the edges taken, in the
order in which they are needed.  A value that is `none` is undefined. -/
structure Driver (α : Type) where
  global : ℕ → α
  result : ℕ → Option α
  edge : ℕ → ℕ

/-- The operands an instruction or a terminator has received. -/
inductive Label (α : Type) where
  | inst (id : ℕ) (operands : List (Option α))
  | term (block : ℕ) (operands : List (Option α))

abbrev Env (α : Type) := Name → Option α

/-- Results, the contents of the slots, and what was observed. -/
structure Machine (α : Type) where
  env : Env α
  mem : ℕ → Option α
  trace : List (Label α)

def Operand.eval (d : Driver α) (env : Env α) : Operand → Option α
  | .name n => env n
  | .global c => some (d.global c)
  | .undef => none
  | .poison => none

def Instr.exec (d : Driver α) (s : Machine α) : Instr → Machine α
  | .load id gep => { s with env := Function.update s.env (.inst id) (s.mem gep) }
  | .store value gep => { s with mem := Function.update s.mem gep (value.eval d s.env) }
  | .other id operands =>
      { s with
        env := Function.update s.env (.inst id) (d.result s.trace.length)
        trace := s.trace ++ [.inst id (operands.map (Operand.eval d s.env))] }

def execBody (d : Driver α) (s : Machine α) (body : List Instr) : Machine α :=
  body.foldl (Instr.exec d) s

/-- All PHI nodes of a block take their values at once. -/
def enter (d : Driver α) (phis : List PhiNode) (pred : ℕ) (s : Machine α) : Machine α :=
  { s with
    env := fun n =>
      match phis.find? fun p => p.name = n with
      | some p => (p.value pred).eval d s.env
      | none => s.env n }

/-- The execution after the PHI nodes of a block. -/
structure ExecState (α : Type) where
  block : ℕ
  past : List ℕ
  machine : Machine α

def ExecState.path (st : ExecState α) : List ℕ := st.block :: st.past

def Func.start (mem : ℕ → Option α) : ExecState α where
  block := 0
  past := []
  machine := ⟨fun _ => none, mem, []⟩

/-- The machine at the end of the block. -/
def Func.finish (f : Func) (d : Driver α) (st : ExecState α) : Machine α :=
  let s := execBody d st.machine (f.block st.block).body
  { s with
    trace := s.trace ++
      [.term st.block ((f.block st.block).terminator.map (Operand.eval d s.env))] }

/-- Execution goes on in a successor, unless the block has none. -/
def Func.next (f : Func) (d : Driver α) (st : ExecState α) : Option (ExecState α) :=
  match (f.block st.block).succs[d.edge st.past.length]? with
  | none => none
  | some c =>
      some
        { block := c
          past := st.block :: st.past
          machine := enter d (f.block c).phis st.block (f.finish d st) }

def Func.run (f : Func) (d : Driver α) (mem : ℕ → Option α) : ℕ → Option (ExecState α)
  | 0 => some (Func.start mem)
  | n + 1 => (f.run d mem n).bind (f.next d)

end Exec

/-! ## Definitions and uses -/

/-- `n` is defined at a point; PHI nodes are at point `0` of their block and the
`k`-th instruction of the body is at point `k + 1`. -/
inductive Func.Defines (f : Func) : Name → ℕ × ℕ → Prop
  | phi {b : ℕ} {p : PhiNode} (hp : p ∈ (f.block b).phis) : Func.Defines f p.name (b, 0)
  | body {b k : ℕ} {i : Instr} {n : Name} (hk : (f.block b).body[k]? = some i)
      (hn : i.result = some n) : Func.Defines f n (b, k + 1)

/-- The point of the terminator. -/
def Func.endOf (f : Func) (b : ℕ) : ℕ × ℕ := (b, (f.block b).body.length + 1)

/-- The operand is defined before the point. -/
def Func.Available (f : Func) (v : Operand) (point : ℕ × ℕ) : Prop :=
  ∀ n, v = .name n → ∃ p, f.Defines n p ∧ f.cfg.Before p point

/-- What LLVM's verifier checks. -/
structure Func.Ssa (f : Func) : Prop where
  size_pos : 0 < f.size
  succ_lt : ∀ b c, c ∈ (f.block b).succs → b < f.size ∧ c < f.size
  entry_pred : ∀ b, 0 ∉ (f.block b).succs
  phis_nodup : ∀ b, ((f.block b).phis.map PhiNode.name).Nodup
  unique : ∀ n p q, f.Defines n p → f.Defines n q → p = q
  use : ∀ b k i v, f.cfg.Reachable b → (f.block b).body[k]? = some i → v ∈ i.operands →
    f.Available v (b, k + 1)
  term : ∀ b v, f.cfg.Reachable b → v ∈ (f.block b).terminator → f.Available v (f.endOf b)
  incoming : ∀ b p a, p ∈ (f.block b).phis →
    (p.incoming.map Prod.snd).count a = (f.block a).succs.count b
  phi_use : ∀ b p e, p ∈ (f.block b).phis → e ∈ p.incoming → f.cfg.Reachable e.2 →
    f.Available e.1 (f.endOf e.2)

end PollyInstrew.Server
