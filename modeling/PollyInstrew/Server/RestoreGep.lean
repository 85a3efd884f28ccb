import Mathlib.Data.BitVec
import PollyInstrew.Support.LinearForm

/-!
# Restoring array accesses

`GEPRestorePass` takes the address of an access apart.  A breadth-first walk over the
address expression collects a base, strides and indices in the order it meets them; the
strides become the dimensions of an array type, and a new `getelementptr` goes from the
base through that type with the indices.
-/

namespace PollyInstrew.Restore

open PollyInstrew.LinearForm

/-! ## Values -/

inductive Kind where
  | arg
  | load
  | phi
  | other
  deriving DecidableEq

/-- The operand of a `zext` or `sext` to 64 bits. -/
structure Narrow where
  width : ℕ
  isPhi : Bool
  name : ℕ
  deriving DecidableEq

/-- What the address arithmetic starts from: 64-bit values and extended narrow ones, by
`sext` if `signed` and by `zext` if not. -/
inductive Leaf where
  | wide (kind : Kind) (name : ℕ)
  | ext (signed : Bool) (source : Narrow)
  deriving DecidableEq

inductive Opcode where
  | add
  | sub
  | mul
  | udiv
  | sdiv
  | urem
  | srem
  | shl
  | lshr
  | ashr
  | and
  | or
  | xor
  deriving DecidableEq

inductive Value where
  | const (c : BitVec 64)
  | leaf (l : Leaf)
  | binary (op : Opcode) (a b : Value)
  | intToPtr (a : Value)
  deriving DecidableEq

structure Env where
  wide : Kind → ℕ → BitVec 64
  narrow : (source : Narrow) → BitVec source.width

def Env.leaf (env : Env) : Leaf → BitVec 64
  | .wide kind name => env.wide kind name
  | .ext false source => (env.narrow source).setWidth 64
  | .ext true source => (env.narrow source).signExtend 64

def Opcode.eval : Opcode → BitVec 64 → BitVec 64 → BitVec 64
  | .add, x, y => x + y
  | .sub, x, y => x - y
  | .mul, x, y => x * y
  | .udiv, x, y => x / y
  | .sdiv, x, y => x.sdiv y
  | .urem, x, y => x % y
  | .srem, x, y => x.srem y
  | .shl, x, y => x <<< y
  | .lshr, x, y => x >>> y
  | .ashr, x, y => x.sshiftRight' y
  | .and, x, y => x &&& y
  | .or, x, y => x ||| y
  | .xor, x, y => x ^^^ y

def Value.eval (env : Env) : Value → BitVec 64
  | .const c => c
  | .leaf l => env.leaf l
  | .binary op a b => op.eval (a.eval env) (b.eval env)
  | .intToPtr a => a.eval env

def Value.size : Value → ℕ
  | .const _ => 1
  | .leaf _ => 1
  | .binary _ a b => a.size + b.size + 1
  | .intToPtr a => a.size + 1

def Value.isArg : Value → Bool
  | .leaf (.wide .arg _) => true
  | _ => false

/-! ## Types and the addresses of `getelementptr` -/

inductive Ty where
  | int (bits : ℕ)
  | array (count : ℕ) (element : Ty)
  deriving DecidableEq

def intAllocSize (bits : ℕ) : ℕ :=
  if bits ≤ 8 then 1
  else if bits ≤ 16 then 2
  else if bits ≤ 32 then 4
  else if bits ≤ 64 then 8
  else (bits + 127) / 128 * 16

def Ty.allocSize : Ty → ℕ
  | .int bits => intAllocSize bits
  | .array count element => count * element.allocSize

/-- What the indices of a `getelementptr` count: the first one whole values of the type,
each further one the elements of the array that the one before has led to. -/
def Ty.strides : Ty → List ℕ
  | .int bits => [(Ty.int bits).allocSize]
  | .array count element => (Ty.array count element).allocSize :: element.strides

/-- `getelementptr iBits, (inttoptr pointer), index`; `first` if it is the first
instruction of its block. -/
structure Gep where
  first : Bool
  bits : ℕ
  pointer : Value
  index : Value
  deriving DecidableEq

def Gep.address (gep : Gep) (env : Env) : BitVec 64 :=
  gep.pointer.eval env + BitVec.ofNat 64 (Ty.int gep.bits).allocSize * gep.index.eval env

structure NewGep where
  ty : Ty
  base : Value
  indices : List Value
  deriving DecidableEq

def offset (env : Env) (indices : List Value) (strides : List ℕ) : BitVec 64 :=
  (List.zipWith (fun v stride => BitVec.ofNat 64 stride * v.eval env) indices strides).sum

def NewGep.address (new : NewGep) (env : Env) : BitVec 64 :=
  new.base.eval env + offset env new.indices new.ty.strides

/-! ## The walk -/

structure RestoreGep where
  elementBits : ℕ
  baseAddr : Option Value
  dimSize : List (BitVec 32)
  index : List Value
  deriving DecidableEq

/-- Failed assertions, a read of an empty queue, a division by zero, and a loop that has
not ended within the given number of iterations. -/
inductive Failure where
  | notPhi
  | wrongExpr
  | emptyQueue
  | running
  | baseAddrAnalysisFailed
  | phiIndexAnalysisFailed
  | unmatchIndexDimSize
  | bitWidth
  | byteSize
  | division
  deriving DecidableEq

def check (holds : Bool) (why : Failure) : Except Failure Unit :=
  if holds then .ok () else .error why

def RestoreGep.pushIndex (rg : RestoreGep) (v : Value) : RestoreGep :=
  { rg with index := rg.index ++ [v] }

def RestoreGep.setBase (rg : RestoreGep) (v : Value) : RestoreGep :=
  { rg with baseAddr := some v }

/-- The index of the lowest dimension, the access's own; of other kinds none is taken. -/
def lowestIndex (rg : RestoreGep) (v : Value) : Except Failure RestoreGep :=
  match v with
  | .leaf (.ext false source) =>
      if source.isPhi then .ok (rg.pushIndex v) else .error .notPhi
  | .leaf (.ext true _) => .ok (rg.pushIndex v)
  | .const _ => .ok (rg.pushIndex v)
  | .leaf (.wide .phi _) => .ok (rg.pushIndex v)
  | _ => .ok rg

inductive Walk where
  | done (rg : RestoreGep)
  | more (values : List Value) (rg : RestoreGep)

/-- The body of the loop for the value `v` just taken from the queue.  Every opcode
other than `add` counts as `mul`: the assertion is on a string. -/
def visit (v : Value) (values : List Value) (rg : RestoreGep) : Except Failure Walk :=
  match v with
  | .intToPtr a =>
      if a.isArg then .ok (.done (rg.setBase a))
      else .ok (.more (values ++ [a]) rg)
  | .binary op a (.const c) =>
      if op = .add then .ok (.more (values ++ [a]) (rg.setBase (.const c)))
      else .ok (.more (values ++ [a]) { rg with dimSize := rg.dimSize ++ [c.setWidth 32] })
  | .binary op a b =>
      if b.isArg ∧ op = .add then .ok (.more (values ++ [a]) (rg.setBase b))
      else .ok (.more (values ++ [a, b]) rg)
  | .leaf (.ext _ _) =>
      if values.isEmpty then .ok (.done (rg.pushIndex v))
      else .ok (.more values (rg.pushIndex v))
  | .leaf (.wide .load _) => .ok (.more values (rg.setBase v))
  | _ => .error .wrongExpr

def walk : ℕ → List Value → RestoreGep → Except Failure RestoreGep
  | 0, _, _ => .error .running
  | _ + 1, [], _ => .error .emptyQueue
  | fuel + 1, v :: values, rg =>
      match visit v values rg with
      | .error why => .error why
      | .ok (.done rg) => .ok rg
      | .ok (.more values rg) => walk fuel values rg

/-- `dimSize[i] /= dimSize[i-1]*ByteSize`, after `previous`, which is divided already. -/
def divideBy (byteSize : BitVec 32) :
    BitVec 32 → List (BitVec 32) → Except Failure (List (BitVec 32))
  | _, [] => .ok []
  | previous, d :: ds =>
      if previous * byteSize = 0 then .error .division
      else (divideBy byteSize (d / (previous * byteSize)) ds).map
        (d / (previous * byteSize) :: ·)

def dimensions (byteSize : BitVec 32) :
    List (BitVec 32) → Except Failure (List (BitVec 32))
  | [] => .ok []
  | d :: ds => (divideBy byteSize (d / byteSize) ds).map (d / byteSize :: ·)

def analyzeDimensions (rg : RestoreGep) : Except Failure RestoreGep :=
  if rg.dimSize.isEmpty then .ok rg
  else do
    check (rg.elementBits % 8 = 0) .bitWidth
    check (rg.elementBits / 8 ≠ 0) .byteSize
    let dims ← dimensions (BitVec.ofNat 32 (rg.elementBits / 8)) rg.dimSize
    return { rg with dimSize := dims }

def analyzeAddrIndex (gep : Gep) : Except Failure RestoreGep := do
  let rg ← lowestIndex ⟨gep.bits, none, [], []⟩ gep.index
  let rg ← walk (gep.pointer.size + 2) [.intToPtr gep.pointer] rg
  check rg.baseAddr.isSome .baseAddrAnalysisFailed
  check (!rg.index.isEmpty) .phiIndexAnalysisFailed
  check (rg.dimSize.length + 1 = rg.index.length) .unmatchIndexDimSize
  analyzeDimensions rg

/-! ## The new instruction -/

/-- `case 8` takes 32 bits, and `case 128` runs on into the default. -/
def eleType (bits : ℕ) : Ty :=
  match bits with
  | 8 => .int 32
  | 16 => .int 16
  | 32 => .int 32
  | 64 => .int 64
  | _ => .int 64

def arrayType (element : Ty) (dimSize : List (BitVec 32)) : Ty :=
  dimSize.foldl (fun ty d => .array d.toNat ty) element

def insertNewGEP (rg : RestoreGep) (base : Value) : NewGep :=
  { ty := arrayType (eleType rg.elementBits) rg.dimSize
    base := base
    indices := rg.index.reverse }

/-- Whether `run` restores the access. -/
def selects (gep : Gep) : Bool :=
  !gep.first && match gep.pointer with
    | .binary _ _ _ => true
    | .leaf (.wide .arg i) => i ≠ 5
    | _ => false

def restore (gep : Gep) : Except Failure NewGep := do
  let rg ← analyzeAddrIndex gep
  match rg.baseAddr with
  | none => .error .baseAddrAnalysisFailed
  | some base => .ok (insertNewGEP rg base)

/-! ## What the walk collects -/

def Value.isAtom : Value → Bool
  | .const _ => true
  | .leaf _ => true
  | _ => false

theorem isAtom_of_isArg {v : Value} (h : v.isArg) : v.isAtom := by
  cases v with
  | const c => rfl
  | leaf l => rfl
  | binary op a b => cases h
  | intToPtr a => cases h

structure Atomic (rg : RestoreGep) : Prop where
  base : ∀ v, rg.baseAddr = some v → v.isAtom
  index : ∀ v ∈ rg.index, v.isAtom

theorem Atomic.setBase {rg : RestoreGep} (h : Atomic rg) {v : Value} (hv : v.isAtom) :
    Atomic (rg.setBase v) := by
  refine ⟨?_, h.index⟩
  intro b hb
  obtain rfl := Option.some.inj hb
  exact hv

theorem Atomic.pushIndex {rg : RestoreGep} (h : Atomic rg) {v : Value} (hv : v.isAtom) :
    Atomic (rg.pushIndex v) := by
  refine ⟨h.base, ?_⟩
  intro b hb
  obtain hb | hb := List.mem_append.mp hb
  · exact h.index b hb
  · obtain rfl := List.mem_singleton.mp hb
    exact hv

/-- The values that the walk pushes when it visits one. -/
def Value.pushed : Value → List Value
  | .intToPtr a => [a]
  | .binary _ a (.const _) => [a]
  | .binary op a b => if b.isArg ∧ op = .add then [a] else [a, b]
  | _ => []

/-- The walk ends at this value, whatever is left in the queue. -/
def Value.stops : Value → Bool
  | .intToPtr a => a.isArg
  | _ => false

def Value.isLoad : Value → Bool
  | .leaf (.wide .load _) => true
  | _ => false

/-- All that one iteration can do. -/
inductive Visit (v : Value) (values : List Value) (rg : RestoreGep) :
    Except Failure Walk → Prop
  | stop (base : Value) (hv : v.stops) (hbase : base.isAtom) :
      Visit v values rg (.ok (.done (rg.setBase base)))
  | last (signed : Bool) (source : Narrow) (hv : v = .leaf (.ext signed source))
      (hempty : values = []) : Visit v values rg (.ok (.done (rg.pushIndex v)))
  | more (rg' : RestoreGep) (hv : v.stops = false) (hrg : Atomic rg → Atomic rg')
      (hnone : v.pushed = [] → v.isLoad ∨ values ≠ []) :
      Visit v values rg (.ok (.more (values ++ v.pushed) rg'))
  | wrong : Visit v values rg (.error .wrongExpr)

theorem pushed_binary {op : Opcode} {a b : Value} (hb : ∀ c, b ≠ .const c) :
    (Value.binary op a b).pushed = if b.isArg ∧ op = .add then [a] else [a, b] := by
  cases b with
  | const c => exact absurd rfl (hb c)
  | leaf l => rfl
  | binary op' a' b' => rfl
  | intToPtr a' => rfl

theorem visit_spec (v : Value) (values : List Value) (rg : RestoreGep) :
    Visit v values rg (visit v values rg) := by
  fun_cases visit v values rg
  case case1 a harg => exact .stop a harg (isAtom_of_isArg harg)
  case case2 a harg => exact .more rg (by simpa [Value.stops] using harg) id nofun
  case case3 a c => exact .more _ rfl (fun h => h.setBase rfl) nofun
  case case4 op a c hop => exact .more _ rfl (fun h => ⟨h.base, h.index⟩) nofun
  case case5 op a b hb harg =>
      have hpushed : (Value.binary op a b).pushed = [a] := by
        rw [pushed_binary hb, if_pos harg]
      rw [← hpushed]
      exact .more _ rfl (fun h => h.setBase (isAtom_of_isArg harg.1)) (by simp [hpushed])
  case case6 op a b hb harg =>
      have hpushed : (Value.binary op a b).pushed = [a, b] := by
        rw [pushed_binary hb, if_neg harg]
      rw [← hpushed]
      exact .more _ rfl id (by simp [hpushed])
  case case7 signed source hempty => exact .last signed source rfl (List.isEmpty_iff.mp hempty)
  case case8 signed source hempty =>
      have hmore : Visit (.leaf (.ext signed source)) values rg
          (.ok (.more (values ++ []) (rg.pushIndex (.leaf (.ext signed source))))) :=
        .more _ rfl (fun h => h.pushIndex rfl) (fun _ => .inr (by simpa using hempty))
      rwa [List.append_nil] at hmore
  case case9 name =>
      have hmore : Visit (.leaf (.wide .load name)) values rg
          (.ok (.more (values ++ []) (rg.setBase (.leaf (.wide .load name))))) :=
        .more _ rfl (fun h => h.setBase rfl) (fun _ => .inl rfl)
      rwa [List.append_nil] at hmore
  case case10 => exact .wrong

/-- What the walk collects has no operands of its own. -/
theorem walk_atomic : ∀ fuel values rg rg', Atomic rg → walk fuel values rg = .ok rg' →
    Atomic rg' := by
  intro fuel
  induction fuel with
  | zero =>
      intro values rg rg' _ h
      cases h
  | succ fuel ih =>
      intro values rg rg' hrg h
      cases values with
      | nil => cases h
      | cons v values =>
          have hvisit := visit_spec v values rg
          rw [walk] at h
          generalize visit v values rg = r at h hvisit
          cases hvisit with
          | stop base hv hbase =>
              cases h
              exact hrg.setBase hbase
          | last signed source hv hempty =>
              cases h
              subst hv
              exact hrg.pushIndex rfl
          | more rg₁ hv hatomic hnone => exact ih _ _ _ (hatomic hrg) h
          | wrong => cases h

/-! ## The order of the walk -/

/-- The value and all that the walk visits because of it. -/
def Value.nodes : Value → List Value
  | .intToPtr a => .intToPtr a :: a.nodes
  | .binary op a (.const c) => .binary op a (.const c) :: a.nodes
  | .binary op a b =>
      if b.isArg ∧ op = .add then .binary op a b :: a.nodes
      else .binary op a b :: (a.nodes ++ b.nodes)
  | .const c => [.const c]
  | .leaf l => [.leaf l]

/-- Of two values in the queue the walk ends with what the deeper one holds, and with
what the second holds if they are equally deep. -/
def later (x y : ℕ × Value) : ℕ × Value :=
  if x.1 ≤ y.1 then y else x

def deeper (x : ℕ × Value) : ℕ × Value := (x.1 + 1, x.2)

/-- How deep the walk goes below the value, and where it ends: at the rightmost of the
deepest values. -/
def Value.last : Value → ℕ × Value
  | .intToPtr a => deeper a.last
  | .binary _ a (.const _) => deeper a.last
  | .binary op a b =>
      if b.isArg ∧ op = .add then deeper a.last else deeper (later a.last b.last)
  | .const c => (0, .const c)
  | .leaf l => (0, .leaf l)

theorem later_assoc (x y z : ℕ × Value) : later (later x y) z = later x (later y z) := by
  unfold later
  split_ifs <;> first | rfl | omega

/-- Where the walk ends with `x` at the front of the queue and `values` behind it. -/
def lastOf (x : ℕ × Value) (values : List Value) : ℕ × Value :=
  values.foldl (fun y v => later y v.last) x

theorem lastOf_later (x y : ℕ × Value) (values : List Value) :
    lastOf (later x y) values = later x (lastOf y values) := by
  induction values generalizing y with
  | nil => rfl
  | cons v values ih => rw [lastOf, List.foldl_cons, later_assoc, ← lastOf, ih]; rfl

theorem lastOf_append (x : ℕ × Value) (values values' : List Value) :
    lastOf x (values ++ values') = lastOf (lastOf x values) values' := by
  rw [lastOf, List.foldl_append, ← lastOf, ← lastOf]

theorem later_deeper (x y : ℕ × Value) : (later (deeper x) y).2 = (later y x).2 := by
  unfold later deeper
  split_ifs <;> first | rfl | omega

/-- A value pushes nothing, one operand or both. -/
inductive Pushes (v : Value) : Prop
  | none (hpushed : v.pushed = []) (hnodes : v.nodes = [v]) (hlast : v.last = (0, v))
      (hsize : v.size = 1)
  | one (a : Value) (hpushed : v.pushed = [a]) (hnodes : v.nodes = v :: a.nodes)
      (hlast : v.last = deeper a.last) (hsize : a.size < v.size)
  | both (a b : Value) (hpushed : v.pushed = [a, b])
      (hnodes : v.nodes = v :: (a.nodes ++ b.nodes))
      (hlast : v.last = deeper (later a.last b.last)) (hsize : a.size + b.size < v.size)

theorem Value.pushes (v : Value) : Pushes v := by
  cases v with
  | const c => exact .none rfl rfl rfl rfl
  | leaf l => exact .none rfl rfl rfl rfl
  | intToPtr a => exact .one a rfl rfl rfl (Nat.lt_succ_self _)
  | binary op a b =>
      have hsize : a.size + b.size < (Value.binary op a b).size := Nat.lt_succ_self _
      have hone : a.size < (Value.binary op a b).size := by omega
      by_cases hb : b.isArg ∧ op = .add
      · cases b with
        | const c => exact .one a rfl rfl rfl hone
        | leaf l => exact .one a (if_pos hb) (if_pos hb) (if_pos hb) hone
        | binary op' a' b' => cases hb.1
        | intToPtr a' => cases hb.1
      · cases b with
        | const c => exact .one a rfl rfl rfl hone
        | leaf l => exact .both a _ (if_neg hb) (if_neg hb) (if_neg hb) hsize
        | binary op' a' b' => exact .both a (.binary op' a' b') rfl rfl rfl hsize
        | intToPtr a' => exact .both a (.intToPtr a') rfl rfl rfl hsize

/-- Visiting a value leaves the end of the walk where it is. -/
theorem lastOf_step (v w : Value) (values : List Value) :
    (lastOf v.last (w :: values)).2 = (lastOf w.last (values ++ v.pushed)).2 := by
  have hcons : lastOf v.last (w :: values) = later v.last (lastOf w.last values) := by
    rw [← lastOf_later]
    rfl
  rw [hcons, lastOf_append]
  generalize lastOf w.last values = y
  cases v.pushes with
  | none hpushed hnodes hlast hsize =>
      rw [hpushed, hlast, later, if_pos (Nat.zero_le _)]
      rfl
  | one a hpushed hnodes hlast hsize =>
      rw [hpushed, hlast, later_deeper]
      rfl
  | both a b hpushed hnodes hlast hsize =>
      rw [hpushed, hlast, later_deeper, ← later_assoc]
      rfl

theorem last_of_pushed_cons {v a : Value} {values : List Value}
    (h : v.pushed = a :: values) : v.last.2 = (lastOf a.last values).2 := by
  cases v.pushes with
  | none hpushed hnodes hlast hsize =>
      rw [hpushed] at h
      cases h
  | one a' hpushed hnodes hlast hsize =>
      rw [hpushed] at h
      cases h
      rw [hlast]
      rfl
  | both a' b hpushed hnodes hlast hsize =>
      rw [hpushed] at h
      cases h
      rw [hlast]
      rfl

theorem last_of_pushed_nil {v : Value} (h : v.pushed = []) : v.last.2 = v := by
  cases v.pushes with
  | none hpushed hnodes hlast hsize => rw [hlast]
  | one a hpushed hnodes hlast hsize =>
      rw [hpushed] at h
      cases h
  | both a b hpushed hnodes hlast hsize =>
      rw [hpushed] at h
      cases h

/-- The next queue has the same end. -/
theorem lastOf_next {v a : Value} {values rest : List Value}
    (h : values ++ v.pushed = a :: rest) :
    (lastOf v.last values).2 = (lastOf a.last rest).2 := by
  cases values with
  | nil => exact last_of_pushed_cons h
  | cons w values =>
      obtain ⟨rfl, rfl⟩ := List.cons.inj h
      exact lastOf_step v w values

theorem nodes_eq (v : Value) : v.nodes = v :: v.pushed.flatMap Value.nodes := by
  cases v.pushes with
  | none hpushed hnodes hlast hsize => rw [hnodes, hpushed, List.flatMap_nil]
  | one a hpushed hnodes hlast hsize => rw [hnodes, hpushed, List.flatMap_singleton]
  | both a b hpushed hnodes hlast hsize =>
      rw [hnodes, hpushed, List.flatMap_cons, List.flatMap_singleton]

/-- Some value that the walk would visit ends it. -/
def StopsIn (values : List Value) : Prop :=
  ∃ n ∈ values.flatMap Value.nodes, n.stops

theorem stopsIn_step {v : Value} (hv : v.stops = false) (values : List Value) :
    StopsIn (v :: values) ↔ StopsIn (values ++ v.pushed) := by
  rw [StopsIn, StopsIn, List.flatMap_cons, nodes_eq v, List.flatMap_append]
  constructor
  · rintro ⟨n, hn, hstops⟩
    rw [List.cons_append, List.mem_cons, List.mem_append] at hn
    obtain rfl | hn := hn
    · exact absurd hstops (by simp [hv])
    · exact ⟨n, List.mem_append.mpr hn.symm, hstops⟩
  · rintro ⟨n, hn, hstops⟩
    refine ⟨n, ?_, hstops⟩
    rw [List.cons_append]
    exact List.mem_cons_of_mem v (List.mem_append.mpr (List.mem_append.mp hn).symm)

/-! ## How the walk ends -/

/-- The nodes of all expressions in the queue. -/
def work (values : List Value) : ℕ :=
  (values.map Value.size).sum

theorem work_step (v : Value) (values : List Value) :
    work (values ++ v.pushed) < work (v :: values) := by
  have hpushed : work v.pushed < v.size := by
    cases v.pushes with
    | none hpushed hnodes hlast hsize => simp [work, hpushed, hsize]
    | one a hpushed hnodes hlast hsize => simpa [work, hpushed] using hsize
    | both a b hpushed hnodes hlast hsize => simpa [work, hpushed] using hsize
  rw [work, List.map_append, List.sum_append, work, List.map_cons, List.sum_cons]
  rw [work] at hpushed
  omega

/-- The loop leaves through a break, reads an empty queue or fails its assertion. -/
inductive WalkEnd (v : Value) (values : List Value) : Except Failure RestoreGep → Prop
  | breaks (rg : RestoreGep)
      (h : StopsIn (v :: values) ∨ (lastOf v.last values).2.isLoad = false) :
      WalkEnd v values (.ok rg)
  | emptyQueue (hstops : ¬StopsIn (v :: values)) (hlast : (lastOf v.last values).2.isLoad) :
      WalkEnd v values (.error .emptyQueue)
  | wrong : WalkEnd v values (.error .wrongExpr)

theorem WalkEnd.of_next {v a : Value} {values rest : List Value}
    {r : Except Failure RestoreGep} (hv : v.stops = false)
    (hnext : values ++ v.pushed = a :: rest) (h : WalkEnd a rest r) : WalkEnd v values r := by
  have hstops : StopsIn (v :: values) ↔ StopsIn (a :: rest) := by
    rw [← hnext]
    exact stopsIn_step hv values
  have hlast := lastOf_next hnext
  cases h with
  | breaks rg h => exact .breaks rg (by rwa [hstops, hlast])
  | emptyQueue hno hload => exact .emptyQueue (by rwa [hstops]) (by rwa [hlast])
  | wrong => exact .wrong

theorem walk_spec : ∀ fuel v values rg, work (v :: values) < fuel →
    WalkEnd v values (walk fuel (v :: values) rg) := by
  intro fuel
  induction fuel with
  | zero =>
      intro v values rg h
      exact absurd h (Nat.not_lt_zero _)
  | succ fuel ih =>
      intro v values rg h
      have hvisit := visit_spec v values rg
      rw [walk]
      generalize visit v values rg = r at hvisit
      cases hvisit with
      | stop base hv hbase =>
          exact .breaks _ (.inl ⟨v, by simp [nodes_eq v], hv⟩)
      | last signed source hv hempty =>
          subst hv hempty
          exact .breaks _ (.inr rfl)
      | wrong => exact .wrong
      | more rg₁ hv hatomic hnone =>
          have hwork : work (values ++ v.pushed) < fuel := by
            have hstep := work_step v values
            omega
          dsimp only
          cases hnext : values ++ v.pushed with
          | cons a rest =>
              rw [hnext] at hwork
              exact (ih a rest rg₁ hwork).of_next hv hnext
          | nil =>
              obtain ⟨rfl, hpushed⟩ := List.append_eq_nil_iff.mp hnext
              have hload : v.isLoad := (hnone hpushed).resolve_right (· rfl)
              obtain ⟨fuel, rfl⟩ := Nat.exists_eq_succ_of_ne_zero (Nat.ne_zero_of_lt hwork)
              refine .emptyQueue ?_ ?_
              · rw [stopsIn_step hv, hnext]
                rintro ⟨n, hn, -⟩
                cases hn
              · rw [lastOf, List.foldl_nil, last_of_pushed_nil hpushed]
                exact hload

/-- Unless its assertion fails, the loop over the address `inttoptr e` leaves through a
break, without a read of an empty queue, exactly if it meets the `inttoptr` of an argument
or the last value of its breadth-first order is no load. -/
theorem walk_breaks_iff (e : Value) (rg : RestoreGep)
    (hwrong : walk (e.size + 2) [.intToPtr e] rg ≠ .error .wrongExpr) :
    (∃ rg', walk (e.size + 2) [.intToPtr e] rg = .ok rg') ↔
      (∃ n ∈ (Value.intToPtr e).nodes, n.stops) ∨ e.last.2.isLoad = false := by
  have hfuel : work [.intToPtr e] < e.size + 2 := by
    rw [work, List.map_singleton, List.sum_singleton, Value.size]
    exact Nat.lt_succ_self _
  have hend := walk_spec (e.size + 2) (.intToPtr e) [] rg hfuel
  have hlast : (lastOf (Value.intToPtr e).last []).2 = e.last.2 := rfl
  have hstops : StopsIn [.intToPtr e] ↔ ∃ n ∈ (Value.intToPtr e).nodes, n.stops := by
    rw [StopsIn, List.flatMap_singleton]
  generalize walk (e.size + 2) [.intToPtr e] rg = r at hwrong hend
  cases hend with
  | breaks rg' h =>
      refine ⟨fun _ => ?_, fun _ => ⟨rg', rfl⟩⟩
      rwa [hlast, hstops] at h
  | emptyQueue hno hload =>
      rw [hstops] at hno
      rw [hlast] at hload
      constructor
      · rintro ⟨rg', h⟩
        cases h
      · rintro (h | h)
        · exact absurd h hno
        · rw [hload] at h
          cases h
  | wrong => exact absurd rfl hwrong

def phiExt (name : ℕ) : Value := .leaf (.ext false ⟨32, true, name⟩)

/-- `a[i][j]` for the array at the first argument. -/
def matrixAccess (bits : ℕ) (stride : BitVec 64) : Gep where
  first := false
  bits := bits
  pointer := .binary .add (.binary .mul (phiExt 0) (.const stride)) (.leaf (.wide .arg 0))
  index := phiExt 1

theorem walk_breaks_matrixAccess :
    ∃ rg', walk ((matrixAccess 32 20).pointer.size + 2)
      [.intToPtr (matrixAccess 32 20).pointer] ⟨32, none, [], []⟩ = .ok rg' := by
  refine (walk_breaks_iff _ _ ?_).mpr (.inr rfl)
  intro h
  change Except.ok _ = Except.error _ at h
  cases h

/-- `p->a[i]` for a pointer from memory. -/
def fieldAccess : Gep where
  first := false
  bits := 32
  pointer := .binary .add (.leaf (.wide .load 0)) (.const 8)
  index := phiExt 0

theorem walk_fieldAccess_emptyQueue :
    selects fieldAccess = true ∧
      (∀ rg, walk (fieldAccess.pointer.size + 2) [.intToPtr fieldAccess.pointer] rg =
        .error .emptyQueue) ∧
      analyzeAddrIndex fieldAccess = .error .emptyQueue :=
  ⟨rfl, fun _ => rfl, rfl⟩

end PollyInstrew.Restore
