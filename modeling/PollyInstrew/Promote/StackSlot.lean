import Mathlib.Data.BitVec
import PollyInstrew.Promote.Candidates
import PollyInstrew.Server.CallConv

/-!
# What an accepted `getelementptr` points to

`isLocalGEP` follows an address back to argument 5 of the function.  It looks neither
at the indices nor at the calling convention, so the address is one fixed stack slot
exactly if the indices add up to one offset whenever they are computed and argument 5
is at a fixed distance from the argument that carries the guest stack pointer.
-/

namespace PollyInstrew.Promote

open PollyInstrew.Server

/-! ## Executions -/

/-- The meaning of everything but addresses: how values are represented, memory, the
instructions that are `other`, and the successor a terminator selects. -/
structure Semantics (α M : Type) where
  word : α → BitVec 64
  ptr : BitVec 64 → α
  word_ptr : ∀ w, word (ptr w) = w
  const : Ty → ℤ → α
  undef : Ty → α
  load : Ty → M → BitVec 64 → α
  store : M → BitVec 64 → α → M
  other : ℕ → List α → M → α × M
  branch : ℕ → List α → M → ℕ

/-- A load or store through a `getelementptr`: the address, and what the indices of the
`getelementptr` and of the one under it had added up to. -/
structure Access where
  gep : ℕ
  addr : BitVec 64
  offset : BitVec 64
  deriving DecidableEq

structure Machine (α M : Type) where
  block : ℕ
  index : ℕ
  env : ℕ → Option α
  offset : ℕ → BitVec 64
  mem : M
  trace : List Access

def Machine.init {α M : Type} (mem : M) : Machine α M :=
  ⟨0, 0, fun _ => none, fun _ => 0, mem, []⟩

section Execution

variable {α M : Type} (sem : Semantics α M) (fn : Func) (args : ℕ → α)

def Value.eval (env : ℕ → Option α) : Value → Option α
  | .inst id => env id
  | .arg n => some (args n)
  | .const ty c => some (sem.const ty c)
  | .undef ty => some (sem.undef ty)
  | .poison ty => some (sem.undef ty)

/-- What an index adds to the address. -/
def Index.eval (env : ℕ → Option α) : Index → Option (BitVec 64)
  | .element size value => do
      let v ← value.eval sem args env
      return BitVec.ofNat 64 size * sem.word v
  | .field _ offset => some (BitVec.ofNat 64 offset)

/-- The sum of what the indices add. -/
def indexSum (env : ℕ → Option α) (indices : List Index) : Option (BitVec 64) := do
  let offs ← indices.mapM (Index.eval sem args env)
  return offs.sum

/-- The offset of a `getelementptr` that serves as a base. -/
def baseOffset (offset : ℕ → BitVec 64) : Value → BitVec 64
  | .inst id => if (fn.inst? (.inst id)).any Op.isGep then offset id else 0
  | _ => 0

def Machine.set (m : Machine α M) (id : ℕ) (v : α) : Machine α M :=
  { m with env := Function.update m.env id (some v) }

theorem Machine.set_self (m : Machine α M) (id : ℕ) (v : α) : (m.set id v).env id = some v := by
  simp [Machine.set]

theorem Machine.set_of_ne (m : Machine α M) {id j : ℕ} (h : j ≠ id) (v : α) :
    (m.set id v).env j = m.env j := by
  simp [Machine.set, h]

/-- Loads and stores through an instruction are recorded. -/
def Machine.record (m : Machine α M) (p : Value) (addr : BitVec 64) : Machine α M :=
  match p with
  | .inst gep => { m with trace := m.trace ++ [⟨gep, addr, m.offset gep⟩] }
  | _ => m

/-- An instruction; PHI nodes have their value from the jump to the block. -/
def Machine.exec (m : Machine α M) (i : Inst) : Option (Machine α M) :=
  match i.op with
  | .load ty p _ => do
      let a ← p.eval sem args m.env
      return (m.record p (sem.word a)).set i.id (sem.load ty m.mem (sem.word a))
  | .store value p _ => do
      let v ← value.eval sem args m.env
      let a ← p.eval sem args m.env
      return { m.record p (sem.word a) with mem := sem.store m.mem (sem.word a) v }
  | .getElementPtr _ base indices => do
      let a ← base.eval sem args m.env
      let sum ← indexSum sem args m.env indices
      return { m.set i.id (sem.ptr (sem.word a + sum)) with
        offset := Function.update m.offset i.id (baseOffset fn m.offset base + sum) }
  | .intToPtr _ value => do
      let v ← value.eval sem args m.env
      return m.set i.id (sem.ptr (sem.word v))
  | .bitCast _ value => do
      let v ← value.eval sem args m.env
      return m.set i.id v
  | .phi _ _ => some m
  | op => do
      let vs ← op.operands.mapM (Value.eval sem args m.env)
      let r := sem.other i.id vs m.mem
      return { m.set i.id r.1 with mem := r.2 }

/-- The values of the PHI nodes of a block, all taken from before the jump. -/
def phiValues (env : ℕ → Option α) (pred : ℕ) : List Inst → Option (ℕ → Option α)
  | [] => some env
  | i :: insts =>
      match i.op with
      | .phi _ incoming => do
          let e ← incoming.find? fun e => e.2 = pred
          let v ← e.1.eval sem args env
          let env' ← phiValues env pred insts
          return Function.update env' i.id (some v)
      | _ => some env

def Machine.jump (m : Machine α M) : Option (Machine α M) := do
  let last := ((fn.block m.block).insts.getLast?.map fun i => i.op.operands).getD []
  let vs ← last.mapM (Value.eval sem args m.env)
  let c ← (fn.block m.block).succs[sem.branch m.block vs m.mem]?
  let env ← phiValues sem args m.env m.block (fn.block c).insts
  return { m with block := c, index := 0, env := env }

def Machine.step (m : Machine α M) : Option (Machine α M) :=
  match (fn.block m.block).insts[m.index]? with
  | some i => (m.exec sem fn args i).map fun m' => { m' with index := m.index + 1 }
  | none => m.jump sem fn args

def Machine.steps : ℕ → Machine α M → Option (Machine α M)
  | 0, m => some m
  | n + 1, m => (m.step sem fn args).bind (Machine.steps n)

/-- The accesses of all executions with these arguments. -/
def Accesses (a : Access) : Prop :=
  ∃ mem n m, Machine.steps sem fn args n (.init mem) = some m ∧ a ∈ m.trace

end Execution

/-! ## Fixed slots -/

/-- All accesses through the address are to one constant offset from the argument that
carries the guest stack pointer. -/
def FixedSlot {α M : Type} (sem : Semantics α M) (cc : CallConv) (fn : Func) (gep : ℕ) : Prop :=
  ∃ c, ∀ args a, Accesses sem fn args a → a.gep = gep →
    ∃ n, cc.spArg = some n ∧ a.addr = sem.word (args n) + c

/-- At every access the indices and the distance of argument 5 from the guest stack
pointer add up to the same number. -/
def SteadyOffset {α M : Type} (sem : Semantics α M) (cc : CallConv) (fn : Func) (gep : ℕ) :
    Prop :=
  ∃ c, ∀ args a, Accesses sem fn args a → a.gep = gep →
    ∃ n, cc.spArg = some n ∧ a.offset + (sem.word (args 5) - sem.word (args n)) = c

/-! ## Constant indices -/

def Index.constant {α M : Type} (sem : Semantics α M) : Index → Option (BitVec 64)
  | .element size (.const ty c) => some (BitVec.ofNat 64 size * sem.word (sem.const ty c))
  | .element _ _ => none
  | .field _ offset => some (BitVec.ofNat 64 offset)

/-- What constant indices add up to. -/
def constantSum {α M : Type} (sem : Semantics α M) (indices : List Index) :
    Option (BitVec 64) := do
  let offs ← indices.mapM (Index.constant sem)
  return offs.sum

/-- What the constant indices of a base add up to. -/
def constantBase {α M : Type} (sem : Semantics α M) (fn : Func) (base : Value) :
    Option (BitVec 64) :=
  match fn.inst? base with
  | some (.getElementPtr _ _ indices) => constantSum sem indices
  | _ => some 0

/-- What the indices of an accepted `getelementptr` and of the one under it add up to, if
they are constants. -/
def constantOffset {α M : Type} (sem : Semantics α M) (fn : Func) (id : ℕ) :
    Option (BitVec 64) :=
  match fn.inst? (.inst id) with
  | some (.getElementPtr _ base indices) => do
      let under ← constantBase sem fn base
      let sum ← constantSum sem indices
      return under + sum
  | _ => none

section Constants

variable {α M : Type} {sem : Semantics α M} {fn : Func} {args : ℕ → α}

theorem indexSum_of_constant {indices : List Index} {c : BitVec 64}
    (h : constantSum sem indices = some c) (env : ℕ → Option α) :
    indexSum sem args env indices = some c := by
  have heval : ∀ (indices : List Index) offs, indices.mapM (Index.constant sem) = some offs →
      indices.mapM (Index.eval sem args env) = some offs := by
    intro indices
    induction indices with
    | nil => exact fun offs h => h
    | cons index indices ih =>
        intro offs h
        rw [List.mapM_cons] at h ⊢
        obtain ⟨o, ho, h⟩ := Option.bind_eq_some_iff.mp h
        obtain ⟨os, hos, h⟩ := Option.bind_eq_some_iff.mp h
        have hindex : Index.eval sem args env index = some o := by
          cases index with
          | element size value =>
              cases value with
              | const ty c => exact ho
              | _ => exact absurd ho (by simp [Index.constant])
          | field number offset => exact ho
        rw [hindex, ih os hos]
        exact h
  obtain ⟨offs, hoffs, h⟩ := Option.bind_eq_some_iff.mp h
  rw [indexSum, heval indices offs hoffs]
  exact h

end Constants

/-! ## Addresses -/

/-- The instruction is a `getelementptr` that `isLocalGEP` accepts. -/
def LocalGep (fn : Func) (id : ℕ) : Prop :=
  ∃ ty base indices, fn.inst? (.inst id) = some (.getElementPtr ty base indices) ∧
    isLocalGEP fn base = true

theorem LocalGep.of_promotable {fn : Func} {gep : ℕ} (h : isGEPPromotable fn gep = true) :
    LocalGep fn gep := by
  rw [isGEPPromotable] at h
  split at h
  · rename_i ty base indices heq
    rw [Bool.and_eq_true, Bool.and_eq_true] at h
    exact ⟨ty, base, indices, heq, h.1.1⟩
  · exact absurd h (by simp)

theorem isArgPtr_cases {fn : Func} {v : Value} (h : isArgPtr fn v = true) :
    ∃ id ty, v = .inst id ∧ fn.inst? (.inst id) = some (.intToPtr ty (.arg 5)) := by
  rw [isArgPtr] at h
  split at h
  · rename_i ty value heq
    have hvalue : value = .arg 5 := by simpa using h
    subst hvalue
    cases v with
    | inst id => exact ⟨id, ty, rfl, heq⟩
    | _ => exact absurd heq (by simp [Func.inst?])
  · exact absurd h (by simp)

theorem isArgPtr_inst? {fn : Func} {v : Value} (h : isArgPtr fn v = true) :
    ∃ ty, fn.inst? v = some (.intToPtr ty (.arg 5)) := by
  obtain ⟨id, ty, rfl, hid⟩ := isArgPtr_cases h
  exact ⟨ty, hid⟩

theorem LocalGep.of_isArgPtr {fn : Func} {id : ℕ} {ty : Ty} {base : Value} {indices : List Index}
    (hop : fn.inst? (.inst id) = some (.getElementPtr ty base indices))
    (h : isArgPtr fn base = true) : LocalGep fn id := by
  refine ⟨ty, base, indices, hop, ?_⟩
  obtain ⟨bty, hb⟩ := isArgPtr_inst? h
  rw [isLocalGEP, hb]
  exact h

/-- A base is argument 5 as a pointer, or a `getelementptr` on it. -/
theorem isLocalGEP_cases {fn : Func} {base : Value} (h : isLocalGEP fn base = true) :
    ∃ id, base = .inst id ∧
      ((∃ ty base' indices, fn.inst? (.inst id) = some (.getElementPtr ty base' indices) ∧
        isArgPtr fn base' = true) ∨ ∃ ty, fn.inst? (.inst id) = some (.intToPtr ty (.arg 5))) := by
  rw [isLocalGEP] at h
  split at h
  · rename_i ty base' indices heq
    cases base with
    | inst id => exact ⟨id, rfl, .inl ⟨ty, base', indices, heq, h⟩⟩
    | _ => exact absurd heq (by simp [Func.inst?])
  · obtain ⟨id, ty, rfl, hid⟩ := isArgPtr_cases h
    exact ⟨id, rfl, .inr ⟨ty, hid⟩⟩

section Addresses

variable {α M : Type} {sem : Semantics α M} {fn : Func} {args : ℕ → α} {m m' : Machine α M}

/-- Accepted addresses are argument 5 and what their indices have added up to, which is
known if these are constants. -/
structure SlotInv (sem : Semantics α M) (fn : Func) (args : ℕ → α) (m : Machine α M) : Prop where
  argPtr : ∀ id ty x, fn.inst? (.inst id) = some (.intToPtr ty (.arg 5)) → m.env id = some x →
    sem.word x = sem.word (args 5)
  gep : ∀ id x, LocalGep fn id → m.env id = some x →
    sem.word x = sem.word (args 5) + m.offset id ∧
      ∀ c, constantOffset sem fn id = some c → m.offset id = c
  trace : ∀ a ∈ m.trace, LocalGep fn a.gep → a.addr = sem.word (args 5) + a.offset ∧
    ∀ c, constantOffset sem fn a.gep = some c → a.offset = c

theorem slotInv_init (mem : M) : SlotInv sem fn args (.init mem) where
  argPtr _ _ _ _ h := absurd h (by simp [Machine.init])
  gep _ _ _ h := absurd h (by simp [Machine.init])
  trace _ h := absurd h List.not_mem_nil

/-- Results of other instructions do not matter. -/
theorem SlotInv.env (h : SlotInv sem fn args m) {env : ℕ → Option α}
    (henv : ∀ id, env id = m.env id ∨ ∃ op, fn.inst? (.inst id) = some op ∧
      op.isGep = false ∧ ∀ ty v, op ≠ .intToPtr ty v) :
    SlotInv sem fn args { m with env := env } where
  argPtr id ty x hid hx := by
    rcases henv id with heq | ⟨op, hop, -, hne⟩
    · exact h.argPtr id ty x hid (heq ▸ hx)
    · exact absurd (Option.some.inj (hop.symm.trans hid)) (hne ty _)
  gep id x hid hx := by
    rcases henv id with heq | ⟨op, hop, hgep, -⟩
    · exact h.gep id x hid (heq ▸ hx)
    · obtain ⟨ty, base, indices, heq, -⟩ := hid
      rw [Option.some.inj (hop.symm.trans heq)] at hgep
      exact absurd hgep (by simp [Op.isGep])
  trace := h.trace

theorem SlotInv.set (h : SlotInv sem fn args m) {id : ℕ} {op : Op}
    (hop : fn.inst? (.inst id) = some op) (hgep : op.isGep = false)
    (hptr : ∀ ty v, op ≠ .intToPtr ty v) (v : α) : SlotInv sem fn args (m.set id v) := by
  refine h.env fun j => ?_
  by_cases hj : j = id
  · subst hj
    exact .inr ⟨op, hop, hgep, hptr⟩
  · exact .inl (Function.update_of_ne hj _ _)

theorem SlotInv.mem (h : SlotInv sem fn args m) (mem : M) :
    SlotInv sem fn args { m with mem := mem } :=
  ⟨h.argPtr, h.gep, h.trace⟩

theorem SlotInv.record (h : SlotInv sem fn args m) {p : Value} {a : α}
    (hp : p.eval sem args m.env = some a) :
    SlotInv sem fn args (m.record p (sem.word a)) := by
  cases p with
  | inst gep =>
      refine ⟨h.argPtr, h.gep, fun x hx hlocal => ?_⟩
      rcases List.mem_append.mp hx with hx | hx
      · exact h.trace x hx hlocal
      · rw [List.mem_singleton.mp hx] at hlocal ⊢
        exact h.gep gep a hlocal hp
  | _ => exact h

theorem SlotInv.baseOffset (h : SlotInv sem fn args m) {base : Value}
    (hlocal : isLocalGEP fn base = true) {a : α} (ha : base.eval sem args m.env = some a) :
    sem.word a = sem.word (args 5) + Promote.baseOffset fn m.offset base := by
  obtain ⟨b, rfl, ⟨bty, base', indices, hb, harg⟩ | ⟨bty, hb⟩⟩ := isLocalGEP_cases hlocal
  · rw [(h.gep b a (.of_isArgPtr hb harg) ha).1, Promote.baseOffset, hb]
    rfl
  · rw [h.argPtr b bty a hb ha, Promote.baseOffset, hb]
    exact (BitVec.add_zero _).symm

theorem SlotInv.constantOffset (h : SlotInv sem fn args m) {id : ℕ} {ty : Ty} {base : Value}
    {indices : List Index} (hop : fn.inst? (.inst id) = some (.getElementPtr ty base indices))
    (hlocal : isLocalGEP fn base = true) {a : α} (ha : base.eval sem args m.env = some a)
    {sum : BitVec 64} (hsum : indexSum sem args m.env indices = some sum) {c : BitVec 64}
    (hc : Promote.constantOffset sem fn id = some c) :
    Promote.baseOffset fn m.offset base + sum = c := by
  rw [Promote.constantOffset, hop] at hc
  obtain ⟨under, hunder, hc⟩ := Option.bind_eq_some_iff.mp hc
  obtain ⟨sum', hsum', hc⟩ := Option.bind_eq_some_iff.mp hc
  obtain rfl : sum = sum' :=
    Option.some.inj (hsum.symm.trans (indexSum_of_constant hsum' m.env))
  rw [← Option.some.inj hc]
  congr 1
  obtain ⟨b, rfl, ⟨bty, base', indices', hb, harg⟩ | ⟨bty, hb⟩⟩ := isLocalGEP_cases hlocal
  · rw [constantBase, hb] at hunder
    obtain ⟨aty, hbase'⟩ := isArgPtr_inst? harg
    have hconst : Promote.constantOffset sem fn b = some (0 + under) := by
      rw [Promote.constantOffset, hb]
      dsimp only at hunder ⊢
      rw [constantBase, hbase', hunder]
      rfl
    have hoff := (h.gep b a (.of_isArgPtr hb harg) ha).2 _ hconst
    rw [Promote.baseOffset, hb]
    exact hoff.trans (BitVec.zero_add under)
  · rw [constantBase, hb] at hunder
    rw [Promote.baseOffset, hb, ← Option.some.inj hunder]
    rfl

theorem SlotInv.getElementPtr (h : SlotInv sem fn args m) {id : ℕ} {ty : Ty} {base : Value}
    {indices : List Index} (hop : fn.inst? (.inst id) = some (.getElementPtr ty base indices))
    {a : α} (ha : base.eval sem args m.env = some a) {sum : BitVec 64}
    (hsum : indexSum sem args m.env indices = some sum) :
    SlotInv sem fn args { m.set id (sem.ptr (sem.word a + sum)) with
      offset := Function.update m.offset id (Promote.baseOffset fn m.offset base + sum) } where
  argPtr j tyj x hj hx := by
    have hne : j ≠ id := by
      rintro rfl
      exact absurd (Option.some.inj (hop.symm.trans hj)) (by simp)
    exact h.argPtr j tyj x hj ((m.set_of_ne hne _).symm.trans hx)
  gep j x hj hx := by
    dsimp only
    by_cases hne : j = id
    · subst hne
      have hx' := (m.set_self j (sem.ptr (sem.word a + sum))).symm.trans hx
      obtain ⟨ty', base', indices', heq, hlocal⟩ := hj
      obtain ⟨-, rfl, -⟩ := Op.getElementPtr.inj (Option.some.inj (hop.symm.trans heq))
      rw [← Option.some.inj hx', sem.word_ptr, Function.update_self, ← BitVec.add_assoc,
        ← h.baseOffset hlocal ha]
      exact ⟨rfl, fun c hc => h.constantOffset hop hlocal ha hsum hc⟩
    · rw [Function.update_of_ne hne]
      exact h.gep j x hj ((m.set_of_ne hne _).symm.trans hx)
  trace := h.trace

theorem SlotInv.exec (h : SlotInv sem fn args m) {i : Inst} (hi : i ∈ fn.insts)
    (hexec : m.exec sem fn args i = some m') : SlotInv sem fn args m' := by
  have hop := Func.inst?_of_mem hi
  rw [Machine.exec] at hexec
  cases hi' : i.op with
  | load ty p vol =>
      rw [hi'] at hexec hop
      obtain ⟨a, ha, hexec⟩ := Option.bind_eq_some_iff.mp hexec
      rw [← Option.some.inj hexec]
      exact (h.record ha).set hop rfl (by simp) _
  | store value p vol =>
      rw [hi'] at hexec
      obtain ⟨v, -, hexec⟩ := Option.bind_eq_some_iff.mp hexec
      obtain ⟨a, ha, hexec⟩ := Option.bind_eq_some_iff.mp hexec
      rw [← Option.some.inj hexec]
      exact (h.record ha).mem _
  | getElementPtr ty base indices =>
      rw [hi'] at hexec hop
      obtain ⟨a, ha, hexec⟩ := Option.bind_eq_some_iff.mp hexec
      obtain ⟨sum, hsum, hexec⟩ := Option.bind_eq_some_iff.mp hexec
      rw [← Option.some.inj hexec]
      exact h.getElementPtr hop ha hsum
  | intToPtr ty value =>
      rw [hi'] at hexec hop
      obtain ⟨v, hv, hexec⟩ := Option.bind_eq_some_iff.mp hexec
      rw [← Option.some.inj hexec]
      refine ⟨fun id ty' x hid hx => ?_, fun id x hid hx => ?_, h.trace⟩
      · by_cases hne : id = i.id
        · subst hne
          obtain ⟨-, rfl⟩ := Op.intToPtr.inj (Option.some.inj (hop.symm.trans hid))
          have hx' := (m.set_self i.id (sem.ptr (sem.word v))).symm.trans hx
          rw [← Option.some.inj hx', sem.word_ptr, ← Option.some.inj hv]
        · exact h.argPtr id ty' x hid ((m.set_of_ne hne _).symm.trans hx)
      · have hne : id ≠ i.id := by
          rintro rfl
          obtain ⟨ty', base, indices, heq, -⟩ := hid
          exact absurd (Option.some.inj (hop.symm.trans heq)) (by simp)
        exact h.gep id x hid ((m.set_of_ne hne _).symm.trans hx)
  | bitCast ty value =>
      rw [hi'] at hexec hop
      obtain ⟨v, -, hexec⟩ := Option.bind_eq_some_iff.mp hexec
      rw [← Option.some.inj hexec]
      exact h.set hop rfl (by simp) v
  | phi ty incoming =>
      rw [hi'] at hexec
      rw [← Option.some.inj hexec]
      exact h
  | addrSpaceCast ty value =>
      rw [hi'] at hexec hop
      obtain ⟨vs, -, hexec⟩ := Option.bind_eq_some_iff.mp hexec
      rw [← Option.some.inj hexec]
      exact (h.set hop rfl (by simp) _).mem _
  | intrinsic kind ty operands =>
      rw [hi'] at hexec hop
      obtain ⟨vs, -, hexec⟩ := Option.bind_eq_some_iff.mp hexec
      rw [← Option.some.inj hexec]
      exact (h.set hop rfl (by simp) _).mem _
  | other ty operands =>
      rw [hi'] at hexec hop
      obtain ⟨vs, -, hexec⟩ := Option.bind_eq_some_iff.mp hexec
      rw [← Option.some.inj hexec]
      exact (h.set hop rfl (by simp) _).mem _

/-- A jump sets PHI nodes only. -/
theorem phiValues_eq {env env' : ℕ → Option α} {pred : ℕ} {insts : List Inst}
    (h : phiValues sem args env pred insts = some env') (id : ℕ) :
    env' id = env id ∨ ∃ i ∈ insts, i.id = id ∧ ∃ ty incoming, i.op = .phi ty incoming := by
  induction insts generalizing env' with
  | nil => exact .inl (by rw [← Option.some.inj h])
  | cons i insts ih =>
      rw [phiValues] at h
      split at h
      · rename_i ty incoming hop
        obtain ⟨e, -, h⟩ := Option.bind_eq_some_iff.mp h
        obtain ⟨v, -, h⟩ := Option.bind_eq_some_iff.mp h
        obtain ⟨env₁, hrest, h⟩ := Option.bind_eq_some_iff.mp h
        rw [← Option.some.inj h]
        by_cases hid : id = i.id
        · exact .inr ⟨i, List.mem_cons_self, hid.symm, ty, incoming, hop⟩
        · rw [Function.update_of_ne hid]
          rcases ih hrest with heq | ⟨j, hj, hjd⟩
          · exact .inl heq
          · exact .inr ⟨j, List.mem_cons_of_mem _ hj, hjd⟩
      · exact .inl (by rw [← Option.some.inj h])

theorem SlotInv.step (h : SlotInv sem fn args m) (hstep : m.step sem fn args = some m') :
    SlotInv sem fn args m' := by
  rw [Machine.step] at hstep
  split at hstep
  · rename_i i hi
    obtain ⟨m₁, hexec, rfl⟩ := Option.map_eq_some_iff.mp hstep
    have h₁ := h.exec (Func.mem_insts_of_block (List.mem_of_getElem? hi)) hexec
    exact ⟨h₁.argPtr, h₁.gep, h₁.trace⟩
  · obtain ⟨vs, -, hstep⟩ := Option.bind_eq_some_iff.mp hstep
    obtain ⟨c, -, hstep⟩ := Option.bind_eq_some_iff.mp hstep
    obtain ⟨env, henv, hstep⟩ := Option.bind_eq_some_iff.mp hstep
    rw [← Option.some.inj hstep]
    have h₁ := @SlotInv.env _ _ _ _ _ _ h env fun id => by
      rcases phiValues_eq henv id with heq | ⟨i, hi, rfl, ty, incoming, hop⟩
      · exact .inl heq
      · refine .inr ⟨i.op, Func.inst?_of_mem (Func.mem_insts_of_block hi), ?_, ?_⟩
        · rw [hop]
          rfl
        · rw [hop]
          simp
    exact ⟨h₁.argPtr, h₁.gep, h₁.trace⟩

theorem SlotInv.steps (n : ℕ) (h : SlotInv sem fn args m)
    (hsteps : Machine.steps sem fn args n m = some m') : SlotInv sem fn args m' := by
  induction n generalizing m with
  | zero =>
      rw [← Option.some.inj hsteps]
      exact h
  | succ n ih =>
      obtain ⟨m₁, hstep, hrest⟩ := Option.bind_eq_some_iff.mp hsteps
      exact ih (h.step hstep) hrest

/-- Every access through an accepted address. -/
theorem addr_of_accesses {a : Access} (ha : Accesses sem fn args a) (hlocal : LocalGep fn a.gep) :
    a.addr = sem.word (args 5) + a.offset ∧
      ∀ c, constantOffset sem fn a.gep = some c → a.offset = c := by
  obtain ⟨mem, n, m, hsteps, hmem⟩ := ha
  exact ((slotInv_init mem).steps n hsteps).trace a hmem hlocal

end Addresses

/-- With constant indices and the stack pointer in argument 5 the address is one stack
slot. -/
theorem fixedSlot_of_constant {α M : Type} {sem : Semantics α M} {cc : CallConv} {fn : Func}
    {gep : ℕ} (hsp : cc.spArg = some 5) (h : isGEPPromotable fn gep = true) {c : BitVec 64}
    (hc : constantOffset sem fn gep = some c) : FixedSlot sem cc fn gep := by
  refine ⟨c, fun args a ha hgep => ⟨5, hsp, ?_⟩⟩
  subst hgep
  obtain ⟨haddr, hoffset⟩ := addr_of_accesses ha (.of_promotable h)
  rw [haddr, hoffset c hc]

/-- Values are words; memory and other instructions do nothing. -/
def wordSem : Semantics (BitVec 64) Unit where
  word w := w
  ptr w := w
  word_ptr _ := rfl
  const _ c := BitVec.ofInt 64 c
  undef _ := 0
  load _ _ _ := 0
  store _ _ _ := ()
  other _ _ _ := (0, ())
  branch _ _ _ := 0

/-- The arguments of the functions `ChangeCallConv` creates. -/
def argTys (sptr : Ty) : CallConv → List Ty
  | .cdecl => [sptr]
  | .x86Aarch64X => List.replicate 8 (.int 64) ++ [sptr]
  | .aarch64Aarch64X => List.replicate 8 (.int 64) ++ [sptr]
  | _ => .int 64 :: sptr :: List.replicate 12 (.int 64)

/-- A store through argument 5 with an index. -/
def indexedFunc (cc : CallConv) (index : Value) : Func where
  args := argTys (.ptr 1) cc
  blocks := [⟨[⟨0, .intToPtr (.ptr 0) (.arg 5)⟩,
    ⟨1, .getElementPtr (.ptr 0) (.inst 0) [.element 8 index]⟩,
    ⟨2, .store (.arg 0) (.inst 1) false⟩, ⟨3, .other none []⟩], []⟩]
  nodup := by
    show [0, 1, 2, 3].Nodup
    decide
  succs_lt := by simp

theorem accesses_of_trace {α M : Type} {sem : Semantics α M} {fn : Func} {args : ℕ → α} (mem : M)
    (n : ℕ) {trace : List Access}
    (h : (Machine.steps sem fn args n (.init mem)).map Machine.trace = some trace) {a : Access}
    (ha : a ∈ trace) : Accesses sem fn args a := by
  obtain ⟨m, hm, rfl⟩ := Option.map_eq_some_iff.mp h
  exact ⟨mem, n, m, hm, ha⟩

end PollyInstrew.Promote
