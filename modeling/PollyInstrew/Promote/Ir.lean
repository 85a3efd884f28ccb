import Mathlib.Algebra.Group.Int.Defs
import Mathlib.Algebra.Group.Nat.Defs
import Mathlib.Data.List.Nodup
import Mathlib.Data.List.Perm.Basic

/-!
# Functions and use lists

Functions as the promotion pass finds them: loads and stores through arbitrary
pointers, `getelementptr` instructions with their indices, casts, intrinsics and
PHI nodes.  Instructions refer to each other by name, and replacing all uses of a
name or erasing an instruction acts on the whole function.
-/

namespace PollyInstrew.Promote

/-! ## Syntax -/

inductive Ty where
  | int (width : ℕ)
  | float (width : ℕ)
  | vector (count width : ℕ)
  | ptr (addrSpace : ℕ)
  deriving DecidableEq

inductive Value where
  | inst (id : ℕ)
  | arg (n : ℕ)
  | const (ty : Ty) (c : ℤ)
  | undef (ty : Ty)
  | poison (ty : Ty)
  deriving DecidableEq

/-- An index of a `getelementptr`: elements of a size, or the field of a struct. -/
inductive Index where
  | element (size : ℕ) (value : Value)
  | field (number offset : ℕ)
  deriving DecidableEq

inductive IntrinsicKind where
  | lifetime
  | droppable
  | other
  deriving DecidableEq

/-- The instructions the pass tells apart; terminators, calls and arithmetic are
`other`. -/
inductive Op where
  | load (ty : Ty) (ptr : Value) (isVolatile : Bool)
  | store (value ptr : Value) (isVolatile : Bool)
  | getElementPtr (ty : Ty) (base : Value) (indices : List Index)
  | intToPtr (ty : Ty) (value : Value)
  | bitCast (ty : Ty) (value : Value)
  | addrSpaceCast (ty : Ty) (value : Value)
  | intrinsic (kind : IntrinsicKind) (ty : Option Ty) (args : List Value)
  | phi (ty : Ty) (incoming : List (Value × ℕ))
  | other (ty : Option Ty) (operands : List Value)
  deriving DecidableEq

structure Inst where
  id : ℕ
  op : Op
  deriving DecidableEq

structure Block where
  insts : List Inst
  succs : List ℕ
  deriving DecidableEq

/-- A function; block `0` is its entry block, names are unique, and control flow stays
in the function. -/
structure Func where
  args : List Ty
  blocks : List Block
  nodup : ((blocks.flatMap Block.insts).map Inst.id).Nodup
  succs_lt : ∀ blk ∈ blocks, ∀ c ∈ blk.succs, c < blocks.length
  deriving DecidableEq

def Index.operands : Index → List Value
  | .element _ value => [value]
  | .field _ _ => []

def Op.operands : Op → List Value
  | .load _ ptr _ => [ptr]
  | .store value ptr _ => [value, ptr]
  | .getElementPtr _ base indices => base :: indices.flatMap Index.operands
  | .intToPtr _ value => [value]
  | .bitCast _ value => [value]
  | .addrSpaceCast _ value => [value]
  | .intrinsic _ _ args => args
  | .phi _ incoming => incoming.map Prod.fst
  | .other _ operands => operands

def Op.resultTy : Op → Option Ty
  | .load ty _ _ => some ty
  | .store _ _ _ => none
  | .getElementPtr ty _ _ => some ty
  | .intToPtr ty _ => some ty
  | .bitCast ty _ => some ty
  | .addrSpaceCast ty _ => some ty
  | .intrinsic _ ty _ => ty
  | .phi ty _ => some ty
  | .other ty _ => ty

def Op.isAccess : Op → Bool
  | .load _ _ _ => true
  | .store _ _ _ => true
  | _ => false

def Op.isGep : Op → Bool
  | .getElementPtr _ _ _ => true
  | _ => false

def Func.insts (fn : Func) : List Inst := fn.blocks.flatMap Block.insts

def Func.block (fn : Func) (b : ℕ) : Block := fn.blocks[b]?.getD ⟨[], []⟩

def Func.find (fn : Func) (id : ℕ) : Option Inst := fn.insts.find? fun i => i.id = id

def Func.typeOf (fn : Func) : Value → Option Ty
  | .inst id => (fn.find id).bind fun i => i.op.resultTy
  | .arg n => fn.args[n]?
  | .const ty _ => some ty
  | .undef ty => some ty
  | .poison ty => some ty

/-- The number of the block an instruction is in. -/
def Func.parent (fn : Func) (id : ℕ) : ℕ :=
  fn.blocks.findIdx fun blk => blk.insts.any fun i => i.id = id

/-- The place of an instruction in its block. -/
def Func.position (fn : Func) (id : ℕ) : ℕ :=
  match fn.blocks[fn.parent id]? with
  | some blk => blk.insts.findIdx fun i => i.id = id
  | none => 0

/-- The users of a value, once for each use. -/
def Func.users (fn : Func) (v : Value) : List Inst :=
  fn.insts.flatMap fun i => List.replicate (i.op.operands.count v) i

def Func.isUsed (fn : Func) (id : ℕ) : Bool :=
  fn.insts.any fun i => Value.inst id ∈ i.op.operands

/-! ## Changing a function -/

def Index.mapOperands (σ : Value → Value) : Index → Index
  | .element size value => .element size (σ value)
  | .field number offset => .field number offset

def Op.mapOperands (σ : Value → Value) : Op → Op
  | .load ty ptr vol => .load ty (σ ptr) vol
  | .store value ptr vol => .store (σ value) (σ ptr) vol
  | .getElementPtr ty base indices =>
      .getElementPtr ty (σ base) (indices.map (Index.mapOperands σ))
  | .intToPtr ty value => .intToPtr ty (σ value)
  | .bitCast ty value => .bitCast ty (σ value)
  | .addrSpaceCast ty value => .addrSpaceCast ty (σ value)
  | .intrinsic kind ty args => .intrinsic kind ty (args.map σ)
  | .phi ty incoming => .phi ty (incoming.map fun e => (σ e.1, e.2))
  | .other ty operands => .other ty (operands.map σ)

def Inst.mapOperands (σ : Value → Value) (i : Inst) : Inst := ⟨i.id, i.op.mapOperands σ⟩

@[simp] theorem Op.operands_mapOperands (σ : Value → Value) (op : Op) :
    (op.mapOperands σ).operands = op.operands.map σ := by
  cases op with
  | getElementPtr ty base indices =>
      simp only [Op.mapOperands, Op.operands, List.map_cons, List.cons.injEq, true_and,
        List.flatMap_map, List.map_flatMap]
      congr 1
      funext index
      cases index <;> rfl
  | phi ty incoming => simp [Op.mapOperands, Op.operands]
  | _ => rfl

@[simp] theorem Op.isAccess_mapOperands (σ : Value → Value) (op : Op) :
    (op.mapOperands σ).isAccess = op.isAccess := by
  cases op <;> rfl

@[simp] theorem Op.isGep_mapOperands (σ : Value → Value) (op : Op) :
    (op.mapOperands σ).isGep = op.isGep := by
  cases op <;> rfl

/-- The instructions of every block are changed; no new names come in. -/
def Func.edit (fn : Func) (change : List Inst → List Inst)
    (hchange : ∀ l, ((change l).map Inst.id).Sublist (l.map Inst.id)) : Func where
  args := fn.args
  blocks := fn.blocks.map fun blk => { blk with insts := change blk.insts }
  nodup := by
    refine List.Nodup.sublist ?_ fn.nodup
    induction fn.blocks with
    | nil => exact List.Sublist.refl _
    | cons blk blocks ih =>
        simp only [List.map_cons, List.flatMap_cons, List.map_append]
        exact (hchange blk.insts).append ih
  succs_lt := by
    intro blk hblk c hc
    obtain ⟨blk', hblk', rfl⟩ := List.mem_map.mp hblk
    rw [List.length_map]
    exact fn.succs_lt blk' hblk' c hc

theorem modify_cases {α : Type*} (l : List α) (k : ℕ) (change : α → α) :
    (∃ pre a post, l = pre ++ a :: post ∧ l.modify k change = pre ++ change a :: post) ∨
      l.modify k change = l := by
  induction l generalizing k with
  | nil => exact .inr (by simp)
  | cons a l ih =>
      cases k with
      | zero => exact .inl ⟨[], a, l, rfl, List.modify_zero_cons change a l⟩
      | succ k =>
          rw [List.modify_succ_cons]
          rcases ih k with ⟨pre, c, post, hl, hm⟩ | hm
          · exact .inl ⟨a :: pre, c, post, by rw [hl]; rfl, by rw [hm]; rfl⟩
          · exact .inr (by rw [hm])

theorem succs_lt_modify {blocks : List Block}
    (h : ∀ blk ∈ blocks, ∀ c ∈ blk.succs, c < blocks.length) (b : ℕ)
    (change : List Inst → List Inst) :
    ∀ blk ∈ blocks.modify b fun blk => { blk with insts := change blk.insts },
      ∀ c ∈ blk.succs,
        c < (blocks.modify b fun blk => { blk with insts := change blk.insts }).length := by
  intro blk hblk c hc
  rw [List.length_modify]
  rcases modify_cases blocks b (fun blk => { blk with insts := change blk.insts }) with
    ⟨pre, a, post, hl, hm⟩ | hm
  · rw [hm, List.mem_append, List.mem_cons] at hblk
    rcases hblk with hpre | rfl | hpost
    · exact h blk (by rw [hl]; simp [hpre]) c hc
    · exact h a (by rw [hl]; simp) c hc
    · exact h blk (by rw [hl]; simp [hpost]) c hc
  · exact h blk (hm ▸ hblk) c hc

/-- The instructions of one block are changed; no new names come in. -/
def Func.editBlock (fn : Func) (b : ℕ) (change : List Inst → List Inst)
    (hchange : ∀ l, ((change l).map Inst.id).Sublist (l.map Inst.id)) : Func where
  args := fn.args
  blocks := fn.blocks.modify b fun blk => { blk with insts := change blk.insts }
  nodup := by
    refine List.Nodup.sublist ?_ fn.nodup
    rcases modify_cases fn.blocks b (fun blk => { blk with insts := change blk.insts }) with
      ⟨pre, blk, post, hl, hm⟩ | hm
    · rw [hm, hl]
      simp only [List.flatMap_append, List.flatMap_cons, List.map_append]
      exact (List.Sublist.refl _).append ((hchange blk.insts).append (List.Sublist.refl _))
    · rw [hm]
  succs_lt := succs_lt_modify fn.succs_lt b change

def substitute (id : ℕ) (v w : Value) : Value := if w = .inst id then v else w

/-- `I->replaceAllUsesWith(V)`. -/
def Func.replaceAllUsesWith (fn : Func) (id : ℕ) (v : Value) : Func :=
  fn.edit (List.map (Inst.mapOperands (substitute id v))) fun l => by
    rw [List.map_map]
    exact List.Sublist.refl _

/-- `I->eraseFromParent()`. -/
def Func.erase (fn : Func) (id : ℕ) : Func :=
  fn.edit (List.filter fun i => i.id ≠ id) fun _ => List.filter_sublist.map _

/-- A name that is not in use. -/
def Func.fresh (fn : Func) : ℕ := (fn.insts.map Inst.id).foldr (fun id m => max (id + 1) m) 0

theorem lt_foldr_max {l : List ℕ} {a : ℕ} (h : a ∈ l) :
    a < l.foldr (fun id m => max (id + 1) m) 0 := by
  induction l with
  | nil => exact absurd h List.not_mem_nil
  | cons b l ih =>
      rw [List.foldr_cons]
      rcases List.mem_cons.mp h with rfl | h
      · omega
      · have hlt := ih h
        omega

theorem Func.lt_fresh {fn : Func} {i : Inst} (h : i ∈ fn.insts) : i.id < fn.fresh :=
  lt_foldr_max (List.mem_map_of_mem h)

theorem nodup_insertIdx (l : List Inst) (k : ℕ) (i : Inst) (pre post : List ℕ)
    (hnodup : (pre ++ (l.map Inst.id ++ post)).Nodup)
    (hnew : i.id ∉ pre ++ (l.map Inst.id ++ post)) :
    (pre ++ ((l.insertIdx k i).map Inst.id ++ post)).Nodup := by
  by_cases hk : k ≤ l.length
  · have hperm : (pre ++ ((l.insertIdx k i).map Inst.id ++ post)).Perm
        (i.id :: (pre ++ (l.map Inst.id ++ post))) := by
      refine List.Perm.trans ?_ List.perm_middle
      refine List.Perm.append_left pre ?_
      exact (((List.perm_insertIdx i l hk).map Inst.id)).append_right post
    exact hperm.nodup_iff.mpr (List.nodup_cons.mpr ⟨hnew, hnodup⟩)
  · rw [List.insertIdx_of_length_lt (by omega)]
    exact hnodup

/-- A new instruction at a place of a block. -/
def Func.insert (fn : Func) (b k : ℕ) (op : Op) : Func where
  args := fn.args
  blocks := fn.blocks.modify b fun blk => { blk with insts := blk.insts.insertIdx k ⟨fn.fresh, op⟩ }
  nodup := by
    have hnew : fn.fresh ∉ (fn.blocks.flatMap Block.insts).map Inst.id := by
      intro hmem
      obtain ⟨i, hi, heq⟩ := List.mem_map.mp hmem
      exact Nat.ne_of_lt (Func.lt_fresh hi) heq
    have hnodup := fn.nodup
    rcases modify_cases fn.blocks b
        (fun blk => { blk with insts := blk.insts.insertIdx k ⟨fn.fresh, op⟩ }) with
      ⟨pre, blk, post, hl, hm⟩ | hm
    · rw [hm]
      rw [hl] at hnodup hnew
      simp only [List.flatMap_append, List.flatMap_cons, List.map_append] at hnodup hnew ⊢
      exact nodup_insertIdx _ _ _ _ _ hnodup hnew
    · rw [hm]
      exact hnodup
  succs_lt := succs_lt_modify fn.succs_lt b fun l => l.insertIdx k ⟨fn.fresh, op⟩

/-! ## The instructions of a changed function -/

theorem Func.find_eq_some_iff {fn : Func} {id : ℕ} {i : Inst} :
    fn.find id = some i ↔ i ∈ fn.insts ∧ i.id = id := by
  constructor
  · intro h
    exact ⟨List.mem_of_find?_eq_some h, by simpa using List.find?_some h⟩
  · rintro ⟨hi, hid⟩
    cases hfind : fn.find id with
    | none =>
        have hnone := List.find?_eq_none.mp hfind i hi
        exact absurd hid (by simpa using hnone)
    | some j =>
        have hj := List.mem_of_find?_eq_some hfind
        have hjd : j.id = id := by simpa using List.find?_some hfind
        rw [List.inj_on_of_nodup_map fn.nodup hj hi (hjd.trans hid.symm)]

theorem Func.mem_insts_of_block {fn : Func} {b : ℕ} {i : Inst} (h : i ∈ (fn.block b).insts) :
    i ∈ fn.insts := by
  rw [Func.block] at h
  cases hb : fn.blocks[b]? with
  | none =>
      rw [hb] at h
      exact absurd h List.not_mem_nil
  | some blk =>
      rw [hb] at h
      exact List.mem_flatMap.mpr ⟨blk, List.mem_of_getElem? hb, h⟩

theorem Func.insts_replaceAllUsesWith (fn : Func) (id : ℕ) (v : Value) :
    (fn.replaceAllUsesWith id v).insts = fn.insts.map (Inst.mapOperands (substitute id v)) := by
  simp only [Func.insts, Func.replaceAllUsesWith, Func.edit, List.flatMap_map, List.map_flatMap]

theorem Func.insts_erase (fn : Func) (id : ℕ) :
    (fn.erase id).insts = fn.insts.filter fun i => i.id ≠ id := by
  simp only [Func.insts, Func.erase, Func.edit, List.flatMap_map, List.filter_flatMap]

/-- Changing one block changes a part of the instructions. -/
theorem Func.insts_editBlock (fn : Func) (b : ℕ) {change : List Inst → List Inst}
    (hchange : ∀ l, ((change l).map Inst.id).Sublist (l.map Inst.id)) :
    (∃ pre l post, fn.insts = pre ++ (l ++ post) ∧
      (fn.editBlock b change hchange).insts = pre ++ (change l ++ post)) ∨
      (fn.editBlock b change hchange).insts = fn.insts := by
  have hedit : (fn.editBlock b change hchange).insts = (fn.blocks.modify b fun blk =>
      { blk with insts := change blk.insts }).flatMap Block.insts := rfl
  rcases modify_cases fn.blocks b (fun blk => { blk with insts := change blk.insts }) with
    ⟨pre, blk, post, hl, hm⟩ | hm
  · refine .inl ⟨pre.flatMap Block.insts, blk.insts, post.flatMap Block.insts, ?_, ?_⟩
    · rw [Func.insts, hl, List.flatMap_append, List.flatMap_cons]
    · rw [hedit, hm, List.flatMap_append, List.flatMap_cons]
  · exact .inr (by rw [hedit, hm, Func.insts])

theorem insertIdx_cases {α : Type*} (l : List α) (k : ℕ) (x : α) :
    (∃ pre post, l = pre ++ post ∧ l.insertIdx k x = pre ++ x :: post) ∨ l.insertIdx k x = l := by
  induction l generalizing k with
  | nil =>
      cases k with
      | zero => exact .inl ⟨[], [], rfl, rfl⟩
      | succ k => exact .inr rfl
  | cons a l ih =>
      cases k with
      | zero => exact .inl ⟨[], a :: l, rfl, rfl⟩
      | succ k =>
          rw [List.insertIdx_succ_cons]
          rcases ih k with ⟨pre, post, hl, hm⟩ | hm
          · exact .inl ⟨a :: pre, post, by rw [hl]; rfl, by rw [hm]; rfl⟩
          · exact .inr (by rw [hm])

/-- A new instruction is at one place. -/
theorem Func.insts_insert (fn : Func) (b k : ℕ) (op : Op) :
    (∃ pre post, fn.insts = pre ++ post ∧
      (fn.insert b k op).insts = pre ++ ⟨fn.fresh, op⟩ :: post) ∨
      (fn.insert b k op).insts = fn.insts := by
  have hinsert : (fn.insert b k op).insts = (fn.blocks.modify b fun blk =>
      { blk with insts := blk.insts.insertIdx k ⟨fn.fresh, op⟩ }).flatMap Block.insts := rfl
  rcases modify_cases fn.blocks b
      (fun blk => { blk with insts := blk.insts.insertIdx k ⟨fn.fresh, op⟩ }) with
    ⟨pre, blk, post, hl, hm⟩ | hm
  · rcases insertIdx_cases blk.insts k ⟨fn.fresh, op⟩ with ⟨l₁, l₂, hblk, hidx⟩ | hidx
    · refine .inl ⟨pre.flatMap Block.insts ++ l₁, l₂ ++ post.flatMap Block.insts, ?_, ?_⟩
      · rw [Func.insts, hl, List.flatMap_append, List.flatMap_cons, hblk]
        simp
      · rw [hinsert, hm, List.flatMap_append, List.flatMap_cons, hidx]
        simp
    · refine .inr ?_
      rw [hinsert, hm, Func.insts, hl, List.flatMap_append, List.flatMap_cons, hidx,
        List.flatMap_append, List.flatMap_cons]
  · exact .inr (by rw [hinsert, hm, Func.insts])

theorem Func.mem_insts_insert {fn : Func} {b k : ℕ} {op : Op} {i : Inst}
    (h : i ∈ fn.insts) : i ∈ (fn.insert b k op).insts := by
  rcases fn.insts_insert b k op with ⟨pre, post, h₁, h₂⟩ | h₂
  · rw [h₁, List.mem_append] at h
    rw [h₂, List.mem_append, List.mem_cons]
    tauto
  · rwa [h₂]

theorem Func.find_insert {fn : Func} {b k : ℕ} {op : Op} {id : ℕ} {i : Inst}
    (h : fn.find id = some i) : (fn.insert b k op).find id = some i := by
  obtain ⟨hi, hid⟩ := find_eq_some_iff.mp h
  exact find_eq_some_iff.mpr ⟨mem_insts_insert hi, hid⟩

theorem Func.find_replaceAllUsesWith {fn : Func} (id : ℕ) (v : Value) {j : ℕ} {i : Inst}
    (h : fn.find j = some i) :
    (fn.replaceAllUsesWith id v).find j = some (i.mapOperands (substitute id v)) := by
  obtain ⟨hi, hid⟩ := find_eq_some_iff.mp h
  rw [find_eq_some_iff, insts_replaceAllUsesWith]
  exact ⟨List.mem_map_of_mem hi, hid⟩

theorem Func.find_erase {fn : Func} {id j : ℕ} {i : Inst} (hj : j ≠ id)
    (h : fn.find j = some i) : (fn.erase id).find j = some i := by
  obtain ⟨hi, hid⟩ := find_eq_some_iff.mp h
  rw [find_eq_some_iff, insts_erase, List.mem_filter]
  exact ⟨⟨hi, by simpa [hid] using hj⟩, hid⟩

end PollyInstrew.Promote
