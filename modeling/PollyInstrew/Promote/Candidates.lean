import PollyInstrew.Promote.Ir

/-!
# Which `getelementptr` instructions are promoted

`isGEPPromotable` accepts an address computed from argument 5 whose users it knows
how to handle, and at least one of which is a store.  `AnalyzeGEP` and
`GEPrewriteSingleStore` then assume that every user is a load or a store, and that
the type of the last store they have seen is the type of all of them.
-/

namespace PollyInstrew.Promote

variable {fn : Func} {v : Value} {id gep : ℕ} {op : Op} {ids : List ℕ}

/-! ## Acceptance -/

/-- `dyn_cast<Instruction>(V)`. -/
def Func.inst? (fn : Func) : Value → Option Op
  | .inst id => (fn.find id).map Inst.op
  | _ => none

/-- `dyn_cast<IntToPtrInst>(V)` with `getArg(5)` as its operand. -/
def isArgPtr (fn : Func) (v : Value) : Bool :=
  match fn.inst? v with
  | some (.intToPtr _ value) => value = .arg 5
  | _ => false

/-- `isLocalGEP`, given operand 0. -/
def isLocalGEP (fn : Func) (base : Value) : Bool :=
  match fn.inst? base with
  | some (.getElementPtr _ base' _) => isArgPtr fn base'
  | _ => isArgPtr fn base

def onlyUsedByLifetimeMarkers (fn : Func) (id : ℕ) : Bool :=
  (fn.users (.inst id)).all fun u =>
    match u.op with
    | .intrinsic kind _ _ => kind = .lifetime
    | _ => false

def onlyUsedByLifetimeMarkersOrDroppableInsts (fn : Func) (id : ℕ) : Bool :=
  (fn.users (.inst id)).all fun u =>
    match u.op with
    | .intrinsic kind _ _ => kind = .lifetime || kind = .droppable
    | _ => false

def hasAllZeroIndices (indices : List Index) : Bool :=
  indices.all fun index =>
    match index with
    | .element _ (.const _ c) => c = 0
    | .element _ _ => false
    | .field number _ => number = 0

/-- The body of the loop of `isGEPPromotable`. -/
def promotableUser (fn : Func) (gep : ℕ) (u : Inst) : Bool :=
  match u.op with
  | .load _ _ isVolatile => !isVolatile
  | .store value _ isVolatile => value ≠ .inst gep && !isVolatile
  | .intrinsic kind _ _ => kind = .lifetime || kind = .droppable
  | .bitCast _ _ => onlyUsedByLifetimeMarkersOrDroppableInsts fn u.id
  | .getElementPtr _ _ indices =>
      hasAllZeroIndices indices && onlyUsedByLifetimeMarkersOrDroppableInsts fn u.id
  | .addrSpaceCast _ _ => onlyUsedByLifetimeMarkers fn u.id
  | _ => false

def Op.isStore : Op → Bool
  | .store _ _ _ => true
  | _ => false

def isGEPPromotable (fn : Func) (gep : ℕ) : Bool :=
  match fn.inst? (.inst gep) with
  | some (.getElementPtr _ base _) =>
      isLocalGEP fn base && (fn.users (.inst gep)).all (promotableUser fn gep) &&
        (fn.users (.inst gep)).any fun u => u.op.isStore
  | _ => false

/-! ## What LLVM provides -/

/-- The order of use lists, the dominator tree, the iterated dominance frontier of
defining blocks restricted to live-in blocks, the order in which `NewPhiNodes` is
iterated, and whether a load that is replaced by a value leaves an assumption. -/
structure Analyses where
  users : Func → ℕ → List ℕ
  users_perm : ∀ fn id, (users fn id).Perm ((fn.users (.inst id)).map Inst.id)
  dominates : ℕ → ℕ → Bool
  idf : List ℕ → List ℕ → List ℕ
  phiOrder : List ((ℕ × ℕ) × ℕ) → List ((ℕ × ℕ) × ℕ)
  phiOrder_perm : ∀ l, (phiOrder l).Perm l
  assumesNonNull : Func → ℕ → Value → Bool

/-! ## AnalyzeGEP -/

/-- `GEPInfo`, with the entry of `GEPStoreType`. -/
structure GEPInfo where
  definingBlocks : List ℕ
  usingBlocks : List ℕ
  onlyStore : Option ℕ
  onlyBlock : Option ℕ
  onlyUsedInOneBlock : Bool
  storeType : Option Ty

def GEPInfo.clear : GEPInfo := ⟨[], [], none, none, true, none⟩

/-- The end of the loop body of `AnalyzeGEP`. -/
def GEPInfo.usedIn (info : GEPInfo) (b : ℕ) : GEPInfo :=
  if info.onlyUsedInOneBlock then
    match info.onlyBlock with
    | none => { info with onlyBlock := some b }
    | some c => { info with onlyUsedInOneBlock := c = b }
  else
    info

/-- The body of the loop of `AnalyzeGEP`; `none` if `cast<LoadInst>` fails. -/
def analyzeUser (fn : Func) (info : GEPInfo) (id : ℕ) : Option GEPInfo :=
  match fn.inst? (.inst id) with
  | some (.store value _ _) =>
      some (GEPInfo.usedIn
        { info with
          storeType := fn.typeOf value
          definingBlocks := info.definingBlocks ++ [fn.parent id]
          onlyStore := some id } (fn.parent id))
  | some (.load _ _ _) =>
      some (GEPInfo.usedIn
        { info with usingBlocks := info.usingBlocks ++ [fn.parent id] } (fn.parent id))
  | _ => none

def analyzeGEP (A : Analyses) (fn : Func) (gep : ℕ) : Option GEPInfo :=
  (A.users fn gep).foldlM (analyzeUser fn) .clear

/-! ## Replacing loads -/

/-- `GEPaddAssumeNonNull`. -/
def addAssumeNonNull (fn : Func) (id : ℕ) (ty : Ty) : Func :=
  (fn.insert (fn.parent id) (fn.position id + 1)
      (.other (some (.int 1)) [.inst id, .const ty 0])).insert
    (fn.parent id) (fn.position id + 2) (.intrinsic .droppable none [.inst fn.fresh])

def assumeNonNull (A : Analyses) (fn : Func) (id : ℕ) (ty : Ty) (v : Value) : Func :=
  if A.assumesNonNull fn id v then addAssumeNonNull fn id ty else fn

/-- `I->replaceAllUsesWith(V); I->eraseFromParent()`. -/
def Func.replace (fn : Func) (id : ℕ) (v : Value) : Func :=
  (fn.replaceAllUsesWith id v).erase id

/-- A load is not replaced by itself. -/
def orPoison (id : ℕ) (ty : Ty) (v : Value) : Value := if v = .inst id then .poison ty else v

/-- `SI->getOperand(0)`. -/
def storedValue (fn : Func) (id : ℕ) : Option Value :=
  match fn.inst? (.inst id) with
  | some (.store value _ _) => some value
  | _ => none

def Value.isInst : Value → Bool
  | .inst _ => true
  | _ => false

/-- The load is not reached by the store. -/
def notReached (A : Analyses) (fn : Func) (store storeBB load : ℕ) : Bool :=
  if fn.parent load = storeBB then fn.position store > fn.position load
  else !A.dominates storeBB (fn.parent load)

/-- The body of the loop of `GEPrewriteSingleStore` over the function and
`UsingBlocks`; `none` if `cast<LoadInst>` fails. -/
def rewriteUser (A : Analyses) (store storeBB : ℕ) (storingGlobalVal : Bool)
    (s : Func × List ℕ) (id : ℕ) : Option (Func × List ℕ) :=
  if id = store then
    some s
  else
    match s.1.inst? (.inst id) with
    | some (.load ty _ _) =>
        if !storingGlobalVal && notReached A s.1 store storeBB id then
          some (s.1, s.2 ++ [s.1.parent id])
        else do
          let v := orPoison id ty (← storedValue s.1 store)
          return ((assumeNonNull A s.1 id ty v).replace id v, s.2)
    | _ => none

/-- `GEPrewriteSingleStore`; the result has the function and `UsingBlocks`. -/
def rewriteSingleStore (A : Analyses) (fn : Func) (gep store : ℕ) : Option (Func × List ℕ) := do
  let v ← storedValue fn store
  (A.users fn gep).foldlM (rewriteUser A store (fn.parent store) !v.isInst) (fn, [])

/-- `StoresByIndex`, sorted. -/
def storesByIndex (A : Analyses) (fn : Func) (gep : ℕ) : List (ℕ × ℕ) :=
  ((A.users fn gep).filter fun id => (storedValue fn id).isSome).map
    (fun id => (fn.position id, id)) |>.mergeSort fun a b => a.1 ≤ b.1

/-- The loop of `GEPpromoteSingleBlock` over the loads; the places of instructions are
those in `fn₀`. -/
def promoteLoads (A : Analyses) (fn₀ : Func) (stores : List (ℕ × ℕ)) :
    List ℕ → Func → Func × Bool
  | [], fn => (fn, true)
  | id :: ids, fn =>
      match fn.inst? (.inst id) with
      | some (.load ty _ _) =>
          match (stores.takeWhile fun e => e.1 < fn₀.position id).getLast? with
          | none =>
              if stores.isEmpty then
                promoteLoads A fn₀ stores ids
                  ((assumeNonNull A fn id ty (.undef ty)).replace id (.undef ty))
              else
                (fn, false)
          | some e =>
              let v := (storedValue fn e.2).getD (.poison ty)
              promoteLoads A fn₀ stores ids
                ((assumeNonNull A fn id ty v).replace id (orPoison id ty v))
      | _ => promoteLoads A fn₀ stores ids fn

/-- `GEPpromoteSingleBlock`. -/
def promoteSingleBlock (A : Analyses) (fn : Func) (gep : ℕ) : Func × Bool :=
  promoteLoads A fn (storesByIndex A fn gep) (A.users fn gep) fn

/-! ## Users -/

theorem Func.mem_users {u : Inst} :
    u ∈ fn.users v ↔ u ∈ fn.insts ∧ v ∈ u.op.operands := by
  simp only [Func.users, List.mem_flatMap, List.mem_replicate, ne_eq, List.count_eq_zero,
    Decidable.not_not]
  constructor
  · rintro ⟨i, hi, hv, rfl⟩
    exact ⟨hi, hv⟩
  · rintro ⟨hi, hv⟩
    exact ⟨u, hi, hv, rfl⟩

theorem Func.inst?_of_mem {i : Inst} (h : i ∈ fn.insts) :
    fn.inst? (.inst i.id) = some i.op := by
  rw [Func.inst?, Func.find_eq_some_iff.mpr ⟨h, rfl⟩]
  rfl

theorem Func.exists_of_inst? (h : fn.inst? (.inst id) = some op) : fn.find id = some ⟨id, op⟩ := by
  obtain ⟨i, hi, rfl⟩ := Option.map_eq_some_iff.mp h
  obtain ⟨-, rfl⟩ := Func.find_eq_some_iff.mp hi
  exact hi

theorem Analyses.mem_users (A : Analyses) :
    id ∈ A.users fn gep ↔ ∃ u ∈ fn.users (.inst gep), u.id = id := by
  rw [(A.users_perm fn gep).mem_iff, List.mem_map]

theorem flatMap_replicate_count {l : List Inst} (h : ∀ i ∈ l, i.op.operands.count v ≤ 1) :
    (l.flatMap fun i => List.replicate (i.op.operands.count v) i) =
      l.filter fun i => v ∈ i.op.operands := by
  induction l with
  | nil => rfl
  | cons i l ih =>
      rw [List.flatMap_cons, List.filter_cons, ih fun j hj => h j (List.mem_cons_of_mem _ hj)]
      have hi := h i List.mem_cons_self
      by_cases hmem : v ∈ i.op.operands
      · have hone : i.op.operands.count v = 1 := by
          have hpos := List.count_pos_iff.mpr hmem
          omega
        simp [hone, hmem]
      · simp [List.count_eq_zero.mpr hmem, hmem]

/-- No instruction is listed twice if none uses the value twice. -/
theorem Analyses.nodup_users (A : Analyses)
    (h : ∀ i ∈ fn.insts, i.op.operands.count (.inst gep) ≤ 1) : (A.users fn gep).Nodup := by
  rw [(A.users_perm fn gep).nodup_iff, Func.users, flatMap_replicate_count h]
  exact fn.nodup.sublist (List.filter_sublist.map _)

/-! ## When accepted instructions can be rewritten -/

/-- The type a load or store accesses memory with. -/
def Op.accessTy (fn : Func) : Op → Option Ty
  | .load ty _ _ => some ty
  | .store value _ _ => fn.typeOf value
  | _ => none

/-- The casts of `AnalyzeGEP` and `GEPrewriteSingleStore` succeed, every user is a load
or a store, and all of them have the type that is recorded for PHI nodes. -/
def Rewritable (A : Analyses) (fn : Func) (gep : ℕ) : Prop :=
  ∃ info, analyzeGEP A fn gep = some info ∧
    (∀ u ∈ fn.users (.inst gep), u.op.isAccess = true ∧ u.op.accessTy fn = info.storeType) ∧
    (info.definingBlocks.length = 1 → ∀ store, info.onlyStore = some store →
      (rewriteSingleStore A fn gep store).isSome = true)

/-- No cast, `getelementptr` or intrinsic has the address as an operand, and no two
instructions access it with different types. -/
def UniformAccess (fn : Func) (gep : ℕ) : Prop :=
  ∀ i ∈ fn.insts, .inst gep ∈ i.op.operands → i.op.isAccess = true ∧
    ∀ j ∈ fn.insts, .inst gep ∈ j.op.operands → i.op.accessTy fn = j.op.accessTy fn

theorem analyzeUser_of_isAccess {i : Inst} (hi : i ∈ fn.insts) (hacc : i.op.isAccess = true)
    (info : GEPInfo) :
    ∃ info', analyzeUser fn info i.id = some info' ∧
      info'.storeType = if i.op.isStore then i.op.accessTy fn else info.storeType := by
  have hused : ∀ (info : GEPInfo) b, (info.usedIn b).storeType = info.storeType := by
    intro info b
    rw [GEPInfo.usedIn]
    split
    · split <;> rfl
    · rfl
  rw [analyzeUser, Func.inst?_of_mem hi]
  cases hop : i.op with
  | store value ptr vol => exact ⟨_, rfl, hused _ _⟩
  | load ty ptr vol => exact ⟨_, rfl, hused _ _⟩
  | _ =>
      rw [hop] at hacc
      exact absurd hacc (by simp [Op.isAccess])

theorem analyzeUsers_of_isAccess {ty : Option Ty}
    (h : ∀ id ∈ ids, ∃ i ∈ fn.insts, i.id = id ∧ i.op.isAccess = true ∧ i.op.accessTy fn = ty)
    (info : GEPInfo) :
    ∃ info', ids.foldlM (analyzeUser fn) info = some info' ∧
      ((info.storeType = ty ∨ ∃ i ∈ fn.insts, i.id ∈ ids ∧ i.op.isStore = true) →
        info'.storeType = ty) := by
  induction ids generalizing info with
  | nil =>
      refine ⟨info, rfl, ?_⟩
      rintro (h | ⟨i, -, hmem, -⟩)
      · exact h
      · exact absurd hmem List.not_mem_nil
  | cons id ids ih =>
      obtain ⟨i, hi, rfl, hacc, hty⟩ := h id List.mem_cons_self
      obtain ⟨info₁, h₁, hty₁⟩ := analyzeUser_of_isAccess hi hacc info
      obtain ⟨info₂, h₂, hty₂⟩ := ih (fun id hid => h id (List.mem_cons_of_mem _ hid)) info₁
      refine ⟨info₂, by rw [List.foldlM_cons, h₁]; exact h₂, fun hstart => hty₂ ?_⟩
      rw [hty₁, hty]
      split
      · exact .inl rfl
      · rename_i hstore
        rcases hstart with hstart | ⟨j, hj, hmem, hjs⟩
        · exact .inl hstart
        · rcases List.mem_cons.mp hmem with hji | hmem
          · rw [List.inj_on_of_nodup_map fn.nodup hj hi hji] at hjs
            exact absurd hjs hstore
          · exact .inr ⟨j, hj, hmem, hjs⟩

theorem isAccess_of_analyzeUsers {info info' : GEPInfo}
    (h : ids.foldlM (analyzeUser fn) info = some info') {i : Inst} (hi : i ∈ fn.insts)
    (hid : i.id ∈ ids) : i.op.isAccess = true := by
  induction ids generalizing info with
  | nil => exact absurd hid List.not_mem_nil
  | cons id ids ih =>
      rw [List.foldlM_cons] at h
      obtain ⟨info₁, h₁, h₂⟩ := Option.bind_eq_some_iff.mp h
      rcases List.mem_cons.mp hid with rfl | hid
      · rw [analyzeUser, Func.inst?_of_mem hi] at h₁
        split at h₁
        · rename_i heq
          rw [Option.some.inj heq]
          rfl
        · rename_i heq
          rw [Option.some.inj heq]
          rfl
        · cases h₁
      · exact ih h₂ hid

/-! ## The loop of `GEPrewriteSingleStore` -/

theorem Func.inst?_insert {b k : ℕ} {op' : Op} (h : fn.inst? (.inst id) = some op) :
    (fn.insert b k op').inst? (.inst id) = some op := by
  rw [Func.inst?, Func.find_insert (Func.exists_of_inst? h)]
  rfl

theorem inst?_assumeNonNull (A : Analyses) (id : ℕ) (ty : Ty) (v : Value) {j : ℕ}
    (h : fn.inst? (.inst j) = some op) :
    (assumeNonNull A fn id ty v).inst? (.inst j) = some op := by
  rw [assumeNonNull]
  split
  · exact Func.inst?_insert (Func.inst?_insert h)
  · exact h

theorem Func.inst?_replace {j : ℕ} (hj : j ≠ id) (h : fn.inst? (.inst j) = some op) :
    (fn.replace id v).inst? (.inst j) = some (op.mapOperands (substitute id v)) := by
  have hfind := Func.find_erase hj
    (Func.find_replaceAllUsesWith id v (Func.exists_of_inst? h))
  rw [Func.inst?, Func.replace, hfind]
  rfl

theorem rewriteUsers_isSome {A : Analyses} {store storeBB : ℕ} {glob : Bool} (hnodup : ids.Nodup)
    (s : Func × List ℕ) {p : Value} {vol : Bool}
    (hstore : s.1.inst? (.inst store) = some (.store v p vol))
    (hload : ∀ id ∈ ids, id ≠ store → ∃ ty p vol, s.1.inst? (.inst id) = some (.load ty p vol)) :
    (ids.foldlM (rewriteUser A store storeBB glob) s).isSome = true := by
  induction ids generalizing s v p with
  | nil => rfl
  | cons id ids ih =>
      obtain ⟨hnot, hnodup⟩ := List.nodup_cons.mp hnodup
      have hrest := fun j hj => hload j (List.mem_cons_of_mem _ hj)
      rw [List.foldlM_cons, rewriteUser]
      by_cases hid : id = store
      · rw [if_pos hid]
        exact ih hnodup s hstore hrest
      · obtain ⟨ty, q, vol', hop⟩ := hload id List.mem_cons_self hid
        rw [if_neg hid, hop]
        dsimp only
        split
        · exact ih hnodup (s.1, s.2 ++ [s.1.parent id]) hstore hrest
        · rw [storedValue, hstore]
          refine ih hnodup (_, s.2)
            (Func.inst?_replace (Ne.symm hid) (inst?_assumeNonNull _ _ _ _ hstore))
            fun j hj hjs => ?_
          obtain ⟨ty', q', vol'', hj'⟩ := hrest j hj hjs
          have hne : j ≠ id := fun h => hnot (h ▸ hj)
          exact ⟨_, _, _, Func.inst?_replace hne (inst?_assumeNonNull _ _ _ _ hj')⟩

theorem GEPInfo.usedIn_stores (info : GEPInfo) (b : ℕ) :
    (info.usedIn b).definingBlocks = info.definingBlocks ∧
      (info.usedIn b).onlyStore = info.onlyStore := by
  rw [GEPInfo.usedIn]
  split
  · split <;> exact ⟨rfl, rfl⟩
  · exact ⟨rfl, rfl⟩

/-- `DefiningBlocks` counts the stores, and `OnlyStore` is the last one. -/
theorem analyzeUsers_stores {info info' : GEPInfo}
    (h : ids.foldlM (analyzeUser fn) info = some info') :
    info'.definingBlocks.length = info.definingBlocks.length +
        (ids.filter fun id => (storedValue fn id).isSome).length ∧
      info'.onlyStore =
        ((ids.filter fun id => (storedValue fn id).isSome).getLast?).or info.onlyStore := by
  induction ids generalizing info with
  | nil =>
      obtain rfl := Option.some.inj h
      exact ⟨rfl, rfl⟩
  | cons id ids ih =>
      rw [List.foldlM_cons] at h
      obtain ⟨info₁, h₁, h₂⟩ := Option.bind_eq_some_iff.mp h
      obtain ⟨hlen, honly⟩ := ih h₂
      rw [hlen, honly, List.filter_cons, storedValue]
      rw [analyzeUser] at h₁
      split at h₁
      · rename_i value ptr vol heq
        obtain rfl := Option.some.inj h₁
        rw [(GEPInfo.usedIn_stores _ _).1, (GEPInfo.usedIn_stores _ _).2, heq]
        simp only [Option.isSome_some, if_true, List.length_append, List.length_cons,
          List.length_nil, List.getLast?_cons]
        refine ⟨by omega, ?_⟩
        cases (ids.filter fun id => (storedValue fn id).isSome).getLast? <;> rfl
      · rename_i ty ptr vol heq
        obtain rfl := Option.some.inj h₁
        rw [(GEPInfo.usedIn_stores _ _).1, (GEPInfo.usedIn_stores _ _).2, heq]
        exact ⟨rfl, rfl⟩
      · cases h₁

theorem rewriteSingleStore_isSome {A : Analyses} {store : ℕ} {info : GEPInfo}
    (hanalyze : analyzeGEP A fn gep = some info) (hnodup : (A.users fn gep).Nodup)
    (hone : info.definingBlocks.length = 1) (hstore : info.onlyStore = some store) :
    (rewriteSingleStore A fn gep store).isSome = true := by
  obtain ⟨hlen, honly⟩ := analyzeUsers_stores hanalyze
  obtain ⟨s, hs⟩ : ∃ s, ((A.users fn gep).filter fun id => (storedValue fn id).isSome) = [s] := by
    refine List.length_eq_one_iff.mp ?_
    rw [hone] at hlen
    exact (Nat.zero_add _).symm.trans hlen.symm
  rw [hs] at honly
  obtain rfl : store = s := Option.some.inj (hstore.symm.trans honly)
  have hmem : store ∈ (A.users fn gep).filter fun id => (storedValue fn id).isSome := by
    rw [hs]
    exact List.mem_singleton_self store
  obtain ⟨v, hv⟩ := Option.isSome_iff_exists.mp (List.mem_filter.mp hmem).2
  have hop : ∃ p vol, fn.inst? (.inst store) = some (.store v p vol) := by
    rw [storedValue] at hv
    split at hv
    · rename_i value p vol heq
      obtain rfl := Option.some.inj hv
      exact ⟨p, vol, heq⟩
    · cases hv
  obtain ⟨p, vol, hop⟩ := hop
  rw [rewriteSingleStore, hv]
  refine rewriteUsers_isSome hnodup (fn, []) hop fun id hid hne => ?_
  obtain ⟨u, hu, rfl⟩ := A.mem_users.mp hid
  have hu := (Func.mem_users.mp hu).1
  have hacc := isAccess_of_analyzeUsers hanalyze hu hid
  rw [Func.inst?_of_mem hu]
  cases hop' : u.op with
  | load ty q vol => exact ⟨ty, q, vol, rfl⟩
  | store w q vol =>
      have hmem : u.id ∈ (A.users fn gep).filter fun id => (storedValue fn id).isSome := by
        refine List.mem_filter.mpr ⟨hid, ?_⟩
        rw [storedValue, Func.inst?_of_mem hu, hop']
        rfl
      rw [hs] at hmem
      exact absurd (List.mem_singleton.mp hmem) hne
  | _ =>
      rw [hop'] at hacc
      exact absurd hacc (by simp [Op.isAccess])

/-! ## The characterisation -/

theorem promotable_users (h : isGEPPromotable fn gep = true) :
    (∀ u ∈ fn.users (.inst gep), promotableUser fn gep u = true) ∧
      ∃ u ∈ fn.users (.inst gep), u.op.isStore = true := by
  rw [isGEPPromotable] at h
  split at h
  · rw [Bool.and_eq_true, Bool.and_eq_true, List.all_eq_true, List.any_eq_true] at h
    exact ⟨h.1.2, h.2⟩
  · cases h

/-- Loads and stores of an accepted address use it once. -/
theorem count_le_one (huser : ∀ u ∈ fn.users (.inst gep), promotableUser fn gep u = true)
    (hacc : ∀ i ∈ fn.insts, .inst gep ∈ i.op.operands → i.op.isAccess = true) :
    ∀ i ∈ fn.insts, i.op.operands.count (.inst gep) ≤ 1 := by
  intro i hi
  by_cases hmem : Value.inst gep ∈ i.op.operands
  · have hprom := huser i (Func.mem_users.mpr ⟨hi, hmem⟩)
    have hai := hacc i hi hmem
    rw [promotableUser] at hprom
    cases hop : i.op with
    | load ty ptr vol => exact List.count_le_length
    | store value ptr vol =>
        rw [hop] at hprom
        have hne : value ≠ .inst gep := by
          intro heq
          simp [heq] at hprom
        rw [Op.operands, List.count_cons_of_ne hne]
        exact List.count_le_length
    | _ =>
        rw [hop] at hai
        exact absurd hai (by simp [Op.isAccess])
  · rw [List.count_eq_zero.mpr hmem]
    exact Nat.zero_le 1

/-- Use lists in program order, and no further knowledge. -/
def Analyses.plain : Analyses where
  users fn id := (fn.users (.inst id)).map Inst.id
  users_perm _ _ := List.Perm.refl _
  dominates _ _ := false
  idf _ _ := []
  phiOrder l := l
  phiOrder_perm _ := List.Perm.refl _
  assumesNonNull _ _ _ := false

/-- A stack slot with a store of 64 bits and one other user. -/
def slotFunc (user : Op) : Func where
  args := List.replicate 6 (.int 64)
  blocks := [⟨[⟨0, .intToPtr (.ptr 0) (.arg 5)⟩,
    ⟨1, .getElementPtr (.ptr 0) (.inst 0) [.element 1 (.const (.int 64) (-8))]⟩,
    ⟨2, .store (.arg 0) (.inst 1) false⟩, ⟨3, user⟩], []⟩]
  nodup := by
    show [0, 1, 2, 3].Nodup
    decide
  succs_lt := by simp

end PollyInstrew.Promote
