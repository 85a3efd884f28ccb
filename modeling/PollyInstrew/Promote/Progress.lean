import PollyInstrew.Promote.Rename

/-!
# What promotion does to the size of a function

Promotion never adds a load, a store or a `getelementptr`.  As long as it erases no
load and no store, it does not give new users to a `getelementptr` either.
-/

namespace PollyInstrew.Promote

variable {v : Value} {id k : ℕ}

/-! ## Counting -/

def Func.accesses (fn : Func) : ℕ := fn.insts.countP fun i => i.op.isAccess

/-- The names of the `getelementptr` instructions of some instructions. -/
def gepIds (l : List Inst) : List ℕ := (l.filter fun i => i.op.isGep).map Inst.id

def Func.geps (fn : Func) : List (List ℕ) := fn.blocks.map fun blk => gepIds blk.insts

def Func.gepIds (fn : Func) : List ℕ := fn.geps.flatten

def Func.shape (fn : Func) : List (List ℕ) := fn.blocks.map Block.succs

/-- What a step of promotion never changes or increases. -/
structure Keeps (fn fn' : Func) : Prop where
  geps : fn'.geps = fn.geps
  shape : fn'.shape = fn.shape
  accesses : fn'.accesses ≤ fn.accesses

theorem Keeps.refl (fn : Func) : Keeps fn fn := ⟨rfl, rfl, Nat.le_refl _⟩

theorem Keeps.trans {fn fn₁ fn₂ : Func} (h₁ : Keeps fn fn₁) (h₂ : Keeps fn₁ fn₂) :
    Keeps fn fn₂ :=
  ⟨h₂.geps.trans h₁.geps, h₂.shape.trans h₁.shape, Nat.le_trans h₂.accesses h₁.accesses⟩

theorem Keeps.gepIds {fn fn' : Func} (h : Keeps fn fn') : fn'.gepIds = fn.gepIds :=
  congrArg List.flatten h.geps

/-- The value is no `getelementptr` of the function. -/
def NonGep (fn : Func) (v : Value) : Prop := ∀ gep ∈ fn.gepIds, v ≠ .inst gep

theorem Keeps.nonGep {fn fn' : Func} (h : Keeps fn fn') :
    NonGep fn' v ↔ NonGep fn v := by
  rw [NonGep, NonGep, h.gepIds]

theorem Func.gepIds_eq (fn : Func) : fn.gepIds = Promote.gepIds fn.insts := by
  simp only [Func.gepIds, Func.geps, Promote.gepIds, Func.insts, List.filter_flatMap,
    List.map_flatMap]
  rw [List.flatMap_def]

theorem Func.mem_gepIds {fn : Func} {gep : ℕ} :
    gep ∈ fn.gepIds ↔ ∃ i ∈ fn.insts, i.op.isGep = true ∧ i.id = gep := by
  rw [fn.gepIds_eq, Promote.gepIds, List.mem_map]
  simp only [List.mem_filter, and_assoc]

theorem Func.not_mem_gepIds {fn : Func} {i : Inst} (hi : i ∈ fn.insts)
    (hop : i.op.isGep = false) : i.id ∉ fn.gepIds := by
  intro hmem
  obtain ⟨j, hj, hgep, hid⟩ := Func.mem_gepIds.mp hmem
  rw [List.inj_on_of_nodup_map fn.nodup hj hi hid, hop] at hgep
  exact absurd hgep (by simp)

theorem nonGep_inst {fn : Func} {i : Inst} (hi : i ∈ fn.insts) (hop : i.op.isGep = false) :
    NonGep fn (.inst i.id) := by
  intro gep hgep heq
  exact Func.not_mem_gepIds hi hop (Value.inst.inj heq ▸ hgep)

theorem Func.isUsed_iff {fn : Func} :
    fn.isUsed id = true ↔ ∃ i ∈ fn.insts, Value.inst id ∈ i.op.operands := by
  simp [Func.isUsed]

/-! ## Replacing uses -/

theorem accesses_replaceAllUsesWith (fn : Func) (id : ℕ) (v : Value) :
    (fn.replaceAllUsesWith id v).accesses = fn.accesses := by
  rw [Func.accesses, Func.accesses, Func.insts_replaceAllUsesWith, List.countP_map]
  refine List.countP_congr fun i _ => ?_
  simp [Inst.mapOperands]

theorem keeps_replaceAllUsesWith (fn : Func) (id : ℕ) (v : Value) :
    Keeps fn (fn.replaceAllUsesWith id v) where
  geps := by
    simp only [Func.geps, Func.replaceAllUsesWith, Func.edit, List.map_map]
    refine List.map_congr_left fun blk _ => ?_
    have hcomp : (fun i : Inst => i.op.isGep) ∘ Inst.mapOperands (substitute id v) =
        fun i => i.op.isGep := by
      funext i
      simp [Inst.mapOperands]
    simp only [Function.comp_apply, Promote.gepIds, List.filter_map, List.map_map, hcomp]
    rfl
  shape := by
    simp only [Func.shape, Func.replaceAllUsesWith, Func.edit, List.map_map]
    rfl
  accesses := Nat.le_of_eq (accesses_replaceAllUsesWith fn id v)

theorem isUsed_replaceAllUsesWith {fn : Func} {gep : ℕ}
    (h : (fn.replaceAllUsesWith id v).isUsed gep = true) (hv : v ≠ .inst gep) :
    fn.isUsed gep = true ∧ gep ≠ id := by
  obtain ⟨i, hi, hmem⟩ := Func.isUsed_iff.mp h
  rw [Func.insts_replaceAllUsesWith] at hi
  obtain ⟨j, hj, rfl⟩ := List.mem_map.mp hi
  rw [Inst.mapOperands, Op.operands_mapOperands] at hmem
  obtain ⟨w, hw, heq⟩ := List.mem_map.mp hmem
  rw [substitute] at heq
  split at heq
  · exact absurd heq hv
  · rename_i hne
    subst heq
    exact ⟨Func.isUsed_iff.mpr ⟨j, hj, hw⟩, fun h => hne (h ▸ rfl)⟩

/-! ## Erasing -/

theorem keeps_erase {fn : Func} (hid : id ∉ fn.gepIds) : Keeps fn (fn.erase id) where
  geps := by
    simp only [Func.geps, Func.erase, Func.edit, List.map_map]
    refine List.map_congr_left fun blk hblk => ?_
    simp only [Function.comp_apply, Promote.gepIds, List.filter_filter]
    congr 1
    refine List.filter_congr fun i hi => ?_
    have hmem : i ∈ fn.insts := List.mem_flatMap.mpr ⟨blk, hblk, hi⟩
    cases hop : i.op.isGep with
    | false => rfl
    | true =>
        have hne : i.id ≠ id := fun h => hid (Func.mem_gepIds.mpr ⟨i, hmem, hop, h⟩)
        simp [hne]
  shape := by
    simp only [Func.shape, Func.erase, Func.edit, List.map_map]
    rfl
  accesses := by
    rw [Func.accesses, Func.accesses, Func.insts_erase, List.countP_filter]
    exact List.countP_mono_left fun i _ h => (Bool.and_eq_true _ _ ▸ h).1

theorem accesses_erase_lt {fn : Func} {i : Inst} (hi : i ∈ fn.insts)
    (hacc : i.op.isAccess = true) : (fn.erase i.id).accesses < fn.accesses := by
  rw [Func.accesses, Func.accesses, Func.insts_erase]
  have hsplit := List.countP_eq_countP_filter_add fn.insts (fun i => i.op.isAccess)
    (fun j => decide (j.id ≠ i.id))
  have hpos : 0 < (fn.insts.filter fun j => !decide (j.id ≠ i.id)).countP
      fun i => i.op.isAccess := by
    refine List.countP_pos_iff.mpr ⟨i, List.mem_filter.mpr ⟨hi, ?_⟩, hacc⟩
    simp
  omega

theorem keeps_replace {fn : Func} (hid : id ∉ fn.gepIds) :
    Keeps fn (fn.replace id v) := by
  have h₁ := keeps_replaceAllUsesWith fn id v
  exact h₁.trans (keeps_erase (by rwa [h₁.gepIds]))

/-! ## Inserting -/

theorem gepIds_insertIdx {l : List Inst} {i : Inst} (hi : i.op.isGep = false) :
    Promote.gepIds (l.insertIdx k i) = Promote.gepIds l := by
  rcases insertIdx_cases l k i with ⟨pre, post, hl, hm⟩ | hm
  · rw [hm, hl]
    simp [Promote.gepIds, hi]
  · rw [hm]

theorem map_modify_of_eq {α β : Type*} (l : List α) (k : ℕ) {change : α → α} {f : α → β}
    (h : ∀ a ∈ l, f (change a) = f a) : (l.modify k change).map f = l.map f := by
  rcases modify_cases l k change with ⟨pre, a, post, hl, hm⟩ | hm
  · rw [hm, List.map_append, List.map_cons, h a (by rw [hl]; simp), hl, List.map_append,
      List.map_cons]
  · rw [hm]

theorem accesses_insert {fn : Func} {b : ℕ} {op : Op} (hacc : op.isAccess = false) :
    (fn.insert b k op).accesses = fn.accesses := by
  rw [Func.accesses, Func.accesses]
  rcases fn.insts_insert b k op with ⟨pre, post, h₁, h₂⟩ | h₂
  · rw [h₂, h₁]
    simp [hacc]
  · rw [h₂]

theorem keeps_insert {fn : Func} {b : ℕ} {op : Op} (hgep : op.isGep = false)
    (hacc : op.isAccess = false) : Keeps fn (fn.insert b k op) where
  geps := map_modify_of_eq _ _ fun _ _ => gepIds_insertIdx hgep
  shape := map_modify_of_eq _ _ fun _ _ => rfl
  accesses := Nat.le_of_eq (accesses_insert hacc)

theorem keeps_assumeNonNull (A : Analyses) (fn : Func) (id : ℕ) (ty : Ty) (v : Value) :
    Keeps fn (assumeNonNull A fn id ty v) := by
  rw [assumeNonNull]
  split
  · exact (keeps_insert rfl rfl).trans (keeps_insert rfl rfl)
  · exact Keeps.refl fn

/-- Replacing a load makes the function smaller. -/
theorem replaceLoad_lt (A : Analyses) {fn : Func} {ty : Ty} {p : Value} {vol : Bool}
    (h : fn.inst? (.inst id) = some (.load ty p vol)) (v w : Value) :
    Keeps fn ((assumeNonNull A fn id ty v).replace id w) ∧
      ((assumeNonNull A fn id ty v).replace id w).accesses < fn.accesses := by
  have h₁ := keeps_assumeNonNull A fn id ty v
  have hfind := Func.exists_of_inst? (inst?_assumeNonNull A id ty v h)
  have hmem := (Func.find_eq_some_iff.mp hfind).1
  have hid : id ∉ (assumeNonNull A fn id ty v).gepIds := Func.not_mem_gepIds hmem rfl
  refine ⟨h₁.trans (keeps_replace hid), ?_⟩
  have hfind₂ := Func.find_replaceAllUsesWith id w hfind
  have hlt := accesses_erase_lt (Func.find_eq_some_iff.mp hfind₂).1 rfl
  rw [accesses_replaceAllUsesWith] at hlt
  exact Nat.lt_of_lt_of_le hlt h₁.accesses

theorem eraseStore_lt {fn : Func} {p : Value} {vol : Bool}
    (h : fn.inst? (.inst id) = some (.store v p vol)) :
    Keeps fn (fn.erase id) ∧ (fn.erase id).accesses < fn.accesses := by
  have hmem := (Func.find_eq_some_iff.mp (Func.exists_of_inst? h)).1
  exact ⟨keeps_erase (Func.not_mem_gepIds hmem rfl), accesses_erase_lt hmem rfl⟩

/-! ## Steps that give no new users -/

/-- No instruction gets a `getelementptr` as a new operand. -/
structure Calm (fn fn' : Func) : Prop extends Keeps fn fn' where
  operands : ∀ j ∈ fn'.insts, ∀ v ∈ j.op.operands,
    NonGep fn v ∨ ∃ i ∈ fn.insts, i.id = j.id ∧ v ∈ i.op.operands

theorem Calm.refl (fn : Func) : Calm fn fn where
  toKeeps := Keeps.refl fn
  operands j hj _ hv := .inr ⟨j, hj, rfl, hv⟩

theorem Calm.trans {fn fn₁ fn₂ : Func} (h₁ : Calm fn fn₁) (h₂ : Calm fn₁ fn₂) : Calm fn fn₂ where
  toKeeps := h₁.toKeeps.trans h₂.toKeeps
  operands j hj v hv := by
    rcases h₂.operands j hj v hv with hnon | ⟨i, hi, hid, hv⟩
    · exact .inl (h₁.nonGep.mp hnon)
    · rcases h₁.operands i hi v hv with hnon | ⟨k, hk, hkd, hv⟩
      · exact .inl hnon
      · exact .inr ⟨k, hk, hkd.trans hid, hv⟩

theorem Calm.isUsed {fn fn' : Func} (h : Calm fn fn') {gep : ℕ} (hgep : gep ∈ fn.gepIds)
    (hused : fn'.isUsed gep = true) : fn.isUsed gep = true := by
  obtain ⟨j, hj, hv⟩ := Func.isUsed_iff.mp hused
  rcases h.operands j hj _ hv with hnon | ⟨i, hi, -, hv⟩
  · exact absurd rfl (hnon gep hgep)
  · exact Func.isUsed_iff.mpr ⟨i, hi, hv⟩

theorem calm_replaceAllUsesWith {fn : Func} (hv : NonGep fn v) (id : ℕ) :
    Calm fn (fn.replaceAllUsesWith id v) where
  toKeeps := keeps_replaceAllUsesWith fn id v
  operands j hj w hw := by
    rw [Func.insts_replaceAllUsesWith] at hj
    obtain ⟨i, hi, rfl⟩ := List.mem_map.mp hj
    rw [Inst.mapOperands, Op.operands_mapOperands] at hw
    obtain ⟨u, hu, rfl⟩ := List.mem_map.mp hw
    rw [substitute]
    split
    · exact .inl hv
    · exact .inr ⟨i, hi, rfl, hu⟩

theorem calm_erase {fn : Func} (hid : id ∉ fn.gepIds) : Calm fn (fn.erase id) where
  toKeeps := keeps_erase hid
  operands j hj v hv := by
    rw [Func.insts_erase] at hj
    exact .inr ⟨j, (List.mem_filter.mp hj).1, rfl, hv⟩

theorem calm_replace {fn : Func} (hid : id ∉ fn.gepIds) (hv : NonGep fn v) :
    Calm fn (fn.replace id v) := by
  have h₁ := calm_replaceAllUsesWith hv id
  exact h₁.trans (calm_erase (by rwa [h₁.gepIds]))

theorem calm_insert {fn : Func} {b : ℕ} {ty : Ty} : Calm fn (fn.insert b k (.phi ty [])) where
  toKeeps := keeps_insert rfl rfl
  operands j hj v hv := by
    rcases fn.insts_insert b k (.phi ty []) with ⟨pre, post, h₁, h₂⟩ | h₂
    · rw [h₂, List.mem_append, List.mem_cons] at hj
      rcases hj with hj | rfl | hj
      · exact .inr ⟨j, by rw [h₁]; simp [hj], rfl, hv⟩
      · exact absurd hv List.not_mem_nil
      · exact .inr ⟨j, by rw [h₁]; simp [hj], rfl, hv⟩
    · exact .inr ⟨j, h₂ ▸ hj, rfl, hv⟩

/-- An instruction of the same kind with further operands. -/
structure Inst.Extends (new : Value → Prop) (i j : Inst) : Prop where
  id : j.id = i.id
  isGep : j.op.isGep = i.op.isGep
  isAccess : j.op.isAccess = i.op.isAccess
  operands : ∀ v ∈ j.op.operands, v ∈ i.op.operands ∨ new v

theorem Inst.Extends.refl (new : Value → Prop) (i : Inst) : i.Extends new i :=
  ⟨rfl, rfl, rfl, fun _ hv => .inl hv⟩

theorem gepIds_of_extends {new : Value → Prop} {l l' : List Inst}
    (h : List.Forall₂ (Inst.Extends new) l l') : Promote.gepIds l' = Promote.gepIds l := by
  induction h with
  | nil => rfl
  | cons hij _ ih =>
      simp only [Promote.gepIds, List.filter_cons, hij.isGep] at ih ⊢
      split
      · rw [List.map_cons, List.map_cons, hij.id, ih]
      · exact ih

theorem countP_of_extends {new : Value → Prop} {l l' : List Inst}
    (h : List.Forall₂ (Inst.Extends new) l l') :
    (l'.countP fun i => i.op.isAccess) = l.countP fun i => i.op.isAccess := by
  induction h with
  | nil => rfl
  | cons hij _ ih => rw [List.countP_cons, List.countP_cons, hij.isAccess, ih]

section EditBlock

variable {fn : Func} {b : ℕ} {change : List Inst → List Inst}
  {hchange : ∀ l, ((change l).map Inst.id).Sublist (l.map Inst.id)} {new : Value → Prop}
  (h : ∀ l, (∀ i ∈ l, i ∈ fn.insts) → List.Forall₂ (Inst.Extends new) l (change l))

include h

theorem keeps_editBlock : Keeps fn (fn.editBlock b change hchange) where
  geps := map_modify_of_eq _ _ fun blk hblk =>
    gepIds_of_extends (h blk.insts fun _ hi => List.mem_flatMap.mpr ⟨blk, hblk, hi⟩)
  shape := map_modify_of_eq _ _ fun _ _ => rfl
  accesses := by
    rw [Func.accesses, Func.accesses]
    rcases fn.insts_editBlock b hchange with ⟨pre, l, post, h₁, h₂⟩ | h₂
    · rw [h₂, h₁, List.countP_append, List.countP_append, List.countP_append,
        List.countP_append, countP_of_extends (h l fun i hi => by rw [h₁]; simp [hi])]
    · rw [h₂]

theorem calm_editBlock (hnew : ∀ v, new v → NonGep fn v) :
    Calm fn (fn.editBlock b change hchange) where
  toKeeps := keeps_editBlock h
  operands j hj v hv := by
    rcases fn.insts_editBlock b hchange with ⟨pre, l, post, h₁, h₂⟩ | h₂
    · rw [h₂, List.mem_append, List.mem_append] at hj
      rcases hj with hj | hj | hj
      · exact .inr ⟨j, by rw [h₁]; simp [hj], rfl, hv⟩
      · have hl := h l fun i hi => by rw [h₁]; simp [hi]
        obtain ⟨n, hn⟩ := List.getElem?_of_mem hj
        obtain ⟨hlt, -⟩ := List.getElem?_eq_some_iff.mp hn
        have hlen := hl.length_eq
        have hext := hl.get (by omega) hlt
        rw [List.getElem?_eq_getElem hlt] at hn
        obtain rfl := Option.some.inj hn
        rcases hext.operands v hv with hv | hv
        · refine .inr ⟨l[n], ?_, hext.id.symm, hv⟩
          rw [h₁]
          simp
        · exact .inl (hnew v hv)
      · exact .inr ⟨j, by rw [h₁]; simp [hj], rfl, hv⟩
    · exact .inr ⟨j, h₂ ▸ hj, rfl, hv⟩

end EditBlock

/-! ## Renaming -/

theorem extends_addIncoming {new : Value → Prop} (i : Inst) {numOperands : ℕ}
    (hphi : i.op.numIncoming = some numOperands) {entries : List (Value × ℕ)}
    (hnew : ∀ e ∈ entries, new e.1) : i.Extends new ⟨i.id, i.op.addIncoming entries⟩ := by
  cases hop : i.op with
  | phi ty incoming =>
      refine ⟨rfl, by rw [hop]; rfl, by rw [hop]; rfl, fun v hv => ?_⟩
      rw [hop]
      simp only [Op.addIncoming, Op.operands, List.map_append, List.mem_append] at hv ⊢
      rcases hv with hv | hv
      · exact .inl hv
      · obtain ⟨e, he, rfl⟩ := List.mem_map.mp hv
        exact .inr (hnew e he)
  | _ =>
      rw [hop] at hphi
      exact absurd hphi (by simp [Op.numIncoming])

theorem Op.isGep_of_numIncoming {op : Op} {n : ℕ} (h : op.numIncoming = some n) :
    op.isGep = false := by
  cases op with
  | getElementPtr ty base indices => exact absurd h (by simp [Op.numIncoming])
  | _ => rfl

theorem addIncoming_extends (new : Value → Prop) (phis : PhiMap) (numOperands numEdges pred : ℕ)
    (l : List Inst) (values : ℕ → Value) (hvalues : ∀ n, new (values n))
    (hphi : ∀ i ∈ l, i.op.isGep = false → new (.inst i.id)) :
    List.Forall₂ (Inst.Extends new) l (addIncoming phis numOperands numEdges pred l values).1 ∧
      ∀ n, new ((addIncoming phis numOperands numEdges pred l values).2 n) := by
  induction l generalizing values with
  | nil => exact ⟨.nil, hvalues⟩
  | cons i l ih =>
      rw [addIncoming]
      split
      · rename_i hi
        have hnew : new (.inst i.id) := hphi i List.mem_cons_self (Op.isGep_of_numIncoming hi)
        obtain ⟨h₁, h₂⟩ := ih (Function.update values ((phiToGEPMap phis i.id).getD 0) (.inst i.id))
          (fun n => by
            rw [Function.update_apply]
            split
            · exact hnew
            · exact hvalues n)
          fun j hj => hphi j (List.mem_cons_of_mem _ hj)
        refine ⟨.cons (extends_addIncoming i hi fun e he => ?_) h₁, h₂⟩
        rw [List.eq_of_mem_replicate he]
        exact hvalues _
      · exact ⟨List.forall₂_same.mpr fun j _ => Inst.Extends.refl new j, hvalues⟩

theorem updatePhis_keeps (phis : PhiMap) (fn : Func) (b : ℕ) (pred : Option ℕ)
    (values : ℕ → Value) : Keeps fn (updatePhis phis fn b pred values).1 := by
  unfold updatePhis
  split
  · split
    · dsimp only
      exact keeps_editBlock fun l _ =>
        (addIncoming_extends (fun _ => True) _ _ _ _ l values (fun _ => trivial)
          fun _ _ _ => trivial).1
    · exact Keeps.refl fn
  · exact Keeps.refl fn

theorem updatePhis_calm (phis : PhiMap) (fn : Func) (b : ℕ) (pred : Option ℕ)
    (values : ℕ → Value) (hvalues : ∀ n, NonGep fn (values n)) :
    Calm fn (updatePhis phis fn b pred values).1 ∧
      ∀ n, NonGep fn ((updatePhis phis fn b pred values).2 n) := by
  unfold updatePhis
  split
  · split
    · dsimp only
      refine ⟨calm_editBlock (fun l hl => ?_) fun _ hv => hv, ?_⟩
      · exact (addIncoming_extends _ _ _ _ _ l values hvalues
          fun i hi hop => nonGep_inst (hl i hi) hop).1
      · exact (addIncoming_extends _ _ _ _ _ _ values hvalues
          fun i hi hop => nonGep_inst (Func.mem_insts_of_block hi) hop).2
    · exact ⟨Calm.refl fn, hvalues⟩
  · exact ⟨Calm.refl fn, hvalues⟩

/-- An instruction is left alone, or the function gets smaller. -/
theorem renameInst_cases (A : Analyses) (lookup : ℕ → Option ℕ) (s : Func × (ℕ → Value))
    (id : ℕ) :
    renameInst A lookup s id = s ∨ (Keeps s.1 (renameInst A lookup s id).1 ∧
      (renameInst A lookup s id).1.accesses < s.1.accesses) := by
  rw [renameInst]
  split
  · rename_i heq
    split
    · exact .inl rfl
    · exact .inr (replaceLoad_lt A heq _ _)
  · rename_i heq
    split
    · exact .inl rfl
    · exact .inr (eraseStore_lt heq)
  · exact .inl rfl

theorem renameInsts_cases (A : Analyses) (lookup : ℕ → Option ℕ) (ids : List ℕ)
    (s : Func × (ℕ → Value)) :
    ids.foldl (renameInst A lookup) s = s ∨
      (Keeps s.1 (ids.foldl (renameInst A lookup) s).1 ∧
        (ids.foldl (renameInst A lookup) s).1.accesses < s.1.accesses) := by
  induction ids generalizing s with
  | nil => exact .inl rfl
  | cons id ids ih =>
      rw [List.foldl_cons]
      rcases renameInst_cases A lookup s id with heq | ⟨hkeeps, hlt⟩
      · rw [heq]
        exact ih s
      · rcases ih (renameInst A lookup s id) with heq | ⟨hkeeps', hlt'⟩
        · rw [heq]
          exact .inr ⟨hkeeps, hlt⟩
        · exact .inr ⟨hkeeps.trans hkeeps', Nat.lt_trans hlt' hlt⟩

/-- The state of the pass on the way from `fn₀`: if nothing was erased, no job carries a
`getelementptr`. -/
structure RenameInv (fn₀ : Func) (s : Func × List ℕ) (work : List RenamePassData) : Prop where
  keeps : Keeps fn₀ s.1
  calm : s.1.accesses = fn₀.accesses → Calm fn₀ s.1 ∧
    ∀ job ∈ work, ∀ n, NonGep fn₀ (job.values n)

theorem RenameInv.step {A : Analyses} {lookup : ℕ → Option ℕ} {phis : PhiMap} {fn₀ : Func}
    {s : Func × List ℕ} {job : RenamePassData} {work : List RenamePassData}
    (h : RenameInv fn₀ s (job :: work)) :
    RenameInv fn₀ (renameStep A lookup phis s job).1
      ((renameStep A lookup phis s job).2 ++ work) := by
  have hkeeps := updatePhis_keeps phis s.1 job.bb job.pred job.values
  have hcalm : (updatePhis phis s.1 job.bb job.pred job.values).1.accesses = fn₀.accesses →
      Calm fn₀ (updatePhis phis s.1 job.bb job.pred job.values).1 ∧
        (∀ n, NonGep fn₀ ((updatePhis phis s.1 job.bb job.pred job.values).2 n)) ∧
        ∀ job ∈ work, ∀ n, NonGep fn₀ (job.values n) := by
    intro heq
    have hs := h.keeps.accesses
    have hu := hkeeps.accesses
    obtain ⟨hc, hjobs⟩ := h.calm (by omega)
    obtain ⟨hc', hvalues⟩ := updatePhis_calm phis s.1 job.bb job.pred job.values
      fun n => h.keeps.nonGep.mpr (hjobs job List.mem_cons_self n)
    exact ⟨hc.trans hc', fun n => h.keeps.nonGep.mp (hvalues n),
      fun j hj => hjobs j (List.mem_cons_of_mem _ hj)⟩
  rw [renameStep]
  generalize updatePhis phis s.1 job.bb job.pred job.values = t at hkeeps hcalm ⊢
  dsimp only
  split
  · exact ⟨h.keeps.trans hkeeps, fun heq => ⟨(hcalm heq).1, (hcalm heq).2.2⟩⟩
  · have hinsts := renameInsts_cases A lookup ((t.1.block job.bb).insts.map Inst.id) t
    generalize ((t.1.block job.bb).insts.map Inst.id).foldl (renameInst A lookup) t = u at hinsts ⊢
    have hku : Keeps t.1 u.1 := by
      rcases hinsts with rfl | ⟨hk, -⟩
      · exact Keeps.refl _
      · exact hk
    have hfinal : u.1.accesses = fn₀.accesses → u = t := by
      intro heq
      rcases hinsts with rfl | ⟨-, hlt⟩
      · rfl
      · have hs := h.keeps.accesses
        have ht := hkeeps.accesses
        omega
    have hall := h.keeps.trans (hkeeps.trans hku)
    split
    · refine ⟨hall, fun heq => ?_⟩
      obtain rfl := hfinal heq
      exact ⟨(hcalm heq).1, (hcalm heq).2.2⟩
    · refine ⟨hall, fun heq => ?_⟩
      obtain rfl := hfinal heq
      refine ⟨(hcalm heq).1, fun j hj => ?_⟩
      rcases List.mem_append.mp hj with hj | hj
      · obtain ⟨c, -, rfl⟩ := List.mem_map.mp hj
        exact (hcalm heq).2.1
      · exact (hcalm heq).2.2 j hj

end PollyInstrew.Promote
