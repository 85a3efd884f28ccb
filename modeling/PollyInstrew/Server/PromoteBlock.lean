import PollyInstrew.Server.PromoteSimple

/-!
# Slots of one block

`GEPpromoteSingleBlock` replaces every load by the operand of the nearest store
above it.  Operands are replaced as the pass goes on, so this operand may itself
have been a load of the slot; it has the same value from there to the end of the
block.  At the end both passes are put together.
-/

namespace PollyInstrew.Server

open PollyInstrew.Dominance

/-! ## A slot of one block -/

theorem nearestStore_cons (s : ℕ × Operand) (stores : List (ℕ × Operand)) (index : ℕ) :
    nearestStore (s :: stores) index =
      if s.1 < index then some ((nearestStore stores index).getD s) else none := by
  by_cases h : s.1 < index
  · rw [nearestStore, List.takeWhile_cons_of_pos (by simpa using h), List.getLast?_cons, if_pos h]
    rfl
  · rw [nearestStore, List.takeWhile_cons_of_neg (by simpa using h), if_neg h]
    rfl

theorem nearestStore_eq_none_iff {stores : List (ℕ × Operand)} {index : ℕ}
    (hsorted : stores.Pairwise fun a b => a.1 ≤ b.1) :
    nearestStore stores index = none ↔ ∀ s ∈ stores, index ≤ s.1 := by
  cases stores with
  | nil => simp [nearestStore]
  | cons s stores =>
      rw [List.pairwise_cons] at hsorted
      rw [nearestStore_cons]
      by_cases h : s.1 < index
      · rw [if_pos h]
        exact ⟨fun hsome => absurd hsome (by simp),
          fun hall => absurd h (Nat.not_lt.mpr (hall s List.mem_cons_self))⟩
      · simp only [h, if_false, true_iff]
        intro t ht
        rcases List.mem_cons.mp ht with rfl | ht
        · exact Nat.le_of_not_lt h
        · exact Nat.le_trans (Nat.le_of_not_lt h) (hsorted.1 t ht)

/-- The nearest store is the last one above the index. -/
theorem nearestStore_spec {stores : List (ℕ × Operand)} {index : ℕ} {s : ℕ × Operand}
    (hsorted : stores.Pairwise fun a b => a.1 ≤ b.1)
    (h : nearestStore stores index = some s) :
    s ∈ stores ∧ s.1 < index ∧ ∀ t ∈ stores, t.1 < index → t.1 ≤ s.1 := by
  induction stores with
  | nil => exact absurd h (by simp [nearestStore])
  | cons t stores ih =>
      rw [List.pairwise_cons] at hsorted
      rw [nearestStore_cons] at h
      split at h
      · rename_i ht
        cases hrest : nearestStore stores index with
        | none =>
            rw [hrest] at h
            obtain rfl := Option.some.inj h
            refine ⟨List.mem_cons_self, ht, fun r hr hlt => ?_⟩
            rcases List.mem_cons.mp hr with rfl | hr
            · exact Nat.le_refl _
            · have hle := (nearestStore_eq_none_iff hsorted.2).mp hrest r hr
              omega
        | some r =>
            rw [hrest] at h
            obtain rfl := Option.some.inj h
            obtain ⟨hmem, hlt, hmax⟩ := ih hsorted.2 hrest
            refine ⟨List.mem_cons_of_mem _ hmem, hlt, fun r hr hr' => ?_⟩
            rcases List.mem_cons.mp hr with rfl | hr
            · exact hsorted.1 _ hmem
            · exact hmax r hr hr'
      · cases h

theorem sorted_storesByIndex (f : Func) (users : List (ℕ × ℕ)) :
    (storesByIndex f users).Pairwise fun a b => a.1 ≤ b.1 := by
  let le (a b : ℕ × Operand) : Bool := decide (a.1 ≤ b.1)
  have htrans : ∀ a b c, le a b → le b c → le a c := by
    intro a b c hab hbc
    simp only [le, decide_eq_true_eq] at *
    omega
  have htotal : ∀ a b, le a b || le b a := by
    intro a b
    simp only [le, Bool.or_eq_true, decide_eq_true_eq]
    omega
  have hsorted := List.pairwise_mergeSort htrans htotal (users.filterMap (indexedStore f))
  simpa [storesByIndex, le] using hsorted

theorem mem_storesByIndex {f : Func} {users : List (ℕ × ℕ)} {s : ℕ × Operand} :
    s ∈ storesByIndex f users ↔
      ∃ u ∈ users, u.2 = s.1 ∧ ∃ gep, f.at u = some (.store s.2 gep) := by
  rw [storesByIndex, List.mem_mergeSort, List.mem_filterMap]
  constructor
  · rintro ⟨u, hu, h⟩
    rw [indexedStore] at h
    split at h
    · rename_i value gep hat
      obtain rfl := Option.some.inj h
      exact ⟨u, hu, rfl, gep, hat⟩
    · cases h
  · rintro ⟨u, hu, hs, gep, hat⟩
    exact ⟨u, hu, by rw [indexedStore, hat]; exact congrArg some (Prod.ext hs rfl)⟩

section SingleBlock

variable {f : Func} {gep b : ℕ} {users : List (ℕ × ℕ)}

/-- From a point of the block on, two operands have the same value. -/
def EqFrom (f : Func) (b k : ℕ) (v w : Operand) : Prop :=
  ∀ (α : Type) (d : Driver α) (mem : ℕ → Option α) (n : ℕ) (st : ExecState α) (k' : ℕ),
    f.run d mem n = some st → st.block = b → k < k' → k' ≤ (f.block b).body.length →
    v.eval d (f.machineAt d st k').env = w.eval d (f.machineAt d st k').env

/-- Only loads of the slot have been replaced, by operands with the same
value. -/
structure BlockInv (f : Func) (gep b : ℕ) (p : Promotion) : Prop where
  uses : ∀ v, p.uses v ≠ v → ∃ id k, v = .name (.inst id) ∧
    f.at (b, k) = some (.load id gep) ∧ f.Available (p.uses v) (b, k + 1) ∧
    EqFrom f b k v (p.uses v)
  right : ∀ r ∈ p.replaced, Right f gep r

theorem blockInv_init : BlockInv f gep b .init where
  uses v hv := absurd rfl hv
  right r hr := absurd hr (by simp [Promotion.init])

/-- What a store of the block puts into the slot has kept its value. -/
theorem BlockInv.stored (hssa : f.Ssa) (hb : f.cfg.Reachable b) {p : Promotion}
    (h : BlockInv f gep b p) {j : ℕ} {w : Operand} (hw : f.Available w (b, j + 1)) :
    f.Available (p.uses w) (b, j + 1) ∧ EqFrom f b j w (p.uses w) := by
  by_cases huses : p.uses w = w
  · rw [huses]
    exact ⟨hw, fun _ _ _ _ _ _ _ _ _ _ => rfl⟩
  · obtain ⟨id, k, rfl, hat, havail, heq⟩ := h.uses w huses
    obtain ⟨q, hq, hbefore⟩ := hw _ rfl
    rw [hssa.unique _ q _ hq (defines_at hat rfl)] at hbefore
    have hkj : k < j := by
      rcases hbefore with hbefore | ⟨-, hlt⟩
      · exact absurd rfl hbefore.2
      · exact Nat.lt_of_succ_lt_succ hlt
    exact ⟨havail.mono hbefore hb,
      fun α d mem n st k' hrun hst hlt =>
        heq α d mem n st k' hrun hst (Nat.lt_trans hkj hlt)⟩

/-- The load reads what the nearest store above has put into the slot. -/
theorem mem_eq_stored (hssa : f.Ssa) {α : Type} {d : Driver α} {st : ExecState α} {j k : ℕ}
    {w : Operand} (hat : f.at (st.block, j) = some (.store w gep))
    (hw : f.Available w (st.block, j + 1)) (hjk : j < k)
    (hk : k ≤ (f.block st.block).body.length)
    (hnone : ∀ m v, j < m → m < k → f.at (st.block, m) ≠ some (.store v gep)) :
    (f.machineAt d st k).mem gep = w.eval d (f.machineAt d st k).env := by
  have hmem : (f.machineAt d st k).mem gep = (f.machineAt d st (j + 1)).mem gep := by
    induction k with
    | zero => omega
    | succ k ih =>
        by_cases hlast : j = k
        · rw [hlast]
        · obtain ⟨i, hi⟩ := exists_at (Nat.lt_of_succ_le hk)
          rw [machineAt_succ hi, Instr.mem_exec]
          · exact ih (by omega) (by omega)
              (fun m v hlt hlt' => hnone m v hlt (Nat.lt_succ_of_lt hlt'))
          · rintro v rfl
            exact hnone k v (by omega) (Nat.lt_succ_self k) hi
  rw [hmem, eval_machineAt hssa hw (Nat.le_of_lt hjk) hk, machineAt_succ hat]
  simp only [Instr.exec, Function.update_self]

/-- A load has the value of an operand that is available and that it reads. -/
theorem eqFrom_of_right (hssa : f.Ssa) {id k : ℕ} {v : Operand}
    (hat : f.at (b, k) = some (.load id gep)) (hv : f.Available v (b, k + 1))
    (hright : Right f gep (id, v)) : EqFrom f b k (.name (.inst id)) v := by
  intro α d mem n st k' hrun hst hlt hle
  subst hst
  have hid : f.Available (.name (.inst id)) (st.block, k + 1 + 1) := by
    rintro x ⟨⟩
    exact ⟨_, defines_at hat rfl, .inr ⟨rfl, Nat.lt_succ_self _⟩⟩
  rw [eval_machineAt hssa hid (Nat.succ_le_of_lt hlt) hle,
    eval_machineAt hssa hv (Nat.le_of_lt hlt) hle, machineAt_succ hat, Operand.eval]
  simp only [Instr.exec, Function.update_self]
  exact hright α d mem n st k hrun hat

theorem BlockInv.replace (hssa : f.Ssa) (hb : f.cfg.Reachable b) {p : Promotion}
    (h : BlockInv f gep b p) {id k : ℕ} {v : Operand}
    (hat : f.at (b, k) = some (.load id gep)) (hv : f.Available v (b, k + 1))
    (hright : Right f gep (id, v)) : BlockInv f gep b (p.replace id v) := by
  have hne : v ≠ .name (.inst id) := by
    rintro rfl
    obtain ⟨q, hq, hbefore⟩ := hv _ rfl
    rw [hssa.unique _ q _ hq (defines_at hat rfl)] at hbefore
    exact Cfg.Before.irrefl _ hbefore
  have heqid := eqFrom_of_right hssa hat hv hright
  refine ⟨fun x hx => ?_, fun r hr => ?_⟩
  · simp only [Promotion.replace, if_neg hne] at hx ⊢
    by_cases hid : p.uses x = .name (.inst id)
    · rw [if_pos hid]
      by_cases hsame : x = .name (.inst id)
      · exact ⟨id, k, hsame, hat, hv, hsame ▸ heqid⟩
      · obtain ⟨id', k', rfl, hat', havail, heq⟩ :=
          h.uses x (fun huses => hsame (huses.symm.trans hid))
        rw [hid] at havail heq
        obtain ⟨q, hq, hbefore⟩ := havail _ rfl
        rw [hssa.unique _ q _ hq (defines_at hat rfl)] at hbefore
        have hlt : k < k' := by
          rcases hbefore with hbefore | ⟨-, hlt⟩
          · exact absurd rfl hbefore.2
          · exact Nat.lt_of_succ_lt_succ hlt
        refine ⟨id', k', rfl, hat', hv.mono hbefore hb, ?_⟩
        intro α d mem n st m hrun hst hm hle
        rw [heq α d mem n st m hrun hst hm hle]
        exact heqid α d mem n st m hrun hst (Nat.lt_trans hlt hm) hle
    · rw [if_neg hid] at hx ⊢
      exact h.uses x hx
  · rw [Promotion.replace] at hr
    simp only [if_neg hne] at hr
    rcases List.mem_append.mp hr with hr | hr
    · exact h.right r hr
    · rw [List.mem_singleton.mp hr]
      exact hright

/-- The stores are those of the slot, which is accessed in the block only. -/
structure BlockStores (f : Func) (gep b : ℕ) (stores : List (ℕ × Operand)) : Prop where
  nonempty : stores ≠ []
  sorted : stores.Pairwise fun s t => s.1 ≤ t.1
  mem_iff : ∀ j w, (j, w) ∈ stores ↔ f.at (b, j) = some (.store w gep)

theorem BlockStores.right (hssa : f.Ssa) (hb : f.cfg.Reachable b)
    {stores : List (ℕ × Operand)} (hstores : BlockStores f gep b stores)
    {p : Promotion} (h : BlockInv f gep b p) {id k j : ℕ} {w : Operand}
    (hat : f.at (b, k) = some (.load id gep)) (hnear : nearestStore stores k = some (j, w)) :
    f.Available (p.uses w) (b, k + 1) ∧ Right f gep (id, p.uses w) := by
  obtain ⟨hmem, hjk, hmax⟩ := nearestStore_spec hstores.sorted hnear
  have hstore := (hstores.mem_iff j w).mp hmem
  have hw : f.Available w (b, j + 1) := hssa.use b j _ w hb hstore List.mem_cons_self
  obtain ⟨havail, heq⟩ := h.stored hssa hb hw
  refine ⟨havail.mono (.inr ⟨rfl, Nat.succ_lt_succ hjk⟩) hb, ?_⟩
  intro α d mem n st k' hrun hload
  obtain ⟨rfl, hk⟩ := Prod.mk.inj
    (hssa.unique _ _ _ (defines_at hat rfl) (defines_at hload rfl))
  obtain rfl : k = k' := Nat.succ.inj hk
  have hle := Nat.le_of_lt (lt_length_of_at hload)
  rw [mem_eq_stored hssa hstore hw hjk hle, heq α d mem n st k hrun rfl hjk hle]
  intro m v hlt hlt' hother
  have := hmax (m, v) ((hstores.mem_iff m v).mpr hother) hlt'
  dsimp only at this
  omega

/-- All loads that `GEPpromoteSingleBlock` replaces are replaced rightly. -/
theorem BlockInv.promoteLoads (hssa : f.Ssa) (hb : f.cfg.Reachable b)
    {stores : List (ℕ × Operand)} (hstores : BlockStores f gep b stores) :
    ∀ (users : List (ℕ × ℕ)) {p : Promotion},
      (∀ u ∈ users, ∃ i, f.at u = some i ∧ i.accesses gep ∧ u.1 = b) →
      BlockInv f gep b p → BlockInv f gep b (promoteLoads f stores users p).1 := by
  intro users
  induction users with
  | nil =>
      intro p _ h
      exact h
  | cons u users ih =>
      intro p husers h
      have hrest := fun u' hu' => husers u' (List.mem_cons_of_mem u hu')
      obtain ⟨i, hat, hacc, hblock⟩ := husers u List.mem_cons_self
      rw [Server.promoteLoads, hat]
      cases i with
      | store v gep' => exact ih hrest h
      | other id operands => exact ih hrest h
      | load id gep' =>
          obtain rfl : gep' = gep := by simpa [Instr.accesses] using hacc
          obtain ⟨block, k⟩ := u
          obtain rfl : block = b := hblock
          dsimp only
          cases hnear : nearestStore stores k with
          | none =>
              dsimp only
              rw [if_neg (by simpa using hstores.nonempty)]
              exact h
          | some s =>
              obtain ⟨j, w⟩ := s
              obtain ⟨havail, hright⟩ := hstores.right hssa hb h hat hnear
              exact ih hrest (h.replace hssa hb hat havail hright)

end SingleBlock

/-! ## Both passes -/

section Promote

variable {f : Func} {gep : ℕ} {users : List (ℕ × ℕ)} {u : ℕ × ℕ}

theorem Users.at_of_isStore (husers : Users f gep users) (hu : u ∈ users)
    (hstore : f.isStore u = true) : ∃ value, f.at u = some (.store value gep) := by
  obtain ⟨value, gep', hat⟩ := isStore_iff.mp hstore
  obtain ⟨i, hi, hacc⟩ := (husers.mem_iff u).mp hu
  rw [hat] at hi
  obtain rfl := Option.some.inj hi
  obtain rfl : gep' = gep := by simpa [Instr.accesses] using hacc
  exact ⟨value, hat⟩

theorem Users.mem_stores (husers : Users f gep users) {value : Operand}
    (hat : f.at u = some (.store value gep)) : u ∈ users.filter f.isStore := by
  rw [List.mem_filter]
  exact ⟨(husers.mem_iff u).mpr ⟨_, hat, by simp [Instr.accesses]⟩,
    isStore_iff.mpr ⟨value, gep, hat⟩⟩

/-- There is only one store if and only if the analysis finds one. -/
theorem Users.onlyStore_iff (husers : Users f gep users) :
    (∃ value, OnlyStore f gep u value) ↔ users.filter f.isStore = [u] := by
  constructor
  · rintro ⟨value, hat, honly⟩
    have hmem := husers.mem_stores hat
    have hall : ∀ u' ∈ users.filter f.isStore, u' = u := by
      intro u' hu'
      obtain ⟨hu', hstore⟩ := List.mem_filter.mp hu'
      obtain ⟨v, hv⟩ := husers.at_of_isStore hu' hstore
      exact honly u' v hv
    have hrep := List.eq_replicate_of_mem hall
    have hle : (users.filter f.isStore).length ≤ 1 :=
      List.nodup_replicate.mp (hrep ▸ husers.nodup.filter f.isStore)
    have hpos := List.length_pos_of_mem hmem
    rw [hrep, Nat.le_antisymm hle hpos]
    rfl
  · intro hstores
    have hu : u ∈ users.filter f.isStore := by simp [hstores]
    obtain ⟨hmem, hstore⟩ := List.mem_filter.mp hu
    obtain ⟨value, hat⟩ := husers.at_of_isStore hmem hstore
    refine ⟨value, hat, fun u' v hv => ?_⟩
    have hu' := husers.mem_stores hv
    rw [hstores] at hu'
    exact List.mem_singleton.mp hu'

/-- What is left of a slot of one block after `GEPrewriteSingleStore` is loaded
before the store, and `GEPpromoteSingleBlock` replaces nothing. -/
theorem promoteLoads_eq_self {stores : List (ℕ × Operand)} (hne : stores ≠ [])
    (hsorted : stores.Pairwise fun s t => s.1 ≤ t.1) (p : Promotion) :
    ∀ (users : List (ℕ × ℕ)),
      (∀ l ∈ users, ∀ id gep', f.at l = some (.load id gep') → ∀ s ∈ stores, l.2 ≤ s.1) →
      (promoteLoads f stores users p).1 = p := by
  intro users
  induction users with
  | nil =>
      intro _
      rfl
  | cons l users ih =>
      intro hloads
      have hrest := ih fun l' hl' => hloads l' (List.mem_cons_of_mem l hl')
      rw [promoteLoads]
      split
      · rename_i id gep' hat
        rw [(nearestStore_eq_none_iff hsorted).mpr (hloads l List.mem_cons_self id gep' hat)]
        dsimp only
        rw [if_neg (by simpa using hne)]
      · exact hrest

theorem RewriteInv.promoteSingleBlock {dt : DomTree f} {value : Operand}
    {s : Promotion × List ℕ} (husers : Users f gep users) (hstore : OnlyStore f gep u value)
    (h : RewriteInv dt u value users s) (hblock : ∀ l ∈ users, l.1 = u.1) :
    (promoteSingleBlock f (remainingUsers f users s.1) s.1).1 = s.1 := by
  have hu : u ∈ remainingUsers f users s.1 := by
    rw [remainingUsers, List.mem_filter, hstore.1]
    exact ⟨(List.mem_filter.mp (husers.mem_stores hstore.1)).1, rfl⟩
  have hmem : ∀ t ∈ storesByIndex f (remainingUsers f users s.1), t.1 = u.2 := by
    intro t ht
    obtain ⟨u', hu', hindex, gep', hat⟩ := mem_storesByIndex.mp ht
    obtain ⟨v, hv⟩ := husers.at_of_isStore (List.mem_filter.mp hu').1
      (isStore_iff.mpr ⟨_, _, hat⟩)
    rw [← hindex, hstore.2 u' v hv]
  refine promoteLoads_eq_self ?_ (sorted_storesByIndex f _) _ _ ?_
  · exact List.ne_nil_of_mem ((mem_storesByIndex (s := (u.2, value))).mpr
      ⟨u, hu, rfl, gep, hstore.1⟩)
  · intro l hl id gep' hat t ht
    obtain ⟨hl, hleft⟩ := List.mem_filter.mp hl
    rw [hmem t ht]
    by_contra hlt
    have hcov : Covered dt u value l := .inr (.inl ⟨hblock l hl, by omega⟩)
    obtain ⟨r, hr, rfl⟩ := h.complete l hl id gep' hat hcov
    rw [hat] at hleft
    simp only [decide_eq_true_eq] at hleft
    exact hleft (List.mem_map_of_mem hr)

/-- With one store the passes replace what `GEPrewriteSingleStore` does. -/
theorem promoteGep_single (hssa : f.Ssa) (dt : DomTree f) (husers : Users f gep users)
    {value : Operand} (hstore : OnlyStore f gep u value) :
    promoteGep f dt users = (rewriteSingleStore f dt users u value).1 := by
  have hstores := husers.onlyStore_iff.mp ⟨value, hstore⟩
  have hinv := rewriteInv_rewriteSingleStore hssa hstore dt users
  obtain ⟨hdef, honly⟩ := analyzeGEP_stores f users
  rw [hstores] at hdef honly
  rw [promoteGep]
  simp only [hdef, honly, List.map_cons, List.map_nil, List.length_cons, List.length_nil,
    List.getLast?_singleton, hstore.1]
  split
  · rfl
  · split
    · rename_i hone
      refine hinv.promoteSingleBlock husers hstore fun l hl => ?_
      have hl := analyzeGEP_block f users hone l hl
      have hu := analyzeGEP_block f users hone u
        (List.mem_filter.mp (husers.mem_stores hstore.1)).1
      exact Option.some.inj (hl.symm.trans hu)
    · rfl

/-- With several stores the passes replace what `GEPpromoteSingleBlock` does. -/
theorem promoteGep_several (dt : DomTree f) (h : ∀ u, users.filter f.isStore ≠ [u]) :
    promoteGep f dt users =
      if (analyzeGEP f users).onlyUsedInOneBlock then (promoteSingleBlock f users .init).1
      else .init := by
  obtain ⟨hdef, honly⟩ := analyzeGEP_stores f users
  have hremaining : remainingUsers f users .init = users := by
    rw [remainingUsers, List.filter_eq_self]
    intro l _
    split <;> simp [Promotion.init]
  have hlen : (analyzeGEP f users).definingBlocks.length ≠ 1 := by
    rw [hdef, List.length_map]
    intro hlen
    obtain ⟨u, hu⟩ := List.length_eq_one_iff.mp hlen
    exact h u hu
  rw [promoteGep]
  split
  · exact absurd ‹_› hlen
  · simp [hremaining]

theorem promoteSingleBlock_right (hssa : f.Ssa) (husers : Users f gep users)
    (hpromotable : ∃ u value, f.at u = some (.store value gep))
    (hone : (analyzeGEP f users).onlyUsedInOneBlock = true) :
    ∀ r ∈ (promoteSingleBlock f users .init).1.replaced, Right f gep r := by
  have hblock := analyzeGEP_block f users hone
  obtain ⟨u, value, hat⟩ := hpromotable
  have hmem := (List.mem_filter.mp (husers.mem_stores hat)).1
  have hsame : ∀ l ∈ users, l.1 = u.1 :=
    fun l hl => Option.some.inj ((hblock l hl).symm.trans (hblock u hmem))
  have hin : ∀ {l i}, f.at l = some i → i.accesses gep = true → l.1 = u.1 :=
    fun hl hacc => hsame _ ((husers.mem_iff _).mpr ⟨_, hl, hacc⟩)
  by_cases hreach : f.cfg.Reachable u.1
  · have hstores : BlockStores f gep u.1 (storesByIndex f users) := by
      refine ⟨List.ne_nil_of_mem
          ((mem_storesByIndex (s := (u.2, value))).mpr ⟨u, hmem, rfl, gep, hat⟩),
        sorted_storesByIndex f users, fun j w => ?_⟩
      rw [mem_storesByIndex]
      constructor
      · rintro ⟨l, hl, rfl, gep', hl'⟩
        obtain ⟨v, hv⟩ := husers.at_of_isStore hl (isStore_iff.mpr ⟨_, _, hl'⟩)
        rw [hl'] at hv
        obtain ⟨rfl, rfl⟩ := Instr.store.inj (Option.some.inj hv)
        rw [← hsame l hl]
        exact hl'
      · intro hl
        exact ⟨(u.1, j), (husers.mem_iff _).mpr ⟨_, hl, by simp [Instr.accesses]⟩, rfl, gep, hl⟩
    refine (blockInv_init.promoteLoads hssa hreach hstores users fun l hl => ?_).right
    obtain ⟨i, hi, hacc⟩ := (husers.mem_iff l).mp hl
    exact ⟨i, hi, hacc, hsame l hl⟩
  · intro r _ α d mem n st k hrun hload
    have heq : st.block = u.1 := hin hload (by simp [Instr.accesses])
    exact absurd (heq ▸ run_reachable hrun) hreach

end Promote

/-- **Promotion of simple slots.**  Every load that one of the two passes
replaces is replaced by the value it would have read, in all executions and for
all initial contents of the slot, if and only if a single store of a constant or
an argument precedes the loads on every path. -/
theorem promoteGep_right_iff {f : Func} (hssa : f.Ssa) (dt : DomTree f) {gep : ℕ}
    {users : List (ℕ × ℕ)} (husers : Users f gep users)
    (hpromotable : ∃ u value, f.at u = some (.store value gep)) :
    (∀ r ∈ (promoteGep f dt users).replaced, Right f gep r) ↔ SingleStoreOk f gep := by
  by_cases hsingle : ∃ u value, OnlyStore f gep u value
  · obtain ⟨u, value, hstore⟩ := hsingle
    have hinv := rewriteInv_rewriteSingleStore hssa hstore dt users
    rw [promoteGep_single hssa dt husers hstore]
    constructor
    · intro hright u' value' hstore' hglobal l id hl hreach
      obtain rfl : u' = u := hstore.2 u' value' hstore'.1
      obtain rfl : value' = value := by
        have heq := hstore'.1.symm.trans hstore.1
        exact (Instr.store.inj (Option.some.inj heq)).1
      by_contra hnot
      have hmem : l ∈ users := (husers.mem_iff l).mpr ⟨_, hl, by simp [Instr.accesses]⟩
      obtain ⟨r, hr, rfl⟩ := hinv.complete l hmem id gep hl (.inl hglobal)
      obtain ⟨-, -, -, -, -, hvalue⟩ := hinv.sound r hr
      have hr' : r = (r.1, value') := Prod.ext rfl (hvalue (.inr hglobal))
      exact not_right_of_not_before hstore hglobal hl hreach hnot (hr' ▸ hright r hr)
    · intro hok r hr
      exact hinv.right hssa hstore hok hr
  · have hstores : ∀ u, users.filter f.isStore ≠ [u] :=
      fun u hu => hsingle ⟨u, husers.onlyStore_iff.mpr hu⟩
    rw [promoteGep_several dt hstores]
    refine ⟨fun _ u value hstore => absurd ⟨u, value, hstore⟩ hsingle, fun _ => ?_⟩
    split
    · exact promoteSingleBlock_right hssa husers hpromotable ‹_›
    · intro r hr
      exact absurd hr (by simp [Promotion.init])

/-- The dominator tree as a function of the graph. -/
noncomputable def domTree (f : Func) : DomTree f := by
  classical
  exact ⟨fun a b => decide (f.cfg.Dom a b), fun a b => decide_eq_true_iff⟩

/-- Block `0` stores a constant and loads it again. -/
def straightLine : Func where
  size := 1
  block
    | 0 => ⟨[], [.store (.global 5) 0, .load 7 0], [.name (.inst 7)], []⟩
    | _ => ⟨[], [], [], []⟩

theorem defines_straightLine {n : Name} {p : ℕ × ℕ} (h : straightLine.Defines n p) :
    n = .inst 7 ∧ p = (0, 2) := by
  cases h with
  | @phi b q hq =>
      rcases b with _ | b <;> exact absurd hq (by simp [straightLine])
  | @body b k i n hk hn =>
      rcases b with _ | b
      · rcases k with _ | _ | k
        · obtain rfl := Option.some.inj hk
          exact absurd hn (by simp [Instr.result])
        · obtain rfl := Option.some.inj hk
          exact ⟨(Option.some.inj hn).symm, rfl⟩
        · exact absurd hk (by simp [straightLine])
      · exact absurd hk (by simp [straightLine])

theorem ssa_straightLine : straightLine.Ssa where
  size_pos := by decide
  succ_lt b c h := by rcases b with _ | b <;> exact absurd h (by simp [straightLine])
  entry_pred b := by rcases b with _ | b <;> simp [straightLine]
  phis_nodup b := by rcases b with _ | b <;> simp [straightLine]
  unique n p q hp hq := (defines_straightLine hp).2.trans (defines_straightLine hq).2.symm
  use b k i v _ hk hv := by
    rcases b with _ | b
    · rcases k with _ | _ | k
      · obtain rfl := Option.some.inj hk
        rintro n rfl
        exact absurd hv (by simp [Instr.operands])
      · obtain rfl := Option.some.inj hk
        exact absurd hv (by simp [Instr.operands])
      · exact absurd hk (by simp [straightLine])
    · exact absurd hk (by simp [straightLine])
  term b v _ hv := by
    rcases b with _ | b
    · rintro n rfl
      obtain rfl : n = .inst 7 := by simpa [straightLine] using hv
      exact ⟨(0, 2), .body (i := .load 7 0) rfl rfl, .inr ⟨rfl, by decide⟩⟩
    · exact absurd hv (by simp [straightLine])
  incoming b p a hp := by rcases b with _ | b <;> exact absurd hp (by simp [straightLine])
  phi_use b p e hp := by rcases b with _ | b <;> exact absurd hp (by simp [straightLine])

theorem users_straightLine : Users straightLine 0 [(0, 0), (0, 1)] where
  nodup := by decide
  mem_iff u := by
    obtain ⟨b, k⟩ := u
    rcases b with _ | b
    · rcases k with _ | _ | k
      · simp [Func.at, straightLine, Instr.accesses]
      · simp [Func.at, straightLine, Instr.accesses]
      · simp [Func.at, straightLine]
    · simp [Func.at, straightLine]

theorem promoteGep_right_iff_straightLine :
    straightLine.at (0, 0) = some (.store (.global 5) 0) ∧
      ((∀ r ∈ (promoteGep straightLine (domTree straightLine) [(0, 0), (0, 1)]).replaced,
        Right straightLine 0 r) ↔ SingleStoreOk straightLine 0) :=
  ⟨rfl, promoteGep_right_iff ssa_straightLine (domTree straightLine) users_straightLine
    ⟨(0, 0), .global 5, rfl⟩⟩

/-- Block `0` may skip block `1`, which stores a constant that block `2`
loads. -/
def skippedStore : Func where
  size := 3
  block
    | 0 => ⟨[], [], [.global 1], [1, 2]⟩
    | 1 => ⟨[], [.store (.global 5) 0], [], [2]⟩
    | 2 => ⟨[], [.load 7 0], [.name (.inst 7)], []⟩
    | _ => ⟨[], [], [], []⟩

theorem at_skippedStore {u : ℕ × ℕ} {i : Instr} (h : skippedStore.at u = some i) :
    u = (1, 0) ∧ i = .store (.global 5) 0 ∨ u = (2, 0) ∧ i = .load 7 0 := by
  obtain ⟨b, k⟩ := u
  rcases b with _ | _ | _ | b
  · exact absurd h (by simp [Func.at, skippedStore])
  · rcases k with _ | k
    · exact .inl ⟨rfl, (Option.some.inj h).symm⟩
    · exact absurd h (by simp [Func.at, skippedStore])
  · rcases k with _ | k
    · exact .inr ⟨rfl, (Option.some.inj h).symm⟩
    · exact absurd h (by simp [Func.at, skippedStore])
  · exact absurd h (by simp [Func.at, skippedStore])

theorem phis_skippedStore (b : ℕ) : (skippedStore.block b).phis = [] := by
  rcases b with _ | _ | _ | b <;> rfl

theorem defines_skippedStore {n : Name} {p : ℕ × ℕ} (h : skippedStore.Defines n p) :
    p = (2, 1) := by
  cases h with
  | phi hq => exact absurd hq (by simp [phis_skippedStore])
  | @body b k i n hk hn =>
      rcases at_skippedStore (u := (b, k)) hk with ⟨-, rfl⟩ | ⟨h, -⟩
      · exact absurd hn (by simp [Instr.result])
      · obtain ⟨rfl, rfl⟩ := Prod.mk.inj h
        rfl

theorem ssa_skippedStore : skippedStore.Ssa where
  size_pos := by decide
  succ_lt b c h := by
    rcases b with _ | _ | _ | b
    · exact ⟨by decide, by revert c; decide⟩
    · exact ⟨by decide, by revert c; decide⟩
    · exact absurd h (by simp [skippedStore])
    · exact absurd h (by simp [skippedStore])
  entry_pred b := by rcases b with _ | _ | _ | b <;> simp [skippedStore]
  phis_nodup b := by simp [phis_skippedStore]
  unique n p q hp hq := (defines_skippedStore hp).trans (defines_skippedStore hq).symm
  use b k i v _ hk hv := by
    rintro n rfl
    rcases at_skippedStore (u := (b, k)) hk with ⟨-, rfl⟩ | ⟨-, rfl⟩ <;>
      exact absurd hv (by simp [Instr.operands])
  term b v _ hv := by
    rintro n rfl
    rcases b with _ | _ | _ | b
    · exact absurd hv (by simp [skippedStore])
    · exact absurd hv (by simp [skippedStore])
    · obtain rfl : n = .inst 7 := by simpa [skippedStore] using hv
      exact ⟨(2, 1), .body (i := .load 7 0) rfl rfl, .inr ⟨rfl, by decide⟩⟩
    · exact absurd hv (by simp [skippedStore])
  incoming b p a hp := absurd hp (by simp [phis_skippedStore])
  phi_use b p e hp := absurd hp (by simp [phis_skippedStore])

theorem users_skippedStore : Users skippedStore 0 [(1, 0), (2, 0)] where
  nodup := by decide
  mem_iff u := by
    constructor
    · intro hu
      rcases List.mem_cons.mp hu with rfl | hu
      · exact ⟨.store (.global 5) 0, rfl, rfl⟩
      · obtain rfl := List.mem_singleton.mp hu
        exact ⟨.load 7 0, rfl, rfl⟩
    · rintro ⟨i, hi, -⟩
      rcases at_skippedStore hi with ⟨rfl, -⟩ | ⟨rfl, -⟩ <;> simp

/-- The load is replaced by the constant on the path that skips the store as
well. -/
theorem not_right_skippedStore :
    skippedStore.Ssa ∧ Users skippedStore 0 [(1, 0), (2, 0)] ∧
      (7, .global 5) ∈
        (promoteGep skippedStore (domTree skippedStore) [(1, 0), (2, 0)]).replaced ∧
      ¬Right skippedStore 0 (7, .global 5) := by
  have hpath : skippedStore.cfg.Path [2, 0] := .step .entry (by simp [Func.cfg, skippedStore])
  have honly : OnlyStore skippedStore 0 (1, 0) (.global 5) := by
    refine ⟨rfl, fun u v hu => ?_⟩
    rcases at_skippedStore hu with ⟨rfl, -⟩ | ⟨-, h⟩
    · rfl
    · cases h
  refine ⟨ssa_skippedStore, users_skippedStore, List.mem_singleton_self _,
    not_right_of_not_before honly rfl (l := (2, 0)) rfl ⟨_, hpath⟩ ?_⟩
  rintro (hdom | ⟨heq, -⟩)
  · exact absurd (hdom.1 _ hpath) (by decide)
  · exact absurd heq (by decide)

end PollyInstrew.Server
