import PollyInstrew.Promote.Progress

/-!
# What the third case leaves

The loops of the third case end.  If none of them erases a load or a store, then no
`getelementptr` has got a new user, and those that were promoted have none.
-/

namespace PollyInstrew.Promote

open PollyInstrew.Worklist

variable {fn fn' fn₀ : Func} {phis : PhiMap}

/-! ## The loops end -/

theorem Func.succs_eq (fn : Func) (b : ℕ) : (fn.block b).succs = fn.shape[b]?.getD [] := by
  rw [Func.block, Func.shape, List.getElem?_map]
  cases fn.blocks[b]? <;> rfl

theorem Keeps.succs (h : Keeps fn fn') (b : ℕ) :
    (fn'.block b).succs = (fn.block b).succs := by
  rw [fn'.succs_eq, fn.succs_eq, h.shape]

theorem Keeps.length_blocks (h : Keeps fn fn') :
    fn'.blocks.length = fn.blocks.length := by
  simpa [Func.shape] using congrArg List.length h.shape

theorem Func.preds_eq_nil (fn : Func) {b : ℕ} (hb : fn.slots.size ≤ b) :
    fn.slots.preds b = [] := by
  rw [List.eq_nil_iff_forall_not_mem]
  intro a ha
  obtain ⟨c, hc, hmem⟩ := List.mem_flatMap.mp ha
  have hcount := (List.mem_replicate.mp hmem).1
  have hsucc : b ∈ (fn.block c).succs := by
    by_contra hnot
    exact hcount (List.count_eq_zero.mpr hnot)
  have hlt : c < fn.blocks.length := List.mem_range.mp hc
  rw [Func.block, List.getElem?_eq_getElem hlt] at hsucc
  have := fn.succs_lt _ (List.getElem_mem hlt) b hsucc
  exact absurd hb (Nat.not_le.mpr this)

theorem computeLiveInBlocks_ne_running (fn : Func) (gep : ℕ) (info : GEPInfo) :
    ∃ live, computeLiveInBlocks fn gep info = .done live := by
  rw [computeLiveInBlocks]
  have hpaid := Server.liveInStep_paid (f := fn.slots) (fun _ hb => fn.preds_eq_nil hb)
    info.definingBlocks
  rw [run_empty _ hpaid _ _ _ (by simp)]
  exact ⟨_, rfl⟩

/-- A block pays for its successors when it is visited. -/
theorem renameStep_paid (A : Analyses) (lookup : ℕ → Option ℕ) (phis : PhiMap)
    (s : Func × List ℕ) (job : RenamePassData) :
    (renameStep A lookup phis s job).2.length +
        unseen (renameStep A lookup phis s job).1.1.blocks.length
          (fun b => ((renameStep A lookup phis s job).1.1.block b).succs.length)
          (renameStep A lookup phis s job).1.2 ≤
      unseen s.1.blocks.length (fun b => (s.1.block b).succs.length) s.2 := by
  have hkeeps := updatePhis_keeps phis s.1 job.bb job.pred job.values
  rw [renameStep]
  generalize updatePhis phis s.1 job.bb job.pred job.values = t at hkeeps ⊢
  dsimp only
  split
  · simp only [hkeeps.succs, hkeeps.length_blocks, List.length_nil, Nat.zero_add, Nat.le_refl]
  · rename_i hbb
    have hinsts := renameInsts_cases A lookup ((t.1.block job.bb).insts.map Inst.id) t
    generalize ((t.1.block job.bb).insts.map Inst.id).foldl (renameInst A lookup) t = u at hinsts ⊢
    have hku : Keeps s.1 u.1 := by
      rcases hinsts with rfl | ⟨hk, -⟩
      · exact hkeeps
      · exact hkeeps.trans hk
    have hzero : s.1.blocks.length ≤ job.bb → (s.1.block job.bb).succs.length = 0 := by
      intro hle
      rw [Func.block, List.getElem?_eq_none hle]
      rfl
    have hpay := unseen_cons (fun b => (s.1.block b).succs.length) hbb hzero
    split
    · simp only [hku.succs, hku.length_blocks, List.length_nil]
      omega
    · rename_i c succs heq
      rw [hku.succs] at heq
      rw [heq, List.length_cons] at hpay
      have hnew := length_newSuccs_le [c] succs
      simp only [hku.succs, hku.length_blocks, List.length_map, List.length_cons,
        List.length_reverse]
      omega

theorem rename_ne_running (A : Analyses) (lookup : ℕ → Option ℕ) (phis : PhiMap) (fn : Func)
    (values : ℕ → Value) : ∃ fn', rename A lookup phis fn values = .done fn' := by
  rw [rename]
  rw [run_empty (fun s => unseen s.1.blocks.length (fun b => (s.1.block b).succs.length) s.2)
    (renameStep_paid A lookup phis) _ _ _ (by simp)]
  exact ⟨_, rfl⟩

/-! ## The function after renaming -/

/-- What is known of a function on the way from `fn₀`. -/
structure Reached (fn₀ fn : Func) : Prop where
  keeps : Keeps fn₀ fn
  calm : fn.accesses = fn₀.accesses → Calm fn₀ fn

/-- A part of the way, on which nothing happens to users if nothing is erased. -/
structure Steps (fn₀ fn fn' : Func) : Prop where
  keeps : Keeps fn fn'
  calm : fn'.accesses = fn₀.accesses → Calm fn fn'

theorem Reached.refl (fn : Func) : Reached fn fn := ⟨Keeps.refl fn, fun _ => Calm.refl fn⟩

theorem Steps.refl (fn₀ fn : Func) : Steps fn₀ fn fn := ⟨Keeps.refl fn, fun _ => Calm.refl fn⟩

theorem Reached.quiet (h : Reached fn₀ fn) (hkeeps : Keeps fn fn')
    (heq : fn'.accesses = fn₀.accesses) : fn.accesses = fn₀.accesses := by
  have h₁ := h.keeps.accesses
  have h₂ := hkeeps.accesses
  omega

theorem Reached.trans (h : Reached fn₀ fn) (hsteps : Steps fn₀ fn fn') :
    Reached fn₀ fn' where
  keeps := h.keeps.trans hsteps.keeps
  calm heq := (h.calm (h.quiet hsteps.keeps heq)).trans (hsteps.calm heq)

theorem Steps.trans {fn₁ fn₂ : Func} (h : Reached fn₀ fn) (h₁ : Steps fn₀ fn fn₁)
    (h₂ : Steps fn₀ fn₁ fn₂) : Steps fn₀ fn fn₂ where
  keeps := h₁.keeps.trans h₂.keeps
  calm heq := (h₁.calm ((h.trans h₁).quiet h₂.keeps heq)).trans (h₂.calm heq)

/-- If something is erased, nothing else matters. -/
theorem Reached.steps_of_lt (h : Reached fn₀ fn) (hkeeps : Keeps fn fn')
    (hlt : fn'.accesses < fn.accesses) : Steps fn₀ fn fn' where
  keeps := hkeeps
  calm heq := absurd (h.quiet hkeeps heq) (by omega)

theorem Calm.steps (h : Calm fn fn') (fn₀ : Func) : Steps fn₀ fn fn' :=
  ⟨h.toKeeps, fun _ => h⟩

theorem reached_rename {A : Analyses} {lookup : ℕ → Option ℕ} {values : ℕ → Value}
    (h : Reached fn₀ fn) (hvalues : ∀ n, NonGep fn₀ (values n))
    (hrename : rename A lookup phis fn values = .done fn') : Reached fn₀ fn' := by
  rw [rename] at hrename
  have hinv : RenameInv fn₀ (fn, []) [⟨0, none, values⟩] := by
    refine ⟨h.keeps, fun heq => ⟨h.calm heq, fun job hjob => ?_⟩⟩
    rw [List.mem_singleton.mp hjob]
    exact hvalues
  have hstep : ∀ s job work, RenameInv fn₀ s (job :: work) →
      RenameInv fn₀ (renameStep A lookup phis s job).1
        ((renameStep A lookup phis s job).2 ++ work) := fun _ _ _ h => h.step
  have hend := run_inv hstep
    (1 + unseen fn.blocks.length (fun b => (fn.block b).succs.length) []) (fn, [])
    [⟨0, none, values⟩] hinv
  split at hrename
  · obtain rfl := Outcome.done.inj hrename
    exact ⟨hend.keeps, fun heq => (hend.calm heq).1⟩
  · cases hrename

theorem nonGep_of_not_inst {v : Value} (h : v.isInst = false) : NonGep fn v := by
  intro gep _ heq
  rw [heq] at h
  exact absurd h (by simp [Value.isInst])

theorem calm_poisonUses (fn : Func) (gep : ℕ) : Calm fn (poisonUses fn gep) := by
  rw [poisonUses]
  split
  · exact calm_replaceAllUsesWith (nonGep_of_not_inst rfl) gep
  · exact Calm.refl fn

theorem isUsed_poisonUses {gep : ℕ} (hgep : gep ∈ fn.gepIds) :
    (poisonUses fn gep).isUsed gep = false := by
  obtain ⟨i, hi, -, rfl⟩ := Func.mem_gepIds.mp hgep
  rw [poisonUses, Func.inst?_of_mem hi, Bool.eq_false_iff]
  intro hused
  exact (isUsed_replaceAllUsesWith hused (by simp)).2 rfl

theorem poisonUses_all (geps : List ℕ) (fn : Func) :
    Calm fn (geps.foldl poisonUses fn) ∧ ∀ gep ∈ geps, gep ∈ fn.gepIds →
      (geps.foldl poisonUses fn).isUsed gep = false := by
  induction geps generalizing fn with
  | nil => exact ⟨Calm.refl fn, by simp⟩
  | cons gep geps ih =>
      have hcalm := calm_poisonUses fn gep
      obtain ⟨h₁, h₂⟩ := ih (poisonUses fn gep)
      refine ⟨hcalm.trans h₁, fun g hg hmem => ?_⟩
      rcases List.mem_cons.mp hg with rfl | hg
      · rw [Bool.eq_false_iff]
        intro hused
        have hmem' : g ∈ (poisonUses fn g).gepIds := by rwa [hcalm.gepIds]
        have hfalse := isUsed_poisonUses hmem
        rw [h₁.isUsed hmem' hused] at hfalse
        cases hfalse
      · exact h₂ g hg (by rwa [hcalm.gepIds])

/-! ## PHI nodes -/

/-- The new PHI nodes are told apart from `getelementptr` instructions by their names and,
if nothing was erased, from all instructions the pass has started with. -/
structure NewPhis (fn₀ fn : Func) (phis : PhiMap) : Prop where
  not_gep : ∀ e ∈ phis, e.2 ∉ fn₀.gepIds
  fresh : fn.accesses = fn₀.accesses → ∀ e ∈ phis, ∀ i ∈ fn₀.insts, i.id ≠ e.2

theorem NewPhis.keeps (h : NewPhis fn₀ fn phis) (hreached : Reached fn₀ fn)
    (hkeeps : Keeps fn fn') : NewPhis fn₀ fn' phis :=
  ⟨h.not_gep, fun heq => h.fresh (hreached.quiet hkeeps heq)⟩

theorem NewPhis.subset {phis' : PhiMap} (h : NewPhis fn₀ fn phis) (hsub : ∀ e ∈ phis', e ∈ phis) :
    NewPhis fn₀ fn phis' :=
  ⟨fun e he => h.not_gep e (hsub e he), fun heq e he => h.fresh heq e (hsub e he)⟩

theorem simplifyPHINode_mem {A : Analyses} {phi : ℕ} {ty : Ty} {incoming : List (Value × ℕ)}
    {v : Value} (h : simplifyPHINode A fn phi ty incoming = some v) :
    v = .undef ty ∨ v ∈ incoming.map Prod.fst := by
  rw [simplifyPHINode] at h
  split at h
  · exact .inl (Option.some.inj h).symm
  · rename_i w ws heq
    split at h
    · split at h
      · cases h
      · obtain rfl := Option.some.inj h
        have hmem : w ∈ ((incoming.map Prod.fst).filter fun v => v ≠ .inst phi).filter
            fun v => !v.isUndef := by
          rw [heq]
          exact List.mem_cons_self
        exact .inr (List.mem_filter.mp (List.mem_filter.mp hmem).1).1
    · cases h

/-- A new PHI node is replaced by a value that is no `getelementptr`. -/
theorem nonGep_simplifyInstruction {A : Analyses} {phi : ℕ} {v : Value} (hcalm : Calm fn₀ fn)
    (hnew : ∀ i ∈ fn₀.insts, i.id ≠ phi) (h : simplifyInstruction A fn phi = some v) :
    NonGep fn v := by
  rw [simplifyInstruction] at h
  split at h
  · rename_i ty incoming heq
    rcases simplifyPHINode_mem h with rfl | hmem
    · exact nonGep_of_not_inst rfl
    · have hphi := (Func.find_eq_some_iff.mp (Func.exists_of_inst? heq)).1
      rcases hcalm.operands _ hphi v hmem with hnon | ⟨i, hi, hid, -⟩
      · exact hcalm.nonGep.mpr hnon
      · exact absurd hid (hnew i hi)
  · cases h

theorem eliminatePass_subset (A : Analyses) (fn : Func) (phis : PhiMap) :
    ∀ e ∈ (eliminatePass A fn phis).2.1, e ∈ phis := by
  fun_induction eliminatePass A fn phis with
  | case1 fn => exact fun e he => he
  | case2 fn e phis v _ r ih => exact fun e' he' => List.mem_cons_of_mem _ (ih e' he')
  | case3 fn e phis _ r ih =>
      intro e' he'
      rcases List.mem_cons.mp he' with rfl | he'
      · exact List.mem_cons_self
      · exact List.mem_cons_of_mem _ (ih e' he')

theorem steps_eliminatePass (A : Analyses) (fn : Func) (phis : PhiMap) (h : Reached fn₀ fn)
    (hnew : NewPhis fn₀ fn phis) :
    Steps fn₀ fn (eliminatePass A fn phis).1 := by
  induction phis generalizing fn with
  | nil => exact Steps.refl fn₀ fn
  | cons e phis ih =>
      have hrest := hnew.subset fun e' he' => List.mem_cons_of_mem e he'
      rw [eliminatePass]
      split
      · rename_i v hv
        have hid : e.2 ∉ fn.gepIds := by
          rw [h.keeps.gepIds]
          exact hnew.not_gep e List.mem_cons_self
        have hfirst : Steps fn₀ fn (fn.replace e.2 v) := by
          refine ⟨keeps_replace hid, fun heq => calm_replace hid ?_⟩
          have hquiet := h.quiet (keeps_replace hid) heq
          exact nonGep_simplifyInstruction (h.calm hquiet)
            (hnew.fresh hquiet e List.mem_cons_self) hv
        exact hfirst.trans h (ih (fn.replace e.2 v) (h.trans hfirst) (hrest.keeps h hfirst.keeps))
      · exact ih fn h hrest

theorem steps_eliminatePhis (A : Analyses) (fn : Func) (phis : PhiMap) (h : Reached fn₀ fn)
    (hnew : NewPhis fn₀ fn phis) :
    Steps fn₀ fn (eliminatePhis A fn phis).1 := by
  fun_induction eliminatePhis A fn phis with
  | case1 fn phis _ ih =>
      have h₁ := steps_eliminatePass A fn phis h hnew
      refine h₁.trans h (ih (h.trans h₁) ?_)
      exact (hnew.subset (eliminatePass_subset A fn phis)).keeps h h₁.keeps
  | case2 fn phis _ => exact steps_eliminatePass A fn phis h hnew

theorem addDummies_extends (fn : Func) (numBadPreds : ℕ) (preds : List ℕ) (l : List Inst) :
    List.Forall₂ (Inst.Extends (NonGep fn)) l (addDummies numBadPreds preds l) := by
  induction l with
  | nil => exact .nil
  | cons i l ih =>
      have hsame : List.Forall₂ (Inst.Extends (NonGep fn)) (i :: l) (i :: l) :=
        List.forall₂_same.mpr fun j _ => Inst.Extends.refl _ j
      rw [addDummies]
      split
      · rename_i ty incoming hop
        split
        · refine .cons ⟨rfl, by rw [hop]; rfl, by rw [hop]; rfl, fun v hv => ?_⟩ ih
          rw [hop]
          simp only [Op.operands, List.map_append, List.mem_append] at hv ⊢
          rcases hv with hv | hv
          · exact .inl hv
          · obtain ⟨e, he, rfl⟩ := List.mem_map.mp hv
            obtain ⟨a, -, rfl⟩ := List.mem_map.mp he
            exact .inr (nonGep_of_not_inst rfl)
        · exact hsame
      · exact hsame

theorem calm_completePhis (fn : Func) (e : (ℕ × ℕ) × ℕ) : Calm fn (completePhis fn e) := by
  unfold completePhis
  dsimp only
  split
  · exact Calm.refl fn
  · split
    · split
      · exact Calm.refl fn
      · split
        · exact Calm.refl fn
        · exact calm_editBlock (fun l _ => addDummies_extends fn _ _ l) fun _ hv => hv
    · exact Calm.refl fn

theorem calm_completeAll (phis : PhiMap) (fn : Func) : Calm fn (phis.foldl completePhis fn) := by
  induction phis generalizing fn with
  | nil => exact Calm.refl fn
  | cons e phis ih => exact (calm_completePhis fn e).trans (ih (completePhis fn e))

/-- The third case ends; if it has erased nothing, the slots have no users left. -/
theorem promoteThird_spec (A : Analyses) (geps : List ℕ) (lookup : ℕ → Option ℕ)
    {values : ℕ → Value} (h : Reached fn₀ fn) (hnew : NewPhis fn₀ fn phis)
    (hvalues : ∀ n, NonGep fn₀ (values n)) :
    ∃ fn', promoteThird A fn geps lookup phis values = .done fn' ∧ Reached fn₀ fn' ∧
      (fn'.accesses = fn₀.accesses → ∀ gep ∈ geps, gep ∈ fn₀.gepIds →
        fn'.isUsed gep = false) := by
  obtain ⟨fn₁, hrename⟩ := rename_ne_running A lookup phis fn values
  have h₁ := reached_rename h hvalues hrename
  obtain ⟨hpoison, hunused⟩ := poisonUses_all geps fn₁
  have h₂ := h₁.trans (hpoison.steps fn₀)
  have hkeeps := (reached_rename (Reached.refl fn) (fun n => h.keeps.nonGep.mpr (hvalues n))
    hrename).keeps
  have hphis : NewPhis fn₀ (geps.foldl poisonUses fn₁) (A.phiOrder phis) :=
    ((hnew.keeps h hkeeps).keeps h₁ hpoison.toKeeps).subset fun e he =>
      (A.phiOrder_perm phis).mem_iff.mp he
  have hsteps := steps_eliminatePhis A (geps.foldl poisonUses fn₁) (A.phiOrder phis) h₂ hphis
  have hcomplete := calm_completeAll (eliminatePhis A (geps.foldl poisonUses fn₁)
    (A.phiOrder phis)).2 (eliminatePhis A (geps.foldl poisonUses fn₁) (A.phiOrder phis)).1
  have hall := hsteps.trans h₂ (hcomplete.steps fn₀)
  refine ⟨_, ?_, h₂.trans hall, fun heq gep hgep hmem => ?_⟩
  · rw [promoteThird, hrename]
    rfl
  · rw [Bool.eq_false_iff]
    intro hused
    rw [← h₁.keeps.gepIds] at hmem
    have hfalse := hunused gep hgep hmem
    rw [(hall.calm heq).isUsed (by rwa [hpoison.gepIds]) hused] at hfalse
    cases hfalse

end PollyInstrew.Promote
