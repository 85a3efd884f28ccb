import PollyInstrew.Promote.Run

/-!
# The pass ends

A round of the loop over a block either erases a load or a store, or takes the last
users of a `getelementptr` away, or leaves the function as it is and promotes every
candidate, after which the loop is left.
-/

namespace PollyInstrew.Promote

open PollyInstrew.Worklist

/-! ## The first two cases -/

/-- Nothing has happened, or something was erased. -/
def SameOrSmaller (fn fn' : Func) : Prop :=
  fn' = fn ∨ (Keeps fn fn' ∧ fn'.accesses < fn.accesses)

theorem SameOrSmaller.trans {fn fn₁ fn₂ : Func} (h₁ : SameOrSmaller fn fn₁)
    (h₂ : SameOrSmaller fn₁ fn₂) : SameOrSmaller fn fn₂ := by
  rcases h₁ with rfl | ⟨hk₁, hlt₁⟩
  · exact h₂
  · rcases h₂ with rfl | ⟨hk₂, hlt₂⟩
    · exact .inr ⟨hk₁, hlt₁⟩
    · exact .inr ⟨hk₁.trans hk₂, Nat.lt_trans hlt₂ hlt₁⟩

theorem rewriteUser_smaller {A : Analyses} {store storeBB : ℕ} {glob : Bool}
    {s t : Func × List ℕ} {id : ℕ} (h : rewriteUser A store storeBB glob s id = some t) :
    SameOrSmaller s.1 t.1 := by
  rw [rewriteUser] at h
  split at h
  · rw [Option.some.inj h]
    exact .inl rfl
  · split at h
    · rename_i hop
      split at h
      · rw [← Option.some.inj h]
        exact .inl rfl
      · obtain ⟨v, -, hv⟩ := Option.bind_eq_some_iff.mp h
        rw [← Option.some.inj hv]
        exact .inr (replaceLoad_lt A hop _ _)
    · exact absurd h (by simp)

theorem rewriteUsers_smaller {A : Analyses} {store storeBB : ℕ} {glob : Bool} {ids : List ℕ}
    {s t : Func × List ℕ} (h : ids.foldlM (rewriteUser A store storeBB glob) s = some t) :
    SameOrSmaller s.1 t.1 := by
  induction ids generalizing s with
  | nil =>
      rw [Option.some.inj h]
      exact .inl rfl
  | cons id ids ih =>
      rw [List.foldlM_cons] at h
      obtain ⟨r, h₁, h₂⟩ := Option.bind_eq_some_iff.mp h
      exact (rewriteUser_smaller h₁).trans (ih h₂)

theorem rewriteSingleStore_smaller {A : Analyses} {fn : Func} {gep store : ℕ}
    {t : Func × List ℕ} (h : rewriteSingleStore A fn gep store = some t) :
    SameOrSmaller fn t.1 := by
  obtain ⟨v, -, h⟩ := Option.bind_eq_some_iff.mp h
  exact rewriteUsers_smaller h

theorem promoteLoads_smaller (A : Analyses) (fn₀ : Func) (stores : List (ℕ × ℕ)) (ids : List ℕ)
    (fn : Func) : SameOrSmaller fn (promoteLoads A fn₀ stores ids fn).1 := by
  induction ids generalizing fn with
  | nil => exact .inl rfl
  | cons id ids ih =>
      rw [promoteLoads]
      split
      · rename_i hop
        split
        · split
          · exact SameOrSmaller.trans (.inr (replaceLoad_lt A hop _ _)) (ih _)
          · exact .inl rfl
        · exact SameOrSmaller.trans (.inr (replaceLoad_lt A hop _ _)) (ih _)
      · exact ih fn

/-! ## The loop over candidates -/

/-- The state of the loop of `run` that has started with `fn₀`; `gepNum` candidates have
come to the third case. -/
structure LoopInv (fn₀ : Func) (gepNum : ℕ) (s : RunState) : Prop where
  reached : Reached fn₀ s.fn
  phis : NewPhis fn₀ s.fn s.phis
  insts : s.fn.accesses = fn₀.accesses → ∀ i ∈ fn₀.insts, i ∈ s.fn.insts
  values : ∀ n, NonGep fn₀ (s.values n)
  same : s.fn.accesses = fn₀.accesses → gepNum = 0 → s.fn = fn₀

theorem loopInv_init (fn : Func) : LoopInv fn 0 (.init fn) where
  reached := Reached.refl fn
  phis := ⟨fun _ he => absurd he List.not_mem_nil, fun _ _ he => absurd he List.not_mem_nil⟩
  insts _ _ hi := hi
  values _ := nonGep_of_not_inst rfl
  same _ _ := rfl

theorem LoopInv.smaller {fn₀ : Func} {gepNum : ℕ} {s : RunState} (h : LoopInv fn₀ gepNum s)
    {fn : Func} (hfn : SameOrSmaller s.fn fn) : LoopInv fn₀ gepNum { s with fn := fn } := by
  rcases hfn with rfl | ⟨hkeeps, hlt⟩
  · exact h
  · have hle := h.reached.keeps.accesses
    have hne : fn.accesses ≠ fn₀.accesses := by omega
    exact ⟨h.reached.trans (h.reached.steps_of_lt hkeeps hlt), h.phis.keeps h.reached hkeeps,
      fun heq => absurd heq hne, h.values, fun heq => absurd heq hne⟩

theorem Func.fresh_not_mem_gepIds (fn : Func) : fn.fresh ∉ fn.gepIds := by
  intro hmem
  obtain ⟨i, hi, -, hid⟩ := Func.mem_gepIds.mp hmem
  exact Nat.ne_of_lt (Func.lt_fresh hi) hid

theorem LoopInv.queuePhiNode {fn₀ : Func} {gepNum : ℕ} {s : RunState}
    (h : LoopInv fn₀ (gepNum + 1) s) (gepNo : ℕ) (ty : Ty) (b : ℕ) :
    LoopInv fn₀ (gepNum + 1)
      { s with
        fn := (Promote.queuePhiNode gepNo ty (s.fn, s.phis) b).1
        phis := (Promote.queuePhiNode gepNo ty (s.fn, s.phis) b).2 } := by
  rw [Promote.queuePhiNode]
  split
  · exact h
  · have hacc : (s.fn.insert b 0 (.phi ty [])).accesses = s.fn.accesses := accesses_insert rfl
    refine ⟨h.reached.trans (calm_insert.steps fn₀), ⟨?_, ?_⟩, ?_, h.values,
      fun _ hzero => absurd hzero (Nat.succ_ne_zero gepNum)⟩
    · intro e he
      rcases List.mem_cons.mp he with rfl | he
      · rw [← h.reached.keeps.gepIds]
        exact s.fn.fresh_not_mem_gepIds
      · exact h.phis.not_gep e he
    · intro heq e he i hi
      rw [hacc] at heq
      rcases List.mem_cons.mp he with rfl | he
      · exact Nat.ne_of_lt (Func.lt_fresh (h.insts heq i hi))
      · exact h.phis.fresh heq e he i hi
    · intro heq i hi
      rw [hacc] at heq
      exact Func.mem_insts_insert (h.insts heq i hi)

theorem LoopInv.queuePhiNodes {fn₀ : Func} {gepNum : ℕ} (gepNo : ℕ) (ty : Ty) (bs : List ℕ)
    {s : RunState} (h : LoopInv fn₀ (gepNum + 1) s) :
    LoopInv fn₀ (gepNum + 1)
      { s with
        fn := (bs.foldl (Promote.queuePhiNode gepNo ty) (s.fn, s.phis)).1
        phis := (bs.foldl (Promote.queuePhiNode gepNo ty) (s.fn, s.phis)).2 } := by
  induction bs generalizing s with
  | nil => exact h
  | cons b bs ih => exact ih (h.queuePhiNode gepNo ty b)

theorem queueGep_spec (A : Analyses) {fn₀ : Func} {gepNum : ℕ} (gep : ℕ) (info : GEPInfo)
    {s : RunState} (h : LoopInv fn₀ gepNum s) :
    queueGep A gepNum gep info s = .abort ∨
      ∃ s', queueGep A gepNum gep info s = .done (s', false) ∧ LoopInv fn₀ (gepNum + 1) s' := by
  rw [queueGep]
  split
  · exact .inl rfl
  · rename_i ty _
    obtain ⟨live, hlive⟩ := computeLiveInBlocks_ne_running s.fn gep info
    rw [hlive]
    refine .inr ⟨_, rfl, ?_⟩
    have hnext : LoopInv fn₀ (gepNum + 1)
        ⟨s.fn, Function.update s.lookup gep (some gepNum), s.phis,
          Function.update s.values gepNum (.undef ty)⟩ := by
      refine ⟨h.reached, h.phis, h.insts, fun n => ?_,
        fun _ hzero => absurd hzero (Nat.succ_ne_zero gepNum)⟩
      dsimp only
      rw [Function.update_apply]
      split
      · exact nonGep_of_not_inst rfl
      · exact h.values n
    exact hnext.queuePhiNodes gepNum ty _

theorem runBlocks_spec (A : Analyses) {fn₀ : Func} {gepNum : ℕ} (gep : ℕ) (info : GEPInfo)
    {s : RunState} (h : LoopInv fn₀ gepNum s) :
    runBlocks A gepNum gep info s = .abort ∨
      ∃ s' promoted, runBlocks A gepNum gep info s = .done (s', promoted) ∧
        LoopInv fn₀ (bif promoted then gepNum else gepNum + 1) s' := by
  have hthird : ∀ {s}, LoopInv fn₀ gepNum s → queueGep A gepNum gep info s = .abort ∨
      ∃ s' promoted, queueGep A gepNum gep info s = .done (s', promoted) ∧
        LoopInv fn₀ (bif promoted then gepNum else gepNum + 1) s' := by
    intro s hs
    rcases queueGep_spec A gep info hs with habort | ⟨s', hdone, hs'⟩
    · exact .inl habort
    · exact .inr ⟨s', false, hdone, hs'⟩
  rw [runBlocks]
  split
  · have hnext := h.smaller (promoteLoads_smaller A s.fn (storesByIndex A s.fn gep)
      (A.users s.fn gep) s.fn)
    dsimp only
    split
    · exact .inr ⟨_, true, rfl, hnext⟩
    · exact hthird hnext
  · exact hthird h

theorem runGep_spec (A : Analyses) {fn₀ : Func} {gepNum : ℕ} (gep : ℕ) {s : RunState}
    (h : LoopInv fn₀ gepNum s) :
    runGep A gepNum gep s = .abort ∨
      ∃ s' promoted, runGep A gepNum gep s = .done (s', promoted) ∧
        LoopInv fn₀ (bif promoted then gepNum else gepNum + 1) s' := by
  rw [runGep]
  split
  · exact .inr ⟨s, true, rfl, h⟩
  · split
    · exact .inl rfl
    · rename_i info _
      split
      · split
        · exact .inl rfl
        · rename_i r hr
          obtain ⟨store, -, hr⟩ := Option.bind_eq_some_iff.mp hr
          have hnext := h.smaller (rewriteSingleStore_smaller hr)
          split
          · exact .inr ⟨_, true, rfl, hnext⟩
          · exact runBlocks_spec A gep _ hnext
      · exact runBlocks_spec A gep info h

theorem runLoop_spec (A : Analyses) {fn₀ : Func} (fuel : ℕ) {geps : List ℕ} {gepNum : ℕ}
    {s : RunState} (h : LoopInv fn₀ gepNum s) (hfuel : fuel + gepNum = geps.length) :
    runLoop A fuel geps gepNum s = .abort ∨
      ∃ r, runLoop A fuel geps gepNum s = .done r ∧ LoopInv fn₀ r.2.1.length r.1 ∧
        (∀ gep ∈ r.2.1, gep ∈ geps) ∧ r.2.2 + r.2.1.length = geps.length := by
  induction fuel generalizing geps gepNum s with
  | zero =>
      rw [Nat.zero_add] at hfuel
      rw [runLoop, if_pos (Nat.le_of_eq hfuel.symm)]
      exact .inr ⟨_, rfl, hfuel ▸ h, fun _ hg => hg, Nat.zero_add _⟩
  | succ fuel ih =>
      have hlt : gepNum < geps.length := by omega
      rw [runLoop, List.getElem?_eq_getElem hlt]
      dsimp only
      rcases runGep_spec A geps[gepNum] h with habort | ⟨s', promoted, hdone, hs'⟩
      · rw [habort]
        exact .inl rfl
      · rw [hdone]
        cases promoted with
        | true =>
            have hlen := length_swapRemove hlt
            have hperm := swapRemove_perm (List.getElem?_eq_getElem hlt)
            rcases @ih (swapRemove geps gepNum) gepNum s' hs' (by omega) with
              habort | ⟨r, hr, hinv, hsub, hcount⟩
            · dsimp only
              rw [habort]
              exact .inl rfl
            · dsimp only
              rw [hr]
              refine .inr ⟨_, rfl, hinv, fun gep hgep => ?_, ?_⟩
              · exact hperm.mem_iff.mpr (List.mem_cons_of_mem _ (hsub gep hgep))
              · dsimp only
                omega
        | false => exact ih hs' (by omega)

/-! ## One round -/

theorem countP_lt_countP {α : Type*} {p q : α → Bool} {l : List α}
    (h : ∀ a ∈ l, p a = true → q a = true) {a : α} (ha : a ∈ l) (hq : q a = true)
    (hp : p a = false) : l.countP p < l.countP q := by
  induction l with
  | nil => exact absurd ha List.not_mem_nil
  | cons b l ih =>
      have hrest := fun a ha => h a (List.mem_cons_of_mem b ha)
      rw [List.countP_cons, List.countP_cons]
      rcases List.mem_cons.mp ha with rfl | ha
      · have hle := List.countP_mono_left hrest
        rw [hp, hq]
        simp only [Bool.false_eq_true, if_false, if_true]
        omega
      · have hlt := ih hrest ha
        have hb := h b List.mem_cons_self
        cases hpb : p b with
        | false =>
            simp only [Bool.false_eq_true, if_false]
            omega
        | true =>
            rw [hb hpb]
            omega

/-- A call of `run` ends.  If it erases nothing, it changes nothing and promotes all
candidates, or some `getelementptr` loses its users. -/
theorem run_spec (A : Analyses) {fn : Func} {geps : List ℕ}
    (hgeps : ∀ gep ∈ geps, gep ∈ fn.gepIds ∧ fn.isUsed gep = true) :
    run A fn geps = .abort ∨ ∃ r, run A fn geps = .done r ∧ Keeps fn r.1 ∧
      (r.1.accesses = fn.accesses →
        (r.1 = fn ∧ r.2 = geps.length) ∨ r.1.usedGeps < fn.usedGeps) := by
  rcases runLoop_spec A geps.length (loopInv_init fn) (Nat.add_zero _) with
    habort | ⟨r, hr, hinv, hsub, hcount⟩
  · exact .inl (by rw [run, habort]; rfl)
  · cases hleft : r.2.1 with
    | nil =>
        rw [hleft] at hinv hcount
        have hrun : run A fn geps = .done (r.1.fn, r.2.2) := by
          rw [run, hr]
          show (if r.2.1.isEmpty then _ else _) = _
          rw [hleft]
          rfl
        refine .inr ⟨_, hrun, hinv.reached.keeps, fun heq => .inl ⟨hinv.same heq rfl, ?_⟩⟩
        exact (Nat.add_zero _).symm.trans hcount
    | cons gep left =>
        obtain ⟨fn', hthird, hreached, hunused⟩ := promoteThird_spec A r.2.1 r.1.lookup
          hinv.reached hinv.phis hinv.values
        have hrun : run A fn geps = .done (fn', r.2.2) := by
          rw [run, hr]
          show (if r.2.1.isEmpty then _ else _) = _
          rw [if_neg (by simp [hleft]), hthird]
          rfl
        refine .inr ⟨_, hrun, hreached.keeps, fun heq => .inr ?_⟩
        have hgep : gep ∈ r.2.1 := by
          rw [hleft]
          exact List.mem_cons_self
        obtain ⟨hmem, hused⟩ := hgeps gep (hsub gep hgep)
        rw [Func.usedGeps, Func.usedGeps, hreached.keeps.gepIds]
        exact countP_lt_countP (fun g hg => (hreached.calm heq).isUsed hg) hmem hused
          (hunused heq gep hgep hmem)

theorem mem_candidates {fn : Func} {b gep : ℕ} (h : gep ∈ candidates fn b) :
    gep ∈ fn.gepIds ∧ fn.isUsed gep = true := by
  have hprom := (List.mem_filter.mp h).2
  obtain ⟨-, u, hu, -⟩ := promotable_users hprom
  obtain ⟨hu, hmem⟩ := Func.mem_users.mp hu
  refine ⟨?_, Func.isUsed_iff.mpr ⟨u, hu, hmem⟩⟩
  rw [isGEPPromotable] at hprom
  split at hprom
  · rename_i heq
    have hfind := Func.find_eq_some_iff.mp (Func.exists_of_inst? heq)
    exact Func.mem_gepIds.mpr ⟨_, hfind.1, rfl, rfl⟩
  · exact absurd hprom (by simp)

theorem usedGeps_le (fn : Func) : fn.usedGeps ≤ fn.gepIds.length := List.countP_le_length

/-- A round in which something happens makes the bound smaller. -/
theorem roundBound_lt {fn fn' : Func} (hkeeps : Keeps fn fn')
    (h : fn'.accesses < fn.accesses ∨
      (fn'.accesses = fn.accesses ∧ fn'.usedGeps < fn.usedGeps)) :
    roundBound fn' < roundBound fn := by
  have hle := usedGeps_le fn'
  rw [roundBound, roundBound, hkeeps.gepIds]
  rw [hkeeps.gepIds] at hle
  rcases h with hlt | ⟨heq, hlt⟩
  · have hmul := Nat.mul_le_mul_right (fn.gepIds.length + 1) hlt
    rw [Nat.succ_mul] at hmul
    omega
  · rw [heq]
    omega

/-! ## All rounds -/

theorem whileTrue_break (A : Analyses) (b : ℕ) {fuel : ℕ} (hfuel : 0 < fuel) (fn : Func) :
    whileTrue A b fuel fn (candidates fn b).length =
      ([], .done (fn, (candidates fn b).length)) := by
  obtain ⟨fuel, rfl⟩ := Nat.exists_eq_succ_of_ne_zero (Nat.ne_of_gt hfuel)
  rw [whileTrue, if_pos rfl]

theorem whileTrue_ne_running (A : Analyses) (b : ℕ) (fuel : ℕ) (fn : Func) (num : ℤ)
    (hfuel : roundBound fn ≤ fuel) : (whileTrue A b fuel fn num).2 ≠ .running := by
  induction fuel generalizing fn num with
  | zero => exact absurd hfuel (by rw [roundBound]; omega)
  | succ fuel ih =>
      have hpos : 0 < fuel := by
        rw [roundBound] at hfuel
        omega
      rw [whileTrue]
      split
      · simp
      · split
        · rename_i hempty
          have hnil := List.isEmpty_iff.mp hempty
          have hbreak := whileTrue_break A b hpos fn
          rw [hnil] at hbreak
          rw [show (0 : ℤ) = ([] : List ℕ).length from rfl, hbreak]
          simp
        · rcases run_spec A (fun gep hgep => mem_candidates (b := b) hgep) with
            habort | ⟨r, hr, hkeeps, hquiet⟩
          · rw [habort]
            simp
          · rw [hr]
            dsimp only
            by_cases heq : r.1.accesses = fn.accesses
            · rcases hquiet heq with ⟨hsame, hcount⟩ | hused
              · rw [hsame, hcount, whileTrue_break A b hpos fn]
                simp
              · have hlt := roundBound_lt hkeeps (.inr ⟨heq, hused⟩)
                exact ih r.1 r.2 (by omega)
            · have hle := hkeeps.accesses
              have hlt := roundBound_lt hkeeps (.inl (by omega))
              exact ih r.1 r.2 (by omega)

theorem promoteBlocks_ne_running (A : Analyses) (bs : List ℕ) (fn : Func) (num : ℤ) :
    (promoteBlocks A bs fn num).2 ≠ .running := by
  induction bs generalizing fn num with
  | nil => simp [promoteBlocks]
  | cons b bs ih =>
      have hblock := whileTrue_ne_running A b (roundBound fn) fn num (Nat.le_refl _)
      rw [promoteBlocks]
      split
      · rename_i heq
        exact absurd heq hblock
      · simp
      · rename_i r _
        exact ih r.1 r.2

/-- The loop over each block ends after at most `roundBound` iterations, whatever the
counter is, and so does the pass. -/
theorem gep_promote_terminates (A : Analyses) (fn : Func) (numPromoteGEP : ℤ) :
    (∀ b k, (whileTrue A b (roundBound fn + k) fn numPromoteGEP).2 ≠ .running) ∧
    (promoteMemToRegister A fn numPromoteGEP).2 ≠ .running :=
  ⟨fun b k => whileTrue_ne_running A b _ fn numPromoteGEP (Nat.le_add_right _ k),
    promoteBlocks_ne_running A _ fn numPromoteGEP⟩

end PollyInstrew.Promote
