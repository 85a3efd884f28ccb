import PollyInstrew.Promote.Terminates

/-!
# Blocks that are skipped

`NumPromoteGEP` is carried over from block to block and from function to function.
The loop over a block is left at once if it happens to be the number of candidates,
and then none of them is promoted.
-/

namespace PollyInstrew.Promote

/-! ## Functions one after another -/

/-- The functions of one server process, each with what LLVM provides for it. -/
def runPasses : List (Analyses × Func) → ℤ → List (List Visit)
  | [], _ => []
  | (A, fn) :: fns, numPromoteGEP =>
      let u := promoteMemToRegister A fn numPromoteGEP
      match u.2 with
      | .done r => u.1 :: runPasses fns r.2
      | _ => [u.1]

/-- Every candidate of a block is handed to `run` by the loop over this block or by a
later one. -/
def AllHanded : List Visit → Prop
  | [] => True
  | v :: visits =>
      (∀ gep ∈ v.candidates, ∃ w ∈ v :: visits, gep ∈ w.handed) ∧ AllHanded visits

/-- The counter that was carried over does not hide the candidates. -/
def Visit.Counted (v : Visit) : Prop :=
  v.numPromoteGEP ≠ v.candidates.length ∨ v.candidates = []

/-! ## What a loop hands over -/

/-- The `getelementptr` instructions of a block. -/
def Func.gepsAt (fn : Func) (b : ℕ) : List ℕ := fn.geps[b]?.getD []

theorem Keeps.gepsAt {fn fn' : Func} (h : Keeps fn fn') (b : ℕ) : fn'.gepsAt b = fn.gepsAt b := by
  rw [Func.gepsAt, Func.gepsAt, h.geps]

theorem mem_gepsAt_of_candidate {fn : Func} {b gep : ℕ} (h : gep ∈ candidates fn b) :
    gep ∈ fn.gepsAt b := by
  obtain ⟨hmem, -⟩ := mem_candidates h
  obtain ⟨j, hj, hjgep, hjid⟩ := Func.mem_gepIds.mp hmem
  obtain ⟨i, hi, hid⟩ := List.mem_map.mp (List.mem_filter.mp h).1
  have hij := List.inj_on_of_nodup_map fn.nodup hj (Func.mem_insts_of_block hi)
    (hjid.trans hid.symm)
  rw [Func.gepsAt, Func.geps, List.getElem?_map]
  rw [Func.block] at hi
  cases hb : fn.blocks[b]? with
  | none =>
      rw [hb] at hi
      exact absurd hi List.not_mem_nil
  | some blk =>
      rw [hb] at hi
      rw [hij] at hjgep
      exact List.mem_map.mpr ⟨i, List.mem_filter.mpr ⟨hi, hjgep⟩, hid⟩

/-- Names are unique, so no `getelementptr` is in two blocks. -/
theorem eq_of_mem_gepsAt {fn : Func} {a b gep : ℕ} (ha : gep ∈ fn.gepsAt a)
    (hb : gep ∈ fn.gepsAt b) : a = b := by
  have hnodup : fn.geps.flatten.Nodup := by
    have hids := fn.gepIds_eq
    rw [Func.gepIds] at hids
    rw [hids]
    exact fn.nodup.sublist (List.filter_sublist.map _)
  have hdisj := (List.nodup_flatten.mp hnodup).2
  rw [Func.gepsAt] at ha hb
  cases hla : fn.geps[a]? with
  | none =>
      rw [hla] at ha
      exact absurd ha List.not_mem_nil
  | some la =>
      cases hlb : fn.geps[b]? with
      | none =>
          rw [hlb] at hb
          exact absurd hb List.not_mem_nil
      | some lb =>
          rw [hla] at ha
          rw [hlb] at hb
          obtain ⟨halt, rfl⟩ := List.getElem?_eq_some_iff.mp hla
          obtain ⟨hblt, rfl⟩ := List.getElem?_eq_some_iff.mp hlb
          by_contra hne
          rcases Nat.lt_or_gt_of_ne hne with hlt | hlt
          · exact List.pairwise_iff_getElem.mp hdisj a b halt hblt hlt ha hb
          · exact List.pairwise_iff_getElem.mp hdisj b a hblt halt hlt hb ha

theorem whileTrue_handed (A : Analyses) (b : ℕ) (fuel : ℕ) (fn : Func) (num : ℤ) :
    (∀ gep ∈ (whileTrue A b fuel fn num).1, gep ∈ fn.gepsAt b) ∧
      ∀ r, (whileTrue A b fuel fn num).2 = .done r → Keeps fn r.1 := by
  induction fuel generalizing fn num with
  | zero =>
      refine ⟨fun gep hgep => absurd hgep List.not_mem_nil, fun r hr => ?_⟩
      rw [whileTrue] at hr
      exact absurd hr (by simp)
  | succ fuel ih =>
      rw [whileTrue]
      split
      · refine ⟨fun gep hgep => absurd hgep List.not_mem_nil, fun r hr => ?_⟩
        rw [← Outcome.done.inj hr]
        exact Keeps.refl fn
      · split
        · exact ih fn 0
        · rcases run_spec A (fun gep (hgep : gep ∈ candidates fn b) => mem_candidates hgep) with
            habort | ⟨r, hr, hkeeps, -⟩
          · rw [habort]
            exact ⟨fun gep hgep => mem_gepsAt_of_candidate hgep, fun r hr => absurd hr (by simp)⟩
          · rw [hr]
            obtain ⟨h₁, h₂⟩ := ih r.1 r.2
            refine ⟨fun gep hgep => ?_, fun t ht => hkeeps.trans (h₂ t ht)⟩
            rcases List.mem_append.mp hgep with hgep | hgep
            · exact mem_gepsAt_of_candidate hgep
            · exact hkeeps.gepsAt b ▸ h₁ gep hgep

/-- The first round hands all candidates over, unless the loop is left at once. -/
theorem whileTrue_first (A : Analyses) (b : ℕ) {fuel : ℕ} (hfuel : 0 < fuel) (fn : Func)
    (num : ℤ) :
    (num = (candidates fn b).length → (whileTrue A b fuel fn num).1 = []) ∧
      (num ≠ (candidates fn b).length →
        ∀ gep ∈ candidates fn b, gep ∈ (whileTrue A b fuel fn num).1) := by
  obtain ⟨fuel, rfl⟩ := Nat.exists_eq_succ_of_ne_zero (Nat.ne_of_gt hfuel)
  rw [whileTrue]
  refine ⟨fun heq => by rw [if_pos heq], fun hne gep hgep => ?_⟩
  rw [if_neg hne]
  split
  · rename_i hempty
    rw [List.isEmpty_iff.mp hempty] at hgep
    exact absurd hgep List.not_mem_nil
  · split
    · exact hgep
    · exact hgep
    · exact List.mem_append_left _ hgep

/-! ## Which blocks are skipped -/

theorem promoteBlocks_handed (A : Analyses) (bs : List ℕ) (fn : Func) (num : ℤ) :
    ∀ v ∈ (promoteBlocks A bs fn num).1, ∀ gep ∈ v.handed, ∃ b ∈ bs, gep ∈ fn.gepsAt b := by
  induction bs generalizing fn num with
  | nil => exact fun v hv => absurd hv List.not_mem_nil
  | cons b bs ih =>
      obtain ⟨hhanded, hkeeps⟩ := whileTrue_handed A b (roundBound fn) fn num
      intro v hv gep hgep
      rw [promoteBlocks] at hv
      split at hv
      · rw [List.mem_singleton.mp hv] at hgep
        exact ⟨b, List.mem_cons_self, hhanded gep hgep⟩
      · rw [List.mem_singleton.mp hv] at hgep
        exact ⟨b, List.mem_cons_self, hhanded gep hgep⟩
      · rename_i r hr
        rcases List.mem_cons.mp hv with rfl | hv
        · exact ⟨b, List.mem_cons_self, hhanded gep hgep⟩
        · obtain ⟨c, hc, hmem⟩ := ih r.1 r.2 v hv gep hgep
          exact ⟨c, List.mem_cons_of_mem _ hc, (hkeeps r hr).gepsAt c ▸ hmem⟩

theorem allHanded_iff (A : Analyses) (bs : List ℕ) (hnodup : bs.Nodup) (fn : Func) (num : ℤ) :
    AllHanded (promoteBlocks A bs fn num).1 ↔
      ∀ v ∈ (promoteBlocks A bs fn num).1, v.Counted := by
  induction bs generalizing fn num with
  | nil => exact ⟨fun _ v hv => absurd hv List.not_mem_nil, fun _ => trivial⟩
  | cons b bs ih =>
      obtain ⟨hnot, hnodup⟩ := List.nodup_cons.mp hnodup
      obtain ⟨hbreak, hfirst⟩ := whileTrue_first A b
        (show 0 < roundBound fn by rw [roundBound]; omega) fn num
      obtain ⟨-, hkeeps⟩ := whileTrue_handed A b (roundBound fn) fn num
      have hhead : ∀ visits : List Visit,
          (∀ w ∈ visits, ∀ gep ∈ w.handed, ∃ c ∈ bs, gep ∈ fn.gepsAt c) →
          ((∀ gep ∈ candidates fn b, ∃ w ∈ (⟨candidates fn b, num,
              (whileTrue A b (roundBound fn) fn num).1⟩ : Visit) :: visits, gep ∈ w.handed) ↔
            (num ≠ (candidates fn b).length ∨ candidates fn b = [])) := by
        intro visits hvisits
        constructor
        · intro h
          by_contra hcon
          rw [not_or, not_not] at hcon
          obtain ⟨hnum, hne⟩ := hcon
          obtain ⟨gep, hgep⟩ := List.exists_mem_of_ne_nil _ hne
          obtain ⟨w, hw, hmem⟩ := h gep hgep
          rcases List.mem_cons.mp hw with rfl | hw
          · rw [hbreak hnum] at hmem
            exact absurd hmem List.not_mem_nil
          · obtain ⟨c, hc, hmem⟩ := hvisits w hw gep hmem
            rw [eq_of_mem_gepsAt hmem (mem_gepsAt_of_candidate hgep)] at hc
            exact hnot hc
        · rintro (hnum | hnil)
          · exact fun gep hgep => ⟨_, List.mem_cons_self, hfirst hnum gep hgep⟩
          · rw [hnil]
            exact fun gep hgep => absurd hgep List.not_mem_nil
      rw [promoteBlocks]
      split
      · rw [AllHanded, List.forall_mem_singleton, hhead [] fun w hw => absurd hw List.not_mem_nil]
        exact ⟨fun h => h.1, fun h => ⟨h, trivial⟩⟩
      · rw [AllHanded, List.forall_mem_singleton, hhead [] fun w hw => absurd hw List.not_mem_nil]
        exact ⟨fun h => h.1, fun h => ⟨h, trivial⟩⟩
      · rename_i r hr
        rw [AllHanded, List.forall_mem_cons, ih hnodup r.1 r.2]
        refine and_congr_left fun _ => hhead _ fun w hw gep hgep => ?_
        obtain ⟨c, hc, hmem⟩ := promoteBlocks_handed A bs r.1 r.2 w hw gep hgep
        exact ⟨c, hc, (hkeeps r hr).gepsAt c ▸ hmem⟩

/-- No promotable slot is skipped exactly if no block is reached with a counter that is
the number of its candidates. -/
theorem no_slot_skipped_iff (fns : List (Analyses × Func)) (numPromoteGEP : ℤ) :
    (∀ visits ∈ runPasses fns numPromoteGEP, AllHanded visits) ↔
      ∀ visits ∈ runPasses fns numPromoteGEP, ∀ v ∈ visits, v.Counted := by
  have hpass : ∀ visits ∈ runPasses fns numPromoteGEP,
      (AllHanded visits ↔ ∀ v ∈ visits, v.Counted) := by
    induction fns generalizing numPromoteGEP with
    | nil => exact fun visits hvisits => absurd hvisits List.not_mem_nil
    | cons p fns ih =>
        have hiff := allHanded_iff p.1 (List.range p.2.blocks.length) List.nodup_range p.2
          numPromoteGEP
        intro visits hvisits
        rw [runPasses] at hvisits
        split at hvisits
        · rcases List.mem_cons.mp hvisits with rfl | hvisits
          · exact hiff
          · exact ih _ visits hvisits
        · rw [List.mem_singleton.mp hvisits]
          exact hiff
  exact ⟨fun h visits hv => (hpass visits hv).mp (h visits hv),
    fun h visits hv => (hpass visits hv).mpr (h visits hv)⟩

/-- Two blocks with one slot each. -/
def twoSlots : Func where
  args := List.replicate 6 (.int 64)
  blocks := [⟨[⟨0, .intToPtr (.ptr 0) (.arg 5)⟩,
      ⟨1, .getElementPtr (.ptr 0) (.inst 0) [.element 1 (.const (.int 64) (-8))]⟩,
      ⟨2, .store (.arg 0) (.inst 1) false⟩, ⟨3, .load (.int 64) (.inst 1) false⟩], [1]⟩,
    ⟨[⟨4, .getElementPtr (.ptr 0) (.inst 0) [.element 1 (.const (.int 64) (-16))]⟩,
      ⟨5, .store (.arg 1) (.inst 4) false⟩, ⟨6, .load (.int 64) (.inst 4) false⟩], []⟩]
  nodup := by decide
  succs_lt := by decide

/-- The slot of the second block is skipped. -/
theorem second_slot_skipped :
    (runPasses [(.plain, twoSlots)] 0).map
      (List.map fun v => (v.candidates, v.numPromoteGEP, v.handed)) =
        [[([1], 0, [1]), ([4], 1, [])]] := by
  decide +kernel

end PollyInstrew.Promote
