import Mathlib.Algebra.BigOperators.Group.Finset.Basic

/-!
# Worklists

A loop that takes a job from a stack, updates a state and puts new jobs on the
stack, with its invariant rule and its termination argument; and the idiom that
filters a vector in place by moving its last element into a hole.
-/

namespace PollyInstrew.Worklist

/-! ## The loop -/

section Loop

variable {σ α : Type*} (step : σ → α → σ × List α)

/-- Runs at most `fuel` jobs; the result holds the jobs that are left. -/
def run : ℕ → σ → List α → σ × List α
  | 0, s, work => (s, work)
  | _ + 1, s, [] => (s, [])
  | fuel + 1, s, a :: work => run fuel (step s a).1 ((step s a).2 ++ work)

variable {step}

theorem run_inv {inv : σ → List α → Prop}
    (hstep : ∀ s a work, inv s (a :: work) → inv (step s a).1 ((step s a).2 ++ work)) :
    ∀ fuel s work, inv s work → inv (run step fuel s work).1 (run step fuel s work).2 := by
  intro fuel
  induction fuel with
  | zero =>
      intro s work h
      exact h
  | succ fuel ih =>
      intro s work h
      cases work with
      | nil => exact h
      | cons a work => exact ih _ _ (hstep s a work h)

/-- If every job is paid for out of a potential, the loop runs to its end. -/
theorem run_empty (potential : σ → ℕ)
    (hstep : ∀ s a, (step s a).2.length + potential (step s a).1 ≤ potential s) :
    ∀ fuel s work, work.length + potential s ≤ fuel → (run step fuel s work).2 = [] := by
  intro fuel
  induction fuel with
  | zero =>
      intro s work h
      have hlen : work.length = 0 := by omega
      exact List.length_eq_zero_iff.mp hlen
  | succ fuel ih =>
      intro s work h
      cases work with
      | nil => rfl
      | cons a work =>
          apply ih
          have hpay := hstep s a
          rw [List.length_cons] at h
          rw [List.length_append]
          omega

end Loop

/-! ## The weight of what was not seen -/

def unseen (size : ℕ) (weight : ℕ → ℕ) (seen : List ℕ) : ℕ :=
  ∑ b ∈ (Finset.range size).filter (· ∉ seen), weight b

theorem unseen_cons {size : ℕ} (weight : ℕ → ℕ) {seen : List ℕ} {b : ℕ} (hb : b ∉ seen)
    (hsize : size ≤ b → weight b = 0) :
    weight b + unseen size weight (b :: seen) ≤ unseen size weight seen := by
  have hsplit : (Finset.range size).filter (· ∉ b :: seen) =
      ((Finset.range size).filter (· ∉ seen)).erase b := by
    ext c
    simp only [Finset.mem_filter, Finset.mem_range, List.mem_cons, not_or, Finset.mem_erase]
    tauto
  rw [unseen, unseen, hsplit]
  by_cases hlt : b < size
  · rw [Finset.add_sum_erase _ _ (by simp [hlt, hb])]
  · rw [hsize (Nat.le_of_not_lt hlt), Nat.zero_add]
    rw [Finset.erase_eq_of_notMem (by simp [hlt])]

/-! ## Filtering in place -/

section Compact

variable {α : Type*}

/-- `v[i] = v.back(); v.pop_back()`. -/
def swapRemove (l : List α) (i : ℕ) : List α :=
  match l.getLast? with
  | none => []
  | some x => (l.set i x).dropLast

theorem swapRemove_concat (l : List α) (x : α) (i : ℕ) :
    swapRemove (l ++ [x]) i = if i < l.length then l.set i x else l := by
  rw [swapRemove, List.getLast?_concat]
  dsimp only
  split
  · rw [List.set_append_left _ _ ‹_›, List.dropLast_concat]
  · rw [List.set_append_right _ _ (Nat.le_of_not_lt ‹_›)]
    cases i - l.length <;> simp

theorem swapRemove_perm {l : List α} {i : ℕ} {x : α} (h : l[i]? = some x) :
    l.Perm (x :: swapRemove l i) := by
  obtain rfl | ⟨l, y, rfl⟩ := List.eq_nil_or_concat l
  · exact absurd h (by simp)
  · rw [List.concat_eq_append] at h ⊢
    rw [swapRemove_concat]
    split
    · rename_i hlt
      rw [List.getElem?_append_left hlt] at h
      obtain ⟨a, b, rfl, rfl⟩ : ∃ a b, l = a ++ x :: b ∧ i = a.length := by
        refine ⟨l.take i, l.drop (i + 1), ?_, by simp [Nat.le_of_lt hlt]⟩
        have hx : l[i] = x := Option.some.inj ((List.getElem?_eq_getElem hlt).symm.trans h)
        rw [← hx, List.getElem_cons_drop, List.take_append_drop]
      rw [List.set_append_right _ _ (Nat.le_refl _), Nat.sub_self, List.set_cons_zero,
        List.append_assoc, List.cons_append]
      refine List.perm_middle.trans (List.Perm.cons x ?_)
      exact ((List.perm_append_singleton y b).append_left a)
    · rename_i hge
      have hi : i < (l ++ [y]).length := (List.getElem?_eq_some_iff.mp h).1
      rw [List.length_append, List.length_singleton] at hi
      obtain rfl : i = l.length := by omega
      rw [List.getElem?_concat_length] at h
      obtain rfl := Option.some.inj h
      exact List.perm_append_singleton y l

theorem getElem?_swapRemove {l : List α} {i j : ℕ} (hij : j < i) (hi : i < l.length) :
    (swapRemove l i)[j]? = l[j]? := by
  obtain rfl | ⟨l, y, rfl⟩ := List.eq_nil_or_concat l
  · exact absurd hi (by simp)
  · rw [List.concat_eq_append] at hi ⊢
    rw [List.length_append, List.length_singleton] at hi
    rw [swapRemove_concat, List.getElem?_append_left (by omega)]
    split
    · rw [List.getElem?_set_ne (by omega)]
    · rfl

theorem length_swapRemove {l : List α} {i : ℕ} (hi : i < l.length) :
    (swapRemove l i).length + 1 = l.length := by
  have hperm := swapRemove_perm (List.getElem?_eq_getElem hi)
  rw [hperm.length_eq, List.length_cons]

/-- The elements from index `i` on that are not kept are removed. -/
def compact (keep : α → Bool) (l : List α) (i : ℕ) : List α :=
  if h : i < l.length then
    if keep l[i] then compact keep l (i + 1) else compact keep (swapRemove l i) i
  else
    l
termination_by l.length - i
decreasing_by
  · omega
  · have hlen := length_swapRemove h
    omega

theorem compact_perm (keep : α → Bool) (l : List α) (i : ℕ)
    (hkeep : ∀ j x, j < i → l[j]? = some x → keep x = true) :
    (compact keep l i).Perm (l.filter keep) := by
  fun_induction compact keep l i with
  | case1 l i h hk ih =>
      refine ih fun j x hj hx => ?_
      by_cases heq : j = i
      · subst heq
        rw [List.getElem?_eq_getElem h] at hx
        exact Option.some.inj hx ▸ hk
      · exact hkeep j x (by omega) hx
  | case2 l i h hk ih =>
      have hperm := swapRemove_perm (List.getElem?_eq_getElem h)
      refine (ih fun j x hj hx => ?_).trans ?_
      · exact hkeep j x hj (by rwa [getElem?_swapRemove hj h] at hx)
      · rw [(hperm.filter keep).congr_right, List.filter_cons_of_neg (by simpa using hk)]
  | case3 l i h =>
      rw [List.filter_eq_self.mpr]
      intro x hx
      obtain ⟨j, hj⟩ := List.getElem?_of_mem hx
      have hlt := (List.getElem?_eq_some_iff.mp hj).1
      exact hkeep j x (by omega) hj

end Compact

end PollyInstrew.Worklist
