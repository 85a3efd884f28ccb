import Mathlib.Algebra.BigOperators.Group.Finset.Piecewise
import Mathlib.Algebra.Ring.Defs

/-!
# Linear forms

Sums of coefficients times leaves.  Several leaves may depend on one variable.  Two
forms agree whatever the variables are worth exactly if their constants agree and,
variable by variable, the sums of the terms that depend on it agree.
-/

namespace PollyInstrew.LinearForm

variable {R L V E : Type*}

/-! ## The value of a form -/

section Value

variable [Ring R]

/-- The sum of the terms, each a coefficient and a leaf, if `x` are the leaves' values. -/
def value (x : L → R) (terms : List (R × L)) : R :=
  (terms.map fun t => t.1 * x t.2).sum

@[simp] theorem value_nil (x : L → R) : value x [] = 0 := rfl

@[simp] theorem value_cons (x : L → R) (t : R × L) (terms : List (R × L)) :
    value x (t :: terms) = t.1 * x t.2 + value x terms := by
  rw [value, List.map_cons, List.sum_cons, value]

@[simp] theorem value_append (x : L → R) (terms terms' : List (R × L)) :
    value x (terms ++ terms') = value x terms + value x terms' := by
  rw [value, List.map_append, List.sum_append, value, value]

/-- Every coefficient multiplied with `c`. -/
def scale (c : R) (terms : List (R × L)) : List (R × L) :=
  terms.map fun t => (c * t.1, t.2)

@[simp] theorem value_scale (x : L → R) (c : R) (terms : List (R × L)) :
    value x (scale c terms) = c * value x terms := by
  induction terms with
  | nil => rw [scale, List.map_nil, value_nil, mul_zero]
  | cons t terms ih =>
      rw [scale, List.map_cons, value_cons, value_cons, mul_add, ← ih, mul_assoc, scale]

end Value

/-! ## Grouping by variable -/

section Group

variable [DecidableEq V] (key : L → V)

/-- The terms whose leaf depends on `v`. -/
def group (v : V) (terms : List (R × L)) : List (R × L) :=
  terms.filter fun t => key t.2 = v

variable [Ring R]

theorem value_group_cons (x : L → R) (v : V) (t : R × L) (terms : List (R × L)) :
    value x (group key v (t :: terms)) =
      (if key t.2 = v then t.1 * x t.2 else 0) + value x (group key v terms) := by
  by_cases h : key t.2 = v
  · simp [group, h]
  · simp [group, h]

theorem value_eq_sum_groups (x : L → R) {vars : Finset V} (terms : List (R × L))
    (hvars : ∀ t ∈ terms, key t.2 ∈ vars) :
    value x terms = ∑ v ∈ vars, value x (group key v terms) := by
  induction terms with
  | nil => simp [group]
  | cons t terms ih =>
      have hrest := ih fun s hs => hvars s (List.mem_cons_of_mem t hs)
      simp only [value_group_cons]
      rw [Finset.sum_add_distrib, Finset.sum_ite_eq, if_pos (hvars t List.mem_cons_self),
        value_cons, hrest]

/-- What an environment makes of the leaves is given by what it makes of each variable:
`only v e` keeps the variable `v` of `e` and makes all others vanish. -/
structure Separated (leaf : E → L → R) (only : V → E → E) : Prop where
  same : ∀ v e l, key l = v → leaf (only v e) l = leaf e l
  zero : ∀ v e l, key l ≠ v → leaf (only v e) l = 0

variable {key}

theorem value_group_only {leaf : E → L → R} {only : V → E → E}
    (hsep : Separated key leaf only) (v : V) (e : E) (terms : List (R × L)) :
    value (leaf (only v e)) terms = value (leaf e) (group key v terms) := by
  induction terms with
  | nil => rfl
  | cons t terms ih =>
      rw [value_cons, value_group_cons, ih]
      by_cases hkey : key t.2 = v
      · rw [if_pos hkey, hsep.same v e t.2 hkey]
      · rw [if_neg hkey, hsep.zero v e t.2 hkey, mul_zero]

theorem forall_value_eq_iff {leaf : E → L → R} {only : V → E → E}
    (hsep : Separated key leaf only) (e₀ : E) (hzero : ∀ l, leaf e₀ l = 0) (c c' : R)
    (terms terms' : List (R × L)) :
    (∀ e, c + value (leaf e) terms = c' + value (leaf e) terms') ↔
      c = c' ∧ ∀ v e, value (leaf e) (group key v terms) =
        value (leaf e) (group key v terms') := by
  have hnull : ∀ ts : List (R × L), value (leaf e₀) ts = 0 := by
    intro ts
    induction ts with
    | nil => rfl
    | cons t ts ih => rw [value_cons, hzero, mul_zero, zero_add, ih]
  constructor
  · intro h
    have hconst : c = c' := by
      have h₀ := h e₀
      rwa [hnull, hnull, add_zero, add_zero] at h₀
    subst hconst
    refine ⟨rfl, fun v e => ?_⟩
    rw [← value_group_only hsep, ← value_group_only hsep]
    exact add_left_cancel (h (only v e))
  · rintro ⟨rfl, hgroups⟩ e
    have hvars : ∀ t ∈ terms ++ terms',
        key t.2 ∈ ((terms ++ terms').map fun t => key t.2).toFinset :=
      fun t ht => List.mem_toFinset.mpr (List.mem_map_of_mem ht)
    rw [value_eq_sum_groups key _ terms fun t ht => hvars t (List.mem_append_left _ ht),
      value_eq_sum_groups key _ terms' fun t ht => hvars t (List.mem_append_right _ ht)]
    simp only [hgroups]

end Group

/-! ## Coefficients -/

section Coeff

variable [DecidableEq L] [Ring R]

/-- All coefficients of one leaf together. -/
def coeff (l : L) (terms : List (R × L)) : R :=
  (terms.map fun t => if t.2 = l then t.1 else 0).sum

@[simp] theorem coeff_nil (l : L) : coeff l ([] : List (R × L)) = 0 := rfl

@[simp] theorem coeff_cons (l : L) (t : R × L) (terms : List (R × L)) :
    coeff l (t :: terms) = (if t.2 = l then t.1 else 0) + coeff l terms := by
  rw [coeff, List.map_cons, List.sum_cons, coeff]

theorem value_group_eq_sum [DecidableEq V] {key : L → V} {v : V} {leaves : Finset L}
    (hkey : ∀ l, key l = v ↔ l ∈ leaves) (x : L → R) (terms : List (R × L)) :
    value x (group key v terms) = ∑ l ∈ leaves, coeff l terms * x l := by
  induction terms with
  | nil => simp [group]
  | cons t terms ih =>
      have hsum : ∑ l ∈ leaves, coeff l (t :: terms) * x l =
          (∑ l ∈ leaves, if t.2 = l then t.1 * x l else 0) +
            ∑ l ∈ leaves, coeff l terms * x l := by
        rw [← Finset.sum_add_distrib]
        apply Finset.sum_congr rfl
        intro l _
        rw [coeff_cons, add_mul, ite_mul, zero_mul]
      rw [hsum, Finset.sum_ite_eq, value_group_cons, ih]
      simp only [hkey]

end Coeff

end PollyInstrew.LinearForm
