import Mathlib.Algebra.Group.Int.Defs
import Mathlib.Algebra.Group.Nat.Defs
import Mathlib.Tactic.Common

/-!
# Computations over a state that may fail

A program reads and changes a state and ends with a value or an error; the
changes made before an error stay.  Sequencing rules for successful runs,
counting loops, and relations between the states before and after a program.
-/

namespace PollyInstrew.StateExcept

variable {σ ε : Type} {α β : Type}

/-- A computation over the state `σ` with errors `ε`. -/
@[ext]
structure Prog (σ ε α : Type) where
  run : σ → Except ε α × σ

namespace Prog

instance : Monad (Prog σ ε) where
  pure a := ⟨fun s => (.ok a, s)⟩
  bind x f := ⟨fun s =>
    match x.run s with
    | (.ok a, s') => (f a).run s'
    | (.error e, s') => (.error e, s')⟩

def fail (e : ε) : Prog σ ε α := ⟨fun s => (.error e, s)⟩

def get : Prog σ ε σ := ⟨fun s => (.ok s, s)⟩

def modify (f : σ → σ) : Prog σ ε Unit := ⟨fun s => (.ok (), f s)⟩

/-- A pure computation that may fail. -/
def lift (x : Except ε α) : Prog σ ε α := ⟨fun s => (x, s)⟩

/-- The iterations `i, i + 1, …` of a counting loop, `count` of them. -/
def loopFrom (body : ℕ → Prog σ ε Unit) : ℕ → ℕ → Prog σ ε Unit
  | 0, _ => pure ()
  | count + 1, i => do
      body i
      loopFrom body count (i + 1)

/-- The loop `for (i = 0; i < n; i++)`. -/
def forRange (n : ℕ) (body : ℕ → Prog σ ε Unit) : Prog σ ε Unit :=
  loopFrom body n 0

/-- The loop `for (; cond(i); i++)`, at most `fuel` iterations of it. -/
def whileFrom (cond : ℕ → σ → Bool) (body : ℕ → Prog σ ε Unit) :
    ℕ → ℕ → Prog σ ε Unit
  | 0, _ => pure ()
  | fuel + 1, i => do
      let s ← get
      if cond i s then
        body i
        whileFrom cond body fuel (i + 1)

/-- A counting loop whose body says whether to go on; `false` leaves it. -/
def untilFrom (body : ℕ → Prog σ ε Bool) : ℕ → ℕ → Prog σ ε Bool
  | 0, _ => pure true
  | count + 1, i => do
      let more ← body i
      if more then untilFrom body count (i + 1) else pure false

/-! ## Successful runs -/

@[simp] theorem run_pure (a : α) (s : σ) : (pure a : Prog σ ε α).run s = (.ok a, s) :=
  rfl

@[simp] theorem run_fail (e : ε) (s : σ) :
    (fail e : Prog σ ε α).run s = (.error e, s) :=
  rfl

@[simp] theorem run_get (s : σ) : (get : Prog σ ε σ).run s = (.ok s, s) :=
  rfl

@[simp] theorem run_modify (f : σ → σ) (s : σ) :
    (modify f : Prog σ ε Unit).run s = (.ok (), f s) :=
  rfl

@[simp] theorem run_lift (x : Except ε α) (s : σ) :
    (lift x : Prog σ ε α).run s = (x, s) :=
  rfl

theorem run_bind (x : Prog σ ε α) (f : α → Prog σ ε β) (s : σ) :
    (x >>= f).run s =
      match x.run s with
      | (.ok a, s') => (f a).run s'
      | (.error e, s') => (.error e, s') :=
  rfl

theorem run_bind_eq_ok {x : Prog σ ε α} {f : α → Prog σ ε β} {s s'' : σ} {b : β} :
    (x >>= f).run s = (.ok b, s'') ↔
      ∃ a s', x.run s = (.ok a, s') ∧ (f a).run s' = (.ok b, s'') := by
  rw [run_bind]
  cases hx : x.run s with
  | mk r s' =>
      cases r with
      | error e => simp
      | ok a => simp

theorem run_bind_of_ok {x : Prog σ ε α} {f : α → Prog σ ε β} {s s' : σ} {a : α}
    (h : x.run s = (.ok a, s')) : (x >>= f).run s = (f a).run s' := by
  rw [run_bind, h]

/-- An error ends the program. -/
theorem fst_run_bind_of_error {x : Prog σ ε α} (f : α → Prog σ ε β) {s : σ} {e : ε}
    (h : (x.run s).1 = .error e) : ((x >>= f).run s).1 = .error e := by
  rw [run_bind]
  cases hx : x.run s with
  | mk r s' =>
      rw [hx] at h
      obtain rfl : r = .error e := h
      rfl

theorem bind_assoc {γ : Type} (x : Prog σ ε α) (f : α → Prog σ ε β) (g : β → Prog σ ε γ) :
    x >>= f >>= g = x >>= fun a => f a >>= g := by
  ext1
  funext s
  simp only [run_bind]
  cases x.run s with
  | mk r s' =>
      cases r with
      | error e => rfl
      | ok a => rfl

theorem pure_bind (a : α) (f : α → Prog σ ε β) : (pure a : Prog σ ε α) >>= f = f a := rfl

theorem fail_bind (e : ε) (f : α → Prog σ ε β) : (fail e : Prog σ ε α) >>= f = fail e := rfl

theorem ite_bind {p : Prop} [Decidable p] (x y : Prog σ ε α) (f : α → Prog σ ε β) :
    (if p then x else y) >>= f = if p then x >>= f else y >>= f := by
  split <;> rfl

theorem run_eq_of_fst {x : Prog σ ε α} {s : σ} {r : Except ε α} (h : (x.run s).1 = r) :
    x.run s = (r, (x.run s).2) :=
  Prod.ext h rfl

/-- Invariant rule for a counting loop. -/
theorem loopFrom_ok {body : ℕ → Prog σ ε Unit} {I : ℕ → σ → Prop} :
    ∀ (count i : ℕ) {s s' : σ},
      (∀ j t t', i ≤ j → j < i + count → I j t → (body j).run t = (.ok (), t') →
        I (j + 1) t') →
      I i s → (loopFrom body count i).run s = (.ok (), s') → I (i + count) s' := by
  intro count
  induction count with
  | zero =>
      intro i s s' _ hi hrun
      obtain ⟨-, rfl⟩ := Prod.mk.inj hrun
      exact hi
  | succ count ih =>
      intro i s s' hstep hi hrun
      obtain ⟨⟨⟩, t, hbody, hrest⟩ := run_bind_eq_ok.mp hrun
      have ht : I (i + 1) t := hstep i s t (Nat.le_refl _) (by omega) hi hbody
      have hend := ih (i + 1)
        (fun j t t' hle hlt => hstep j t t' (by omega) (by omega)) ht hrest
      rwa [Nat.add_assoc, Nat.add_comm 1 count] at hend

theorem forRange_ok {body : ℕ → Prog σ ε Unit} {I : ℕ → σ → Prop} {n : ℕ} {s s' : σ}
    (hstep : ∀ j t t', j < n → I j t → (body j).run t = (.ok (), t') → I (j + 1) t')
    (hinit : I 0 s) (hrun : (forRange n body).run s = (.ok (), s')) : I n s' := by
  have hend := loopFrom_ok n 0
    (fun j t t' _ hlt => hstep j t t' (by omega)) hinit hrun
  rwa [Nat.zero_add] at hend

/-- Invariant rule for a counting loop whose body succeeds under the
invariant. -/
theorem loopFrom_total {body : ℕ → Prog σ ε Unit} {I : ℕ → σ → Prop} :
    ∀ (count i : ℕ) {s : σ},
      (∀ j t, i ≤ j → j < i + count → I j t →
        ∃ t', (body j).run t = (.ok (), t') ∧ I (j + 1) t') →
      I i s → ∃ s', (loopFrom body count i).run s = (.ok (), s') ∧ I (i + count) s' := by
  intro count
  induction count with
  | zero =>
      intro i s _ hi
      exact ⟨s, rfl, hi⟩
  | succ count ih =>
      intro i s hstep hi
      obtain ⟨t, hbody, ht⟩ := hstep i s (Nat.le_refl _) (by omega) hi
      obtain ⟨s', hrest, hs'⟩ := ih (i + 1)
        (fun j t hle hlt => hstep j t (by omega) (by omega)) ht
      refine ⟨s', run_bind_eq_ok.mpr ⟨(), t, hbody, hrest⟩, ?_⟩
      rwa [Nat.add_assoc, Nat.add_comm 1 count] at hs'

theorem forRange_total {body : ℕ → Prog σ ε Unit} {I : ℕ → σ → Prop} {n : ℕ} {s : σ}
    (hstep : ∀ j t, j < n → I j t → ∃ t', (body j).run t = (.ok (), t') ∧ I (j + 1) t')
    (hinit : I 0 s) : ∃ s', (forRange n body).run s = (.ok (), s') ∧ I n s' := by
  have hend := loopFrom_total n 0 (fun j t _ hlt => hstep j t (by omega)) hinit
  rwa [Nat.zero_add] at hend

/-- Invariant rule for a loop whose condition is `i < n` in all states that
satisfy the invariant. -/
theorem whileFrom_ok {cond : ℕ → σ → Bool} {body : ℕ → Prog σ ε Unit}
    {I : ℕ → σ → Prop} {n : ℕ} (hcond : ∀ j t, I j t → cond j t = decide (j < n))
    (hstep : ∀ j t t', j < n → I j t → (body j).run t = (.ok (), t') →
      I (j + 1) t') :
    ∀ (fuel i : ℕ) {s s' : σ}, i ≤ n → n < i + fuel → I i s →
      (whileFrom cond body fuel i).run s = (.ok (), s') → I n s' := by
  intro fuel
  induction fuel with
  | zero =>
      intro i s s' hle hlt
      omega
  | succ fuel ih =>
      intro i s s' hle hlt hi hrun
      rw [whileFrom, run_bind, run_get] at hrun
      simp only [hcond i s hi, decide_eq_true_eq] at hrun
      by_cases hin : i < n
      · rw [if_pos hin] at hrun
        obtain ⟨⟨⟩, t, hbody, hrest⟩ := run_bind_eq_ok.mp hrun
        exact ih (i + 1) hin (by omega) (hstep i s t hin hi hbody) hrest
      · rw [if_neg hin] at hrun
        have heq : i = n := by omega
        obtain ⟨-, rfl⟩ := Prod.mk.inj hrun
        exact heq ▸ hi

/-! ## Relations between the states before and after -/

/-- Whatever the outcome, the states before and after are related. -/
def Keeps (R : σ → σ → Prop) (x : Prog σ ε α) : Prop := ∀ s, R s (x.run s).2

theorem Keeps.of_run {R : σ → σ → Prop} {x : Prog σ ε α} (hx : Keeps R x) {s s' : σ}
    {r : Except ε α} (hrun : x.run s = (r, s')) : R s s' := by
  have hs := hx s
  rwa [hrun] at hs

section Keeps

variable {R : σ → σ → Prop} (hrefl : ∀ s, R s s)
  (htrans : ∀ s t u, R s t → R t u → R s u)

include hrefl in
theorem Keeps.pure (a : α) : Keeps R (pure a : Prog σ ε α) := hrefl

include hrefl in
theorem Keeps.fail (e : ε) : Keeps R (fail e : Prog σ ε α) := hrefl

include hrefl in
theorem Keeps.get : Keeps R (get : Prog σ ε σ) := hrefl

include hrefl in
theorem Keeps.lift (x : Except ε α) : Keeps R (lift x : Prog σ ε α) := hrefl

theorem Keeps.modify {f : σ → σ} (h : ∀ s, R s (f s)) :
    Keeps R (modify f : Prog σ ε Unit) := h

include htrans in
theorem Keeps.bind {x : Prog σ ε α} {f : α → Prog σ ε β}
    (hx : Keeps R x) (hf : ∀ a, Keeps R (f a)) : Keeps R (x >>= f) := by
  intro s
  have hs := hx s
  rw [run_bind]
  cases hxs : x.run s with
  | mk r s' =>
      rw [hxs] at hs
      cases r with
      | error e => exact hs
      | ok a => exact htrans s s' _ hs (hf a s')

theorem Keeps.ite {p : Prop} [Decidable p] {x y : Prog σ ε α}
    (hx : Keeps R x) (hy : Keeps R y) : Keeps R (if p then x else y) := by
  split
  · exact hx
  · exact hy

include hrefl htrans in
theorem Keeps.loopFrom {body : ℕ → Prog σ ε Unit} (hbody : ∀ i, Keeps R (body i)) :
    ∀ count i, Keeps R (loopFrom body count i) := by
  intro count
  induction count with
  | zero =>
      intro i
      exact Keeps.pure hrefl ()
  | succ count ih =>
      intro i
      exact Keeps.bind htrans (hbody i) fun _ => ih (i + 1)

include hrefl htrans in
theorem Keeps.whileFrom {cond : ℕ → σ → Bool} {body : ℕ → Prog σ ε Unit}
    (hbody : ∀ i, Keeps R (body i)) :
    ∀ fuel i, Keeps R (whileFrom cond body fuel i) := by
  intro fuel
  induction fuel with
  | zero =>
      intro i
      exact Keeps.pure hrefl ()
  | succ fuel ih =>
      intro i
      refine Keeps.bind htrans (Keeps.get hrefl) fun s => ?_
      split
      · exact Keeps.bind htrans (hbody i) fun _ => ih (i + 1)
      · exact Keeps.pure hrefl ()

include hrefl htrans in
theorem Keeps.untilFrom {body : ℕ → Prog σ ε Bool} (hbody : ∀ i, Keeps R (body i)) :
    ∀ count i, Keeps R (untilFrom body count i) := by
  intro count
  induction count with
  | zero =>
      intro i
      exact Keeps.pure hrefl true
  | succ count ih =>
      intro i
      refine Keeps.bind htrans (hbody i) fun more => ?_
      split
      · exact ih (i + 1)
      · exact Keeps.pure hrefl false

end Keeps

end Prog

/-- Invariant rule for a sequence of events, each of which may end the run. -/
theorem foldlM_invariant {ι : Type} {I : σ → Prop} {step : σ → ι → Option σ}
    (hstep : ∀ s e s', I s → step s e = some s' → I s') :
    ∀ (events : List ι) {s s' : σ}, I s → events.foldlM step s = some s' → I s' := by
  intro events
  induction events with
  | nil =>
      intro s s' hs hrun
      obtain rfl := Option.some.inj hrun
      exact hs
  | cons e events ih =>
      intro s s' hs hrun
      rw [List.foldlM_cons] at hrun
      obtain ⟨t, ht, hrest⟩ := Option.bind_eq_some_iff.mp hrun
      exact ih (hstep s e t hs ht) hrest

end PollyInstrew.StateExcept
