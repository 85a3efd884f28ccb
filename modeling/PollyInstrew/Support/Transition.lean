import Mathlib.Tactic.Common

/-!
# Runs of a transition system

A system makes a step for every event of a schedule; a step that is not enabled
has no result.  What every step keeps holds at the end of a run.  Processes that
interleave are a special case: each has a local state and they take turns on a
shared one, and an invariant has a part about the shared state and a part about
each process.
-/

namespace PollyInstrew.Transition

section Run

variable {σ α : Type*}

/-- The state after the events of a schedule. -/
def run (step : σ → α → Option σ) : σ → List α → Option σ
  | s, [] => some s
  | s, e :: events => (step s e).bind fun s' => run step s' events

/-- Every event of the schedule meets the condition when its turn comes. -/
def Guarded (step : σ → α → Option σ) (ok : σ → α → Prop) : σ → List α → Prop
  | _, [] => True
  | s, e :: events => ok s e ∧ ∀ s' ∈ step s e, Guarded step ok s' events

instance instDecidableGuarded (step : σ → α → Option σ) (ok : σ → α → Prop)
    [∀ s e, Decidable (ok s e)] :
    ∀ (s : σ) (events : List α), Decidable (Guarded step ok s events)
  | _, [] => .isTrue trivial
  | s, e :: events =>
      have : DecidablePred fun s' => Guarded step ok s' events :=
        fun s' => instDecidableGuarded step ok s' events
      inferInstanceAs (Decidable (ok s e ∧ ∀ s' ∈ step s e, Guarded step ok s' events))

/-- A condition on the events alone. -/
theorem guarded_of_forall {step : σ → α → Option σ} {ok : σ → α → Prop} {events : List α}
    (h : ∀ e ∈ events, ∀ s, ok s e) : ∀ s, Guarded step ok s events := by
  induction events with
  | nil =>
      intro s
      trivial
  | cons e events ih =>
      intro s
      refine ⟨h e List.mem_cons_self s, ?_⟩
      intro s' _
      exact ih (fun e' he' => h e' (List.mem_cons_of_mem _ he')) s'

/-- A weaker condition. -/
theorem Guarded.mono {step : σ → α → Option σ} {ok ok' : σ → α → Prop} {events : List α}
    (h : ∀ s e, ok s e → ok' s e) :
    ∀ {s : σ}, Guarded step ok s events → Guarded step ok' s events := by
  induction events with
  | nil =>
      intro s _
      trivial
  | cons e events ih =>
      intro s hok
      exact ⟨h s e hok.1, fun s' hs' => ih (hok.2 s' hs')⟩

/-- What the steps of a guarded run keep holds at its end. -/
theorem run_invariant {step : σ → α → Option σ} {ok : σ → α → Prop} {P : σ → Prop}
    {events : List α}
    (hstep : ∀ e ∈ events, ∀ s s', P s → ok s e → step s e = some s' → P s') :
    ∀ {s s' : σ}, P s → Guarded step ok s events → run step s events = some s' → P s' := by
  induction events with
  | nil =>
      intro s s' h _ hrun
      obtain rfl := Option.some.inj hrun
      exact h
  | cons e events ih =>
      intro s s' h hok hrun
      obtain ⟨t, hfirst, hrest⟩ := Option.bind_eq_some_iff.mp hrun
      exact ih (fun e' he' => hstep e' (List.mem_cons_of_mem _ he'))
        (hstep e List.mem_cons_self s t h hok.1 hfirst) (hok.2 t hfirst) hrest

end Run

/-! ## Processes that interleave -/

section Interleave

variable {ι σ α : Type*} {τ : ι → Type*} [DecidableEq ι]

/-- A shared state with the local states of the processes. -/
structure System (σ : Type*) (τ : ι → Type*) where
  shared : σ
  locals : (i : ι) → τ i

/-- What a process can do: its next shared and local state. -/
abbrev Action (σ α : Type*) (τ : ι → Type*) := (i : ι) → α → σ → τ i → Option (σ × τ i)

/-- Process `e.1` acts with outcome `e.2`. -/
def interleave (act : Action σ α τ) (s : System σ τ) (e : ι × α) : Option (System σ τ) :=
  (act e.1 e.2 s.shared (s.locals e.1)).map fun next =>
    ⟨next.1, Function.update s.locals e.1 next.2⟩

/-- An invariant of the shared state and one of every process. -/
structure Inv (shared : σ → Prop) (loc : (i : ι) → σ → τ i → Prop) (s : System σ τ) :
    Prop where
  shared : shared s.shared
  locals : ∀ i, loc i s.shared (s.locals i)

variable {act : Action σ α τ} {I : σ → Prop} {J : (i : ι) → σ → τ i → Prop}

/-- A step keeps the invariant if it keeps the part of the process that acts and
disturbs no other. -/
theorem Inv.step {s s' : System σ τ} {e : ι × α} (h : Inv I J s)
    (hstep : interleave act s e = some s')
    (hkeep : ∀ g l, act e.1 e.2 s.shared (s.locals e.1) = some (g, l) →
      (I g ∧ J e.1 g l) ∧ ∀ j, j ≠ e.1 → ∀ m, J j s.shared m → J j g m) : Inv I J s' := by
  obtain ⟨⟨g, l⟩, hact, rfl⟩ := Option.map_eq_some_iff.mp hstep
  obtain ⟨⟨hshared, hown⟩, hothers⟩ := hkeep g l hact
  refine ⟨hshared, ?_⟩
  intro j
  dsimp only
  by_cases hj : j = e.1
  · subst hj
    rw [Function.update_self]
    exact hown
  · rw [Function.update_of_ne hj]
    exact hothers j hj _ (h.locals j)

end Interleave

end PollyInstrew.Transition
