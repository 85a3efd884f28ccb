import PollyInstrew.Support.StateExcept

/-!
# Programs with a history

A program may keep a history of events next to its state.  Erasing the history
yields a program over the state alone; the rules below follow the way programs
are composed.
-/

namespace PollyInstrew.StateExcept.Prog

variable {σ τ ε : Type} {α β : Type}

/-- Add an event to the history. -/
def emit (t : τ) : Prog (σ × List τ) ε Unit := modify fun s => (s.1, s.2 ++ [t])

/-- A program that adds nothing to the history. -/
def silent (x : Prog σ ε α) : Prog (σ × List τ) ε α :=
  ⟨fun s => ((x.run s.1).1, (x.run s.1).2, s.2)⟩

/-- Without its history, `x` is `y`. -/
def Erases (x : Prog (σ × List τ) ε α) (y : Prog σ ε α) : Prop :=
  ∀ s, ((x.run s).1, (x.run s).2.1) = y.run s.1

theorem run_emit (t : τ) (s : σ × List τ) :
    (emit t : Prog (σ × List τ) ε Unit).run s = (.ok (), s.1, s.2 ++ [t]) := rfl

theorem run_silent (x : Prog σ ε α) (s : σ × List τ) :
    (silent x).run s = ((x.run s.1).1, (x.run s.1).2, s.2) := rfl

namespace Erases

theorem silent (y : Prog σ ε α) : Erases (silent y : Prog (σ × List τ) ε α) y := fun _ => rfl

theorem pure (a : α) : Erases (pure a : Prog (σ × List τ) ε α) (pure a) := fun _ => rfl

theorem fail (e : ε) : Erases (fail e : Prog (σ × List τ) ε α) (fail e) := fun _ => rfl

theorem lift (x : Except ε α) : Erases (lift x : Prog (σ × List τ) ε α) (lift x) := fun _ => rfl

theorem bind {x : Prog (σ × List τ) ε α} {y : Prog σ ε α} {f : α → Prog (σ × List τ) ε β}
    {g : α → Prog σ ε β} (hx : Erases x y) (hf : ∀ a, Erases (f a) (g a)) :
    Erases (x >>= f) (y >>= g) := by
  intro s
  have hs := hx s
  rw [run_bind, run_bind, ← hs]
  cases hrun : x.run s with
  | mk r s' =>
      cases r with
      | error e => rfl
      | ok a => exact hf a s'

theorem emit {t : τ} {f : Unit → Prog (σ × List τ) ε α} {y : Prog σ ε α}
    (h : Erases (f ()) y) : Erases (emit t >>= f) y :=
  fun s => h (s.1, s.2 ++ [t])

/-- A program that only adds to the history. -/
theorem skip {x : Prog (σ × List τ) ε Unit} {f : Unit → Prog (σ × List τ) ε α} {y : Prog σ ε α}
    (hx : Erases x (Pure.pure ())) (h : Erases (f ()) y) : Erases (x >>= f) y :=
  bind hx fun _ => h

theorem ite {p : Prop} [Decidable p] {x x' : Prog (σ × List τ) ε α} {y y' : Prog σ ε α}
    (h : Erases x y) (h' : Erases x' y') : Erases (if p then x else x') (if p then y else y') := by
  split
  · exact h
  · exact h'

theorem loopFrom {body : ℕ → Prog (σ × List τ) ε Unit} {body' : ℕ → Prog σ ε Unit}
    (h : ∀ i, Erases (body i) (body' i)) :
    ∀ count i, Erases (loopFrom body count i) (loopFrom body' count i) := by
  intro count
  induction count with
  | zero => exact fun i => pure ()
  | succ count ih => exact fun i => bind (h i) fun _ => ih (i + 1)

theorem whileFrom (cond : ℕ → σ → Bool) {body : ℕ → Prog (σ × List τ) ε Unit}
    {body' : ℕ → Prog σ ε Unit} (h : ∀ i, Erases (body i) (body' i)) :
    ∀ fuel i, Erases (whileFrom (fun i s => cond i s.1) body fuel i)
      (whileFrom cond body' fuel i) := by
  intro fuel
  induction fuel with
  | zero => exact fun i => pure ()
  | succ fuel ih =>
      intro i s
      rw [Prog.whileFrom, Prog.whileFrom, run_bind, run_bind, run_get, run_get]
      dsimp only
      by_cases hc : cond i s.1
      · rw [if_pos hc, if_pos hc]
        exact (bind (h i) fun _ => ih (i + 1)) s
      · rw [if_neg hc, if_neg hc]
        rfl

theorem untilFrom {body : ℕ → Prog (σ × List τ) ε Bool} {body' : ℕ → Prog σ ε Bool}
    (h : ∀ i, Erases (body i) (body' i)) :
    ∀ count i, Erases (untilFrom body count i) (untilFrom body' count i) := by
  intro count
  induction count with
  | zero => exact fun i => pure true
  | succ count ih => exact fun i => bind (h i) fun _ => ite (ih (i + 1)) (pure false)

/-- A successful run without its history. -/
theorem run_ok {x : Prog (σ × List τ) ε α} {y : Prog σ ε α} (h : Erases x y) {s s' : σ × List τ}
    {a : α} (hrun : x.run s = (.ok a, s')) : y.run s.1 = (.ok a, s'.1) := by
  rw [← h s, hrun]

end Erases

/-! ## Events and states -/

/-- `R new s s'` may hold when the events `new` lead from `s` to `s'`. -/
structure Log (R : List τ → σ → σ → Prop) : Prop where
  nil : ∀ s, R [] s s
  append : ∀ {new new' s t u}, R new s t → R new' t u → R (new ++ new') s u

/-- Whatever the outcome, the states before and after and the events in between are
related. -/
def Logs (R : List τ → σ → σ → Prop) (x : Prog (σ × List τ) ε α) : Prop :=
  Keeps (fun s s' => ∃ new, s'.2 = s.2 ++ new ∧ R new s.1 s'.1) x

namespace Log

variable {R : List τ → σ → σ → Prop} (h : Log R)
include h

theorem refl (s : σ × List τ) : ∃ new, s.2 = s.2 ++ new ∧ R new s.1 s.1 :=
  ⟨[], (List.append_nil _).symm, h.nil s.1⟩

theorem trans (s t u : σ × List τ) (hst : ∃ new, t.2 = s.2 ++ new ∧ R new s.1 t.1)
    (htu : ∃ new, u.2 = t.2 ++ new ∧ R new t.1 u.1) :
    ∃ new, u.2 = s.2 ++ new ∧ R new s.1 u.1 := by
  obtain ⟨new, hnew, hR⟩ := hst
  obtain ⟨new', hnew', hR'⟩ := htu
  exact ⟨new ++ new', by rw [hnew', hnew, List.append_assoc], h.append hR hR'⟩

theorem pure (a : α) : Logs R (pure a : Prog (σ × List τ) ε α) := Keeps.pure h.refl a

theorem fail (e : ε) : Logs R (fail e : Prog (σ × List τ) ε α) := Keeps.fail h.refl e

theorem lift (x : Except ε α) : Logs R (lift x : Prog (σ × List τ) ε α) := Keeps.lift h.refl x

theorem bind {x : Prog (σ × List τ) ε α} {f : α → Prog (σ × List τ) ε β} (hx : Logs R x)
    (hf : ∀ a, Logs R (f a)) : Logs R (x >>= f) :=
  Keeps.bind h.trans hx hf

/-- The rest of the program may use the value of a pure computation. -/
theorem lift_bind {x : Except ε α} {f : α → Prog (σ × List τ) ε β}
    (hf : ∀ a, x = .ok a → Logs R (f a)) : Logs R (Prog.lift x >>= f) := by
  cases x with
  | error e => exact h.fail e
  | ok a => exact hf a rfl

omit h in
theorem silent {x : Prog σ ε α} (hx : ∀ s, R [] s (x.run s).2) :
    Logs R (silent x : Prog (σ × List τ) ε α) :=
  fun s => ⟨[], (List.append_nil _).symm, hx s.1⟩

omit h in
theorem emit {t : τ} (ht : ∀ s, R [t] s s) : Logs R (emit t : Prog (σ × List τ) ε Unit) :=
  fun s => ⟨[t], rfl, ht s.1⟩

omit h in
/-- A step that is announced by its event. -/
theorem announce {t : τ} {x : Prog σ ε α} (hx : ∀ s, R [t] s (x.run s).2) :
    Logs R (Prog.emit t >>= fun _ => Prog.silent x : Prog (σ × List τ) ε α) :=
  fun s => ⟨[t], rfl, hx s.1⟩

theorem announce_bind {t : τ} {x : Prog σ ε α} {f : α → Prog (σ × List τ) ε β}
    (hx : ∀ s, R [t] s (x.run s).2) (hf : ∀ a, Logs R (f a)) :
    Logs R (Prog.emit t >>= fun _ => Prog.silent x >>= f) := by
  rw [← Prog.bind_assoc]
  exact h.bind (announce hx) hf

theorem loopFrom {body : ℕ → Prog (σ × List τ) ε Unit} (hbody : ∀ i, Logs R (body i)) :
    ∀ count i, Logs R (loopFrom body count i) :=
  Keeps.loopFrom h.refl h.trans hbody

theorem whileFrom {cond : ℕ → σ × List τ → Bool} {body : ℕ → Prog (σ × List τ) ε Unit}
    (hbody : ∀ i, Logs R (body i)) : ∀ fuel i, Logs R (whileFrom cond body fuel i) :=
  Keeps.whileFrom h.refl h.trans hbody

theorem untilFrom {body : ℕ → Prog (σ × List τ) ε Bool} (hbody : ∀ i, Logs R (body i)) :
    ∀ count i, Logs R (untilFrom body count i) :=
  Keeps.untilFrom h.refl h.trans hbody

end Log

end PollyInstrew.StateExcept.Prog
