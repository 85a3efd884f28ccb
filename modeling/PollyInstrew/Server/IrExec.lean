import PollyInstrew.Server.Ir

/-!
# Executions of functions in SSA form

The machine before every instruction of a block, the path an execution has
taken, and the frame facts SSA form gives: a result keeps its value until its
instruction is executed again.
-/

namespace PollyInstrew.Server

open PollyInstrew.Dominance

section Exec

variable {α : Type} {f : Func} {d : Driver α} {mem : ℕ → Option α} {st st' : ExecState α}
  {n k : ℕ}

/-- The instruction at a place: a block and an index into its body. -/
def Func.at (f : Func) (u : ℕ × ℕ) : Option Instr := (f.block u.1).body[u.2]?

/-- The machine before the `k`-th instruction of the current block. -/
def Func.machineAt (f : Func) (d : Driver α) (st : ExecState α) (k : ℕ) : Machine α :=
  execBody d st.machine ((f.block st.block).body.take k)

theorem machineAt_succ {i : Instr} (h : f.at (st.block, k) = some i) :
    f.machineAt d st (k + 1) = i.exec d (f.machineAt d st k) := by
  have hget : (f.block st.block).body[k]? = some i := h
  rw [Func.machineAt, List.take_add_one, hget, Option.toList_some, execBody, List.foldl_append]
  rfl

theorem machineAt_length :
    f.machineAt d st (f.block st.block).body.length =
      execBody d st.machine (f.block st.block).body := by
  rw [Func.machineAt, List.take_length]

theorem env_finish :
    (f.finish d st).env = (f.machineAt d st (f.block st.block).body.length).env := by
  rw [machineAt_length]
  rfl

theorem mem_finish :
    (f.finish d st).mem = (f.machineAt d st (f.block st.block).body.length).mem := by
  rw [machineAt_length]
  rfl

theorem exists_at (h : k < (f.block st.block).body.length) :
    ∃ i, f.at (st.block, k) = some i :=
  ⟨_, List.getElem?_eq_getElem h⟩

theorem lt_length_of_at {u : ℕ × ℕ} {i : Instr} (h : f.at u = some i) :
    u.2 < (f.block u.1).body.length := by
  by_contra hle
  rw [Func.at, List.getElem?_eq_none (Nat.le_of_not_lt hle)] at h
  exact absurd h (by simp)

/-! ## Paths -/

theorem next_eq_some (h : f.next d st = some st') :
    st'.past = st.block :: st.past ∧ f.cfg.succ st.block st'.block ∧
      st'.machine = enter d (f.block st'.block).phis st.block (f.finish d st) := by
  rw [Func.next] at h
  split at h
  · exact absurd h (by simp)
  · rename_i c hc
    obtain rfl := Option.some.inj h
    exact ⟨rfl, List.mem_of_getElem? hc, rfl⟩

theorem run_succ (h : f.run d mem (n + 1) = some st') :
    ∃ st, f.run d mem n = some st ∧ f.next d st = some st' :=
  Option.bind_eq_some_iff.mp h

theorem run_path (h : f.run d mem n = some st) : f.cfg.Path st.path := by
  induction n generalizing st with
  | zero =>
      obtain rfl := Option.some.inj h
      exact .entry
  | succ n ih =>
      obtain ⟨st₀, hrun, hnext⟩ := run_succ h
      obtain ⟨hpast, hsucc, -⟩ := next_eq_some hnext
      rw [ExecState.path, hpast]
      exact (ih hrun).step hsucc

theorem run_reachable (h : f.run d mem n = some st) : f.cfg.Reachable st.block :=
  ⟨st.past, run_path h⟩

/-- Every path is taken by some execution. -/
theorem exists_run {π : List ℕ} (hpath : f.cfg.Path π) :
    ∃ edge : ℕ → ℕ, ∀ (d : Driver α) (mem : ℕ → Option α),
      (∀ i, i + 1 < π.length → d.edge i = edge i) →
      ∃ st, f.run d mem (π.length - 1) = some st ∧ st.path = π := by
  induction hpath with
  | entry => exact ⟨fun _ => 0, fun d mem _ => ⟨Func.start mem, rfl, rfl⟩⟩
  | @step b c π hpath hs ih =>
      obtain ⟨edge, hedge⟩ := ih
      obtain ⟨j, hj⟩ := List.getElem?_of_mem (hs : c ∈ (f.block b).succs)
      refine ⟨Function.update edge π.length j, ?_⟩
      intro d mem hd
      obtain ⟨st, hrun, hst⟩ := hedge d mem (by
        intro i hi
        rw [List.length_cons] at hi
        rw [hd i (by simp only [List.length_cons]; omega), Function.update_of_ne (by omega)])
      obtain ⟨rfl, rfl⟩ : st.block = b ∧ st.past = π := by
        simpa [ExecState.path] using hst
      have hedge_last : d.edge st.past.length = j := by
        rw [hd _ (by simp), Function.update_self]
      have hnext : f.next d st = some
          { block := c
            past := st.block :: st.past
            machine := enter d (f.block c).phis st.block (f.finish d st) } := by
        rw [Func.next, hedge_last, hj]
      refine ⟨_, Option.bind_eq_some_iff.mpr ⟨st, ?_, hnext⟩, rfl⟩
      simpa using hrun

/-! ## Frames -/

theorem defines_at {u : ℕ × ℕ} {i : Instr} {x : Name} (h : f.at u = some i)
    (hx : i.result = some x) : f.Defines x (u.1, u.2 + 1) :=
  .body h hx

theorem Func.Available.mono {v : Operand} {p q : ℕ × ℕ} (h : f.Available v p)
    (hpq : f.cfg.Before p q) (hq : f.cfg.Reachable q.1) : f.Available v q := by
  intro x hx
  obtain ⟨r, hr, hrp⟩ := h x hx
  exact ⟨r, hr, hrp.trans hpq hq⟩

theorem Instr.env_exec {i : Instr} {x : Name} {s : Machine α} (h : i.result ≠ some x) :
    (i.exec d s).env x = s.env x := by
  cases i with
  | store value gep => rfl
  | load id gep | other id operands =>
      have hne : x ≠ .inst id := fun heq => h (by rw [heq]; rfl)
      simp only [Instr.exec, Function.update_of_ne hne]

theorem Instr.mem_exec {i : Instr} {gep : ℕ} {s : Machine α}
    (h : ∀ value, i ≠ .store value gep) : (i.exec d s).mem gep = s.mem gep := by
  cases i with
  | store value gep' =>
      have hne : gep ≠ gep' := fun heq => h value (by rw [heq])
      simp only [Instr.exec, Function.update_of_ne hne]
  | load id gep' | other id operands => rfl

theorem Operand.eval_congr {v : Operand} {env env' : Env α}
    (h : ∀ x, v = .name x → env' x = env x) : v.eval d env' = v.eval d env := by
  cases v with
  | name x => exact h x rfl
  | global c => rfl
  | undef => rfl
  | poison => rfl

/-- An operand that was defined before an instruction of the block keeps its
value to the end of the block. -/
theorem eval_machineAt (hssa : f.Ssa) {v : Operand} {j : ℕ}
    (hv : f.Available v (st.block, j + 1)) (hjk : j ≤ k) (hk : k ≤ (f.block st.block).body.length) :
    v.eval d (f.machineAt d st k).env = v.eval d (f.machineAt d st j).env := by
  induction k with
  | zero =>
      obtain rfl : j = 0 := by omega
      rfl
  | succ k ih =>
      by_cases hlast : j = k + 1
      · rw [hlast]
      · rw [← ih (by omega) (by omega)]
        have hlt : k < (f.block st.block).body.length := by omega
        obtain ⟨i, hi⟩ := exists_at hlt
        rw [machineAt_succ hi]
        apply Operand.eval_congr
        intro x hx
        apply Instr.env_exec
        intro hres
        obtain ⟨p, hp, hbefore⟩ := hv x hx
        rw [hssa.unique x p _ hp (defines_at hi hres)] at hbefore
        rcases hbefore with hbefore | ⟨-, hlt⟩
        · exact hbefore.2 rfl
        · dsimp only at hlt
          omega

theorem env_enter_of_not_phi {phis : List PhiNode} {pred : ℕ} {s : Machine α} {x : Name}
    (h : ∀ p ∈ phis, p.name ≠ x) : (enter d phis pred s).env x = s.env x := by
  have hnone : phis.find? (fun p => decide (p.name = x)) = none := by
    rw [List.find?_eq_none]
    intro p hp
    simpa using h p hp
  simp only [enter, hnone]

end Exec

end PollyInstrew.Server
