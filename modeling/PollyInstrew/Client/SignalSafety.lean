import PollyInstrew.Client.Signals

/-!
# Pending signals and masks

Two invariants of the runs of the signal machine.  With a signal pending all
catchable signals but `SIGSEGV` and `SIGBUS` are blocked, so that no signal is
stored over another; and the mask of the host is the mask of the guest without
these two whenever nothing is pending.  Both need conditions on what happens
while a signal is pending, and fail without them.
-/

namespace PollyInstrew.Client

open PollyInstrew.Transition

/-! ## A pending signal is not overwritten -/

/-- The signal is stored while a different one is pending. -/
def Overwrites (arch : Arch) (s : SigState) : SigEvent → Prop
  | .arrive sig siCode => Stores arch s sig siCode ∧ s.sigpending ≠ 0 ∧ s.sigpending ≠ sig
  | _ => False

/-- The next access starts a host call with a mask of its own. -/
def SigPoint.beginsWait : SigPoint → Bool
  | .waitCall _ _ => true
  | _ => false

/-- While a signal is pending, `SIGSEGV` and `SIGBUS` are not sent to the client
and no call with a mask of its own begins; and nothing arrives between the guard
of `signal_sigprocmask` and the update of the host's mask. -/
def PendingOk (s : SigState) : SigEvent → Prop
  | .arrive sig siCode => s.point ≠ .maskHost ∧
      (sig = SIGSEGV ∨ sig = SIGBUS → siCode ≤ 0 → s.sigpending = 0)
  | .syscall _ => True
  | .tick => s.point.beginsWait → s.sigpending = 0

instance (arch : Arch) (s : SigState) : (e : SigEvent) → Decidable (Overwrites arch s e)
  | .arrive _ _ => inferInstanceAs (Decidable (_ ∧ _ ∧ _))
  | .syscall _ => .isFalse id
  | .tick => .isFalse id

instance (s : SigState) : (e : SigEvent) → Decidable (PendingOk s e)
  | .arrive _ _ => inferInstanceAs (Decidable (_ ∧ _))
  | .syscall _ => .isTrue trivial
  | .tick => inferInstanceAs (Decidable (_ → _))

/-- The signals that are accepted and not yet handled. -/
def SigState.pending (s : SigState) : List ℕ := if s.sigpending = 0 then [] else [s.sigpending]

/-- What is known about `sigpending` at a point. -/
def PointOk (pending : ℕ) : SigPoint → Prop
  | .maskHost => pending = 0
  | .waiting _ _ => pending = 0
  | .handle => pending ≠ 0
  | .taken sig => pending = sig ∧ sig ≠ 0
  | _ => True

/-- With a signal pending all catchable signals but two are blocked. -/
structure PendingInv (s : SigState) : Prop where
  mask : s.sigpending ≠ 0 → s.hostMask = kernelMask (hostMaskOf (~~~0))
  kill : s.hostAct SIGKILL ≠ .func
  stop : s.hostAct SIGSTOP ≠ .func
  point : PointOk s.sigpending s.point
  log : s.accepted = s.handled ++ s.pending

theorem pendingInv_signalInit : PendingInv signalInit where
  mask h := absurd rfl h
  kill := by decide
  stop := by decide
  point := trivial
  log := rfl

/-- The handler leaves two catchable signals unblocked. -/
theorem not_hostBlocked_handler :
    ∀ sig, sig ≤ 64 → sig ≠ 0 → hostBlocked (kernelMask (hostMaskOf (~~~0))) sig = false →
      sig = SIGSEGV ∨ sig = SIGBUS ∨ sig = SIGKILL ∨ sig = SIGSTOP := by
  decide

section Pending

variable {arch : Arch} {s s' : SigState}

theorem PendingInv.goto (h : PendingInv s) {point : SigPoint}
    (hpoint : PointOk s.sigpending point) : PendingInv (s.goto point) :=
  { h with point := hpoint }

theorem PendingInv.interrupted (h : PendingInv s) : PendingInv (interrupted s) := by
  obtain heq | ⟨saved, poll, hpoint, heq⟩ := interrupted_eq s
  · rwa [heq]
  · have hzero : s.sigpending = 0 := by
      have := h.point
      rwa [hpoint] at this
    rw [heq]
    exact { h with
      mask := fun hne => absurd hzero hne
      point := trivial }

/-- A signal is stored only when none is pending. -/
theorem PendingInv.sigpending_eq_zero (h : PendingInv s) {sig : ℕ} {siCode : ℤ}
    (hok : PendingOk s (.arrive sig siCode)) (hstores : Stores arch s sig siCode) :
    s.sigpending = 0 := by
  obtain ⟨⟨-, hpos, hle, hblocked⟩, hact, hasync, -⟩ := hstores
  by_contra hne
  rw [h.mask hne] at hblocked
  rcases not_hostBlocked_handler sig hle hpos hblocked with rfl | rfl | rfl | rfl
  · exact hne (hok.2 (.inl rfl) (Int.not_lt.mp fun hlt => hasync ⟨.inl rfl, hlt⟩))
  · exact hne (hok.2 (.inr rfl) (Int.not_lt.mp fun hlt => hasync ⟨.inr rfl, hlt⟩))
  · exact h.kill hact
  · exact h.stop hact

theorem PointOk.of_zero {point : SigPoint} (h : PointOk 0 point) (hhost : point ≠ .maskHost)
    (hwait : ∀ saved poll, point ≠ .waiting saved poll) (pending : ℕ) :
    PointOk pending point := by
  cases point with
  | maskHost => exact absurd rfl hhost
  | waiting saved poll => exact absurd rfl (hwait saved poll)
  | handle => exact absurd rfl h
  | taken sig => exact absurd h.1.symm h.2
  | _ => trivial

theorem PendingInv.noteSignal {sig : ℕ} (h : PendingInv s) (hzero : s.sigpending = 0)
    (hhost : s.point ≠ .maskHost) (hwait : ∀ saved poll, s.point ≠ .waiting saved poll)
    (hne : sig ≠ 0) : PendingInv (noteSignal s sig) where
  mask _ := rfl
  kill := h.kill
  stop := h.stop
  point := (hzero ▸ h.point).of_zero hhost hwait sig
  log := by
    have hlog := h.log
    rw [SigState.pending, if_pos hzero, List.append_nil] at hlog
    rw [SigState.pending, Client.noteSignal, if_neg hne, hlog]

theorem PendingInv.arrive (h : PendingInv s) {sig : ℕ} {siCode : ℤ}
    (hok : PendingOk s (.arrive sig siCode)) (hstep : arrive arch s sig siCode = some s') :
    PendingInv s' := by
  rcases arrive_cases hstep with rfl | ⟨t, rfl, rfl | rfl⟩ | rfl | ⟨hstores, rfl⟩
  · exact h
  · exact h.goto trivial
  · exact h.interrupted.goto trivial
  · exact h.interrupted
  · have hzero := h.sigpending_eq_zero hok hstores
    have hne : sig ≠ 0 := hstores.1.2.1
    have hint := h.interrupted
    obtain heq | ⟨saved, poll, hpoint, heq⟩ := interrupted_eq s
    · rw [heq] at hint ⊢
      refine hint.noteSignal hzero hok.1 ?_ hne
      intro saved poll hpoint
      rw [Client.interrupted, hpoint] at heq
      exact absurd (congrArg SigState.point heq) (by rw [hpoint]; simp)
    · rw [heq] at hint ⊢
      exact hint.noteSignal hzero (by simp) (by simp) hne

theorem PendingInv.syscall (h : PendingInv s) (call : SigCall) :
    PendingInv (emulateSyscall s call) := by
  have hentered := entered_emulateSyscall s call
  generalize emulateSyscall s call = t at hentered
  cases hentered with
  | done | abort | wait | loop => exact h.goto trivial
  | mask set | stack sp => exact { h with point := trivial }
  | act hcall hpos hpoint =>
      refine { h with point := ?_ }
      rcases hpoint with rfl | rfl <;> trivial

theorem PendingInv.tick (h : PendingInv s) (hok : PendingOk s .tick)
    (hstep : tick arch s = some s') : PendingInv s' := by
  have hat := h.point
  cases ticked_of_tick hstep with
  | uncatchable | loopEnd | guardPending | finish | ignore | abort | ended =>
      exact h.goto trivial
  | loop | trim => exact { h with point := trivial }
  | guardFree hpoint hzero => exact h.goto hzero
  | handle hpoint hne => exact h.goto hne
  | @act sig handler hpoint hkill hstop =>
      have hother : ∀ {t}, sig ≠ t → Function.update s.hostAct sig handler t = s.hostAct t :=
        fun hne => Function.update_of_ne (Ne.symm hne) _ _
      exact { h with
        kill := fun hfunc => h.kill ((hother hkill).symm.trans hfunc)
        stop := fun hfunc => h.stop ((hother hstop).symm.trans hfunc)
        point := trivial }
  | maskHost hpoint =>
      rw [hpoint] at hat
      exact { h with
        mask := fun hne => absurd hat hne
        point := trivial }
  | @wait set poll hpoint =>
      have hzero : s.sigpending = 0 := hok (by rw [hpoint]; rfl)
      exact { h with
        mask := fun hne => absurd hzero hne
        point := hzero }
  | waitEnd hpoint =>
      rw [hpoint] at hat
      exact { h with
        mask := fun hne => absurd hat hne
        point := trivial }
  | read hpoint =>
      rw [hpoint] at hat
      exact h.goto ⟨rfl, hat⟩
  | clear hpoint =>
      rw [hpoint] at hat
      have hlog := h.log
      rw [SigState.pending, hat.1, if_neg hat.2] at hlog
      exact { h with
        mask := fun hne => absurd rfl hne
        point := trivial
        log := by simpa [SigState.pending] using hlog }

theorem PendingInv.step (h : PendingInv s) {e : SigEvent} (hok : PendingOk s e)
    (hstep : sigStep arch s e = some s') : PendingInv s' := by
  cases e with
  | arrive sig siCode => exact h.arrive hok hstep
  | syscall call =>
      rw [sigStep] at hstep
      split at hstep
      · obtain rfl := Option.some.inj hstep
        exact h.syscall call
      · exact absurd hstep (by simp)
  | tick => exact h.tick hok hstep

end Pending

/-- **A pending signal is handled exactly once.**  In a run whose steps all meet
the condition, `signal_handler` stores into `sigpending` only when nothing is
pending, and what it has stored is what `signal_handle` has taken, in this order,
followed by the signal that is pending. -/
theorem pending_not_overwritten (arch : Arch) {events : List SigEvent} {s : SigState}
    (hok : Guarded (sigStep arch) PendingOk signalInit events)
    (hrun : run (sigStep arch) signalInit events = some s) :
    (∀ e, PendingOk s e → ¬Overwrites arch s e) ∧ s.accepted = s.handled ++ s.pending := by
  have hinv : PendingInv s :=
    run_invariant (fun e _ s s' h hok hstep => h.step hok hstep) pendingInv_signalInit hok hrun
  refine ⟨?_, hinv.log⟩
  intro e he hover
  cases e with
  | arrive sig siCode => exact hover.2.1 (hinv.sigpending_eq_zero he hover.1)
  | syscall call => exact hover
  | tick => exact hover

/-- The guest installs handlers for `SIGUSR1` and `SIGUSR2`. -/
def usrHandlers : List SigEvent :=
  [.syscall (.rtSigaction 8 10 (some .func)), .tick, .tick,
    .syscall (.rtSigaction 8 12 (some .func)), .tick, .tick]

theorem pending_not_overwritten_usr1 :
    Guarded (sigStep .x86_64) PendingOk signalInit (usrHandlers ++ [.arrive 10 0]) ∧
      ∃ s, run (sigStep .x86_64) signalInit (usrHandlers ++ [.arrive 10 0]) = some s ∧
        s.sigpending = 10 ∧ (∀ e, PendingOk s e → ¬Overwrites .x86_64 s e) ∧
        s.accepted = s.handled ++ s.pending := by
  have hok : Guarded (sigStep .x86_64) PendingOk signalInit (usrHandlers ++ [.arrive 10 0]) := by
    decide
  exact ⟨hok, _, rfl, rfl, pending_not_overwritten .x86_64 hok rfl⟩

/-- A pending `SIGUSR1` is overwritten by a `SIGSEGV` that another process
sends, by a signal that `rt_sigsuspend` lets through, and by one that arrives
after the host's mask was set although a signal had become pending. -/
theorem pending_overwritten :
    (∃ s, run (sigStep .x86_64) signalInit (usrHandlers ++ [.arrive 10 0]) = some s ∧
      Overwrites .x86_64 s (.arrive SIGSEGV 0)) ∧
    (∃ s, run (sigStep .x86_64) signalInit (usrHandlers ++
        [.arrive 10 0, .syscall (.rtSigsuspend 8 0), .tick]) = some s ∧
      Overwrites .x86_64 s (.arrive 12 0)) ∧
    ∃ s, run (sigStep .x86_64) signalInit (usrHandlers ++
        [.syscall (.rtSigprocmask 8 2 (some ⟨0, 0⟩)), .tick, .tick, .arrive 10 0, .tick]) =
          some s ∧
      Overwrites .x86_64 s (.arrive 12 0) :=
  ⟨⟨_, rfl, by decide⟩, ⟨_, rfl, by decide⟩, ⟨_, rfl, by decide⟩⟩

/-! ## The host's mask follows the guest's -/

/-- No signal is accepted that the guest ignores, and none that is pending
becomes ignored. -/
def NotIgnored (arch : Arch) (s : SigState) : SigEvent → Prop
  | .arrive sig siCode => Stores arch s sig siCode → s.sigact sig ≠ .ign
  | .syscall (.rtSigaction _ sig (some .ign)) => (s.sigpending : ℤ) ≠ sig
  | .syscall _ => True
  | .tick => True

instance (arch : Arch) (s : SigState) : (e : SigEvent) → Decidable (NotIgnored arch s e)
  | .arrive _ _ => inferInstanceAs (Decidable (_ → _))
  | .syscall (.rtSigaction _ _ (some .ign)) => inferInstanceAs (Decidable (_ ≠ _))
  | .syscall (.rtSigaction _ _ none) | .syscall (.rtSigaction _ _ (some .dfl))
  | .syscall (.rtSigaction _ _ (some .func)) | .syscall (.rtSigprocmask _ _ _)
  | .syscall .rtSigreturn | .syscall (.rtSigsuspend _ _) | .syscall (.pollMask _)
  | .syscall (.sigaltstack _) | .syscall .other | .tick => .isTrue trivial

/-- What is known about the masks at a point. -/
def MaskOk (s : SigState) : SigPoint → Prop
  | .maskLoop _ _ _ => True
  | .maskTrim => True
  | .maskGuard => kernelMask s.sigmask.set = s.sigmask.set
  | .maskHost => kernelMask s.sigmask.set = s.sigmask.set
  | .waiting saved _ => kernelMask s.sigmask.set = s.sigmask.set ∧
      (s.sigpending = 0 → saved = hostMaskOf s.sigmask.set)
  | .handle => s.sigpending ≠ 0
  | .taken sig => s.sigact sig ≠ .ign
  | .acting sig => s.sigact sig ≠ .ign
  | .aborting _ => True
  | .ended => True
  | .guest | .actHost _ _ | .waitCall _ _ | .done =>
      kernelMask s.sigmask.set = s.sigmask.set ∧
        (s.sigpending = 0 → s.hostMask = hostMaskOf s.sigmask.set)

structure MaskInv (s : SigState) : Prop where
  act : s.sigpending ≠ 0 → s.sigact s.sigpending ≠ .ign
  point : MaskOk s s.point

theorem maskInv_signalInit : MaskInv signalInit where
  act h := absurd rfl h
  point := ⟨by decide, fun _ => by decide⟩

theorem kernelMask_hostMaskOf (mask : Word) :
    kernelMask (hostMaskOf mask) = hostMaskOf (kernelMask mask) := by
  ext i hi
  simp only [kernelMask, hostMaskOf, BitVec.getElem_and]
  grind

theorem set_sigdelset_trim (arch : Arch) (s : SigWords) :
    (sigdelset arch (sigdelset arch s SIGKILL) SIGSTOP).set = kernelMask s.set := by
  cases arch <;> rfl

theorem kernelMask_kernelMask (mask : Word) : kernelMask (kernelMask mask) = kernelMask mask := by
  ext i hi
  simp only [kernelMask, BitVec.getElem_and]
  grind

section Mask

variable {arch : Arch} {s s' : SigState}

theorem MaskInv.goto (h : MaskInv s) {point : SigPoint} (hpoint : MaskOk s point) :
    MaskInv (s.goto point) := by
  refine ⟨h.act, ?_⟩
  cases point <;> exact hpoint

theorem MaskInv.interrupted (h : MaskInv s) : MaskInv (interrupted s) := by
  obtain heq | ⟨saved, poll, hpoint, heq⟩ := interrupted_eq s
  · rwa [heq]
  · have hat := h.point
    rw [hpoint] at hat
    rw [heq]
    exact ⟨h.act, hat⟩

/-- Only the notes of a pending signal change what is known. -/
theorem MaskInv.noteSignal (h : MaskInv s) {sig : ℕ} (hact : s.sigact sig ≠ .ign)
    (hne : sig ≠ 0) : MaskInv (noteSignal s sig) := by
  refine ⟨fun _ => hact, ?_⟩
  have hat := h.point
  rw [Client.noteSignal]
  cases hpoint : s.point <;> rw [hpoint] at hat
  case handle => exact hne
  case guest | actHost | waitCall | done | waiting =>
    exact ⟨hat.1, fun hzero => absurd hzero hne⟩
  all_goals exact hat

theorem MaskInv.arrive (h : MaskInv s) {sig : ℕ} {siCode : ℤ}
    (hok : NotIgnored arch s (.arrive sig siCode))
    (hstep : arrive arch s sig siCode = some s') : MaskInv s' := by
  rcases arrive_cases hstep with rfl | ⟨t, rfl, rfl | rfl⟩ | rfl | ⟨hstores, rfl⟩
  · exact h
  · exact h.goto trivial
  · exact h.interrupted.goto trivial
  · exact h.interrupted
  · refine h.interrupted.noteSignal ?_ hstores.1.2.1
    have hact := hok hstores
    obtain heq | ⟨_, _, _, heq⟩ := interrupted_eq s <;> rwa [heq]

theorem MaskInv.syscall (h : MaskInv s) (hguest : s.point = .guest) {call : SigCall}
    (hok : NotIgnored arch s (.syscall call)) : MaskInv (emulateSyscall s call) := by
  have hat := h.point
  rw [hguest] at hat
  have hentered := entered_emulateSyscall s call
  generalize emulateSyscall s call = t at hentered
  cases hentered with
  | done | wait => exact h.goto hat
  | abort | loop => exact h.goto trivial
  | mask set => exact ⟨h.act, trivial⟩
  | stack sp => exact ⟨h.act, hat⟩
  | @act size sig handler point hcall hpos hpoint =>
      refine ⟨?_, ?_⟩
      · intro hne
        by_cases hsig : s.sigpending = sig.toNat
        · dsimp only at hne ⊢
          rw [hsig, Function.update_self]
          rintro rfl
          subst hcall
          exact hok (by omega)
        · dsimp only at hne ⊢
          rw [Function.update_of_ne hsig]
          exact h.act hne
      · rcases hpoint with rfl | rfl <;> exact hat

theorem MaskInv.tick (h : MaskInv s) (hstep : tick arch s = some s') : MaskInv s' := by
  have hat := h.point
  cases ticked_of_tick hstep with
  | uncatchable hpoint =>
      rw [hpoint] at hat
      exact h.goto hat
  | act hpoint | wait hpoint =>
      rw [hpoint] at hat
      exact ⟨h.act, hat⟩
  | loop => exact ⟨h.act, trivial⟩
  | loopEnd | ended | abort => exact h.goto trivial
  | trim hpoint =>
      refine ⟨h.act, ?_⟩
      change kernelMask (sigdelset arch (sigdelset arch s.sigmask SIGKILL) SIGSTOP).set = _
      rw [set_sigdelset_trim, kernelMask_kernelMask]
  | guardFree hpoint hzero =>
      rw [hpoint] at hat
      exact h.goto hat
  | guardPending hpoint hne =>
      rw [hpoint] at hat
      exact h.goto ⟨hat, fun hzero => absurd hzero hne⟩
  | maskHost hpoint =>
      rw [hpoint] at hat
      refine ⟨h.act, hat, fun _ => ?_⟩
      dsimp only
      rw [kernelMask_hostMaskOf, hat]
  | waitEnd hpoint =>
      rw [hpoint] at hat
      exact ⟨h.act, hat⟩
  | finish hpoint hzero =>
      rw [hpoint] at hat
      exact h.goto hat
  | handle hpoint hne => exact h.goto hne
  | read hpoint =>
      rw [hpoint] at hat
      exact h.goto (h.act hat)
  | clear hpoint =>
      rw [hpoint] at hat
      exact ⟨fun hne => absurd rfl hne, hat⟩
  | ignore hpoint hign =>
      rw [hpoint] at hat
      exact absurd hign hat

theorem MaskInv.step (h : MaskInv s) {e : SigEvent} (hok : NotIgnored arch s e)
    (hstep : sigStep arch s e = some s') : MaskInv s' := by
  cases e with
  | arrive sig siCode => exact h.arrive hok hstep
  | syscall call =>
      rw [sigStep] at hstep
      split at hstep
      · obtain rfl := Option.some.inj hstep
        exact h.syscall ‹_› hok
      · exact absurd hstep (by simp)
  | tick => exact h.tick hstep

end Mask

/-- **The host's mask follows the guest's.**  In a run that accepts no ignored
signal, whenever the client is outside of a system call and no signal is pending,
the host's mask is the guest's without `SIGSEGV` and `SIGBUS`. -/
theorem hostMask_eq_hostMaskOf (arch : Arch) {events : List SigEvent} {s : SigState}
    (hok : Guarded (sigStep arch) (NotIgnored arch) signalInit events)
    (hrun : run (sigStep arch) signalInit events = some s) (hguest : s.point = .guest)
    (hzero : s.sigpending = 0) : s.hostMask = hostMaskOf s.sigmask.set := by
  have hinv : MaskInv s :=
    run_invariant (fun e _ s s' h hok hstep => h.step hok hstep) maskInv_signalInit hok hrun
  have hat := hinv.point
  rw [hguest] at hat
  exact hat.2 hzero

/-- The guest sets its mask to `SIGUSR1` and `SIGSEGV`. -/
def usr1Blocked : List SigEvent :=
  [.syscall (.rtSigprocmask 8 2 (some ⟨0x600, 0⟩)), .tick, .tick, .tick, .tick]

theorem hostMask_eq_hostMaskOf_usr1 :
    ∃ s, run (sigStep .x86_64) signalInit usr1Blocked = some s ∧ s.point = .guest ∧
      s.sigpending = 0 ∧ s.hostMask = 0x200 ∧ s.hostMask = hostMaskOf s.sigmask.set := by
  have hok : Guarded (sigStep .x86_64) (NotIgnored .x86_64) signalInit usr1Blocked := by
    decide
  exact ⟨_, rfl, rfl, rfl, by decide, hostMask_eq_hostMaskOf .x86_64 hok rfl rfl rfl⟩

/-- A signal that becomes ignored while it is pending leaves everything blocked
on the host, with an empty mask of the guest. -/
theorem hostMask_ne_hostMaskOf :
    ∃ s, run (sigStep .x86_64) signalInit (usrHandlers ++
        [.arrive 10 0, .syscall (.rtSigaction 8 10 (some .ign)), .tick, .tick, .tick, .tick,
          .tick]) = some s ∧
      s.point = .guest ∧ s.sigpending = 0 ∧ s.sigmask.set = 0 ∧
      s.hostMask ≠ hostMaskOf s.sigmask.set :=
  ⟨_, rfl, rfl, rfl, rfl, by decide⟩

end PollyInstrew.Client
