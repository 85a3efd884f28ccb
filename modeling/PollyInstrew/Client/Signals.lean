import PollyInstrew.Client.State

/-!
# Guest signals

The host delivers a signal that is not in its mask to `signal_handler`, at any
point of the client.  The handler notes the signal in `sigpending` and has
everything but `SIGSEGV` and `SIGBUS` blocked from then on; `signal_handle`
takes the note at the end of an emulated system call.  The model steps through
the system calls that touch signals access by access, so that signals can arrive
between any two of them.
-/

namespace PollyInstrew.Client

open PollyInstrew.Transition

/-! ## Signal sets -/

def SIGBUS : ℕ := 7
def SIGKILL : ℕ := 9
def SIGSEGV : ℕ := 11
def SIGSTOP : ℕ := 19

/-- A `sigset_t` and the word that follows it in memory. -/
structure SigWords where
  set : Word
  next : Word
  deriving DecidableEq

/-- `sigsetptr` goes beyond the set: on AArch64 it divides the signal number,
not the number of its bit. -/
def beyondSet (arch : Arch) (signum : ℕ) : Bool :=
  arch = .aarch64 && signum / 8 / 8 ≠ 0

def sigsetmsk (signum : ℕ) : Word := 1#64 <<< ((signum - 1) % 64)

def sigismember (arch : Arch) (s : SigWords) (signum : ℕ) : Bool :=
  (if beyondSet arch signum then s.next else s.set) &&& sigsetmsk signum ≠ 0

def sigaddset (arch : Arch) (s : SigWords) (signum : ℕ) : SigWords :=
  if beyondSet arch signum then
    { s with next := s.next ||| sigsetmsk signum }
  else
    { s with set := s.set ||| sigsetmsk signum }

def sigdelset (arch : Arch) (s : SigWords) (signum : ℕ) : SigWords :=
  if beyondSet arch signum then
    { s with next := s.next &&& ~~~sigsetmsk signum }
  else
    { s with set := s.set &&& ~~~sigsetmsk signum }

/-- A mask without `SIGSEGV` and `SIGBUS`. -/
def hostMaskOf (mask : Word) : Word := mask &&& ~~~sigsetmsk SIGSEGV &&& ~~~sigsetmsk SIGBUS

/-- The mask the kernel installs for a requested one. -/
def kernelMask (mask : Word) : Word := mask &&& ~~~sigsetmsk SIGKILL &&& ~~~sigsetmsk SIGSTOP

/-- The kernel holds a signal back. -/
def hostBlocked (mask : Word) (sig : ℕ) : Bool := mask.getLsbD (sig - 1)

/-! ## The client -/

/-- What a signal is set to: `SIG_DFL`, `SIG_IGN` or a function; a function of
the host is always `signal_handler`. -/
inductive SigHandler where
  | dfl
  | ign
  | func
  deriving DecidableEq

/-- Where the client is. -/
inductive SigPoint where
  /-- translated code, or a system call that does not touch signals -/
  | guest
  /-- `signal_sigaction` before it calls the host -/
  | actHost (sig : ℕ) (handler : SigHandler)
  /-- `signal_sigprocmask` before iteration `i` of a loop that adds or removes -/
  | maskLoop (add : Bool) (set : SigWords) (i : ℕ)
  /-- before it removes `SIGKILL` and `SIGSTOP` -/
  | maskTrim
  /-- before it tests `sigpending` -/
  | maskGuard
  /-- before it sets the mask of the host -/
  | maskHost
  /-- before a host call that waits with a mask of its own -/
  | waitCall (set : Word) (poll : Bool)
  /-- in such a call, which returns only after a signal if `poll` is false -/
  | waiting (saved : Word) (poll : Bool)
  /-- the end of the system call, before the test of `sigpending` -/
  | done
  /-- `signal_handle` before it reads `sigpending` -/
  | handle
  /-- before it clears `sigpending` -/
  | taken (sig : ℕ)
  /-- before it acts on the signal -/
  | acting (sig : ℕ)
  /-- `abort_with_signal` -/
  | aborting (sig : ℕ)
  /-- terminated, or in the last `sigsuspend` for ever -/
  | ended
  deriving DecidableEq

/-- The signal state of the client and of the host.  `accepted` and `handled`
record what `signal_handler` has stored and `signal_handle` has taken. -/
structure SigState where
  sigpending : ℕ
  sigmask : SigWords
  sigact : ℕ → SigHandler
  hostMask : Word
  hostAct : ℕ → SigHandler
  point : SigPoint
  accepted : List ℕ
  handled : List ℕ

/-- The state after `signal_init`. -/
def signalInit : SigState where
  sigpending := 0
  sigmask := ⟨0, 0⟩
  sigact := fun _ => .dfl
  hostMask := 0
  hostAct := fun sig => if sig = SIGSEGV ∨ sig = SIGBUS then .func else .dfl
  point := .guest
  accepted := []
  handled := []

/-- The system calls that touch signals; a null pointer is `none`. -/
inductive SigCall where
  | rtSigaction (size : Word) (sig : ℤ) (nact : Option SigHandler)
  | rtSigprocmask (size : Word) (how : ℤ) (set : Option SigWords)
  | rtSigreturn
  | rtSigsuspend (size : Word) (set : Word)
  /-- `ppoll` and `pselect6` with a mask -/
  | pollMask (set : Word)
  | sigaltstack (ss : Option Word)
  | other
  deriving DecidableEq

def SigState.goto (s : SigState) (point : SigPoint) : SigState := { s with point := point }

def signalSigaction (s : SigState) (sig : ℤ) (nact : Option SigHandler) : SigState :=
  if sig ≤ 0 ∨ 64 < sig then
    s.goto .done
  else
    match nact with
    | none => s.goto .done
    | some handler =>
        let s := { s with sigact := Function.update s.sigact sig.toNat handler }
        if sig = SIGSEGV ∨ sig = SIGBUS then
          s.goto .done
        else
          s.goto (.actHost sig.toNat handler)

def signalSigprocmask (s : SigState) (how : ℤ) (set : Option SigWords) : SigState :=
  match set with
  | none => s.goto .done
  | some set =>
      if how = 0 then
        s.goto (.maskLoop true set 1)
      else if how = 1 then
        s.goto (.maskLoop false set 1)
      else if how = 2 then
        { s with
          sigmask := { s.sigmask with set := set.set }
          point := .maskTrim }
      else
        s.goto .done

/-- The beginning of `emulate_syscall`. -/
def emulateSyscall (s : SigState) : SigCall → SigState
  | .rtSigaction size sig nact =>
      if size ≠ 8 then s.goto .done else signalSigaction s sig nact
  | .rtSigprocmask size how set =>
      if size ≠ 8 then s.goto .done else signalSigprocmask s how set
  | .rtSigreturn => s.goto (.aborting 6)
  | .rtSigsuspend size set =>
      if size ≠ 8 then s.goto .done else s.goto (.waitCall set false)
  | .pollMask set => s.goto (.waitCall set true)
  | .sigaltstack none => s.goto .done
  | .sigaltstack (some sp) =>
      { s with
        sigmask := { s.sigmask with next := sp }
        point := .done }
  | .other => s.goto .done

/-- The next access of the client. -/
def tick (arch : Arch) (s : SigState) : Option SigState :=
  match s.point with
  | .guest => none
  | .actHost sig handler =>
      if sig = SIGKILL ∨ sig = SIGSTOP then
        some (s.goto .done)
      else
        some { s with
          hostAct := Function.update s.hostAct sig handler
          point := .done }
  | .maskLoop add set i =>
      if i ≤ 64 then
        some { s with
          sigmask :=
            if sigismember arch set i then
              if add then sigaddset arch s.sigmask i else sigdelset arch s.sigmask i
            else
              s.sigmask
          point := .maskLoop add set (i + 1) }
      else
        some (s.goto .maskTrim)
  | .maskTrim =>
      some { s with
        sigmask := sigdelset arch (sigdelset arch s.sigmask SIGKILL) SIGSTOP
        point := .maskGuard }
  | .maskGuard => some (s.goto (if s.sigpending = 0 then .maskHost else .done))
  | .maskHost =>
      some { s with
        hostMask := kernelMask (hostMaskOf s.sigmask.set)
        point := .done }
  | .waitCall set poll =>
      some { s with
        hostMask := kernelMask set
        point := .waiting s.hostMask poll }
  | .waiting saved poll =>
      if poll then
        some { s with
          hostMask := saved
          point := .done }
      else
        none
  | .done => some (s.goto (if s.sigpending ≠ 0 then .handle else .guest))
  | .handle => some (s.goto (.taken s.sigpending))
  | .taken sig =>
      some { s with
        sigpending := 0
        handled := s.handled ++ [sig]
        point := .acting sig }
  | .acting sig =>
      match s.sigact sig with
      | .ign => some (s.goto .guest)
      | .dfl | .func => some (s.goto (.aborting sig))
  | .aborting _ => some (s.goto .ended)
  | .ended => none

/-! ## Arrival of signals -/

/-- A call that waits ends when a handler has run; the mask it had replaced is
the one the handler finds in its context. -/
def interrupted (s : SigState) : SigState :=
  match s.point with
  | .waiting saved _ =>
      { s with
        hostMask := saved
        point := .done }
  | _ => s

/-- The store into `sigpending` and the context. -/
def noteSignal (s : SigState) (sig : ℕ) : SigState :=
  { s with
    sigpending := sig
    hostMask := kernelMask (hostMaskOf (~~~0))
    accepted := s.accepted ++ [sig] }

def signalHandler (arch : Arch) (s : SigState) (sig : ℕ) (siCode : ℤ) : SigState :=
  if (sig = SIGSEGV ∨ sig = SIGBUS) ∧ 0 < siCode then
    s.goto .ended
  else if sigismember arch s.sigmask sig then
    s
  else
    noteSignal s sig

/-- The default action lets the process go on: `SIGCHLD`, `SIGCONT`, `SIGURG`,
`SIGWINCH` and the signals that stop it. -/
def defaultGoesOn (sig : ℕ) : Bool := sig ∈ [17, 18, 23, 28, 19, 20, 21, 22]

/-- The host delivers a signal. -/
def arrive (arch : Arch) (s : SigState) (sig : ℕ) (siCode : ℤ) : Option SigState :=
  if s.point = .ended ∨ sig = 0 ∨ 64 < sig ∨ hostBlocked s.hostMask sig then
    none
  else
    match s.hostAct sig with
    | .ign => some s
    | .dfl => some (if defaultGoesOn sig then s else s.goto .ended)
    | .func => some (signalHandler arch (interrupted s) sig siCode)

inductive SigEvent where
  | arrive (sig : ℕ) (siCode : ℤ)
  | syscall (call : SigCall)
  | tick
  deriving DecidableEq

def sigStep (arch : Arch) (s : SigState) : SigEvent → Option SigState
  | .arrive sig siCode => arrive arch s sig siCode
  | .syscall call => if s.point = .guest then some (emulateSyscall s call) else none
  | .tick => tick arch s

/-! ## What an arrival does -/

/-- `signal_handler` stores the signal in `sigpending`. -/
def Stores (arch : Arch) (s : SigState) (sig : ℕ) (siCode : ℤ) : Prop :=
  (s.point ≠ .ended ∧ sig ≠ 0 ∧ sig ≤ 64 ∧ hostBlocked s.hostMask sig = false) ∧
    s.hostAct sig = .func ∧ ¬((sig = SIGSEGV ∨ sig = SIGBUS) ∧ 0 < siCode) ∧
    sigismember arch s.sigmask sig = false

instance (arch : Arch) (s : SigState) (sig : ℕ) (siCode : ℤ) :
    Decidable (Stores arch s sig siCode) :=
  inferInstanceAs (Decidable ((_ ∧ _ ∧ _ ∧ _) ∧ _ ∧ _ ∧ _))

section Arrive

variable {arch : Arch} {s s' : SigState} {sig : ℕ} {siCode : ℤ}

theorem interrupted_eq (s : SigState) :
    interrupted s = s ∨ ∃ saved poll, s.point = .waiting saved poll ∧
      interrupted s = { s with hostMask := saved, point := .done } := by
  rw [interrupted]
  split
  · exact .inr ⟨_, _, ‹_›, rfl⟩
  · exact .inl rfl

theorem sigmask_interrupted (s : SigState) : (interrupted s).sigmask = s.sigmask := by
  obtain h | ⟨_, _, _, h⟩ := interrupted_eq s <;> rw [h]

/-- Nothing but the point changes, the signal is dropped, or it is noted. -/
theorem arrive_cases (h : arrive arch s sig siCode = some s') :
    s' = s ∨ (∃ t, s' = SigState.goto t .ended ∧ (t = s ∨ t = interrupted s)) ∨
      s' = interrupted s ∨ (Stores arch s sig siCode ∧ s' = noteSignal (interrupted s) sig) := by
  rw [arrive] at h
  split at h
  · cases h
  · rename_i henabled
    simp only [not_or, Bool.not_eq_true, Nat.not_lt] at henabled
    split at h
    · exact .inl (Option.some.inj h).symm
    · obtain rfl := Option.some.inj h
      split
      · exact .inl rfl
      · exact .inr (.inl ⟨s, rfl, .inl rfl⟩)
    · rename_i hact
      obtain rfl := Option.some.inj h
      rw [signalHandler]
      split
      · exact .inr (.inl ⟨_, rfl, .inr rfl⟩)
      · rename_i hasync
        split
        · exact .inr (.inr (.inl rfl))
        · rename_i hmember
          rw [sigmask_interrupted, Bool.not_eq_true] at hmember
          exact .inr (.inr (.inr ⟨⟨henabled, hact, hasync, hmember⟩, rfl⟩))

end Arrive

/-! ## What the beginning of a system call does -/

/-- The state after the beginning of a system call. -/
inductive Entered (s : SigState) (call : SigCall) : SigState → Prop
  | done : Entered s call (s.goto .done)
  | abort : Entered s call (s.goto (.aborting 6))
  | wait (set : Word) (poll : Bool) : Entered s call (s.goto (.waitCall set poll))
  | loop (add : Bool) (set : SigWords) : Entered s call (s.goto (.maskLoop add set 1))
  | act {size : Word} {sig : ℤ} {handler : SigHandler} {point : SigPoint}
      (hcall : call = .rtSigaction size sig (some handler)) (hpos : 0 < sig)
      (hpoint : point = .done ∨ point = .actHost sig.toNat handler) :
      Entered s call { s with
        sigact := Function.update s.sigact sig.toNat handler
        point := point }
  | mask (set : Word) :
      Entered s call { s with
        sigmask := { s.sigmask with set := set }
        point := .maskTrim }
  | stack (sp : Word) :
      Entered s call { s with
        sigmask := { s.sigmask with next := sp }
        point := .done }

theorem entered_emulateSyscall (s : SigState) (call : SigCall) :
    Entered s call (emulateSyscall s call) := by
  cases call with
  | rtSigaction size sig nact =>
      rw [emulateSyscall]
      split
      · exact .done
      rw [signalSigaction.eq_def]
      split
      · exact .done
      rename_i hrange
      cases nact with
      | none => exact .done
      | some handler =>
          have hpos : 0 < sig := by omega
          dsimp only
          split
          · exact .act rfl hpos (.inl rfl)
          · exact .act rfl hpos (.inr rfl)
  | rtSigprocmask size how set =>
      rw [emulateSyscall]
      split
      · exact .done
      rw [signalSigprocmask.eq_def]
      cases set with
      | none => exact .done
      | some set =>
          dsimp only
          split
          · exact .loop true set
          split
          · exact .loop false set
          split
          · exact .mask set.set
          · exact .done
  | rtSigreturn => exact .abort
  | rtSigsuspend size set =>
      rw [emulateSyscall]
      split
      · exact .done
      · exact .wait set false
  | pollMask set => exact .wait set true
  | sigaltstack ss =>
      cases ss with
      | none => exact .done
      | some sp => exact .stack sp
  | other => exact .done

/-! ## What an access of the client does -/

/-- The state after the next access. -/
inductive Ticked (arch : Arch) (s : SigState) : SigState → Prop
  | uncatchable {sig : ℕ} {handler : SigHandler} (hpoint : s.point = .actHost sig handler) :
      Ticked arch s (s.goto .done)
  | act {sig : ℕ} {handler : SigHandler} (hpoint : s.point = .actHost sig handler)
      (hkill : sig ≠ SIGKILL) (hstop : sig ≠ SIGSTOP) :
      Ticked arch s { s with
        hostAct := Function.update s.hostAct sig handler
        point := .done }
  | loop {add : Bool} {set : SigWords} {i : ℕ} (hpoint : s.point = .maskLoop add set i)
      (mask : SigWords) :
      Ticked arch s { s with
        sigmask := mask
        point := .maskLoop add set (i + 1) }
  | loopEnd {add : Bool} {set : SigWords} {i : ℕ} (hpoint : s.point = .maskLoop add set i) :
      Ticked arch s (s.goto .maskTrim)
  | trim (hpoint : s.point = .maskTrim) :
      Ticked arch s { s with
        sigmask := sigdelset arch (sigdelset arch s.sigmask SIGKILL) SIGSTOP
        point := .maskGuard }
  | guardFree (hpoint : s.point = .maskGuard) (hzero : s.sigpending = 0) :
      Ticked arch s (s.goto .maskHost)
  | guardPending (hpoint : s.point = .maskGuard) (hne : s.sigpending ≠ 0) :
      Ticked arch s (s.goto .done)
  | maskHost (hpoint : s.point = .maskHost) :
      Ticked arch s { s with
        hostMask := kernelMask (hostMaskOf s.sigmask.set)
        point := .done }
  | wait {set : Word} {poll : Bool} (hpoint : s.point = .waitCall set poll) :
      Ticked arch s { s with
        hostMask := kernelMask set
        point := .waiting s.hostMask poll }
  | waitEnd {saved : Word} {poll : Bool} (hpoint : s.point = .waiting saved poll) :
      Ticked arch s { s with
        hostMask := saved
        point := .done }
  | finish (hpoint : s.point = .done) (hzero : s.sigpending = 0) :
      Ticked arch s (s.goto .guest)
  | handle (hpoint : s.point = .done) (hne : s.sigpending ≠ 0) :
      Ticked arch s (s.goto .handle)
  | read (hpoint : s.point = .handle) : Ticked arch s (s.goto (.taken s.sigpending))
  | clear {sig : ℕ} (hpoint : s.point = .taken sig) :
      Ticked arch s { s with
        sigpending := 0
        handled := s.handled ++ [sig]
        point := .acting sig }
  | ignore {sig : ℕ} (hpoint : s.point = .acting sig) (hign : s.sigact sig = .ign) :
      Ticked arch s (s.goto .guest)
  | abort {sig : ℕ} (hpoint : s.point = .acting sig) (hne : s.sigact sig ≠ .ign) :
      Ticked arch s (s.goto (.aborting sig))
  | ended {sig : ℕ} (hpoint : s.point = .aborting sig) : Ticked arch s (s.goto .ended)

theorem ticked_of_tick {arch : Arch} {s s' : SigState} (h : tick arch s = some s') :
    Ticked arch s s' := by
  rw [tick.eq_def] at h
  split at h
  · cases h
  · rename_i sig handler hpoint
    split at h <;> obtain rfl := Option.some.inj h
    · exact .uncatchable hpoint
    · rename_i hcatch
      exact .act hpoint (fun hkill => hcatch (.inl hkill)) (fun hstop => hcatch (.inr hstop))
  · rename_i hpoint
    split at h <;> obtain rfl := Option.some.inj h
    · exact .loop hpoint _
    · exact .loopEnd hpoint
  · obtain rfl := Option.some.inj h
    exact .trim ‹_›
  · rename_i hpoint
    obtain rfl := Option.some.inj h
    split
    · exact .guardFree hpoint ‹_›
    · exact .guardPending hpoint ‹_›
  · obtain rfl := Option.some.inj h
    exact .maskHost ‹_›
  · obtain rfl := Option.some.inj h
    exact .wait ‹_›
  · rename_i hpoint
    split at h
    · obtain rfl := Option.some.inj h
      exact .waitEnd hpoint
    · cases h
  · rename_i hpoint
    obtain rfl := Option.some.inj h
    split
    · exact .handle hpoint ‹_›
    · exact .finish hpoint (Decidable.not_not.mp ‹_›)
  · obtain rfl := Option.some.inj h
    exact .read ‹_›
  · obtain rfl := Option.some.inj h
    exact .clear ‹_›
  · rename_i sig hpoint
    split at h <;> obtain rfl := Option.some.inj h
    · exact .ignore hpoint ‹_›
    · exact .abort hpoint (by simp [*])
    · exact .abort hpoint (by simp [*])
  · obtain rfl := Option.some.inj h
    exact .ended ‹_›
  · cases h

end PollyInstrew.Client
