import PollyInstrew.Emulate.Tables

/-!
# Which calls reach the host, and with what

`fcntl` is selected by its descriptor instead of its command.  `poll` and `dup2`
compute on whole registers although their arguments are 32-bit integers.  The flags
of `openat` come back to what an AArch64 guest asked for on its own architecture.
-/

namespace PollyInstrew.Emulate

open PollyInstrew.ByteMemory PollyInstrew.Client PollyInstrew.StateExcept

/-! ## The calls a program makes -/

section Made

variable {κ α : Type} (host : EmuHost κ)

/-- The calls of the host that a program makes. -/
def made (x : Emu κ α) (s : EmuState κ) : List HostCall := (x.run s).2.calls.drop s.calls.length

theorem run_callHost (call : HostCall) (s : EmuState κ) :
    (callHost host call).run s = (.ok (host.kernel.answer call s.mem s.kernel).1, { s with
      mem := (host.kernel.answer call s.mem s.kernel).2.1
      kernel := (host.kernel.answer call s.mem s.kernel).2.2
      calls := s.calls ++ [call] }) := rfl

theorem made_callHost (call : HostCall) (s : EmuState κ) :
    made (callHost host call) s = [call] := by
  rw [made, run_callHost]
  simp

theorem made_unhandled (call : GuestCall) (s : EmuState κ) :
    made (unhandled call) s = [] := by
  rw [made, unhandled]
  simp

/-- No call of the host, and the registers stay. -/
def Quiet (s s' : EmuState κ) : Prop := s'.calls = s.calls ∧ s'.regs = s.regs

theorem Quiet.refl (s : EmuState κ) : Quiet s s := ⟨rfl, rfl⟩

theorem Quiet.trans (s t u : EmuState κ) (hst : Quiet s t) (htu : Quiet t u) : Quiet s u :=
  ⟨htu.1.trans hst.1, htu.2.trans hst.2⟩

theorem quiet_signalHandle : Prog.Keeps Quiet (signalHandle : Emu κ Unit) := by
  refine Prog.Keeps.bind Quiet.trans (Prog.Keeps.get Quiet.refl) fun s => ?_
  refine Prog.Keeps.bind Quiet.trans (Prog.Keeps.modify fun _ => ⟨rfl, rfl⟩) fun _ => ?_
  refine Prog.Keeps.ite (Prog.Keeps.fail Quiet.refl _) ?_
  refine Prog.Keeps.ite (Prog.Keeps.pure Quiet.refl _) ?_
  exact Prog.Keeps.bind Quiet.trans (Prog.Keeps.modify fun _ => ⟨rfl, rfl⟩)
    fun _ => Prog.Keeps.fail Quiet.refl _

theorem finish_spec (reg : ℕ) (res : Word) (s : EmuState κ) :
    ((finish reg res).run s).2.calls = s.calls ∧ ((finish reg res).run s).2.regs reg = res := by
  have hquiet : Prog.Keeps Quiet (do
      let s ← Prog.get
      if s.cpu.sigpending ≠ 0 then signalHandle else return () : Emu κ Unit) :=
    Prog.Keeps.bind Quiet.trans (Prog.Keeps.get Quiet.refl) fun s =>
      Prog.Keeps.ite quiet_signalHandle (Prog.Keeps.pure Quiet.refl _)
  obtain ⟨hcalls, hregs⟩ := hquiet { s with regs := Function.update s.regs reg res }
  refine ⟨hcalls, ?_⟩
  have hreg := congrFun hregs reg
  dsimp only at hreg
  rw [Function.update_self] at hreg
  exact hreg

theorem made_bind_finish (x : Emu κ Word) (reg : ℕ) (s : EmuState κ) :
    made (x >>= finish reg) s = made x s := by
  rw [made, made, Prog.run_bind]
  split
  · rename_i res s' hrun
    rw [(finish_spec reg res s').1, hrun]
  · rename_i e s' hrun
    rw [hrun]

theorem regs_bind_finish {x : Emu κ Word} {reg : ℕ} {s s' : EmuState κ} {res : Word}
    (h : x.run s = (.ok res, s')) : ((x >>= finish reg).run s).2.regs reg = res := by
  rw [Prog.run_bind, h]
  exact (finish_spec reg res s').2

/-- The call an x86-64 guest makes, from its registers. -/
def x86Call (s : EmuState κ) : GuestCall :=
  ⟨s.regs 1, s.regs 8, s.regs 7, s.regs 3, s.regs 11, s.regs 9, s.regs 10⟩

theorem emulateSyscall_run (s : EmuState κ) :
    (emulateSyscall host).run s =
      (runBranch host x86StatFields (x86Call s) (branch (x86Table host.arch) (s.regs 1)) >>=
        finish 1).run s := rfl

theorem made_emulateSyscall (s : EmuState κ) :
    made (emulateSyscall host) s =
      made (runBranch host x86StatFields (x86Call s) (branch (x86Table host.arch) (s.regs 1)))
        s := by
  rw [← made_bind_finish _ 1, made, emulateSyscall_run, made]

end Made

/-! ## `fcntl` -/

section Fcntl

variable {κ : Type} (host : EmuHost κ)

/-- A program passes a call `fcntl(fd, cmd, arg)` on. -/
def ForwardsFcntl {α : Type} (x : Emu κ α) (s : EmuState κ) (fd cmd arg : Word) : Prop :=
  ∃ arg3 arg4 arg5, made x s =
    [.syscall .fcntl (.word fd) (.word cmd) (.word arg) arg3 arg4 arg5]

/-- The registers of an x86-64 guest that calls `fcntl(fd, cmd, arg)`. -/
def x86Fcntl (s : EmuState κ) (fd cmd arg : Word) : EmuState κ :=
  { s with regs := fun i =>
      if i = 1 then 72 else if i = 8 then fd else if i = 7 then cmd else if i = 3 then arg
      else s.regs i }

theorem forwardsFcntl_iff (call : GuestCall) (s : EmuState κ) :
    ForwardsFcntl (fcntl host call) s call.arg0 call.arg1 call.arg2 ↔
      call.arg0.toNat ∈ fcntlCommands := by
  rw [ForwardsFcntl, fcntl]
  by_cases hfd : call.arg0.toNat ∈ fcntlCommands
  · have hmade := made_callHost host (.syscall .fcntl (.word call.arg0) (.word call.arg1)
      (.word call.arg2) (.word call.arg3) (.word call.arg4) (.word call.arg5)) s
    rw [if_pos hfd]
    exact iff_of_true ⟨_, _, _, hmade⟩ hfd
  · rw [if_neg hfd, made_unhandled]
    simp [hfd]

theorem x86_branch_fcntl (arch : Arch) : branch (x86Table arch) 72 = .fcntl := by
  cases arch with
  | x86_64 => decide +kernel
  | aarch64 => decide +kernel

theorem forwardsFcntl_x86 (s : EmuState κ) (fd cmd arg : Word) :
    ForwardsFcntl (emulateSyscall host) (x86Fcntl s fd cmd arg) fd cmd arg ↔
      fd.toNat ∈ fcntlCommands := by
  have hbranch : branch (x86Table host.arch) ((x86Fcntl s fd cmd arg).regs 1) = .fcntl :=
    x86_branch_fcntl host.arch
  rw [ForwardsFcntl, made_emulateSyscall, hbranch]
  exact forwardsFcntl_iff host (x86Call (x86Fcntl s fd cmd arg)) _

theorem forwardsFcntl_generic (s : EmuState κ) (fd cmd arg arg3 arg4 arg5 : Word) :
    ForwardsFcntl (emulateSyscallGeneric host ⟨25, fd, cmd, arg, arg3, arg4, arg5⟩) s
        fd cmd arg ↔
      fd.toNat ∈ fcntlCommands := by
  have hbranch : branch genericTable 25 = .fcntl := by decide +kernel
  rw [emulateSyscallGeneric, hbranch]
  exact forwardsFcntl_iff host ⟨25, fd, cmd, arg, arg3, arg4, arg5⟩ s

/-- Forwarding depends on the command only, and on its being one of the listed ones. -/
def CommandDecides (forwards : Word → Prop) (fd fd' cmd : Word) : Prop :=
  (forwards fd ↔ forwards fd') ∧ (forwards fd ↔ cmd.toNat ∈ fcntlCommands)

end Fcntl

/-- In both tables the command decides exactly if, read as commands, both descriptors
are listed or not as the command is. -/
theorem fcntl_command_decides_iff {κ : Type} (host : EmuHost κ) (s : EmuState κ)
    (fd fd' cmd arg arg3 arg4 arg5 : Word) :
    (CommandDecides (fun fd =>
        ForwardsFcntl (emulateSyscall host) (x86Fcntl s fd cmd arg) fd cmd arg) fd fd' cmd ↔
      (fd.toNat ∈ fcntlCommands ↔ fd'.toNat ∈ fcntlCommands) ∧
        (fd.toNat ∈ fcntlCommands ↔ cmd.toNat ∈ fcntlCommands)) ∧
    (CommandDecides (fun fd =>
        ForwardsFcntl (emulateSyscallGeneric host ⟨25, fd, cmd, arg, arg3, arg4, arg5⟩) s
          fd cmd arg) fd fd' cmd ↔
      (fd.toNat ∈ fcntlCommands ↔ fd'.toNat ∈ fcntlCommands) ∧
        (fd.toNat ∈ fcntlCommands ↔ cmd.toNat ∈ fcntlCommands)) := by
  constructor
  · rw [CommandDecides, forwardsFcntl_x86, forwardsFcntl_x86]
  · rw [CommandDecides, forwardsFcntl_generic, forwardsFcntl_generic]

/-- A kernel that answers every call with zero. -/
def idleKernel : Kernel Unit where
  answer := fun _ m k => (0, m, k)
  stat := fun _ _ => 0
  answer_taken := fun _ => rfl

def idleHost (arch : Arch) : EmuHost Unit := ⟨arch, ⟨0x1000, 0x2000⟩, idleKernel⟩

/-- A client that has just started, with the given registers. -/
def startState (regs : ℕ → Word) : EmuState Unit where
  regs := regs
  mem := fun _ => 0
  warnmap := warnmapInit
  cpu := ⟨0, ⟨0, 0⟩⟩
  ssFlags := 0
  ssSize := 0
  sigact := actionsInit
  tcProfile := false
  writtenBytes := 0
  rewTime := 0
  kernel := ()
  calls := []
  printed := []

/-- `fcntl(3, F_GETFD)` is passed on and `fcntl(100, F_GETFD)` is not. -/
theorem fcntl_command_does_not_decide :
    ¬CommandDecides (fun fd => ForwardsFcntl (emulateSyscall (idleHost .x86_64))
        (x86Fcntl (startState fun _ => 0) fd 1 0) fd 1 0) 3 100 1 ∧
      ¬CommandDecides (fun fd => ForwardsFcntl
        (emulateSyscallGeneric (idleHost .x86_64) ⟨25, fd, 1, 0, 0, 0, 0⟩)
        (startState fun _ => 0) fd 1 0) 3 100 1 := by
  constructor
  · rw [CommandDecides, forwardsFcntl_x86, forwardsFcntl_x86]
    decide
  · rw [CommandDecides, forwardsFcntl_generic, forwardsFcntl_generic]
    decide

/-! ## `poll` and `dup2` -/

section Legacy

variable {κ : Type} (host : EmuHost κ)

/-- A timeout of so many milliseconds, none if it is negative. -/
def TimeoutOf (ms : BitVec 32) (timeout : Arg) : Prop :=
  if ms.toInt < 0 then
    timeout = null
  else
    ∃ sec nsec, timeout = .timespec sec nsec ∧ nsec.toNat < 10 ^ 9 ∧
      sec.toNat * 10 ^ 9 + nsec.toNat = ms.toNat * 10 ^ 6

/-- `poll` waits as long as the low half of its third argument says, whatever the upper
halves of the integer arguments are. -/
def PollRight (s : EmuState κ) : Prop :=
  ∃ timeout, TimeoutOf (low (s.regs 3)) timeout ∧
    (made (emulateSyscall host) s).map HostCall.taken =
      [.syscall .ppoll (.word (s.regs 8)) (.word ((low (s.regs 7)).setWidth 64)) timeout null
        (.word 8) null]

/-- The upper half of the timeout is zero, or its sign bit is set if that of the low
half is. -/
def PollOk (timeout : Word) : Prop :=
  if (low timeout).toInt < 0 then timeout.toInt < 0 else timeout = (low timeout).setWidth 64

/-- The call that checks a descriptor. -/
def checkCall (fd : BitVec 32) : HostCall :=
  .syscall .fcntl (.word (fd.setWidth 64)) FGETFL null null null null

def dup3Call (oldfd newfd : BitVec 32) : HostCall :=
  .syscall .dup3 (.word (oldfd.setWidth 64)) (.word (newfd.setWidth 64)) null null null null

/-- What the kernel answers. -/
def answer (call : HostCall) (s : EmuState κ) : Word :=
  (host.kernel.answer call s.mem s.kernel).1

/-- `dup2` takes the low halves of its arguments: if they are equal it checks the
descriptor and returns it, otherwise it calls `dup3`. -/
def Dup2Right (s : EmuState κ) : Prop :=
  if low (s.regs 8) = low (s.regs 7) then
    (made (emulateSyscall host) s).map HostCall.taken = [checkCall (low (s.regs 8))] ∧
      ((emulateSyscall host).run s).2.regs 1 =
        if 0 ≤ (answer host (checkCall (low (s.regs 8))) s).toInt then
          (low (s.regs 7)).signExtend 64
        else
          answer host (checkCall (low (s.regs 8))) s
  else
    (made (emulateSyscall host) s).map HostCall.taken =
        [dup3Call (low (s.regs 8)) (low (s.regs 7))] ∧
      ((emulateSyscall host).run s).2.regs 1 =
        answer host (dup3Call (low (s.regs 8)) (low (s.regs 7))) s

/-- If the low halves are equal, so are the registers, and the result is the descriptor
unless it is refused. -/
def Dup2Ok (s : EmuState κ) : Prop :=
  low (s.regs 8) = low (s.regs 7) → s.regs 8 = s.regs 7 ∧
    (0 ≤ (answer host (checkCall (low (s.regs 8))) s).toInt →
      s.regs 7 = (low (s.regs 7)).signExtend 64)

theorem pollTimeout_of_nonneg {w : Word} (h : 0 ≤ w.toInt) :
    ∃ sec nsec, pollTimeout w = .timespec sec nsec ∧ nsec.toNat < 10 ^ 9 ∧
      sec.toNat * 10 ^ 9 + nsec.toNat = w.toNat * 10 ^ 6 := by
  refine ⟨w / 1000, w % 1000 * 1000000, by rw [pollTimeout, if_pos h], ?_⟩
  have hmod : (w % 1000).toNat = w.toNat % 1000 := BitVec.toNat_umod
  have hdiv : (w / 1000).toNat = w.toNat / 1000 := BitVec.toNat_udiv
  have hmul : (w % 1000 * 1000000).toNat = w.toNat % 1000 * 1000000 := by
    rw [BitVec.toNat_mul, hmod]
    have hlit : (1000000 : Word).toNat = 1000000 := by decide
    rw [hlit]
    omega
  rw [hmul, hdiv]
  omega

theorem timeoutOf_iff (w : Word) : TimeoutOf (low w) (pollTimeout w) ↔ PollOk w := by
  rw [TimeoutOf, PollOk]
  by_cases hneg : (low w).toInt < 0
  · rw [if_pos hneg, if_pos hneg, pollTimeout]
    by_cases hw : 0 ≤ w.toInt
    · rw [if_pos hw]
      exact iff_of_false (by rw [null]; exact Arg.noConfusion) (by omega)
    · rw [if_neg hw]
      exact iff_of_true rfl (by omega)
  · rw [if_neg hneg, if_neg hneg]
    have hlow : (low w).toInt = (low w).toNat := BitVec.toInt_eq_toNat_of_msb (by
      rw [BitVec.msb_eq_toInt]
      simpa using hneg)
    constructor
    · rintro ⟨sec, nsec, htimeout, -, hsum⟩
      have hw : 0 ≤ w.toInt := by
        by_contra hw
        rw [pollTimeout, if_neg hw, null] at htimeout
        exact Arg.noConfusion htimeout
      obtain ⟨sec', nsec', htimeout', -, hsum'⟩ := pollTimeout_of_nonneg hw
      rw [htimeout'] at htimeout
      obtain ⟨rfl, rfl⟩ := Arg.timespec.inj htimeout
      apply BitVec.eq_of_toNat_eq
      have hlt := (low w).isLt
      rw [BitVec.toNat_setWidth, Nat.mod_eq_of_lt (by omega)]
      omega
    · intro hw
      have hnat : w.toNat = (low w).toNat := by
        have hlt := (low w).isLt
        rw [hw, BitVec.toNat_setWidth, ← hw, Nat.mod_eq_of_lt (by omega)]
      have hnonneg : 0 ≤ w.toInt := by
        rw [BitVec.toInt_eq_toNat_of_lt]
        · omega
        · have hlt := (low w).isLt
          omega
      obtain ⟨sec, nsec, htimeout, hnsec, hsum⟩ := pollTimeout_of_nonneg hnonneg
      exact ⟨sec, nsec, htimeout, hnsec, by rw [hsum, hnat]⟩

theorem x86_branch_legacy (arch : Arch) :
    branch (x86Table arch) 7 = .poll ∧ branch (x86Table arch) 33 = .dup2 := by
  cases arch with
  | x86_64 => decide +kernel
  | aarch64 => decide +kernel

/-- The guest makes the system call of a number. -/
def withNr (s : EmuState κ) (nr : Word) : EmuState κ :=
  { s with regs := Function.update s.regs 1 nr }

theorem pollRight_iff {s : EmuState κ} (hnr : s.regs 1 = 7) :
    PollRight host s ↔ PollOk (s.regs 3) := by
  have hmade : (made (emulateSyscall host) s).map HostCall.taken =
      [.syscall .ppoll (.word (s.regs 8)) (.word ((low (s.regs 7)).setWidth 64))
        (pollTimeout (s.regs 3)) null (.word 8) null] := by
    rw [made_emulateSyscall, hnr, (x86_branch_legacy host.arch).1, runBranch, syscall,
      made_callHost]
    rfl
  rw [PollRight, hmade, ← timeoutOf_iff]
  constructor
  · rintro ⟨timeout, htimeout, heq⟩
    obtain ⟨-, -, -, rfl, -⟩ := HostCall.syscall.inj (List.cons.inj heq).1
    exact htimeout
  · intro h
    exact ⟨_, h, rfl⟩

theorem run_emulateSyscall_dup2 {s : EmuState κ} (hnr : s.regs 1 = 33) :
    (emulateSyscall host).run s = (dup2 host (s.regs 8) (s.regs 7) >>= finish 1).run s := by
  rw [emulateSyscall_run, hnr, (x86_branch_legacy host.arch).2, runBranch, x86Call]

theorem answer_taken (call : HostCall) (s : EmuState κ) :
    answer host call s = answer host call.taken s := by
  rw [answer, host.kernel.answer_taken call, answer]

/-- Equal registers: the descriptor is checked. -/
theorem dup2_equal {s : EmuState κ} (hnr : s.regs 1 = 33) (heq : s.regs 8 = s.regs 7) :
    (made (emulateSyscall host) s).map HostCall.taken = [checkCall (low (s.regs 8))] ∧
      ((emulateSyscall host).run s).2.regs 1 =
        if 0 ≤ (answer host (checkCall (low (s.regs 8))) s).toInt then
          s.regs 7
        else
          answer host (checkCall (low (s.regs 8))) s := by
  have hrun : (dup2 host (s.regs 8) (s.regs 7)).run s =
      (.ok (if 0 ≤ (answer host (checkCall (low (s.regs 8))) s).toInt then s.regs 7
        else answer host (checkCall (low (s.regs 8))) s),
      ((callHost host (.syscall .fcntl (.word (s.regs 8)) FGETFL null null null null)).run
        s).2) := by
    have hanswer := answer_taken host
      (.syscall .fcntl (.word (s.regs 8)) FGETFL null null null null) s
    rw [dup2, if_pos heq, checkCall]
    exact hanswer ▸ rfl
  constructor
  · have hcall : HostCall.taken (.syscall .fcntl (.word (s.regs 8)) FGETFL null null null null) =
        checkCall (low (s.regs 8)) := rfl
    rw [made, run_emulateSyscall_dup2 host hnr, ← made, made_bind_finish, made, hrun, ← made,
      made_callHost, List.map_singleton, hcall]
  · rw [run_emulateSyscall_dup2 host hnr]
    exact regs_bind_finish hrun

/-- Different registers: the descriptor is duplicated. -/
theorem dup2_different {s : EmuState κ} (hnr : s.regs 1 = 33) (hne : s.regs 8 ≠ s.regs 7) :
    (made (emulateSyscall host) s).map HostCall.taken =
        [dup3Call (low (s.regs 8)) (low (s.regs 7))] ∧
      ((emulateSyscall host).run s).2.regs 1 =
        answer host (dup3Call (low (s.regs 8)) (low (s.regs 7))) s := by
  have hrun : dup2 host (s.regs 8) (s.regs 7) = callHost host
      (.syscall .dup3 (.word (s.regs 8)) (.word (s.regs 7)) null null null null) := by
    rw [dup2, if_neg hne, syscall]
  have hcall : HostCall.taken
      (.syscall .dup3 (.word (s.regs 8)) (.word (s.regs 7)) null null null null) =
        dup3Call (low (s.regs 8)) (low (s.regs 7)) := rfl
  constructor
  · rw [made, run_emulateSyscall_dup2 host hnr, ← made, made_bind_finish, hrun, made_callHost,
      List.map_singleton, hcall]
  · rw [run_emulateSyscall_dup2 host hnr, hrun, regs_bind_finish (run_callHost host _ s), ← hcall]
    exact answer_taken host _ s

theorem dup2Right_iff {s : EmuState κ} (hnr : s.regs 1 = 33) :
    Dup2Right host s ↔ Dup2Ok host s := by
  rw [Dup2Right, Dup2Ok]
  by_cases hlow : low (s.regs 8) = low (s.regs 7)
  · rw [if_pos hlow]
    by_cases heq : s.regs 8 = s.regs 7
    · obtain ⟨hmade, hres⟩ := dup2_equal host hnr heq
      rw [hres]
      by_cases hvalid : 0 ≤ (answer host (checkCall (low (s.regs 8))) s).toInt
      · rw [if_pos hvalid, if_pos hvalid]
        exact ⟨fun h _ => ⟨heq, fun _ => h.2⟩, fun h => ⟨hmade, (h hlow).2 hvalid⟩⟩
      · rw [if_neg hvalid, if_neg hvalid]
        exact iff_of_true ⟨hmade, rfl⟩ fun _ => ⟨heq, fun h => absurd h hvalid⟩
    · obtain ⟨hmade, -⟩ := dup2_different host hnr heq
      refine iff_of_false ?_ fun h => heq (h hlow).1
      rintro ⟨hcheck, -⟩
      rw [hmade] at hcheck
      have hcall := (List.cons.inj hcheck).1
      exact absurd (HostCall.syscall.inj hcall).1 (by decide)
  · have hne : s.regs 8 ≠ s.regs 7 := fun h => hlow (congrArg low h)
    rw [if_neg hlow]
    exact iff_of_true (dup2_different host hnr hne) fun h => absurd h hlow

end Legacy

/-- For every content of the registers: `poll` and `dup2` do what the low halves say
exactly if the upper halves do not get in the way. -/
theorem legacy_low_halves_iff {κ : Type} (host : EmuHost κ) (s : EmuState κ) :
    (PollRight host (withNr s 7) ↔ PollOk (s.regs 3)) ∧
      (Dup2Right host (withNr s 33) ↔ Dup2Ok host (withNr s 33)) :=
  ⟨pollRight_iff host rfl, dup2Right_iff host rfl⟩

/-- `poll` with the timeout −1 in a zero-extended register waits for 49 days; `dup2` of a
descriptor onto itself calls `dup3` if one register has a bit in its upper half. -/
theorem upper_halves_matter :
    made (emulateSyscall (idleHost .x86_64))
        (startState fun i => if i = 1 then 7 else if i = 3 then 0xffffffff else 0) =
      [.syscall .ppoll null null (.timespec 4294967 295000000) null (.word 8) null] ∧
    ¬PollRight (idleHost .x86_64)
        (startState fun i => if i = 1 then 7 else if i = 3 then 0xffffffff else 0) ∧
    made (emulateSyscall (idleHost .x86_64))
        (startState fun i =>
          if i = 1 then 33 else if i = 8 then 3 else if i = 7 then 0x100000003 else 0) =
      [.syscall .dup3 (.word 3) (.word 0x100000003) null null null null] ∧
    ¬Dup2Right (idleHost .x86_64)
        (startState fun i =>
          if i = 1 then 33 else if i = 8 then 3 else if i = 7 then 0x100000003 else 0) := by
  refine ⟨by decide +kernel, ?_, by decide +kernel, ?_⟩
  · rw [pollRight_iff _ rfl, PollOk]
    decide
  · rw [dup2Right_iff _ rfl, Dup2Ok]
    decide

/-! ## `openat` -/

section Openat

variable {κ : Type} (host : EmuHost κ)

/-- The call that an AArch64 guest makes, from its registers. -/
def aarch64GuestCall (s : EmuState κ) : GuestCall :=
  ⟨s.regs 10, s.regs 2, s.regs 3, s.regs 4, s.regs 5, s.regs 6, s.regs 7⟩

theorem made_emulateAarch64Syscall (s : EmuState κ) :
    made (emulateAarch64Syscall host) s =
      made (emulateSyscallGeneric host (aarch64Call (aarch64GuestCall s))) s := by
  rw [← made_bind_finish _ 2]
  rfl

/-- The flags that reach an AArch64 host from the register of an AArch64 guest. -/
theorem low_aarch64OpenatFlags (a2 : Word) :
    low (aarch64OpenatFlags a2) = guestOpenatFlags (low a2) := by
  refine BitVec.eq_of_getLsbD_eq fun i hi => ?_
  have hswap := swapBit_lt hi
  rw [low, low, BitVec.getLsbD_setWidth, swaps_aarch64OpenatFlags _ i (by omega),
    swaps_guestOpenatFlags _ i hi, BitVec.getLsbD_setWidth, decide_eq_true hi,
    decide_eq_true hswap]

theorem made_openat {s : EmuState κ} (harch : host.arch = .aarch64) (hnr : s.regs 10 = 56) :
    made (emulateAarch64Syscall host) s =
      [.syscall .openat (.word (s.regs 2)) (.word (s.regs 3))
        (.word ((low (s.regs 4)).setWidth 64)) (.word (s.regs 5)) (.word (s.regs 6))
        (.word (s.regs 7))] := by
  have hbranch : branch genericTable 56 = .openat := by decide +kernel
  have hcall : aarch64Call (aarch64GuestCall s) = ⟨56, s.regs 2, s.regs 3,
      aarch64OpenatFlags (s.regs 4), s.regs 5, s.regs 6, s.regs 7⟩ := by
    rw [aarch64Call, aarch64GuestCall, if_pos hnr, hnr]
  have hflags : emulateOpenatFlags (low (aarch64OpenatFlags (s.regs 4))) = low (s.regs 4) := by
    rw [low_aarch64OpenatFlags]
    exact swaps_emulateOpenatFlags.cancel swaps_guestOpenatFlags _
  rw [made_emulateAarch64Syscall, hcall, emulateSyscallGeneric, hbranch, runBranch, openatCommon,
    harch, syscall, made_callHost]
  dsimp only
  rw [hflags]

end Openat

/-- The two mappings undo each other, both only permute the four flags, and an `openat` of
an AArch64 guest reaches an AArch64 host with the flags it asked for. -/
theorem openat_flags_survive :
    (∀ flags, emulateOpenatFlags (guestOpenatFlags flags) = flags) ∧
    Function.Bijective guestOpenatFlags ∧ Swaps guestOpenatFlags ∧
    Function.Bijective emulateOpenatFlags ∧ Swaps emulateOpenatFlags ∧
    ∀ (κ : Type) (kernel : Kernel κ) (addrs : HandlerAddrs) (s : EmuState κ), s.regs 10 = 56 →
      made (emulateAarch64Syscall ⟨.aarch64, addrs, kernel⟩) s =
        [.syscall .openat (.word (s.regs 2)) (.word (s.regs 3))
          (.word ((low (s.regs 4)).setWidth 64)) (.word (s.regs 5)) (.word (s.regs 6))
          (.word (s.regs 7))] :=
  ⟨swaps_emulateOpenatFlags.cancel swaps_guestOpenatFlags,
    swaps_guestOpenatFlags.bijective, swaps_guestOpenatFlags,
    swaps_emulateOpenatFlags.bijective, swaps_emulateOpenatFlags,
    fun _ _ _ _ hnr => made_openat _ rfl hnr⟩

end PollyInstrew.Emulate
