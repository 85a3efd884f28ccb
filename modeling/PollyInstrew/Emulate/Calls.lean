import PollyInstrew.Emulate.Unhandled
import PollyInstrew.Emulate.SignalMask
import PollyInstrew.Emulate.SignalActions

/-!
# Calls of the host

What the emulation of a system call asks of the host: calls with registers or with
pointers to structures on the client's own stack.  The kernel is a parameter; it
answers a call, changes memory and its own state, and takes only the low half of
an argument that it declares as an `int`.
-/

namespace PollyInstrew.Emulate

open PollyInstrew.ByteMemory PollyInstrew.Client PollyInstrew.StateExcept

/-! ## The calls -/

/-- The host's numbers, `__NR_…`. -/
inductive HostNr where
  | read | write | close | lseek | mmap | mprotect | munmap | brk | ioctl | pread64 | pwrite64
  | readv | writev | select | schedYield | mremap | madvise | dup | getpid | getppid | socket
  | connect | uname | truncate | ftruncate | getcwd | chdir | fchdir | fchmod | fchown
  | gettimeofday | getrlimit | sysinfo | getuid | getgid | geteuid | getegid | getgroups
  | setgroups | statfs | chroot | gettid | getxattr | lgetxattr | fgetxattr | futex
  | getdents64 | setTidAddress | fadvise64 | clockGettime | clockGetres | clockNanosleep
  | openat | fchownat | fchmodat | pselect6 | ppoll | setRobustList | getRobustList | dup3
  | pipe2 | prlimit64 | getrandom | faccessat | renameat | renameat2 | mkdirat | unlinkat
  | readlinkat | newfstatat | fstat | fcntl | exit | exitGroup | tgkill | wait4 | rtSigpending
  | rtSigsuspend
  deriving DecidableEq, Repr

/-- An argument: a value, or a pointer to a structure on the client's stack. -/
inductive Arg where
  | word (w : Word)
  | timespec (sec nsec : Word)
  | statBuf
  deriving DecidableEq

inductive HostCall where
  | syscall (nr : HostNr) (arg0 arg1 arg2 arg3 arg4 arg5 : Arg)
  | sigaction (sig : ℤ) (act : SigAction)
  | sigprocmask (mask : Word)
  | clockGettime
  deriving DecidableEq

/-- The low half of a register. -/
def low (w : Word) : BitVec 32 := w.setWidth 32

/-- An argument that the kernel declares as an `int` or an `unsigned`. -/
def Arg.int : Arg → Arg
  | .word w => .word ((low w).setWidth 64)
  | arg => arg

/-- What the kernel takes of the arguments, for the calls whose `int` arguments matter here. -/
def HostCall.taken : HostCall → HostCall
  | .syscall .ppoll a0 a1 a2 a3 a4 a5 => .syscall .ppoll a0 a1.int a2 a3 a4 a5
  | .syscall .dup3 a0 a1 a2 a3 a4 a5 => .syscall .dup3 a0.int a1.int a2.int a3 a4 a5
  | .syscall .fcntl a0 a1 a2 a3 a4 a5 => .syscall .fcntl a0.int a1.int a2 a3 a4 a5
  | call => call

/-- The kernel; `stat` is what its last call has stored to a `struct stat`. -/
structure Kernel (κ : Type) where
  answer : HostCall → Mem → κ → Word × Mem × κ
  stat : κ → ℕ → Word
  answer_taken : ∀ call, answer call = answer call.taken

/-! ## The state -/

/-- What the emulation reads and changes.  The first word of `sigaltstack` is the one
behind `sigmask`. -/
structure EmuState (κ : Type) where
  regs : ℕ → Word
  mem : Mem
  warnmap : Warnmap
  cpu : SigCpu
  ssFlags : Word
  ssSize : Word
  sigact : ActionTable
  tcProfile : Bool
  writtenBytes : Word
  rewTime : Word
  kernel : κ
  /-- the calls of the host so far -/
  calls : List HostCall
  /-- the calls of `dprintf` so far -/
  printed : List (List Byte × List VaArg)

/-- A program of the emulation; it ends with the signal that terminates the client. -/
abbrev Emu (κ : Type) := Prog (EmuState κ) ℤ

/-- What stays fixed. -/
structure EmuHost (κ : Type) where
  arch : Arch
  addrs : HandlerAddrs
  kernel : Kernel κ

section Steps

variable {κ : Type} (host : EmuHost κ)

def callHost (call : HostCall) : Emu κ Word :=
  ⟨fun s =>
    let res := host.kernel.answer call s.mem s.kernel
    (.ok res.1, { s with
      mem := res.2.1
      kernel := res.2.2
      calls := s.calls ++ [call] })⟩

/-- `syscall(nr, arg0, …, arg5)`. -/
def syscall (nr : HostNr) (arg0 arg1 arg2 arg3 arg4 arg5 : Arg) : Emu κ Word :=
  callHost host (.syscall nr arg0 arg1 arg2 arg3 arg4 arg5)

/-- The label `native`. -/
def callNative (nr : HostNr) (call : GuestCall) : Emu κ Word :=
  syscall host nr (.word call.arg0) (.word call.arg1) (.word call.arg2) (.word call.arg3)
    (.word call.arg4) (.word call.arg5)

/-- The label `unhandled`. -/
def unhandled (call : GuestCall) : Emu κ Word :=
  ⟨fun s =>
    let res := unhandledSyscall s.warnmap call
    (.ok (BitVec.ofInt 64 res.res), { s with
      warnmap := res.warnmap
      printed := s.printed ++ res.printed.toList })⟩

def setMemory (f : Mem → Mem) : Emu κ Unit := Prog.modify fun s => { s with mem := f s.mem }

def setReg (i : ℕ) (v : Word) : Emu κ Unit :=
  Prog.modify fun s => { s with regs := Function.update s.regs i v }

/-! ## Files -/

/-- A field of the guest's `struct stat`: its offset and size, and the field of the
host's structure that is copied there. -/
structure StatField where
  offset : Word
  bytes : ℕ
  source : ℕ

/-- The fields in the order `st_dev`, `st_ino`, `st_nlink`, `st_mode`, `st_uid`, `st_gid`,
`st_rdev`, `st_size`, `st_blksize`, `st_blocks` and the three times. -/
def statFields (layout : List (Word × ℕ)) : List StatField :=
  layout.zipIdx.map fun field => ⟨field.1.1, field.1.2, field.2⟩

/-- The structure of an x86-64 guest. -/
def x86StatFields : List StatField :=
  statFields [(0, 8), (8, 8), (16, 8), (24, 4), (28, 4), (32, 4), (40, 8), (48, 8), (56, 8),
    (64, 8), (72, 8), (80, 8), (88, 8), (96, 8), (104, 8), (112, 8)]

/-- The structure of the other guests. -/
def genericStatFields : List StatField :=
  statFields [(0, 8), (8, 8), (20, 4), (16, 4), (24, 4), (28, 4), (32, 8), (48, 8), (56, 4),
    (64, 8), (72, 8), (80, 8), (88, 8), (96, 8), (104, 8), (112, 8)]

def storeField (stat : ℕ → Word) (tgt : Word) (m : Mem) (field : StatField) : Mem :=
  writeBytes m (tgt + field.offset) (leBytes field.bytes (stat field.source).toNat)

/-- The label `fstat_common`. -/
def fstatCommon (fields : List StatField) (tgt : Word) (res : Word) : Emu κ Word :=
  ⟨fun s =>
    (.ok res, if res = 0 then
      { s with mem := fields.foldl (storeField (host.kernel.stat s.kernel) tgt) s.mem }
    else
      s)⟩

/-- `buf->release[0] <= '4'`; `char` is signed on x86-64 only. -/
def charLe (arch : Arch) (ch : Byte) (bound : ℤ) : Bool :=
  match arch with
  | .x86_64 => ch.toInt ≤ bound
  | .aarch64 => (ch.toNat : ℤ) ≤ bound

/-- The kernel's release is replaced if it is older than 5. -/
def fixRelease (arch : Arch) (buf : Word) (m : Mem) : Mem :=
  if charLe arch (m (buf + 130)) 0x34 ∧ m (buf + 131) = 0x2e then
    writeBytes m (buf + 130) (literal "5.0.0" ++ [0])
  else
    m

/-! ## Signals -/

def readSigAction (m : Mem) (ptr : Word) : SigAction :=
  ⟨load 64 m ptr, load 64 m (ptr + 8), load 64 m (ptr + 16), load 64 m (ptr + 24)⟩

def writeSigAction (ptr : Word) (act : SigAction) (m : Mem) : Mem :=
  let m := store 64 m ptr act.saHandler
  let m := store 64 m (ptr + 8) act.saFlags
  let m := store 64 m (ptr + 16) act.saRestorer
  store 64 m (ptr + 24) act.saMask

/-- A set in memory and the word behind it. -/
def readSigWords (m : Mem) (ptr : Word) : SigWords := ⟨load 64 m ptr, load 64 m (ptr + 8)⟩

/-- A null pointer is no object. -/
def deref {α : Type} (read : Mem → Word → α) (m : Mem) (ptr : Word) : Option α :=
  if ptr = 0 then none else some (read m ptr)

/-- Store what is to be reported, if there is something. -/
def storeOld {α : Type} (write : Word → α → Mem → Mem) (ptr : Word) (old : Option α) :
    Emu κ Unit :=
  setMemory fun m => match old with
    | some v => write ptr v m
    | none => m

/-- The call of the host that goes with a result, if there is one. -/
def callMaybe (call : Option HostCall) : Emu κ Word :=
  match call with
  | some call => callHost host call
  | none => pure 0

/-- `signal_sigaction`, with pointers. -/
def doSigaction (sig : ℤ) (nact oact : Word) : Emu κ Word := do
  let s ← Prog.get
  let query := signalSigaction host.addrs 0 s.sigact sig none (oact ≠ 0)
  storeOld writeSigAction oact query.old
  let s ← Prog.get
  let new := deref readSigAction s.mem nact
  let res := signalSigaction host.addrs 0 s.sigact sig new (oact ≠ 0)
  Prog.modify fun s => { s with sigact := res.table }
  let hostRet ← callMaybe host (res.installed.map fun act => .sigaction act.1 act.2)
  return BitVec.ofInt 64 (signalSigaction host.addrs hostRet.toInt s.sigact sig new (oact ≠ 0)).ret

/-- `signal_sigprocmask`, with pointers. -/
def doSigprocmask (how : ℤ) (set oldset : Word) : Emu κ Word := do
  let s ← Prog.get
  let query := signalSigprocmask host.arch 0 s.cpu how none (oldset ≠ 0)
  storeOld (fun ptr w m => store 64 m ptr w) oldset query.old
  let s ← Prog.get
  let new := deref readSigWords s.mem set
  let res := signalSigprocmask host.arch 0 s.cpu how new (oldset ≠ 0)
  Prog.modify fun s => { s with cpu := res.cpu }
  let hostRet ← callMaybe host (res.installed.map HostCall.sigprocmask)
  return BitVec.ofInt 64
    (signalSigprocmask host.arch hostRet.toInt s.cpu how new (oldset ≠ 0)).ret

/-- `signal_sigaltstack`, with pointers. -/
def doSigaltstack (ss oldSs : Word) : Emu κ Word := do
  let s ← Prog.get
  let old := if oldSs = 0 then none else some (s.cpu.sigmask.next, s.ssFlags, s.ssSize)
  storeOld (fun ptr (stack : Word × Word × Word) m =>
    store 64 (store 64 (store 64 m ptr stack.1) (ptr + 8) stack.2.1) (ptr + 16) stack.2.2) oldSs old
  Prog.modify fun s =>
    if ss = 0 then
      s
    else
      { s with
        cpu := { s.cpu with sigmask := { s.cpu.sigmask with next := load 64 s.mem ss } }
        ssFlags := load 64 s.mem (ss + 8)
        ssSize := load 64 s.mem (ss + 16) }
  return 0

/-- `signal_handle`: a signal that is not ignored terminates the client. -/
def signalHandle : Emu κ Unit := do
  let s ← Prog.get
  let sig := s.cpu.sigpending
  Prog.modify fun s => { s with cpu := { s.cpu with sigpending := 0 } }
  let handler := (s.sigact (actIndex sig)).saHandler
  if handler = SIGDFL then
    Prog.fail sig
  else if handler = SIGIGN then
    return ()
  else do
    Prog.modify fun s => { s with
      printed := s.printed ++ [(literal "guest signal handling not implemented! %d\n",
        [.int (BitVec.ofInt 32 sig)])] }
    Prog.fail sig

end Steps

end PollyInstrew.Emulate
