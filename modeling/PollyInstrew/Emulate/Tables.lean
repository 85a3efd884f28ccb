import PollyInstrew.Emulate.Calls
import PollyInstrew.Emulate.OpenFlags

/-!
# The tables of system calls

`emulate_syscall` serves x86-64 guests, `emulate_syscall_generic` those that use the
generic numbers.  A number selects what is to be done; most calls are passed on to
the host under its own number, the others have a branch of their own.
-/

namespace PollyInstrew.Emulate

open PollyInstrew.ByteMemory PollyInstrew.Client PollyInstrew.StateExcept

/-! ## Branches -/

/-- The branches of the two functions. -/
inductive Branch where
  | native (nr : HostNr)
  | unhandled
  | openat
  | openCwd
  | access
  | pipe
  | rename
  | mkdir
  | rmdir
  | unlink
  | readlink
  | chmod
  | chown
  | lchown
  | newfstatat
  | stat
  | fstat
  | lstat
  | poll
  | dup2
  | pause
  | fcntl
  | prctl
  | archPrctl
  | time
  | exitGroup
  | ignored
  | uname
  | rtSigaction
  | rtSigprocmask
  | rtSigreturn
  | rtSigpending
  | rtSigsuspend
  | sigaltstack
  deriving DecidableEq

/-- The numbers of x86-64 that do not depend on the host. -/
def x86Numbers : List (ℕ × Branch) :=
  [(0, .native .read), (1, .native .write), (3, .native .close), (8, .native .lseek),
    (9, .native .mmap), (10, .native .mprotect), (11, .native .munmap), (12, .native .brk),
    (16, .native .ioctl), (17, .native .pread64), (18, .native .pwrite64), (19, .native .readv),
    (20, .native .writev), (24, .native .schedYield), (25, .native .mremap),
    (28, .native .madvise), (32, .native .dup), (39, .native .getpid), (41, .native .socket),
    (42, .native .connect), (63, .native .uname), (76, .native .truncate),
    (77, .native .ftruncate), (79, .native .getcwd),
    (80, .native .chdir), (81, .native .fchdir), (91, .native .fchmod),
    (96, .native .gettimeofday), (97, .native .getrlimit), (99, .native .sysinfo),
    (102, .native .getuid), (104, .native .getgid), (107, .native .geteuid),
    (108, .native .getegid), (115, .native .getgroups), (116, .native .setgroups),
    (137, .native .statfs), (161, .native .chroot), (186, .native .gettid),
    (191, .native .getxattr), (192, .native .lgetxattr), (193, .native .fgetxattr),
    (202, .native .futex), (217, .native .getdents64), (218, .native .setTidAddress),
    (221, .native .fadvise64), (228, .native .clockGettime), (229, .native .clockGetres),
    (230, .native .clockNanosleep), (257, .openat), (260, .native .fchownat),
    (268, .native .fchmodat), (270, .native .pselect6), (271, .native .ppoll),
    (273, .native .setRobustList), (274, .native .getRobustList), (292, .native .dup3),
    (293, .native .pipe2), (302, .native .prlimit64), (318, .native .getrandom),
    (2, .openCwd), (21, .access), (22, .pipe), (82, .rename), (83, .mkdir), (84, .rmdir),
    (87, .unlink), (89, .readlink), (90, .chmod), (92, .chown), (94, .lchown),
    (262, .newfstatat), (4, .stat), (5, .fstat), (6, .lstat), (7, .poll), (33, .dup2),
    (34, .pause), (72, .fcntl), (157, .prctl), (158, .archPrctl), (201, .time),
    (231, .exitGroup), (203, .ignored), (204, .ignored), (334, .ignored), (13, .rtSigaction),
    (14, .rtSigprocmask), (15, .rtSigreturn), (127, .rtSigpending), (130, .rtSigsuspend),
    (131, .sigaltstack)]

/-- The numbers of x86-64; `select` exists on an x86-64 host only. -/
def x86Table : Arch → List (ℕ × Branch)
  | .x86_64 => (23, .native .select) :: x86Numbers
  | .aarch64 => x86Numbers

/-- The generic numbers. -/
def genericTable : List (ℕ × Branch) :=
  [(17, .native .getcwd), (23, .native .dup), (24, .native .dup3), (25, .fcntl),
    (29, .native .ioctl), (35, .native .unlinkat), (38, .native .renameat),
    (46, .native .ftruncate), (48, .native .faccessat), (49, .native .chdir),
    (50, .native .fchdir), (51, .native .chroot), (52, .native .fchmod), (53, .native .fchmodat),
    (54, .native .fchownat), (55, .native .fchown), (56, .openat), (57, .native .close),
    (59, .native .pipe2), (61, .native .getdents64), (62, .native .lseek), (63, .native .read),
    (64, .native .write), (65, .native .readv), (66, .native .writev), (67, .native .pread64),
    (68, .native .pwrite64), (73, .native .ppoll), (78, .native .readlinkat), (80, .fstat),
    (79, .newfstatat), (93, .native .exit), (94, .native .exitGroup),
    (96, .native .setTidAddress), (99, .native .setRobustList), (100, .native .getRobustList),
    (113, .native .clockGettime), (114, .native .clockGetres), (115, .native .clockNanosleep),
    (124, .native .schedYield), (131, .native .tgkill), (160, .uname),
    (169, .native .gettimeofday), (172, .native .getpid), (173, .native .getppid),
    (174, .native .getuid), (175, .native .geteuid), (176, .native .getgid),
    (177, .native .getegid), (178, .native .gettid), (179, .native .sysinfo),
    (214, .native .brk), (215, .native .munmap), (216, .native .mremap), (222, .native .mmap),
    (223, .native .fadvise64), (226, .native .mprotect), (233, .native .madvise),
    (260, .native .wait4), (261, .native .prlimit64), (276, .native .renameat2),
    (278, .native .getrandom), (122, .ignored), (123, .ignored), (293, .ignored),
    (134, .rtSigaction), (135, .rtSigprocmask), (139, .rtSigreturn), (136, .rtSigpending),
    (133, .rtSigsuspend), (132, .sigaltstack)]

/-- The branch of a number. -/
def branch (table : List (ℕ × Branch)) (nr : Word) : Branch :=
  (table.lookup nr.toNat).getD .unhandled

/-! ## What the branches do -/

def ATFDCWD : Arg := .word (BitVec.ofInt 64 (-100))
def ATREMOVEDIR : Arg := .word 0x200
def ATSYMLINKNOFOLLOW : Arg := .word 0x100

def null : Arg := .word 0

/-- The commands of `fcntl` that are listed in the two functions. -/
def fcntlCommands : List ℕ :=
  [0,      -- `F_DUPFD`
    1030,  -- `F_DUPFD_CLOEXEC`
    1,     -- `F_GETFD`
    2,     -- `F_SETFD`
    3,     -- `F_GETFL`
    4,     -- `F_SETFL`
    8,     -- `F_SETOWN`
    6,     -- `F_SETLK`
    7,     -- `F_SETLKW`
    5]     -- `F_GETLK`

def FGETFL : Arg := .word 3

/-- The timeout of `poll` as `ppoll` takes it. -/
def pollTimeout (arg2 : Word) : Arg :=
  if 0 ≤ arg2.toInt then .timespec (arg2 / 1000) (arg2 % 1000 * 1000000) else null

section Branches

variable {κ : Type} (host : EmuHost κ)

/-- `openat`, after the translation of the flags on an AArch64 host. -/
def openatCommon (dirfd : Arg) (path flags mode : Word) (rest : Arg × Arg) :
    Emu κ Word :=
  let flags := match host.arch with
    | .x86_64 => flags
    | .aarch64 => (emulateOpenatFlags (low flags)).setWidth 64
  syscall host .openat dirfd (.word path) (.word flags) (.word mode) rest.1 rest.2

/-- `dup2` of a descriptor onto itself checks that it is valid. -/
def dup2 (arg0 arg1 : Word) : Emu κ Word :=
  if arg0 = arg1 then do
    let res ← syscall host .fcntl (.word arg0) FGETFL null null null null
    return if 0 ≤ res.toInt then arg1 else res
  else
    syscall host .dup3 (.word arg0) (.word arg1) null null null null

/-- `fcntl`, which selects by the first argument. -/
def fcntl (call : GuestCall) : Emu κ Word :=
  if call.arg0.toNat ∈ fcntlCommands then
    callNative host .fcntl call
  else
    unhandled call

def archPrctl (arg0 arg1 : Word) : Emu κ Word :=
  if arg0 = 0x1001 then do
    setReg 19 arg1
    return 0
  else if arg0 = 0x1002 then do
    setReg 18 arg1
    return 0
  else
    return BitVec.ofInt 64 (-EINVAL)

def time (arg0 : Word) : Emu κ Word := do
  let sec ← callHost host .clockGettime
  setMemory fun m => if arg0 = 0 then m else store 64 m arg0 sec
  return sec

/-- The statistics are printed before the client ends. -/
def exitGroup (call : GuestCall) : Emu κ Word := do
  Prog.modify fun s =>
    if s.tcProfile then
      { s with printed := s.printed ++ [(literal "Rewriting %u bytes took %u ms\n",
          [.int (low s.writtenBytes), .int (low (s.rewTime / 1000000))])] }
    else
      s
  callNative host .exitGroup call

/-- A call with a set is refused if the set has another size. -/
def withSet (size : Word) (x : Emu κ Word) : Emu κ Word :=
  if size ≠ 8 then return BitVec.ofInt 64 (-EINVAL) else x

/-- `signal_sigreturn` does not return. -/
def signalSigreturn : Emu κ Word := do
  Prog.modify fun s => { s with
    printed := s.printed ++ [(literal "guest sigreturn not implemented!\n", [])] }
  Prog.fail 6

/-- A branch; `fields` is the guest's `struct stat`. -/
def runBranch (fields : List StatField) (call : GuestCall) : Branch → Emu κ Word
  | .native nr => callNative host nr call
  | .unhandled => unhandled call
  | .openat =>
      openatCommon host (.word call.arg0) call.arg1 call.arg2 call.arg3
        (.word call.arg4, .word call.arg5)
  | .openCwd =>
      openatCommon host ATFDCWD call.arg0 call.arg1 call.arg2
        (.word call.arg4, .word call.arg5)
  | .access => syscall host .faccessat ATFDCWD (.word call.arg0) (.word call.arg1) null null null
  | .pipe => syscall host .pipe2 (.word call.arg0) null null null null null
  | .rename =>
      syscall host .renameat ATFDCWD (.word call.arg0) ATFDCWD (.word call.arg1) null null
  | .mkdir => syscall host .mkdirat ATFDCWD (.word call.arg0) (.word call.arg1) null null null
  | .rmdir => syscall host .unlinkat ATFDCWD (.word call.arg0) ATREMOVEDIR null null null
  | .unlink => syscall host .unlinkat ATFDCWD (.word call.arg0) null null null null
  | .readlink =>
      syscall host .readlinkat ATFDCWD (.word call.arg0) (.word call.arg1) (.word call.arg2)
        null null
  | .chmod => syscall host .fchmodat ATFDCWD (.word call.arg0) (.word call.arg1) null null null
  | .chown =>
      syscall host .fchownat ATFDCWD (.word call.arg0) (.word call.arg1) (.word call.arg2)
        null null
  | .lchown =>
      syscall host .fchownat ATFDCWD (.word call.arg0) (.word call.arg1) (.word call.arg2)
        ATSYMLINKNOFOLLOW null
  | .newfstatat => do
      let res ← syscall host .newfstatat (.word call.arg0) (.word call.arg1) .statBuf
        (.word call.arg3) null null
      fstatCommon host fields call.arg2 res
  | .stat => do
      let res ← syscall host .newfstatat ATFDCWD (.word call.arg0) .statBuf null null null
      fstatCommon host fields call.arg1 res
  | .fstat => do
      let res ← syscall host .fstat (.word call.arg0) .statBuf null null null null
      fstatCommon host fields call.arg1 res
  | .lstat => do
      let res ← syscall host .newfstatat ATFDCWD (.word call.arg0) .statBuf ATSYMLINKNOFOLLOW
        null null
      fstatCommon host fields call.arg1 res
  | .poll =>
      syscall host .ppoll (.word call.arg0) (.word call.arg1) (pollTimeout call.arg2) null
        (.word 8) null
  | .dup2 => dup2 host call.arg0 call.arg1
  | .pause => syscall host .ppoll null null null null null null
  | .fcntl => fcntl host call
  | .prctl => return BitVec.ofInt 64 (-EINVAL)
  | .archPrctl => archPrctl call.arg0 call.arg1
  | .time => time host call.arg0
  | .exitGroup => exitGroup host call
  | .ignored => return BitVec.ofInt 64 (-ENOSYS)
  | .uname => do
      let res ← syscall host .uname (.word call.arg0) null null null null null
      setMemory fun m => if res = 0 then fixRelease host.arch call.arg0 m else m
      return res
  | .rtSigaction =>
      withSet call.arg3 (doSigaction host (low call.arg0).toInt call.arg1 call.arg2)
  | .rtSigprocmask =>
      withSet call.arg3 (doSigprocmask host (low call.arg0).toInt call.arg1 call.arg2)
  | .rtSigreturn => signalSigreturn
  | .rtSigpending =>
      withSet call.arg1
        (syscall host .rtSigpending (.word call.arg0) (.word call.arg1) null null null null)
  | .rtSigsuspend =>
      withSet call.arg1
        (syscall host .rtSigsuspend (.word call.arg0) (.word call.arg1) null null null null)
  | .sigaltstack => doSigaltstack call.arg0 call.arg1

/-! ## The functions -/

/-- The result is stored and a pending signal is handled. -/
def finish (reg : ℕ) (res : Word) : Emu κ Unit := do
  setReg reg res
  let s ← Prog.get
  if s.cpu.sigpending ≠ 0 then signalHandle else return ()

def emulateSyscall : Emu κ Unit := do
  let s ← Prog.get
  let call : GuestCall := ⟨s.regs 1, s.regs 8, s.regs 7, s.regs 3, s.regs 11, s.regs 9, s.regs 10⟩
  let res ← runBranch host x86StatFields call (branch (x86Table host.arch) call.nr)
  finish 1 res

def emulateSyscallGeneric (call : GuestCall) : Emu κ Word :=
  runBranch host genericStatFields call (branch genericTable call.nr)

def emulateRv64Syscall : Emu κ Unit := do
  let s ← Prog.get
  let res ← emulateSyscallGeneric host
    ⟨s.regs 18, s.regs 11, s.regs 12, s.regs 13, s.regs 14, s.regs 15, s.regs 16⟩
  finish 11 res

/-- The call that `emulate_aarch64_syscall` passes on. -/
def aarch64Call (call : GuestCall) : GuestCall :=
  if call.nr = 56 then { call with arg2 := aarch64OpenatFlags call.arg2 } else call

def emulateAarch64Syscall : Emu κ Unit := do
  let s ← Prog.get
  let res ← emulateSyscallGeneric host (aarch64Call
    ⟨s.regs 10, s.regs 2, s.regs 3, s.regs 4, s.regs 5, s.regs 6, s.regs 7⟩)
  finish 2 res

end Branches

end PollyInstrew.Emulate
