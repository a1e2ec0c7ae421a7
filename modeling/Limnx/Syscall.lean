import Limnx.Process

/-! # System call dispatch and its filter (`syscall/syscall.c`, `sys_seccomp`)

`syscall_dispatch` refuses numbers without a handler, asks the caller's filter, two 64-bit words with a bit for each
number below 128, and calls the handler. Numbers differ between the two architectures. -/

namespace Limnx

inductive Arch
  | x86_64 | arm64
deriving DecidableEq

namespace Arch

def sysExit : Arch → Nat
  | x86_64 => 60
  | arm64 => 93

def sysRtSigreturn : Arch → Nat
  | x86_64 => 15
  | arm64 => 139

def linuxNumbers : Arch → List Nat
  | x86_64 =>
    -- read write open close stat fstat lstat poll lseek mmap mprotect munmap brk rt_sigaction rt_sigprocmask
    [0, 1, 2, 3, 4, 5, 6, 7, 8, 9, 10, 11, 12, 13, 14,
    -- rt_sigreturn ioctl readv writev pipe select sched_yield dup dup2 nanosleep getpid
      15, 16, 19, 20, 22, 23, 24, 32, 33, 35, 39,
    -- socket connect accept sendto recvfrom bind listen clone fork vfork execve exit wait4 kill uname
      41, 42, 43, 44, 45, 49, 50, 56, 57, 58, 59, 60, 61, 62, 63,
    -- fcntl truncate ftruncate getcwd chdir rename mkdir rmdir creat unlink symlink readlink chmod chown fchown
      72, 76, 77, 79, 80, 82, 83, 84, 85, 87, 88, 89, 90, 92, 93,
    -- umask getrlimit getuid getgid setuid setgid geteuid getegid setpgid getppid setsid getgroups setgroups getsid
      95, 97, 102, 104, 105, 106, 107, 108, 109, 110, 112, 115, 116, 124,
      158, 160, 165, 166, 186, 202, 217, 218, 228, 229, 231, 232, 233, 234, 257, 258, 260, 262, 263, 266, 267,
      268, 269, 271, 273, 280, 284, 291, 292, 293, 317, 318, 334, 425, 426]
  | arm64 =>
    -- getcwd eventfd2 epoll_create1 epoll_ctl dup3 fcntl ioctl mkdirat unlinkat symlinkat umount2 mount
    [17, 19, 20, 21, 24, 25, 29, 34, 35, 36, 39, 40,
    -- truncate ftruncate faccessat chdir fchmodat fchownat fchown openat close pipe2 getdents64 lseek
      45, 46, 48, 49, 53, 54, 55, 56, 57, 59, 61, 62,
    -- read write readv writev ppoll readlinkat fstatat fstat utimensat exit exit_group set_tid_address
      63, 64, 65, 66, 73, 78, 79, 80, 88, 93, 94, 96,
    -- futex set_robust_list nanosleep clock_gettime clock_getres sched_yield
      98, 99, 101, 113, 114, 124,
      129, 131, 134, 135, 139, 144, 146, 154, 156, 157, 158, 159, 160, 163, 164, 166, 172, 173, 174, 175, 176,
      177, 178, 198, 200, 201, 202, 203, 206, 207, 214, 215, 220, 221, 222, 226, 260, 276, 277, 278, 293, 425,
      426]

/-- `syscall_table[num]` holds a handler: a Linux number, or one of 512 to 525 and 530 to 597. -/
def hasHandler (arch : Arch) (num : Nat) : Bool :=
  arch.linuxNumbers.contains num || (512 ≤ num && num ≤ 525) || (530 ≤ num && num ≤ 597)

end Arch

/-- What becomes of a system call: no handler, refused by the filter (and the caller killed, in strict
    mode), or handled. -/
inductive Dispatch
  | nosys
  | refused (kill : Bool)
  | handled
deriving DecidableEq

/-- The filter lets `num` pass. Both words zero is no filter, and numbers from 128 on always pass. -/
def seccompAllows (arch : Arch) (proc : Process) (num : Nat) : Bool :=
  if (proc.seccompMask != 0 || proc.seccompMaskHi != 0) && num != arch.sysExit && num != arch.sysRtSigreturn then
    if num < 64 then proc.seccompMask.getLsbD num
    else if num < 128 then proc.seccompMaskHi.getLsbD (num - 64)
    else true
  else true

def syscallDispatch (arch : Arch) (proc : Process) (num : Nat) : Dispatch :=
  if !arch.hasHandler num then .nosys
  else if !seccompAllows arch proc num then .refused proc.seccompStrict
  else .handled

structure SeccompCall where
  mask : U64
  strict : U64
  maskHi : U64
deriving DecidableEq

def sysSeccomp (proc : Process) (call : SeccompCall) : Process :=
  let proc :=
    if proc.seccompMask != 0 || proc.seccompMaskHi != 0 then
      { proc with
        seccompMask := proc.seccompMask &&& call.mask
        seccompMaskHi := proc.seccompMaskHi &&& call.maskHi }
    else { proc with seccompMask := call.mask, seccompMaskHi := call.maskHi }
  if call.strict != 0 then { proc with seccompStrict := true } else proc

end Limnx
