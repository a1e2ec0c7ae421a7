import Mathlib.Algebra.Order.Ring.Int

/-! # Types and error codes (`errno.h`)

The functions return error codes negated. -/

namespace Limnx

/-- `uint16_t`, and so on. -/
abbrev U16 := BitVec 16
abbrev U32 := BitVec 32
abbrev U64 := BitVec 64

/-- The bytes of a C string up to its terminator. -/
abbrev CStr := List UInt8

/-- An array of bytes. -/
abbrev Buf := Nat → UInt8

def EPERM : Int := 1
def ENOENT : Int := 2
def ESRCH : Int := 3
def EINTR : Int := 4
def EIO : Int := 5
def ENOEXEC : Int := 8
def EBADF : Int := 9
def ECHILD : Int := 10
def EAGAIN : Int := 11
def ENOMEM : Int := 12
def EACCES : Int := 13
def EFAULT : Int := 14
def EEXIST : Int := 17
def ENOTDIR : Int := 20
def EISDIR : Int := 21
def EINVAL : Int := 22
def EMFILE : Int := 24
def ENOSPC : Int := 28
def ENOSYS : Int := 38
def ENOTEMPTY : Int := 39
def ELOOP : Int := 40
def EMSGSIZE : Int := 90
def EADDRINUSE : Int := 98
def ENOBUFS : Int := 105
def ENOTCONN : Int := 107
def ETIMEDOUT : Int := 110
def ECONNREFUSED : Int := 111
def EINPROGRESS : Int := 115

end Limnx
