import Limnx.Errno

/-! # The environment of a process (`syscall/sys_misc.c`)

`env_buf` holds entries `KEY=VALUE`, each with a zero byte at its end. Strings are lists of bytes without it, none for a
pointer that `copy_string_from_user` refuses. -/

namespace Limnx

def procEnvBufSize : Nat := 1024

/-- `env_buf` up to `env_buf_len`, and `env_count`. -/
structure ProcEnv where
  buf : List UInt8 := []
  count : Int := 0

/-- The entry at the front of `rest` is one of `key`. -/
def entryMatches (key : CStr) (rest : List UInt8) : Bool := (key ++ [61]).isPrefixOf rest

/-- The position behind the entry at the front of `rest`. -/
def entryEnd (rest : List UInt8) : Nat := (rest.takeWhile (· != 0)).length + 1

/-- The scan of `sys_getenv` over what is left of the buffer, which holds at most `n` entries. -/
def findValue (key : CStr) : (n : Nat) → (rest : List UInt8) → Option (List UInt8)
  | 0, _ => none
  | n + 1, rest =>
    if rest = [] then none
    else if entryMatches key rest then some ((rest.drop (key.length + 1)).takeWhile (· != 0))
    else findValue key n (rest.drop (entryEnd rest))

/-- What `sys_getenv` returns and stores: bytes at the start of the caller's buffer, and a zero byte at a position.
    `valOk` is the answer of `validate_user_ptr`. -/
def sysGetenv (e : ProcEnv) (key : Option CStr) (valOk : Bool) (valSize : U64) : Int × Option (List UInt8 × Int) :=
  match key with
  | none => (-EFAULT, none)
  | some key =>
    if 0 < valSize ∧ !valOk then (-EFAULT, none)
    else
      match findValue (key.take 127) e.buf.length e.buf with
      | none => (-ENOENT, none)
      | some val =>
        -- `(int)val_size - 1`
        let room := (valSize.setWidth 32).toInt - 1
        let copy := if (val.length : Int) < room then (val.length : Int) else room
        (val.length, if 0 < valSize then some (val.take copy.toNat, copy) else none)

/-- The removal of a key from what is left of the buffer, with the number of entries removed. -/
def removeKey (key : CStr) : (n : Nat) → (rest : List UInt8) → List UInt8 × Nat
  | 0, rest => (rest, 0)
  | n + 1, rest =>
    if rest = [] then ([], 0)
    else
      let r := removeKey key n (rest.drop (entryEnd rest))
      if entryMatches key rest then (r.1, r.2 + 1) else (rest.take (entryEnd rest) ++ r.1, r.2)

def sysSetenv (e : ProcEnv) (key val : Option CStr) : Int × ProcEnv :=
  match key, val with
  | some key, some val =>
    let key := key.take 127
    let val := val.take 255
    let r := removeKey key e.buf.length e.buf
    let e : ProcEnv := ⟨r.1, e.count - r.2⟩
    if procEnvBufSize < e.buf.length + (key.length + 1 + val.length + 1) then (-ENOMEM, e)
    else (0, ⟨e.buf ++ (key ++ 61 :: (val ++ [0])), e.count + 1⟩)
  | _, _ => (-EFAULT, e)

end Limnx
