import Mathlib.Data.Nat.Notation

/-! # Immediates and block ends of WebAssembly code (`user/libc/wasm.c`)

A pointer into the code is the list of the bytes from there on, and `none` is a read behind the last one. -/

namespace Limnx.Wasm

def readU32Loop (result : BitVec 32) (shift : Nat) : List UInt8 → Option (BitVec 32 × List UInt8)
  | [] => none
  | byte :: p =>
    let result := result ||| (byte &&& 0x7f).toBitVec.setWidth 32 <<< shift
    if byte &&& 0x80 = 0 ∨ 35 ≤ shift + 7 then some (result, p) else readU32Loop result (shift + 7) p

def readU32Leb128 : List UInt8 → Option (BitVec 32 × List UInt8) := readU32Loop 0 0

/-- What C leaves open is as the processor has it: bits are shifted out, and the shift is taken modulo 32. -/
def readS32Loop (result : BitVec 32) (shift : Nat) : List UInt8 → Option (BitVec 32 × List UInt8)
  | [] => none
  | byte :: p =>
    let result := result ||| (byte &&& 0x7f).toBitVec.setWidth 32 <<< (shift % 32)
    if byte &&& 0x80 ≠ 0 then readS32Loop result (shift + 7) p
    else if shift + 7 < 32 ∧ byte &&& 0x40 ≠ 0 then some (result ||| -((1 : BitVec 32) <<< (shift + 7)), p)
    else some (result, p)

def readS32Leb128 : List UInt8 → Option (BitVec 32 × List UInt8) := readS32Loop 0 0

/-- `OP_BLOCK`, `OP_LOOP` and `OP_IF`. -/
def opsBlock : List UInt8 := [0x02, 0x03, 0x04]
def opElse : UInt8 := 0x05
def opEnd : UInt8 := 0x0b
/-- `OP_BR`, `OP_BR_IF`, `OP_CALL`, `OP_LOCAL_GET`, `OP_LOCAL_SET` and `OP_LOCAL_TEE`. -/
def opsIndex : List UInt8 := [0x0c, 0x0d, 0x10, 0x20, 0x21, 0x22]
def opI32Const : UInt8 := 0x41

/-- The cases of the `switch` but `OP_ELSE` and `OP_END`. -/
def skipInstr (op : UInt8) (depth : Nat) (pc : List UInt8) : Option (Nat × List UInt8) :=
  if op ∈ opsBlock then pc.tail?.map (depth + 1, ·)
  else if op ∈ opsIndex then (readU32Leb128 pc).map fun r => (depth, r.2)
  else if op = opI32Const then (readS32Leb128 pc).map fun r => (depth, r.2)
  else some (depth, pc)

/-- The loop of both scanners: the position and `found_else`. `after` bytes lie behind `end`. A function body is
    shorter than 2^32 bytes and an open block has three of them, so that `depth` does not overflow. -/
def scanLoop (stops : Bool) (after : Nat) : Nat → Nat → List UInt8 → Option (List UInt8 × Bool)
  | 0, _, _ => none
  | fuel + 1, depth, pc =>
    if pc.length ≤ after ∨ depth = 0 then some (pc, false)
    else do
      let op ← pc.head?
      if stops ∧ op = opElse ∧ depth = 1 then some (pc.tail, true)
      else if op = opEnd then scanLoop stops after fuel (depth - 1) pc.tail
      else do
        let (depth, pc) ← skipInstr op depth pc.tail
        scanLoop stops after fuel depth pc

def skipToEndOrElse (pc : List UInt8) (after : Nat) : Option (List UInt8 × Bool) :=
  scanLoop true after (pc.length + 1) 1 pc

def skipBlockToEnd (pc : List UInt8) (after : Nat) : Option (List UInt8) :=
  (scanLoop false after (pc.length + 1) 1 pc).map Prod.fst

end Limnx.Wasm
