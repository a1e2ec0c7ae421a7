import Mathlib.Data.Nat.ModEq
import Mathlib.Tactic.Ring

/-! # Bytes and little-endian numbers

A buffer of `n` bytes is a function on `Fin n`. `decode` reads the number in `w` bytes, `put` stores one, and `pack`
lays out a record. -/

namespace ByteCodec

/-- The little-endian number in the `w` bytes of `f` at `off`. -/
def decode (f : Nat → UInt8) : Nat → Nat → Nat
  | _, 0 => 0
  | off, w + 1 => (f off).toNat + 256 * decode f (off + 1) w

def byteOf (v k : Nat) : UInt8 := UInt8.ofNat (v / 256 ^ k)

/-- `f` with the `n` bytes at `off` replaced by those of `g`. -/
def splice (f : Nat → UInt8) (off n : Nat) (g : Nat → UInt8) : Nat → UInt8 :=
  fun k => if off ≤ k ∧ k < off + n then g (k - off) else f k

def put (f : Nat → UInt8) (off w v : Nat) : Nat → UInt8 := splice f off w (byteOf v)

variable {f g : Nat → UInt8}

theorem splice_of_mem {off n k : Nat} (h1 : off ≤ k) (h2 : k < off + n) : splice f off n g k = g (k - off) := by
  simp [splice, h1, h2]

theorem splice_of_not_mem {off n k : Nat} (h : k < off ∨ off + n ≤ k) : splice f off n g k = f k := by
  simp only [splice]
  rw [if_neg (by omega)]

theorem decode_lt (f : Nat → UInt8) : ∀ w off, decode f off w < 256 ^ w
  | 0, _ => by simp [decode]
  | w + 1, off => by
    have ih := decode_lt f w (off + 1)
    have hb : (f off).toNat < 256 := (f off).toNat_lt
    rw [decode, pow_succ]
    omega

theorem decode_congr : ∀ {w off : Nat}, (∀ k, off ≤ k → k < off + w → f k = g k) →
    decode f off w = decode g off w
  | 0, _, _ => rfl
  | w + 1, off, h => by
    have ih : decode f (off + 1) w = decode g (off + 1) w := decode_congr fun k h1 h2 => h k (by omega) (by omega)
    rw [decode, decode, h off (by omega) (by omega), ih]

theorem decode_zero : ∀ w off, decode (fun _ => 0) off w = 0
  | 0, _ => rfl
  | w + 1, off => by simp [decode, decode_zero w]

theorem decode_shift {off : Nat} (off' : Nat) : ∀ {w : Nat},
    (∀ k < w, f (off + k) = g (off' + k)) → decode f off w = decode g off' w
  | 0, _ => rfl
  | w + 1, h => by
    have h0 := h 0 (by omega)
    have ih : decode f (off + 1) w = decode g (off' + 1) w := decode_shift (off' + 1) fun k hk => by
      have := h (k + 1) (by omega)
      rwa [show off + 1 + k = off + (k + 1) by omega, show off' + 1 + k = off' + (k + 1) by omega]
    rw [decode, decode, ih]
    simp only [Nat.add_zero] at h0
    rw [h0]

theorem decode_byteOf (v : Nat) : ∀ w off, decode (byteOf v) off w = v / 256 ^ off % 256 ^ w
  | 0, off => by simp [decode, Nat.mod_one]
  | w + 1, off => by
    have hhead : (byteOf v off).toNat = v / 256 ^ off % 256 := by simp [byteOf]
    have htail : v / 256 ^ (off + 1) = v / 256 ^ off / 256 := by rw [pow_succ, ← Nat.div_div_eq_div_mul]
    rw [decode, decode_byteOf v w (off + 1), hhead, htail, pow_succ, Nat.mul_comm (256 ^ w) 256, Nat.mod_mul]

theorem decode_put (f : Nat → UInt8) (off w v : Nat) : decode (put f off w v) off w = v % 256 ^ w := by
  have h0 : v % 256 ^ w = decode (byteOf v) 0 w := by simp [decode_byteOf]
  rw [h0]
  refine decode_shift 0 fun k hk => ?_
  rw [put, splice_of_mem (by omega) (by omega)]
  simp

/-- The bytes of a packed record: the fields, each a width and a value, one after the other, then `rest`. -/
def pack : List (Nat × Nat) → (Nat → UInt8) → Nat → UInt8
  | [], rest => rest
  | (w, v) :: fs, rest => fun k => if k < w then byteOf v k else pack fs rest (k - w)

theorem decode_pack_head {w v : Nat} {fs : List (Nat × Nat)} {rest : Nat → UInt8} :
    decode (pack ((w, v) :: fs) rest) 0 w = v % 256 ^ w := by
  have h0 : v % 256 ^ w = decode (byteOf v) 0 w := by simp [decode_byteOf]
  rw [h0]
  exact decode_congr fun k _ hk => by simp [pack, show k < w by omega]

theorem decode_pack_tail {w v off w' : Nat} {fs : List (Nat × Nat)} {rest : Nat → UInt8} (h : w ≤ off) :
    decode (pack ((w, v) :: fs) rest) off w' = decode (pack fs rest) (off - w) w' :=
  decode_shift (off - w) fun k _ => by
    simp only [pack]
    rw [if_neg (by omega), show off + k - w = off - w + k by omega]

end ByteCodec

def Bytes (n : Nat) : Type := Fin n → UInt8

namespace Bytes
variable {n : Nat}

/-- The byte at `k`; a position past the end reads as zero. -/
def get (b : Bytes n) (k : Nat) : UInt8 := if h : k < n then b ⟨k, h⟩ else 0

/-- The buffer whose byte at `k` is `f k`; what `f` gives past the end is dropped. -/
def make (f : Nat → UInt8) : Bytes n := fun k => f k.val

def zero : Bytes n := fun _ => 0

theorem get_make (f : Nat → UInt8) (k : Nat) : (make f : Bytes n).get k = if k < n then f k else 0 := by
  by_cases h : k < n <;> simp [get, make, h]

@[simp] theorem get_make_of_lt {f : Nat → UInt8} {k : Nat} (h : k < n) : (make f : Bytes n).get k = f k := by
  simp [get_make, h]

@[simp] theorem get_zero (k : Nat) : (zero : Bytes n).get k = 0 := by
  simp [get, zero]

@[ext] theorem ext {a b : Bytes n} (h : ∀ k < n, a.get k = b.get k) : a = b := by
  funext k
  simpa [get, k.isLt] using h k.val k.isLt

end Bytes
