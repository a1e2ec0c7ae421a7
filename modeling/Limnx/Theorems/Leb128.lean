import Mathlib.Data.Nat.Bitwise
import Mathlib.Tactic.Ring
import Limnx.Wasm

/-! # LEB128 immediates

Every byte gives seven bits, the lowest first. The bits of the last one are a number or, in a signed encoding, two's
complement. -/

namespace Limnx.Wasm

open Nat List

inductive Leb128 (last : UInt8 → Int) : Int → List UInt8 → Prop
  | last (b : UInt8) : b.toNat < 128 → Leb128 last (last b) [b]
  | more (b : UInt8) {n : Int} {bs : List UInt8} : 128 ≤ b.toNat → Leb128 last n bs →
      Leb128 last (b.toNat - 128 + 128 * n) (b :: bs)

/-- A number in unsigned LEB128. -/
abbrev Unsigned : Int → List UInt8 → Prop := Leb128 fun b => b.toNat

/-- A number in signed LEB128. -/
abbrev Signed : Int → List UInt8 → Prop := Leb128 fun b => if b.toNat < 64 then b.toNat else b.toNat - 128

section
variable {b : UInt8} {bs rest : List UInt8} {n : Int} {a c s : Nat}

theorem Leb128.length_pos {last : UInt8 → Int} (h : Leb128 last n bs) : 0 < bs.length := by
  cases h <;> simp

theorem and_bit (b : UInt8) {i : Nat} (hi : i < 8) : b &&& UInt8.ofNat (2 ^ i) = 0 ↔ b.toNat / 2 ^ i % 2 = 0 := by
  rw [← UInt8.toNat_inj, UInt8.toNat_and, UInt8.toNat_ofNat', mod_eq_of_lt (Nat.pow_lt_pow_right (by decide) hi),
    and_two_pow, testBit_eq_decide_div_mod_eq]
  simp

theorem or_shiftLeft (ha : a < 2 ^ s) :
    BitVec.ofNat 32 a ||| BitVec.ofNat 32 c <<< s = BitVec.ofNat 32 (a + c * 2 ^ s) := by
  refine BitVec.eq_of_toNat_eq ?_
  rw [BitVec.toNat_or, BitVec.toNat_shiftLeft, BitVec.toNat_ofNat, BitVec.toNat_ofNat, BitVec.toNat_ofNat,
    shiftLeft_eq, mod_mul_mod, ← or_mod_two_pow, ← shiftLeft_eq, Nat.or_comm,
    ← shiftLeft_add_eq_or_of_lt ha, Nat.add_comm]

theorem or_neg_shiftLeft (ha : a < 2 ^ s) :
    BitVec.ofNat 32 a ||| -((1 : BitVec 32) <<< s) = BitVec.ofInt 32 (a - 2 ^ s) := by
  have hneg : -((1 : BitVec 32) <<< s) = BitVec.ofNat 32 (2 ^ 32 - 1) <<< s := by
    rw [BitVec.shiftLeft_eq_mul_twoPow, BitVec.shiftLeft_eq_mul_twoPow, ← BitVec.neg_mul]
    rfl
  have hpow : ((2 ^ s : Nat) : Int) = 2 ^ s := cast_pow 2 s
  rw [hneg, or_shiftLeft ha]
  refine BitVec.eq_of_toNat_eq ?_
  rw [BitVec.toNat_ofNat, BitVec.toNat_ofInt]
  omega

theorem ofInt_sub_two_pow (hs : 32 ≤ s) : BitVec.ofInt 32 (a - 2 ^ s) = BitVec.ofNat 32 a := by
  obtain ⟨k, rfl⟩ := Nat.exists_eq_add_of_le hs
  refine BitVec.eq_of_toNat_eq ?_
  rw [BitVec.toNat_ofNat, BitVec.toNat_ofInt, pow_add]
  omega

theorem or_payload (ha : a < 2 ^ s) : BitVec.ofNat 32 a ||| (b &&& 0x7f).toBitVec.setWidth 32 <<< s =
    BitVec.ofNat 32 (a + b.toNat % 128 * 2 ^ s) := by
  have hpayload : (b &&& 0x7f).toBitVec.setWidth 32 = BitVec.ofNat 32 (b.toNat % 128) := by
    refine BitVec.eq_of_toNat_eq ?_
    rw [BitVec.toNat_setWidth, UInt8.toNat_toBitVec, UInt8.toNat_and, BitVec.toNat_ofNat]
    exact congrArg (· % 2 ^ 32) (and_two_pow_sub_one_eq_mod b.toNat 7)
  rw [hpayload, or_shiftLeft ha]

theorem payload_lt (ha : a < 2 ^ s) : a + b.toNat % 128 * 2 ^ s < 2 ^ (s + 7) := by
  have hmod : b.toNat % 128 ≤ 127 := by omega
  have := Nat.mul_le_mul_right (2 ^ s) hmod
  rw [Nat.pow_add]
  omega

theorem value_more (hb : 128 ≤ b.toNat) :
    ((a + b.toNat % 128 * 2 ^ s : Nat) + n * 2 ^ (s + 7) : Int) = a + (b.toNat - 128 + 128 * n) * 2 ^ s := by
  have hmod : ((b.toNat % 128 : Nat) : Int) = b.toNat - 128 := by
    have := b.toNat_lt
    omega
  push_cast at hmod ⊢
  rw [hmod, pow_add]
  ring

theorem continues (hb : 128 ≤ b.toNat) : b &&& 0x80 ≠ 0 := fun h0 => by
  have := (and_bit b (i := 7) (by decide)).mp h0
  have := b.toNat_lt
  omega

theorem readU32Loop_unsigned (h : Unsigned n bs) (ha : a < 2 ^ s) (hs : s + 7 * bs.length ≤ 35) :
    readU32Loop (BitVec.ofNat 32 a) s (bs ++ rest) = some (BitVec.ofInt 32 (a + n * 2 ^ s), rest) := by
  induction h generalizing a s with
  | last b hb =>
    have hstop : b &&& 0x80 = 0 := (and_bit b (i := 7) (by decide)).mpr (by omega)
    rw [singleton_append, readU32Loop, or_payload ha, if_pos (.inl hstop), mod_eq_of_lt hb, ← BitVec.ofInt_natCast]
    push_cast
    rfl
  | more b hb hbs ih =>
    have hlen := hbs.length_pos
    rw [length_cons] at hs
    rw [cons_append, readU32Loop, or_payload ha, if_neg (by simp only [continues hb, false_or]; omega),
      ih (payload_lt ha) (by omega), value_more hb]

theorem readS32Loop_signed (h : Signed n bs) (ha : a < 2 ^ s) (hs : s + 7 * bs.length ≤ 35) :
    readS32Loop (BitVec.ofNat 32 a) s (bs ++ rest) = some (BitVec.ofInt 32 (a + n * 2 ^ s), rest) := by
  induction h generalizing a s with
  | last b hb =>
    have hstop : b &&& 0x80 = 0 := (and_bit b (i := 7) (by decide)).mpr (by omega)
    have hsign : b &&& 0x40 ≠ 0 ↔ ¬ b.toNat < 64 := (and_bit b (i := 6) (by decide)).not.trans (by omega)
    rw [length_singleton] at hs
    rw [singleton_append, readS32Loop, mod_eq_of_lt (by omega), or_payload ha, if_neg (not_not.mpr hstop)]
    have hlt := payload_lt (b := b) ha
    rw [mod_eq_of_lt hb] at hlt ⊢
    by_cases h64 : b.toNat < 64
    · rw [if_neg (by simp [hsign, h64]), if_pos h64, ← BitVec.ofInt_natCast]
      push_cast
      rfl
    have hvalue : ((a + b.toNat * 2 ^ s : Nat) - 2 ^ (s + 7) : Int) = a + (b.toNat - 128) * 2 ^ s := by
      push_cast [pow_add]
      ring
    rw [if_neg h64, ← hvalue]
    split
    · rw [or_neg_shiftLeft hlt]
    · rw [ofInt_sub_two_pow (by simp_all)]
  | more b hb hbs ih =>
    have hlen := hbs.length_pos
    rw [length_cons] at hs
    rw [cons_append, readS32Loop, mod_eq_of_lt (by omega), or_payload ha, if_pos (continues hb),
      ih (payload_lt ha) (by omega), value_more hb]

section
variable {n : BitVec 32} (hlen : bs.length ≤ 5) (rest : List UInt8)
include hlen

theorem Leb128.unsigned (h : Unsigned n.toNat bs) : readU32Leb128 (bs ++ rest) = some (n, rest) :=
  (readU32Loop_unsigned (a := 0) (s := 0) h (by decide) (by omega)).trans (by simp)

theorem Leb128.signed (h : Signed n.toInt bs) : readS32Leb128 (bs ++ rest) = some (n, rest) :=
  (readS32Loop_signed (a := 0) (s := 0) h (by decide) (by omega)).trans (by simp)

/-- Both readers invert every encoding of at most five bytes, padded or not. -/
theorem leb128_decodes (n : BitVec 32) :
    (Unsigned n.toNat bs → readU32Leb128 (bs ++ rest) = some (n, rest)) ∧
      (Signed n.toInt bs → readS32Leb128 (bs ++ rest) = some (n, rest)) :=
  ⟨Leb128.unsigned hlen rest, Leb128.signed hlen rest⟩

end

theorem leb128_decodes_padded : readU32Leb128 [0x85, 0x80, 0x00, 9] = some (5, [9]) ∧
    readS32Leb128 [0xfe, 0x7f, 9] = some (-2, [9]) := by
  have hfive : Unsigned 5 [0x85, 0x80, 0x00] := .more 0x85 (by decide) (.more 0x80 (by decide) (.last 0 (by decide)))
  have htwo : Signed (-2 : BitVec 32).toInt [0xfe, 0x7f] := by
    rw [show (-2 : BitVec 32).toInt = (0xfe : UInt8).toNat - 128 + 128 * -1 by decide]
    exact .more 0xfe (by decide) (.last 0x7f (by decide))
  exact ⟨(leb128_decodes (by decide) [9] 5).1 hfive, (leb128_decodes (by decide) [9] (-2)).2 htwo⟩

end

end Limnx.Wasm
