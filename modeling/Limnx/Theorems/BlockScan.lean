import Limnx.Theorems.Leb128

/-! # The ends of blocks -/

namespace Limnx.Wasm

open List Option

/-- The supported opcodes without an immediate. -/
def opsPlain : List UInt8 :=
  [0x00, 0x01, 0x0f, 0x1a, 0x45, 0x46, 0x47, 0x48, 0x4a, 0x4c, 0x4e, 0x6a, 0x6b, 0x6c, 0x6d, 0x6f, 0x71, 0x72]

/-- The type of a block: nothing or an `i32`. -/
def blockTypes : List UInt8 := [0x40, 0x7f]

/-- A sequence of instructions. -/
inductive Code : List UInt8 → Prop
  | nil : Code []
  | plain {op : UInt8} {next : List UInt8} : op ∈ opsPlain → Code next → Code (op :: next)
  | index {op : UInt8} {n : BitVec 32} {imm next : List UInt8} : op ∈ opsIndex → Unsigned n.toNat imm →
      imm.length ≤ 5 → Code next → Code (op :: (imm ++ next))
  | const {n : BitVec 32} {imm next : List UInt8} : Signed n.toInt imm → imm.length ≤ 5 → Code next →
      Code (opI32Const :: (imm ++ next))
  | block {op type : UInt8} {body next : List UInt8} : op ∈ opsBlock → type ∈ blockTypes → Code body → Code next →
      Code (op :: type :: (body ++ opEnd :: next))
  | ifElse {type : UInt8} {yes no next : List UInt8} : type ∈ blockTypes → Code yes → Code no → Code next →
      Code (0x04 :: type :: (yes ++ opElse :: (no ++ opEnd :: next)))

/-- From depth `d + 1` on the scanner passes `code`, in at most as many rounds as it has bytes. -/
def Passes (stops : Bool) (after d : Nat) (code : List UInt8) : Prop :=
  ∃ k ≤ code.length, ∀ fuel depth next, after ≤ next.length →
    scanLoop stops after (fuel + k) (depth + d + 1) (code ++ next) = scanLoop stops after fuel (depth + d + 1) next

section
variable {stops : Bool} {after d fuel depth : Nat} {op : UInt8} {code code' imm pc rest : List UInt8}

theorem scanLoop_instr {depth' : Nat} {pc' : List UInt8} (hend : op ≠ opEnd) (helse : stops → op = opElse → depth ≠ 0)
    (hafter : after ≤ pc.length) (hskip : skipInstr op (depth + 1) pc = some (depth', pc')) :
    scanLoop stops after (fuel + 1) (depth + 1) (op :: pc) = scanLoop stops after fuel depth' pc' := by
  rw [scanLoop, if_neg (by simp; omega)]
  simp only [head?_cons, tail_cons, bind_eq_bind, bind_some, hskip]
  rw [if_neg fun h => helse h.1 h.2.1 (by omega), if_neg hend]

theorem scanLoop_end (hafter : after ≤ pc.length) :
    scanLoop stops after (fuel + 1) (depth + 1) (opEnd :: pc) = scanLoop stops after fuel depth pc := by
  rw [scanLoop, if_neg (by simp; omega)]
  simp [opElse, opEnd]

theorem Passes.append (h : Passes stops after d code) (h' : Passes stops after d code') :
    Passes stops after d (code ++ code') := by
  obtain ⟨k, hk, h⟩ := h
  obtain ⟨k', hk', h'⟩ := h'
  refine ⟨k' + k, by rw [length_append]; omega, fun fuel depth next hnext => ?_⟩
  rw [← Nat.add_assoc, append_assoc, h _ _ _ (by simp; omega), h' _ _ _ hnext]

theorem Passes.inner (h : Passes stops after 0 code) : Passes stops after 1 code := by
  obtain ⟨k, hk, h⟩ := h
  exact ⟨k, hk, fun fuel depth => h fuel (depth + 1)⟩

theorem passes_instr (hop : op ≠ opElse ∧ op ≠ opEnd)
    (hskip : ∀ depth next, skipInstr op depth (imm ++ next) = some (depth, next)) : Passes stops after 0 (op :: imm) := by
  refine ⟨1, by simp, fun fuel depth next hnext => ?_⟩
  exact scanLoop_instr hop.2 (fun _ he => absurd he hop.1) (by simp; omega) (hskip _ next)

theorem passes_else (h : stops → d ≠ 0) : Passes stops after d [opElse] := by
  refine ⟨1, by simp, fun fuel depth next hnext => ?_⟩
  exact scanLoop_instr (by decide) (fun hs _ => by have := h hs; omega) hnext rfl

theorem Passes.nested {type : UInt8} (hop : op ∈ opsBlock) (h : Passes stops after 1 code) :
    Passes stops after 0 (op :: type :: (code ++ [opEnd])) := by
  obtain ⟨k, hk, h⟩ := h
  refine ⟨k + 2, by simp; omega, fun fuel depth next hnext => ?_⟩
  have hops : ∀ op ∈ opsBlock, op ≠ opElse ∧ op ≠ opEnd := by decide +kernel
  have hskip : skipInstr op (depth + 1) (type :: (code ++ opEnd :: next)) = some (depth + 2, code ++ opEnd :: next) := by
    simp [skipInstr, hop]
  have hfuel : fuel + (k + 2) = fuel + 1 + k + 1 := by omega
  rw [hfuel, cons_append, cons_append, append_assoc, singleton_append,
    scanLoop_instr (hops op hop).2 (fun _ he => absurd he (hops op hop).1) (by simp; omega) hskip, h _ _ _ (by simp; omega),
    scanLoop_end hnext]

theorem Code.passes (h : Code code) : Passes stops after 0 code := by
  induction h with
  | nil => exact ⟨0, Nat.le_refl _, fun _ _ _ _ => rfl⟩
  | plain hop _ ih =>
    have hops : ∀ op ∈ opsPlain, (op ≠ opElse ∧ op ≠ opEnd) ∧ op ∉ opsBlock ∧ op ∉ opsIndex ∧ op ≠ opI32Const := by decide +kernel
    obtain ⟨hop, hblock, hindex, hconst⟩ := hops _ hop
    have hone : Passes stops after 0 [_] := passes_instr hop fun _ _ => by simp [skipInstr, hblock, hindex, hconst]
    exact hone.append ih
  | index hop himm hlen _ ih =>
    have hops : ∀ op ∈ opsIndex, (op ≠ opElse ∧ op ≠ opEnd) ∧ op ∉ opsBlock := by decide +kernel
    refine (passes_instr (hops _ hop).1 fun _ next => ?_).append ih
    simp [skipInstr, (hops _ hop).2, hop, Leb128.unsigned hlen next himm]
  | const himm hlen _ ih =>
    refine (passes_instr (by decide) fun _ next => ?_).append ih
    simp [skipInstr, opI32Const, opsBlock, opsIndex, Leb128.signed hlen next himm]
  | block hop _ _ _ ihBody ihNext => simpa using (ihBody.inner.nested hop).append ihNext
  | ifElse _ _ _ _ ihYes ihNo ihNext =>
    have hop : (0x04 : UInt8) ∈ opsBlock := by decide
    simpa using (((ihYes.inner.append (passes_else fun _ => by decide)).append ihNo.inner).nested hop).append ihNext

theorem Passes.start (h : Passes stops after 0 code) (hafter : after ≤ rest.length) (op : UInt8) :
    ∃ fuel, scanLoop stops after ((code ++ op :: rest).length + 1) 1 (code ++ op :: rest) =
      scanLoop stops after (fuel + 2) 1 (op :: rest) := by
  obtain ⟨k, hk, h⟩ := h
  have hfuel : (code ++ op :: rest).length + 1 = code.length - k + rest.length + 2 + k := by
    simp
    omega
  exact ⟨_, by rw [hfuel, h _ 0 _ (by simp; omega)]⟩

theorem Passes.finds_end (h : Passes stops after 0 code) (hafter : after ≤ rest.length) :
    scanLoop stops after ((code ++ opEnd :: rest).length + 1) 1 (code ++ opEnd :: rest) = some (rest, false) := by
  obtain ⟨fuel, hfuel⟩ := h.start hafter opEnd
  rw [hfuel, scanLoop_end hafter]
  simp [scanLoop]

end

/-- Both scanners find the `end`, or the `else`, of the block that they start in. -/
theorem scanners_find_end {body no rest : List UInt8} {after : Nat} (hbody : Code body) (hno : Code no)
    (hafter : after ≤ rest.length) :
    skipBlockToEnd (body ++ opEnd :: rest) after = some rest ∧
      skipToEndOrElse (body ++ opEnd :: rest) after = some (rest, false) ∧
      skipBlockToEnd (body ++ opElse :: (no ++ opEnd :: rest)) after = some rest ∧
      skipToEndOrElse (body ++ opElse :: (no ++ opEnd :: rest)) after = some (no ++ opEnd :: rest, true) := by
  refine ⟨?_, hbody.passes.finds_end hafter, ?_, ?_⟩
  · rw [skipBlockToEnd, hbody.passes.finds_end hafter, map_some]
  · have hall : Passes false after 0 (body ++ [opElse] ++ no) :=
      (hbody.passes.append (passes_else (by decide))).append hno.passes
    have hend := hall.finds_end hafter
    rw [append_assoc, append_assoc, singleton_append] at hend
    rw [skipBlockToEnd, hend, map_some]
  · have hrest : after ≤ (no ++ opEnd :: rest).length := by simp; omega
    obtain ⟨fuel, hfuel⟩ := hbody.passes.start hrest opElse
    rw [skipToEndOrElse, hfuel, scanLoop, if_neg (by simp; omega)]
    simp

theorem scanners_find_end_const :
    skipToEndOrElse [0x41, 0x8b, 0x00, 0x05, 0x01, 0x0b, 7] 0 = some ([0x01, 0x0b, 7], true) := by
  have hbody : Code [0x41, 0x8b, 0x00] :=
    .const (n := 11) (.more 0x8b (by decide) (.last 0 (by decide))) (by decide) .nil
  have hno : Code [0x01] := .plain (by decide) .nil
  exact (scanners_find_end hbody hno (Nat.zero_le [7].length)).2.2.2

end Limnx.Wasm
