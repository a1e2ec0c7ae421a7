import Limnx.Net
import Limnx.Lib.TableSum

/-! # Internet checksums (`net/net.c`, `net/tcp.c`)

Adding the carries keeps a sum of words modulo 65535, and makes 0 of nothing but 0. -/

namespace Limnx.FrameMem

open Nat Finset Function

def checksumFrom (sum off len : Nat) (m : FrameMem) : U16 :=
  ~~~ BitVec.ofNat 16 (foldSum 3 (m.wordSum off len sum))

/-- A `uint16_t` stored at `a`. -/
def store16 (m : FrameMem) (a : Nat) (w : U16) : FrameMem :=
  update (update m a (UInt8.ofNat w.toNat)) (a + 1) (UInt8.ofNat (w.toNat / 256))

/-- With the checksum over the zeroed field `k` stored in it, the checksum is 0, and no longer 0 when a word changes
    modulo 65535. -/
def Verifies (checksum : FrameMem → U16) (off len k : Nat) (m : FrameMem) : Prop :=
  let zeroed := m.store16 (off + 2 * k) 0
  let stored := zeroed.store16 (off + 2 * k) (checksum zeroed)
  checksum stored = 0 ∧ ∀ j w, 2 * j + 2 ≤ len → w.toNat % 65535 ≠ stored.le16 (off + 2 * j) % 65535 →
    checksum (stored.store16 (off + 2 * j) w) ≠ 0

def total (m : FrameMem) (off len : Nat) : Nat :=
  ∑ j ∈ range (len / 2), m.le16 (off + 2 * j) + if len % 2 = 1 then (m (off + len - 1)).toNat else 0

variable {m : FrameMem} {off len sum : Nat}

theorem le16_le (m : FrameMem) (a : Nat) : m.le16 a ≤ 65535 := by
  have hlow := (m a).toNat_lt
  have hhigh := (m (a + 1)).toNat_lt
  unfold le16
  omega

theorem total_add_two : m.total off (len + 2) = m.le16 off + m.total (off + 2) len := by
  have hshift : ∀ j, off + 2 * (j + 1) = off + 2 + 2 * j := fun j => by omega
  have hlast : off + (len + 2) - 1 = off + 2 + len - 1 := by omega
  simp only [total, add_div_right len (show 0 < 2 by decide), sum_range_succ', add_mod_right, hlast, hshift,
    Nat.mul_zero, Nat.add_zero]
  omega

theorem total_le (m : FrameMem) (off len : Nat) : m.total off len ≤ (len + 1) / 2 * 65535 := by
  have hwords : ∑ j ∈ range (len / 2), m.le16 (off + 2 * j) ≤ len / 2 * 65535 := by
    simpa using sum_le_card_nsmul (range (len / 2)) _ 65535 fun j _ => m.le16_le (off + 2 * j)
  unfold total
  split
  · have hlast := (m (off + len - 1)).toNat_lt
    omega
  · exact hwords.trans (Nat.mul_le_mul_right _ (Nat.div_le_div_right (le_succ len)))

theorem wordSum_eq (h : sum + m.total off len < 2 ^ 32) : m.wordSum off len sum = sum + m.total off len := by
  fun_induction wordSum m off len sum with
  | case1 off len sum ih =>
    rw [total_add_two] at h ⊢
    have hmod : (sum + m.le16 off) % 2 ^ 32 = sum + m.le16 off := mod_eq_of_lt (by omega)
    rw [hmod] at ih ⊢
    rw [ih (by omega), Nat.add_assoc]
  | case2 off sum =>
    simp only [total, reduceDiv, range_zero, sum_empty, reduceMod, if_true] at h ⊢
    rw [Nat.add_sub_cancel] at h ⊢
    omega
  | case3 => simp [total]

theorem le16_store16 (a : Nat) (w : U16) : (m.store16 a w).le16 a = w.toNat := by
  have := w.isLt
  simp only [le16, store16, update_self, update_of_ne (Nat.ne_of_lt (lt_succ_self a)), UInt8.toNat_ofNat']
  omega

theorem total_store16 (off : Nat) {j : Nat} (hj : 2 * j + 2 ≤ len) (w : U16) :
    (m.store16 (off + 2 * j) w).total off len + m.le16 (off + 2 * j) = m.total off len + w.toNat := by
  have hoff (a : Nat) (ha : a < off + 2 * j ∨ off + 2 * j + 1 < a) : m.store16 (off + 2 * j) w a = m a := by
    rw [store16, update_of_ne (by omega), update_of_ne (by omega)]
  have hsame : ∀ i ∈ range (len / 2), i ≠ j →
      (m.store16 (off + 2 * j) w).le16 (off + 2 * i) = m.le16 (off + 2 * i) := fun i _ hi => by
    rw [le16, hoff _ (by omega), hoff _ (by omega), le16]
  have hwords := TableSum.sum_off (mem_range.mpr (show j < len / 2 by omega)) hsame
  rw [le16_store16] at hwords
  unfold total
  split
  · rw [hoff _ (by omega)]
    omega
  · omega

theorem foldSum_spec {n : Nat} (h : n < 2 ^ 32) :
    foldSum 3 n ≤ 65535 ∧ foldSum 3 n % 65535 = n % 65535 ∧ (foldSum 3 n = 0 ↔ n = 0) := by
  simp only [foldSum]
  split
  · omega
  split
  · omega
  split <;> omega

section
variable (hlen : len ≤ 131062) (hsum : sum ≤ 6 * 65535)
include hlen hsum

theorem toNat_checksumFrom (m : FrameMem) :
    (checksumFrom sum off len m).toNat = 65535 - foldSum 3 (sum + m.total off len) := by
  have hle := m.total_le off len
  have hfold := foldSum_spec (n := sum + m.total off len) (by omega)
  rw [checksumFrom, wordSum_eq (by omega), BitVec.toNat_not, BitVec.toNat_ofNat]
  omega

theorem checksumFrom_eq_zero_iff (m : FrameMem) :
    checksumFrom sum off len m = 0 ↔ 0 < sum + m.total off len ∧ (sum + m.total off len) % 65535 = 0 := by
  have hle := m.total_le off len
  have hfold := foldSum_spec (n := sum + m.total off len) (by omega)
  rw [← BitVec.toNat_inj, toNat_checksumFrom hlen hsum, BitVec.ofNat_eq_ofNat, BitVec.toNat_zero]
  omega

theorem verifies_checksumFrom {k : Nat} (hk : 2 * k + 2 ≤ len) (m : FrameMem) :
    Verifies (checksumFrom sum off len) off len k m := by
  unfold Verifies
  intro zeroed stored
  have hzeroed : zeroed.le16 (off + 2 * k) = 0 := le16_store16 _ _
  have hle := zeroed.total_le off len
  have hfold := foldSum_spec (n := sum + zeroed.total off len) (by omega)
  have hstored : stored.total off len + _ = _ := total_store16 off hk (checksumFrom sum off len zeroed)
  rw [hzeroed, toNat_checksumFrom hlen hsum] at hstored
  have hsum0 : (sum + stored.total off len) % 65535 = 0 := by omega
  refine ⟨(checksumFrom_eq_zero_iff hlen hsum _).mpr ⟨by omega, hsum0⟩, fun j w hj hw h => ?_⟩
  have hchanged := total_store16 (m := stored) off hj w
  have hsum1 := ((checksumFrom_eq_zero_iff hlen hsum _).mp h).2
  omega

end

theorem checksums_verify (m : FrameMem) (off : Nat) {len k : Nat} (hlen : len ≤ 131062) (hk : 2 * k + 2 ≤ len)
    (srcIp dstIp : U32) :
    Verifies (fun m => m.ipChecksum off len) off len k m ∧
      Verifies (fun m => m.tcpChecksum srcIp dstIp off len) off len k m := by
  refine ⟨verifies_checksumFrom hlen (Nat.zero_le _) hk m, verifies_checksumFrom hlen ?_ hk m⟩
  simp only [pseudoHeader, List.map_cons, List.map_nil, List.sum_cons, List.sum_nil]
  omega

theorem checksums_verify_odd : Verifies (fun m => m.ipChecksum 0 3) 0 3 0 (fun _ => 0xFF) ∧
    Verifies (fun m => m.tcpChecksum 0x7F000001 0x7F000001 0 3) 0 3 0 fun _ => 0xFF :=
  checksums_verify _ 0 (by decide) (by decide) _ _

end Limnx.FrameMem
