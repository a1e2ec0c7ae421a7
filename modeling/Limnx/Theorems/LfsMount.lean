import Limnx.Theorems.LfsOwnership

/-! Between two syncs the block bitmap on disk stays, while calls that take or give back an inode write the superblock.
    `Persistent` says what the disk holds then. -/

open Bytes Nat List Bitmap

namespace Limnx
open Function ByteCodec Super

attribute [local irreducible] maxInodes

structure Super.Fits (s : Super) : Prop where
  magic : s.magic < 2 ^ 32
  totalBlocks : s.totalBlocks < 2 ^ 32
  totalInodes : s.totalInodes < 2 ^ 32
  blockSize : s.blockSize < 2 ^ 32
  inodeTblStart : s.inodeTblStart < 2 ^ 32
  dataStart : s.dataStart < 2 ^ 32
  freeBlocks : s.freeBlocks < 2 ^ 32
  freeInodes : s.freeInodes < 2 ^ 32

theorem Super.decode_encode {s : Super} (h : s.Fits) : decode s.encode = s := by
  have hget : ∀ off, off + 4 ≤ 32 → ByteCodec.decode s.encode.get off 4 = ByteCodec.decode (pack [(4, s.magic), (4, s.totalBlocks),
      (4, s.totalInodes), (4, s.blockSize), (4, s.inodeTblStart), (4, s.dataStart), (4, s.freeBlocks),
      (4, s.freeInodes)] s.reserved.get) off 4 := fun off hoff =>
    decode_congr fun k _ hk => get_make_of_lt (show k < Limnx.blockSize by simp only [Limnx.blockSize]; omega)
  have hreserved : (make fun k => s.encode.get (32 + k) : Bytes 4064) = s.reserved := by
    refine ext fun k hk => ?_
    rw [get_make_of_lt hk, encode, get_make_of_lt (by simp only [Limnx.blockSize]; omega)]
    simp only [pack]
    repeat rw [if_neg (by omega)]
    congr 1
    omega
  unfold decode
  rw [hreserved, hget 0 (by decide), hget 4 (by decide), hget 8 (by decide), hget 12 (by decide), hget 16 (by decide),
    hget 20 (by decide), hget 24 (by decide), hget 28 (by decide)]
  simp only [decode_pack_tail, decode_pack_head, Nat.le_refl, Nat.sub_self, reduceLeDiff, reduceSub]
  rw [show 256 ^ 4 = 2 ^ 32 from rfl, mod_eq_of_lt h.magic, mod_eq_of_lt h.totalBlocks, mod_eq_of_lt h.totalInodes,
    mod_eq_of_lt h.blockSize, mod_eq_of_lt h.inodeTblStart, mod_eq_of_lt h.dataStart,
    mod_eq_of_lt h.freeBlocks, mod_eq_of_lt h.freeInodes]

section Mount
variable {ρ ω : Bool} {σ : Fs}

theorem exec_loadRows (bytes n i : Nat) (hbytes : (i + n) * blockSize ≤ bytes) :
    ∃ bm, exec ((range' i n).allM fun i => (do
        match ← bcacheRead (1 + i) with
        | none => return false
        | some b =>
          modify fun s => { s with
            blockBitmap := splice s.blockBitmap (i * blockSize) (min blockSize (bytes - i * blockSize)) b.get }
          return true : LfsM ρ ω Bool)) σ = (true, ⟨{ σ.lfs with blockBitmap := bm }, σ.mem⟩) ∧
      (∀ k, k < i * blockSize → bm k = σ.lfs.blockBitmap k) ∧
      ∀ k, i * blockSize ≤ k → k < (i + n) * blockSize → bm k = (σ.mem (1 + k / blockSize)).get (k % blockSize) := by
  induction n generalizing i σ with
  | zero => exact ⟨σ.lfs.blockBitmap, rfl, fun _ _ => rfl, fun k h1 h2 => absurd h2 (Nat.not_lt.mpr h1)⟩
  | succ n ih =>
    rw [range'_succ]
    obtain ⟨bm, he, hlow, hrow⟩ := ih (σ := ⟨{ σ.lfs with
      blockBitmap := splice σ.lfs.blockBitmap (i * blockSize) (min blockSize (bytes - i * blockSize)) (σ.mem (1 + i)).get },
      σ.mem⟩) (i + 1) (by rw [show i + 1 + n = i + (n + 1) by omega]; exact hbytes)
    have hmin : min blockSize (bytes - i * blockSize) = blockSize := by
      simp only [blockSize] at hbytes ⊢
      omega
    refine ⟨bm, he, fun k hk => ?_, fun k h1 h2 => ?_⟩
    · rw [hlow k (hk.trans_le (Nat.mul_le_mul_right _ (le_succ i)))]
      exact splice_of_not_mem (.inl hk)
    · by_cases hk : k < (i + 1) * blockSize
      · rw [hlow k hk]
        show splice _ _ _ _ k = _
        have hdiv : k / blockSize = i := by
          simp only [blockSize] at h1 hk ⊢
          omega
        rw [hmin, splice_of_mem h1 (by simp only [blockSize] at hk ⊢; omega), hdiv]
        congr 1
        simp only [blockSize] at h1 hk ⊢
        omega
      · exact hrow k (Nat.le_of_not_lt hk) (by rw [show i + 1 + n = i + (n + 1) by omega]; exact h2)

theorem exec_mount {sb : Super} (hsb : decode (σ.mem 0) = sb) (hmagic : sb.magic = limnfsMagic) :
    ∃ bm, exec (limnfsMount true : LfsM ρ ω Bool) σ = (true, ⟨{ σ.lfs with
        super := sb
        blockBitmapBytes := bitmapBytes sb.totalBlocks
        blockBitmap := bm
        inodeBitmap := splice σ.lfs.inodeBitmap 0 128 (σ.mem (1 + bitmapRows sb.totalBlocks)).get
        mounted := true }, σ.mem⟩) ∧
      ∀ k, k < bitmapBytes sb.totalBlocks →
        bm k = (σ.mem (1 + k / blockSize)).get (k % blockSize) := by
  obtain ⟨hbytes, -⟩ := bitmapBytes_eq sb.totalBlocks
  unfold limnfsMount
  simp only [exec_read_bind]
  rw [hsb, if_neg (not_not.mpr hmagic)]
  simp only [exec_modify_bind, Bool.not_true, if_neg Bool.false_ne_true, exec_get_bind]
  rw [Lfs.bitmapBlocks_of_bytes (t := sb.totalBlocks) rfl, range_eq_range']
  obtain ⟨bm, he, -, hrow⟩ := exec_loadRows (ρ := ρ) (ω := ω)
    (σ := ⟨{ σ.lfs with super := sb, blockBitmapBytes := bitmapBytes sb.totalBlocks }, σ.mem⟩)
    (bitmapBytes sb.totalBlocks) (bitmapRows sb.totalBlocks) 0 (by rw [Nat.zero_add, ← hbytes])
  refine ⟨bm, ?_, fun k hk => hrow k (by simp) (by rwa [Nat.zero_add, ← hbytes])⟩
  refine (exec_bind_of he _).trans ?_
  simp only [Bool.not_true, if_neg Bool.false_ne_true, exec_read_bind, exec_modify_bind, exec_pure]

end Mount

structure Header (s : Lfs) : Prop where
  magic : s.super.magic = limnfsMagic
  bytes : s.blockBitmapBytes = bitmapBytes s.super.totalBlocks
  bits : s.super.totalBlocks + 7 < 2 ^ 32
  fits : s.super.Fits

structure Persistent (σ : Fs) (bm : Buf) (free : Nat) : Prop where
  sound : FsSound σ
  header : Header σ.lfs
  limit : free < 2 ^ 32
  count : free = ((Finset.Ico σ.lfs.super.dataStart σ.lfs.super.totalBlocks).filter fun b => get bm b = false).card
  super : σ.mem 0 = ({ σ.lfs.super with freeBlocks := free } : Super).encode
  bitmap : ∀ k, k < σ.lfs.blockBitmapBytes → (σ.mem (1 + k / blockSize)).get (k % blockSize) = bm k
  inodes : ∀ k, k < 128 → (σ.mem (1 + σ.lfs.bitmapBlocks)).get k = σ.lfs.inodeBitmap k
  marked : ∀ b, σ.lfs.super.dataStart ≤ b → b < σ.lfs.super.totalBlocks → get σ.lfs.blockBitmap b = true →
    get bm b = true

def Fs.storedFree (σ : Fs) : Nat := (decode (σ.mem 0)).freeBlocks

section Persistent
variable {ρ : Bool} {σ σ' : Fs} {bm : Buf} {free ino : Nat}

theorem Super.Fits.withFree {s : Super} (h : s.Fits) (hfree : free < 2 ^ 32) :
    ({ s with freeBlocks := free } : Super).Fits :=
  { h with freeBlocks := hfree }

theorem Persistent.decode_super (h : Persistent σ bm free) :
    decode (σ.mem 0) = { σ.lfs.super with freeBlocks := free } := by
  rw [h.super, decode_encode (h.header.fits.withFree h.limit)]

theorem Persistent.storedFree (h : Persistent σ bm free) : σ.storedFree = free := by
  rw [Fs.storedFree, h.decode_super]

theorem SameMeta.header {s s' : Lfs} (h : SameMeta s s') (hs : Header s) (hfree : s'.super.freeBlocks < 2 ^ 32) : Header s' := by
  have hsuper := h.super
  have hmagic : s'.super.magic = s.super.magic := by injection hsuper
  have hinodes : s'.super.totalInodes = s.super.totalInodes := by injection hsuper
  have hsize : s'.super.blockSize = s.super.blockSize := by injection hsuper
  have hf := hs.fits
  refine ⟨hmagic.trans hs.magic, ?_, ?_, ⟨?_, ?_, ?_, ?_, ?_, ?_, hfree, ?_⟩⟩
  · rw [h.bitmapBytes, hs.bytes, h.totalBlocks]
  · rw [h.totalBlocks]
    exact hs.bits
  · rw [hmagic]
    exact hf.magic
  · rw [h.totalBlocks]
    exact hf.totalBlocks
  · rw [hinodes]
    exact hf.totalInodes
  · rw [hsize]
    exact hf.blockSize
  · rw [h.inodeTblStart]
    exact hf.inodeTblStart
  · rw [h.dataStart]
    exact hf.dataStart
  · rw [h.freeInodes]
    exact hf.freeInodes

theorem Header.row_lt {s : Lfs} {k : Nat} (h : Header s) (hk : k < s.blockBitmapBytes) : k / blockSize < s.bitmapBlocks := by
  obtain ⟨heq, -⟩ := bitmapBytes_eq s.super.totalBlocks
  rwa [Lfs.bitmapBlocks_of_bytes h.bytes, Nat.div_lt_iff_lt_mul (by decide), ← heq, ← h.bytes]

theorem FsSound.freeBlocks_lt (hs : FsSound σ) : σ.lfs.super.freeBlocks < 2 ^ 32 := by
  have := hs.owns.free
  have := hs.owns.small
  omega

theorem Persistent.keep (h : Persistent σ bm free) (hs : FsSound σ') (hsame : SameMeta σ.lfs σ'.lfs)
    (hmem : ∀ x, x < σ.lfs.super.inodeTblStart → σ'.mem x = σ.mem x)
    (hbits : ∀ b, σ.lfs.super.dataStart ≤ b → b < σ.lfs.super.totalBlocks → get σ'.lfs.blockBitmap b →
      get σ.lfs.blockBitmap b) : Persistent σ' bm free := by
  have htable := h.sound.owns.table
  refine ⟨hs, hsame.header h.header hs.freeBlocks_lt, h.limit, ?_, ?_, fun k hk => ?_, fun k hk => ?_,
    fun b h1 h2 hb => ?_⟩
  · rw [hsame.dataStart, hsame.totalBlocks]
    exact h.count
  · rw [hmem 0 (by omega), h.super]
    have hsuper : ({ σ'.lfs.super with freeBlocks := free } : Super) = { σ.lfs.super with freeBlocks := free } :=
      congrArg (fun s : Super => { s with freeBlocks := free }) hsame.super
    rw [hsuper]
  · rw [hsame.bitmapBytes] at hk
    have hrow := h.header.row_lt hk
    rw [hmem _ (by omega)]
    exact h.bitmap k hk
  · rw [hsame.bitmapBlocks, hsame.inodeBitmap, hmem _ (by omega)]
    exact h.inodes k hk
  · rw [hsame.dataStart] at h1
    rw [hsame.totalBlocks] at h2
    exact h.marked b h1 h2 (hbits b h1 h2 hb)

theorem Fs.flushed_super (σ : Fs) : σ.flushed.mem 0 = σ.lfs.super.encode := by
  simp only [Fs.flushed, update_self]

theorem Fs.flushed_row {row : Nat} (hrow : row < σ.lfs.bitmapBlocks) : σ.flushed.mem (1 + row) = σ.mem (1 + row) := by
  simp only [Fs.flushed]
  rw [update_of_ne (by omega), update_of_ne (by omega)]

theorem Fs.flushed_inodes {k : Nat} (hk : k < 128) : (σ.flushed.mem (1 + σ.lfs.bitmapBlocks)).get k = σ.lfs.inodeBitmap k := by
  simp only [Fs.flushed]
  rw [update_of_ne (by omega), update_self, get_make_of_lt (by simp only [blockSize]; omega), if_pos hk]

theorem Persistent.flush {bits : Buf} {n : Nat} {τ : Fs} (h : Persistent σ bm free)
    (hfree : σ.lfs.super.freeBlocks = free) (hn : n < 2 ^ 32) (hs : FsSound τ)
    (hτ : τ = ⟨{ σ.lfs with inodeBitmap := bits, super := { σ.lfs.super with freeInodes := n } }, σ.mem⟩) :
    Persistent τ.flushed bm free := by
  subst hτ
  refine ⟨hs.flushed, { h.header with fits := { h.header.fits with freeInodes := hn } }, h.limit, h.count, ?_,
    fun k hk => ?_, fun k hk => ?_, h.marked⟩
  · have hsuper : ({ ({ σ.lfs.super with freeInodes := n } : Super) with freeBlocks := free } : Super) =
        { σ.lfs.super with freeInodes := n } := by rw [← hfree]
    exact congrArg encode hsuper.symm
  · rw [Fs.flushed_row (σ := ⟨{ σ.lfs with inodeBitmap := bits, super := _ }, σ.mem⟩) (h.header.row_lt hk)]
    exact h.bitmap k hk
  · exact Fs.flushed_inodes hk

end Persistent

end Limnx
