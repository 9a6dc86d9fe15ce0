import Mathlib.Data.Nat.Bitwise
import Mathlib.Tactic.Common

/-!
# Inode times

A time takes two 32-bit fields of the inode: the low half of the seconds,
and a field with the nanoseconds above two epoch bits. Sign extension of the
low half is undone by the epoch, except that the decoder keeps reading the
epoch 3 of old kernels, which wrote it for times before 1970.
-/

namespace Ext4.Inode

structure Timespec where
  tvSec : Int
  tvNsec : Nat
deriving DecidableEq, Repr

def epochBits : Nat := 2

def epochMask : Nat := 1 <<< epochBits - 1

/-- `(s32)sec`. -/
def toS32 (sec : Int) : Int := (sec + 2 ^ 31) % 2 ^ 32 - 2 ^ 31

/-- `cpu_to_le32(tv_sec)`, as `EXT4_INODE_SET_XTIME` writes it. -/
def encodeSec (time : Timespec) : Nat := (time.tvSec % 2 ^ 32).toNat

/-- `ext4_encode_extra_time`, with a `tv_sec` of 64 bits. -/
def ext4EncodeExtraTime (time : Timespec) : Nat :=
  let extra := ((time.tvSec - toS32 time.tvSec) / 2 ^ 32 % 2 ^ 32).toNat &&& epochMask
  (extra ||| time.tvNsec <<< epochBits) % 2 ^ 32

/-- `ext4_decode_extra_time`, on the time that holds the sign-extended
seconds. -/
def ext4DecodeExtraTime (sec : Int) (extra : Nat) : Timespec :=
  let extraBits := extra &&& epochMask
  -- the legacy encoding of the times before 1970; bit 31 is the sign here
  let extraBits := if extraBits = 3 ∧ sec / 2 ^ 31 % 2 ≠ 0 then 0 else extraBits
  ⟨sec + (extraBits <<< 32 : Nat), extra >>> epochBits⟩

/-- `EXT4_INODE_GET_XTIME` after `EXT4_INODE_SET_XTIME`. -/
def storeAndLoad (time : Timespec) : Timespec :=
  ext4DecodeExtraTime (toS32 (encodeSec time)) (ext4EncodeExtraTime time)

/-- What the comment in front of the functions documents. -/
def Documented (time : Timespec) : Prop :=
  -0x80000000 ≤ time.tvSec ∧ time.tvSec ≤ 0x37fffffff ∧ time.tvNsec < 10 ^ 9

instance : DecidablePred Documented := fun _ => inferInstanceAs (Decidable (_ ∧ _))

theorem extraTime_eq {time : Timespec} (h : Documented time) :
    ext4EncodeExtraTime time
      = time.tvNsec * 4 + ((time.tvSec - toS32 time.tvSec) / 2 ^ 32).toNat := by
  obtain ⟨hlo, hhi, hns⟩ := h
  have hepoch : ((time.tvSec - toS32 time.tvSec) / 2 ^ 32).toNat < 2 ^ 2 := by
    unfold toS32
    omega
  have hmod : (time.tvSec - toS32 time.tvSec) / 2 ^ 32 % 2 ^ 32
      = (time.tvSec - toS32 time.tvSec) / 2 ^ 32 := by
    unfold toS32
    omega
  have hmask : epochMask = 2 ^ 2 - 1 := rfl
  rw [ext4EncodeExtraTime, hmod, hmask, Nat.and_two_pow_sub_one_eq_mod, Nat.mod_eq_of_lt hepoch,
    Nat.or_comm, epochBits, ← Nat.shiftLeft_add_eq_or_of_lt hepoch, Nat.shiftLeft_eq,
    Nat.mod_eq_of_lt (by omega)]

/-- **A documented time survives** being written and read, unless it is of
the half epoch that shares its encoding with the times before 1970 of old
kernels. -/
theorem storeAndLoad_documented (time : Timespec) (h : Documented time)
    (hlegacy : ¬ (0x280000000 ≤ time.tvSec ∧ time.tvSec ≤ 0x2ffffffff)) :
    storeAndLoad time = time := by
  obtain ⟨sec, nsec⟩ := time
  rw [storeAndLoad, extraTime_eq h, ext4DecodeExtraTime, encodeSec]
  obtain ⟨hlo, hhi, hns⟩ := h
  dsimp only at hlo hhi hns hlegacy ⊢
  have hlow : toS32 ((sec % 2 ^ 32).toNat : Int) = toS32 sec := by
    unfold toS32
    omega
  generalize hepoch : ((sec - toS32 sec) / 2 ^ 32).toNat = epoch
  have hsec : sec = toS32 sec + epoch * 2 ^ 32 ∧ epoch < 4 := by
    unfold toS32 at *
    omega
  have hmask : (nsec * 4 + epoch) &&& epochMask = epoch := by
    rw [show epochMask = 2 ^ 2 - 1 from rfl, Nat.and_two_pow_sub_one_eq_mod]
    omega
  have hsign : ¬ (epoch = 3 ∧ toS32 sec / 2 ^ 31 % 2 ≠ 0) := by
    unfold toS32 at *
    omega
  rw [hlow, hmask, if_neg hsign, Nat.shiftLeft_eq, Nat.shiftRight_eq_div_pow, epochBits]
  exact Timespec.mk.injEq .. ▸ ⟨by omega, by omega⟩

/-- The last second of the documented range. -/
theorem storeAndLoad_documented_last :
    storeAndLoad ⟨0x37fffffff, 999999999⟩ = ⟨0x37fffffff, 999999999⟩ :=
  storeAndLoad_documented _ (by decide) (by decide)

/-- A second of the year 2310 comes back as one of the year 1901. -/
theorem storeAndLoad_legacy :
    Documented ⟨0x280000000, 0⟩ ∧ storeAndLoad ⟨0x280000000, 0⟩ = ⟨-0x80000000, 0⟩ := by
  decide

/-- **What is read is written back**, but for the epoch of old kernels. -/
theorem loadAndStore (sec extra : BitVec 32) :
    encodeSec (ext4DecodeExtraTime (toS32 sec.toNat) extra.toNat) = sec.toNat ∧
      (ext4EncodeExtraTime (ext4DecodeExtraTime (toS32 sec.toNat) extra.toNat) = extra.toNat
        ∨ extra.toNat % 4 = 3 ∧ 2 ^ 31 ≤ sec.toNat) := by
  have hmask : ∀ n, n &&& epochMask = n % 4 := fun n => Nat.and_two_pow_sub_one_eq_mod n 2
  have hor : ∀ m n, m % 4 ||| n * 2 ^ 2 = n * 2 ^ 2 + m % 4 := fun m n => by
    rw [← Nat.shiftLeft_eq, Nat.or_comm, Nat.shiftLeft_add_eq_or_of_lt (Nat.mod_lt m (by decide))]
  simp only [ext4DecodeExtraTime, ext4EncodeExtraTime, encodeSec, toS32, epochBits, hmask, hor,
    Nat.shiftLeft_eq, Nat.shiftRight_eq_div_pow]
  split
  · exact ⟨by omega, .inr (by omega)⟩
  · exact ⟨by omega, .inl (by omega)⟩

end Ext4.Inode
