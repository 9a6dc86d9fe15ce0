import Mathlib.Data.BitVec
import Mathlib.Tactic.IntervalCases

/-!
# Extent status — the packed entry

`struct extent_status` (extents_status.h): a logical range and a 64-bit
`es_pblk` whose upper five bits hold the status and whose lower 59 bits
hold the physical block. The accessors below are the header's, bit for
bit; the lemmas after them replace the masks by single bits and by
arithmetic modulo `2 ^ 59`, and nothing later unfolds a mask again.
-/

namespace Ext4.ExtentsStatus

/-- `ext4_fsblk_t`. -/
abbrev Fsblk := BitVec 64

/-- `struct extent_status`. `addr` is the address of the node: two nodes
with the same contents are different entries of the tree. -/
structure ExtentStatus where
  addr : Nat
  esLblk : Nat
  esLen : Nat
  esPblk : Fsblk
deriving DecidableEq, Repr

/-- `ES_SHIFT`: 64 bits less the five flags. -/
def esShift : Nat := 59

/-- `ES_MASK`. -/
def esMask : Fsblk := BitVec.allOnes 64 <<< esShift

def extentStatusWritten : BitVec 64 := 1#64
def extentStatusUnwritten : BitVec 64 := 2#64
def extentStatusDelayed : BitVec 64 := 4#64
def extentStatusHole : BitVec 64 := 8#64
def extentStatusReferenced : BitVec 64 := 16#64

/-- `ES_TYPE_MASK`. -/
def esTypeMask : Fsblk :=
  (extentStatusWritten ||| extentStatusUnwritten ||| extentStatusDelayed
    ||| extentStatusHole) <<< esShift

/-- `EXT_MAX_BLOCKS` (ext4.h): the maximum number of logical blocks in a
file. -/
def extMaxBlocks : Nat := 0xffffffff

def ext4EsStatus (es : ExtentStatus) : BitVec 64 := es.esPblk >>> esShift

def ext4EsType (es : ExtentStatus) : BitVec 64 := (es.esPblk &&& esTypeMask) >>> esShift

def ext4EsIsWritten (es : ExtentStatus) : Bool :=
  ext4EsType es &&& extentStatusWritten != 0#64

def ext4EsIsUnwritten (es : ExtentStatus) : Bool :=
  ext4EsType es &&& extentStatusUnwritten != 0#64

def ext4EsIsDelayed (es : ExtentStatus) : Bool :=
  ext4EsType es &&& extentStatusDelayed != 0#64

def ext4EsIsHole (es : ExtentStatus) : Bool :=
  ext4EsType es &&& extentStatusHole != 0#64

def ext4EsIsReferenced (es : ExtentStatus) : Bool :=
  ext4EsStatus es &&& extentStatusReferenced != 0#64

def ext4EsSetReferenced (es : ExtentStatus) : ExtentStatus :=
  { es with esPblk := es.esPblk ||| (extentStatusReferenced <<< esShift) }

def ext4EsClearReferenced (es : ExtentStatus) : ExtentStatus :=
  { es with esPblk := es.esPblk &&& ~~~(extentStatusReferenced <<< esShift) }

def ext4EsPblock (es : ExtentStatus) : Fsblk := es.esPblk &&& ~~~esMask

def ext4EsStorePblock (es : ExtentStatus) (pb : Fsblk) : ExtentStatus :=
  { es with esPblk := (pb &&& ~~~esMask) ||| (es.esPblk &&& esMask) }

def ext4EsStorePblockStatus (es : ExtentStatus) (pb : Fsblk) (status : BitVec 64) :
    ExtentStatus :=
  { es with esPblk := ((status <<< esShift) &&& esMask) ||| (pb &&& ~~~esMask) }

/-- `ext4_es_end`: the last logical block. The kernel stops in its
`BUG_ON` when the sum wraps; the model reads on, which only adds runs. -/
def ext4EsEnd (es : ExtentStatus) : Nat := es.esLblk + es.esLen - 1

/-- `in_range` (ext4.h). -/
def inRange (b first len : Nat) : Bool := decide (first ≤ b ∧ b ≤ first + len - 1)

/-! ## The masks as single bits -/

@[simp] theorem esMask_bit (i : Nat) (hi : i < 64) : esMask.getLsbD i = decide (59 ≤ i) := by
  simp only [esMask, esShift, BitVec.getLsbD_shiftLeft, BitVec.getLsbD_allOnes]
  by_cases h : 59 ≤ i
  · simp [h, hi]; omega
  · simp [h, hi]

theorem and_shift_ne_zero (x : BitVec 64) (i : Nat) (hi : i < 4) :
    (((x &&& esTypeMask) >>> esShift) &&& (1#64 <<< i) != 0#64) = x.getLsbD (59 + i) := by
  have hm : esTypeMask.getLsbD (59 + i) = true := by decide +revert
  rw [← BitVec.twoPow_eq, BitVec.and_twoPow, BitVec.getLsbD_ushiftRight, BitVec.getLsbD_and,
    esShift, hm, Bool.and_true]
  cases x.getLsbD (59 + i) with
  | false => rfl
  | true =>
    show (BitVec.twoPow 64 i != 0#64) = true
    decide +revert

theorem isWritten_eq (es : ExtentStatus) : ext4EsIsWritten es = es.esPblk.getLsbD 59 :=
  and_shift_ne_zero es.esPblk 0 (by omega)

theorem isUnwritten_eq (es : ExtentStatus) : ext4EsIsUnwritten es = es.esPblk.getLsbD 60 :=
  and_shift_ne_zero es.esPblk 1 (by omega)

theorem isDelayed_eq (es : ExtentStatus) : ext4EsIsDelayed es = es.esPblk.getLsbD 61 :=
  and_shift_ne_zero es.esPblk 2 (by omega)

theorem isHole_eq (es : ExtentStatus) : ext4EsIsHole es = es.esPblk.getLsbD 62 :=
  and_shift_ne_zero es.esPblk 3 (by omega)

theorem type_eq_iff (a b : ExtentStatus) :
    ext4EsType a = ext4EsType b ↔
      ext4EsIsWritten a = ext4EsIsWritten b ∧ ext4EsIsUnwritten a = ext4EsIsUnwritten b
      ∧ ext4EsIsDelayed a = ext4EsIsDelayed b ∧ ext4EsIsHole a = ext4EsIsHole b := by
  have hm : ∀ j, j < 64 → esTypeMask.getLsbD j = decide (59 ≤ j ∧ j < 63) := by decide
  constructor
  · intro h
    simp only [ext4EsIsWritten, ext4EsIsUnwritten, ext4EsIsDelayed, ext4EsIsHole, h, and_self]
  · rw [isWritten_eq, isWritten_eq, isUnwritten_eq, isUnwritten_eq, isDelayed_eq,
      isDelayed_eq, isHole_eq, isHole_eq]
    rintro ⟨h0, h1, h2, h3⟩
    apply BitVec.eq_of_getLsbD_eq
    intro j hj
    simp only [ext4EsType, BitVec.getLsbD_ushiftRight, BitVec.getLsbD_and, esShift]
    by_cases hj4 : j < 4
    · interval_cases j <;> simp_all
    · have hz : esTypeMask.getLsbD (59 + j) = false := by
        by_cases h : 59 + j < 64
        · rw [hm _ h]
          exact decide_eq_false (by omega)
        · exact BitVec.getLsbD_of_ge _ _ (by omega)
      rw [hz, Bool.and_false, Bool.and_false]

theorem pblock_toNat (es : ExtentStatus) : (ext4EsPblock es).toNat = es.esPblk.toNat % 2 ^ 59 := by
  have hm : (~~~esMask).toNat = 2 ^ 59 - 1 := by decide
  rw [ext4EsPblock, BitVec.toNat_and, hm, Nat.and_two_pow_sub_one_eq_mod]

theorem pblock_lt (es : ExtentStatus) : (ext4EsPblock es).toNat < 2 ^ 59 := by
  rw [pblock_toNat]
  exact Nat.mod_lt _ (by decide)

/-! ## What the stores keep and what they change -/

variable {i : Nat}

theorem storePblock_bit (es : ExtentStatus) (pb : Fsblk) (hi : i < 64) :
    (ext4EsStorePblock es pb).esPblk.getLsbD i =
      if i < 59 then pb.getLsbD i else es.esPblk.getLsbD i := by
  simp only [ext4EsStorePblock, BitVec.getLsbD_or, BitVec.getLsbD_and, BitVec.getLsbD_not,
    esMask_bit i hi]
  by_cases h : i < 59
  · simp [h, hi, Nat.not_le.mpr h]
  · simp [h, hi, Nat.le_of_not_lt h]

theorem storePblockStatus_bit (es : ExtentStatus) (pb : Fsblk) (st : BitVec 64) (hi : i < 64) :
    (ext4EsStorePblockStatus es pb st).esPblk.getLsbD i =
      if i < 59 then pb.getLsbD i else st.getLsbD (i - 59) := by
  simp only [ext4EsStorePblockStatus, BitVec.getLsbD_or, BitVec.getLsbD_and,
    BitVec.getLsbD_not, esMask_bit i hi, BitVec.getLsbD_shiftLeft, esShift]
  by_cases h : i < 59
  · simp [h, hi, Nat.not_le.mpr h]
  · simp [h, hi, Nat.le_of_not_lt h]

theorem setReferenced_bit (es : ExtentStatus) (hi : i < 63) :
    (ext4EsSetReferenced es).esPblk.getLsbD i = es.esPblk.getLsbD i := by
  have h : ∀ j, j < 63 → (extentStatusReferenced <<< esShift).getLsbD j = false := by decide
  simp [ext4EsSetReferenced, BitVec.getLsbD_or, h i hi]

theorem clearReferenced_bit (es : ExtentStatus) (hi : i < 63) :
    (ext4EsClearReferenced es).esPblk.getLsbD i = es.esPblk.getLsbD i := by
  have h : ∀ j, j < 63 → (extentStatusReferenced <<< esShift).getLsbD j = false := by decide
  simp only [ext4EsClearReferenced, BitVec.getLsbD_and, BitVec.getLsbD_not, h i hi]
  simp [show i < 64 by omega]

variable {a b : ExtentStatus}

theorem type_congr (h : ∀ i, 59 ≤ i → i < 63 → a.esPblk.getLsbD i = b.esPblk.getLsbD i) :
    ext4EsType a = ext4EsType b := by
  rw [type_eq_iff, isWritten_eq, isWritten_eq, isUnwritten_eq, isUnwritten_eq, isDelayed_eq,
    isDelayed_eq, isHole_eq, isHole_eq]
  exact ⟨h 59 (by omega) (by omega), h 60 (by omega) (by omega), h 61 (by omega) (by omega),
    h 62 (by omega) (by omega)⟩

theorem pblock_congr (h : ∀ i, i < 59 → a.esPblk.getLsbD i = b.esPblk.getLsbD i) :
    ext4EsPblock a = ext4EsPblock b := by
  apply BitVec.eq_of_getLsbD_eq
  intro i hi
  simp only [ext4EsPblock, BitVec.getLsbD_and, BitVec.getLsbD_not, esMask_bit i hi]
  by_cases h59 : i < 59
  · rw [h i h59]
  · simp [Nat.le_of_not_lt h59]

section

variable (es : ExtentStatus)

include es

@[simp] theorem type_storePblock (pb : Fsblk) :
    ext4EsType (ext4EsStorePblock es pb) = ext4EsType es :=
  type_congr fun i h1 h2 => by rw [storePblock_bit es pb (by omega), if_neg (by omega)]

@[simp] theorem type_setReferenced : ext4EsType (ext4EsSetReferenced es) = ext4EsType es :=
  type_congr fun _ _ h2 => setReferenced_bit es h2

@[simp] theorem type_clearReferenced : ext4EsType (ext4EsClearReferenced es) = ext4EsType es :=
  type_congr fun _ _ h2 => clearReferenced_bit es h2

@[simp] theorem pblock_setReferenced : ext4EsPblock (ext4EsSetReferenced es) = ext4EsPblock es :=
  pblock_congr fun _ h => setReferenced_bit es (by omega)

@[simp] theorem pblock_clearReferenced :
    ext4EsPblock (ext4EsClearReferenced es) = ext4EsPblock es :=
  pblock_congr fun _ h => clearReferenced_bit es (by omega)

theorem pblock_storePblock (pb : Fsblk) :
    (ext4EsPblock (ext4EsStorePblock es pb)).toNat = pb.toNat % 2 ^ 59 := by
  rw [pblock_congr (b := ⟨0, 0, 0, pb⟩), pblock_toNat]
  intro i h
  rw [storePblock_bit es pb (by omega), if_pos h]

theorem pblock_storePblockStatus (pb : Fsblk) (st : BitVec 64) :
    (ext4EsPblock (ext4EsStorePblockStatus es pb st)).toNat = pb.toNat % 2 ^ 59 := by
  rw [pblock_congr (b := ⟨0, 0, 0, pb⟩), pblock_toNat]
  intro i h
  rw [storePblockStatus_bit es pb st (by omega), if_pos h]

end

theorem type_storePblockStatus_status (es orig : ExtentStatus) (pb : Fsblk) :
    ext4EsType (ext4EsStorePblockStatus es pb (ext4EsStatus orig)) = ext4EsType orig := by
  refine type_congr fun i h1 h2 => ?_
  rw [storePblockStatus_bit es pb _ (by omega), if_neg (by omega), ext4EsStatus,
    BitVec.getLsbD_ushiftRight, esShift]
  congr 1
  omega

section

variable (h : ext4EsType a = ext4EsType b)

include h

theorem isWritten_congr : ext4EsIsWritten a = ext4EsIsWritten b := ((type_eq_iff a b).mp h).1

theorem isUnwritten_congr :
    ext4EsIsUnwritten a = ext4EsIsUnwritten b := ((type_eq_iff a b).mp h).2.1

theorem isDelayed_congr : ext4EsIsDelayed a = ext4EsIsDelayed b := ((type_eq_iff a b).mp h).2.2.1

theorem isHole_congr : ext4EsIsHole a = ext4EsIsHole b := ((type_eq_iff a b).mp h).2.2.2

end

end Ext4.ExtentsStatus
