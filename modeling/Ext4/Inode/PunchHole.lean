import Mathlib.Algebra.Order.Ring.Int
import Mathlib.Data.List.Pairwise
import Mathlib.Tactic.Linarith

/-!
# Hole punching — which bytes go

`ext4_punch_hole` clips the range it is given, zeroes the partial blocks at
its ends (`ext4_zero_partial_blocks`) and takes the whole blocks in between
out of the file. File positions are `loff_t` and stay far below the limit of
the type; block numbers are 32 bits wide, and there the clipped range may not
fit: it ends with the page of `i_size`, which can lie behind the last block.
-/

namespace Ext4.PunchHole

/-- What the two functions read of an inode and its file system. -/
structure PunchInode where
  blocksizeBits : Nat
  pageShift : Nat
  iSize : Int
  isReg : Bool
  extents : Bool
  bits_le : blocksizeBits ≤ pageShift
  size_nonneg : 0 ≤ iSize
  /-- `s_maxbytes`, as `ext4_max_size` bounds it. -/
  size_le : iSize ≤ (2 ^ 32 - 1) * 2 ^ blocksizeBits

/-- The results of the calls that can fail. -/
structure PunchEnv where
  writeAndWait : Int
  attachJinode : Int
  updateDisksize : Int
  journalStart : Int
  zeroRange : Int → Int → Int
  esRemove : Int
  removeSpace : Int

/-- The call that removes blocks: the last block is part of the range for
`ext4_ext_remove_space` and not for `ext4_ind_remove_space`. -/
inductive Removal where
  | ext (start last : Int)
  | ind (start stop : Int)

/-- The result, with the ranges (position and length) that were zeroed and
the blocks that were removed. -/
structure Punched where
  ret : Int
  zeroed : List (Int × Int)
  removed : List Removal

def eopnotsupp : Int := 95

section Model

variable (ino : PunchInode) (env : PunchEnv)

def PunchInode.blocksize : Int := 2 ^ ino.blocksizeBits

def PunchInode.pageSize : Int := 2 ^ ino.pageShift

/-- `ext4_block_zero_page_range`: the range is cut off at the end of its
first block. -/
def ext4BlockZeroPageRange (start length : Int) : Int × List (Int × Int) :=
  let offset := start % ino.pageSize
  let max := ino.blocksize - offset % ino.blocksize
  let length := if max < length ∨ length < 0 then max else length
  (env.zeroRange start length, [(start, length)])

/-- `ext4_zero_partial_blocks`. -/
def ext4ZeroPartialBlocks (lstart length : Int) : Int × List (Int × Int) :=
  let byteEnd := lstart + length - 1
  let partialStart := lstart % ino.blocksize
  let partialEnd := byteEnd % ino.blocksize
  let start := lstart / ino.blocksize
  let stop := byteEnd / ino.blocksize
  if start = stop ∧ (partialStart ≠ 0 ∨ partialEnd ≠ ino.blocksize - 1) then
    ext4BlockZeroPageRange ino env lstart length
  else
    let (err, head) := if partialStart ≠ 0
      then ext4BlockZeroPageRange ino env lstart ino.blocksize else (0, [])
    if err ≠ 0 then (err, head)
    else
      let (err, tail) := if partialEnd ≠ ino.blocksize - 1
        then ext4BlockZeroPageRange ino env (byteEnd - partialEnd) (partialEnd + 1) else (err, [])
      (err, head ++ tail)

/-- The length after the comparison with `i_size`. -/
def clippedLength (offset length : Int) : Int :=
  if ino.iSize < offset + length then
    ino.iSize + ino.pageSize - ino.iSize % ino.pageSize - offset
  else length

/-- `ext4_punch_hole`, as far as it changes the file. -/
def ext4PunchHole (offset length : Int) : Punched :=
  if ino.isReg = false then ⟨-eopnotsupp, [], []⟩
  else if env.writeAndWait ≠ 0 then ⟨env.writeAndWait, [], []⟩
  else if ino.iSize ≤ offset then ⟨0, [], []⟩
  else
    let length := clippedLength ino offset length
    if (offset % ino.blocksize ≠ 0 ∨ (offset + length) % ino.blocksize ≠ 0) ∧
        env.attachJinode < 0 then ⟨env.attachJinode, [], []⟩
    else
      let firstBlockOffset := (offset + ino.blocksize - 1) / ino.blocksize * ino.blocksize
      let lastBlockOffset := (offset + length) / ino.blocksize * ino.blocksize - 1
      if firstBlockOffset < lastBlockOffset ∧ env.updateDisksize ≠ 0 then
        ⟨env.updateDisksize, [], []⟩
      else if env.journalStart < 0 then ⟨env.journalStart, [], []⟩
      else
        let (ret, zeroed) := ext4ZeroPartialBlocks ino env offset length
        if ret ≠ 0 then ⟨ret, zeroed, []⟩
        else
          let firstBlock := (offset + ino.blocksize - 1) / ino.blocksize % 2 ^ 32
          let stopBlock := (offset + length) / ino.blocksize % 2 ^ 32
          if firstBlock < stopBlock then
            if env.esRemove ≠ 0 then ⟨env.esRemove, zeroed, []⟩
            else if ino.extents then
              ⟨env.removeSpace, zeroed, [.ext firstBlock (stopBlock - 1)]⟩
            else ⟨env.removeSpace, zeroed, [.ind firstBlock stopBlock]⟩
          else ⟨ret, zeroed, []⟩

/-- The bytes of the blocks of a removal, from the first to behind the last. -/
def Removal.bytes : Removal → Int × Int
  | .ext start last => (start * ino.blocksize, (last + 1) * ino.blocksize)
  | .ind start stop => (start * ino.blocksize, stop * ino.blocksize)

/-- The byte ranges that are zeroed. -/
def zeroedBytes (zeroed : List (Int × Int)) : List (Int × Int) :=
  zeroed.map fun r => (r.1, r.1 + r.2)

/-- All byte ranges that a call zeroes or unmaps. -/
def Punched.bytes (p : Punched) : List (Int × Int) :=
  zeroedBytes p.zeroed ++ p.removed.map (Removal.bytes ino)

end Model

/-! ## The partial blocks -/

variable {ino : PunchInode} {env : PunchEnv} {lo hi : Int}

theorem PunchInode.blocksize_pos : 0 < ino.blocksize := Int.pow_pos (by decide)

/-- The zeroed ranges for the bytes from `lo` to `hi`, when the whole blocks
in between start at `first` and end at `stop`. -/
def edges (lo hi first stop : Int) : List (Int × Int) :=
  if first ≤ stop then
    (if lo < first then [(lo, first)] else []) ++ (if stop < hi then [(stop, hi)] else [])
  else [(lo, hi)]

variable (ino) in
/-- The first block boundary at or behind a position. -/
def roundUp (lo : Int) : Int := (lo + ino.blocksize - 1) / ino.blocksize * ino.blocksize

variable (ino) in
def roundDown (hi : Int) : Int := hi / ino.blocksize * ino.blocksize

theorem roundDown_eq {b : Int} {m : Int} (hm : 0 ≤ m) (hlt : m < ino.blocksize) :
    roundDown ino (ino.blocksize * b + m) = ino.blocksize * b := by
  have hpos := ino.blocksize_pos
  rw [roundDown, Int.add_comm, Int.add_mul_ediv_left _ _ hpos.ne', Int.ediv_eq_zero_of_lt hm hlt,
    Int.zero_add, Int.mul_comm]

theorem roundUp_eq (lo : Int) : roundUp ino lo = roundDown ino (lo + ino.blocksize - 1) := rfl

variable {first length offset stop : Int}

theorem blockZeroPageRange_eq {start : Int} (h0 : 0 ≤ length) :
    ext4BlockZeroPageRange ino env start length
      = (env.zeroRange start (min length (ino.blocksize - start % ino.blocksize)),
        [(start, min length (ino.blocksize - start % ino.blocksize))]) := by
  have hdvd : ino.blocksize ∣ ino.pageSize := pow_dvd_pow _ ino.bits_le
  have hmax : (if ino.blocksize - start % ino.blocksize < length ∨ length < 0
      then ino.blocksize - start % ino.blocksize else length)
      = min length (ino.blocksize - start % ino.blocksize) := by
    split <;> omega
  rw [ext4BlockZeroPageRange, Int.emod_emod_of_dvd _ hdvd, hmax]

theorem zeroedBytes_append (l₁ l₂ : List (Int × Int)) :
    zeroedBytes (l₁ ++ l₂) = zeroedBytes l₁ ++ zeroedBytes l₂ := List.map_append

/-- A call for a range, if there is one. -/
theorem zeroIf_spec (env : PunchEnv) (c : Prop) [Decidable c] (start length : Int) :
    zeroedBytes (if c then (env.zeroRange start length, [(start, length)]) else (0, [])).2
        = (if c then [(start, start + length)] else [])
      ∧ ((∀ s l, env.zeroRange s l = 0) →
        (if c then (env.zeroRange start length, [(start, length)]) else (0, [])).1 = 0) := by
  split
  · exact ⟨rfl, fun h => h ..⟩
  · exact ⟨rfl, fun _ => rfl⟩

/-- **`ext4_zero_partial_blocks`** zeroes what the whole blocks leave over. An
error cuts the list of the ranges short. -/
theorem zeroPartialBlocks_spec (ino : PunchInode) (env : PunchEnv) (hlen : 0 ≤ length) :
    ∃ err zs, ext4ZeroPartialBlocks ino env lo length = (err, zs) ∧
      (zeroedBytes zs).Sublist
        (edges lo (lo + length) (roundUp ino lo) (roundDown ino (lo + length))) ∧
      ((∀ s l, env.zeroRange s l = 0) → err = 0 ∧ zeroedBytes zs
        = edges lo (lo + length) (roundUp ino lo) (roundDown ino (lo + length))) := by
  have hpos := ino.blocksize_pos
  have hlo := Int.mul_ediv_add_emod lo ino.blocksize
  have hhi := Int.mul_ediv_add_emod (lo + length - 1) ino.blocksize
  have hr0 := Int.emod_nonneg lo hpos.ne'
  have hr1 := Int.emod_lt_of_pos lo hpos
  have hp0 := Int.emod_nonneg (lo + length - 1) hpos.ne'
  have hp1 := Int.emod_lt_of_pos (lo + length - 1) hpos
  rw [ext4ZeroPartialBlocks]
  dsimp only
  generalize hr : lo % ino.blocksize = r at *
  generalize hp : (lo + length - 1) % ino.blocksize = p at *
  generalize lo / ino.blocksize = q at *
  generalize (lo + length - 1) / ino.blocksize = t at *
  -- the two boundaries, from the remainders
  have hfirst : roundUp ino lo = ino.blocksize * q + if r = 0 then 0 else ino.blocksize := by
    split
    · rw [roundUp_eq, show lo + ino.blocksize - 1
        = ino.blocksize * q + (ino.blocksize - 1) by omega,
        roundDown_eq (by omega) (by omega), Int.add_zero]
    · rw [roundUp_eq, show lo + ino.blocksize - 1 = ino.blocksize * (q + 1) + (r - 1) by
        rw [Int.mul_add]; omega, roundDown_eq (by omega) (by omega), Int.mul_add, Int.mul_one]
  have hstop : roundDown ino (lo + length) = ino.blocksize * t +
      if p = ino.blocksize - 1 then ino.blocksize else 0 := by
    split
    · rw [show lo + length = ino.blocksize * (t + 1) + 0 by rw [Int.mul_add]; omega,
        roundDown_eq (by omega) (by omega), Int.mul_add, Int.mul_one]
    · rw [show lo + length = ino.blocksize * t + (p + 1) by omega,
        roundDown_eq (by omega) (by omega), Int.add_zero]
  have hqt : q = t ∨ ino.blocksize * q + ino.blocksize ≤ ino.blocksize * t ∨
      ino.blocksize * t + ino.blocksize ≤ ino.blocksize * q := by
    rcases lt_trichotomy q t with h | h | h
    · exact .inr (.inl (by nlinarith))
    · exact .inl h
    · exact .inr (.inr (by nlinarith))
  rw [hfirst, hstop]
  split
  · rename_i hcase
    obtain ⟨rfl, hpart⟩ := hcase
    rw [blockZeroPageRange_eq hlen, hr, min_eq_left (by omega)]
    have hedges : edges lo (lo + length) (ino.blocksize * q + if r = 0 then 0 else ino.blocksize)
        (ino.blocksize * q + if p = ino.blocksize - 1 then ino.blocksize else 0)
        = [(lo, lo + length)] := by
      unfold edges
      split_ifs <;> simp <;> omega
    rw [hedges]
    exact ⟨_, _, rfl, .refl _, fun h => ⟨h .., rfl⟩⟩
  · have hedges : edges lo (lo + length) (ino.blocksize * q + if r = 0 then 0 else ino.blocksize)
        (ino.blocksize * t + if p = ino.blocksize - 1 then ino.blocksize else 0)
        = (if r ≠ 0 then [(lo, lo + (ino.blocksize - r))] else []) ++
          (if p ≠ ino.blocksize - 1 then [(lo + length - 1 - p, lo + length)] else []) := by
      unfold edges
      split_ifs <;> simp <;> omega
    rw [hedges, blockZeroPageRange_eq (by omega), hr, min_eq_right (by omega),
      blockZeroPageRange_eq (by omega),
      show (lo + length - 1 - p) % ino.blocksize = 0 by
        rw [← hhi, Int.add_sub_cancel, Int.mul_emod_right],
      min_eq_left (by omega)]
    have hend : lo + length - 1 - p + (p + 1) = lo + length := by omega
    obtain ⟨hhead, hhead0⟩ := zeroIf_spec env (r ≠ 0) lo (ino.blocksize - r)
    obtain ⟨htail, htail0⟩ := zeroIf_spec env (p ≠ ino.blocksize - 1) (lo + length - 1 - p) (p + 1)
    rw [hend] at htail
    rw [← hhead, ← htail]
    generalize (if r ≠ 0 then _ else _ : Int × List (Int × Int)) = head at *
    by_cases herr : head.1 = 0
    · rw [herr, if_neg (by simp)]
      exact ⟨_, _, rfl, zeroedBytes_append _ _ ▸ .refl _,
        fun h => ⟨htail0 h, zeroedBytes_append ..⟩⟩
    · rw [if_pos herr]
      exact ⟨_, _, rfl, List.sublist_append_left .., fun h => absurd (hhead0 h) herr⟩

/-! ## The whole call -/

/-- The zeroed ranges and the whole blocks between them. -/
def parts (lo hi first stop : Int) : List (Int × Int) :=
  edges lo hi first stop ++ if first < stop then [(first, stop)] else []

def Within (r : Int × Int) (x : Int) : Prop := r.1 ≤ x ∧ x < r.2

/-- No byte is in both ranges. -/
def Apart (r s : Int × Int) : Prop := ∀ x, ¬ (Within r x ∧ Within s x)

theorem parts_apart : (parts lo hi first stop).Pairwise Apart := by
  unfold parts edges
  split_ifs <;> simp [Apart, Within] <;> and_intros <;> intros <;> omega

theorem parts_cover (hlo : lo ≤ first) (hhi : stop ≤ hi) (x : Int) :
    (∃ r ∈ parts lo hi first stop, Within r x) ↔ lo ≤ x ∧ x < hi := by
  unfold parts edges Within
  split_ifs <;> simp <;> omega

/-- Every call of the environment succeeds. -/
structure PunchEnv.Succeeds (env : PunchEnv) : Prop where
  writeAndWait : env.writeAndWait = 0
  attachJinode : env.attachJinode = 0
  updateDisksize : env.updateDisksize = 0
  journalStart : 0 ≤ env.journalStart
  zeroRange : ∀ s l, env.zeroRange s l = 0
  esRemove : env.esRemove = 0

theorem le_roundUp (ino : PunchInode) (lo : Int) : lo ≤ roundUp ino lo := by
  have := Int.lt_ediv_add_one_mul_self (lo + ino.blocksize - 1) ino.blocksize_pos
  rw [roundUp]
  rw [Int.add_mul] at this
  omega

theorem roundDown_le (ino : PunchInode) (hi : Int) : roundDown ino hi ≤ hi :=
  Int.ediv_mul_le hi ino.blocksize_pos.ne'

theorem clippedLength_pos (hlen : 0 ≤ length) (hlt : offset < ino.iSize) :
    0 ≤ clippedLength ino offset length := by
  have hpage : 0 < ino.pageSize := Int.pow_pos (by decide)
  have := Int.emod_lt_of_pos ino.iSize hpage
  unfold clippedLength
  split <;> omega

variable (ino) in
/-- There is nothing to punch, the range is not clipped, or the end of the
page of `i_size` has a block number that fits into 32 bits. -/
def Fits (offset length : Int) : Prop :=
  ino.isReg = false ∨ ino.iSize ≤ offset ∨ offset + length ≤ ino.iSize ∨
    (ino.iSize / ino.pageSize + 1) * ino.pageSize < 2 ^ 32 * ino.blocksize

/-- A clipped range ends with the page of `i_size`. -/
theorem clipped_stop (hclip : ino.iSize < offset + length) :
    offset + clippedLength ino offset length = (ino.iSize / ino.pageSize + 1) * ino.pageSize := by
  have hpage := Int.mul_ediv_add_emod ino.iSize ino.pageSize
  rw [Int.mul_comm] at hpage
  rw [clippedLength, if_pos hclip, Int.add_mul, Int.one_mul]
  omega

theorem Fits.stop_lt (h : Fits ino offset length) (hreg : ino.isReg = true)
    (hlt : offset < ino.iSize) :
    (offset + clippedLength ino offset length) / ino.blocksize < 2 ^ 32 := by
  have hpos := ino.blocksize_pos
  have hsize : ino.iSize ≤ (2 ^ 32 - 1) * ino.blocksize := ino.size_le
  refine Int.ediv_lt_of_lt_mul hpos ?_
  rcases h with h | h | h | h
  · simp [hreg] at h
  · omega
  · rw [clippedLength, if_neg (by omega)]
    omega
  · by_cases hclip : ino.iSize < offset + length
    · rwa [clipped_stop hclip]
    · rw [clippedLength, if_neg hclip]
      omega

/-- The first block behind the start of a hole has a number of 32 bits. -/
theorem firstBlock_lt (h0 : 0 ≤ offset) (hlt : offset < ino.iSize) :
    (offset + ino.blocksize - 1) / ino.blocksize % 2 ^ 32
      = (offset + ino.blocksize - 1) / ino.blocksize ∧
    (offset + ino.blocksize - 1) / ino.blocksize < 2 ^ 32 := by
  have hpos := ino.blocksize_pos
  have hsize : ino.iSize ≤ (2 ^ 32 - 1) * ino.blocksize := ino.size_le
  have hfit : (offset + ino.blocksize - 1) / ino.blocksize < 2 ^ 32 :=
    Int.ediv_lt_of_lt_mul hpos (by omega)
  exact ⟨Int.emod_eq_of_lt (Int.ediv_nonneg (by omega) hpos.le) hfit, hfit⟩

theorem punchHole_parts (env : PunchEnv) (h0 : 0 ≤ offset) (hlen : 0 ≤ length)
    (hlt : offset < ino.iSize) (hstop : offset + clippedLength ino offset length = stop)
    (hfit : stop / ino.blocksize < 2 ^ 32) :
    let ps := parts offset stop (roundUp ino offset) (roundDown ino stop)
    (((ext4PunchHole ino env offset length).bytes ino).Sublist ps) ∧
      (ino.isReg = true → env.Succeeds → (ext4PunchHole ino env offset length).bytes ino = ps) := by
  have hpos := ino.blocksize_pos
  have hstop0 := clippedLength_pos hlen hlt
  obtain ⟨err, zs, heq, hsub, hall⟩ := zeroPartialBlocks_spec ino env hstop0
  have hfirst := (firstBlock_lt h0 hlt).1
  have hlast : stop / ino.blocksize % 2 ^ 32 = stop / ino.blocksize :=
    Int.emod_eq_of_lt (Int.ediv_nonneg (by omega) hpos.le) hfit
  have hiff : roundUp ino offset < roundDown ino stop ↔
      (offset + ino.blocksize - 1) / ino.blocksize < stop / ino.blocksize :=
    mul_lt_mul_iff_left₀ hpos
  rw [hstop] at hsub hall
  intro ps
  have hz : (zeroedBytes zs).Sublist ps := hsub.trans (List.sublist_append_left ..)
  have hnil : ([] : List (Int × Int)).Sublist ps := List.nil_sublist _
  generalize hout : ext4PunchHole ino env offset length = out
  rw [ext4PunchHole, if_neg (Int.not_le.mpr hlt)] at hout
  dsimp only at hout
  rw [hstop, heq] at hout
  rw [hfirst, hlast] at hout
  have hquit : ∀ ret, (⟨ret, [], []⟩ : Punched) = out → (ino.isReg = true → ¬ env.Succeeds) →
      (out.bytes ino).Sublist ps ∧ (ino.isReg = true → env.Succeeds → out.bytes ino = ps) := by
    rintro ret rfl hno
    exact ⟨hnil, fun h hok => absurd hok (hno h)⟩
  rcases ite_eq_iff.mp hout with ⟨hreg, hout⟩ | ⟨-, hout⟩
  · exact hquit _ hout (by simp [hreg])
  rcases ite_eq_iff.mp hout with ⟨herr, hout⟩ | ⟨-, hout⟩
  · exact hquit _ hout fun _ hok => herr hok.writeAndWait
  rcases ite_eq_iff.mp hout with ⟨herr, hout⟩ | ⟨-, hout⟩
  · exact hquit _ hout fun _ hok => by have := hok.attachJinode; omega
  rcases ite_eq_iff.mp hout with ⟨herr, hout⟩ | ⟨-, hout⟩
  · exact hquit _ hout fun _ hok => herr.2 hok.updateDisksize
  rcases ite_eq_iff.mp hout with ⟨herr, hout⟩ | ⟨-, hout⟩
  · exact hquit _ hout fun _ hok => Int.not_lt.mpr hok.journalStart herr
  rcases ite_eq_iff.mp hout with ⟨herr, rfl⟩ | ⟨-, hout⟩
  · exact ⟨by simpa [Punched.bytes] using hz, fun _ hok => absurd (hall hok.zeroRange).1 herr⟩
  rw [← if_congr hiff rfl rfl] at hout
  rcases ite_eq_iff.mp hout with ⟨hne, hout⟩ | ⟨hne, rfl⟩
  · rcases ite_eq_iff.mp hout with ⟨herr, rfl⟩ | ⟨-, hout⟩
    · exact ⟨by simpa [Punched.bytes] using hz, fun _ hok => absurd hok.esRemove herr⟩
    · have hbytes : out.bytes ino
          = zeroedBytes zs ++ [(roundUp ino offset, roundDown ino stop)] := by
        split at hout <;> subst hout <;> simp [Punched.bytes, Removal.bytes, roundUp, roundDown]
      have hps : ps = edges offset stop (roundUp ino offset) (roundDown ino stop) ++
          [(roundUp ino offset, roundDown ino stop)] := by
        simp [ps, parts, hne]
      rw [hbytes, hps]
      exact ⟨hsub.append_right _, fun _ hok => by rw [(hall hok.zeroRange).2]⟩
  · refine ⟨by simpa [Punched.bytes] using hz, fun _ hok => ?_⟩
    simp [Punched.bytes, ps, parts, hne, (hall hok.zeroRange).2]

/-- Wherever the call stops, the ranges it has zeroed and the blocks it has
removed lie apart and inside the clipped range; and if nothing fails, they are
all of it. -/
def PunchesClipped (ino : PunchInode) (env : PunchEnv) (offset length : Int) : Prop :=
  ((ext4PunchHole ino env offset length).bytes ino).Pairwise Apart ∧
    (∀ x, (∃ r ∈ (ext4PunchHole ino env offset length).bytes ino, Within r x) →
      offset < ino.iSize ∧ offset ≤ x ∧ x < offset + clippedLength ino offset length) ∧
    (ino.isReg = true → env.Succeeds → offset < ino.iSize →
      ∀ x, offset ≤ x → x < offset + clippedLength ino offset length →
        ∃ r ∈ (ext4PunchHole ino env offset length).bytes ino, Within r x)

theorem punchHole_nothing (env : PunchEnv) (h : ino.isReg = false ∨ ino.iSize ≤ offset) :
    (ext4PunchHole ino env offset length).bytes ino = [] := by
  rw [ext4PunchHole]
  rcases h with h | h
  · rw [if_pos h]
    rfl
  · rw [if_pos h]
    split_ifs <;> rfl

theorem Fits.punchesClipped (env : PunchEnv) (h0 : 0 ≤ offset) (hlen : 0 ≤ length)
    (hfit : Fits ino offset length) : PunchesClipped ino env offset length := by
  by_cases hnone : ino.isReg = false ∨ ino.iSize ≤ offset
  · rw [PunchesClipped, punchHole_nothing env hnone]
    refine ⟨.nil, by simp, fun hreg _ hlt => ?_⟩
    rcases hnone with h | h
    · simp [hreg] at h
    · omega
  · rw [not_or, Bool.not_eq_false, Int.not_le] at hnone
    obtain ⟨hreg, hlt⟩ := hnone
    obtain ⟨hsub, hall⟩ := punchHole_parts env h0 hlen hlt rfl (hfit.stop_lt hreg hlt)
    have hcover := parts_cover (le_roundUp ino offset)
      (roundDown_le ino (offset + clippedLength ino offset length))
    refine ⟨parts_apart.sublist hsub, fun x hx => ⟨hlt, (hcover x).mp ?_⟩,
      fun hreg hok _ x h1 h2 => ?_⟩
    · obtain ⟨r, hr, hx⟩ := hx
      exact ⟨r, hsub.subset hr, hx⟩
    · rw [hall hreg hok]
      exact (hcover x).mpr ⟨h1, h2⟩

def cleanEnv : PunchEnv := ⟨0, 0, 0, 0, fun _ _ => 0, 0, 0⟩

theorem cleanEnv_succeeds : cleanEnv.Succeeds := ⟨rfl, rfl, rfl, by decide, fun _ _ => rfl, rfl⟩

/-- The last byte of a range whose end does not fit is neither zeroed nor in a
block that is removed. -/
theorem punchHole_misses_last (h0 : 0 ≤ offset) (hlen : 0 ≤ length) (hreg : ino.isReg = true)
    (hlt : offset < ino.iSize) (hclip : ino.iSize < offset + length)
    (hstop : offset + clippedLength ino offset length = stop)
    (hend : 2 ^ 32 * ino.blocksize ≤ stop) :
    ∀ r ∈ (ext4PunchHole ino cleanEnv offset length).bytes ino, ¬ Within r (stop - 1) := by
  have hpos := ino.blocksize_pos
  obtain ⟨err, zs, heq, -, hall⟩ :=
    zeroPartialBlocks_spec ino cleanEnv (clippedLength_pos hlen hlt)
  obtain ⟨rfl, hzs⟩ := hall cleanEnv_succeeds.zeroRange
  obtain ⟨hfirst, hfirst_lt⟩ := firstBlock_lt h0 hlt
  have hup : roundUp ino offset ≤ (2 ^ 32 - 1) * ino.blocksize :=
    Int.mul_le_mul_of_nonneg_right (by omega) hpos.le
  -- the range ends with a page and so with a block
  have hdown : roundDown ino stop = stop := by
    have hdvd : ino.blocksize ∣ ino.pageSize := pow_dvd_pow _ ino.bits_le
    rw [roundDown, Int.ediv_mul_cancel]
    rw [← hstop, clipped_stop hclip]
    exact Dvd.dvd.mul_left hdvd _
  have hcut : stop / ino.blocksize % 2 ^ 32 ≤ 2 ^ 32 - 1 :=
    Int.le_sub_one_of_lt (Int.emod_lt_of_pos _ (by decide))
  have hcut' := Int.mul_le_mul_of_nonneg_right hcut hpos.le
  have hhead : ∀ r ∈ zeroedBytes zs, ¬ Within r (stop - 1) := by
    rw [hstop, hdown] at hzs
    rw [hzs, edges, if_pos (by omega), if_neg (Int.lt_irrefl _), List.append_nil]
    split
    · simp only [List.mem_singleton, forall_eq, Within]
      omega
    · simp
  have hrest : ∀ r, r = ((offset + ino.blocksize - 1) / ino.blocksize * ino.blocksize,
      stop / ino.blocksize % 2 ^ 32 * ino.blocksize) → ¬ Within r (stop - 1) := by
    rintro _ rfl
    simp only [Within]
    omega
  generalize hout : ext4PunchHole ino cleanEnv offset length = out
  rw [ext4PunchHole, if_neg (by simp [hreg]), if_neg (by simp [cleanEnv]),
    if_neg (Int.not_le.mpr hlt)] at hout
  dsimp only at hout
  rw [if_neg (by simp [cleanEnv]), if_neg (by simp [cleanEnv]), if_neg (by simp [cleanEnv]), heq,
    hstop, hfirst] at hout
  rw [if_neg (by simp)] at hout
  intro r hr
  rcases ite_eq_iff.mp hout with ⟨-, hout⟩ | ⟨-, rfl⟩
  · rw [if_neg (by simp [cleanEnv])] at hout
    have hbytes : out.bytes ino = zeroedBytes zs ++
        [((offset + ino.blocksize - 1) / ino.blocksize * ino.blocksize,
          stop / ino.blocksize % 2 ^ 32 * ino.blocksize)] := by
      split at hout <;> subst hout <;> simp [Punched.bytes, Removal.bytes]
    rw [hbytes, List.mem_append, List.mem_singleton] at hr
    exact hr.elim (hhead r) (hrest r)
  · exact hhead r (by simpa [Punched.bytes] using hr)

/-- **Punching a hole.** What a call touches is right whatever its calls
return, exactly if the range fits. -/
theorem punchHole_bytes (ino : PunchInode) (offset length : Int) (h0 : 0 ≤ offset)
    (hlen : 0 ≤ length) :
    (∀ env, PunchesClipped ino env offset length) ↔ Fits ino offset length := by
  refine ⟨fun h => ?_, fun hfit env => hfit.punchesClipped env h0 hlen⟩
  by_contra hfit
  simp only [Fits, not_or, Bool.not_eq_false, Int.not_le, Int.not_lt] at hfit
  obtain ⟨hreg, hlt, hclip, hend⟩ := hfit
  have hstop := clipped_stop hclip
  have hsize : ino.iSize ≤ (2 ^ 32 - 1) * ino.blocksize := ino.size_le
  obtain ⟨r, hr, hin⟩ := (h cleanEnv).2.2 hreg cleanEnv_succeeds hlt
    (offset + clippedLength ino offset length - 1) (by omega) (by omega)
  exact punchHole_misses_last h0 hlen hreg hlt hclip rfl (hstop ▸ hend) r hr hin

/-- A file with blocks of 1 KiB on pages of 4 KiB, two blocks short of
`s_maxbytes` and so in the last page below 4 TiB. -/
def lastPage : PunchInode where
  blocksizeBits := 10
  pageShift := 12
  iSize := 2 ^ 42 - 3072
  isReg := true
  extents := true
  bits_le := by decide
  size_nonneg := by decide
  size_le := by decide

/-- Inside the same file, below its size, the theorem applies. -/
theorem punchHole_bytes_inside :
    PunchesClipped lastPage cleanEnv 1000 5000 ∧
      ∃ r ∈ (ext4PunchHole lastPage cleanEnv 1000 5000).bytes lastPage, Within r 2047 := by
  have h := (punchHole_bytes lastPage 1000 5000 (by decide) (by decide)).mpr
    (.inr (.inr (.inl (by decide)))) cleanEnv
  exact ⟨h, h.2.2 rfl cleanEnv_succeeds (by decide) 2047 (by decide) (by decide)⟩

/-- The range from the last page to `s_maxbytes` is clipped to end at 4 TiB,
whose block number is 0 in 32 bits: no block is removed and no byte zeroed,
though the call succeeds and the range holds four whole blocks. -/
theorem punchHole_last_page :
    2 ^ 42 - 4096 + 3072 ≤ (2 ^ 32 - 1) * lastPage.blocksize ∧ cleanEnv.Succeeds ∧
      (ext4PunchHole lastPage cleanEnv (2 ^ 42 - 4096) 3072).ret = 0 ∧
      clippedLength lastPage (2 ^ 42 - 4096) 3072 = 4096 ∧
      (ext4PunchHole lastPage cleanEnv (2 ^ 42 - 4096) 3072).bytes lastPage = [] := by
  refine ⟨by decide, cleanEnv_succeeds, ?_⟩
  decide

end Ext4.PunchHole
