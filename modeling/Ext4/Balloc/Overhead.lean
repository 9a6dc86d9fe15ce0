import Ext4.Balloc.InitBitmap
import Mathlib.Data.Set.Card

/-!
# Mounting — `count_overhead`

With `bigalloc` the clusters of a group that hold metadata, of this group or of
another one, are marked in one bitmap and then counted.
-/

namespace Ext4.Balloc

open Bitmap Resize

section Model

variable (sb : InitSb) (gdp : Nat → GroupDesc) (grp : Nat)

/-- `1` if the group has a superblock. -/
def superBlocks : Nat := if ext4BgHasSuper sb.toResizeSb grp ≠ 0 then 1 else 0

/-- The bits that `count_overhead` sets for the blocks of group `i`. It counts
each of them when it sets it. -/
def overheadBits (i : Nat) : List Nat :=
  let firstBlock := ext4GroupFirstBlockNo sb.toResizeSb grp
  let lastBlock := firstBlock + sb.blocksPerGroup - 1
  let bitmap := fun b =>
    if b ≥ firstBlock ∧ b ≤ lastBlock then [(b - firstBlock) >>> sb.sClusterBits] else []
  let b := (gdp i).inodeTable
  let table :=
    if b ≥ firstBlock ∧ b + sb.sItbPerGroup ≤ lastBlock then
      (List.range sb.sItbPerGroup).map fun j => (b + j - firstBlock) >>> sb.sClusterBits
    else []
  let s := superBlocks sb grp
  let j := ext4BgNumGdb sb.toResizeSb grp
  let j := if s + j > sb.blocksPerGroup then sb.blocksPerGroup - s else j
  bitmap (gdp i).blockBitmap ++ bitmap (gdp i).inodeBitmap ++ table ++
    if i ≠ grp then [] else
      List.range s ++ (List.range j).map fun k => (s + k) >>> sb.sClusterBits

/-- `count_overhead`, with a zeroed page for the bitmap. The counter is an `int`. -/
def countOverhead (bigalloc : Bool) : Nat :=
  if !bigalloc then
    ext4BgHasSuper sb.toResizeSb grp + ext4BgNumGdb sb.toResizeSb grp + sb.sItbPerGroup + 2
  else
    let bits := (List.range sb.sGroupsCount).flatMap (overheadBits sb gdp grp)
    let buf := setBits (fun _ => false) bits
    let clusters := sb.blocksPerGroup >>> sb.sClusterBits
    if bits.length % 2 ^ 32 = 0 then 0
    else clusters - (clusters / 8 * 8
      - ((Finset.range (clusters / 8 * 8)).filter fun c => buf c = true).card)

/-- Where a group has its superblock and its descriptors. The primary superblock
is 1 KiB behind the start of the device. -/
def headStart (i : Nat) : Nat :=
  if i = 0 then 1024 / sb.blocksize else ext4GroupFirstBlockNo sb.toResizeSb i

/-- A block of metadata of group `i`. -/
def MetaBlock (i b : Nat) : Prop :=
  b = (gdp i).blockBitmap ∨ b = (gdp i).inodeBitmap
    ∨ ((gdp i).inodeTable ≤ b ∧ b < (gdp i).inodeTable + sb.sItbPerGroup)
    ∨ headStart sb i ≤ b ∧ b < headStart sb i + (superBlocks sb i + ext4BgNumGdb sb.toResizeSb i)

/-- Block `b` lies in cluster `c` of the group. -/
def InCluster (c b : Nat) : Prop :=
  let firstBlock := ext4GroupFirstBlockNo sb.toResizeSb grp
  firstBlock ≤ b ∧ b < firstBlock + sb.blocksPerGroup ∧ (b - firstBlock) >>> sb.sClusterBits = c

/-- The clusters of the group with metadata of any group. -/
def metaClusters : Set Nat :=
  {c | ∃ i < sb.sGroupsCount, ∃ b, MetaBlock sb gdp i b ∧ InCluster sb grp c b}

/-- The blocks of group `i` that are looked at when `grp` is counted: an inode
table only if a block of `grp` follows it, and the head only of `grp` itself,
from its first block on and clamped to its size. -/
def MarkedBlock (i b : Nat) : Prop :=
  let firstBlock := ext4GroupFirstBlockNo sb.toResizeSb grp
  b = (gdp i).blockBitmap ∨ b = (gdp i).inodeBitmap
    ∨ (firstBlock ≤ (gdp i).inodeTable
        ∧ (gdp i).inodeTable + sb.sItbPerGroup < firstBlock + sb.blocksPerGroup)
      ∧ (gdp i).inodeTable ≤ b ∧ b < (gdp i).inodeTable + sb.sItbPerGroup
    ∨ i = grp ∧ firstBlock ≤ b
      ∧ b < firstBlock + min (superBlocks sb i + ext4BgNumGdb sb.toResizeSb i) sb.blocksPerGroup

/-- How many blocks of group `i` are looked at, with repetitions. -/
def marks (i : Nat) : Nat :=
  let firstBlock := ext4GroupFirstBlockNo sb.toResizeSb grp
  let bitmap := fun b => if firstBlock ≤ b ∧ b < firstBlock + sb.blocksPerGroup then 1 else 0
  bitmap (gdp i).blockBitmap + bitmap (gdp i).inodeBitmap
    + (if firstBlock ≤ (gdp i).inodeTable
        ∧ (gdp i).inodeTable + sb.sItbPerGroup < firstBlock + sb.blocksPerGroup
      then sb.sItbPerGroup else 0)
    + if i = grp then min (superBlocks sb i + ext4BgNumGdb sb.toResizeSb i) sb.blocksPerGroup
      else 0

/-- The clusters of the group with such a block, in the bytes that `ext4_count_free` reads. -/
def markedClusters : Set Nat :=
  {c | c < sb.blocksPerGroup >>> sb.sClusterBits / 8 * 8
    ∧ ∃ i < sb.sGroupsCount, ∃ b, MarkedBlock sb gdp grp i b ∧ InCluster sb grp c b}

/-- The layouts that are counted right. Where nothing is marked there must be no
metadata; elsewhere the clusters that are missed must be as many as those that
are counted for nothing, which the clusters behind the last whole byte always are. -/
def CountOk : Prop :=
  if ((List.range sb.sGroupsCount).map (marks sb gdp grp)).sum % 2 ^ 32 = 0 then
    metaClusters sb gdp grp = ∅
  else
    (metaClusters sb gdp grp \ markedClusters sb gdp grp).ncard
      = (markedClusters sb gdp grp \ metaClusters sb gdp grp).ncard
        + sb.blocksPerGroup >>> sb.sClusterBits % 8

/-- No inode table ends with the group or reaches over one of its ends, and the
rest is as `mke2fs` lays it out. -/
structure TablesInside : Prop where
  whole : 8 * 2 ^ sb.sClusterBits ∣ sb.blocksPerGroup
  primary : 1024 / sb.blocksize = sb.sFirstDataBlock
  head : ∀ i < sb.sGroupsCount,
    superBlocks sb i + ext4BgNumGdb sb.toResizeSb i ≤ sb.blocksPerGroup
  table : ∀ i < sb.sGroupsCount, let firstBlock := ext4GroupFirstBlockNo sb.toResizeSb grp
    (gdp i).inodeTable + sb.sItbPerGroup ≤ firstBlock
      ∨ firstBlock + sb.blocksPerGroup ≤ (gdp i).inodeTable
      ∨ firstBlock ≤ (gdp i).inodeTable
        ∧ (gdp i).inodeTable + sb.sItbPerGroup < firstBlock + sb.blocksPerGroup

end Model

variable {sb : InitSb} {gdp : Nat → GroupDesc} {grp i : Nat}

/-- The clusters of the blocks of an interval. -/
theorem mem_interval {lo n : Nat} (hlo : ext4GroupFirstBlockNo sb.toResizeSb grp ≤ lo)
    (hhi : lo + n ≤ ext4GroupFirstBlockNo sb.toResizeSb grp + sb.blocksPerGroup) (c : Nat) :
    c ∈ (List.range n).map (fun j =>
        (lo + j - ext4GroupFirstBlockNo sb.toResizeSb grp) >>> sb.sClusterBits)
      ↔ ∃ b, (lo ≤ b ∧ b < lo + n) ∧ InCluster sb grp c b := by
  rw [List.mem_map]
  constructor
  · rintro ⟨j, hj, rfl⟩
    have := List.mem_range.mp hj
    exact ⟨lo + j, by omega, by omega, by omega, rfl⟩
  · rintro ⟨b, hb, -, -, rfl⟩
    obtain ⟨j, rfl⟩ := Nat.exists_eq_add_of_le hb.1
    exact ⟨j, List.mem_range.mpr (by omega), rfl⟩

theorem metaClusters_le {c : Nat} (hc : c ∈ metaClusters sb gdp grp) :
    c ≤ sb.blocksPerGroup >>> sb.sClusterBits := by
  obtain ⟨i, -, b, -, h1, h2, rfl⟩ := hc
  rw [Nat.shiftRight_eq_div_pow, Nat.shiftRight_eq_div_pow]
  exact Nat.div_le_div_right (by omega)

theorem metaClusters_finite : (metaClusters sb gdp grp).Finite :=
  (Set.finite_le_nat _).subset fun _ => metaClusters_le

section Count

variable (hpos : 0 < sb.blocksPerGroup)

include hpos

/-- A bitmap is marked where it lies in the group. -/
theorem mem_bitmapBit (b c : Nat) :
    c ∈ (if b ≥ ext4GroupFirstBlockNo sb.toResizeSb grp
        ∧ b ≤ ext4GroupFirstBlockNo sb.toResizeSb grp + sb.blocksPerGroup - 1
      then [(b - ext4GroupFirstBlockNo sb.toResizeSb grp) >>> sb.sClusterBits] else [])
      ↔ InCluster sb grp c b := by
  split
  · rename_i hb
    rw [List.mem_singleton]
    exact ⟨fun h => ⟨hb.1, by omega, h.symm⟩, fun h => h.2.2.symm⟩
  · refine iff_of_false nofun ?_
    rintro ⟨h1, h2, -⟩
    omega

/-- The superblock and the descriptors that still fit into the group. -/
theorem head_fits : superBlocks sb grp
    + (if superBlocks sb grp + ext4BgNumGdb sb.toResizeSb grp > sb.blocksPerGroup
      then sb.blocksPerGroup - superBlocks sb grp else ext4BgNumGdb sb.toResizeSb grp)
      = min (superBlocks sb grp + ext4BgNumGdb sb.toResizeSb grp) sb.blocksPerGroup := by
  have : superBlocks sb grp ≤ 1 := by
    rw [superBlocks]
    split <;> decide
  split <;> omega

theorem mem_overheadBits (c : Nat) :
    c ∈ overheadBits sb gdp grp i ↔ ∃ b, MarkedBlock sb gdp grp i b ∧ InCluster sb grp c b := by
  simp only [overheadBits, MarkedBlock, List.mem_append, or_and_right, exists_or, or_assoc,
    exists_eq_left, mem_bitmapBit hpos]
  refine or_congr_right (or_congr_right (or_congr ?_ ?_))
  · split
    · rename_i ht
      rw [mem_interval ht.1 (by omega)]
      simp only [show ext4GroupFirstBlockNo sb.toResizeSb grp ≤ (gdp i).inodeTable
        ∧ (gdp i).inodeTable + sb.sItbPerGroup
          < ext4GroupFirstBlockNo sb.toResizeSb grp + sb.blocksPerGroup by omega, true_and]
    · refine iff_of_false nofun ?_
      rintro ⟨b, ⟨ht, -⟩, -⟩
      omega
  · split
    · rename_i hne
      exact iff_of_false nofun fun ⟨b, hb, _⟩ => hne hb.1
    · rename_i heq
      obtain rfl := not_not.mp heq
      -- the superblock sets bit 0 without a shift, which is where its cluster is
      have hsuper : List.range (superBlocks sb i)
          = (List.range (superBlocks sb i)).map (· >>> sb.sClusterBits) := by
        rw [superBlocks]
        split <;> simp
      have hhead := @mem_interval sb i _ _ (Nat.le_refl _) (Nat.add_le_add_left
        (Nat.min_le_right (superBlocks sb i + ext4BgNumGdb sb.toResizeSb i) _) _) c
      simp only [Nat.add_sub_cancel_left] at hhead
      simp only [true_and]
      rw [← hhead, ← head_fits hpos, List.range_add, List.map_append, List.map_map, ← hsuper]
      exact Iff.rfl

theorem length_overheadBits : (overheadBits sb gdp grp i).length = marks sb gdp grp i := by
  have hin : ∀ b, b ≤ ext4GroupFirstBlockNo sb.toResizeSb grp + sb.blocksPerGroup - 1
      ↔ b < ext4GroupFirstBlockNo sb.toResizeSb grp + sb.blocksPerGroup := fun b => by omega
  simp only [overheadBits, marks, List.length_append, hin, ge_iff_le, apply_ite List.length,
    List.length_map, List.length_range, List.length_singleton, List.length_nil]
  congr 1
  by_cases hi : i = grp
  · subst hi
    rw [if_neg (not_not.mpr rfl), if_pos rfl, head_fits hpos]
  · rw [if_pos hi, if_neg hi]

/-- What is counted: the clusters with a marked block, and those behind the last whole byte. -/
theorem countOverhead_marked : countOverhead sb gdp grp true
    = if ((List.range sb.sGroupsCount).map (marks sb gdp grp)).sum % 2 ^ 32 = 0 then 0
      else (markedClusters sb gdp grp).ncard + sb.blocksPerGroup >>> sb.sClusterBits % 8 := by
  have hlen : ((List.range sb.sGroupsCount).flatMap (overheadBits sb gdp grp)).length
      = ((List.range sb.sGroupsCount).map (marks sb gdp grp)).sum := by
    rw [List.length_flatMap, funext fun i => length_overheadBits hpos]
  have hset : markedClusters sb gdp grp
      = ((Finset.range (sb.blocksPerGroup >>> sb.sClusterBits / 8 * 8)).filter fun c =>
        setBits (fun _ => false)
          ((List.range sb.sGroupsCount).flatMap (overheadBits sb gdp grp)) c = true :
            Finset Nat) := by
    ext c
    rw [Finset.mem_coe, Finset.mem_filter, Finset.mem_range, setBits_eq, List.mem_flatMap]
    simp only [List.mem_range, mem_overheadBits hpos, Bool.false_eq_true, false_or]
    rfl
  rw [countOverhead, if_neg nofun, hset, Set.ncard_coe_finset]
  dsimp only
  rw [hlen]
  split
  · rfl
  · have hle := Finset.card_filter_le (Finset.range (sb.blocksPerGroup >>> sb.sClusterBits / 8 * 8))
      fun c => setBits (fun _ => false)
        ((List.range sb.sGroupsCount).flatMap (overheadBits sb gdp grp)) c = true
    rw [Finset.card_range] at hle
    omega

end Count

section Inside

variable (h : TablesInside sb gdp grp)

include h

theorem headStart_eq : headStart sb i = ext4GroupFirstBlockNo sb.toResizeSb i := by
  rw [headStart]
  split
  · rename_i hi
    rw [hi, h.primary, ext4GroupFirstBlockNo, Nat.zero_mul, Nat.zero_add]
  · rfl

/-- The head of a group is not in another one. -/
theorem head_inCluster (hi : i < sb.sGroupsCount) {b c : Nat}
    (hb : headStart sb i ≤ b
      ∧ b < headStart sb i + (superBlocks sb i + ext4BgNumGdb sb.toResizeSb i))
    (hc : InCluster sb grp c b) : i = grp := by
  have hhead := h.head i hi
  obtain ⟨h1, h2, -⟩ := hc
  rw [headStart_eq h] at hb
  unfold ext4GroupFirstBlockNo at *
  rcases Nat.lt_trichotomy i grp with hlt | heq | hlt
  · have := Nat.mul_le_mul_right sb.blocksPerGroup hlt
    rw [Nat.succ_mul] at this
    omega
  · exact heq
  · have := Nat.mul_le_mul_right sb.blocksPerGroup hlt
    rw [Nat.succ_mul] at this
    omega

theorem markedBlock_iff (hi : i < sb.sGroupsCount) {b c : Nat} (hc : InCluster sb grp c b) :
    MarkedBlock sb gdp grp i b ↔ MetaBlock sb gdp i b := by
  have htable := h.table i hi
  refine or_congr_right (or_congr_right (or_congr ?_ ⟨?_, fun hb => ?_⟩))
  · obtain ⟨h1, h2, -⟩ := hc
    omega
  · rintro ⟨rfl, hb⟩
    rw [headStart_eq h]
    omega
  · obtain rfl := head_inCluster h hi hb hc
    rw [headStart_eq h] at hb
    rw [Nat.min_eq_left (h.head i hi)]
    exact ⟨rfl, hb⟩

/-- Such layouts are counted right: what is marked is what holds metadata. -/
theorem markedClusters_eq : markedClusters sb gdp grp = metaClusters sb gdp grp := by
  obtain ⟨n, hn⟩ := h.whole
  have hbytes : sb.blocksPerGroup >>> sb.sClusterBits = 8 * n := by
    rw [Nat.shiftRight_eq_div_pow, hn, Nat.mul_comm 8, Nat.mul_assoc,
      Nat.mul_div_cancel_left _ (Nat.two_pow_pos _)]
  ext c
  have hmem : (∃ i < sb.sGroupsCount, ∃ b, MarkedBlock sb gdp grp i b ∧ InCluster sb grp c b)
      ↔ c ∈ metaClusters sb gdp grp :=
    exists_congr fun i => and_congr_right fun hi => exists_congr fun b =>
      and_congr_left fun hc => markedBlock_iff h hi hc
  rw [← hmem, markedClusters, Set.mem_ofPred_eq, and_iff_right_of_imp]
  rintro ⟨i, -, b, -, h1, h2, rfl⟩
  rw [hbytes, Nat.shiftRight_eq_div_pow, Nat.mul_div_cancel_left _ (by decide),
    Nat.div_lt_iff_lt_mul (Nat.two_pow_pos _), Nat.mul_comm n, Nat.mul_right_comm, ← hn]
  omega

end Inside

end Ext4.Balloc
