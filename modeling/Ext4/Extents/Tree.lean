import Ext4.ExtentsStatus.Basic
import Ext4.Lib.IndexTree
import Ext4.Lib.Segments

/-!
# Extent trees — nodes, paths and lookups

The extent tree of an inode (ext4_extents.h, extents.c): extents in the
leaves, index entries above them, the root in the inode with room for four
entries. The blocks of the tree are modelled as the tree they form, an
`ext4_ext_path` as a path of `IndexTree`; `p_ext` is the first extent behind
the cut of the leaf, `p_idx` the entry a level is opened at.

Reading a block and getting write access to it succeed; allocating one may
fail.
-/

namespace Ext4.Extents

open IndexTree
open Ext4.ExtentsStatus (extMaxBlocks)

/-- `struct ext4_extent`. `eeLen` is the raw 16-bit field; `eeStart` is the
physical block of `ee_start_hi` and `ee_start_lo` together. -/
structure Extent where
  eeBlock : Nat
  eeLen : Nat
  eeStart : Nat
deriving DecidableEq, Repr

/-- `EXT_INIT_MAX_LEN`. -/
def extInitMaxLen : Nat := 2 ^ 15

/-- `EXT_UNWRITTEN_MAX_LEN`. -/
def extUnwrittenMaxLen : Nat := extInitMaxLen - 1

/-- `EXT4_MAX_EXTENT_DEPTH`. -/
def ext4MaxExtentDepth : Nat := 5

/-- An extent of length `0x8000` counts as initialized. -/
def ext4ExtIsUnwritten (ex : Extent) : Bool := decide (extInitMaxLen < ex.eeLen)

def ext4ExtGetActualLen (ex : Extent) : Nat :=
  if ex.eeLen ≤ extInitMaxLen then ex.eeLen else ex.eeLen - extInitMaxLen

def ext4ExtMarkUnwritten (ex : Extent) : Extent :=
  { ex with eeLen := ex.eeLen ||| extInitMaxLen }

def ext4ExtMarkInitialized (ex : Extent) : Extent :=
  { ex with eeLen := ext4ExtGetActualLen ex }

/-- The first logical block behind an extent. -/
def Extent.eeEnd (ex : Extent) : Nat := ex.eeBlock + ext4ExtGetActualLen ex

/-- `ee_len = len`, marked unwritten again if the extent was. -/
def Extent.withLen (ex : Extent) (len : Nat) (unwritten : Bool) : Extent :=
  if unwritten then ext4ExtMarkUnwritten { ex with eeLen := len } else { ex with eeLen := len }

/-- What an extent says about a block: its physical block, and whether it is
unwritten. -/
def blockView : Segments.View Extent (Nat × Bool) where
  lo := Extent.eeBlock
  hi := Extent.eeEnd
  val ex b := (ex.eeStart + (b - ex.eeBlock), ext4ExtIsUnwritten ex)

/-- The mapping a sequence of extents describes. -/
def mapping (es : List Extent) : Nat → Option (Nat × Bool) := blockView.get es

/-- An extent as the format allows it: neither empty nor too long, and inside
the logical space. -/
structure Extent.Ok (ex : Extent) : Prop where
  len_pos : 0 < ext4ExtGetActualLen ex
  len_lt : ex.eeLen < 2 ^ 16
  end_le : ex.eeEnd ≤ extMaxBlocks

instance (ex : Extent) : Decidable ex.Ok :=
  decidable_of_iff (0 < ext4ExtGetActualLen ex ∧ ex.eeLen < 2 ^ 16 ∧ ex.eeEnd ≤ extMaxBlocks)
    ⟨fun h => ⟨h.1, h.2.1, h.2.2⟩, fun h => ⟨h.1, h.2, h.3⟩⟩

/-! ## Lengths -/

variable {ex : Extent}

theorem actualLen_le (h : ex.Ok) : ext4ExtGetActualLen ex ≤ extInitMaxLen := by
  have h1 := h.len_lt
  rw [ext4ExtGetActualLen]
  split
  · assumption
  · rw [extInitMaxLen] at *
    omega

theorem actualLen_unwritten (h : ex.Ok) (hu : ext4ExtIsUnwritten ex = true) :
    ext4ExtGetActualLen ex ≤ extUnwrittenMaxLen := by
  have h1 := h.len_lt
  rw [ext4ExtIsUnwritten, decide_eq_true_eq] at hu
  rw [ext4ExtGetActualLen, if_neg (by omega), extUnwrittenMaxLen, extInitMaxLen]
  omega

@[simp] theorem withLen_eeBlock (ex : Extent) (len : Nat) (u : Bool) :
    (ex.withLen len u).eeBlock = ex.eeBlock := by
  cases u <;> rfl

@[simp] theorem withLen_eeStart (ex : Extent) (len : Nat) (u : Bool) :
    (ex.withLen len u).eeStart = ex.eeStart := by
  cases u <;> rfl

/-- The lengths an extent of either state may have. -/
def maxLen (unwritten : Bool) : Nat := if unwritten then extUnwrittenMaxLen else extInitMaxLen

variable {len : Nat} {u : Bool}

theorem withLen_eeLen (hlen : len ≤ maxLen u) :
    (ex.withLen len u).eeLen = if u then len + extInitMaxLen else len := by
  cases u with
  | false => rfl
  | true =>
    have hlt : len < 2 ^ 15 := by
      rw [maxLen, if_pos rfl, extUnwrittenMaxLen, extInitMaxLen] at hlen
      omega
    show len ||| extInitMaxLen = len + extInitMaxLen
    have h := Nat.two_pow_add_eq_or_of_lt hlt 1
    rw [extInitMaxLen, Nat.or_comm, Nat.add_comm]
    simpa using h.symm

theorem withLen_actualLen (hpos : 0 < len) (hlen : len ≤ maxLen u) :
    ext4ExtGetActualLen (ex.withLen len u) = len := by
  rw [ext4ExtGetActualLen, withLen_eeLen hlen]
  cases u with
  | false => exact if_pos hlen
  | true => simp only [if_true]; rw [if_neg (by omega), Nat.add_sub_cancel]

theorem withLen_unwritten (hpos : 0 < len) (hlen : len ≤ maxLen u) :
    ext4ExtIsUnwritten (ex.withLen len u) = u := by
  rw [ext4ExtIsUnwritten, withLen_eeLen hlen]
  cases u with
  | false => exact decide_eq_false (Nat.not_lt.mpr hlen)
  | true => simp only [if_true]; exact decide_eq_true (by omega)

theorem actualLen_le_maxLen (h : ex.Ok) :
    ext4ExtGetActualLen ex ≤ maxLen (ext4ExtIsUnwritten ex) := by
  cases hu : ext4ExtIsUnwritten ex with
  | false => exact actualLen_le h
  | true => exact actualLen_unwritten h hu

theorem withLen_eeEnd (hpos : 0 < len) (hlen : len ≤ maxLen u) :
    (ex.withLen len u).eeEnd = ex.eeBlock + len := by
  rw [Extent.eeEnd, withLen_actualLen hpos hlen, withLen_eeBlock]

theorem withLen_ok (hpos : 0 < len) (hlen : len ≤ maxLen u)
    (hend : ex.eeBlock + len ≤ extMaxBlocks) :
    (ex.withLen len u).Ok where
  len_pos := by rwa [withLen_actualLen hpos hlen]
  len_lt := by
    rw [withLen_eeLen hlen]
    have : maxLen u ≤ 2 ^ 15 := by cases u <;> decide
    have h2 : extInitMaxLen = 2 ^ 15 := rfl
    split
    · have : maxLen u ≤ 2 ^ 15 - 1 := by
        rename_i hu
        rw [hu]
        decide
      omega
    · omega
  end_le := by rwa [withLen_eeEnd hpos hlen]

/-! ## Trees and lookups -/

/-- The error codes the functions return; `bug` stands for a failed `BUG_ON`. -/
inductive Errno where
  | enospc
  | efscorrupted
  | efsbadcrc
  | einval
  | eagain
  | eio
  | enomem
  | bug
deriving DecidableEq, Repr

/-- `ext4_ext_space_root` and `ext4_ext_space_root_idx`: what fits into
`i_data` behind the header. -/
def ext4ExtSpaceRoot : Nat := (60 - 12) / 12

/-- `ext4_ext_space_block` and `ext4_ext_space_block_idx`. -/
def ext4ExtSpaceBlock (blocksize : Nat) : Nat := (blocksize - 12) / 12

/-- The tree below an inode. -/
structure ExtTree where
  depth : Nat
  root : Node Extent depth

/-- `struct ext4_ext_path`, with the tree it belongs to. -/
structure ExtPath where
  depth : Nat
  path : Path Extent depth

/-- The tree of a path. -/
def ExtPath.tree (p : ExtPath) : ExtTree := ⟨p.depth, close p.depth p.path⟩

/-- The extents of a tree, in order. -/
def ExtTree.extents (t : ExtTree) : List Extent := flat t.depth t.root

/-- The mapping of a file. -/
def ExtTree.mapping (t : ExtTree) : Nat → Option (Nat × Bool) := Extents.mapping t.extents

def ext4FindExtent (t : ExtTree) (block : Nat) : Except Errno ExtPath :=
  if ext4MaxExtentDepth < t.depth then .error .efscorrupted
  else
    match find Extent.eeBlock t.depth t.root block with
    | none => .error .efscorrupted
    | some p => .ok ⟨t.depth, p⟩

/-- The walk of `ext4_ext_next_allocated_block` from the leaf up. -/
def nextAllocated : (d : Nat) → Path Extent d → Option Nat
  | 0, c => c.after.tail.head?.map Extent.eeBlock
  | d + 1, p => (nextAllocated d p.down).or (p.after.head?.map Entry.key)

def ext4ExtNextAllocatedBlock (p : ExtPath) : Nat :=
  (nextAllocated p.depth p.path).getD extMaxBlocks

/-- `ext4_ext_next_leaf_block`; `none` is `EXT_MAX_BLOCKS`. -/
def ext4ExtNextLeafBlock : (d : Nat) → Path Extent d → Option Nat
  | 0, _ => none
  | d + 1, p => (ext4ExtNextLeafBlock d p.down).or (p.after.head?.map Entry.key)

/-- A well-formed tree. -/
structure ExtTree.Ok (blocksize : Nat) (t : ExtTree) : Prop where
  keyed : Keyed Extent.eeBlock (ext4ExtSpaceBlock blocksize) t.depth t.root
  root_le : width t.depth t.root ≤ ext4ExtSpaceRoot
  extents_ok : ∀ ex ∈ t.extents, ex.Ok
  separated : blockView.Separated t.extents

variable {t : ExtTree} {es : List Extent} {blocksize : Nat}

/-- A tree that is only a root. -/
theorem ExtTree.Ok.of_root (hlen : es.length ≤ ext4ExtSpaceRoot) (hok : ∀ ex ∈ es, ex.Ok)
    (hsep : es.Pairwise fun x y => x.eeEnd ≤ y.eeBlock) : ExtTree.Ok blocksize ⟨0, es⟩ :=
  ⟨trivial, hlen, hok, hsep⟩

theorem eeBlock_lt_eeEnd (h : ex.Ok) : ex.eeBlock < ex.eeEnd :=
  Nat.lt_add_of_pos_right h.len_pos

theorem pairwise_lt_of_separated (hok : ∀ ex ∈ es, ex.Ok)
    (hs : blockView.Separated es) : es.Pairwise fun x y => x.eeBlock < y.eeBlock :=
  List.Pairwise.imp_of_mem
    (fun hx _ hxy => Nat.lt_of_lt_of_le (eeBlock_lt_eeEnd (hok _ hx)) hxy) hs

theorem ExtTree.Ok.sorted (h : t.Ok blocksize) :
    (flat t.depth t.root).Pairwise fun x y => x.eeBlock < y.eeBlock :=
  pairwise_lt_of_separated h.extents_ok h.separated

theorem ext4FindExtent_spec (h : t.Ok blocksize) (hd : t.depth ≤ ext4MaxExtentDepth) (b : Nat) :
    ∃ p, ext4FindExtent t b = .ok ⟨t.depth, p⟩ ∧ close t.depth p = t.root
      ∧ Located Extent.eeBlock b t.depth p := by
  obtain ⟨p, hclose, hroutes⟩ := exists_routes h.keyed h.sorted b
  refine ⟨p, ?_, hclose, hroutes.located (hclose ▸ h.keyed) (hclose ▸ h.sorted)⟩
  rw [ext4FindExtent, if_neg (Nat.not_lt.mpr hd), ← hclose, find_close t.depth p hroutes]

section Next

variable {cap d : Nat} {p : Path Extent d}

theorem firstKey_after {d : Nat} {xs : List (Entry (Node Extent d))}
    (h : ∀ x ∈ xs, Fits Extent.eeBlock cap d (Keyed Extent.eeBlock cap d) x) :
    (xs.flatMap fun x => flat d x.child).head?.map Extent.eeBlock = xs.head?.map Entry.key := by
  cases xs with
  | nil => rfl
  | cons x xs => exact firstKey_cons (h x (by simp))

theorem nextAllocated_eq (h : Keyed Extent.eeBlock cap d (close d p)) :
    nextAllocated d p = ((leaf d p).after.tail ++ right d p).head?.map Extent.eeBlock := by
  induction d with
  | zero => rw [nextAllocated, leaf, right, List.append_nil]
  | succ d ih =>
    obtain ⟨-, h2, h3⟩ := keyed_succ.mp h
    rw [nextAllocated, ih h2.inner, ← firstKey_after h3, leaf, right]
    simp only [List.head?_append, Option.map_or, Option.or_assoc]

theorem ext4ExtNextLeafBlock_eq (h : Keyed Extent.eeBlock cap d (close d p)) :
    ext4ExtNextLeafBlock d p = (right d p).head?.map Extent.eeBlock := by
  induction d with
  | zero => rfl
  | succ d ih =>
    obtain ⟨-, h2, h3⟩ := keyed_succ.mp h
    rw [ext4ExtNextLeafBlock, ih h2.inner, ← firstKey_after h3, right, List.head?_append,
      Option.map_or]

end Next

end Ext4.Extents
