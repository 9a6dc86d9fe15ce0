import Ext4.Lib.SearchTree
import Ext4.Mballoc.Buddy

/-!
# Multiblock allocator — freeing blocks in a transaction

`ext4_free_blocks` clears the clusters in the on-disk bitmap but leaves
them used in the buddy: an entry on the freed-data list returns them when
the transaction has committed (`ext4_process_freed_data`). Entries also
hang in a red-black tree per group; as for the extent status tree, a tree
is its in-order sequence and a descent runs over any shape.

A list entry is deleted by its address in the source and by its value
here: two entries never cover the same cluster.
-/

namespace Ext4.Mballoc

open Bitmap SearchTree

/-- `struct ext4_free_data`. -/
structure Ext4FreeData where
  efdGroup : Nat
  efdStartCluster : Nat
  efdCount : Nat
  efdTid : Nat
deriving DecidableEq, Repr

/-- One group: its buddy, the buffer of its on-disk bitmap and the tree of
its freed extents. -/
structure GroupState where
  e4b : Ext4Buddy
  bitmapBh : Bits
  bbFreeRoot : List Ext4FreeData

/-- The part of `struct ext4_sb_info` the freed-data code works on. -/
structure Ext4SbInfo where
  groups : Nat → GroupState
  sFreedDataList : List Ext4FreeData
  sMbFreePending : Int

/-- The layout of the filesystem. `dataBlockValid` is the check against the
system zones. -/
structure FsLayout extends Geometry where
  clusterBits : Nat
  firstDataBlock : Nat
  clusters_pos : 0 < clustersPerGroup
  bgBlockBitmap : Nat → Nat
  bgInodeBitmap : Nat → Nat
  bgInodeTable : Nat → Nat
  itbPerGroup : Nat
  dataBlockValid : Nat → Nat → Bool

namespace FsLayout

variable (fs : FsLayout)

def clusterRatio : Nat := 2 ^ fs.clusterBits

def blocksPerGroup : Nat := fs.clustersPerGroup * fs.clusterRatio

/-- `EXT4_C2B`. -/
def c2b (cluster : Nat) : Nat := cluster * fs.clusterRatio

/-- `EXT4_NUM_B2C`. -/
def numB2c (blks : Nat) : Nat := (blks + fs.clusterRatio - 1) / fs.clusterRatio

/-- `ext4_get_group_no_and_offset`. -/
def groupNo (block : Nat) : Nat := (block - fs.firstDataBlock) / fs.blocksPerGroup

def groupOffset (block : Nat) : Nat :=
  (block - fs.firstDataBlock) % fs.blocksPerGroup / fs.clusterRatio

end FsLayout

namespace Ext4SbInfo

/-- Replace one group. -/
def setGroup (sb : Ext4SbInfo) (g : Nat) (grp : GroupState) : Ext4SbInfo :=
  { sb with groups := Function.update sb.groups g grp }

end Ext4SbInfo

/-! ## The freed-data list -/

/-- `ext4_try_merge_freed_extent`: the grown new entry if the old one goes
up in it. -/
def ext4TryMergeFreedExtent (entry newEntry : Ext4FreeData) : Option Ext4FreeData :=
  if entry.efdTid ≠ newEntry.efdTid ∨ entry.efdGroup ≠ newEntry.efdGroup then none
  else if entry.efdStartCluster + entry.efdCount = newEntry.efdStartCluster then
    some { newEntry with
      efdStartCluster := entry.efdStartCluster
      efdCount := newEntry.efdCount + entry.efdCount }
  else if newEntry.efdStartCluster + newEntry.efdCount = entry.efdStartCluster then
    some { newEntry with efdCount := newEntry.efdCount + entry.efdCount }
  else none

/-- The direction of the descent of `ext4_mb_free_metadata`. -/
def freeDir (cluster : Nat) (entry : Ext4FreeData) : Ordering :=
  if cluster < entry.efdStartCluster then .lt
  else if entry.efdStartCluster + entry.efdCount ≤ cluster then .gt
  else .eq

/-- Where `ext4_mb_free_metadata` links a new entry; `none` if its first
cluster is on the list already. -/
def linkEntry (rb : Shape Ext4FreeData) (root : List Ext4FreeData) (newEntry : Ext4FreeData) :
    Option (Zip Ext4FreeData) :=
  match descend (freeDir newEntry.efdStartCluster) (rb.tree root) with
  | none => some ⟨[], newEntry, []⟩
  | some z =>
      match freeDir newEntry.efdStartCluster z.cur with
      | .eq => none
      | .lt => some ⟨z.before, newEntry, z.cur :: z.after⟩
      | .gt => some ⟨z.before ++ [z.cur], newEntry, z.after⟩

/-- The merge with `rb_prev`. -/
def mergePrev (list : List Ext4FreeData) (z : Zip Ext4FreeData) :
    List Ext4FreeData × Zip Ext4FreeData :=
  match z.prev with
  | none => (list, z)
  | some p =>
      match ext4TryMergeFreedExtent p.cur z.cur with
      | none => (list, z)
      | some newEntry => (list.erase p.cur, ⟨p.before, newEntry, z.after⟩)

/-- The merge with `rb_next`. -/
def mergeNext (list : List Ext4FreeData) (z : Zip Ext4FreeData) :
    List Ext4FreeData × Zip Ext4FreeData :=
  match z.next with
  | none => (list, z)
  | some n =>
      match ext4TryMergeFreedExtent n.cur z.cur with
      | none => (list, z)
      | some newEntry => (list.erase n.cur, ⟨z.before, newEntry, n.after⟩)

/-- `ext4_mb_free_metadata`. -/
def ext4MbFreeMetadata (rb : Shape Ext4FreeData) (sb : Ext4SbInfo) (newEntry : Ext4FreeData) :
    Ext4SbInfo :=
  let grp := sb.groups newEntry.efdGroup
  match linkEntry rb grp.bbFreeRoot newEntry with
  | none => sb
  | some z =>
      let (list, z) := mergePrev sb.sFreedDataList z
      let (list, z) := mergeNext list z
      { sb.setGroup newEntry.efdGroup { grp with bbFreeRoot := z.toList } with
        sFreedDataList := list ++ [z.cur]
        sMbFreePending := sb.sMbFreePending + newEntry.efdCount }

/-- The start of `ext4_process_freed_data`: the entries in front that belong
to the transaction are cut off. -/
def cutFreedData (sb : Ext4SbInfo) (commitTid : Nat) : List Ext4FreeData × Ext4SbInfo :=
  (sb.sFreedDataList.takeWhile (fun e => e.efdTid = commitTid),
    { sb with sFreedDataList := sb.sFreedDataList.dropWhile (fun e => e.efdTid = commitTid) })

/-- `ext4_free_data_in_buddy`; `none` is a `BUG_ON`. -/
def ext4FreeDataInBuddy (geo : Geometry) (sb : Ext4SbInfo) (entry : Ext4FreeData) :
    Option Ext4SbInfo :=
  let grp := sb.groups entry.efdGroup
  match mbFreeBlocks geo grp.e4b entry.efdStartCluster entry.efdCount with
  | none => none
  | some e4b =>
      some { sb.setGroup entry.efdGroup
          { grp with e4b := e4b, bbFreeRoot := grp.bbFreeRoot.erase entry } with
        sMbFreePending := sb.sMbFreePending - entry.efdCount }

/-! ## Freeing -/

/-- The arguments of `ext4_free_blocks` and what it asks its inode and
handle for. -/
structure FreeReq where
  handleValid : Bool
  writebackData : Bool
  block : Nat
  count : Nat
  metadata : Bool
  validated : Bool
  nofreeFirstCluster : Bool
  nofreeLastCluster : Bool

/-- The outcomes of the calls of one turn of the loop: reading the bitmap
and the descriptor, the write accesses and loading the buddy; then marking
the buffers dirty. -/
structure FreeEnv where
  accessOk : Bool
  dirtyOk : Bool

variable (fs : FsLayout)

/-- The range rounded to clusters; `none` if nothing is left of it. -/
def clusterRange (req : FreeReq) : Option (Nat × Nat) :=
  let overflow := req.block % fs.clusterRatio
  let range : Option (Nat × Nat) :=
    if overflow ≠ 0 then
      if req.nofreeFirstCluster then
        let overflow := fs.clusterRatio - overflow
        if overflow < req.count then some (req.block + overflow, req.count - overflow) else none
      else some (req.block - overflow, req.count + overflow)
    else some (req.block, req.count)
  match range with
  | none => none
  | some (block, count) =>
      let overflow := count % fs.clusterRatio
      if overflow ≠ 0 then
        if req.nofreeLastCluster then
          if overflow < count then some (block, count - overflow) else none
        else some (block, count + (fs.clusterRatio - overflow))
      else some (block, count)

/-- `in_range`. -/
def inRange (b first len : Nat) : Bool := first ≤ b && b ≤ first + len - 1

/-- The range meets the bitmaps or the inode table of the group. -/
def inSystemZone (g block count : Nat) : Bool :=
  inRange (fs.bgBlockBitmap g) block count || inRange (fs.bgInodeBitmap g) block count ||
    inRange block (fs.bgInodeTable g) fs.itbPerGroup ||
    inRange (block + count - 1) (fs.bgInodeTable g) fs.itbPerGroup

/-- The group-locked section of `ext4_free_blocks`: the clusters are free
on disk, and go to the freed-data list of transaction `tid` or, without
one, straight to the buddy. -/
def freeSection (rb : Shape Ext4FreeData) (tid : Option Nat) (sb : Ext4SbInfo)
    (g bit countClusters : Nat) : Option Ext4SbInfo :=
  let grp := sb.groups g
  let grp := { grp with bitmapBh := fill grp.bitmapBh bit countClusters false }
  match tid with
  | some tid => some (ext4MbFreeMetadata rb (sb.setGroup g grp) ⟨g, bit, countClusters, tid⟩)
  | none =>
      match mbFreeBlocks fs.toGeometry grp.e4b bit countClusters with
      | none => none
      | some e4b => some (sb.setGroup g { grp with e4b := e4b })

/-- `ext4_free_blocks` from `do_more` on, a turn per unit of fuel. The
second result lists the extents that were given to `freeSection`. -/
def freeLoop (rb : Shape Ext4FreeData) (tid : Option Nat) :
    Nat → List FreeEnv → Nat → Nat → Ext4SbInfo → Option (Ext4SbInfo × List (Nat × Nat × Nat))
  | 0, _, _, _, _ => none
  | fuel + 1, envs, block, count, sb =>
      let env := envs.headD ⟨true, true⟩
      let g := fs.groupNo block
      let bit := fs.groupOffset block
      if (sb.groups g).e4b.bdInfo.bbitmapCorrupt then some (sb, [])
      else
        let overflow :=
          if fs.blocksPerGroup < fs.c2b bit + count then fs.c2b bit + count - fs.blocksPerGroup
          else 0
        let count := count - overflow
        let countClusters := fs.numB2c count
        if !env.accessOk || inSystemZone fs g block count then some (sb, [])
        else
          match freeSection fs rb tid sb g bit countClusters with
          | none => none
          | some sb =>
              if overflow ≠ 0 && env.dirtyOk then
                (freeLoop rb tid fuel envs.tail (block + count) overflow sb).map
                  fun r => (r.1, (g, bit, countClusters) :: r.2)
              else some (sb, [(g, bit, countClusters)])

/-- `ext4_free_blocks` in transaction `tid`. A turn passes a block. -/
def ext4FreeBlocks (rb : Shape Ext4FreeData) (envs : List FreeEnv) (tid : Nat) (req : FreeReq)
    (sb : Ext4SbInfo) : Option (Ext4SbInfo × List (Nat × Nat × Nat)) :=
  if !req.validated && !fs.dataBlockValid req.block req.count then some (sb, [])
  else
    match clusterRange fs req with
    | none => some (sb, [])
    | some (block, count) =>
        let tid := if req.handleValid && (req.metadata || !req.writebackData) then some tid
          else none
        freeLoop fs rb tid (count + 1) envs block count sb

end Ext4.Mballoc
