import Ext4.Delalloc.Clusters
import Ext4.Extents.Convert
import Ext4.MapBlocks.Cache

/-!
# Mapping blocks — `ext4_ext_map_blocks`

`ext4_ext_map_blocks` (extents.c) looks a logical block up. A block in an
extent is mapped as it is, or the extent changes its state on the way
(`ext4_ext_handle_unwritten_extents`, `convert_initialized_extent`). A block
in a hole is reported as a hole, or gets a new extent: in a cluster that a
neighbour has already (`get_implied_cluster_alloc`), or in clusters from
`ext4_mb_new_blocks`, cut down so that the extent ends where the next one
begins (`ext4_ext_check_overlap`).

Requests that go beyond the last logical block wrap around in 32 bits; here
they are numbers. The accounting of delayed reservations behind an allocation
is not part of this model, and neither are the hints for the allocator.
-/

namespace Ext4.MapBlocks

open IndexTree Ext4.Extents
open Ext4.Delalloc (Clusters)
open Ext4.ExtentsStatus hiding Errno

/-- `EXT4_MAP_NEW`, `EXT4_MAP_MAPPED` and `EXT4_MAP_UNWRITTEN` in `m_flags`. -/
structure MapFlags where
  new : Bool
  mapped : Bool
  unwritten : Bool
deriving DecidableEq, Repr

/-- `struct ext4_map_blocks`. -/
structure Ext4MapBlocks where
  mPblk : Nat
  mLblk : Nat
  mLen : Nat
  mFlags : MapFlags
deriving DecidableEq, Repr

/-- The flags `EXT4_GET_BLOCKS_…` that decide what happens to the tree. -/
structure GetBlocks where
  create : Bool
  unwritExt : Bool
  preIo : Bool
  convert : Bool
  convertUnwritten : Bool
  keepSize : Bool
  zero : Bool
deriving DecidableEq, Repr

/-- What a call leaves behind: its result, the request with what was filled
in, the tree, the tree blocks that were freed, the extents that were zeroed on
disk and those passed to `ext4_zeroout_es`, the extent passed to
`ext4_ext_insert_extent`, and the data blocks given back when that failed. -/
structure Mapped where
  res : Except Errno Nat
  map : Ext4MapBlocks
  tree : ExtTree
  freed : List Nat
  zeroed : List Extent
  recorded : List Extent
  inserted : Option Extent
  released : Option (Nat × Nat)

/-- What the surroundings decide about a call. `zeroout` is the result of
`ext4_issue_zeroout` for `EXT4_GET_BLOCKS_ZERO`, `eofblocks` that of
`check_eofblocks_fl`; `read` says which tree blocks cannot be read, and
`newBlocks` is `ext4_mb_new_blocks`: for a number of clusters the first block
and the number of clusters it has found. -/
structure MapEnv (blocksize : Nat) where
  lookup : LookupEnv
  mark : MarkEnv blocksize
  init : InitEnv blocksize
  zeroout : Option Errno
  eofblocks : Option Errno
  read : Nat → Option Errno
  newBlocks : Nat → Except Errno (Nat × Nat)
  insert : InsertEnv
  insert_blocksize : insert.blocksize = blocksize

section Status

variable {blocksize : Nat}

/-- The extent status tree of an inode as a call finds it. -/
def MapEnv.status (env : MapEnv blocksize) (i : Nat) (sb : Ext4SbInfo) : StatusEnv :=
  ⟨env.lookup.rb, env.lookup.allocs, i, sb⟩

/-- The surroundings with the extent status tree `es`. -/
def MapEnv.on (env : MapEnv blocksize) (es : StatusEnv) : MapEnv blocksize :=
  let range := fun r : RangeEnv blocksize =>
    { r with first := { r.first with es }, second := { r.second with es } }
  { env with
    mark := { env.mark with range := range env.mark.range }
    init := { env.init with range := range env.init.range, es } }

end Status

section Found

variable {blocksize : Nat} (env : MapEnv blocksize) (flags : GetBlocks)

/-- A result that comes with a changed range and nothing new. -/
def Mapped.ofRange (r : RangeDone) (res : Except Errno Nat) (map : Ext4MapBlocks) : Mapped :=
  ⟨res, map, r.tree, r.freed, r.zeroed, r.recorded, none, none⟩

/-- The label `out1` of `ext4_ext_handle_unwritten_extents`, and `out` of
`ext4_ext_map_blocks`. -/
def fillIn (r : RangeDone) (map : Ext4MapBlocks) (allocated newblock : Nat) : Mapped :=
  let allocated := min allocated map.mLen
  .ofRange r (.ok allocated) { map with mPblk := newblock, mLen := allocated }

/-- The label `map_out`. -/
def mapOut (r : RangeDone) (map : Ext4MapBlocks) (allocated newblock : Nat) : Mapped :=
  let map := { map with mFlags := { map.mFlags with mapped := true } }
  match if flags.keepSize then none else env.eofblocks with
  | some e => .ofRange r (.error e) map
  | none => fillIn r map allocated newblock

/-- The label `out`: `r` says how many blocks were converted. -/
def converted (r : RangeDone) (map : Ext4MapBlocks) (unwritten : Bool) (allocated newblock : Nat) :
    Mapped :=
  match r.res with
  | .error e => .ofRange r (.error e) map
  | .ok 0 => .ofRange r (.ok allocated) map
  | .ok (n + 1) =>
      mapOut env flags r { map with
        mLen := min (n + 1) map.mLen
        mFlags := ⟨true, map.mFlags.mapped, map.mFlags.unwritten || unwritten⟩ }
        (min (n + 1) map.mLen) newblock

/-- `ext4_ext_handle_unwritten_extents`. -/
def ext4ExtHandleUnwrittenExtents (map : Ext4MapBlocks) (p : ExtPath) (allocated newblock : Nat) :
    Mapped :=
  let unwritten := { map with mFlags := { map.mFlags with unwritten := true } }
  let same : RangeDone := ⟨.ok 0, p.tree, [], [], []⟩
  if flags.preIo then
    converted env flags (ext4SplitConvertExtents env.mark.range env.mark.eofBlock
      flags.convertUnwritten map.mLblk map.mLen p) map true allocated newblock
  else if flags.convert then
    let allocated := if flags.zero then min allocated map.mLen else allocated
    match if flags.zero then env.zeroout else none with
    | some e => .ofRange same (.error e) map
    | none =>
        let r := ext4ConvertUnwrittenExtentsEndio env.mark map.mLblk map.mLen p
        let err := match r.res with
          | .error e => some e
          | .ok _ => env.eofblocks
        let allocated := min allocated map.mLen
        .ofRange r (match err with
          | some e => .error e
          | none => .ok allocated)
          { map with
            mPblk := newblock, mLen := allocated, mFlags := { map.mFlags with mapped := true } }
  else if flags.unwritExt then mapOut env flags same unwritten allocated newblock
  else if flags.create = false then fillIn same unwritten allocated newblock
  else
    converted env flags (ext4ExtConvertToInitialized env.init flags.preIo map.mLblk map.mLen p) map
      false allocated newblock

/-- `ext4_ext_map_blocks` for a block in the extent `ex` of the path. Where a
written extent becomes unwritten, `m_pblk` is left as it is. -/
def mapFound (map : Ext4MapBlocks) (p : ExtPath) (ex : Extent) : Mapped :=
  let newblock := map.mLblk - ex.eeBlock + ex.eeStart
  let allocated := ext4ExtGetActualLen ex - (map.mLblk - ex.eeBlock)
  if ext4ExtIsUnwritten ex = false then
    if flags.convertUnwritten then
      let r := convertInitializedExtent env.mark env.eofblocks map.mLblk map.mLen allocated p
      match r.res with
      | .error e => .ofRange r (.error e) map
      | .ok n => .ofRange r (.ok n)
          { map with mLen := n, mFlags := { map.mFlags with unwritten := true } }
    else
      fillIn ⟨.ok 0, p.tree, [], [], []⟩
        { map with mFlags := { map.mFlags with mapped := true } } allocated newblock
  else ext4ExtHandleUnwrittenExtents env flags map p allocated newblock

end Found

/-! ## Holes -/

/-- `ext4_ext_determine_hole`: the start and the length of the hole around a
block; no result is a `BUG_ON`. -/
def ext4ExtDetermineHole (p : ExtPath) (lblk : Nat) : Option (Nat × Nat) :=
  match p.ext with
  | none => some (0, extMaxBlocks)
  | some ex =>
      if lblk < ex.eeBlock then some (lblk, ex.eeBlock - lblk)
      else if ex.eeEnd ≤ lblk then
        let next := ext4ExtNextAllocatedBlock p
        if next = ex.eeEnd then none else some (ex.eeEnd, next - ex.eeEnd)
      else none

/-- `ext4_ext_map_blocks` for a block in a hole, without
`EXT4_GET_BLOCKS_CREATE`. -/
def mapHole {blocksize : Nat} (env : MapEnv blocksize) (i : Nat) (map : Ext4MapBlocks) (p : ExtPath)
    (sb : Ext4SbInfo) : Option (Mapped × Ext4SbInfo) :=
  (ext4ExtDetermineHole p map.mLblk).bind fun (holeStart, holeLen) =>
    (ext4ExtPutGapInCache env.lookup i sb (BitVec.ofNat 32 holeStart)
        (BitVec.ofNat 32 holeLen)).map fun sb' =>
      let holeLen := holeLen - (map.mLblk - holeStart)
      (⟨.ok 0, { map with mPblk := 0, mLen := min map.mLen holeLen }, p.tree, [], [], [], none,
        none⟩, sb')

/-! ## New blocks -/

section New

variable {blocksize : Nat} (env : MapEnv blocksize) (c : Clusters) (flags : GetBlocks)

/-- `get_implied_cluster_alloc`, with `ext4_ext_next_allocated_block` of the
path; the offset in a cluster is a remainder. -/
def getImpliedClusterAlloc (map : Ext4MapBlocks) (ex : Extent) (next : Nat) :
    Option Ext4MapBlocks :=
  let cOffset := map.mLblk % c.ratio
  let exClusterStart := ex.eeBlock / c.ratio
  let exClusterEnd := (ex.eeEnd - 1) / c.ratio
  let rrClusterStart := map.mLblk / c.ratio
  if rrClusterStart = exClusterEnd ∨ rrClusterStart = exClusterStart then
    let eeStart := if rrClusterStart = exClusterEnd then ex.eeStart + ext4ExtGetActualLen ex - 1
      else ex.eeStart
    let len := min map.mLen (c.ratio - cOffset)
    let len := if map.mLblk < ex.eeBlock then min len (ex.eeBlock - map.mLblk) else len
    let len := if ex.eeBlock < map.mLblk then min len (next - map.mLblk) else len
    some { map with mPblk := eeStart - eeStart % c.ratio + cOffset, mLen := len }
  else none

/-- `ext4_ext_check_overlap` for `len1` blocks from `b1` on: the length they
are cut down to, if they overlap. -/
def ext4ExtCheckOverlap (b1 len1 : Nat) (p : ExtPath) : Option Nat :=
  match p.ext with
  | none => none
  | some ex =>
      let b2 := ex.eeBlock - ex.eeBlock % c.ratio
      let next := ext4ExtNextAllocatedBlock p
      if b2 < b1 ∧ next = extMaxBlocks then none
      else
        let b2 := if b2 < b1 then next - next % c.ratio else b2
        -- the wrap through zero
        let len := if 2 ^ 32 ≤ b1 + len1 then extMaxBlocks - b1 else len1
        if b2 < b1 + len then some (b2 - b1)
        else if 2 ^ 32 ≤ b1 + len1 then some len
        else none

/-- The extent that is inserted: its length has 16 bits. -/
def newExtent (lblk len pblk : Nat) (unwritten : Bool) : Extent :=
  Extent.withLen ⟨lblk, 0, pblk⟩ (len % 2 ^ 16) unwritten

/-- The label `got_allocated_blocks`. `claimed` are the blocks to give back if
the extent cannot be inserted. -/
def gotAllocatedBlocks (map : Ext4MapBlocks) (p : ExtPath) (pblk len : Nat)
    (claimed : Option (Nat × Nat)) : Mapped :=
  let newex := newExtent map.mLblk len pblk flags.unwritExt
  let map := { map with
    mFlags := { map.mFlags with unwritten := map.mFlags.unwritten || flags.unwritExt } }
  -- `BUG_ON` in `ext4_ext_mark_unwritten`
  if flags.unwritExt = true ∧ len % extInitMaxLen = 0 then
    ⟨.error .bug, map, p.tree, [], [], [], none, none⟩
  else
    match if flags.keepSize then none else env.eofblocks with
    | some e => ⟨.error e, map, p.tree, [], [], [], none, claimed⟩
    | none =>
        let r := ext4ExtInsertExtent env.insert flags.preIo newex p
        match r.err with
        | some e => ⟨.error e, map, r.path.tree, r.freed, [], [], some newex, claimed⟩
        | none =>
            let allocated := min (ext4ExtGetActualLen newex) map.mLen
            ⟨.ok allocated, { map with
                mPblk := newex.eeStart
                mLen := allocated
                mFlags := ⟨true, true, map.mFlags.unwritten⟩ },
              r.path.tree, r.freed, [], [], some newex, none⟩

/-- The blocks from `ext4_mb_new_blocks`. -/
def mapFromAllocator (map : Ext4MapBlocks) (p : ExtPath) : Mapped :=
  let map := { map with mLen := min map.mLen (Extents.maxLen flags.unwritExt) }
  let allocated := (ext4ExtCheckOverlap c map.mLblk map.mLen p).getD map.mLen
  let offset := map.mLblk % c.ratio
  -- `EXT4_NUM_B2C`
  match env.newBlocks ((offset + allocated + c.ratio - 1) / c.ratio) with
  | .error e => ⟨.error e, map, p.tree, [], [], [], none, none⟩
  | .ok (newblock, clusters) =>
      gotAllocatedBlocks env flags map p (newblock + offset)
        (min (clusters * c.ratio - offset) allocated) (some (newblock, clusters * c.ratio))

/-- `ext4_ext_map_blocks` for a block in a hole, with
`EXT4_GET_BLOCKS_CREATE`. -/
def mapNew (map : Ext4MapBlocks) (p : ExtPath) : Mapped :=
  let implied := fun ex => getImpliedClusterAlloc c map ex (ext4ExtNextAllocatedBlock p)
  let fromCluster := fun map' : Ext4MapBlocks =>
    gotAllocatedBlocks env flags map' p map'.mPblk map'.mLen none
  let failed := fun e => (⟨.error e, map, p.tree, [], [], [], none, none⟩ : Mapped)
  match if map.mLblk % c.ratio = 0 then none else p.ext.bind implied with
  | some map' => fromCluster map'
  | none =>
      match ext4ExtSearchLeft p map.mLblk, ext4ExtSearchRight env.read p map.mLblk with
      | .error e, _ => failed e
      | .ok _, .error e => failed e
      | .ok _, .ok (_, ex2) =>
          match if 1 < c.ratio then ex2.bind implied else none with
          | some map' => fromCluster map'
          | none => mapFromAllocator env c flags map p

end New

/-- `ext4_ext_map_blocks`. No result is a `BUG_ON` below the extent status
tree, which gets what the call has zeroed beside the range. -/
def ext4ExtMapBlocks {blocksize : Nat} (env : MapEnv blocksize) (c : Clusters) (flags : GetBlocks)
    (i : Nat) (t : ExtTree) (map : Ext4MapBlocks) (sb : Ext4SbInfo) :
    Option (Mapped × Ext4SbInfo) :=
  (findExtentCached env.lookup i t map.mLblk sb).bind fun (found, sb') =>
    match found with
    | .error e => some (⟨.error e, map, t, [], [], [], none, none⟩, sb')
    | .ok p =>
        let hole := if flags.create then some (mapNew env c flags map p, sb')
          else mapHole env i map p sb'
        match p.ext with
        | none =>
            if p.depth ≠ 0 then some (⟨.error .efscorrupted, map, t, [], [], [], none, none⟩, sb')
            else hole
        | some ex =>
            if ex.eeBlock ≤ map.mLblk ∧ map.mLblk < ex.eeEnd then
              let es := env.status i sb'
              let r := mapFound (env.on es) flags map p ex
              some (r, (es.record r.recorded).sb)
            else hole

end Ext4.MapBlocks
