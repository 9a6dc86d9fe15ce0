import Ext4.Extents.Tree

/-!
# Extent trees — insertion

`ext4_ext_insert_extent` (extents.c) and what it calls: joining the new
extent to a neighbour, using a free slot of the leaf or of the next one, and
making room by a split of the path or by a new root; then merging, and the
keys above the leaf.
-/

namespace Ext4.Extents

open IndexTree BinarySearch
open Ext4.ExtentsStatus (extMaxBlocks)

/-- The calls of an insertion that can fail though there are free blocks: the
searches, which read tree blocks, and the calls into the journal. -/
inductive InsertFault where
  /-- `ext4_ext_get_access` of the leaf with room, before anything is changed -/
  | access
  /-- the search for the next leaf -/
  | nextLeaf
  /-- a call of `ext4_ext_grow_indepth`, which changes the root after the last one -/
  | grow
  /-- the search after `ext4_ext_grow_indepth` -/
  | regrown
  /-- a call of `ext4_ext_split` when the lowest `n` nodes of the path have
  passed their tails to new blocks -/
  | split (n : Nat)
  /-- `ext4_ext_dirty` in `ext4_ext_insert_index` -/
  | insertIndex
  /-- the search after `ext4_ext_split` -/
  | refill
  /-- `ext4_ext_get_access` of the leaf which that search found -/
  | accessNew
  /-- a call of `ext4_ext_correct_indexes` when `n` keys have been stored -/
  | correct (n : Nat)
  /-- the last `ext4_ext_dirty` -/
  | dirty
deriving DecidableEq

/-- The errors of those calls: `-ENOSPC` comes from the allocator alone. -/
abbrev IoErrno := { e : Errno // e ≠ .enospc }

/-- What the surroundings decide for an insertion: whether unwritten extents
are under I/O (`EXT4_STATE_DIO_UNWRITTEN` or `i_unwritten`), whether
`ext4_journal_extend` gets its two credits, the blocks `ext4_new_meta_blocks`
hands out before it fails with `-ENOSPC`, and the first other call that fails,
with its error. -/
structure InsertEnv where
  blocksize : Nat
  ioUnwritten : Bool
  extendOk : Bool
  blocks : List Nat
  fault : Option (InsertFault × IoErrno)

/-- The error of a call, if it is the one that fails. -/
def InsertEnv.failing (env : InsertEnv) (f : InsertFault) : Option Errno :=
  match env.fault with
  | some (g, e) => if g = f then some e.1 else none
  | none => none

/-- The faults at which the tree still has every node it had. -/
def InsertFault.early : InsertFault → Bool
  | access | nextLeaf | grow | split 0 => true
  | _ => false

/-- No call fails once the insertion has begun to change the tree. -/
def InsertEnv.early (env : InsertEnv) : Bool :=
  match env.fault with
  | some (f, _) => f.early
  | none => true

/-! ## Merging -/

def ext4CanExtentsBeMerged (io : Bool) (ex1 ex2 : Extent) : Bool :=
  let len := ext4ExtGetActualLen ex1 + ext4ExtGetActualLen ex2
  decide (ext4ExtIsUnwritten ex1 = ext4ExtIsUnwritten ex2)
    && decide (ex1.eeEnd = ex2.eeBlock)
    && decide (len ≤ extInitMaxLen)
    && !(ext4ExtIsUnwritten ex1 && (io || decide (extUnwrittenMaxLen < len)))
    && decide (ex1.eeStart + ext4ExtGetActualLen ex1 = ex2.eeStart)

/-- `ex` with the length of `ex2` added. -/
def Extent.append (ex ex2 : Extent) : Extent :=
  ex.withLen (ext4ExtGetActualLen ex + ext4ExtGetActualLen ex2) (ext4ExtIsUnwritten ex)

/-- `ex` moved to the start of `newext` and lengthened by it. -/
def Extent.prepend (newext ex : Extent) : Extent :=
  { ex with eeBlock := newext.eeBlock, eeStart := newext.eeStart }.withLen
    (ext4ExtGetActualLen ex + ext4ExtGetActualLen newext) (ext4ExtIsUnwritten ex)

/-- `ext4_ext_try_to_merge_right`: `ex` and the extents behind it; the result
says whether anything was merged. -/
def ext4ExtTryToMergeRight (io : Bool) (ex : Extent) : List Extent → List Extent × Bool
  | [] => ([ex], false)
  | ex2 :: rest =>
      if ext4CanExtentsBeMerged io ex ex2 then
        ((ext4ExtTryToMergeRight io (ex.append ex2) rest).1, true)
      else (ex :: ex2 :: rest, false)

/-- Merging to the right from slot `i` of a leaf. -/
def mergeRightAt (io : Bool) (es : List Extent) (i : Nat) : List Extent × Bool :=
  match es.drop i with
  | [] => (es, false)
  | ex :: rest =>
      let r := ext4ExtTryToMergeRight io ex rest
      (es.take i ++ r.1, r.2)

/-- `ext4_ext_try_to_merge` in the leaf: the extent in slot `i` with its
neighbours. -/
def ext4ExtTryToMerge (io : Bool) (es : List Extent) : Nat → List Extent
  | 0 => (mergeRightAt io es 0).1
  | i + 1 =>
      let r := mergeRightAt io es i
      if r.2 then r.1 else (mergeRightAt io es (i + 1)).1

/-- `ext4_ext_try_to_merge_up`: a single leaf that fits into the inode is
copied there. The result is the leaf and the block it leaves. -/
def ext4ExtTryToMergeUp (extendOk : Bool) : (d : Nat) → Path Extent d → Option (Cut Extent × Nat)
  | 1, p =>
      if p.before.length + 1 + p.after.length = 1
          ∧ (Cut.toList p.down).length ≤ ext4ExtSpaceRoot ∧ extendOk = true then
        some (p.down, p.ptr)
      else none
  | _, _ => none

/-! ## The keys above a leaf -/

/-- `ext4_ext_correct_indexes`. The second result is the border to store one
level higher: the node now begins there. -/
def ext4ExtCorrectIndexes : (d : Nat) → Path Extent d → Path Extent d × Option Nat
  | 0, c =>
      match c.before with
      | [] => (c, c.after.head?.map Extent.eeBlock)
      | _ :: _ => (c, none)
  | d + 1, p =>
      match ext4ExtCorrectIndexes d p.down with
      | (q, none) => ({ p with down := q }, none)
      | (q, some border) =>
          ({ p with key := border, down := q },
            match p.before with
            | [] => some border
            | _ :: _ => none)

/-- The keys `ext4_ext_correct_indexes` stores. -/
def keysStored : (d : Nat) → Path Extent d → Nat
  | 0, _ => 0
  | d + 1, p =>
      match (ext4ExtCorrectIndexes d p.down).2 with
      | some _ => d + 1
      | none => keysStored d p.down

/-- The path when only the lowest `n` keys have been stored. -/
def correctUpTo (n : Nat) : (d : Nat) → Path Extent d → Path Extent d
  | 0, c => c
  | d + 1, p =>
      match (ext4ExtCorrectIndexes d p.down).2 with
      | some border =>
          { p with key := if d < n then border else p.key, down := correctUpTo n d p.down }
      | none => { p with down := correctUpTo n d p.down }

/-- The fault that strikes `ext4_ext_correct_indexes`: how many keys have been
stored then, and the error. It makes no call if the first extent of the leaf
is not the one of the path. -/
def InsertEnv.correctFault (env : InsertEnv) (d : Nat) (p : Path Extent d) : Option (Nat × Errno) :=
  match env.fault with
  | some (.correct n, e) => if 0 < keysStored d p ∧ n ≤ keysStored d p then some (n, e.1) else none
  | _ => none

/-! ## Making room -/

/-- `eh_max` of the topmost node of a path: the root is in the inode. -/
def leafMax (blocksize d : Nat) : Nat :=
  if d = 0 then ext4ExtSpaceRoot else ext4ExtSpaceBlock blocksize

/-- The two halves `ext4_ext_split` makes of a path: what stays, and the new
subtree. `bs` are the blocks of the new nodes, the topmost first. -/
def cutBelow (border : Nat) : (d : Nat) → List Nat → Path Extent d → Node Extent d × Node Extent d
  | 0, _, c => (c.before ++ c.after.take 1, c.after.drop 1)
  | d + 1, bs, p =>
      let halves := cutBelow border d bs.tail p.down
      (p.before ++ [⟨p.key, p.ptr, halves.1⟩], ⟨border, bs.tail.headD 0, halves.2⟩ :: p.after)

/-- `ext4_ext_insert_index`, at the entry the path is opened at. -/
def ext4ExtInsertIndex {d : Nat} (before : List (Entry (Node Extent d)))
    (cur new : Entry (Node Extent d)) (after : List (Entry (Node Extent d))) :
    Except Errno (Node Extent (d + 1)) :=
  if new.key = cur.key then .error .efscorrupted
  else if cur.key < new.key then .ok (before ++ cur :: new :: after)
  else .ok (before ++ new :: cur :: after)

/-- The search of `ext4_ext_create_new_leaf` for a node with a free index
entry, from the leaf upwards, and `ext4_ext_split` there. `none`: the tree is
full. -/
def ext4ExtSplit (blocksize border : Nat) (bs : List Nat) :
    (d max : Nat) → Path Extent d → Option (Except Errno (Node Extent d))
  | 0, _, _ => none
  | d + 1, max, p =>
      match ext4ExtSplit blocksize border bs d (ext4ExtSpaceBlock blocksize) p.down with
      | some r => some (r.map fun child => p.before ++ ⟨p.key, p.ptr, child⟩ :: p.after)
      | none =>
          if p.before.length + 1 + p.after.length < max then
            if bs.length < d + 1 then some (.error .enospc)
            else
              let halves := cutBelow border d bs p.down
              some (ext4ExtInsertIndex p.before ⟨p.key, p.ptr, halves.1⟩
                ⟨border, bs.headD 0, halves.2⟩ p.after)
          else none

/-- The number of nodes below the one `ext4_ext_create_new_leaf` finds. -/
def splitHeight (blocksize : Nat) : (d max : Nat) → Path Extent d → Nat
  | 0, _, _ => 0
  | d + 1, max, p =>
      match splitHeight blocksize d (ext4ExtSpaceBlock blocksize) p.down with
      | 0 => if p.before.length + 1 + p.after.length < max then d + 1 else 0
      | n + 1 => n + 1

/-- The path when its lowest `n` nodes have lost their tails to new blocks. -/
def loseTails (n : Nat) : (d : Nat) → Path Extent d → Path Extent d
  | 0, c => ⟨c.before, if 0 < n then c.after.take 1 else c.after⟩
  | d + 1, p =>
      { p with down := loseTails n d p.down, after := if d + 1 < n then [] else p.after }

/-- The slots of a path, in an edited tree of the same depth. -/
def reopen : (d : Nat) → Path Extent d → Node Extent d → Path Extent d
  | 0, c, es => ⟨es.take c.before.length, es.drop c.before.length⟩
  | d + 1, p, xs =>
      match zipAt xs p.before.length with
      | none => p
      | some z => ⟨z.before, z.cur.key, z.cur.ptr, reopen d p.down z.cur.child, z.after⟩

/-- The first key stored in a node. -/
def firstEntry : (d : Nat) → Node Extent d → Nat
  | 0, es => (List.head? es |>.map Extent.eeBlock).getD 0
  | _ + 1, xs => (List.head? xs |>.map Entry.key).getD 0

/-- `ext4_ext_grow_indepth`: the old root moves into the block `blk`. -/
def ext4ExtGrowIndepth (t : ExtTree) (blk : Nat) : ExtTree :=
  ⟨t.depth + 1, [⟨firstEntry t.depth t.root, blk, t.root⟩]⟩

/-- Where a full leaf is split: behind the extent of the path, or at the new
extent if that is the last one. -/
def splitBorder (c : Cut Extent) (newext : Extent) : Nat :=
  match c.after with
  | _ :: ex :: _ => ex.eeBlock
  | _ => newext.eeBlock

/-- What an insertion leaves behind: its error, the path of the caller in the
tree as it is then, and the blocks passed to `ext4_free_blocks`. -/
structure Inserted where
  err : Option Errno
  path : ExtPath
  freed : List Nat

/-- A fault in or right after `ext4_ext_split`, which makes the tree `root`:
the new blocks are freed, but the nodes that gave away their tails keep the
rest only. -/
def splitFault (env : InsertEnv) (bs : List Nat) (p : ExtPath) (root : Node Extent p.depth) :
    Option Inserted :=
  let height := splitHeight env.blocksize p.depth ext4ExtSpaceRoot p.path
  match env.fault with
  | some (.split n, e) =>
      if n ≤ height then some ⟨some e.1, ⟨p.depth, loseTails n p.depth p.path⟩, bs.take height⟩
      else none
  | some (.insertIndex, e) =>
      some ⟨some e.1, ⟨p.depth, reopen p.depth p.path root⟩, bs.take height⟩
  | some (.refill, e) => some ⟨some e.1, ⟨p.depth, reopen p.depth p.path root⟩, []⟩
  | _ => none

/-- `ext4_ext_create_new_leaf`. Only the growth of a tree of depth 0 gives
room by itself; every other one is followed by a split, which then finds its
entry in the new root. A block `ext4_ext_grow_indepth` gets and then fails is
not freed. -/
def ext4ExtCreateNewLeaf (env : InsertEnv) (newext : Extent) : Nat → List Nat → ExtPath → Inserted
  | 0, _, p => ⟨some .bug, p, []⟩
  | fuel + 1, bs, p =>
      let border := splitBorder (leaf p.depth p.path) newext
      match ext4ExtSplit env.blocksize border bs p.depth ext4ExtSpaceRoot p.path with
      | some (.error .enospc) => ⟨some .enospc, p, bs⟩
      | some (.error e) =>
          -- the nodes below are cut when `ext4_ext_insert_index` refuses the key
          let height := splitHeight env.blocksize p.depth ext4ExtSpaceRoot p.path
          ⟨some e, ⟨p.depth, loseTails height p.depth p.path⟩, bs.take height⟩
      | some (.ok root) =>
          match splitFault env bs p root with
          | some r => r
          | none =>
              match ext4FindExtent ⟨p.depth, root⟩ newext.eeBlock with
              | .error e => ⟨some e, ⟨p.depth, reopen p.depth p.path root⟩, []⟩
              | .ok q => ⟨none, q, []⟩
      | none =>
          match bs with
          | [] => ⟨some .enospc, p, []⟩
          | blk :: bs =>
              match env.failing .grow with
              | some e => ⟨some e, p, []⟩
              | none =>
                  let t := ext4ExtGrowIndepth p.tree blk
                  let grown : ExtPath :=
                    ⟨p.depth + 1, ⟨[], firstEntry p.depth p.tree.root, blk, p.path, []⟩⟩
                  match env.failing .regrown, ext4FindExtent t newext.eeBlock with
                  | some e, _ => ⟨some e, grown, []⟩
                  | none, .error e => ⟨some e, grown, []⟩
                  | none, .ok q =>
                      if (leaf q.depth q.path).toList.length = leafMax env.blocksize q.depth then
                        ext4ExtCreateNewLeaf env newext fuel bs q
                      else ⟨none, q, []⟩

/-! ## Insertion -/

/-- Joining the new extent to the extent in slot `i`: the leaf, and the slot. -/
def joinAt (io : Bool) (es : List Extent) (newext : Extent) (onlyPrepend : Bool) (i : Nat) :
    Option (List Extent × Nat) :=
  match es[i]? with
  | none => none
  | some ex =>
      if !onlyPrepend && ext4CanExtentsBeMerged io ex newext then
        some (es.set i (ex.append newext), i)
      else if ext4CanExtentsBeMerged io newext ex then some (es.set i (newext.prepend ex), i)
      else none

/-- The attempts to join the new extent to the extent of the path or to the
one beside it. -/
def joinFound (io : Bool) (c : Cut Extent) (newext : Extent) : Option (List Extent × Nat) :=
  match c.after with
  | [] => none
  | ex :: rest =>
      let k := c.before.length
      if rest ≠ [] ∧ ex.eeEnd < newext.eeBlock then joinAt io c.toList newext true (k + 1)
      else if c.before ≠ [] ∧ newext.eeEnd < ex.eeBlock then
        joinAt io c.toList newext false (k - 1)
      else joinAt io c.toList newext false k

/-- The label `has_space` up to `merge`: the leaf with the new extent, and
its slot. Two extents that begin at the same block are a `BUG_ON`. -/
def placeNew (c : Cut Extent) (newext : Extent) : Option (List Extent × Nat) :=
  match c.after with
  | [] => some ([newext], 0)
  | ex :: rest =>
      if ex.eeBlock < newext.eeBlock then
        some (c.before ++ ex :: newext :: rest, c.before.length + 1)
      else if ex.eeBlock = newext.eeBlock then none
      else some (c.before ++ newext :: ex :: rest, c.before.length)

section Insert

variable (env : InsertEnv) (preIo : Bool) (newext : Extent)

/-- The label `merge`: `es` is the leaf, `k` the slot of `p_ext`, `n` the slot
of `nearex`. The caller's path is `back` of the edited one. A root that took
its only leaf has no keys to correct. -/
def mergeAndCorrect (d : Nat) (p : Path Extent d) (back : Path Extent d → Path Extent d)
    (es : List Extent) (k n : Nat) : Inserted :=
  let merged := if preIo then es else ext4ExtTryToMerge env.ioUnwritten es n
  let q := setLeaf d p ⟨merged.take k, merged.drop k⟩
  match if preIo then none else ext4ExtTryToMergeUp env.extendOk d q with
  | some (c, blk) => ⟨env.failing .dirty, ⟨0, c⟩, [blk]⟩
  | none =>
      match env.correctFault d q with
      | some (n, e) => ⟨some e, ⟨d, back (correctUpTo n d q)⟩, []⟩
      | none => ⟨env.failing .dirty, ⟨d, back (ext4ExtCorrectIndexes d q).1⟩, []⟩

/-- The label `has_space`. -/
def hasSpace (d : Nat) (p : Path Extent d) (back : Path Extent d → Path Extent d) : Inserted :=
  match placeNew (leaf d p) newext with
  | none => ⟨some .bug, ⟨d, p⟩, []⟩
  | some (es, n) => mergeAndCorrect env preIo d p back es n n

/-- The end of `ext4_ext_insert_extent`, when neither leaf has room. -/
def insertAfterCreate (p : ExtPath) : Inserted :=
  let r := ext4ExtCreateNewLeaf env newext 2 env.blocks p
  match r.err, env.failing .accessNew with
  | some e, _ => ⟨some e, r.path, r.freed⟩
  | none, some e => ⟨some e, r.path, []⟩
  | none, none => hasSpace env preIo newext r.path.depth r.path.path id

/-- `has_space` behind `ext4_ext_get_access`, for a tree not changed so far. -/
def hasSpaceAccess (p : ExtPath) (q : Path Extent p.depth)
    (back : Path Extent p.depth → Path Extent p.depth) : Inserted :=
  match env.failing .access with
  | some e => ⟨some e, p, []⟩
  | none => hasSpace env preIo newext p.depth q back

/-- The leaf the path leads to, the leaf behind it, or a new one. -/
def insertSomewhere (p : ExtPath) : Inserted :=
  let c := leaf p.depth p.path
  let full := fun c : Cut Extent => leafMax env.blocksize p.depth ≤ c.toList.length
  if ¬ full c then hasSpaceAccess env preIo newext p p.path id
  else
    let next :=
      match c.toList.getLast? with
      | some fex =>
          if fex.eeBlock < newext.eeBlock then ext4ExtNextLeafBlock p.depth p.path else none
      | none => none
    match next with
    | none => insertAfterCreate env preIo newext p
    | some next =>
        match env.failing .nextLeaf, find Extent.eeBlock p.depth p.tree.root next with
        | some e, _ => ⟨some e, p, []⟩
        | none, none => ⟨some .efscorrupted, p, []⟩
        | none, some np =>
            if ¬ full (leaf p.depth np) then
              hasSpaceAccess env preIo newext p np fun q =>
                reopen p.depth p.path (close p.depth q)
            else insertAfterCreate env preIo newext p

/-- `ext4_ext_insert_extent`. `preIo` is the flag `EXT4_GET_BLOCKS_PRE_IO`. -/
def ext4ExtInsertExtent (p : ExtPath) : Inserted :=
  if ext4ExtGetActualLen newext = 0 then ⟨some .efscorrupted, p, []⟩
  else
    let c := leaf p.depth p.path
    match if preIo then none else joinFound env.ioUnwritten c newext with
    | some (es, n) =>
        match env.failing .access with
        | some e => ⟨some e, p, []⟩
        | none => mergeAndCorrect env preIo p.depth p.path id es c.before.length n
    | none => insertSomewhere env preIo newext p

end Insert

end Ext4.Extents
