import Ext4.ExtentsStatus.Basic
import Ext4.Lib.SearchTree
import Mathlib.Logic.Function.Basic

/-!
# Extent status — the tree and its operations

The operations of extents_status.c on one superblock's inodes. The
red-black tree is the kernel's library: an inode's tree is its in-order
sequence, and every descent runs over a shape the environment chooses
(`RbShape`), so nothing below depends on how the tree is balanced.

Two more choices belong to the environment of a call: the outcomes of its
`kmem_cache_alloc`s (a list read from the front, success once it is used
up) and of its `write_trylock`s. Each `goto retry` consumes a failed
allocation, so the retry loops recurse on that list. Statistics and
tracing are left out; no modelled function reads them.
-/

namespace Ext4.ExtentsStatus

open SearchTree

/-- `struct ext4_es_tree`: the in-order sequence and the address of the
recently accessed entry. -/
structure Ext4EsTree where
  root : List ExtentStatus
  cacheEs : Option Nat

/-- The extent status part of `struct ext4_inode_info`. -/
structure Ext4InodeInfo where
  iEsTree : Ext4EsTree
  iEsAllNr : Nat
  iEsShkNr : Nat
  iEsShrinkLblk : Nat
  extPrecached : Bool

/-- The extent status part of `struct ext4_sb_info`, with the inodes it
owns. `nextAddr` is the address the slab hands out next; `tryLocks` are
the outcomes of the coming `write_trylock`s. -/
structure Ext4SbInfo where
  inodes : Nat → Ext4InodeInfo
  sEsList : List Nat
  sEsNrInode : Nat
  nextAddr : Nat
  tryLocks : List Bool

/-- A shape of the red-black tree for every sequence. -/
abbrev RbShape := Shape ExtentStatus

/-- The error codes the functions return. -/
inductive Errno where
  | enomem
  | einval
deriving DecidableEq, Repr

namespace Ext4SbInfo

/-- Replace one inode. -/
def setInode (sb : Ext4SbInfo) (i : Nat) (ei : Ext4InodeInfo) : Ext4SbInfo :=
  { sb with inodes := Function.update sb.inodes i ei }

/-- The tree of inode `i`. -/
def root (sb : Ext4SbInfo) (i : Nat) : List ExtentStatus := (sb.inodes i).iEsTree.root

/-- Write the tree of inode `i` (linking, unlinking or editing nodes). -/
def setRoot (sb : Ext4SbInfo) (i : Nat) (l : List ExtentStatus) : Ext4SbInfo :=
  sb.setInode i { sb.inodes i with iEsTree := { (sb.inodes i).iEsTree with root := l } }

/-- `tree->cache_es = a`. -/
def setCache (sb : Ext4SbInfo) (i : Nat) (a : Option Nat) : Ext4SbInfo :=
  sb.setInode i { sb.inodes i with iEsTree := { (sb.inodes i).iEsTree with cacheEs := a } }

/-- `ei->i_es_shrink_lblk = b`. -/
def setShrinkLblk (sb : Ext4SbInfo) (i : Nat) (b : Nat) : Ext4SbInfo :=
  sb.setInode i { sb.inodes i with iEsShrinkLblk := b }

/-- The entry `cache_es` points to. -/
def cached (sb : Ext4SbInfo) (i : Nat) : Option (Zip ExtentStatus) :=
  match (sb.inodes i).iEsTree.cacheEs with
  | none => none
  | some a =>
      match (sb.root i).span (fun e => decide (e.addr ≠ a)) with
      | (_, []) => none
      | (before, es :: after) => some ⟨before, es, after⟩

end Ext4SbInfo

open Ext4SbInfo

/-! ## Searching -/

/-- The direction of a search for `lblk` at a node. -/
def searchDir (lblk : Nat) (es : ExtentStatus) : Ordering :=
  if lblk < es.esLblk then .lt else if ext4EsEnd es < lblk then .gt else .eq

/-- `__es_tree_search`: the entry that contains `lblk`, else the next one. -/
def esTreeSearch (rb : RbShape) (l : List ExtentStatus) (lblk : Nat) :
    Option (Zip ExtentStatus) :=
  match descend (searchDir lblk) (rb.tree l) with
  | none => none
  | some z => if ext4EsEnd z.cur < lblk then z.next else some z

/-! ## Allocating, freeing and the list of inodes to shrink -/

def ext4EsListAdd (sb : Ext4SbInfo) (i : Nat) : Ext4SbInfo :=
  if i ∈ sb.sEsList then sb
  else { sb with sEsList := sb.sEsList ++ [i], sEsNrInode := sb.sEsNrInode + 1 }

def ext4EsListDel (sb : Ext4SbInfo) (i : Nat) : Ext4SbInfo :=
  if i ∈ sb.sEsList then
    { sb with sEsList := sb.sEsList.erase i, sEsNrInode := sb.sEsNrInode - 1 }
  else sb

/-- `ext4_es_alloc_extent` after a successful `kmem_cache_alloc`. -/
def ext4EsAllocExtent (sb : Ext4SbInfo) (i lblk len : Nat) (pblk : Fsblk) :
    ExtentStatus × Ext4SbInfo :=
  let es : ExtentStatus := ⟨sb.nextAddr, lblk, len, pblk⟩
  let sb := { sb with nextAddr := sb.nextAddr + 1 }
  let ei := sb.inodes i
  let sb :=
    if ext4EsIsDelayed es then sb
    else
      -- only the first reclaimable extent puts the inode on the list
      let sb' := sb.setInode i { ei with iEsShkNr := ei.iEsShkNr + 1 }
      if ei.iEsShkNr = 0 then ext4EsListAdd sb' i else sb'
  let ei := sb.inodes i
  (es, sb.setInode i { ei with iEsAllNr := ei.iEsAllNr + 1 })

def ext4EsFreeExtent (sb : Ext4SbInfo) (i : Nat) (es : ExtentStatus) : Ext4SbInfo :=
  let ei := sb.inodes i
  let sb := sb.setInode i { ei with iEsAllNr := ei.iEsAllNr - 1 }
  if ext4EsIsDelayed es then sb
  else
    let ei := sb.inodes i
    let sb' := sb.setInode i { ei with iEsShkNr := ei.iEsShkNr - 1 }
    if ei.iEsShkNr - 1 = 0 then ext4EsListDel sb' i else sb'

/-! ## Merging -/

/-- `ext4_es_can_be_merged`. The sums are 64-bit in the source and cannot
wrap. -/
def ext4EsCanBeMerged (es1 es2 : ExtentStatus) : Bool :=
  if ext4EsType es1 ≠ ext4EsType es2 then false
  else if extMaxBlocks < es1.esLen + es2.esLen then false
  else if es1.esLblk + es1.esLen ≠ es2.esLblk then false
  else if (ext4EsIsWritten es1 || ext4EsIsUnwritten es1) &&
      (ext4EsPblock es1).toNat + es1.esLen == (ext4EsPblock es2).toNat then true
  else if ext4EsIsHole es1 then true
  else if ext4EsIsDelayed es1 && !ext4EsIsUnwritten es1 then true
  else false

/-- One entry takes over the blocks of its right neighbour, and its
reference mark. -/
def absorb (es1 es2 : ExtentStatus) : ExtentStatus :=
  let es := { es1 with esLen := es1.esLen + es2.esLen }
  if ext4EsIsReferenced es2 then ext4EsSetReferenced es else es

/-- `ext4_es_try_to_merge_left` at the node `z`; returns the surviving
entry. -/
def ext4EsTryToMergeLeft (sb : Ext4SbInfo) (i : Nat) (z : Zip ExtentStatus) :
    ExtentStatus × Ext4SbInfo :=
  match z.prev with
  | none => (z.cur, sb)
  | some p =>
      if ext4EsCanBeMerged p.cur z.cur then
        let es1 := absorb p.cur z.cur
        let sb := sb.setRoot i (p.before ++ es1 :: z.after)
        (es1, ext4EsFreeExtent sb i z.cur)
      else (z.cur, sb)

/-- `ext4_es_try_to_merge_right` at the node `z`. -/
def ext4EsTryToMergeRight (sb : Ext4SbInfo) (i : Nat) (z : Zip ExtentStatus) :
    ExtentStatus × Ext4SbInfo :=
  match z.next with
  | none => (z.cur, sb)
  | some n =>
      if ext4EsCanBeMerged z.cur n.cur then
        let es := absorb z.cur n.cur
        let sb := sb.setRoot i (z.before ++ es :: n.after)
        (es, ext4EsFreeExtent sb i n.cur)
      else (z.cur, sb)

/-! ## Inserting -/

/-- What one pass of `__es_insert_extent` comes to: done (`used` says
whether it called the allocator), out of memory, or an overlap, on which
the source stops in `BUG_ON(1)`. -/
inductive InsertRes where
  | done (sb : Ext4SbInfo) (used : Bool)
  | enomem
  | einval

/-- The direction of the insertion of `newes` at a node: a node it merges
with stops the descent, and so does an overlap. -/
def insertDir (newes es : ExtentStatus) : Ordering :=
  if newes.esLblk < es.esLblk then
    if ext4EsCanBeMerged newes es then .eq else .lt
  else if ext4EsEnd es < newes.esLblk then
    if ext4EsCanBeMerged es newes then .eq else .gt
  else .eq

/-- The entry `es` grown to the left over `newes`. -/
def growLeft (newes es : ExtentStatus) : ExtentStatus :=
  let es' := { es with esLblk := newes.esLblk, esLen := es.esLen + newes.esLen }
  if ext4EsIsWritten es' || ext4EsIsUnwritten es' then ext4EsStorePblock es' newes.esPblk
  else es'

/-- The entry `es` grown to the right over `newes`. -/
def growRight (newes es : ExtentStatus) : ExtentStatus :=
  { es with esLen := es.esLen + newes.esLen }

/-- The new node of `__es_insert_extent`, linked between `before` and
`after`. -/
def linkNew (sb : Ext4SbInfo) (i : Nat) (newes : ExtentStatus) (allocOk : Bool)
    (before after : List ExtentStatus) : InsertRes :=
  if allocOk then
    let (es, sb) := ext4EsAllocExtent sb i newes.esLblk newes.esLen newes.esPblk
    .done ((sb.setRoot i (before ++ es :: after)).setCache i (some es.addr)) true
  else .enomem

/-- `__es_insert_extent`; `allocOk` is the outcome of its allocation, if
it comes to one. -/
def esInsertExtent (rb : RbShape) (sb : Ext4SbInfo) (i : Nat) (newes : ExtentStatus)
    (allocOk : Bool) : InsertRes :=
  match descend (insertDir newes) (rb.tree (sb.root i)) with
  | none => linkNew sb i newes allocOk [] []
  | some z =>
      let es := z.cur
      if newes.esLblk < es.esLblk then
        if ext4EsCanBeMerged newes es then
          let z' : Zip ExtentStatus := ⟨z.before, growLeft newes es, z.after⟩
          let (es, sb) := ext4EsTryToMergeLeft (sb.setRoot i z'.toList) i z'
          .done (sb.setCache i (some es.addr)) false
        else linkNew sb i newes allocOk z.before (es :: z.after)
      else if ext4EsEnd es < newes.esLblk then
        if ext4EsCanBeMerged es newes then
          let z' : Zip ExtentStatus := ⟨z.before, growRight newes es, z.after⟩
          let (es, sb) := ext4EsTryToMergeRight (sb.setRoot i z'.toList) i z'
          .done (sb.setCache i (some es.addr)) false
        else linkNew sb i newes allocOk (z.before ++ [es]) z.after
      else .einval

/-! ## Reclaiming -/

/-- The loop of `es_do_reclaim_extents` at the node `es`, with `before`
already scanned. Returns whether the budget ran out, the budget left and
the number of extents reclaimed. -/
def reclaimLoop (i last : Nat) :
    List ExtentStatus → ExtentStatus → List ExtentStatus → Ext4SbInfo → Nat → Nat →
      Bool × Nat × Nat × Ext4SbInfo
  | before, es, after, sb, nrToScan, nrShrunk =>
      if nrToScan = 0 then (true, 0, nrShrunk, sb.setShrinkLblk i es.esLblk)
      else if last < es.esLblk then
        (false, nrToScan, nrShrunk, sb.setShrinkLblk i ((last + 1) % 2 ^ 32))
      else
        let nrToScan := nrToScan - 1
        if ext4EsIsDelayed es then
          match after with
          | [] => (false, nrToScan, nrShrunk, sb.setShrinkLblk i 0)
          | es' :: after' =>
              reclaimLoop i last (before ++ [es]) es' after' sb nrToScan nrShrunk
        else if ext4EsIsReferenced es then
          let es := ext4EsClearReferenced es
          let sb := sb.setRoot i (before ++ es :: after)
          match after with
          | [] => (false, nrToScan, nrShrunk, sb.setShrinkLblk i 0)
          | es' :: after' =>
              reclaimLoop i last (before ++ [es]) es' after' sb nrToScan nrShrunk
        else
          let sb := ext4EsFreeExtent (sb.setRoot i (before ++ after)) i es
          match after with
          | [] => (false, nrToScan, nrShrunk + 1, sb.setShrinkLblk i 0)
          | es' :: after' =>
              reclaimLoop i last before es' after' sb nrToScan (nrShrunk + 1)
termination_by structural _ _ after => after

/-- `es_do_reclaim_extents`. -/
def esDoReclaimExtents (rb : RbShape) (sb : Ext4SbInfo) (i last nrToScan nrShrunk : Nat) :
    Bool × Nat × Nat × Ext4SbInfo :=
  match esTreeSearch rb (sb.root i) (sb.inodes i).iEsShrinkLblk with
  | none => (false, nrToScan, nrShrunk, sb.setShrinkLblk i 0)
  | some z => reclaimLoop i last z.before z.cur z.after sb nrToScan nrShrunk

/-- `es_reclaim_extents`: the number of extents reclaimed and the budget
left. -/
def esReclaimExtents (rb : RbShape) (sb : Ext4SbInfo) (i nrToScan : Nat) :
    Nat × Nat × Ext4SbInfo :=
  let start := (sb.inodes i).iEsShrinkLblk
  if (sb.inodes i).iEsShkNr = 0 then (0, nrToScan, sb)
  else
    let (full, nrToScan, nrShrunk, sb) := esDoReclaimExtents rb sb i extMaxBlocks nrToScan 0
    if !full && start != 0 then
      let (_, nrToScan, nrShrunk, sb) := esDoReclaimExtents rb sb i (start - 1) nrToScan nrShrunk
      (nrShrunk, nrToScan, sb.setCache i none)
    else (nrShrunk, nrToScan, sb.setCache i none)

/-- The next outcome of `write_trylock`. -/
def writeTrylock (sb : Ext4SbInfo) : Bool × Ext4SbInfo :=
  match sb.tryLocks with
  | [] => (true, sb)
  | ok :: rest => (ok, { sb with tryLocks := rest })

/-- One walk of `__es_shrink` over `s_es_list`. Returns whether it left
through `goto out`, with the budget, the reclaimed and the skipped
counts. -/
def shrinkWalk (rb : RbShape) (lockedEi : Option Nat) (retried : Bool) :
    Nat → Ext4SbInfo → Nat → Nat → Nat → Bool × Nat × Nat × Nat × Ext4SbInfo
  | 0, sb, nrToScan, nrShrunk, nrSkipped => (false, nrToScan, nrShrunk, nrSkipped, sb)
  | nrToWalk + 1, sb, nrToScan, nrShrunk, nrSkipped =>
      match sb.sEsList with
      | [] => (true, nrToScan, nrShrunk, nrSkipped, sb)
      | ei :: rest =>
          -- move the inode to the tail
          let sb := { sb with sEsList := rest ++ [ei] }
          if !retried && (sb.inodes ei).extPrecached then
            shrinkWalk rb lockedEi retried nrToWalk sb nrToScan nrShrunk (nrSkipped + 1)
          else if lockedEi = some ei then
            shrinkWalk rb lockedEi retried nrToWalk sb nrToScan nrShrunk (nrSkipped + 1)
          else
            let (ok, sb) := writeTrylock sb
            if !ok then
              shrinkWalk rb lockedEi retried nrToWalk sb nrToScan nrShrunk (nrSkipped + 1)
            else
              let (n, nrToScan, sb) := esReclaimExtents rb sb ei nrToScan
              if nrToScan = 0 then (true, nrToScan, nrShrunk + n, nrSkipped, sb)
              else shrinkWalk rb lockedEi retried nrToWalk sb nrToScan (nrShrunk + n) nrSkipped

/-- `__es_shrink`: the number of extents reclaimed. -/
def esShrink (rb : RbShape) (sb : Ext4SbInfo) (nrToScan : Nat) (lockedEi : Option Nat) :
    Nat × Ext4SbInfo :=
  let (out, nrToScan, nrShrunk, nrSkipped, sb) :=
    shrinkWalk rb lockedEi false sb.sEsNrInode sb nrToScan 0 0
  if out then (nrShrunk, sb)
  else
    -- nothing reclaimed and some inodes skipped: scan the precached ones too
    let (out, nrToScan, nrShrunk, sb) :=
      if nrShrunk = 0 ∧ nrSkipped ≠ 0 then
        let (out, nrToScan, nrShrunk, _, sb) :=
          shrinkWalk rb lockedEi true sb.sEsNrInode sb nrToScan nrShrunk nrSkipped
        (out, nrToScan, nrShrunk, sb)
      else (false, nrToScan, nrShrunk, sb)
    if out then (nrShrunk, sb)
    else
      match lockedEi with
      | some i =>
          if nrShrunk = 0 then
            let (n, _, sb) := esReclaimExtents rb sb i nrToScan
            (n, sb)
          else (nrShrunk, sb)
      | none => (nrShrunk, sb)

/-! ## Removing -/

/-- What one pass of `__es_remove_extent` comes to: done, or an insertion
that failed, with the split entry put back. -/
inductive RemoveRes where
  | done (sb : Ext4SbInfo) (used : Bool)
  | failed (e : Errno) (sb : Ext4SbInfo)

/-- The `while` loop of `__es_remove_extent`: free every entry that ends
by `last`, with `before` standing to its left. -/
def freeThrough (i last : Nat) (before : List ExtentStatus) :
    List ExtentStatus → Ext4SbInfo → List ExtentStatus × Ext4SbInfo
  | [], sb => ([], sb)
  | es :: after, sb =>
      if ext4EsEnd es ≤ last then
        freeThrough i last before after
          (ext4EsFreeExtent (sb.setRoot i (before ++ after)) i es)
      else (es :: after, sb)

/-- The entry `es` cut down to its last `len` blocks, from `lblk` on. -/
def trimFront (es : ExtentStatus) (lblk len : Nat) : ExtentStatus :=
  let es' := { es with esLblk := lblk, esLen := len }
  if ext4EsIsWritten es' || ext4EsIsUnwritten es' then
    ext4EsStorePblock es' (es.esPblk + BitVec.ofNat 64 es.esLen - BitVec.ofNat 64 len)
  else es'

/-- The part of `orig` behind the removed range, as a new entry. -/
def splitTail (orig : ExtentStatus) (lblk len : Nat) : ExtentStatus :=
  let block : Fsblk :=
    if ext4EsIsWritten orig || ext4EsIsUnwritten orig then
      ext4EsPblock orig + BitVec.ofNat 64 orig.esLen - BitVec.ofNat 64 len
    else 0x7FDEADBEEF#64
  ext4EsStorePblockStatus ⟨0, lblk, len, 0⟩ block (ext4EsStatus orig)

/-- The rest of the pass once the range reaches the end of the entry it
starts in: entries it covers are freed, and the one it ends in is trimmed.
`last + 1` is computed in 32 bits. -/
def removeTail (i last : Nat) (before rest : List ExtentStatus) (sb : Ext4SbInfo) : RemoveRes :=
  match freeThrough i last before rest sb with
  | ([], sb) => .done sb false
  | (es :: after, sb) =>
      if es.esLblk < (last + 1) % 2 ^ 32 then
        .done (sb.setRoot i
          (before ++ trimFront es (last + 1) (ext4EsEnd es - last) :: after)) false
      else .done sb false

/-- `__es_remove_extent` from the `retry` label to the next one. -/
def removePass (rb : RbShape) (sb : Ext4SbInfo) (i lblk last : Nat) (allocOk : Bool) :
    RemoveRes :=
  match esTreeSearch rb (sb.root i) lblk with
  | none => .done sb false
  | some z =>
      let es := z.cur
      if last < es.esLblk then .done sb false
      else
        let sb := sb.setCache i none
        let len1 := if es.esLblk < lblk then lblk - es.esLblk else 0
        let len2 := if last < ext4EsEnd es then ext4EsEnd es - last else 0
        if 0 < len2 then
          if 0 < len1 then
            let cut := sb.setRoot i (z.before ++ { es with esLen := len1 } :: z.after)
            match esInsertExtent rb cut i (splitTail es (last + 1) len2) allocOk with
            | .done sb' used => .done sb' used
            | .enomem => .failed .enomem sb
            | .einval => .failed .einval sb
          else
            .done (sb.setRoot i (z.before ++ trimFront es (last + 1) len2 :: z.after)) false
        else
          if 0 < len1 then
            let cut : ExtentStatus := { es with esLen := len1 }
            removeTail i last (z.before ++ [cut]) z.after
              (sb.setRoot i (z.before ++ cut :: z.after))
          else removeTail i last z.before (es :: z.after) sb

/-- `__es_remove_extent` on the blocks `lblk .. last`. The result carries
the allocation outcomes that are left. -/
def esRemoveExtent (rb : RbShape) (i lblk last : Nat) :
    List Bool → Ext4SbInfo → Option Errno × Ext4SbInfo × List Bool
  | [], sb =>
      match removePass rb sb i lblk last true with
      | .done sb _ => (none, sb, [])
      | .failed e sb => (some e, sb, [])
  | ok :: allocs, sb =>
      match removePass rb sb i lblk last ok with
      | .done sb used => (none, sb, if used then allocs else ok :: allocs)
      | .failed .enomem sb =>
          let (n, sb) := esShrink rb sb 128 (some i)
          if n ≠ 0 then esRemoveExtent rb i lblk last allocs sb
          else (some .enomem, sb, allocs)
      | .failed .einval sb => (some .einval, sb, ok :: allocs)

/-! ## The interface -/

/-- The insertion of `ext4_es_insert_extent`, from its `retry` label on. -/
def insertRetry (rb : RbShape) (i : Nat) (newes : ExtentStatus) :
    List Bool → Ext4SbInfo → Option Errno × Ext4SbInfo
  | [], sb =>
      match esInsertExtent rb sb i newes true with
      | .done sb _ => (none, sb)
      | .enomem => (some .enomem, sb)
      | .einval => (some .einval, sb)
  | ok :: allocs, sb =>
      match esInsertExtent rb sb i newes ok with
      | .done sb _ => (none, sb)
      | .enomem =>
          let (n, sb) := esShrink rb sb 128 (some i)
          if n ≠ 0 then insertRetry rb i newes allocs sb
          -- a lost entry costs nothing unless it is delayed
          else if !ext4EsIsDelayed newes then (none, sb)
          else (some .enomem, sb)
      | .einval => (some .einval, sb)

/-- The entry a caller describes. -/
def mkEs (lblk len : Nat) (pblk : Fsblk) (status : BitVec 32) : ExtentStatus :=
  ext4EsStorePblockStatus ⟨0, lblk, len, 0⟩ pblk (status.setWidth 64)

/-- `ext4_es_insert_extent`; `none` is the `BUG_ON` on a range that wraps. -/
def ext4EsInsertExtent (rb : RbShape) (allocs : List Bool) (sb : Ext4SbInfo) (i : Nat)
    (lblk len : BitVec 32) (pblk : Fsblk) (status : BitVec 32) :
    Option (Option Errno × Ext4SbInfo) :=
  let last := lblk + len - 1#32
  if len = 0#32 then some (none, sb)
  else if last < lblk then none
  else
    let newes := mkEs lblk.toNat len.toNat pblk status
    match esRemoveExtent rb i lblk.toNat last.toNat allocs sb with
    | (some e, sb, _) => some (some e, sb)
    | (none, sb, allocs) => some (insertRetry rb i newes allocs sb)

/-- `ext4_es_cache_extent`. -/
def ext4EsCacheExtent (rb : RbShape) (allocs : List Bool) (sb : Ext4SbInfo) (i : Nat)
    (lblk len : BitVec 32) (pblk : Fsblk) (status : BitVec 32) : Option Ext4SbInfo :=
  let last := lblk + len - 1#32
  let newes := mkEs lblk.toNat len.toNat pblk status
  if len = 0#32 then some sb
  else if last < lblk then none
  else
    let insert :=
      match esInsertExtent rb sb i newes (allocs.headD true) with
      | .done sb _ => sb
      | .enomem => sb
      | .einval => sb
    match esTreeSearch rb (sb.root i) lblk.toNat with
    | none => some insert
    | some z => if last.toNat < z.cur.esLblk then some insert else some sb

/-- `ext4_es_remove_extent`. -/
def ext4EsRemoveExtent (rb : RbShape) (allocs : List Bool) (sb : Ext4SbInfo) (i : Nat)
    (lblk len : BitVec 32) : Option (Option Errno × Ext4SbInfo) :=
  let last := lblk + len - 1#32
  if len = 0#32 then some (none, sb)
  else if last < lblk then none
  else
    match esRemoveExtent rb i lblk.toNat last.toNat allocs sb with
    | (e, sb, _) => some (e, sb)

/-- The `out` label of `ext4_es_lookup_extent` with an entry found: a copy
of it, taken before it is marked as referenced. -/
def lookupHit (sb : Ext4SbInfo) (i : Nat) (z : Zip ExtentStatus) :
    Option ExtentStatus × Ext4SbInfo :=
  (some z.cur,
    if ext4EsIsReferenced z.cur then sb
    else sb.setRoot i (z.before ++ ext4EsSetReferenced z.cur :: z.after))

/-- The descent of `ext4_es_lookup_extent`. -/
def lookupSearch (rb : RbShape) (sb : Ext4SbInfo) (i lblk : Nat) :
    Option ExtentStatus × Ext4SbInfo :=
  match descend (searchDir lblk) (rb.tree (sb.root i)) with
  | none => (none, sb)
  | some z => if searchDir lblk z.cur = .eq then lookupHit sb i z else (none, sb)

/-- `ext4_es_lookup_extent`. -/
def ext4EsLookupExtent (rb : RbShape) (sb : Ext4SbInfo) (i : Nat) (lblk : BitVec 32) :
    Option ExtentStatus × Ext4SbInfo :=
  match sb.cached i with
  | some z =>
      if inRange lblk.toNat z.cur.esLblk z.cur.esLen then lookupHit sb i z
      else lookupSearch rb sb i lblk.toNat
  | none => lookupSearch rb sb i lblk.toNat

/-- The `while` loop of `ext4_es_find_delayed_extent_range`: the next
delayed entry that starts by `last`. -/
def nextDelayed (last : Nat) : List ExtentStatus → Option ExtentStatus
  | [] => none
  | es :: after =>
      if last < es.esLblk then none
      else if ext4EsIsDelayed es then some es
      else nextDelayed last after

/-- The entry at the `out` label of `ext4_es_find_delayed_extent_range`:
`cache_es` if it contains `lblk`, else what the search finds. -/
def findStart (rb : RbShape) (sb : Ext4SbInfo) (i lblk : Nat) : Option (Zip ExtentStatus) :=
  match sb.cached i with
  | some z =>
      if inRange lblk z.cur.esLblk z.cur.esLen then some z else esTreeSearch rb (sb.root i) lblk
  | none => esTreeSearch rb (sb.root i) lblk

/-- From there, the entry that is reported. The first one is not compared
with the end of the range. -/
def findFrom (last : Nat) (z : Zip ExtentStatus) : Option ExtentStatus :=
  if ext4EsIsDelayed z.cur then some z.cur else nextDelayed last z.after

/-- `ext4_es_find_delayed_extent_range`; `none` inside is the zero-length
result. -/
def ext4EsFindDelayedExtentRange (rb : RbShape) (sb : Ext4SbInfo) (i : Nat)
    (lblk last : BitVec 32) : Option (Option ExtentStatus × Ext4SbInfo) :=
  if last < lblk then none
  else
    match (findStart rb sb i lblk.toNat).bind (findFrom last.toNat) with
    | none => some (none, sb)
    | some es => some (some es, sb.setCache i (some es.addr))

end Ext4.ExtentsStatus
