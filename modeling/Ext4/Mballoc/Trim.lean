import Ext4.Mballoc.FreeBlocks

/-!
# Multiblock allocator — FITRIM

`ext4_trim_fs` passes the free clusters of a range to the discard operation of
the device, group by group. A group that was walked is marked with
`EXT4_GROUP_INFO_WAS_TRIMMED_BIT`, and a later call whose minimum length is not
below `s_last_trim_minblks` skips it. Clusters that are freed clear the mark,
unless the file system is mounted with `-o discard`; preallocations that are
given back, and the blocks of a resize, do not.

What happens to the clusters is kept in a log, newest entry first. The calls
are not interleaved with each other: `need_resched` does nothing here.
-/

namespace Ext4.Mballoc

open Bitmap

/-- The superblock as FITRIM reads it. -/
structure TrimSb where
  geo : Geometry
  clusters_pos : 0 < geo.clustersPerGroup
  sBlocksizeBits : Nat
  sClusterBits : Nat
  sFirstDataBlock : Nat
  blocksCount : Nat

/-- `EXT4_BLOCKS_PER_GROUP`. -/
def TrimSb.blocksPerGroup (sb : TrimSb) : Nat := sb.geo.clustersPerGroup <<< sb.sClusterBits

/-- `ext4_get_group_no_and_offset`. -/
def ext4GetGroupNoAndOffset (sb : TrimSb) (blocknr : Nat) : Nat × Nat :=
  let blocknr := blocknr - sb.sFirstDataBlock
  (blocknr / sb.blocksPerGroup, (blocknr % sb.blocksPerGroup) >>> sb.sClusterBits)

/-- `EXT4_NUM_B2C`. -/
def TrimSb.numB2C (sb : TrimSb) (blks : Nat) : Nat :=
  (blks + 2 ^ sb.sClusterBits - 1) >>> sb.sClusterBits

inductive TrimErr where
  | einval
  | erestartsys
  | errno (code : Nat)
deriving DecidableEq, Repr

/-- What `ext4_issue_discard` returns. -/
inductive DiscardRet where
  | done
  | eopnotsupp
  | err (code : Nat)
deriving DecidableEq, Repr

/-- What happens to clusters of a group. -/
inductive TrimEvent where
  | freed (group start count : Nat)
  | discarded (group start count : Nat)
deriving DecidableEq, Repr

/-- What a call meets: errors of `ext4_mb_init_group` and `ext4_mb_load_buddy`,
the answers of the device, and whether a fatal signal is pending when the walk
of a group has come to a cluster. -/
structure TrimEnv where
  initGroup : Nat → Option Nat
  loadBuddy : Nat → Option Nat
  discard : Nat → Nat → Nat → DiscardRet
  signal : Nat → Nat → Bool

structure TrimGroup where
  e4b : Ext4Buddy
  wasTrimmed : Bool

structure TrimState where
  groups : Nat → TrimGroup
  sLastTrimMinblks : Nat
  log : List TrimEvent

/-- `ext4_trim_extent`; `none` is a `BUG_ON` of the buddy code. -/
def ext4TrimExtent (geo : Geometry) (env : TrimEnv) (group start count : Nat) (e4b : Ext4Buddy)
    (log : List TrimEvent) : Option (DiscardRet × Ext4Buddy × List TrimEvent) :=
  match mbMarkUsed geo e4b start count with
  | none => none
  | some (_, e4b) =>
      let ret := env.discard group start count
      match mbFreeBlocks geo e4b start count with
      | none => none
      | some e4b => some (ret, e4b, .discarded group start count :: log)

/-- How the walk of a group ends. -/
inductive WalkEnd where
  | done
  | failed (code : Nat)
  | signalled
deriving DecidableEq, Repr

/-- The `while` loop of `ext4_trim_all_free`. -/
def trimWalk (geo : Geometry) (env : TrimEnv) (group max minblocks : Nat) :
    Nat → Nat → Nat → Nat → Ext4Buddy → List TrimEvent →
    Option (WalkEnd × Nat × Ext4Buddy × List TrimEvent)
  | 0, _, _, _, _, _ => none
  | fuel + 1, start, count, freeCount, e4b, log =>
      if max < start then some (.done, count, e4b, log)
      else
        let start := findNext e4b.bdBitmap false (max + 1) start
        if max < start then some (.done, count, e4b, log)
        else
          let next := findNext e4b.bdBitmap true (max + 1) start
          let trimmed :=
            if minblocks ≤ next - start then
              ext4TrimExtent geo env group start (next - start) e4b log
            else some (.done, e4b, log)
          match trimmed with
          | none => none
          | some (.err code, e4b, log) => some (.failed code, count, e4b, log)
          | some (_, e4b, log) =>
              let count := if minblocks ≤ next - start then count + (next - start) else count
              let freeCount := freeCount + (next - start)
              if env.signal group (next + 1) then some (.signalled, count, e4b, log)
              else if e4b.bdInfo.bbFree - freeCount < minblocks then some (.done, count, e4b, log)
              else trimWalk geo env group max minblocks fuel (next + 1) count freeCount e4b log

/-- `ext4_trim_all_free`. A pending signal leaves `ret` at 0, so the group is
marked although the walk was not finished. -/
def ext4TrimAllFree (geo : Geometry) (env : TrimEnv) (group start max minblocks : Nat)
    (st : TrimState) : Option (Except TrimErr Nat × TrimState) :=
  match env.loadBuddy group with
  | some code => some (.error (.errno code), st)
  | none =>
      let grp := st.groups group
      if grp.wasTrimmed ∧ st.sLastTrimMinblks ≤ minblocks then some (.ok 0, st)
      else
        let start := if start < grp.e4b.bdInfo.bbFirstFree then grp.e4b.bdInfo.bbFirstFree
          else start
        match trimWalk geo env group max minblocks (max + 2) start 0 0 grp.e4b st.log with
        | none => none
        | some (ret, count, e4b, log) =>
            let put := fun wasTrimmed =>
              { st with groups := Function.update st.groups group ⟨e4b, wasTrimmed⟩, log := log }
            match ret with
            | .done => some (.ok count, put true)
            | .signalled => some (.error .erestartsys, put true)
            | .failed code => some (.error (.errno code), put grp.wasTrimmed)

/-- The loop of `ext4_trim_fs` over `n` groups. -/
def trimGroups (geo : Geometry) (env : TrimEnv) (lastGroup lastCluster minlen : Nat) :
    Nat → Nat → Nat → Nat → TrimState → Option (Except TrimErr Nat × TrimState)
  | 0, _, _, trimmed, st => some (.ok trimmed, st)
  | n + 1, group, firstCluster, trimmed, st =>
      match env.initGroup group with
      | some code => some (.error (.errno code), st)
      | none =>
          let last := if group = lastGroup then lastCluster else geo.clustersPerGroup - 1
          if minlen ≤ (st.groups group).e4b.bdInfo.bbFree then
            match ext4TrimAllFree geo env group firstCluster last minlen st with
            | none => none
            | some (.error e, st) => some (.error e, st)
            | some (.ok cnt, st) =>
                trimGroups geo env lastGroup lastCluster minlen n (group + 1) 0 (trimmed + cnt) st
          else trimGroups geo env lastGroup lastCluster minlen n (group + 1) 0 trimmed st

/-- `struct fstrim_range`, in bytes. -/
structure FstrimRange where
  start : Nat
  len : Nat
  minlen : Nat

/-- `ext4_trim_fs`: the length it reports, or an error. -/
def ext4TrimFs (sb : TrimSb) (env : TrimEnv) (range : FstrimRange) (st : TrimState) :
    Option (Except TrimErr Nat × TrimState) :=
  let start := range.start >>> sb.sBlocksizeBits
  let last := start + range.len >>> sb.sBlocksizeBits - 1
  let minlen := sb.numB2C (range.minlen >>> sb.sBlocksizeBits)
  if sb.geo.clustersPerGroup < minlen ∨ sb.blocksCount ≤ start ∨ range.len
    < 2 ^ sb.sBlocksizeBits then
    some (.error .einval, st)
  else
    let last := if sb.blocksCount ≤ last then sb.blocksCount - 1 else last
    if last ≤ sb.sFirstDataBlock then some (.ok 0, st)
    else
      let start := if start < sb.sFirstDataBlock then sb.sFirstDataBlock else start
      let firstGroup := (ext4GetGroupNoAndOffset sb start).1
      let firstCluster := (ext4GetGroupNoAndOffset sb start).2
      let lastGroup := (ext4GetGroupNoAndOffset sb last).1
      let lastCluster := (ext4GetGroupNoAndOffset sb last).2
      match trimGroups sb.geo env lastGroup lastCluster minlen (lastGroup + 1 - firstGroup)
          firstGroup firstCluster 0 st with
      | none => none
      | some (.error e, st) => some (.error e, st)
      | some (.ok trimmed, st) =>
          some (.ok (trimmed <<< sb.sClusterBits <<< sb.sBlocksizeBits),
            { st with sLastTrimMinblks := minlen })

/-! ## Runs -/

/-- `alloc` is `mb_mark_used` for an allocation or a preallocation. `free` is
`ext4_free_blocks` or `ext4_free_data_in_buddy`, with the mount option as it is
then. `release` is `mb_free_blocks` for the clusters of a preallocation, of an
allocation that was not used, or of `ext4_group_add_blocks`. -/
inductive TrimOp where
  | alloc (group start len : Nat)
  | free (discard : Bool) (group start count : Nat)
  | release (group start count : Nat)
  | trim (env : TrimEnv) (range : FstrimRange)

/-- `mb_free_blocks` on the buddy of a group. -/
def freeInBuddy (geo : Geometry) (group start count : Nat) (clear : Bool) (events : List TrimEvent)
    (st : TrimState) : Option TrimState :=
  match mbFreeBlocks geo (st.groups group).e4b start count with
  | none => none
  | some e4b =>
      some { st with
        groups := Function.update st.groups group ⟨e4b, (st.groups group).wasTrimmed && !clear⟩
        log := events ++ st.log }

def trimStep (sb : TrimSb) (op : TrimOp) (st : TrimState) : Option TrimState :=
  match op with
  | .alloc group start len =>
      match mbMarkUsed sb.geo (st.groups group).e4b start len with
      | none => none
      | some (_, e4b) =>
          some { st with
            groups := Function.update st.groups group ⟨e4b, (st.groups group).wasTrimmed⟩ }
  | .free discard group start count =>
      freeInBuddy sb.geo group start count (!discard)
        (if discard then [.discarded group start count, .freed group start count]
          else [.freed group start count]) st
  | .release group start count =>
      freeInBuddy sb.geo group start count false [.freed group start count] st
  | .trim env range => (ext4TrimFs sb env range st).map Prod.snd

def trimRun (sb : TrimSb) : List TrimOp → TrimState → Option TrimState
  | [], st => some st
  | op :: ops, st => (trimStep sb op st).bind (trimRun sb ops)

/-- The first block of a cluster. -/
def TrimSb.blockNo (sb : TrimSb) (group cluster : Nat) : Nat :=
  sb.sFirstDataBlock + group * sb.blocksPerGroup + cluster <<< sb.sClusterBits

/-- The clusters `[start, start + len)` of a group are free. -/
def FreeRun (geo : Geometry) (st : TrimState) (group start len : Nat) : Prop :=
  ∀ c, InRange start len c → Free geo (st.groups group).e4b.bdBitmap c

/-- The cluster was passed to the discard operation, and no cluster of
`[start, start + len)` of its group was freed since. -/
def DiscardedSince (group start len cluster : Nat) : List TrimEvent → Prop
  | [] => False
  | .discarded g s k :: log => (g = group ∧ InRange s k cluster)
    ∨ DiscardedSince group start len cluster log
  | .freed g s k :: log =>
      ¬ (g = group ∧ s < start + len ∧ start < s + k) ∧ DiscardedSince group start len cluster log

/-- Clusters are allocated when they are free; they are freed or given back
when they are not, and then they are clusters of the file system but not the
one that holds the superblock. -/
def TrimOp.Legal (sb : TrimSb) (st : TrimState) : TrimOp → Prop
  | .alloc group start len => 0 < len ∧ FreeRun sb.geo st group start len
  | .free _ group start count | .release group start count =>
      0 < count ∧ start + count ≤ sb.geo.clustersPerGroup
        ∧ (∀ c, InRange start count c → (st.groups group).e4b.bdBitmap c = true
          ∧ sb.blockNo group c < sb.blocksCount)
        ∧ ¬ (group = 0 ∧ start = 0)
  | .trim _ _ => True

end Ext4.Mballoc
