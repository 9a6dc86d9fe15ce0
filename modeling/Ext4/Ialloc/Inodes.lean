import Ext4.Lib.Bitmap

/-!
# Inode allocation

`__ext4_new_inode`, `ext4_free_inode` and `ext4_init_inode_table`, as calls
that run at the same time. A step is a section under the group lock or under
`alloc_sem`, or what a call does without a lock between two of them. There
is a journal, and no journal or I/O call fails.

The group a call begins with is not modelled: it is any group, as is the
place of the search in it.
-/

namespace Ext4.Ialloc

open Bitmap

/-- The superblock. The counters of a group descriptor have `countBits` bits
and can hold `s_inodes_per_group`. -/
structure IaSb where
  inodesPerGroup : Nat
  inodesPerBlock : Nat
  groupsCount : Nat
  firstIno : Nat
  groupDescCsum : Bool
  countBits : Nat
  inodesPerBlock_pos : 0 < inodesPerBlock
  inodesPerGroup_lt : inodesPerGroup < 2 ^ countBits

variable (sb : IaSb)

/-- `s_itb_per_group`. -/
def IaSb.itbPerGroup : Nat := sb.inodesPerGroup / sb.inodesPerBlock

/-- The number of an inode. -/
def IaSb.ino (group bit : Nat) : Nat := bit + 1 + group * sb.inodesPerGroup

/-- A group descriptor with the buffer of the inode bitmap: `uninit` and
`zeroed` are `EXT4_BG_INODE_UNINIT` and `EXT4_BG_INODE_ZEROED`, and
`corrupt` is `EXT4_GROUP_INFO_IBITMAP_CORRUPT`. -/
structure GroupDesc where
  bits : Bits
  uptodate : Bool
  uninit : Bool
  zeroed : Bool
  itableUnused : Nat
  freeInodes : Nat
  usedDirs : Nat
  corrupt : Bool
  itableUnused_le : itableUnused ≤ sb.inodesPerGroup

namespace GroupDesc

variable {sb}

/-- The bitmap that `ext4_read_inode_bitmap` returns. -/
def bitmap (desc : GroupDesc sb) : Bits :=
  if !desc.uptodate && sb.groupDescCsum && desc.uninit then fun _ => false else desc.bits

/-- `ext4_read_inode_bitmap`; `none` stands for an error. -/
def readInodeBitmap (group : Nat) (desc : GroupDesc sb) : Option (GroupDesc sb) :=
  if desc.uptodate then some desc
  else if sb.groupDescCsum && desc.uninit then
    if group = 0 then none
    else some { desc with bits := fun _ => false, uptodate := true }
  else some { desc with uptodate := true }

/-- One more and one less in a field of a descriptor. -/
def succCount (sb : IaSb) (n : Nat) : Nat := (n + 1) % 2 ^ sb.countBits

def predCount (sb : IaSb) (n : Nat) : Nat := (n + (2 ^ sb.countBits - 1)) % 2 ^ sb.countBits

/-- The inodes of the table that may be in use, as `__ext4_new_inode` sees
it. -/
def usedTable (desc : GroupDesc sb) : Nat :=
  if desc.uninit then 0 else sb.inodesPerGroup - desc.itableUnused

/-- The descriptor after `__ext4_new_inode` has taken inode `ino`, counted
from one. -/
def takeInode (isDir : Bool) (ino : Nat) (desc : GroupDesc sb) : GroupDesc sb :=
  let used := if isDir then succCount sb desc.usedDirs else desc.usedDirs
  let free := predCount sb desc.freeInodes
  if sb.groupDescCsum then
    if desc.usedTable < ino then
      { desc with
        uninit := false, freeInodes := free, usedDirs := used
        itableUnused := sb.inodesPerGroup - ino, itableUnused_le := Nat.sub_le _ _ }
    else { desc with uninit := false, freeInodes := free, usedDirs := used }
  else { desc with freeInodes := free, usedDirs := used }

/-- The section of `ext4_free_inode` under the group lock. -/
def freeInode (isDir : Bool) (bit : Nat) (desc : GroupDesc sb) : GroupDesc sb :=
  if desc.bits bit then
    { desc with
      bits := put desc.bits bit false
      freeInodes := succCount sb desc.freeInodes
      usedDirs := if isDir then predCount sb desc.usedDirs else desc.usedDirs }
  else { desc with corrupt := true }

/-- `used_blks` of `ext4_init_inode_table`. -/
def usedBlks (desc : GroupDesc sb) : Nat :=
  if desc.uninit then 0
  else (sb.inodesPerGroup - desc.itableUnused + sb.inodesPerBlock - 1) / sb.inodesPerBlock

/-- `ext4_init_inode_table` finds something wrong. -/
def tableWrong (group : Nat) (desc : GroupDesc sb) : Bool :=
  sb.itbPerGroup < desc.usedBlks ||
    (group = 0 && sb.inodesPerGroup - desc.itableUnused < sb.firstIno)

/-- The blocks of the inode table that `ext4_init_inode_table` zeroes: the
first one and how many. -/
def zeroRange (group : Nat) (desc : GroupDesc sb) : Nat × Nat :=
  if desc.zeroed || desc.tableWrong group then (0, 0)
  else (desc.usedBlks, sb.itbPerGroup - desc.usedBlks)

/-- `ext4_init_inode_table`. -/
def initInodeTable (group : Nat) (desc : GroupDesc sb) : GroupDesc sb :=
  if desc.zeroed || desc.tableWrong group then desc else { desc with zeroed := true }

end GroupDesc

/-- `find_inode_bit`; there is no bit if the result is not below
`s_inodes_per_group`. -/
def findInodeBit (bits : Bits) (ino : Nat) : Nat := findNext bits false sb.inodesPerGroup ino

/-! ## Calls -/

/-- A call in progress. The first four are the places of `__ext4_new_inode`
between its steps: at the begin of round `i` of its loop, with the bitmap
read, with a bit found but not yet taken, and at `got`. The last one is
`ext4_free_inode` in front of its locked section. -/
inductive Call where
  | scan (isDir : Bool) (i group ino : Nat)
  | search (isDir : Bool) (i group ino : Nat)
  | found (isDir : Bool) (i group ino : Nat)
  | got (isDir : Bool) (group bit : Nat)
  | free (isDir : Bool) (group bit : Nat)

/-- The groups, the inodes in use with whether they are directories, and
the calls in progress. -/
structure IaState where
  groups : Nat → GroupDesc sb
  inUse : Nat → Nat → Option Bool
  calls : Nat → Option Call

namespace IaState

variable {sb}

def setCall (st : IaState sb) (t : Nat) (c : Option Call) : IaState sb :=
  { st with calls := Function.update st.calls t c }

def setGroup (st : IaState sb) (group : Nat) (desc : GroupDesc sb) : IaState sb :=
  { st with groups := Function.update st.groups group desc }

def setUse (st : IaState sb) (group bit : Nat) (u : Option Bool) : IaState sb :=
  { st with inUse := Function.update st.inUse group (Function.update (st.inUse group) bit u) }

end IaState

/-- `next_group`; the call is over after the last round. -/
def nextGroup (isDir : Bool) (i group : Nat) : Option Call :=
  if i + 1 < sb.groupsCount then
    some (.scan isDir (i + 1) (if group + 1 = sb.groupsCount then 0 else group + 1) 0)
  else none

variable {sb}

/-- The begin of a round: the checks of the group, and its bitmap. -/
def scanGroup (t : Nat) (isDir : Bool) (i group ino : Nat) (st : IaState sb) : IaState sb :=
  let desc := st.groups group
  if desc.freeInodes = 0 || desc.corrupt then st.setCall t (nextGroup sb isDir i group)
  else
    match desc.readInodeBitmap group with
    | none => st.setCall t (nextGroup sb isDir i group)
    | some desc => (st.setGroup group desc).setCall t (some (.search isDir i group ino))

/-- The search without a lock; `seen` is the bitmap as it is seen while
others change it. -/
def searchGroup (t : Nat) (isDir : Bool) (i group ino : Nat) (seen : Bits) (st : IaState sb) :
    IaState sb :=
  let ino := findInodeBit sb seen ino
  if sb.inodesPerGroup ≤ ino then st.setCall t (nextGroup sb isDir i group)
  else if group = 0 ∧ ino + 1 < sb.firstIno then
    (st.setGroup group { st.groups group with corrupt := true }).setCall t
      (nextGroup sb isDir i group)
  else st.setCall t (some (.found isDir i group ino))

/-- The section under the group lock that takes the bit, or another one if
it is gone. -/
def claimBit (t : Nat) (isDir : Bool) (i group ino : Nat) (st : IaState sb) : IaState sb :=
  let desc := st.groups group
  let bit := if desc.bits ino then findInodeBit sb desc.bits ino else ino
  if bit < sb.inodesPerGroup then
    (st.setGroup group { desc with bits := put desc.bits bit true }).setCall t
      (some (.got isDir group bit))
  else if bit + 1 < sb.inodesPerGroup then st.setCall t (some (.search isDir i group (bit + 1)))
  else st.setCall t (nextGroup sb isDir i group)

/-- The section under `alloc_sem` and the group lock; the inode is in use
from then on. -/
def handOut (t : Nat) (isDir : Bool) (group bit : Nat) (st : IaState sb) : IaState sb :=
  ((st.setGroup group ((st.groups group).takeInode isDir (bit + 1))).setUse group bit
    (some isDir)).setCall t none

/-- `ext4_free_inode` up to its locked section. -/
def beginFree (t : Nat) (isDir : Bool) (group bit : Nat) (st : IaState sb) : IaState sb :=
  if sb.ino group bit < sb.firstIno ∨ sb.groupsCount * sb.inodesPerGroup < sb.ino group bit then st
  else
    match (st.groups group).readInodeBitmap group with
    | none => st
    | some desc =>
        if desc.corrupt then st.setGroup group desc
        else (st.setGroup group desc).setCall t (some (.free isDir group bit))

/-- The rest of `ext4_free_inode`. -/
def endFree (t : Nat) (isDir : Bool) (group bit : Nat) (st : IaState sb) : IaState sb :=
  ((st.setGroup group ((st.groups group).freeInode isDir bit)).setUse group bit none).setCall t none

/-! ## Runs -/

inductive IaOp where
  | newInode (t : Nat) (isDir : Bool) (group ino : Nat)
  | scan (t : Nat)
  | search (t : Nat) (seen : Bits)
  | claim (t : Nat)
  | handOut (t : Nat)
  | freeInode (t group bit : Nat)
  | endFree (t : Nat)
  | initInodeTable (group : Nat)
  | reclaim (group : Nat)

/-- One step; `none` if the call is not at this place. `reclaim` drops the
buffer of a bitmap from memory. -/
def iaStep (op : IaOp) (st : IaState sb) : Option (IaState sb) :=
  match op with
  | .newInode t isDir group ino => some (st.setCall t (some (.scan isDir 0 group ino)))
  | .scan t =>
      match st.calls t with
      | some (.scan isDir i group ino) => some (scanGroup t isDir i group ino st)
      | _ => none
  | .search t seen =>
      match st.calls t with
      | some (.search isDir i group ino) => some (searchGroup t isDir i group ino seen st)
      | _ => none
  | .claim t =>
      match st.calls t with
      | some (.found isDir i group ino) => some (claimBit t isDir i group ino st)
      | _ => none
  | .handOut t =>
      match st.calls t with
      | some (.got isDir group bit) => some (Ialloc.handOut t isDir group bit st)
      | _ => none
  | .freeInode t group bit => (st.inUse group bit).map fun isDir => beginFree t isDir group bit st
  | .endFree t =>
      match st.calls t with
      | some (.free isDir group bit) => some (Ialloc.endFree t isDir group bit st)
      | _ => none
  | .initInodeTable group => some (st.setGroup group ((st.groups group).initInodeTable group))
  | .reclaim group => some (st.setGroup group { st.groups group with uptodate := false })

def iaRun : List IaOp → IaState sb → Option (IaState sb)
  | [], st => some st
  | op :: ops, st => (iaStep op st).bind (iaRun ops)

/-- The call has the buffer of the bitmap of a group. -/
def Call.Holds (group : Nat) : Call → Prop
  | .scan .. => False
  | .search _ _ g _ | .found _ _ g _ | .got _ g _ | .free _ g _ => g = group

/-- What callers and the buffer cache promise: a call is begun by a thread
that has none in progress; an inode that goes away is freed once; there is a
thread for the inode tables only with checksums of descriptors; and a buffer
is not dropped while a call has it. -/
def IaOp.Legal (st : IaState sb) : IaOp → Prop
  | .newInode t _ group _ => st.calls t = none ∧ group < sb.groupsCount
  | .freeInode t group bit => st.calls t = none ∧
      ∀ t' isDir, st.calls t' ≠ some (.free isDir group bit)
  | .initInodeTable group => sb.groupDescCsum = true ∧ group < sb.groupsCount
  | .reclaim group => ∀ t c, st.calls t = some c → ¬ c.Holds group
  | _ => True

/-- Every step of a run is legal. -/
def IaRunLegal : List IaOp → IaState sb → Prop
  | [], _ => True
  | op :: ops, st => op.Legal st ∧ ∀ st', iaStep op st = some st' → IaRunLegal ops st'

end Ext4.Ialloc
