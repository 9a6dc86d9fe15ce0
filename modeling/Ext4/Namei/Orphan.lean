import Ext4.Lib.Chain

/-!
# The orphan list

Inodes that are deleted or truncated are on two lists until the work is
done: a list in memory, and a chain on disk that starts in the superblock
and runs through the deletion times of the inodes. This file has
`ext4_orphan_add` and `ext4_orphan_del`, and the loop over the chain at
mount time.

The journal is a parameter: every call to it is an error code of the
environment, zero for success.
-/

namespace Ext4.Namei

/-- What stays as it is while the filesystem is mounted: whether there is a
journal, whether orphans are cleaned up (`EXT4_ORPHAN_FS`), and
`s_inodes_count`. -/
structure OrphanSb where
  sJournal : Bool
  orphanFs : Bool
  sInodesCount : Nat

/-- The types of inodes that `ext4_orphan_add` tells apart. -/
inductive InodeMode where
  | reg
  | dir
  | lnk
  | special
deriving DecidableEq, Repr

/-- An inode of the filesystem as the callers pass it. -/
structure Inode (sb : OrphanSb) where
  iIno : Nat
  isBadInode : Bool
  iMode : InodeMode
  iNlink : Nat
  ino_pos : 0 < iIno
  ino_le : iIno ≤ sb.sInodesCount

/-- The list in memory, first entry first, and the chain on disk:
`nextOrphan` is `NEXT_ORPHAN`, the field `i_dtime`. -/
structure OrphanState where
  sOrphan : List Nat
  sLastOrphan : Nat
  nextOrphan : Nat → Nat

/-- The journal calls of `ext4_orphan_add`. -/
structure AddEnv where
  getWriteAccess : Int
  reserveInodeWrite : Int
  dirtySuper : Int
  markIlocDirty : Int

/-- The journal calls of `ext4_orphan_del`, those for the predecessor
after those for the superblock. -/
structure DelEnv where
  reserveInodeWrite : Int
  getWriteAccess : Int
  dirtySuper : Int
  reservePrev : Int
  markPrevDirty : Int
  markIlocDirty : Int

variable (sb : OrphanSb)

/-- The test for an inode that is not on the disk list. -/
def OrphanState.offDisk (st : OrphanState) (ino : Nat) : Prop :=
  st.nextOrphan ino = 0 ∨ sb.sInodesCount < st.nextOrphan ino

instance (st : OrphanState) (ino : Nat) : Decidable (st.offDisk sb ino) :=
  inferInstanceAs (Decidable (_ ∨ _))

variable {sb}

/-- The inodes for which `ext4_orphan_add` does not stop in its
assertion. -/
def Inode.orphanable (inode : Inode sb) : Bool :=
  inode.iMode ≠ .special || inode.iNlink = 0

/-- `ext4_orphan_add`; `none` is the assertion. -/
def ext4OrphanAdd (env : AddEnv) (inode : Inode sb) (st : OrphanState) :
    Option (OrphanState × Int) :=
  if !sb.sJournal || inode.isBadInode then some (st, 0)
  else if inode.iIno ∈ st.sOrphan then some (st, 0)
  else if !inode.orphanable then none
  else if env.getWriteAccess ≠ 0 then some (st, env.getWriteAccess)
  else if env.reserveInodeWrite ≠ 0 then some (st, env.reserveInodeWrite)
  else if st.offDisk sb inode.iIno then
    -- the chain is written before the calls that may fail
    let st' : OrphanState :=
      { sOrphan := inode.iIno :: st.sOrphan
        sLastOrphan := inode.iIno
        nextOrphan := Function.update st.nextOrphan inode.iIno st.sLastOrphan }
    let err := if env.dirtySuper ≠ 0 then env.dirtySuper else env.markIlocDirty
    if err ≠ 0 then some ({ st' with sOrphan := st'.sOrphan.erase inode.iIno }, err)
    else some (st', 0)
  else some ({ st with sOrphan := inode.iIno :: st.sOrphan }, 0)

/-- The entry in front of `ino`; `none` is the head of the list. -/
def prevOrphan (ino : Nat) : List Nat → Option Nat
  | [] => none
  | a :: l => if l.head? = some ino then some a else prevOrphan ino l

/-- The link to an inode, in the superblock or in the inode in front of
it, is set to the next inode. -/
def relinkOrphan (env : DelEnv) (prev : Option Nat) (inoNext : Nat) (st : OrphanState) :
    OrphanState × Int :=
  match prev with
  | none =>
      if env.getWriteAccess ≠ 0 then (st, env.getWriteAccess)
      else ({ st with sLastOrphan := inoNext }, env.dirtySuper)
  | some p =>
      if env.reservePrev ≠ 0 then (st, env.reservePrev)
      else ({ st with nextOrphan := Function.update st.nextOrphan p inoNext }, env.markPrevDirty)

/-- `ext4_orphan_del`; without a handle only the list in memory can be
changed. -/
def ext4OrphanDel (env : DelEnv) (handle : Bool) (inode : Inode sb) (st : OrphanState) :
    OrphanState × Int :=
  if !sb.sJournal && !sb.orphanFs then (st, 0)
  else if inode.iIno ∉ st.sOrphan then (st, 0)
  else
    let st' := { st with sOrphan := st.sOrphan.erase inode.iIno }
    if !handle then (st', 0)
    else if env.reserveInodeWrite ≠ 0 then (st', env.reserveInodeWrite)
    else
      let r := relinkOrphan env (prevOrphan inode.iIno st.sOrphan) (st.nextOrphan inode.iIno) st'
      if r.2 ≠ 0 then r
      else
        ({ r.1 with nextOrphan := Function.update r.1.nextOrphan inode.iIno 0 },
          env.markIlocDirty)

/-! ## Recovery -/

/-- What recovery finds out about an inode: its bit in the inode bitmap,
whether it can be read and truncated, and the inode. -/
structure OrphanInfo where
  bit : Bool
  igetOk : Bool
  canTruncate : Bool
  isBadInode : Bool
  iMode : InodeMode
  iNlink : Nat

/-- `ext4_orphan_get`; `none` is an error. `firstIno` is
`EXT4_FIRST_INO`. -/
def ext4OrphanGet (sb : OrphanSb) {firstIno : Nat} (hfirst : 0 < firstIno)
    (disk : Nat → OrphanInfo) (st : OrphanState) (ino : Nat) : Option (Inode sb) :=
  if h : firstIno ≤ ino ∧ ino ≤ sb.sInodesCount then
    let info := disk ino
    if !info.bit || !info.igetOk then none
    else if (info.iNlink ≠ 0 && !info.canTruncate) || info.isBadInode then none
    else if sb.sInodesCount < st.nextOrphan ino then none
    else some ⟨ino, info.isBadInode, info.iMode, info.iNlink, Nat.lt_of_lt_of_le hfirst h.1, h.2⟩
  else none

/-- A turn of the loop: whether an error has been recorded before it, how
`ext4_orphan_del` is called at the end of the truncate or the deletion, and
the time of a deletion. -/
structure CleanupStep where
  errorFs : Bool
  env : DelEnv
  handle : Bool
  dtime : Nat

/-- The loop of `ext4_orphan_cleanup`, with the inodes it has worked on;
`none` if the turns do not suffice. -/
def ext4OrphanCleanup (sb : OrphanSb) {firstIno : Nat} (hfirst : 0 < firstIno)
    (disk : Nat → OrphanInfo) : List CleanupStep → OrphanState → Option (List Nat × OrphanState)
  | [], _ => none
  | s :: steps, st =>
      if st.sLastOrphan = 0 then some ([], st)
      else if s.errorFs then some ([], { st with sLastOrphan := 0 })
      else
        match ext4OrphanGet sb hfirst disk st st.sLastOrphan with
        | none => some ([], { st with sLastOrphan := 0 })
        | some inode =>
            let st := { st with sOrphan := inode.iIno :: st.sOrphan }
            let st := (ext4OrphanDel s.env s.handle inode st).1
            -- an inode without links is deleted for good
            let st := if inode.iNlink = 0
              then { st with nextOrphan := Function.update st.nextOrphan inode.iIno s.dtime }
              else st
            (ext4OrphanCleanup sb hfirst disk steps st).map fun r => (inode.iIno :: r.1, r.2)

/-! ## Runs -/

inductive OrphanOp (sb : OrphanSb) where
  | add (env : AddEnv) (inode : Inode sb)
  | del (env : DelEnv) (handle : Bool) (inode : Inode sb)

def orphanStep (op : OrphanOp sb) (st : OrphanState) : Option OrphanState :=
  match op with
  | .add env inode => (ext4OrphanAdd env inode st).map Prod.fst
  | .del env handle inode => some (ext4OrphanDel env handle inode st).1

def orphanRun : List (OrphanOp sb) → OrphanState → Option OrphanState
  | [], st => some st
  | op :: ops, st => (orphanStep op st).bind (orphanRun ops)

/-- `P` holds now and after every call. -/
def Throughout (P : OrphanState → Prop) : List (OrphanOp sb) → OrphanState → Prop
  | [], st => P st
  | op :: ops, st => P st ∧ ∀ st', orphanStep op st = some st' → Throughout P ops st'

/-- Every call that returns meets `P` in the state it finds. -/
def EveryCall (P : OrphanState → OrphanOp sb → Prop) : List (OrphanOp sb) → OrphanState → Prop
  | [], _ => True
  | op :: ops, st => ∀ st', orphanStep op st = some st' → P st op ∧ EveryCall P ops st'

/-- No journal call fails, and a deletion has a handle. -/
def OrphanOp.Clean : OrphanOp sb → Prop
  | .add env _ => env = ⟨0, 0, 0, 0⟩
  | .del env handle _ => env = ⟨0, 0, 0, 0, 0, 0⟩ ∧ handle = true

/-- A filesystem without orphans: the times in the inodes are none or no
inode numbers. -/
structure NoOrphans (sb : OrphanSb) (st : OrphanState) : Prop where
  memory : st.sOrphan = []
  chain : st.sLastOrphan = 0
  times : ∀ ino, st.offDisk sb ino

end Ext4.Namei
