import Mathlib.Data.List.Basic
import Mathlib.Logic.Function.Basic

/-!
# Link counts of the namespace operations

`mkdir`, `rmdir`, `link`, `unlink`, `rename` with its flags, and the
creation and the end of inodes, as far as they change directory entries,
link counts and the entry `..`. A directory is the map from names to inodes
that `ext4_find_entry`, `ext4_add_entry` and `ext4_delete_entry` show; how
it is stored is not modelled here, except that adding an entry may make it
an indexed one.

Adding an entry and making an inode can fail. The calls that read and
journal directory blocks succeed. An operation that retries after an error
is called again.
-/

namespace Ext4.Namei

def EXT4_LINK_MAX : Nat := 65000

def ENOENT : Int := -2
def EEXIST : Int := -17
def EMLINK : Int := -31
def ENOTEMPTY : Int := -39
def EFSCORRUPTED : Int := -117

/-- The features that matter, and the root directory. -/
structure NsSb where
  dirNlink : Bool
  dirIndex : Bool
  root : Nat

/-- An inode: `index` is the flag of an indexed directory and `dotdot` the
inode its entry `..` names. `reachedMax` is auxiliary: the count once
reached `EXT4_LINK_MAX`. -/
structure NsInode where
  isDir : Bool
  iNlink : Nat
  index : Bool
  dotdot : Nat
  reachedMax : Bool
deriving DecidableEq, Repr

structure Dirent (Name : Type) where
  dir : Nat
  name : Name
  inode : Nat
deriving DecidableEq, Repr

/-- The inodes in use and the entries of all directories but `.` and
`..`. -/
structure NsState (Name : Type) where
  inodes : Nat → Option NsInode
  entries : List (Dirent Name)

/-! ## Inodes -/

namespace NsInode

variable (sb : NsSb)

/-- `is_dx`. -/
def isDx (n : NsInode) : Bool := sb.dirIndex && n.index

/-- `EXT4_DIR_LINK_MAX`. -/
def dirLinkMax (n : NsInode) : Bool :=
  EXT4_LINK_MAX ≤ n.iNlink && !(sb.dirNlink && n.isDx sb)

/-- `ext4_inc_count`. -/
def incCount (n : NsInode) : NsInode :=
  let nlink := n.iNlink + 1
  { n with
    iNlink := if n.isDx sb && (EXT4_LINK_MAX < nlink || nlink = 2) then 1 else nlink
    reachedMax := n.reachedMax || EXT4_LINK_MAX ≤ nlink }

/-- `ext4_dec_count`. -/
def decCount (n : NsInode) : NsInode :=
  if !n.isDir || 2 < n.iNlink then { n with iNlink := n.iNlink - 1 } else n

/-- `drop_nlink`. -/
def dropNlink (n : NsInode) : NsInode := { n with iNlink := n.iNlink - 1 }

/-- `set_nlink` and `clear_nlink`. -/
def setNlink (k : Nat) (n : NsInode) : NsInode := { n with iNlink := k }

/-- `ext4_update_dx_flag`. -/
def updateDxFlag (n : NsInode) : NsInode := if sb.dirIndex then n else { n with index := false }

def setIndex (n : NsInode) : NsInode := { n with index := true }

def setDotdot (dir : Nat) (n : NsInode) : NsInode := { n with dotdot := dir }

end NsInode

variable {Name : Type} [DecidableEq Name]

namespace NsState

/-- The inode is changed in memory. -/
def modify (st : NsState Name) (i : Nat) (f : NsInode → NsInode) : NsState Name :=
  { st with inodes := Function.update st.inodes i ((st.inodes i).map f) }

/-- `ext4_new_inode`: one link, no flags. -/
def newInode (st : NsState Name) (i : Nat) (isDir : Bool) : NsState Name :=
  { st with inodes := Function.update st.inodes i (some ⟨isDir, 1, false, 0, false⟩) }

end NsState

/-! ## Entries -/

/-- The first entry of a name in a directory is found, replaced or
removed. -/
def findIn (dir : Nat) (name : Name) : List (Dirent Name) → Option Nat
  | [] => none
  | e :: l => if e.dir = dir ∧ e.name = name then some e.inode else findIn dir name l

def setIn (dir : Nat) (name : Name) (ino : Nat) : List (Dirent Name) → List (Dirent Name)
  | [] => []
  | e :: l => if e.dir = dir ∧ e.name = name then ⟨dir, name, ino⟩ :: l
      else e :: setIn dir name ino l

def removeIn (dir : Nat) (name : Name) : List (Dirent Name) → List (Dirent Name)
  | [] => []
  | e :: l => if e.dir = dir ∧ e.name = name then l else e :: removeIn dir name l

/-- `ext4_find_entry`. -/
def ext4FindEntry (st : NsState Name) (dir : Nat) (name : Name) : Option Nat :=
  findIn dir name st.entries

/-- The outcome of `ext4_add_entry`: an error, and whether the directory
has been made an indexed one. -/
structure AddEntryEnv where
  err : Int
  index : Bool

/-- `ext4_add_entry`. -/
def ext4AddEntry (sb : NsSb) (env : AddEntryEnv) (dir : Nat) (name : Name) (ino : Nat)
    (st : NsState Name) : NsState Name × Int :=
  let st := if env.index && sb.dirIndex then st.modify dir NsInode.setIndex else st
  if (ext4FindEntry st dir name).isSome then (st, EEXIST)
  else if env.err ≠ 0 then (st, env.err)
  else ({ st with entries := ⟨dir, name, ino⟩ :: st.entries }, 0)

/-- `ext4_delete_entry`. -/
def ext4DeleteEntry (dir : Nat) (name : Name) (st : NsState Name) : NsState Name :=
  { st with entries := removeIn dir name st.entries }

/-- `ext4_setent`. -/
def ext4Setent (dir : Nat) (name : Name) (ino : Nat) (st : NsState Name) : NsState Name :=
  { st with entries := setIn dir name ino st.entries }

/-- `ext4_empty_dir`. -/
def ext4EmptyDir (st : NsState Name) (i : Nat) : Bool := st.entries.all fun e => e.dir ≠ i

/-! ## Operations

`early` stands for the checks at the start that have no effect: quota,
project and shutdown. -/

variable (sb : NsSb)

structure MkdirEnv where
  early : Int
  newInode : Int
  initNewDir : Int
  add : AddEntryEnv

/-- `ext4_mkdir`; `ino` is the number the new directory gets. -/
def ext4Mkdir (env : MkdirEnv) (dir : Nat) (name : Name) (ino : Nat) (st : NsState Name) :
    Option (NsState Name × Int) :=
  (st.inodes dir).map fun d =>
    if d.dirLinkMax sb then (st, EMLINK)
    else if env.early ≠ 0 then (st, env.early)
    else if env.newInode ≠ 0 then (st, env.newInode)
    else
      let st := st.newInode ino true
      if env.initNewDir ≠ 0 then (st.modify ino (NsInode.setNlink 0), env.initNewDir)
      else
        let st := (st.modify ino (NsInode.setDotdot dir)).modify ino (NsInode.setNlink 2)
        let r := ext4AddEntry sb env.add dir name ino st
        if r.2 ≠ 0 then (r.1.modify ino (NsInode.setNlink 0), r.2)
        else ((r.1.modify dir (NsInode.incCount sb)).modify dir (NsInode.updateDxFlag sb), 0)

structure CreateEnv where
  early : Int
  newInode : Int
  add : AddEntryEnv

/-- `ext4_create`, `ext4_mknod` and `ext4_symlink` with
`ext4_add_nondir`. -/
def ext4Create (env : CreateEnv) (dir : Nat) (name : Name) (ino : Nat) (st : NsState Name) :
    NsState Name × Int :=
  if env.early ≠ 0 then (st, env.early)
  else if env.newInode ≠ 0 then (st, env.newInode)
  else
    let r := ext4AddEntry sb env.add dir name ino (st.newInode ino false)
    if r.2 ≠ 0 then (r.1.modify ino NsInode.dropNlink, r.2) else (r.1, 0)

/-- `ext4_tmpfile`: an inode without a name. -/
def ext4Tmpfile (ino : Nat) (st : NsState Name) : NsState Name :=
  (st.newInode ino false).modify ino NsInode.dropNlink

/-- `ext4_rmdir`. -/
def ext4Rmdir (early : Int) (dir : Nat) (name : Name) (ino : Nat) (st : NsState Name) :
    NsState Name × Int :=
  if early ≠ 0 then (st, early)
  else
    match ext4FindEntry st dir name with
    | none => (st, ENOENT)
    | some i =>
        if i ≠ ino then (st, EFSCORRUPTED)
        else if !ext4EmptyDir st ino then (st, ENOTEMPTY)
        else
          let st := ext4DeleteEntry dir name st
          ((((st.modify ino (NsInode.setNlink 0)).modify dir NsInode.decCount).modify dir
            (NsInode.updateDxFlag sb)), 0)

/-- `ext4_unlink`. -/
def ext4Unlink (early : Int) (dir : Nat) (name : Name) (ino : Nat) (st : NsState Name) :
    NsState Name × Int :=
  if early ≠ 0 then (st, early)
  else
    match ext4FindEntry st dir name with
    | none => (st, ENOENT)
    | some i =>
        if i ≠ ino then (st, EFSCORRUPTED)
        else
          let st := st.modify ino fun n => if n.iNlink = 0 then n.setNlink 1 else n
          let st := ext4DeleteEntry dir name st
          ((st.modify dir (NsInode.updateDxFlag sb)).modify ino NsInode.dropNlink, 0)

structure LinkEnv where
  early : Int
  add : AddEntryEnv

/-- `ext4_link`. -/
def ext4Link (env : LinkEnv) (ino : Nat) (dir : Nat) (name : Name) (st : NsState Name) :
    Option (NsState Name × Int) :=
  (st.inodes ino).map fun n =>
    if EXT4_LINK_MAX ≤ n.iNlink then (st, EMLINK)
    else if env.early ≠ 0 then (st, env.early)
    else
      let r := ext4AddEntry sb env.add dir name ino (st.modify ino (NsInode.incCount sb))
      if r.2 ≠ 0 then (r.1.modify ino NsInode.dropNlink, r.2) else (r.1, 0)

/-- `early` includes the failure to make the whiteout. -/
structure RenameEnv where
  early : Int
  add : AddEntryEnv

/-- `ext4_whiteout_for_rename`, if there is to be a whiteout. -/
def makeWhiteout (whiteout : Option Nat) (st : NsState Name) : NsState Name :=
  match whiteout with
  | none => st
  | some w => st.newInode w false

/-- The old entry becomes the whiteout's. -/
def setWhiteout (oldDir : Nat) (oldName : Name) (whiteout : Option Nat) (st : NsState Name) :
    NsState Name :=
  match whiteout with
  | none => st
  | some w => ext4Setent oldDir oldName w st

/-- The new entry is made, or the one found there is changed. -/
def renameNewEntry (env : RenameEnv) (newDir : Nat) (newName : Name) (old : Nat)
    (found : Option Nat) (st : NsState Name) : NsState Name × Int :=
  match found with
  | none => ext4AddEntry sb env.add newDir newName old st
  | some _ => (ext4Setent newDir newName old st, 0)

/-- The end of `ext4_rename` after an error. -/
def renameFails (whiteout : Option Nat) (st : NsState Name) (err : Int) : NsState Name × Int :=
  match whiteout with
  | none => (st, err)
  | some w => (st.modify w NsInode.dropNlink, err)

/-- The checks of `ext4_rename` for a directory, with
`ext4_rename_dir_prepare`; zero if it may be moved. -/
def renameDirCheck (oldDir : Nat) (o : NsInode) (newDir : Nat) (d : NsInode) (new : Option Nat)
    (st : NsState Name) : Int :=
  if !o.isDir then 0
  else
    match new with
    | some j =>
        if !ext4EmptyDir st j then ENOTEMPTY
        else if o.dotdot ≠ oldDir then EFSCORRUPTED else 0
    | none =>
        if newDir ≠ oldDir && d.dirLinkMax sb then EMLINK
        else if o.dotdot ≠ oldDir then EFSCORRUPTED else 0

/-- The counts and the entry `..` after the entries have been changed. -/
def renameCounts (oldDir old : Nat) (isDir : Bool) (newDir : Nat) (new : Option Nat)
    (st : NsState Name) : NsState Name :=
  let st := match new with
    | some j => st.modify j NsInode.decCount
    | none => st
  let st := st.modify oldDir (NsInode.updateDxFlag sb)
  if isDir then
    let st := (st.modify old (NsInode.setDotdot newDir)).modify oldDir NsInode.decCount
    match new with
    | some j => st.modify j (NsInode.setNlink 0)
    | none => (st.modify newDir (NsInode.incCount sb)).modify newDir (NsInode.updateDxFlag sb)
  else st

/-- `ext4_rename`; `new` is the inode that is replaced and `whiteout` the
number of the whiteout inode of `RENAME_WHITEOUT`. -/
def ext4Rename (env : RenameEnv) (oldDir : Nat) (oldName : Name) (old : Nat) (newDir : Nat)
    (newName : Name) (new whiteout : Option Nat) (st : NsState Name) :
    Option (NsState Name × Int) :=
  (st.inodes old).bind fun o => (st.inodes newDir).map fun d =>
    if env.early ≠ 0 then (st, env.early)
    else if ext4FindEntry st oldDir oldName ≠ some old then (st, ENOENT)
    else
      let found := if new.isSome then ext4FindEntry st newDir newName else none
      let st := makeWhiteout whiteout st
      let err := renameDirCheck sb oldDir o newDir d new st
      if err ≠ 0 then renameFails whiteout st err
      else
        let st := setWhiteout oldDir oldName whiteout st
        let r := renameNewEntry sb env newDir newName old found st
        if r.2 ≠ 0 then renameFails whiteout r.1 r.2
        else
          let st := if whiteout = none then ext4DeleteEntry oldDir oldName r.1 else r.1
          (renameCounts sb oldDir old o.isDir newDir new st, 0)

/-- `ext4_update_dir_count`. -/
def ext4UpdateDirCount (dir : Nat) (delta : Int) (st : NsState Name) : NsState Name :=
  if delta = 0 then st
  else if delta = -1 then st.modify dir NsInode.decCount
  else st.modify dir (NsInode.incCount sb)

/-- `ext4_rename_dir_finish` for an inode that is a directory. -/
def renameDirFinish (i : Nat) (isDir : Bool) (dir : Nat) (st : NsState Name) : NsState Name :=
  if isDir then st.modify i (NsInode.setDotdot dir) else st

/-- `old.dir_nlink_delta` of `ext4_cross_rename`; that of the other
directory is its negative. -/
def exchangeDelta (oldDir newDir : Nat) (oldIsDir newIsDir : Bool) : Int :=
  if oldDir ≠ newDir ∧ oldIsDir ≠ newIsDir then (if oldIsDir then -1 else 1) else 0

/-- `ext4_cross_rename`. -/
def ext4CrossRename (early : Int) (oldDir : Nat) (oldName : Name) (old : Nat) (newDir : Nat)
    (newName : Name) (new : Nat) (st : NsState Name) : Option (NsState Name × Int) :=
  (st.inodes old).bind fun o => (st.inodes new).bind fun n =>
    (st.inodes oldDir).bind fun od => (st.inodes newDir).map fun nd =>
      if early ≠ 0 then (st, early)
      else if ext4FindEntry st oldDir oldName ≠ some old then (st, ENOENT)
      else if ext4FindEntry st newDir newName ≠ some new then (st, ENOENT)
      else if o.isDir && o.dotdot ≠ oldDir then (st, EFSCORRUPTED)
      else if n.isDir && n.dotdot ≠ newDir then (st, EFSCORRUPTED)
      else
        let oldDelta := exchangeDelta oldDir newDir o.isDir n.isDir
        let newDelta := -oldDelta
        if (0 < oldDelta && od.dirLinkMax sb) || (0 < newDelta && nd.dirLinkMax sb) then
          (st, EMLINK)
        else
          let st := ext4Setent newDir newName old st
          let st := ext4Setent oldDir oldName new st
          let st := renameDirFinish old o.isDir newDir st
          let st := renameDirFinish new n.isDir oldDir st
          (ext4UpdateDirCount sb newDir newDelta (ext4UpdateDirCount sb oldDir oldDelta st), 0)

/-! ## Runs -/

inductive NsOp (Name : Type) where
  | mkdir (env : MkdirEnv) (dir : Nat) (name : Name) (ino : Nat)
  | create (env : CreateEnv) (dir : Nat) (name : Name) (ino : Nat)
  | tmpfile (ino : Nat)
  | rmdir (early : Int) (dir : Nat) (name : Name) (ino : Nat)
  | unlink (early : Int) (dir : Nat) (name : Name) (ino : Nat)
  | link (env : LinkEnv) (ino dir : Nat) (name : Name)
  | rename (env : RenameEnv) (oldDir : Nat) (oldName : Name) (old newDir : Nat) (newName : Name)
      (new whiteout : Option Nat)
  | crossRename (early : Int) (oldDir : Nat) (oldName : Name) (old newDir : Nat) (newName : Name)
      (new : Nat)
  | evict (ino : Nat)

/-- One operation; `none` if an inode it is called with is not in use. -/
def nsStep (op : NsOp Name) (st : NsState Name) : Option (NsState Name) :=
  match op with
  | .mkdir env dir name ino => (ext4Mkdir sb env dir name ino st).map Prod.fst
  | .create env dir name ino => some (ext4Create sb env dir name ino st).1
  | .tmpfile ino => some (ext4Tmpfile ino st)
  | .rmdir early dir name ino => some (ext4Rmdir sb early dir name ino st).1
  | .unlink early dir name ino => some (ext4Unlink sb early dir name ino st).1
  | .link env ino dir name => (ext4Link sb env ino dir name st).map Prod.fst
  | .rename env oldDir oldName old newDir newName new whiteout =>
      (ext4Rename sb env oldDir oldName old newDir newName new whiteout st).map Prod.fst
  | .crossRename early oldDir oldName old newDir newName new =>
      (ext4CrossRename sb early oldDir oldName old newDir newName new st).map Prod.fst
  | .evict ino => some { st with inodes := Function.update st.inodes ino none }

def nsRun : List (NsOp Name) → NsState Name → Option (NsState Name)
  | [], st => some st
  | op :: ops, st => (nsStep sb op st).bind (nsRun ops)

/-- A directory that has not been removed. -/
def LiveDir (st : NsState Name) (i : Nat) : Prop :=
  ∃ n, st.inodes i = some n ∧ n.isDir = true ∧ n.iNlink ≠ 0

/-- An inode of the given type. -/
def HasType (st : NsState Name) (i : Nat) (isDir : Bool) : Prop :=
  ∃ n, st.inodes i = some n ∧ n.isDir = isDir

/-- What the VFS checks and locks before it calls: entries are only made in
directories that exist; only directories are removed by `rmdir` and only
other inodes are linked and unlinked; a rename replaces the inode the new
name stands for, of the same type as the old one and not the same inode;
new inodes were not in use; and an inode goes away when it has no links. -/
def NsOp.Legal (st : NsState Name) : NsOp Name → Prop
  | .mkdir _ dir _ ino | .create _ dir _ ino => LiveDir st dir ∧ st.inodes ino = none
  | .tmpfile ino => st.inodes ino = none
  | .rmdir _ dir _ ino => LiveDir st dir ∧ HasType st ino true
  | .unlink _ dir _ ino => LiveDir st dir ∧ HasType st ino false
  | .link _ ino dir _ => LiveDir st dir ∧ HasType st ino false
  | .rename _ oldDir _ old newDir newName new whiteout => LiveDir st oldDir ∧ LiveDir st newDir ∧
      ext4FindEntry st newDir newName = new ∧
      (∀ j, new = some j → j ≠ old ∧ ∀ t, HasType st old t → HasType st j t) ∧
      ∀ w, whiteout = some w → st.inodes w = none
  | .crossRename _ oldDir _ old newDir _ new => LiveDir st oldDir ∧ LiveDir st newDir ∧ old ≠ new
  | .evict ino => ∃ n, st.inodes ino = some n ∧ n.iNlink = 0

/-- The new name of a rename with a whiteout is entered without an
error. -/
def NsOp.WhiteoutFits : NsOp Name → Prop
  | .rename env _ _ _ _ _ new whiteout => new = none → whiteout ≠ none → env.add.err = 0
  | _ => True

/-- Every operation that is carried out meets `P` in the state it finds. -/
def NsRunMeets (P : NsState Name → NsOp Name → Prop) : List (NsOp Name) → NsState Name → Prop
  | [], _ => True
  | op :: ops, st => P st op ∧ ∀ st', nsStep sb op st = some st' → NsRunMeets P ops st'

end Ext4.Namei
