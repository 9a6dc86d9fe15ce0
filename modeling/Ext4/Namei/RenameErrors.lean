import Ext4.Namei.DirBlocks

/-!
# Rename — what an error leaves behind

`ext4_rename` on the blocks of the directories. It gives up after it has made
the whiteout, and again when the new name cannot be entered. It then takes the
link of the whiteout back, and nothing else: an old entry that already names
the whiteout stays that way.

The calls that journal blocks succeed. Which names can be entered depends on
the blocks, so an insertion that moves the other entries of a block is part of
what is said here.
-/

namespace Ext4.Namei

/-- The inodes in use and the blocks of the directories. -/
structure NsDisk (Name : Type) where
  inodes : Nat → Option NsInode
  blocks : Nat → List (List (Slot Name))

section Model

variable {Name : Type} [DecidableEq Name]

/-- A change to the first block in which there is something to change. -/
def changeBlock (f : List (Slot Name) → Option (List (Slot Name))) :
    List (List (Slot Name)) → List (List (Slot Name))
  | [] => []
  | b :: l =>
      match f b with
      | some b' => b' :: l
      | none => b :: changeBlock f l

/-- `ext4_setent` in the block of the entry. -/
def setentIn (name : Name) (ino : Nat) : List (Slot Name) → Option (List (Slot Name))
  | [] => none
  | s :: l =>
      if s.entry.map Prod.fst = some name then some ({ s with entry := some (name, ino) } :: l)
      else (setentIn name ino l).map (s :: ·)

/-- `ext4_generic_delete_entry` behind a slot, which gets the space. -/
def deleteBehind (name : Name) : Slot Name → List (Slot Name) → Option (List (Slot Name))
  | _, [] => none
  | pde, de :: l =>
      if de.entry.map Prod.fst = some name then
        some ({ pde with recLen := pde.recLen + de.recLen } :: l)
      else (deleteBehind name de l).map (pde :: ·)

/-- `ext4_generic_delete_entry`: the first entry of a block becomes unused. -/
def genericDeleteEntry (name : Name) : List (Slot Name) → Option (List (Slot Name))
  | [] => none
  | de :: l =>
      if de.entry.map Prod.fst = some name then some ({ de with entry := none } :: l)
      else deleteBehind name de l

namespace NsDisk

variable (st : NsDisk Name)

/-- `ext4_find_entry`. -/
def findEntry (dir : Nat) (name : Name) : Option Nat := (dirents (st.blocks dir)).lookup name

/-- The inodes, and the directory that is to be replaced. -/
def view (new : Option Nat) : NsState Name :=
  ⟨st.inodes, new.elim [] fun dir => (dirents (st.blocks dir)).map fun e => ⟨dir, e.1, e.2⟩⟩

/-- A step that changes inodes only. -/
def onInodes (f : NsState Name → NsState Name) : NsDisk Name :=
  { st with inodes := (f ⟨st.inodes, []⟩).inodes }

def setBlocks (dir : Nat) (blocks : List (List (Slot Name))) : NsDisk Name :=
  { st with blocks := Function.update st.blocks dir blocks }

/-- `ext4_setent`. -/
def setent (dir : Nat) (name : Name) (ino : Nat) : NsDisk Name :=
  st.setBlocks dir (changeBlock (setentIn name ino) (st.blocks dir))

/-- `ext4_rename_delete`. -/
def renameDelete (dir : Nat) (name : Name) : NsDisk Name :=
  st.setBlocks dir (changeBlock (genericDeleteEntry name) (st.blocks dir))

/-- `EXT4_INODE_INDEX`. -/
def indexed (dir : Nat) : Bool := (st.inodes dir).elim false NsInode.index

/-- `ext4_add_entry`. -/
def addEntry (sb : DirSb Name) (env : DirEnv) (dir : Nat) (name : Name) (ino : Nat) :
    NsDisk Name × Int :=
  let r := addEntryToBlocks sb name ino env (st.indexed dir) (st.blocks dir)
  ((st.onInodes fun s => s.modify dir fun n => { n with index := r.index }).setBlocks dir r.blocks,
    r.err)

end NsDisk

/-- What the surroundings decide: the checks and the search at the start; the
search for the new name, the start of the transaction and the whiteout; and
the insertion. -/
structure RenameDiskEnv where
  start : Option DirErr
  prepare : Option DirErr
  add : DirEnv

variable (sb : DirSb Name) (env : RenameDiskEnv)

/-- The new entry is made, or the one found there is changed. -/
def newEntry (newDir : Nat) (newName : Name) (old : Nat) (found : Option Nat) (st : NsDisk Name) :
    NsDisk Name × Int :=
  match found with
  | none => st.addEntry sb env.add newDir newName old
  | some _ => (st.setent newDir newName old, 0)

/-- The end of `ext4_rename` after an error. -/
def giveUp (whiteout : Option Nat) (st : NsDisk Name) (err : Int) : NsDisk Name × Int :=
  (st.onInodes fun s => (renameFails whiteout s err).1, err)

/-- `ext4_rename` in the blocks of the directories. -/
def renameOnDisk (oldDir : Nat) (oldName : Name) (old newDir : Nat) (newName : Name)
    (new whiteout : Option Nat) (st : NsDisk Name) : Option (NsDisk Name × Int) :=
  (st.inodes old).bind fun o => (st.inodes newDir).map fun d =>
    match env.start with
    | some e => (st, e)
    | none =>
        if st.findEntry oldDir oldName ≠ some old then (st, ENOENT)
        else
          match env.prepare with
          | some e => (st, e)
          | none =>
              let found := if new.isSome then st.findEntry newDir newName else none
              let st := st.onInodes (makeWhiteout whiteout)
              let err := renameDirCheck sb.toNsSb oldDir o newDir d new (st.view new)
              if err ≠ 0 then giveUp whiteout st err
              else
                let st := whiteout.elim st (st.setent oldDir oldName)
                let r := newEntry sb env newDir newName old found st
                if r.2 ≠ 0 then giveUp whiteout r.1 r.2
                else
                  let st := if whiteout = none then r.1.renameDelete oldDir oldName else r.1
                  (st.onInodes (renameCounts sb.toNsSb oldDir old o.isDir newDir new), 0)

end Model

/-! ## Entries that are changed -/

section Setent

variable {Name : Type} [DecidableEq Name] {name : Name} {ino : Nat}

theorem lookup_entry {s : Slot Name} (h : s.entry.map Prod.fst ≠ some name) :
    s.entry.toList.lookup name = none := by
  cases he : s.entry with
  | none => rfl
  | some e =>
    rw [he] at h
    have hne : name ≠ e.1 := fun heq => h (congrArg some heq.symm)
    rw [Option.toList_some, List.lookup_cons, beq_eq_false_iff_ne.mpr hne]
    rfl

theorem setentIn_none {b : List (Slot Name)} (h : setentIn name ino b = none) :
    (blockDirents b).lookup name = none := by
  induction b with
  | nil => rfl
  | cons s b ih =>
    rw [setentIn] at h
    split at h
    · cases h
    · rename_i hs
      rw [blockDirents_cons, List.lookup_append, lookup_entry hs, Option.none_or]
      exact ih (Option.map_eq_none_iff.mp h)

theorem setentIn_some {b b' : List (Slot Name)} (h : setentIn name ino b = some b') :
    b'.map Slot.shape = b.map Slot.shape ∧ (blockDirents b').lookup name = some ino := by
  induction b generalizing b' with
  | nil => cases h
  | cons s b ih =>
    rw [setentIn] at h
    split at h
    · rename_i hs
      obtain rfl := Option.some.inj h
      refine ⟨congrArg (· :: _) (Prod.ext hs.symm rfl), ?_⟩
      rw [blockDirents_cons]
      exact List.lookup_cons_self
    · rename_i hs
      obtain ⟨l, hl, rfl⟩ := Option.map_eq_some_iff.mp h
      obtain ⟨hshape, hlookup⟩ := ih hl
      refine ⟨congrArg (_ :: ·) hshape, ?_⟩
      rw [blockDirents_cons, List.lookup_append, lookup_entry hs, Option.none_or]
      exact hlookup

/-- The slots stay where they are. -/
theorem setent_shapes (blocks : List (List (Slot Name))) :
    shapes (changeBlock (setentIn name ino) blocks) = shapes blocks := by
  induction blocks with
  | nil => rfl
  | cons b l ih =>
    rw [changeBlock]
    split
    · rename_i b' hb
      exact congrArg (· :: _) (setentIn_some hb).1
    · exact congrArg (_ :: ·) ih

/-- The name stands for the inode then. -/
theorem setent_lookup {blocks : List (List (Slot Name))}
    (h : (dirents blocks).lookup name ≠ none) :
    (dirents (changeBlock (setentIn name ino) blocks)).lookup name = some ino := by
  induction blocks with
  | nil => exact absurd rfl h
  | cons b l ih =>
    rw [changeBlock]
    split
    · rename_i b' hb
      rw [dirents_cons, List.lookup_append, (setentIn_some hb).2]
      rfl
    · rename_i hb
      rw [dirents_cons, List.lookup_append, setentIn_none hb, Option.none_or] at h ⊢
      exact ih h

end Setent

/-! ## Errors -/

/-- Every name stands for the same inode, and every inode that was in use has
the same links and the same `..`. -/
structure Unchanged {Name : Type} [DecidableEq Name] (st st' : NsDisk Name) : Prop where
  names : ∀ dir name, st'.findEntry dir name = st.findEntry dir name
  inodes : ∀ i n, st.inodes i = some n →
    ∃ n', st'.inodes i = some n' ∧ n'.iNlink = n.iNlink ∧ n'.dotdot = n.dotdot

namespace Unchanged

variable {Name : Type} [DecidableEq Name] {st st' : NsDisk Name} {whiteout : Option Nat}

theorem refl (st : NsDisk Name) : Unchanged st st :=
  ⟨fun _ _ => rfl, fun _ n hn => ⟨n, hn, rfl, rfl⟩⟩

/-- An inode that was not in use is made or changed. -/
theorem update (h : Unchanged st st') {w : Nat} (hw : st.inodes w = none) (x : Option NsInode) :
    Unchanged st { st' with inodes := Function.update st'.inodes w x } := by
  refine ⟨h.names, fun i n hn => ?_⟩
  have hne : i ≠ w := by
    rintro rfl
    rw [hw] at hn
    cases hn
  show ∃ n', Function.update st'.inodes w x i = some n' ∧ _
  rw [Function.update_of_ne hne]
  exact h.inodes i n hn

theorem makeWhiteout (hw : ∀ w, whiteout = some w → st.inodes w = none) :
    Unchanged st (st.onInodes (makeWhiteout whiteout)) := by
  cases whiteout with
  | none => exact refl st
  | some w => exact (refl st).update (hw w rfl) _

theorem giveUp (h : Unchanged st st') (hw : ∀ w, whiteout = some w → st.inodes w = none)
    (err : Int) : Unchanged st (giveUp whiteout st' err).1 := by
  cases whiteout with
  | none => exact h
  | some w => exact h.update (hw w rfl) _

end Unchanged

section Errors

variable {Name : Type} [DecidableEq Name] {sb : DirSb Name} {st st' : NsDisk Name}

/-- An entry that cannot be added leaves the names alone, though it may leave
an index behind. -/
theorem addEntry_failed {env : DirEnv} {dir : Nat} {name : Name} {ino : Nat}
    (herr : (st.addEntry sb env dir name ino).2 ≠ 0) :
    Unchanged st (st.addEntry sb env dir name ino).1 := by
  refine ⟨fun i n => ?_, fun i n hn => ?_⟩
  · cases @addEntryToBlocks_spec _ sb name ino env (st.blocks dir) (st.indexed dir) _ with
    | added h0 _ => exact absurd h0 herr
    | failed _ hsame =>
      by_cases hi : i = dir
      · subst hi
        show List.lookup n (dirents (Function.update st.blocks i _ i)) = _
        rw [Function.update_self, hsame]
        rfl
      · show List.lookup n (dirents (Function.update st.blocks dir _ i)) = _
        rw [Function.update_of_ne hi]
        rfl
  · by_cases hi : i = dir
    · subst hi
      refine ⟨{ n with index :=
        (addEntryToBlocks sb name ino env (st.indexed i) (st.blocks i)).index }, ?_, rfl, rfl⟩
      show Function.update st.inodes i ((st.inodes i).map _) i = _
      rw [Function.update_self, hn]
      rfl
    · refine ⟨n, ?_, rfl, rfl⟩
      show Function.update st.inodes dir _ i = _
      rw [Function.update_of_ne hi, hn]

/-- The old name is given to the whiteout and then the new one cannot be
entered: nothing stops the rename before, a directory may be moved, and the
insertion into the blocks fails. -/
structure Strands (sb : DirSb Name) (env : RenameDiskEnv) (oldDir : Nat) (oldName : Name)
    (old newDir : Nat) (newName : Name) (new whiteout : Option Nat) (st : NsDisk Name) : Prop where
  start : env.start = none
  found : st.findEntry oldDir oldName = some old
  prepare : env.prepare = none
  whiteout : whiteout ≠ none
  new : new = none
  fails : ∃ o d, st.inodes old = some o ∧ st.inodes newDir = some d ∧
    (o.isDir = true →
      (newDir = oldDir ∨ d.dirLinkMax sb.toNsSb = false) ∧ o.dotdot = oldDir) ∧
    (addEntryToBlocks sb newName old env.add d.index (st.blocks newDir)).err ≠ 0

variable {oldDir : Nat} {oldName : Name} {old newDir : Nat} {newName : Name}

omit [DecidableEq Name] in
theorem renameDirCheck_none {o d : NsInode} {s : NsState Name} :
    renameDirCheck sb.toNsSb oldDir o newDir d none s = 0 ↔ (o.isDir = true →
      (newDir = oldDir ∨ d.dirLinkMax sb.toNsSb = false) ∧ o.dotdot = oldDir) := by
  rw [renameDirCheck]
  by_cases ho : o.isDir = true
  · rw [if_neg (by simp [ho])]
    split
    · rename_i hmax
      refine ⟨fun h => absurd h (by decide), fun h => ?_⟩
      rcases (h ho).1 with heq | hlink
      · simp [heq] at hmax
      · simp [hlink] at hmax
    · rename_i hmax
      have hlink : newDir = oldDir ∨ d.dirLinkMax sb.toNsSb = false := by
        simpa [Classical.or_iff_not_imp_left] using hmax
      split
      · rename_i hdot
        exact ⟨fun h => absurd h (by decide), fun h => absurd (h ho).2 hdot⟩
      · rename_i hdot
        exact ⟨fun _ _ => ⟨hlink, not_not.mp hdot⟩, fun _ => rfl⟩
  · rw [if_pos (by simp [ho])]
    exact ⟨fun _ h => absurd h ho, fun _ => rfl⟩

/-- The whiteout is made and gets the old name. -/
def NsDisk.withWhiteout (st : NsDisk Name) (oldDir : Nat) (oldName : Name) (w : Nat) :
    NsDisk Name :=
  (st.onInodes (makeWhiteout (some w))).setent oldDir oldName w

/-- The insertion behind the whiteout fails as it would have before. -/
theorem withWhiteout_addEntry {w : Nat} {d : NsInode} (hw : st.inodes w = none)
    (hd : st.inodes newDir = some d) {env : DirEnv} :
    ((st.withWhiteout oldDir oldName w).addEntry sb env newDir newName old).2
      = (addEntryToBlocks sb newName old env d.index (st.blocks newDir)).err := by
  have hne : newDir ≠ w := by
    rintro rfl
    rw [hw] at hd
    cases hd
  have hindex : (st.withWhiteout oldDir oldName w).indexed newDir = d.index := by
    show (Function.update st.inodes w _ newDir).elim false NsInode.index = d.index
    rw [Function.update_of_ne hne, hd]
    rfl
  show (addEntryToBlocks sb newName old env _ (Function.update st.blocks oldDir _ newDir)).err = _
  rw [hindex]
  refine addEntryToBlocks_err ?_
  by_cases hdir : newDir = oldDir
  · subst hdir
    rw [Function.update_self]
    exact setent_shapes _
  · rw [Function.update_of_ne hdir]

/-- The old name stands for the whiteout when the insertion has failed. -/
theorem withWhiteout_findEntry {w : Nat} (hfound : st.findEntry oldDir oldName = some old)
    {env : DirEnv}
    (herr : ((st.withWhiteout oldDir oldName w).addEntry sb env newDir newName old).2 ≠ 0) :
    ((st.withWhiteout oldDir oldName w).addEntry sb env newDir newName old).1.findEntry oldDir
      oldName
      = some w := by
  rw [(addEntry_failed herr).names]
  show (dirents (Function.update st.blocks oldDir _ oldDir)).lookup oldName = some w
  rw [Function.update_self]
  refine setent_lookup fun hnone => ?_
  rw [show st.findEntry oldDir oldName = none from hnone] at hfound
  cases hfound

/-- **A rename that fails changes nothing, unless the whiteout is stranded.**
The VFS passes the inode the new name stands for, and the whiteout is a new
inode. -/
theorem rename_error_unchanged_iff (sb : DirSb Name) (env : RenameDiskEnv) (oldDir : Nat)
    (oldName : Name) (old newDir : Nat) (newName : Name) (new whiteout : Option Nat)
    (st : NsDisk Name) (hnew : st.findEntry newDir newName = new)
    (hw : ∀ w, whiteout = some w → st.inodes w = none) :
    (∀ st' err, renameOnDisk sb env oldDir oldName old newDir newName new whiteout st
        = some (st', err) → err ≠ 0 → Unchanged st st') ↔
      ¬ Strands sb env oldDir oldName old newDir newName new whiteout st := by
  have hfound : (if new.isSome = true then st.findEntry newDir newName else none) = new := by
    rw [hnew]
    cases new <;> rfl
  constructor
  · intro hkeep hs
    obtain ⟨o, d, ho, hd, hdir, hadd⟩ := hs.fails
    obtain ⟨w, rfl⟩ := Option.ne_none_iff_exists'.mp hs.whiteout
    obtain rfl := hs.new
    rw [← @withWhiteout_addEntry _ _ sb st oldDir oldName old newDir newName w d (hw w rfl)
      hd] at hadd
    have hrun : renameOnDisk sb env oldDir oldName old newDir newName none (some w) st
        = some (giveUp (some w)
          ((st.withWhiteout oldDir oldName w).addEntry sb env.add newDir newName old).1
          ((st.withWhiteout oldDir oldName w).addEntry sb env.add newDir newName old).2) := by
      rw [renameOnDisk, ho, hd, hs.start, hs.prepare]
      show some _ = _
      dsimp only
      rw [if_neg (not_not.mpr hs.found), if_neg (not_not.mpr (renameDirCheck_none.mpr hdir))]
      exact congrArg some (if_pos hadd)
    have hlook := (hkeep _ _ hrun hadd).names oldDir oldName
    rw [hs.found] at hlook
    have hwo : some w = some old := (withWhiteout_findEntry hs.found hadd).symm.trans hlook
    obtain rfl := Option.some.inj hwo
    rw [hw w rfl] at ho
    cases ho
  · intro hs st' err h herr
    have hmade := Unchanged.makeWhiteout hw
    obtain ⟨o, ho, h⟩ := Option.bind_eq_some_iff.mp h
    obtain ⟨d, hd, h⟩ := Option.map_eq_some_iff.mp h
    cases hstart : env.start with
    | some e =>
      rw [hstart] at h
      cases h
      exact .refl st
    | none =>
      rw [hstart] at h
      dsimp only at h
      split at h
      · cases h
        exact .refl st
      rename_i hold
      cases hprep : env.prepare with
      | some e =>
        rw [hprep] at h
        cases h
        exact .refl st
      | none =>
        rw [hprep, hfound] at h
        dsimp only at h
        split at h
        · obtain rfl : _ = st' := congrArg Prod.fst h
          exact hmade.giveUp hw _
        rename_i hdir
        split at h
        · rename_i hadd
          obtain rfl : _ = st' := congrArg Prod.fst h
          cases new with
          | some j => exact absurd rfl hadd
          | none =>
            cases whiteout with
            | none => exact (addEntry_failed hadd).giveUp hw _
            | some w =>
              -- the old name is the whiteout's already
              refine absurd ⟨hstart, not_not.mp hold, hprep, Option.some_ne_none w, rfl, o, d, ho,
                hd, renameDirCheck_none.mp (not_not.mp hdir), ?_⟩ hs
              rw [← @withWhiteout_addEntry _ _ sb st oldDir oldName old newDir newName w d
                (hw w rfl) hd]
              exact hadd
        · cases h
          exact absurd rfl herr

end Errors

/-! ## A full directory -/

/-- Blocks of 1 KiB and names of 240 bytes, four of which fill a block. -/
def longNames : DirSb Nat where
  dirNlink := true
  dirIndex := true
  root := 2
  blocksize := 1024
  csumSize := 0
  nameLen _ := 240
  hash := UInt32.ofNat

theorem enospc_ne_zero : (-28 : Int) ≠ 0 := by decide

/-- No block is free. -/
def noSpace : RenameDiskEnv where
  start := none
  prepare := none
  add := ⟨none, .ok 1, fun _ => none, none, some ⟨-28, enospc_ne_zero⟩, some ⟨-28, enospc_ne_zero⟩⟩

/-- A root directory without room, and in it an empty directory and one with a
file. -/
def fullDisk : NsDisk Nat where
  inodes i := if i = 2 then some ⟨true, 4, false, 2, false⟩
    else if i = 11 ∨ i = 12 then some ⟨true, 2, false, 2, false⟩
    else if i = 13 ∨ i = 14 ∨ i = 15 then some ⟨false, 1, false, 0, false⟩ else none
  blocks dir := if dir = 2 then
      [[⟨some (0, 11), 248⟩, ⟨some (1, 12), 248⟩, ⟨some (4, 14), 248⟩, ⟨some (5, 15), 256⟩]]
    else if dir = 12 then [[⟨some (2, 13), 1000⟩]] else [[⟨none, 1000⟩]]

/-- The second directory cannot be replaced by the first, with a whiteout or
without. -/
theorem rename_error_unchanged_notempty :
    ∃ st', renameOnDisk longNames noSpace 2 0 11 2 1 (some 12) (some 16) fullDisk
      = some (st', ENOTEMPTY) ∧ Unchanged fullDisk st' := by
  have hw : ∀ w, some 16 = some w → fullDisk.inodes w = none := by
    rintro _ ⟨⟩
    rfl
  have hiff := rename_error_unchanged_iff longNames noSpace 2 0 11 2 1 (some 12) (some 16) fullDisk
    rfl hw
  exact ⟨_, rfl, hiff.mpr (fun hs => Option.some_ne_none 12 hs.new) _ ENOTEMPTY rfl (by decide)⟩

/-- The file is moved out of its directory with a whiteout and there is no room
for the new name: the old name stands for the whiteout, which has no link. -/
theorem rename_error_keeps_whiteout :
    ∃ st', renameOnDisk longNames noSpace 12 2 13 2 3 none (some 16) fullDisk = some (st', -28) ∧
      fullDisk.findEntry 12 2 = some 13 ∧ st'.findEntry 12 2 = some 16 ∧
      (st'.inodes 16).map NsInode.iNlink = some 0 :=
  ⟨_, rfl, rfl, rfl, rfl⟩

end Ext4.Namei
