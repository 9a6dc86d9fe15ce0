import Ext4.Namei.Links
import Ext4.Namei.SortMap
import Mathlib.Data.List.FinRange

/-!
# Directories — entries in blocks

`ext4_add_entry` (namei.c) puts an entry into the first block with room for
it. The entries of a full block of an indexed directory are spread over two
blocks by their hashes (`do_split`); a full directory of one block becomes an
indexed one first (`make_indexed_dir`), and any other gets one block more.

A block is the sequence of its slots. What an index block holds is not
modelled: to the code that goes through the blocks one by one it is an unused
slot, and which block the index leads to is part of the surroundings. Block 0
begins behind the entry `..`, whose slack is an unused slot. Directories in
the inode itself (`inline_data`) are left out.
-/

namespace Ext4.Namei

def EINVAL : Int := -22

/-- `struct ext4_dir_entry_2`; without an inode it is unused. -/
structure Slot (Name : Type) where
  entry : Option (Name × Nat)
  recLen : Nat
deriving DecidableEq, Repr

/-- What the blocks of directories have in common, and what is known of
names. -/
structure DirSb (Name : Type) extends NsSb where
  blocksize : Nat
  csumSize : Nat
  nameLen : Name → Nat
  hash : Name → UInt32

/-- `EXT4_DIR_REC_LEN`. -/
def dirRecLen (nameLen : Nat) : Nat := (nameLen + 8 + 3) / 4 * 4

/-- The entries of a block, and of a directory. -/
def blockDirents {Name : Type} (b : List (Slot Name)) : List (Name × Nat) := b.filterMap Slot.entry

def dirents {Name : Type} (blocks : List (List (Slot Name))) : List (Name × Nat) :=
  blocks.flatMap blockDirents

section Model

variable {Name : Type} (sb : DirSb Name) (name : Name) (ino : Nat)

/-- The part of a slot that its entry needs. -/
def Slot.used (s : Slot Name) : Nat :=
  (s.entry.map Prod.fst).elim 0 fun n => dirRecLen (sb.nameLen n)

/-- `ext4_insert_dentry`. -/
def ext4InsertDentry (s : Slot Name) : List (Slot Name) :=
  match s.entry with
  | some _ => [{ s with recLen := s.used sb }, ⟨some (name, ino), s.recLen - s.used sb⟩]
  | none => [⟨some (name, ino), s.recLen⟩]

/-- The errors of `ext4_find_dest_de`. -/
inductive DestErr where
  | enospc
  | eexist

/-- `add_dirent_to_buf` with `ext4_find_dest_de`, from an offset in the block
on. -/
def addDirentToBuf [DecidableEq Name] :
    Nat → List (Slot Name) → Except DestErr (List (Slot Name))
  | _, [] => .error .enospc
  | offset, s :: l =>
      if sb.blocksize - sb.csumSize < offset + dirRecLen (sb.nameLen name) then .error .enospc
      else if s.entry.map Prod.fst = some name then .error .eexist
      else if dirRecLen (sb.nameLen name) ≤ s.recLen - s.used sb then
        .ok (ext4InsertDentry sb name ino s ++ l)
      else (addDirentToBuf (offset + s.recLen) l).map (s :: ·)

/-- `add_dirent_to_buf` with the last slot of a block. -/
def addDirentLast : List (Slot Name) → List (Slot Name)
  | [] => []
  | [s] => ext4InsertDentry sb name ino s
  | s :: l => s :: addDirentLast l

/-! ## Splitting a block -/

/-- The entries of a block with their lengths. -/
def sizedDirents (b : List (Slot Name)) : List ((Name × Nat) × Nat) :=
  b.filterMap fun s => s.entry.map (·, s.recLen)

/-- `dx_make_map`: the last entry comes first; `offs` counts the entries. -/
def dxMakeMap (es : List ((Name × Nat) × Nat)) {top : Nat} (h : es.length = top + 1) : DxMap top :=
  fun i =>
    let e := es.get ⟨top - i, by omega⟩
    ⟨sb.hash e.1.1, UInt16.ofNat (top - i), UInt16.ofNat e.2⟩

/-- The sorted map of a block. -/
def sortedMap (es : List ((Name × Nat) × Nat)) : List DxMapEntry :=
  match h : es.length with
  | 0 => []
  | _ + 1 => List.ofFn (dxSortMap (dxMakeMap sb es h))

/-- The number of entries that are moved, from the end of the map: those that
begin in the second half of a block. -/
def moveCount (half : Nat) : Nat → List DxMapEntry → Nat
  | _, [] => 0
  | size, m :: l =>
      if half < size + m.size.toNat / 2 then 0 else 1 + moveCount half (size + m.size.toNat) l

/-- `dx_pack_dirents` and `dx_move_dirents`: the entries without gaps, the last
one up to the end of the block. -/
def packDirents : Nat → List (Name × Nat) → List (Slot Name)
  | room, [] => [⟨none, room⟩]
  | room, [e] => [⟨some e, room⟩]
  | room, e :: l =>
      ⟨some e, dirRecLen (sb.nameLen e.1)⟩ :: packDirents (room - dirRecLen (sb.nameLen e.1)) l

/-- The entries of the given numbers. -/
def pick (es : List ((Name × Nat) × Nat)) (ks : List Nat) : List (Name × Nat) :=
  ks.filterMap fun k => es[k]?.map Prod.fst

/-- `do_split`: the two blocks, and whether an entry with the hash goes to the
second. -/
def doSplit (hash : UInt32) (b : List (Slot Name)) : List (Slot Name) × List (Slot Name) × Bool :=
  let es := sizedDirents b
  let map := sortedMap sb es
  let split := map.length - moveCount (sb.blocksize / 2) 0 map.reverse
  let moved := (map.drop split).map fun m => m.offs.toNat
  let kept := (List.range es.length).filter (· ∉ moved)
  let hash2 := (map[split]?.map DxMapEntry.hash).getD 0
  let room := sb.blocksize - sb.csumSize
  (packDirents sb room (pick es kept), packDirents sb room (pick es moved), decide (hash2 ≤ hash))

/-! ## Adding an entry -/

abbrev DirErr := { e : Int // e ≠ 0 }

/-- Why the index leads nowhere: `ERR_BAD_DX_DIR`, or an error. -/
inductive DxErr where
  | badDxDir
  | errno (err : DirErr)

/-- What the surroundings decide: `ext4_fname_setup_filename`, `dx_probe`, the
blocks that cannot be read, what a split of index blocks ends with, if there is
one, and the results of `ext4_append`. An index that was split is probed
again, which changes no entry. -/
structure DirEnv where
  setup : Option DirErr
  probe : Except DxErr Nat
  read : Nat → Option DirErr
  splitIndex : Option DirErr
  append1 : Option DirErr
  append2 : Option DirErr

/-- The blocks of the directory, `EXT4_INODE_INDEX`, and the result. -/
structure Added (Name : Type) where
  blocks : List (List (Slot Name))
  index : Bool
  err : Int

variable (env : DirEnv)

/-- `do_split` of a block, with the insertion that follows. -/
def splitAndAdd (append : Option DirErr) (blocks : List (List (Slot Name))) (k : Nat)
    (b : List (Slot Name)) : Added Name :=
  match append with
  | some e => ⟨blocks, true, e⟩
  | none =>
      match doSplit sb (sb.hash name) b with
      | (b1, b2, second) =>
          let b1' := if second then b1 else addDirentLast sb name ino b1
          let b2' := if second then addDirentLast sb name ino b2 else b2
          ⟨blocks.set k b1' ++ [b2'], true, 0⟩

variable [DecidableEq Name]

/-- `ext4_dx_add_entry`; no result is `ERR_BAD_DX_DIR`. -/
def ext4DxAddEntry (blocks : List (List (Slot Name))) : Option (Added Name) :=
  match env.probe with
  | .error .badDxDir => none
  | .error (.errno e) => some ⟨blocks, true, e⟩
  | .ok k =>
      match env.read k, blocks[k]? with
      | some e, _ => some ⟨blocks, true, e⟩
      | none, none => some ⟨blocks, true, EFSCORRUPTED⟩
      | none, some b =>
          match addDirentToBuf sb name ino 0 b with
          | .ok b' => some ⟨blocks.set k b', true, 0⟩
          | .error .eexist => some ⟨blocks, true, EEXIST⟩
          | .error .enospc =>
              match env.splitIndex with
              | some e => some ⟨blocks, true, e⟩
              | none => some (splitAndAdd sb name ino env.append1 blocks k b)

/-- The last slot goes on to the end of its block. -/
def extendLast (more : Nat) : List (Slot Name) → List (Slot Name)
  | [] => []
  | [s] => [{ s with recLen := s.recLen + more }]
  | s :: l => s :: extendLast more l

/-- `make_indexed_dir`: the entries of block 0 go to block 1. The entries `.`
and `..` take 24 bytes. -/
def makeIndexedDir (index : Bool) (b : List (Slot Name)) : Added Name :=
  let moved := b.dropWhile fun s => s.entry.isNone
  let size := sb.blocksize - sb.csumSize
  if moved = [] then ⟨[b], index, EFSCORRUPTED⟩
  else
    match env.append1 with
    | some e => ⟨[b], index, e⟩
    | none =>
        let moved := extendLast (size - (moved.map Slot.recLen).sum) moved
        splitAndAdd sb name ino env.append2 [[⟨none, size - 24⟩], moved] 1 moved

/-- The loop of `ext4_add_entry`, from block `k` on; there is no result if no
block has room. -/
def tryBlocks : Nat → List (List (Slot Name)) → Except Int (Option (List (List (Slot Name))))
  | _, [] => .ok none
  | k, b :: l =>
      match env.read k with
      | some e => .error e
      | none =>
          match addDirentToBuf sb name ino (if k = 0 then 24 else 0) b with
          | .ok b' => .ok (some (b' :: l))
          | .error .eexist => .error EEXIST
          | .error .enospc => (tryBlocks (k + 1) l).map fun r => r.map (b :: ·)

/-- The end of `ext4_add_entry`: one block more. -/
def appendAndAdd (index : Bool) (blocks : List (List (Slot Name))) : Added Name :=
  match env.append1 with
  | some e => ⟨blocks, index, e⟩
  | none =>
      ⟨blocks ++ [[⟨some (name, ino), sb.blocksize - sb.csumSize⟩]], index && sb.dirIndex, 0⟩

/-- No block has room: the only one is split if the directory may get an
index. -/
def addToFull (index mayIndex : Bool) (blocks : List (List (Slot Name))) : Added Name :=
  match blocks, mayIndex with
  | [b], true => makeIndexedDir sb name ino env index b
  | _, _ => appendAndAdd sb name ino env index blocks

/-- `ext4_add_entry` behind the index. `index` is the flag, which
`ext4_update_dx_flag` clears where it has no meaning, and `fallback` says that
the index was bad. -/
def addLinear (index fallback : Bool) (blocks : List (List (Slot Name))) : Added Name :=
  match tryBlocks sb name ino env 0 blocks with
  | .error e => ⟨blocks, index, e⟩
  | .ok (some blocks') => ⟨blocks', index && sb.dirIndex, 0⟩
  | .ok none => addToFull sb name ino env index (!fallback && sb.dirIndex) blocks

/-- `ext4_add_entry` in the blocks of a directory. -/
def addEntryToBlocks (index : Bool) (blocks : List (List (Slot Name))) : Added Name :=
  if sb.nameLen name = 0 then ⟨blocks, index, EINVAL⟩
  else
    match env.setup with
    | some e => ⟨blocks, index, e⟩
    | none =>
        if sb.dirIndex && index then
          match ext4DxAddEntry sb name ino env blocks with
          | some r => r
          | none => addLinear sb name ino env false true blocks
        else addLinear sb name ino env index false blocks

end Model

/-! ## What an insertion keeps -/

section Spec

variable {Name : Type} {sb : DirSb Name} {name : Name} {ino : Nat}

theorem blockDirents_cons (s : Slot Name) (b : List (Slot Name)) :
    blockDirents (s :: b) = s.entry.toList ++ blockDirents b := by
  rw [blockDirents, List.filterMap_cons]
  cases s.entry <;> rfl

theorem blockDirents_append (b b' : List (Slot Name)) :
    blockDirents (b ++ b') = blockDirents b ++ blockDirents b' :=
  List.filterMap_append

theorem blockDirents_insert (s : Slot Name) :
    blockDirents (ext4InsertDentry sb name ino s) = s.entry.toList ++ [(name, ino)] := by
  rw [ext4InsertDentry]
  split
  · rename_i e he
    rw [blockDirents_cons, he]
    rfl
  · rename_i he
    rw [he]
    rfl

theorem addDirentLast_perm : ∀ {b : List (Slot Name)}, b ≠ [] →
    (blockDirents (addDirentLast sb name ino b)).Perm ((name, ino) :: blockDirents b)
  | [], h => absurd rfl h
  | [s], _ => by
    rw [addDirentLast, blockDirents_insert, blockDirents_cons]
    exact List.perm_middle
  | s :: s' :: b, _ => by
    rw [addDirentLast, blockDirents_cons, blockDirents_cons s]
    · exact ((addDirentLast_perm (List.cons_ne_nil s' b)).append_left _).trans List.perm_middle
    · exact List.cons_ne_nil s' b

theorem packDirents_ne_nil (room : Nat) : ∀ es : List (Name × Nat), packDirents sb room es ≠ []
  | [] => List.cons_ne_nil _ _
  | [_] => List.cons_ne_nil _ _
  | _ :: _ :: _ => List.cons_ne_nil _ _

theorem blockDirents_pack : ∀ (room : Nat) (es : List (Name × Nat)),
    blockDirents (packDirents sb room es) = es
  | _, [] => rfl
  | _, [_] => rfl
  | room, e :: e' :: es => by
    rw [packDirents, blockDirents_cons, blockDirents_pack]
    · rfl
    · exact List.cons_ne_nil e' es

theorem blockDirents_extendLast (more : Nat) :
    ∀ b : List (Slot Name), blockDirents (extendLast more b) = blockDirents b
  | [] => rfl
  | [_] => rfl
  | s :: s' :: b => by
    rw [extendLast, blockDirents_cons, blockDirents_extendLast, ← blockDirents_cons]
    exact List.cons_ne_nil s' b

/-- Unused slots have no entries. -/
theorem blockDirents_dropWhile (b : List (Slot Name)) :
    blockDirents (b.dropWhile fun s => s.entry.isNone) = blockDirents b := by
  induction b with
  | nil => rfl
  | cons s b ih =>
    rw [List.dropWhile_cons]
    split
    · rename_i hs
      rw [ih, blockDirents_cons, Option.isNone_iff_eq_none.mp hs]
      rfl
    · rfl

/-! ### The split -/

theorem sizedDirents_fst (b : List (Slot Name)) :
    (sizedDirents b).map Prod.fst = blockDirents b := by
  rw [sizedDirents, blockDirents, List.map_filterMap]
  congr 1
  funext s
  cases s.entry <;> rfl

/-- The numbers in the sorted map are those of the entries, each once. -/
theorem sortedMap_offs (sb : DirSb Name) {es : List ((Name × Nat) × Nat)}
    (hlen : es.length ≤ 2 ^ 16) :
    ((sortedMap sb es).map fun m => m.offs.toNat).Perm (List.range es.length) := by
  rw [sortedMap]
  split
  · rename_i h
    rw [h]
    exact List.Perm.nil
  · rename_i top h
    have hperm : Permutes (dxMakeMap sb es h) (dxSortMap (dxMakeMap sb es h)) :=
      (combSort_permutes _ _).trans (bubbleSort_spec _).2
    obtain ⟨σ, hσ⟩ := hperm
    have hoffs : (fun m : DxMapEntry => m.offs.toNat) ∘ dxMakeMap sb es h
        = fun i : Fin (top + 1) => top - i := by
      funext i
      show (UInt16.ofNat (top - i)).toNat = top - i
      rw [UInt16.toNat_ofNat']
      exact Nat.mod_eq_of_lt (by omega)
    rw [hσ]
    refine ((Equiv.Perm.ofFn_comp_perm σ _).map _).trans ?_
    rw [List.map_ofFn, hoffs, h]
    refine (List.perm_ext_iff_of_nodup (List.nodup_ofFn.mpr fun i j hij => ?_)
      List.nodup_range).mpr fun k => ?_
    · exact Fin.ext (by omega)
    · rw [List.mem_ofFn, List.mem_range]
      refine ⟨?_, fun hk => ⟨⟨top - k, by omega⟩, ?_⟩⟩
      · rintro ⟨i, rfl⟩
        omega
      · show top - (top - k) = k
        omega

theorem pick_append (es : List ((Name × Nat) × Nat)) (ks ks' : List Nat) :
    pick es (ks ++ ks') = pick es ks ++ pick es ks' :=
  List.filterMap_append

theorem pick_range (es : List ((Name × Nat) × Nat)) :
    pick es (List.range es.length) = es.map Prod.fst := by
  induction es using List.reverseRecOn with
  | nil => rfl
  | append_singleton es e ih =>
    rw [List.length_append, List.length_singleton, List.range_succ, pick_append, List.map_append,
      ← ih]
    congr 1
    · refine List.filterMap_congr fun k hk => ?_
      rw [List.getElem?_append_left (List.mem_range.mp hk)]
    · rw [pick, List.filterMap_cons, List.getElem?_concat_length]
      rfl

/-- `do_split` keeps the entries. -/
theorem doSplit_perm (sb : DirSb Name) (hash : UInt32) {b : List (Slot Name)}
    (hlen : b.length ≤ 2 ^ 16) :
    (blockDirents (doSplit sb hash b).1 ++ blockDirents (doSplit sb hash b).2.1).Perm
      (blockDirents b) := by
  have hsized : (sizedDirents b).length ≤ 2 ^ 16 := Nat.le_trans (List.length_filterMap_le _ _) hlen
  have hall := sortedMap_offs sb hsized
  rw [doSplit, blockDirents_pack, blockDirents_pack, ← pick_append, ← sizedDirents_fst,
    ← pick_range, List.map_drop]
  generalize (sortedMap sb (sizedDirents b)).length - _ = split
  generalize ((sortedMap sb (sizedDirents b)).map fun m => m.offs.toNat) = all at hall
  refine List.Perm.filterMap _ ?_
  have hnd : (all.take split ++ all.drop split).Nodup := by
    rw [List.take_append_drop]
    exact hall.nodup_iff.mpr List.nodup_range
  have hdisj := List.disjoint_of_nodup_append hnd
  -- what is not moved is what comes first in the map
  have hkept : ((List.range (sizedDirents b).length).filter (· ∉ all.drop split)).Perm
      (all.take split) := by
    have hfirst : (all.take split).filter (· ∉ all.drop split) = all.take split :=
      List.filter_eq_self.mpr fun k hk => decide_eq_true fun hk' => hdisj hk hk'
    have hlast : (all.drop split).filter (· ∉ all.drop split) = [] :=
      List.filter_eq_nil_iff.mpr fun k hk hk' => of_decide_eq_true hk' hk
    have hcut := List.filter_append (p := fun k => decide (k ∉ all.drop split)) (all.take split)
      (all.drop split)
    rw [hfirst, hlast, List.append_nil, List.take_append_drop] at hcut
    exact hcut ▸ hall.symm.filter _
  refine (hkept.append_right _).trans ?_
  rw [List.take_append_drop]
  exact hall

/-! ### The insertion -/

theorem dirents_cons (b : List (Slot Name)) (blocks : List (List (Slot Name))) :
    dirents (b :: blocks) = blockDirents b ++ dirents blocks :=
  List.flatMap_cons

theorem dirents_append (blocks blocks' : List (List (Slot Name))) :
    dirents (blocks ++ blocks') = dirents blocks ++ dirents blocks' :=
  List.flatMap_append

variable {env : DirEnv} {blocks : List (List (Slot Name))} {b b' : List (Slot Name)} {k : Nat}
  {index : Bool}

/-- A block is replaced. -/
theorem exists_set (h : blocks[k]? = some b) :
    ∃ pre post, blocks = pre ++ b :: post ∧ ∀ c, blocks.set k c = pre ++ c :: post := by
  obtain ⟨hk, rfl⟩ := List.getElem?_eq_some_iff.mp h
  refine ⟨blocks.take k, blocks.drop (k + 1), ?_, fun c => ?_⟩
  · rw [← List.drop_eq_getElem_cons hk, List.take_append_drop]
  · rw [List.set_eq_take_append_cons_drop, if_pos hk]

theorem dirents_set {es : List (Name × Nat)} (h : blocks[k]? = some b)
    (hb : (blockDirents b').Perm (es ++ blockDirents b)) :
    (dirents (blocks.set k b')).Perm (es ++ dirents blocks) := by
  obtain ⟨pre, post, rfl, hset⟩ := exists_set h
  rw [hset, dirents_append, dirents_append, dirents_cons, dirents_cons]
  refine ((hb.append_right _).append_left _).trans ?_
  rw [List.append_assoc]
  exact List.perm_append_comm_assoc _ _ _

theorem splitAndAdd_perm (h : blocks[k]? = some b) (hlen : b.length ≤ 2 ^ 16) :
    (dirents (splitAndAdd sb name ino none blocks k b).blocks).Perm
      ((name, ino) :: dirents blocks) := by
  have hsplit := doSplit_perm sb (sb.hash name) hlen
  have hne : ∀ es, packDirents sb (sb.blocksize - sb.csumSize) es ≠ [] := packDirents_ne_nil _
  obtain ⟨pre, post, rfl, hset⟩ := exists_set h
  rw [splitAndAdd]
  dsimp only
  rw [hset, dirents_append, dirents_append, dirents_append, dirents_cons, dirents_cons,
    dirents_cons]
  generalize hb1 : (if (doSplit sb (sb.hash name) b).2.2 = true then (doSplit sb (sb.hash name) b).1
    else addDirentLast sb name ino (doSplit sb (sb.hash name) b).1) = b1
  generalize hb2 : (if (doSplit sb (sb.hash name) b).2.2 = true then
    addDirentLast sb name ino (doSplit sb (sb.hash name) b).2.1
    else (doSplit sb (sb.hash name) b).2.1) = b2
  have hboth : (blockDirents b1 ++ blockDirents b2).Perm ((name, ino) :: blockDirents b) := by
    rw [← hb1, ← hb2]
    split
    · refine ((addDirentLast_perm (hne _)).append_left _).trans ?_
      exact List.perm_middle.trans (hsplit.cons _)
    · refine ((addDirentLast_perm (hne _)).append_right _).trans ?_
      exact hsplit.cons _
  have hmove : (blockDirents b1 ++ (dirents post ++ blockDirents b2)).Perm
      ((name, ino) :: (blockDirents b ++ dirents post)) := by
    refine (List.perm_append_comm.append_left _).trans ?_
    rw [← List.append_assoc]
    exact hboth.append_right _
  rw [show dirents ([] : List (List (Slot Name))) = [] from rfl, List.append_nil, List.append_assoc,
    List.append_assoc]
  exact (hmove.append_left _).trans List.perm_middle

/-- What an insertion comes to. A block has at most `2 ^ 16` bytes, and so
many slots at most. -/
inductive AddSpec (name : Name) (ino : Nat) (blocks : List (List (Slot Name))) (r : Added Name) :
    Prop
  | added (err : r.err = 0) (perm : (∀ b ∈ blocks, b.length ≤ 2 ^ 16) →
      (dirents r.blocks).Perm ((name, ino) :: dirents blocks))
  | failed (err : r.err ≠ 0) (same : dirents r.blocks = dirents blocks)

theorem splitAndAdd_spec (append : Option DirErr) (h : blocks[k]? = some b) :
    AddSpec name ino blocks (splitAndAdd sb name ino append blocks k b) := by
  cases append with
  | some e => exact .failed e.2 rfl
  | none => exact .added rfl fun hlen => splitAndAdd_perm h (hlen b (List.mem_of_getElem? h))

theorem length_extendLast (more : Nat) :
    ∀ b : List (Slot Name), (extendLast more b).length = b.length
  | [] => rfl
  | [_] => rfl
  | s :: s' :: b => by
    rw [extendLast, List.length_cons, length_extendLast, ← List.length_cons]
    exact List.cons_ne_nil s' b

theorem makeIndexedDir_spec : AddSpec name ino [b] (makeIndexedDir sb name ino env index b) := by
  rw [makeIndexedDir]
  dsimp only
  split
  · exact .failed (show EFSCORRUPTED ≠ 0 by decide) rfl
  cases env.append1 with
  | some e => exact .failed e.2 rfl
  | none =>
    dsimp only
    generalize hmoved : extendLast _ (b.dropWhile fun s => s.entry.isNone) = moved
    -- the entries are those of block 0
    have hsame : dirents [[⟨none, sb.blocksize - sb.csumSize - 24⟩], moved] = dirents [b] := by
      rw [← hmoved, dirents_cons, dirents_cons, blockDirents_extendLast, blockDirents_dropWhile,
        dirents_cons]
      rfl
    have hlen : moved.length ≤ b.length := by
      rw [← hmoved, length_extendLast]
      exact (List.dropWhile_sublist _).length_le
    cases @splitAndAdd_spec _ sb name ino _ _ 1 env.append2
        (show [[⟨none, sb.blocksize - sb.csumSize - 24⟩], moved][1]? = some moved from rfl) with
    | added err perm =>
      refine .added err fun hb => ?_
      rw [← hsame]
      refine perm fun c hc => ?_
      rcases List.mem_cons.mp hc with rfl | hc
      · exact Nat.one_le_two_pow
      · rw [List.mem_singleton.mp hc]
        exact Nat.le_trans hlen (hb b (List.mem_singleton_self b))
    | failed err same => exact .failed err (same.trans hsame)

theorem appendAndAdd_spec :
    AddSpec name ino blocks (appendAndAdd sb name ino env index blocks) := by
  rw [appendAndAdd]
  cases env.append1 with
  | some e => exact .failed e.2 rfl
  | none =>
    refine .added rfl fun _ => ?_
    rw [dirents_append]
    exact List.perm_append_comm

theorem addToFull_spec (mayIndex : Bool) :
    AddSpec name ino blocks (addToFull sb name ino env index mayIndex blocks) := by
  unfold addToFull
  split
  · exact makeIndexedDir_spec
  · exact appendAndAdd_spec

variable [DecidableEq Name]

theorem addDirentToBuf_perm {offset : Nat} (h : addDirentToBuf sb name ino offset b = .ok b') :
    (blockDirents b').Perm ((name, ino) :: blockDirents b) := by
  induction b generalizing offset b' with
  | nil => cases h
  | cons s b ih =>
    rw [addDirentToBuf] at h
    split at h
    · cases h
    split at h
    · cases h
    split at h
    · obtain rfl := Except.ok.inj h
      rw [blockDirents_append, blockDirents_insert, blockDirents_cons, List.append_assoc]
      exact List.perm_middle
    · cases hrest : addDirentToBuf sb name ino (offset + s.recLen) b with
      | error e =>
        rw [hrest] at h
        cases h
      | ok l =>
        rw [hrest] at h
        obtain rfl := Except.ok.inj h
        rw [blockDirents_cons, blockDirents_cons]
        exact ((ih hrest).append_left _).trans List.perm_middle

theorem ext4DxAddEntry_spec {r : Added Name} (h : ext4DxAddEntry sb name ino env blocks = some r) :
    AddSpec name ino blocks r := by
  rw [ext4DxAddEntry] at h
  split at h
  · cases h
  · rename_i e _
    obtain rfl := Option.some.inj h
    exact .failed e.2 rfl
  · split at h
    · rename_i e _
      obtain rfl := Option.some.inj h
      exact .failed e.2 rfl
    · obtain rfl := Option.some.inj h
      exact .failed (show EFSCORRUPTED ≠ 0 by decide) rfl
    · rename_i b _ hb
      split at h
      · rename_i b' hadd
        obtain rfl := Option.some.inj h
        exact .added rfl fun _ => @dirents_set _ _ _ _ _ [(name, ino)] hb (addDirentToBuf_perm hadd)
      · obtain rfl := Option.some.inj h
        exact .failed (show EEXIST ≠ 0 by decide) rfl
      · split at h
        · rename_i e _
          obtain rfl := Option.some.inj h
          exact .failed e.2 rfl
        · obtain rfl := Option.some.inj h
          exact splitAndAdd_spec _ hb

theorem tryBlocks_perm {blocks' : List (List (Slot Name))}
    (h : tryBlocks sb name ino env k blocks = .ok (some blocks')) :
    (dirents blocks').Perm ((name, ino) :: dirents blocks) := by
  induction blocks generalizing k blocks' with
  | nil => cases h
  | cons b l ih =>
    rw [tryBlocks] at h
    split at h
    · cases h
    split at h
    · rename_i b' hadd
      obtain rfl := Option.some.inj (Except.ok.inj h)
      rw [dirents_cons, dirents_cons]
      exact (addDirentToBuf_perm hadd).append_right _
    · cases h
    · cases hrest : tryBlocks sb name ino env (k + 1) l with
      | error e =>
        rw [hrest] at h
        cases h
      | ok r =>
        rw [hrest] at h
        obtain ⟨l', rfl, rfl⟩ := Option.map_eq_some_iff.mp (Except.ok.inj h)
        rw [dirents_cons, dirents_cons]
        exact ((ih hrest).append_left _).trans List.perm_middle

theorem tryBlocks_error {e : Int} (h : tryBlocks sb name ino env k blocks = .error e) :
    e ≠ 0 := by
  induction blocks generalizing k with
  | nil => cases h
  | cons b l ih =>
    rw [tryBlocks] at h
    split at h
    · rename_i e' _
      obtain rfl := Except.error.inj h
      exact e'.2
    split at h
    · cases h
    · obtain rfl := Except.error.inj h
      decide
    · cases hrest : tryBlocks sb name ino env (k + 1) l with
      | error e' =>
        rw [hrest] at h
        obtain rfl := Except.error.inj h
        exact ih hrest
      | ok r =>
        rw [hrest] at h
        cases h

theorem addLinear_spec (fallback : Bool) :
    AddSpec name ino blocks (addLinear sb name ino env index fallback blocks) := by
  unfold addLinear
  split
  · rename_i e he
    exact .failed (tryBlocks_error he) rfl
  · rename_i blocks' hadd
    exact .added rfl fun _ => tryBlocks_perm hadd
  · exact addToFull_spec _

/-- **`ext4_add_entry`** adds the entry, or fails and keeps the entries of the
directory. -/
theorem addEntryToBlocks_spec :
    AddSpec name ino blocks (addEntryToBlocks sb name ino env index blocks) := by
  rw [addEntryToBlocks]
  split
  · exact .failed (show EINVAL ≠ 0 by decide) rfl
  cases env.setup with
  | some e => exact .failed e.2 rfl
  | none =>
    dsimp only
    split
    · cases hdx : ext4DxAddEntry sb name ino env blocks with
      | some r => exact ext4DxAddEntry_spec hdx
      | none => exact addLinear_spec true
    · exact addLinear_spec false

/-! ### What decides about an error -/

/-- What an insertion reads of a slot: not the number of the inode. -/
def Slot.shape (s : Slot Name) : Option Name × Nat := (s.entry.map Prod.fst, s.recLen)

/-- The shapes of all slots. -/
def shapes (blocks : List (List (Slot Name))) : List (List (Option Name × Nat)) :=
  blocks.map (·.map Slot.shape)

theorem addDirentToBuf_shape (offset : Nat) (h : b.map Slot.shape = b'.map Slot.shape) :
    (∃ x y, addDirentToBuf sb name ino offset b = .ok x
        ∧ addDirentToBuf sb name ino offset b' = .ok y)
      ∨ ∃ e, addDirentToBuf sb name ino offset b = .error e
        ∧ addDirentToBuf sb name ino offset b' = .error e := by
  induction b generalizing offset b' with
  | nil =>
    rw [List.map_eq_nil_iff.mp h.symm]
    exact .inr ⟨_, rfl, rfl⟩
  | cons s b ih =>
    obtain ⟨s', l', rfl, hs, hl⟩ := List.map_eq_cons_iff.mp h.symm
    have hentry : s.entry.map Prod.fst = s'.entry.map Prod.fst := congrArg Prod.fst hs.symm
    have hlen : s.recLen = s'.recLen := congrArg Prod.snd hs.symm
    rw [addDirentToBuf, addDirentToBuf, Slot.used, Slot.used, hentry, hlen]
    split
    · exact .inr ⟨_, rfl, rfl⟩
    split
    · exact .inr ⟨_, rfl, rfl⟩
    split
    · exact .inl ⟨_, _, rfl, rfl⟩
    · obtain ⟨x, y, hx, hy⟩ | ⟨e, hx, hy⟩ := ih (offset + s'.recLen) hl.symm
      · rw [hx, hy]
        exact .inl ⟨_, _, rfl, rfl⟩
      · rw [hx, hy]
        exact .inr ⟨_, rfl, rfl⟩

omit [DecidableEq Name] in
theorem forget_cons (b : List (Slot Name)) (x : Except Int (Option (List (List (Slot Name))))) :
    (x.map fun r => r.map (b :: ·)).map (fun r => r.map fun _ => ())
      = x.map fun r => r.map fun _ => () := by
  cases x with
  | error e => rfl
  | ok r => cases r <;> rfl

omit [DecidableEq Name] in
theorem splitAndAdd_err (append : Option DirErr) (k : Nat) :
    (splitAndAdd sb name ino append blocks k b).err = append.elim 0 Subtype.val := by
  cases append <;> rfl

omit [DecidableEq Name] in
theorem appendAndAdd_err :
    (appendAndAdd sb name ino env index blocks).err = env.append1.elim 0 Subtype.val := by
  rw [appendAndAdd]
  cases env.append1 <;> rfl

omit [DecidableEq Name] in
theorem makeIndexedDir_err (h : b.map Slot.shape = b'.map Slot.shape) :
    (makeIndexedDir sb name ino env index b).err
      = (makeIndexedDir sb name ino env index b').err := by
  have hdrop : ∀ c : List (Slot Name), (c.dropWhile fun s => s.entry.isNone) = []
      ↔ (c.map Slot.shape).dropWhile (fun x => x.1.isNone) = [] := by
    intro c
    rw [List.dropWhile_map, List.map_eq_nil_iff]
    have hp : (fun x : Option Name × Nat => x.1.isNone) ∘ Slot.shape = fun s => s.entry.isNone := by
      funext s
      exact Option.isNone_map
    rw [hp]
  rw [makeIndexedDir, makeIndexedDir]
  dsimp only
  by_cases hnil : (b.map Slot.shape).dropWhile (fun x => x.1.isNone) = []
  · rw [if_pos ((hdrop b).mpr hnil), if_pos ((hdrop b').mpr (h ▸ hnil))]
  · rw [if_neg (mt (hdrop b).mp hnil), if_neg (mt (hdrop b').mp (h ▸ hnil))]
    cases env.append1 with
    | some e => rfl
    | none => exact (splitAndAdd_err _ _).trans (splitAndAdd_err _ _).symm

section

variable {blocks' : List (List (Slot Name))} (h : shapes blocks = shapes blocks')

include h

theorem tryBlocks_shape (k : Nat) :
    (tryBlocks sb name ino env k blocks).map (fun r => r.map fun _ => ())
      = (tryBlocks sb name ino env k blocks').map fun r => r.map fun _ => () := by
  induction blocks generalizing blocks' k with
  | nil =>
    rw [List.map_eq_nil_iff.mp h.symm]
  | cons b l ih =>
    obtain ⟨b', l', rfl, hb, hl⟩ := List.map_eq_cons_iff.mp h.symm
    rw [tryBlocks, tryBlocks]
    split
    · rfl
    obtain ⟨x, y, hx, hy⟩ | ⟨e, hx, hy⟩ :=
      addDirentToBuf_shape (if k = 0 then 24 else 0) hb.symm
    · rw [hx, hy]
      rfl
    · rw [hx, hy]
      cases e with
      | eexist => rfl
      | enospc =>
        dsimp only
        rw [forget_cons, forget_cons]
        exact ih hl.symm (k + 1)

omit [DecidableEq Name] in
theorem addToFull_err (mayIndex : Bool) :
    (addToFull sb name ino env index mayIndex blocks).err
      = (addToFull sb name ino env index mayIndex blocks').err := by
  cases mayIndex with
  | false =>
    have hfull : ∀ l, addToFull sb name ino env index false l
        = appendAndAdd sb name ino env index l := by
      intro l
      unfold addToFull
      split
      · rename_i hfalse
        cases hfalse
      · rfl
    rw [hfull, hfull, appendAndAdd_err, appendAndAdd_err]
  | true =>
    cases blocks with
    | nil =>
      rw [List.map_eq_nil_iff.mp h.symm]
    | cons b l =>
      obtain ⟨b', l', rfl, hb, hl⟩ := List.map_eq_cons_iff.mp h.symm
      cases l with
      | nil =>
        rw [List.map_eq_nil_iff.mp hl]
        exact makeIndexedDir_err hb.symm
      | cons c l =>
        obtain ⟨c', l', rfl, -, -⟩ := List.map_eq_cons_iff.mp hl
        exact appendAndAdd_err.trans appendAndAdd_err.symm

theorem addLinear_err (fallback : Bool) :
    (addLinear sb name ino env index fallback blocks).err
      = (addLinear sb name ino env index fallback blocks').err := by
  have htry := @tryBlocks_shape _ sb name ino env _ _ _ h 0
  unfold addLinear
  generalize tryBlocks sb name ino env 0 blocks = x at htry ⊢
  generalize tryBlocks sb name ino env 0 blocks' = y at htry ⊢
  cases x with
  | error e =>
    cases y with
    | error e' => exact Except.error.inj htry
    | ok r => cases htry
  | ok r =>
    cases y with
    | error e' => cases htry
    | ok r' =>
      have hr : r.map (fun _ => ()) = r'.map fun _ => () := Except.ok.inj htry
      cases r with
      | some l =>
        cases r' with
        | some l' => rfl
        | none => cases hr
      | none =>
        cases r' with
        | some l' => cases hr
        | none => exact addToFull_err h _

theorem ext4DxAddEntry_err :
    (ext4DxAddEntry sb name ino env blocks).map Added.err
      = (ext4DxAddEntry sb name ino env blocks').map Added.err := by
  unfold ext4DxAddEntry
  cases env.probe with
  | error e => cases e <;> rfl
  | ok k =>
    dsimp only
    cases env.read k with
    | some e => rfl
    | none =>
      have hk : blocks[k]?.map (·.map Slot.shape) = blocks'[k]?.map (·.map Slot.shape) := by
        rw [← List.getElem?_map, ← List.getElem?_map]
        exact congrArg (·[k]?) h
      cases hb : blocks[k]? with
      | none =>
        rw [hb] at hk
        rw [Option.map_eq_none_iff.mp hk.symm]
        rfl
      | some b =>
        rw [hb] at hk
        obtain ⟨b', hb', hshape⟩ := Option.map_eq_some_iff.mp hk.symm
        rw [hb']
        dsimp only
        obtain ⟨x, y, hx, hy⟩ | ⟨e, hx, hy⟩ := addDirentToBuf_shape 0 hshape.symm
        · rw [hx, hy]
          rfl
        · rw [hx, hy]
          cases e with
          | eexist => rfl
          | enospc =>
            cases env.splitIndex with
            | some e => rfl
            | none =>
              exact congrArg some ((splitAndAdd_err _ _).trans (splitAndAdd_err _ _).symm)

/-- Whether the entry can be added does not depend on the inodes the other
names stand for. -/
theorem addEntryToBlocks_err :
    (addEntryToBlocks sb name ino env index blocks).err
      = (addEntryToBlocks sb name ino env index blocks').err := by
  have hdx := @ext4DxAddEntry_err _ sb name ino env _ _ _ h
  rw [addEntryToBlocks, addEntryToBlocks]
  split
  · rfl
  cases env.setup with
  | some e => rfl
  | none =>
    dsimp only
    split
    · cases hx : ext4DxAddEntry sb name ino env blocks with
      | none =>
        rw [hx] at hdx
        rw [Option.map_eq_none_iff.mp hdx.symm]
        exact addLinear_err h true
      | some r =>
        rw [hx] at hdx
        obtain ⟨r', hr', herr⟩ := Option.map_eq_some_iff.mp hdx.symm
        rw [hr']
        exact herr.symm
    · exact addLinear_err h false

end

end Spec

end Ext4.Namei
