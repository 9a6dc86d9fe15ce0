import Ext4.Extents.Lookup
import Ext4.ExtentsStatus.Tree

/-!
# Extent trees — splitting an extent

`ext4_split_extent_at` (extents.c) shortens an extent, inserts the rest of it
as an extent of its own and, if there is no room for that, either writes
zeroes or puts the old length back.
-/

namespace Ext4.Extents

open IndexTree
open Ext4.ExtentsStatus (extMaxBlocks RbShape Ext4SbInfo ext4EsInsertExtent)

/-! ## The model -/

/-- The extent status tree of an inode at a call: its shape, the outcome of
allocations of nodes, and the trees of the file system. -/
structure StatusEnv where
  rb : RbShape
  allocs : List Bool
  inode : Nat
  sb : Ext4SbInfo

/-- An error of the extent status tree among the others. -/
def ofEsErrno : ExtentsStatus.Errno → Errno
  | .enomem => .enomem
  | .einval => .einval

/-- `ext4_zeroout_es`: the blocks of the extent are written from now on. -/
def ext4ZerooutEs (es : StatusEnv) (ex : Extent) : Option Errno × StatusEnv :=
  if ext4ExtGetActualLen ex = 0 then (none, es)
  else
    match ext4EsInsertExtent es.rb es.allocs es.sb es.inode (BitVec.ofNat 32 ex.eeBlock)
        (BitVec.ofNat 32 (ext4ExtGetActualLen ex)) (BitVec.ofNat 64 ex.eeStart) 1#32 with
    | none => (some .bug, es)
    | some (err, sb) => (err.map ofEsErrno, { es with sb := sb })

/-- The extent status tree after `ext4_zeroout_es` for each of the extents. -/
def StatusEnv.record (es : StatusEnv) (zs : List Extent) : StatusEnv :=
  zs.foldl (fun es z => (ext4ZerooutEs es z).2) es

/-- The flags `EXT4_EXT_MAY_ZEROOUT`, `EXT4_EXT_MARK_UNWRIT1`,
`EXT4_EXT_MARK_UNWRIT2`, `EXT4_EXT_DATA_VALID1` and `EXT4_EXT_DATA_VALID2`. -/
structure SplitFlags where
  mayZeroout : Bool
  markUnwrit1 : Bool
  markUnwrit2 : Bool
  dataValid1 : Bool
  dataValid2 : Bool
deriving DecidableEq, Repr

/-- What the surroundings decide for a split: the results of
`ext4_ext_get_access`, of `ext4_ext_dirty` before the insertion and after the
zeroing and of `ext4_issue_zeroout`, and the extent status tree. -/
structure SplitEnv extends InsertEnv where
  access : Option Errno
  dirty : Option Errno
  zeroout : Option Errno
  dirtyZeroed : Option Errno
  es : StatusEnv

/-- What a split leaves behind: as for an insertion, and the extent that was
zeroed on disk and the one passed to `ext4_zeroout_es`. -/
structure SplitDone extends Inserted where
  zeroed : Option Extent
  recorded : Option Extent

/-- The extent of the path replaced in its slot. -/
def setExt (d : Nat) (p : Path Extent d) (ex : Extent) : Path Extent d :=
  setLeaf d p ⟨(leaf d p).before, ex :: (leaf d p).after.tail⟩

/-- `ext4_ext_try_to_merge` for the extent of a path: the tree, with the slot
of the path as it was, and the block that became free. -/
def tryToMergeAt (env : InsertEnv) (d : Nat) (p : Path Extent d) : ExtPath × List Nat :=
  let k := (leaf d p).before.length
  let merged := ext4ExtTryToMerge env.ioUnwritten (leaf d p).toList k
  let q := setLeaf d p ⟨merged.take k, merged.drop k⟩
  match ext4ExtTryToMergeUp env.extendOk d q with
  | some (c, blk) => (⟨0, c⟩, [blk])
  | none => (⟨d, q⟩, [])

/-- The label `fix_extent_len`, for a leaf that still has the extent in the
slot of the path. -/
def fixExtentLen (p : ExtPath) (orig : Extent) : ExtPath :=
  match (leaf p.depth p.path).after with
  | [] => p
  | ex :: _ => ⟨p.depth, setExt p.depth p.path { ex with eeLen := orig.eeLen }⟩

/-- The half of `ex` in front of `split`. -/
def Extent.front (ex : Extent) (split : Nat) (unwritten : Bool) : Extent :=
  ex.withLen (split - ex.eeBlock) unwritten

/-- The half of `ex` from `split` on. -/
def Extent.back (ex : Extent) (split : Nat) (unwritten : Bool) : Extent :=
  Extent.withLen ⟨split, 0, split - ex.eeBlock + ex.eeStart⟩
    (ext4ExtGetActualLen ex - (split - ex.eeBlock)) unwritten

section Split

variable (env : SplitEnv) (flags : SplitFlags) (preIo : Bool)

/-- What `ext4_split_extent_at` zeroes: one half or both. -/
def SplitFlags.zeroEx (ex front back : Extent) : Extent :=
  if flags.dataValid1 then back else if flags.dataValid2 then front else ex

/-- The part of `ext4_split_extent_at` behind an insertion that found no
space: the data of one half or of both is zeroed on disk, and the extent gets
its length back as an initialized one. -/
def zerooutInstead (ex : Extent) (front back : Extent) (r : Inserted) : SplitDone :=
  let zeroEx := flags.zeroEx ex front back
  match env.zeroout with
  | some e => ⟨⟨some e, fixExtentLen r.path ex, r.freed⟩, none, none⟩
  | none =>
      let whole := { front with eeLen := ext4ExtGetActualLen ex }
      let m := tryToMergeAt env.toInsertEnv r.path.depth (setExt r.path.depth r.path.path whole)
      match env.dirtyZeroed with
      | some e =>
          -- a leaf merged into the root is out of reach of the old pointer
          let q := if m.2 = [] then fixExtentLen m.1 ex else m.1
          ⟨⟨some e, q, r.freed ++ m.2⟩, some zeroEx, none⟩
      | none =>
          ⟨⟨(ext4ZerooutEs env.es zeroEx).1, m.1, r.freed ++ m.2⟩, some zeroEx, some zeroEx⟩

/-- Where `ext4_split_extent_at` finds its extent after an insertion that
failed: in the slot of the path, or, if the tree was being changed, by the
block it begins at. -/
def callersPath (block : Nat) (q : ExtPath) : ExtPath :=
  if env.early then q
  else
    match ext4FindExtent q.tree block with
    | .ok r => r
    | .error _ => q

/-- `ext4_split_extent_at`. -/
def ext4SplitExtentAt (split : Nat) (p : ExtPath) : SplitDone :=
  match (leaf p.depth p.path).after with
  | [] => ⟨⟨some .bug, p, []⟩, none, none⟩
  | ex :: _ =>
      if (flags.dataValid1 && flags.dataValid2) = true ∨ split < ex.eeBlock ∨ ex.eeEnd ≤ split then
        ⟨⟨some .bug, p, []⟩, none, none⟩
      else if ext4ExtIsUnwritten ex = false
          ∧ (flags.mayZeroout || flags.markUnwrit1 || flags.markUnwrit2) = true then
        ⟨⟨some .bug, p, []⟩, none, none⟩
      else
        match env.access with
        | some e => ⟨⟨some e, p, []⟩, none, none⟩
        | none =>
            if split = ex.eeBlock then
              -- case b: only the state changes
              let ex' := if flags.markUnwrit2 then ext4ExtMarkUnwritten ex
                else ext4ExtMarkInitialized ex
              let q := setExt p.depth p.path ex'
              let m := if preIo then (⟨p.depth, q⟩, []) else tryToMergeAt env.toInsertEnv p.depth q
              ⟨⟨env.dirty, m.1, m.2⟩, none, none⟩
            else
              match env.dirty with
              | some e => ⟨⟨some e, p, []⟩, none, none⟩
              | none =>
                  let front := ex.front split flags.markUnwrit1
                  let back := ex.back split flags.markUnwrit2
                  let r := ext4ExtInsertExtent env.toInsertEnv preIo back
                    ⟨p.depth, setExt p.depth p.path front⟩
                  match r.err with
                  | none => ⟨r, none, none⟩
                  | some e =>
                      if e = .enospc ∧ flags.mayZeroout = true then
                        zerooutInstead env flags ex front back r
                      else
                        ⟨⟨some e, fixExtentLen (callersPath env ex.eeBlock r.path) ex, r.freed⟩,
                          none, none⟩

end Split

/-! ## Edits of the extent of a path -/

variable {q : ExtPath} {ex' : Extent}

section Edits

variable {blocksize d : Nat} {p : Path Extent d}

theorem ExtTree.Ok.setLeaf (ht : ExtTree.Ok blocksize ⟨d, close d p⟩) {c : Cut Extent}
    (hne : c.toList ≠ [])
    (hfirst : c.toList.head?.map Extent.eeBlock = (leaf d p).toList.head?.map Extent.eeBlock)
    (hlen : c.toList.length ≤ (leaf d p).toList.length)
    (hes : ExtentsOk (left d p ++ c.toList ++ right d p)) :
    ExtTree.Ok blocksize ⟨d, close d (setLeaf d p c)⟩ := by
  have hok := (ht.ready.setLeaf c).ok (fun _ => by rwa [leaf_setLeaf])
    (by rw [leaf_setLeaf]; exact Nat.le_trans hlen ht.leaf_le)
    (by rw [leaf_setLeaf, left_setLeaf, right_setLeaf]; exact hes)
  have hspine := ht.keyed.spine.setLeaf c
  rw [← hfirst] at hspine
  rwa [rekey_of_spine (by rwa [leaf_setLeaf]) (by rwa [leaf_setLeaf])] at hok

theorem flat_setLeaf (c : Cut Extent) :
    flat d (close d (setLeaf d p c)) = left d p ++ c.toList ++ right d p := by
  rw [flat_close, leaf_setLeaf, left_setLeaf, right_setLeaf]

variable {ex : Extent} {rest : List Extent}

theorem flat_setExt (hafter : (leaf d p).after = ex :: rest) (ex' : Extent) :
    flat d (close d (setExt d p ex'))
      = (left d p ++ (leaf d p).before) ++ ex' :: (rest ++ right d p) := by
  rw [setExt, flat_setLeaf, Cut.toList, hafter]
  simp

@[simp] theorem leaf_setExt (ex' : Extent) :
    leaf d (setExt d p ex') = ⟨(leaf d p).before, ex' :: (leaf d p).after.tail⟩ :=
  leaf_setLeaf d p _

section

variable (ht : ExtTree.Ok blocksize ⟨d, close d p⟩) (hafter : (leaf d p).after = ex :: rest)

include ht hafter

theorem ExtTree.Ok.around :
    ExtentsOk ((left d p ++ (leaf d p).before) ++ ex :: (rest ++ right d p)) :=
  flat_of_after hafter ▸ ht.extentsOk

/-- The extent of the path may be replaced by one that begins at the same
block. -/
theorem ExtTree.Ok.setExt (hblock : ex'.eeBlock = ex.eeBlock)
    (hes : ExtentsOk ((left d p ++ (leaf d p).before) ++ ex' :: (rest ++ right d p))) :
    ExtTree.Ok blocksize ⟨d, close d (setExt d p ex')⟩ := by
  refine ht.setLeaf (by simp [Cut.toList]) ?_ ?_ ?_
  · simp only [Cut.toList, hafter, List.tail_cons]
    cases (leaf d p).before with
    | nil => exact congrArg some hblock
    | cons e b => rfl
  · simp only [Cut.toList, hafter, List.tail_cons, List.length_append, List.length_cons,
      Nat.le_refl]
  · simpa only [Cut.toList, hafter, List.tail_cons, List.append_assoc, List.cons_append] using hes

end

theorem tryToMergeAt_spec (env : InsertEnv) (ht : ExtTree.Ok blocksize ⟨d, close d p⟩)
    (hne : (leaf d p).toList ≠ []) :
    (tryToMergeAt env d p).1.tree.Ok blocksize
      ∧ Merges (flat d (close d p)) (tryToMergeAt env d p).1.tree.extents
      ∧ (tryToMergeAt env d p).1.depth ≤ d := by
  have hm := merges_tryToMerge env.ioUnwritten (leaf d p).toList (leaf d p).before.length
  rw [tryToMergeAt]
  generalize ext4ExtTryToMerge env.ioUnwritten (leaf d p).toList (leaf d p).before.length
    = merged at hm
  generalize (leaf d p).before.length = k
  have hm' : Merges (flat d (close d p)) (left d p ++ merged ++ right d p) := by
    rw [flat_close]
    exact hm.inside _ _
  have hes := hm'.extentsOk ht.extentsOk
  cases hup : ext4ExtTryToMergeUp env.extendOk d (setLeaf d p ⟨merged.take k, merged.drop k⟩) with
  | some found =>
    obtain ⟨c, blk⟩ := found
    obtain ⟨hc, hleft, hright, hroot⟩ := tryToMergeUp_spec hup
    rw [left_setLeaf] at hleft
    rw [right_setLeaf] at hright
    rw [leaf_setLeaf] at hc
    have hcl : c.toList = left d p ++ merged ++ right d p := by
      rw [hc, cut_toList, hleft, hright, List.append_nil, List.nil_append]
    rw [← hcl] at hm' hes
    exact ⟨⟨trivial, hroot, hes.ok, hes.separated⟩, hm', Nat.zero_le d⟩
  | none =>
    have hok := ht.setLeaf (c := ⟨merged.take k, merged.drop k⟩)
      (by rw [cut_toList]; exact hm.ne_nil hne) (by rw [cut_toList]; exact hm.first)
      (by rw [cut_toList]; exact hm.length_le) (by rw [cut_toList]; exact hes)
    refine ⟨hok, ?_, Nat.le_refl d⟩
    show Merges _ (flat d (close d (setLeaf d p ⟨merged.take k, merged.drop k⟩)))
    rw [flat_setLeaf, cut_toList]
    exact hm'

end Edits

/-! ## The two halves -/

section Halves

variable {ex : Extent} {split : Nat}

attribute [ext] Extent

theorem eeLen_eq (ex : Extent) :
    ex.eeLen = if ext4ExtIsUnwritten ex then ext4ExtGetActualLen ex + extInitMaxLen
      else ext4ExtGetActualLen ex := by
  rw [ext4ExtIsUnwritten, ext4ExtGetActualLen]
  by_cases h : ex.eeLen ≤ extInitMaxLen
  · rw [if_pos h, decide_eq_false (Nat.not_lt.mpr h)]
    rfl
  · rw [if_neg h, decide_eq_true (Nat.lt_of_not_le h), if_pos rfl]
    omega

/-- Two extents over the blocks of one, whatever their states are. -/
structure Pieces (ex front back : Extent) (split : Nat) : Prop where
  front_ok : front.Ok
  back_ok : back.Ok
  front_block : front.eeBlock = ex.eeBlock
  front_end : front.eeEnd = split
  front_start : front.eeStart = ex.eeStart
  back_block : back.eeBlock = split
  back_end : back.eeEnd = ex.eeEnd
  back_start : back.eeStart = ex.eeStart + (split - ex.eeBlock)

theorem pieces (h : ex.Ok) (hlt : ex.eeBlock < split) (hend : split < ex.eeEnd) {u1 u2 : Bool}
    (hu : ext4ExtIsUnwritten ex = false → (u1 || u2) = false) :
    Pieces ex (ex.front split u1) (ex.back split u2) split
      ∧ ext4ExtIsUnwritten (ex.front split u1) = u1
      ∧ ext4ExtIsUnwritten (ex.back split u2) = u2 := by
  have hmax := actualLen_le_maxLen h
  have hle := h.end_le
  rw [Extent.eeEnd] at hend hle
  -- a piece of an unwritten extent may have either state
  have hfits : ∀ len u, len ≤ ext4ExtGetActualLen ex → (ext4ExtIsUnwritten ex = false → u = false) →
      len ≤ maxLen u := by
    intro len u hlen hstate
    cases hex : ext4ExtIsUnwritten ex with
    | false =>
      rw [hstate hex]
      rw [hex] at hmax
      exact Nat.le_trans hlen hmax
    | true =>
      rw [hex] at hmax
      have : maxLen true ≤ maxLen u := by cases u <;> decide
      omega
  have hpos1 : 0 < split - ex.eeBlock := by omega
  have hpos2 : 0 < ext4ExtGetActualLen ex - (split - ex.eeBlock) := by omega
  have hmax1 := hfits (split - ex.eeBlock) u1 (by omega) fun h0 =>
    (Bool.or_eq_false_iff.mp (hu h0)).1
  have hmax2 := hfits (ext4ExtGetActualLen ex - (split - ex.eeBlock)) u2 (by omega)
    fun h0 => (Bool.or_eq_false_iff.mp (hu h0)).2
  refine ⟨⟨withLen_ok hpos1 hmax1 (by omega), withLen_ok hpos2 hmax2 ?_, withLen_eeBlock _ _ _, ?_,
    withLen_eeStart _ _ _, withLen_eeBlock _ _ _, ?_, ?_⟩, withLen_unwritten hpos1 hmax1,
    withLen_unwritten hpos2 hmax2⟩
  · show split + _ ≤ _
    omega
  · rw [Extent.front, withLen_eeEnd hpos1 hmax1]
    omega
  · rw [Extent.back, withLen_eeEnd hpos2 hmax2, Extent.eeEnd]
    dsimp only
    omega
  · rw [Extent.back, withLen_eeStart, Nat.add_comm]

variable {front back : Extent} {A B : List Extent}

section

variable (h : Pieces ex front back split)

include h

theorem Pieces.actualLen :
    ext4ExtGetActualLen front = split - ex.eeBlock
      ∧ ext4ExtGetActualLen back = ex.eeEnd - split := by
  have h1 := h.front_end
  have h2 := h.back_end
  rw [Extent.eeEnd, h.front_block] at h1
  rw [Extent.eeEnd, h.back_block] at h2
  omega

theorem Pieces.split_lt : ex.eeBlock < split ∧ split < ex.eeEnd := by
  have h1 := eeBlock_lt_eeEnd h.front_ok
  have h2 := eeBlock_lt_eeEnd h.back_ok
  rw [h.front_block, h.front_end] at h1
  rw [h.back_block, h.back_end] at h2
  exact ⟨h1, h2⟩

end

section

variable (hes : ExtentsOk (A ++ ex :: B))

include hes

/-- An extent may be replaced by one that begins with it and ends no later. -/
theorem ExtentsOk.replace (hok : ex'.Ok) (hblock : ex'.eeBlock = ex.eeBlock)
    (hend : ex'.eeEnd ≤ ex.eeEnd) : ExtentsOk (A ++ ex' :: B) := by
  obtain ⟨h1, h2, h3⟩ := List.pairwise_append.mp hes.separated
  have hoks := hes.ok
  rw [List.forall_mem_append, List.forall_mem_cons] at hoks
  refine ⟨List.forall_mem_append.mpr ⟨hoks.1, List.forall_mem_cons.mpr ⟨hok, hoks.2.2⟩⟩,
    List.pairwise_append.mpr ⟨h1, List.pairwise_cons.mpr
      ⟨fun e he => ?_, (List.pairwise_cons.mp h2).2⟩, fun x hx => ?_⟩⟩
  · exact Nat.le_trans hend ((List.pairwise_cons.mp h2).1 e he)
  · have hx := List.forall_mem_cons.mp (h3 x hx)
    exact List.forall_mem_cons.mpr ⟨Nat.le_trans hx.1 (Nat.le_of_eq hblock.symm), hx.2⟩

theorem mapping_replace (hblock : ex'.eeBlock = ex.eeBlock) (hend : ex'.eeEnd = ex.eeEnd)
    (x : Nat) :
    mapping (A ++ ex' :: B) x = if ex.eeBlock ≤ x ∧ x < ex.eeEnd
      then some (ex'.eeStart + (x - ex.eeBlock), ext4ExtIsUnwritten ex')
      else mapping (A ++ ex :: B) x := by
  rw [mapping, mapping, blockView.get_append, blockView.get_append, blockView.get_cons,
    blockView.get_cons]
  have hcov : blockView.Covers ex' x ↔ ex.eeBlock ≤ x ∧ x < ex.eeEnd := by
    rw [← hblock, ← hend]
    exact Iff.rfl
  by_cases hc : ex.eeBlock ≤ x ∧ x < ex.eeEnd
  · have hA : blockView.get A x = none := blockView.get_eq_none_of_ge fun e he =>
      Nat.le_trans ((List.pairwise_append.mp hes.separated).2.2 e he ex (by simp)) hc.1
    rw [if_pos hc, if_pos (hcov.mpr hc), hA]
    show some (ex'.eeStart + (x - ex'.eeBlock), _) = _
    rw [hblock]
  · rw [if_neg hc, if_neg fun h => hc (hcov.mp h), if_neg fun h : blockView.Covers ex x => hc h]

section

variable (h : Pieces ex front back split)

include h

theorem Pieces.shorten : ExtentsOk (A ++ front :: B) :=
  hes.replace h.front_ok h.front_block (by rw [h.front_end]; exact Nat.le_of_lt h.split_lt.2)

theorem Pieces.gap : Gap back (A ++ [front]) B := by
  have h1 := h.split_lt.1
  obtain ⟨-, h4, h5⟩ := List.pairwise_append.mp hes.separated
  refine ⟨fun e he => ?_, fun e he => ?_⟩
  · rw [h.back_block]
    rcases List.mem_append.mp he with he | he
    · have h6 : e.eeEnd ≤ ex.eeBlock := h5 e he ex (by simp)
      omega
    · rw [List.mem_singleton.mp he, h.front_end]
  · rw [h.back_end]
    exact (List.pairwise_cons.mp h4).1 e he

end

end

end Halves

/-! ## The insertion of the second piece -/

section Pieces

variable {A B : List Extent} {d : Nat} {p : Path Extent d} {ex : Extent} {rest : List Extent}
  {split : Nat} {back front : Extent} {blocksize : Nat}

/-- The extent of a path replaced, in a tree whose extents are known. -/
theorem setExt_spec {x y : Extent} (hq : q.tree.Ok blocksize) (hext : q.tree.extents = A ++ x :: B)
    (hafter : (leaf q.depth q.path).after = x :: rest) (hblock : y.eeBlock = x.eeBlock)
    (hes : ExtentsOk (A ++ y :: B)) :
    (ExtPath.tree ⟨q.depth, setExt q.depth q.path y⟩).Ok blocksize
      ∧ (ExtPath.tree ⟨q.depth, setExt q.depth q.path y⟩).extents = A ++ y :: B := by
  have hflat : A ++ x :: B = (left q.depth q.path ++ (leaf q.depth q.path).before)
      ++ x :: (rest ++ right q.depth q.path) := by
    rw [← hext]
    exact flat_of_after hafter
  have hsorted : (A ++ x :: B).Pairwise fun y z => y.eeBlock < z.eeBlock := by
    rw [← hext]
    exact hq.sorted
  obtain ⟨hA, hB⟩ := append_cons_unique hsorted hflat
  refine ⟨ExtTree.Ok.setExt hq hafter hblock ?_, ?_⟩
  · rw [← hA, ← hB]
    exact hes
  · rw [hA, hB]
    exact flat_setExt hafter y

theorem fixExtentLen_spec (hq : q.tree.Ok blocksize) (hext : q.tree.extents = A ++ front :: B)
    {rest : List Extent} (hafter : (leaf q.depth q.path).after = front :: rest)
    (hblock : front.eeBlock = ex.eeBlock) (hstart : front.eeStart = ex.eeStart)
    (hes : ExtentsOk (A ++ ex :: B)) :
    (fixExtentLen q ex).tree.Ok blocksize ∧ (fixExtentLen q ex).tree.extents = A ++ ex :: B := by
  have hset : fixExtentLen q ex = ⟨q.depth, setExt q.depth q.path ex⟩ := by
    rw [fixExtentLen, hafter]
    dsimp only
    rw [Extent.ext (x := { front with eeLen := ex.eeLen }) (y := ex) hblock rfl hstart]
  rw [hset]
  exact setExt_spec hq hext hafter hblock.symm hes

/-- The insertion of the second piece, with the first one in the tree. -/
theorem Pieces.insert (hh : Pieces ex front back split) (env : InsertEnv) (preIo : Bool)
    (hbs : 1024 ≤ env.blocksize) (ht : ExtTree.Ok env.blocksize ⟨d, close d p⟩)
    (hd : d ≤ ext4MaxExtentDepth) (hafter : (leaf d p).after = ex :: rest) :
    InsertOutcomeAs env preIo back ⟨d, setExt d p front⟩
      (ext4ExtInsertExtent env preIo back ⟨d, setExt d p front⟩) := by
  have hes := ht.around hafter
  have ht' : ExtTree.Ok env.blocksize ⟨d, close d (setExt d p front)⟩ :=
    ht.setExt hafter hh.front_block (hh.shorten hes)
  have hgap := hh.gap hes
  have hfree : Free back (flat d (close d (setExt d p front))) := by
    rw [flat_setExt hafter]
    intro e he
    have he' : e ∈ ((left d p ++ (leaf d p).before) ++ [front]) ++ (rest ++ right d p) := by
      simpa using he
    rcases List.mem_append.mp he' with he | he
    · exact .inl (hgap.below e he)
    · exact .inr (hgap.above e he)
  have hloc : Located Extent.eeBlock back.eeBlock d (setExt d p front) := by
    have h1 := eeBlock_lt_eeEnd hh.front_ok
    have h2 := eeBlock_lt_eeEnd hh.back_ok
    have h3 := hh.front_end
    have h4 := hh.back_block
    refine ⟨fun y hy => ?_, fun e he hlow => ?_, fun hnil => ?_⟩
    · rw [leaf_setExt, hafter, setExt, right_setLeaf] at hy
      exact Nat.lt_of_lt_of_le h2 (hgap.above y hy)
    · rw [leaf_setExt] at he
      obtain rfl := Option.some.inj he
      omega
    · rw [leaf_setExt] at hnil
      cases hnil
  exact insertExtent_as preIo hbs ht' hd hh.back_ok hloc hfree

end Pieces

end Ext4.Extents
