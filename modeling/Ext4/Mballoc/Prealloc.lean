import Ext4.Mballoc.FreedData
import Ext4.Mballoc.Runs

/-!
# Multiblock allocator — preallocations

`ext4_mb_new_blocks` takes more clusters from the buddy than it was asked
for and keeps the rest in a preallocation: an inode preallocation is tied
to logical blocks of a file, a group preallocation is consumed from its
start by the files of a locality group. This file has the functions that
create, use, drop and release preallocations; descriptors are named by
their address. `none` is a `BUG_ON`.
-/

namespace Ext4.Mballoc

open Bitmap

/-- `struct ext4_free_extent`. -/
structure Ext4FreeExtent where
  feLogical : Nat
  feStart : Nat
  feGroup : Nat
  feLen : Nat
deriving DecidableEq, Repr

/-- `pa_type` with the object the preallocation belongs to. -/
inductive PaType where
  | inodePa (paInode : Nat)
  | groupPa (lg : Nat)
deriving DecidableEq, Repr

/-- `struct ext4_prealloc_space`. -/
structure Ext4PreallocSpace where
  paType : PaType
  paPstart : Nat
  paLstart : Nat
  paLen : Nat
  paFree : Int
  paCount : Nat
  paDeleted : Bool
deriving DecidableEq, Repr

/-- `struct ext4_allocation_context`: the request (`acOEx`), what it was
normalised to (`acGEx`), what was found (`acBEx`) and what was taken from
the buddy (`acFEx`). `acLg` is the locality group whose mutex is held and
`acBitmapPage` the group whose pages are pinned. -/
structure Ext4AllocationContext where
  acInode : Nat
  acData : Bool
  acLg : Option Nat
  acOEx : Ext4FreeExtent
  acGEx : Ext4FreeExtent
  acBEx : Ext4FreeExtent
  acFEx : Ext4FreeExtent
  acPa : Option Nat
  acBitmapPage : Option Nat

namespace FsLayout

/-- `ext4_grp_offs_to_block`. -/
def grpOffsToBlock (fs : FsLayout) (g start : Nat) : Nat :=
  fs.firstDataBlock + g * fs.blocksPerGroup + fs.c2b start

/-- `EXT4_LBLK_CMASK`. -/
def lblkCmask (fs : FsLayout) (lblk : Nat) : Nat := lblk - lblk % fs.clusterRatio

end FsLayout

variable (fs : FsLayout)

/-- `ext4_mb_initialize_context`. The goal group is only a hint. -/
def ext4MbInitializeContext (inode logical len : Nat) (data : Bool) (lg : Option Nat) :
    Ext4AllocationContext :=
  let o : Ext4FreeExtent := ⟨fs.lblkCmask logical, 0, 0, min len fs.clustersPerGroup⟩
  { acInode := inode
    acData := data
    acLg := lg
    acOEx := o
    acGEx := o
    acBEx := { o with feLen := 0 }
    acFEx := { o with feLen := 0 }
    acPa := none
    acBitmapPage := none }

/-! ## Using a preallocation -/

/-- The test of `ext4_mb_use_preallocated` on an inode preallocation. -/
def usableInodePa (ac : Ext4AllocationContext) (pa : Ext4PreallocSpace) : Bool :=
  ac.acData && pa.paType = .inodePa ac.acInode && pa.paLstart ≤ ac.acOEx.feLogical &&
    ac.acOEx.feLogical < pa.paLstart + fs.c2b pa.paLen && !pa.paDeleted && pa.paFree ≠ 0

/-- The test of `ext4_mb_use_preallocated` on a group preallocation. -/
def usableGroupPa (ac : Ext4AllocationContext) (pa : Ext4PreallocSpace) : Bool :=
  match ac.acLg with
  | none => false
  | some lg => pa.paType = .groupPa lg && !pa.paDeleted && (ac.acOEx.feLen : Int) ≤ pa.paFree

/-- `ext4_mb_use_inode_pa`. A length that is not positive passes here and
is caught by the `BUG_ON` of `ext4_mb_mark_diskspace_used`. -/
def ext4MbUseInodePa (ac : Ext4AllocationContext) (p : Nat) (pa : Ext4PreallocSpace) :
    Option (Ext4AllocationContext × Ext4PreallocSpace) :=
  let start : Int := pa.paPstart + (ac.acOEx.feLogical - pa.paLstart)
  let stop : Int := min (pa.paPstart + fs.c2b pa.paLen) (start + fs.c2b ac.acOEx.feLen)
  let len : Int := (stop - start + fs.clusterRatio - 1) / fs.clusterRatio
  if start < pa.paPstart ∨ (pa.paPstart + fs.c2b pa.paLen : Int) < stop ∨ pa.paFree < len ∨
      len ≤ 0 then none
  else
    some ({ ac with
        acBEx := { ac.acBEx with
          feGroup := fs.groupNo start.toNat
          feStart := fs.groupOffset start.toNat
          feLen := len.toNat }
        acPa := some p },
      { pa with paFree := pa.paFree - len })

/-- `ext4_mb_use_group_pa`. The descriptor follows in
`ext4_mb_release_context`. -/
def ext4MbUseGroupPa (ac : Ext4AllocationContext) (p : Nat) (pa : Ext4PreallocSpace) :
    Ext4AllocationContext :=
  { ac with
    acBEx := { ac.acBEx with
      feGroup := fs.groupNo pa.paPstart
      feStart := fs.groupOffset pa.paPstart
      feLen := ac.acOEx.feLen }
    acPa := some p }

/-! ## New preallocations -/

/-- The logical start of a new inode preallocation: if less was found than
wanted, the window is moved so that it covers the request. -/
def paWindow (ac : Ext4AllocationContext) : Option Nat :=
  if ac.acBEx.feLen < ac.acGEx.feLen then
    if ac.acOEx.feLogical < ac.acGEx.feLogical ∨ ac.acGEx.feLen < ac.acOEx.feLen then none
    else
      let winl := ac.acOEx.feLogical - ac.acGEx.feLogical
      let wins := fs.c2b (ac.acBEx.feLen - ac.acOEx.feLen)
      let win := min winl wins
      let offs := ac.acOEx.feLogical % fs.c2b ac.acBEx.feLen
      let win := if offs ≠ 0 ∧ offs < win then offs else win
      some (ac.acOEx.feLogical - fs.numB2c win)
  else some ac.acBEx.feLogical

/-- `ext4_mb_new_inode_pa`, up to the insertion into the lists. -/
def ext4MbNewInodePa (ac : Ext4AllocationContext) (p : Nat) :
    Option (Ext4AllocationContext × Ext4PreallocSpace) :=
  if ac.acBEx.feLen ≤ ac.acOEx.feLen then none
  else
    match paWindow fs ac with
    | none => none
    | some lstart =>
        let b := { ac.acBEx with feLogical := lstart }
        let pa : Ext4PreallocSpace :=
          { paType := .inodePa ac.acInode
            paPstart := fs.grpOffsToBlock b.feGroup b.feStart
            paLstart := lstart
            paLen := b.feLen
            paFree := b.feLen
            paCount := 1
            paDeleted := false }
        ext4MbUseInodePa fs { ac with acBEx := b, acFEx := b } p pa

/-- `ext4_mb_new_group_pa`, up to the insertion into the list. -/
def ext4MbNewGroupPa (ac : Ext4AllocationContext) (lg p : Nat) :
    Option (Ext4AllocationContext × Ext4PreallocSpace) :=
  if ac.acBEx.feLen ≤ ac.acOEx.feLen then none
  else
    let pstart := fs.grpOffsToBlock ac.acBEx.feGroup ac.acBEx.feStart
    let pa : Ext4PreallocSpace :=
      { paType := .groupPa lg
        paPstart := pstart
        paLstart := pstart
        paLen := ac.acBEx.feLen
        paFree := ac.acBEx.feLen
        paCount := 1
        paDeleted := false }
    some (ext4MbUseGroupPa fs { ac with acFEx := ac.acBEx } p pa, pa)

/-- `ext4_mb_new_preallocation`. -/
def ext4MbNewPreallocation (ac : Ext4AllocationContext) (p : Nat) :
    Option (Ext4AllocationContext × Ext4PreallocSpace) :=
  match ac.acLg with
  | some lg => ext4MbNewGroupPa fs ac lg p
  | none => ext4MbNewInodePa fs ac p

/-! ## Dropping and releasing -/

/-- The first section of `ext4_mb_release_context`: a group preallocation
starts behind the clusters that were used. -/
def advancePa (ac : Ext4AllocationContext) (pa : Ext4PreallocSpace) : Ext4PreallocSpace :=
  match pa.paType with
  | .inodePa _ => pa
  | .groupPa _ =>
      { pa with
        paPstart := pa.paPstart + fs.c2b ac.acBEx.feLen
        paLstart := pa.paLstart + fs.c2b ac.acBEx.feLen
        paFree := pa.paFree - ac.acBEx.feLen
        paLen := pa.paLen - ac.acBEx.feLen }

/-- The first section of `ext4_mb_put_pa`: whether the preallocation has to
be taken off its lists. -/
def ext4MbPutPa (pa : Ext4PreallocSpace) : Ext4PreallocSpace × Bool :=
  let pa := { pa with paCount := pa.paCount - 1 }
  if pa.paCount ≠ 0 ∨ pa.paFree ≠ 0 ∨ pa.paDeleted = true then (pa, false)
  else ({ pa with paDeleted := true }, true)

/-- The group whose list `ext4_mb_put_pa` takes the preallocation off. -/
def putPaGroup (pa : Ext4PreallocSpace) : Nat :=
  match pa.paType with
  | .inodePa _ => fs.groupNo pa.paPstart
  | .groupPa _ => fs.groupNo (pa.paPstart - 1)

variable (geo : Geometry)

/-- The loop of `ext4_mb_release_inode_pa` over the clusters that are free
on disk, a turn per unit of fuel. -/
def releaseLoop (bitmapBh : Bits) (stop : Nat) : Nat → Nat → Ext4Buddy → Option Ext4Buddy
  | 0, _, _ => none
  | fuel + 1, bit, e4b =>
      if bit < stop then
        let bit := findNext bitmapBh false stop bit
        if stop ≤ bit then some e4b
        else
          let next := findNext bitmapBh true stop bit
          match mbFreeBlocks geo e4b bit (next - bit) with
          | none => none
          | some e4b => releaseLoop bitmapBh stop fuel (next + 1) e4b
      else some e4b

/-- `ext4_mb_release_inode_pa`. -/
def ext4MbReleaseInodePa (g : Nat) (grp : GroupState) (pa : Ext4PreallocSpace) :
    Option GroupState :=
  let bit := fs.groupOffset pa.paPstart
  if pa.paDeleted = false ∨ (fs.groupNo pa.paPstart ≠ g ∧ pa.paLen ≠ 0) then none
  else
    (releaseLoop fs.toGeometry grp.bitmapBh (bit + pa.paLen) (pa.paLen + 1) bit grp.e4b).map
      fun e4b => { grp with e4b := e4b }

/-- `ext4_mb_release_group_pa`. -/
def ext4MbReleaseGroupPa (g : Nat) (grp : GroupState) (pa : Ext4PreallocSpace) :
    Option GroupState :=
  if pa.paDeleted = false ∨ (fs.groupNo pa.paPstart ≠ g ∧ pa.paLen ≠ 0) then none
  else
    (mbFreeBlocks fs.toGeometry grp.e4b (fs.groupOffset pa.paPstart) pa.paLen).map
      fun e4b => { grp with e4b := e4b }

/-- The release of either type. -/
def releasePa (g : Nat) (grp : GroupState) (pa : Ext4PreallocSpace) : Option GroupState :=
  match pa.paType with
  | .inodePa _ => ext4MbReleaseInodePa fs g grp pa
  | .groupPa _ => ext4MbReleaseGroupPa fs g grp pa

/-! ## The in-core bitmap -/

/-- `ext4_mb_generate_from_pa`. -/
def ext4MbGenerateFromPa (pas : Nat → Option Ext4PreallocSpace) (g : Nat) :
    List Nat → Bits → Option Bits
  | [], m => some m
  | p :: list, m =>
      match pas p with
      | none => ext4MbGenerateFromPa pas g list m
      | some pa =>
          if pa.paLen = 0 then ext4MbGenerateFromPa pas g list m
          else if fs.groupNo pa.paPstart ≠ g then none
          else ext4MbGenerateFromPa pas g list (fill m (fs.groupOffset pa.paPstart) pa.paLen true)

/-- `ext4_mb_generate_from_freelist`. -/
def ext4MbGenerateFromFreelist (root : List Ext4FreeData) (m : Bits) : Bits :=
  root.foldl (fun m e => fill m e.efdStartCluster e.efdCount true) m

end Ext4.Mballoc
