import Ext4.Mballoc.Prealloc

/-!
# Multiblock allocator — threads that allocate, free and discard

The allocator as a whole: threads in `ext4_mb_new_blocks`, threads that
discard preallocations, `ext4_free_blocks`, the commit callbacks and the
initialisation of buddy pages, interleaved at the group locks and the locks
of the preallocations. A step is one locked section.

Where the code searches, the model takes any outcome: any free extent for
the regular allocator, any goal for the normalisation, any preallocation
that passes the tests.
-/

namespace Ext4.Mballoc

open Bitmap SearchTree

/-- What a cluster on disk was allocated for: a cluster of logical blocks
of a file, or metadata. -/
inductive Owner where
  | data (inode lcluster : Nat)
  | metadata
deriving DecidableEq, Repr

/-- Who a cluster belongs to. -/
inductive Holder where
  | free
  | owned (o : Owner)
  | pending
  | prealloc (p : Nat)
  | inflight (x : Nat)
deriving DecidableEq, Repr

/-- Where a thread is in `ext4_mb_new_blocks`: before it has found blocks;
with blocks found in core; in front of the sections of
`ext4_mb_release_context`; with a used-up preallocation to take off its
list; in front of the return. -/
inductive AcPhase where
  | start
  | found
  | closing
  | released
  | dropping
  | done
deriving DecidableEq, Repr

/-- A thread in `ext4_mb_new_blocks`. -/
structure AcThread where
  ac : Ext4AllocationContext
  phase : AcPhase

/-- The filesystem. `objDiscard` are the preallocations that
`ext4_discard_preallocations` or `ext4_mb_discard_lg_preallocations` have
marked and not yet released, `grpDiscard` those that
`ext4_mb_discard_group_preallocations` holds on its private list. `holder`
is auxiliary: it records who got a cluster last, and nothing else depends
on it. -/
structure MbState where
  sb : Ext4SbInfo
  running : Nat
  committed : Nat
  inCallback : Bool
  cut : List Ext4FreeData
  bbPreallocList : Nat → List Nat
  pas : Nat → Option Ext4PreallocSpace
  acs : Nat → Option AcThread
  objDiscard : List Nat
  grpDiscard : List Nat
  holder : Nat → Nat → Holder

namespace MbState

def setAc (st : MbState) (x : Nat) (t : Option AcThread) : MbState :=
  { st with acs := Function.update st.acs x t }

def setPa (st : MbState) (p : Nat) (pa : Option Ext4PreallocSpace) : MbState :=
  { st with pas := Function.update st.pas p pa }

def setGroup (st : MbState) (g : Nat) (grp : GroupState) : MbState :=
  { st with sb := st.sb.setGroup g grp }

/-- `list_add` and `list_del` on `bb_prealloc_list`. -/
def linkPa (st : MbState) (g p : Nat) : MbState :=
  { st with bbPreallocList := Function.update st.bbPreallocList g (p :: st.bbPreallocList g) }

def unlinkPa (st : MbState) (g p : Nat) : MbState :=
  { st with bbPreallocList := Function.update st.bbPreallocList g ((st.bbPreallocList g).erase p) }

/-- The clusters of group `g` that satisfy `P` change hands. -/
def give (st : MbState) (g : Nat) (P : Nat → Bool) (v : Nat → Holder) : MbState :=
  { st with holder := fun g' c => if g' = g ∧ P c = true then v c else st.holder g' c }

end MbState

/-- The extent as a set. -/
def Ext4FreeExtent.has (e : Ext4FreeExtent) (c : Nat) : Bool :=
  e.feStart ≤ c && c < e.feStart + e.feLen

inductive MbOp where
  | newBlocks (x inode logical len : Nat) (data : Bool) (lg : Option Nat)
  | useInodePa (x p : Nat)
  | useGroupPa (x p : Nat)
  | regularAllocator (x : Nat) (goal : Ext4FreeExtent) (g start len : Nat)
  | noSpace (x : Nat)
  | newPreallocation (x p : Nat)
  | newPreallocationFails (x : Nat)
  | markDiskspaceUsed (x : Nat) (env : FreeEnv)
  | releaseContext (x : Nat)
  | putPa (x : Nat)
  | unlinkPa (x : Nat)
  | finish (x : Nat)
  | discardPa (p : Nat)
  | releaseDiscarded (p : Nat)
  | pickGroupPa (g p : Nat)
  | releasePicked (p : Nat)
  | freeSection (rb : Shape Ext4FreeData) (journalled : Bool) (g bit n : Nat)
  | nextTransaction
  | callback
  | returnNext
  | callbackDone
  | initCache (g : Nat)

variable (fs : FsLayout)

/-- What the cluster is allocated for. -/
def Ext4AllocationContext.owner (ac : Ext4AllocationContext) (c : Nat) : Owner :=
  if ac.acData then
    .data ac.acInode (ac.acOEx.feLogical / fs.clusterRatio + (c - ac.acBEx.feStart))
  else .metadata

/-- The thread leaves with an error and no blocks. -/
def Ext4AllocationContext.fail (ac : Ext4AllocationContext) : Ext4AllocationContext :=
  { ac with acBEx := { ac.acBEx with feLen := 0 } }

/-- `ext4_discard_allocated_blocks`, on the way to `errout`. -/
def ext4DiscardAllocatedBlocks (st : MbState) (x : Nat) (ac : Ext4AllocationContext) :
    Option MbState :=
  let st' := st.setAc x (some ⟨ac.fail, .closing⟩)
  match ac.acPa with
  | none =>
      if ac.acFEx.feLen = 0 then some st'
      else
        let g := ac.acFEx.feGroup
        (mbFreeBlocks fs.toGeometry (st.sb.groups g).e4b ac.acFEx.feStart ac.acFEx.feLen).map
          fun e4b => (st'.setGroup g { st.sb.groups g with e4b := e4b }).give g ac.acFEx.has
            fun _ => .free
  | some p =>
      match st.pas p with
      | none => none
      | some pa =>
          let st' := st'.give ac.acBEx.feGroup ac.acBEx.has fun _ => .prealloc p
          match pa.paType with
          | .inodePa _ => some (st'.setPa p (some { pa with paFree := pa.paFree + ac.acBEx.feLen }))
          | .groupPa _ => some st'

/-- `ext4_mb_mark_diskspace_used`, with the handling of its error. -/
def ext4MbMarkDiskspaceUsed (env : FreeEnv) (st : MbState) (x : Nat)
    (ac : Ext4AllocationContext) : Option MbState :=
  let b := ac.acBEx
  let grp := st.sb.groups b.feGroup
  let marked := (st.setGroup b.feGroup
    { grp with bitmapBh := fill grp.bitmapBh b.feStart b.feLen true }).give b.feGroup b.has
      fun c => .owned (ac.owner fs c)
  if b.feLen = 0 then none
  else if !env.accessOk then ext4DiscardAllocatedBlocks fs st x ac
  else if !fs.dataBlockValid (fs.grpOffsToBlock b.feGroup b.feStart) (fs.c2b b.feLen) ||
      !env.dirtyOk then ext4DiscardAllocatedBlocks fs marked x ac
  else some (marked.setAc x (some ⟨ac, .closing⟩))

/-- A discarded preallocation is released and freed. -/
def releaseStep (st : MbState) (g p : Nat) (pa : Ext4PreallocSpace) : Option MbState :=
  (releasePa fs g (st.sb.groups g) pa).map fun grp =>
    ((st.setGroup g grp).setPa p none).give g (fun c => st.holder g c = .prealloc p)
      fun _ => .free

/-- The sections of `ext4_mb_new_blocks` of a thread in phase `phase`. -/
def acStep (st : MbState) (x : Nat) (phase : AcPhase)
    (f : Ext4AllocationContext → Option MbState) : Option MbState :=
  match st.acs x with
  | none => none
  | some t => if t.phase = phase then f t.ac else none

/-- One section; `none` is a `BUG_ON`, or a step that is not possible
here. -/
def mbStep (op : MbOp) (st : MbState) : Option MbState :=
  match op with
  | .newBlocks x inode logical len data lg =>
      match st.acs x with
      | some _ => none
      | none => some (st.setAc x
          (some ⟨ext4MbInitializeContext fs inode logical len data lg, .start⟩))
  | .useInodePa x p =>
      acStep st x .start fun ac =>
        match st.pas p with
        | none => none
        | some pa =>
            if usableInodePa fs ac pa then
              (ext4MbUseInodePa fs ac p { pa with paCount := pa.paCount + 1 }).map fun r =>
                ((st.setAc x (some ⟨r.1, .found⟩)).setPa p (some r.2)).give r.1.acBEx.feGroup
                  r.1.acBEx.has fun _ => .inflight x
            else none
  | .useGroupPa x p =>
      acStep st x .start fun ac =>
        match st.pas p with
        | none => none
        | some pa =>
            if usableGroupPa ac pa then
              let ac := ext4MbUseGroupPa fs ac p pa
              some (((st.setAc x (some ⟨ac, .found⟩)).setPa p
                (some { pa with paCount := pa.paCount + 1 })).give ac.acBEx.feGroup
                  ac.acBEx.has fun _ => .inflight x)
            else none
  | .regularAllocator x goal g start len =>
      acStep st x .start fun ac =>
        let b : Ext4FreeExtent := ⟨goal.feLogical, start, g, min len goal.feLen⟩
        (mbMarkUsed fs.toGeometry (st.sb.groups g).e4b b.feStart b.feLen).map fun r =>
          ((st.setAc x (some ⟨{ ac with
              acGEx := goal, acBEx := b, acFEx := b, acBitmapPage := some g }, .found⟩)).setGroup g
            { st.sb.groups g with e4b := r.2 }).give g b.has fun _ => .inflight x
  | .noSpace x => acStep st x .start fun ac => some (st.setAc x (some ⟨ac.fail, .closing⟩))
  | .newPreallocation x p =>
      acStep st x .found fun ac =>
        if ac.acPa ≠ none ∨ st.pas p ≠ none then none
        else
          (ext4MbNewPreallocation fs ac p).map fun r =>
            (((st.setAc x (some ⟨r.1, .found⟩)).setPa p (some r.2)).linkPa ac.acBEx.feGroup
              p).give ac.acBEx.feGroup ac.acBEx.has
                fun c => if r.1.acBEx.has c then .inflight x else .prealloc p
  | .newPreallocationFails x =>
      acStep st x .found fun ac =>
        if ac.acPa = none ∧ ac.acOEx.feLen < ac.acBEx.feLen then
          ext4DiscardAllocatedBlocks fs st x ac
        else none
  | .markDiskspaceUsed x env =>
      acStep st x .found fun ac =>
        if ac.acPa = none ∧ ac.acOEx.feLen < ac.acBEx.feLen then none
        else ext4MbMarkDiskspaceUsed fs env st x ac
  | .releaseContext x =>
      acStep st x .closing fun ac =>
        match ac.acPa with
        | none => some (st.setAc x (some ⟨ac, .done⟩))
        | some p => (st.pas p).map fun pa =>
            (st.setAc x (some ⟨ac, .released⟩)).setPa p (some (advancePa fs ac pa))
  | .putPa x =>
      acStep st x .released fun ac =>
        match ac.acPa with
        | none => none
        | some p => (st.pas p).map fun pa =>
            let r := ext4MbPutPa pa
            (st.setAc x (some ⟨ac, if r.2 then .dropping else .done⟩)).setPa p (some r.1)
  | .unlinkPa x =>
      acStep st x .dropping fun ac =>
        match ac.acPa with
        | none => none
        | some p => (st.pas p).map fun pa =>
            ((st.setAc x (some ⟨ac, .done⟩)).unlinkPa (putPaGroup fs pa) p).setPa p none
  | .finish x => acStep st x .done fun _ => some (st.setAc x none)
  | .discardPa p =>
      match st.pas p with
      | none => none
      | some pa =>
          if pa.paCount = 0 ∧ pa.paDeleted = false then
            some { st.setPa p (some { pa with paDeleted := true }) with
              objDiscard := p :: st.objDiscard }
          else none
  | .releaseDiscarded p =>
      if p ∈ st.objDiscard then
        match st.pas p with
        | none => none
        | some pa =>
            let g := fs.groupNo pa.paPstart
            releaseStep fs ({ st with objDiscard := st.objDiscard.erase p }.unlinkPa g p) g p pa
      else none
  | .pickGroupPa g p =>
      match st.pas p with
      | none => none
      | some pa =>
          if p ∈ st.bbPreallocList g ∧ pa.paCount = 0 ∧ pa.paDeleted = false then
            some { (st.setPa p (some { pa with paDeleted := true })).unlinkPa g p with
              grpDiscard := p :: st.grpDiscard }
          else none
  | .releasePicked p =>
      if p ∈ st.grpDiscard then
        match st.pas p with
        | none => none
        | some pa => releaseStep fs { st with grpDiscard := st.grpDiscard.erase p }
            (fs.groupNo pa.paPstart) p pa
      else none
  | .freeSection rb journalled g bit n =>
      (freeSection fs rb (if journalled then some st.running else none) st.sb g bit n).map
        fun sb => { st with sb := sb }.give g (fun c => bit ≤ c && c < bit + n)
          fun _ => if journalled then .pending else .free
  | .nextTransaction => some { st with running := st.running + 1 }
  | .callback =>
      let r := cutFreedData st.sb (st.committed + 1)
      some { st with sb := r.2, committed := st.committed + 1, inCallback := true, cut := r.1 }
  | .returnNext =>
      match st.cut with
      | [] => some st
      | e :: rest => (ext4FreeDataInBuddy fs.toGeometry st.sb e).map fun sb =>
          { st with sb := sb, cut := rest }.give e.efdGroup
            (fun c => e.efdStartCluster ≤ c && c < e.efdStartCluster + e.efdCount)
            fun _ => .free
  | .callbackDone => some { st with inCallback := false }
  | .initCache g =>
      let grp := st.sb.groups g
      (ext4MbGenerateFromPa fs st.pas g (st.bbPreallocList g) grp.bitmapBh).map fun incore =>
        st.setGroup g { grp with
          e4b := ext4MbInitCache fs.toGeometry (ext4MbGenerateFromFreelist grp.bbFreeRoot incore)
            grp.e4b.bdInfo }

/-- What the callers of the allocator and the locks around it promise.

A request asks for logical clusters that are not mapped; `i_data_sem` keeps
other requests for data of the inode out, and the mutex of a locality group
other requests of the group. The regular allocator finds a free extent, and
only data is normalised. Nothing reports a corrupted filesystem. Blocks that
are freed were allocated and have reached their owner. A page is set up when
nobody holds it: no thread that allocated from it, and none that discards
preallocations of its group. -/
def MbOp.Legal (st : MbState) : MbOp → Prop
  | .newBlocks _ inode logical len data lg => 0 < len ∧
      (data = true → (∀ y t, st.acs y = some t → t.ac.acData = true → t.ac.acInode ≠ inode) ∧
        ∀ g c lc, logical / fs.clusterRatio ≤ lc → lc < logical / fs.clusterRatio + len →
          st.holder g c ≠ .owned (.data inode lc)) ∧
      ∀ l, lg = some l → data = true ∧ ∀ y t, st.acs y = some t → t.ac.acLg ≠ some l
  | .regularAllocator x goal g start len => 0 < len ∧ 0 < goal.feLen ∧
      (∀ t, st.acs x = some t → t.ac.acData = false → goal = t.ac.acOEx) ∧
      ∀ c, start ≤ c → c < start + len → Free fs.toGeometry (st.sb.groups g).e4b.bdBitmap c
  | .markDiskspaceUsed x env => env.dirtyOk = true ∧ ∀ t, st.acs x = some t →
      fs.dataBlockValid (fs.grpOffsToBlock t.ac.acBEx.feGroup t.ac.acBEx.feStart)
        (fs.c2b t.ac.acBEx.feLen) = true
  | .freeSection _ _ g bit n => 0 < n ∧ bit + n ≤ fs.clustersPerGroup ∧
      ∀ c, bit ≤ c → c < bit + n → (∃ o, st.holder g c = .owned o) ∧
        ∀ x t, st.acs x = some t → t.phase ≠ .start → ¬ (t.ac.acBEx.feGroup = g ∧ t.ac.acBEx.has c)
  | .callback => st.inCallback = false ∧ st.committed + 1 < st.running
  | .returnNext => st.inCallback = true
  | .callbackDone => st.inCallback = true ∧ st.cut = []
  | .initCache g => (∀ x t, st.acs x = some t → t.ac.acBitmapPage ≠ some g) ∧
      ∀ p pa, p ∈ st.grpDiscard → st.pas p = some pa → fs.groupNo pa.paPstart ≠ g
  | _ => True

/-- The preallocation covers the cluster. -/
def Ext4PreallocSpace.Has (pa : Ext4PreallocSpace) (g c : Nat) : Prop :=
  fs.groupNo pa.paPstart = g ∧ fs.groupOffset pa.paPstart ≤ c ∧
    c < fs.groupOffset pa.paPstart + pa.paLen

/-- Blocks are freed only outside the inode preallocations: who frees
blocks of a file discards its preallocations first. -/
def MbOp.Discards (st : MbState) : MbOp → Prop
  | .freeSection _ _ g bit n => ∀ c, bit ≤ c → c < bit + n →
      ∀ p pa inode, st.pas p = some pa → pa.paType = .inodePa inode → ¬ pa.Has fs g c
  | _ => True

def mbRun : List MbOp → MbState → Option MbState
  | [], st => some st
  | op :: ops, st => (mbStep fs op st).bind (mbRun ops)

/-- Every step meets `P` in the state it finds. -/
def MbRunMeets (P : MbState → MbOp → Prop) : List MbOp → MbState → Prop
  | [], _ => True
  | op :: ops, st => P st op ∧ ∀ st', mbStep fs op st = some st' → MbRunMeets P ops st'

end Ext4.Mballoc
