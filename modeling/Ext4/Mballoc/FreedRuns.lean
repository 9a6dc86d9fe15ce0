import Ext4.Mballoc.FreedInvariant
import Ext4.Mballoc.Runs

/-!
# Multiblock allocator — freeing and committing

Runs of `ext4_free_blocks` and of the commit callbacks of the journal, with
other code allocating in between. Transactions commit in order, and a
callback runs in sections: it cuts its entries off the list and then
returns one after the other.
-/

namespace Ext4.Mballoc

open Bitmap Dyadic SearchTree

/-! ## The blocks of a section -/

variable {req : FreeReq} {block count : Nat}

namespace FsLayout

variable (fs : FsLayout)

theorem ratio_pos : 0 < fs.clusterRatio := Nat.two_pow_pos _

theorem bpg_pos : 0 < fs.blocksPerGroup := Nat.mul_pos fs.clusters_pos fs.ratio_pos

/-- A range within one group: its clusters lie in the group and each of
them holds a block of the range. -/
theorem section_clusters (hfirst : fs.firstDataBlock ≤ block) (hcount : 0 < count)
    (hfit : fs.c2b (fs.groupOffset block) + count ≤ fs.blocksPerGroup) :
    0 < fs.numB2c count ∧ fs.groupOffset block + fs.numB2c count ≤ fs.clustersPerGroup ∧
      ∀ c, InRange (fs.groupOffset block) (fs.numB2c count) c →
        ∃ b, block ≤ b ∧ b < block + count ∧ fs.groupNo b = fs.groupNo block ∧
          fs.groupOffset b = c := by
  have hr := fs.ratio_pos
  have hB := fs.bpg_pos
  -- the count of clusters is the count of blocks rounded up
  have hn0 : 0 < fs.numB2c count := Nat.div_pos (by omega) hr
  have hn : fs.clusterRatio * (fs.numB2c count - 1) < count := by
    have h1 : fs.clusterRatio * fs.numB2c count ≤ count + fs.clusterRatio - 1 :=
      Nat.mul_div_le _ _
    rw [Nat.mul_sub, Nat.mul_one]
    omega
  have hle : fs.groupOffset block + fs.numB2c count ≤ fs.clustersPerGroup := by
    have : fs.clusterRatio * (fs.groupOffset block + (fs.numB2c count - 1))
        < fs.clusterRatio * fs.clustersPerGroup := by
      rw [Nat.mul_add]
      unfold c2b blocksPerGroup at hfit
      rw [Nat.mul_comm fs.clustersPerGroup, Nat.mul_comm _ fs.clusterRatio] at hfit
      omega
    have := Nat.lt_of_mul_lt_mul_left this
    omega
  refine ⟨hn0, hle, fun c hc => ?_⟩
  obtain ⟨k, rfl⟩ := Nat.exists_eq_add_of_le hc.1
  have hk : k ≤ fs.numB2c count - 1 := by have := hc.2; omega
  have hkr : fs.clusterRatio * k < count :=
    Nat.lt_of_le_of_lt (Nat.mul_le_mul_left _ hk) hn
  have hm : (block - fs.firstDataBlock) % fs.blocksPerGroup % fs.clusterRatio
      + fs.clusterRatio * fs.groupOffset block
        = (block - fs.firstDataBlock) % fs.blocksPerGroup := Nat.mod_add_div _ _
  have hrem : (block - fs.firstDataBlock) % fs.blocksPerGroup % fs.clusterRatio
      < fs.clusterRatio := Nat.mod_lt _ hr
  have hq : (block - fs.firstDataBlock) % fs.blocksPerGroup + fs.blocksPerGroup * fs.groupNo block
      = block - fs.firstDataBlock := Nat.mod_add_div _ _
  have hend : fs.clusterRatio * (fs.groupOffset block + k) + fs.clusterRatio
      ≤ fs.blocksPerGroup := by
    rw [blocksPerGroup, Nat.mul_comm fs.clustersPerGroup, ← Nat.mul_succ]
    exact Nat.mul_le_mul_left _ (by omega)
  rw [Nat.mul_add] at hend
  have hsub : block + fs.clusterRatio * k - fs.firstDataBlock
      = block - fs.firstDataBlock + fs.clusterRatio * k := by omega
  obtain ⟨h1, h2⟩ := (Nat.div_mod_unique hB).mpr
    (show ((block - fs.firstDataBlock) % fs.blocksPerGroup + fs.clusterRatio * k)
        + fs.blocksPerGroup * fs.groupNo block = block + fs.clusterRatio * k - fs.firstDataBlock ∧
      (block - fs.firstDataBlock) % fs.blocksPerGroup + fs.clusterRatio * k
        < fs.blocksPerGroup by omega)
  refine ⟨block + fs.clusterRatio * k, by omega, by omega, h1, ?_⟩
  unfold groupOffset at hm hend ⊢
  rw [h2]
  refine ((Nat.div_mod_unique hr).mpr ⟨?_, hrem⟩).1
  rw [Nat.mul_add]
  omega

/-- Behind the part in one group, the range goes on in later groups. -/
theorem groupNo_lt {b : Nat} (hfirst : fs.firstDataBlock ≤ block)
    (hb : block + (fs.blocksPerGroup - fs.c2b (fs.groupOffset block)) ≤ b) :
    fs.groupNo block < fs.groupNo b := by
  have hq : (block - fs.firstDataBlock) % fs.blocksPerGroup + fs.blocksPerGroup * fs.groupNo block
      = block - fs.firstDataBlock := Nat.mod_add_div _ _
  have hm : fs.c2b (fs.groupOffset block) ≤ (block - fs.firstDataBlock) % fs.blocksPerGroup :=
    Nat.div_mul_le_self _ _
  have hlt := Nat.mod_lt (block - fs.firstDataBlock) fs.bpg_pos
  rw [groupNo, ← Nat.succ_le_iff, Nat.succ_eq_add_one]
  refine (Nat.le_div_iff_mul_le fs.bpg_pos).mpr ?_
  rw [Nat.add_mul, Nat.one_mul, Nat.mul_comm]
  unfold groupNo at hq
  omega

end FsLayout

/-! ## `ext4_free_blocks` -/

section Free

variable {fs : FsLayout} {sb : Ext4SbInfo} {cut : List Ext4FreeData} {committed running : Nat}

/-- The cells an extent adds to the freed-data list. -/
def loggedCells (tid : Option Nat) (x : Nat × Nat × Nat) : List (Nat × Nat × Nat) :=
  match tid with
  | none => []
  | some t => Ext4FreeData.cells ⟨x.1, x.2.1, x.2.2, t⟩

/-- The blocks are in use on disk. -/
def InUse (fs : FsLayout) (sb : Ext4SbInfo) (block count : Nat) : Prop :=
  fs.firstDataBlock ≤ block ∧ ∀ b, block ≤ b → b < block + count →
    (sb.groups (fs.groupNo b)).bitmapBh (fs.groupOffset b) = true

theorem freeSection_spec {tid : Option Nat} (htid : tid = none ∨ tid = some running)
    (h : FdInv fs.toGeometry sb cut committed running) (rb : Shape Ext4FreeData) {g bit n : Nat}
    (hn : 0 < n) (hle : bit + n ≤ fs.clustersPerGroup)
    (hused : ∀ c, InRange bit n c → (sb.groups g).bitmapBh c = true) :
    ∃ sb', freeSection fs rb tid sb g bit n = some sb' ∧
      FdInv fs.toGeometry sb' cut committed running ∧
      (cellsOf sb'.sFreedDataList).Perm
        (cellsOf sb.sFreedDataList ++ loggedCells tid (g, bit, n)) ∧
      ∀ g', g' ≠ g → (sb'.groups g').bitmapBh = (sb.groups g').bitmapBh := by
  rcases htid with rfl | rfl
  · obtain ⟨sb', heq, hinv, hlist, hsame⟩ := h.freeSection_none rb hn hle hused
    refine ⟨sb', heq, hinv, ?_, fun g' hg => by rw [(hsame g').2, if_neg hg]⟩
    rw [hlist, loggedCells, List.append_nil]
  · obtain ⟨sb', heq, hinv, hcells, hsame⟩ := h.freeSection_some rb hn hle hused
    exact ⟨sb', heq, hinv, hcells, fun g' hg => by rw [(hsame g').2, if_neg hg]⟩

/-- The loop of `ext4_free_blocks` over the groups of a range in use. -/
theorem freeLoop_spec {tid : Option Nat} (htid : tid = none ∨ tid = some running)
    (rb : Shape Ext4FreeData) (fuel : Nat) : ∀ envs block count sb,
      FdInv fs.toGeometry sb cut committed running → 0 < count → count ≤ fuel →
      InUse fs sb block count →
      ∃ sb' log, freeLoop fs rb tid fuel envs block count sb = some (sb', log) ∧
        FdInv fs.toGeometry sb' cut committed running ∧
        (cellsOf sb'.sFreedDataList).Perm
          (cellsOf sb.sFreedDataList ++ log.flatMap (loggedCells tid)) := by
  induction fuel with
  | zero => omega
  | succ fuel ih =>
    intro envs block count sb h hcount hfuel huse
    have hnone : ∀ sb : Ext4SbInfo, (cellsOf sb.sFreedDataList).Perm
        (cellsOf sb.sFreedDataList ++ [].flatMap (loggedCells tid)) := fun sb => by simp
    rw [freeLoop]
    dsimp only
    rw [if_neg (by rw [h.sound]; simp)]
    -- the part of the range in the first group
    obtain ⟨rest, hleft, hlt, hfit, hrest⟩ : ∃ rest,
        (if fs.blocksPerGroup < fs.c2b (fs.groupOffset block) + count then
          fs.c2b (fs.groupOffset block) + count - fs.blocksPerGroup else 0) = rest ∧
        rest < count ∧ fs.c2b (fs.groupOffset block) + (count - rest) ≤ fs.blocksPerGroup ∧
        (rest ≠ 0 → count - rest = fs.blocksPerGroup - fs.c2b (fs.groupOffset block)) := by
      have hm : fs.c2b (fs.groupOffset block) < fs.blocksPerGroup :=
        Nat.lt_of_le_of_lt (Nat.div_mul_le_self _ _) (Nat.mod_lt _ fs.bpg_pos)
      refine ⟨_, rfl, ?_, ?_, ?_⟩
      · split <;> omega
      · split <;> omega
      · split <;> omega
    rw [hleft]
    split
    · exact ⟨sb, [], rfl, h, hnone sb⟩
    · obtain ⟨hn, hle, hclusters⟩ := fs.section_clusters huse.1 (show 0 < count - rest by omega)
        hfit
      obtain ⟨sb1, heq1, hinv1, hcells1, hsame1⟩ := freeSection_spec htid h rb hn hle
        (g := fs.groupNo block) (fun c hc => by
          obtain ⟨b, hb1, hb2, hg, hc⟩ := hclusters c hc
          rw [← hg, ← hc]
          exact huse.2 b hb1 (by omega))
      rw [heq1]
      dsimp only
      split
      · rename_i hmore
        have hrest0 : rest ≠ 0 := by
          rw [Bool.and_eq_true, decide_eq_true_eq] at hmore
          exact hmore.1
        have huse1 : InUse fs sb1 (block + (count - rest)) rest := by
          refine ⟨Nat.le_trans huse.1 (Nat.le_add_right _ _), fun b hb1 hb2 => ?_⟩
          have := fs.groupNo_lt huse.1 (b := b) (by rw [← hrest hrest0]; exact hb1)
          rw [hsame1 _ (by omega)]
          exact huse.2 b (by omega) (by omega)
        obtain ⟨sb2, log, heq2, hinv2, hcells2⟩ := ih envs.tail _ rest sb1 hinv1 (by omega)
          (by omega) huse1
        rw [heq2]
        refine ⟨sb2, _, rfl, hinv2, hcells2.trans ?_⟩
        rw [List.flatMap_cons, ← List.append_assoc]
        exact hcells1.append_right _
      · exact ⟨sb1, _, rfl, hinv1, by simpa using hcells1⟩

theorem clusterRange_pos (hpos : 0 < req.count)
    (h : clusterRange fs req = some (block, count)) : 0 < count := by
  unfold clusterRange at h
  dsimp only at h
  split at h
  · cases h
  · rename_i block' count' heq
    have hcount : 0 < count' := by
      split at heq
      · split at heq
        · split at heq
          · cases heq
            omega
          · cases heq
        · cases heq
          omega
      · cases heq
        exact hpos
    split at h
    · split at h
      · split at h
        · cases h
          omega
        · cases h
      · cases h
        omega
    · cases h
      exact hcount

/-- The transaction the request waits for, if it has to. -/
def FreeReq.tid (req : FreeReq) (running : Nat) : Option Nat :=
  if req.handleValid && (req.metadata || !req.writebackData) then some running else none

/-- At least one block, and all its clusters are in use. -/
def FreeReq.Legal (fs : FsLayout) (sb : Ext4SbInfo) (req : FreeReq) : Prop :=
  0 < req.count ∧ ∀ block count, clusterRange fs req = some (block, count) → InUse fs sb block count

/-- **`ext4_free_blocks` of blocks in use** adds the cells of the extents it
frees, and nothing if it does not have to wait for the transaction. -/
theorem ext4FreeBlocks_spec (h : FdInv fs.toGeometry sb cut committed running)
    (rb : Shape Ext4FreeData) (envs : List FreeEnv) (hreq : req.Legal fs sb) :
    ∃ sb' log, ext4FreeBlocks fs rb envs running req sb = some (sb', log) ∧
      FdInv fs.toGeometry sb' cut committed running ∧
      (cellsOf sb'.sFreedDataList).Perm
        (cellsOf sb.sFreedDataList ++ log.flatMap (loggedCells (req.tid running))) := by
  unfold ext4FreeBlocks
  split
  · exact ⟨sb, [], rfl, h, by simp⟩
  · cases hrange : clusterRange fs req with
    | none => exact ⟨sb, [], rfl, h, by simp⟩
    | some range =>
      obtain ⟨block, count⟩ := range
      have htid : req.tid running = none ∨ req.tid running = some running := by
        rw [FreeReq.tid]
        split
        · exact .inr rfl
        · exact .inl rfl
      exact freeLoop_spec htid rb (count + 1) envs block count sb h
        (clusterRange_pos hreq.1 hrange) (Nat.le_succ _) (hreq.2 block count hrange)

end Free

/-! ## Runs -/

/-- The filesystem with its journal. Transactions up to `committed` have
had their callback, or are in it (`inCallback`, with the entries it has
still to return in `cut`); `running` is the one handles join. `freed` and
`returned` record what went through the freed-data list so far. -/
structure FdState where
  sb : Ext4SbInfo
  running : Nat
  committed : Nat
  inCallback : Bool
  cut : List Ext4FreeData
  freed : List (Nat × Nat × Nat)
  returned : List (Nat × Nat × Nat)

inductive FdOp where
  | alloc (g start len : Nat)
  | free (rb : Shape Ext4FreeData) (envs : List FreeEnv) (req : FreeReq)
  | nextTransaction
  | callback
  | returnNext
  | callbackDone

variable (fs : FsLayout)

/-- One section; `none` is a `BUG_ON`. -/
def fdStep (op : FdOp) (st : FdState) : Option FdState :=
  match op with
  | .alloc g start len =>
      (mbMarkUsed fs.toGeometry (st.sb.groups g).e4b start len).map fun r =>
        { st with sb := st.sb.setGroup g { st.sb.groups g with
            e4b := r.2, bitmapBh := fill (st.sb.groups g).bitmapBh start len true } }
  | .free rb envs req =>
      (ext4FreeBlocks fs rb envs st.running req st.sb).map fun r =>
        { st with
          sb := r.1, freed := st.freed ++ r.2.flatMap (loggedCells (req.tid st.running)) }
  | .nextTransaction => some { st with running := st.running + 1 }
  | .callback =>
      let r := cutFreedData st.sb (st.committed + 1)
      some { st with sb := r.2, committed := st.committed + 1, inCallback := true, cut := r.1 }
  | .returnNext =>
      match st.cut with
      | [] => some st
      | e :: rest => (ext4FreeDataInBuddy fs.toGeometry st.sb e).map fun sb =>
          { st with sb := sb, cut := rest, returned := st.returned ++ e.cells }
  | .callbackDone => some { st with inCallback := false }

/-- A free range is allocated, blocks in use are freed, and the oldest
transaction that is closed commits. -/
def FdOp.Legal (st : FdState) : FdOp → Prop
  | .alloc g start len => 0 < len ∧
      ∀ c, InRange start len c → Free fs.toGeometry (st.sb.groups g).e4b.bdBitmap c
  | .free _ _ req => req.Legal fs st.sb
  | .nextTransaction => True
  | .callback => st.inCallback = false ∧ st.committed + 1 < st.running
  | .returnNext => st.inCallback = true
  | .callbackDone => st.inCallback = true ∧ st.cut = []

def fdRun : List FdOp → FdState → Option FdState
  | [], st => some st
  | op :: ops, st => (fdStep fs op st).bind (fdRun ops)

/-- Every step is legal in the state it finds. -/
def FdLegalRun : List FdOp → FdState → Prop
  | [], _ => True
  | op :: ops, st => op.Legal fs st ∧ ∀ st', fdStep fs op st = some st' → FdLegalRun ops st'

/-- What holds between the sections. -/
structure FdRunInv (st : FdState) : Prop where
  inv : FdInv fs.toGeometry st.sb st.cut st.committed st.running
  idle : st.inCallback = false → st.cut = []
  history : st.freed.Perm (st.returned ++ cellsOf (st.cut ++ st.sb.sFreedDataList))
  nodup : st.freed.Nodup
  past : ∀ x ∈ st.returned, x.2.2 ≤ st.committed

variable {fs} {st : FdState}

/-- The cells of a request are new: pending clusters are not in use, and
what was returned belongs to an older transaction. -/
theorem FdRunInv.fresh (h : FdRunInv fs st) {sb' : Ext4SbInfo} {new : List (Nat × Nat × Nat)}
    (hinv : FdInv fs.toGeometry sb' st.cut st.committed st.running)
    (hcells : (cellsOf sb'.sFreedDataList).Perm (cellsOf st.sb.sFreedDataList ++ new)) :
    FdRunInv fs { st with sb := sb', freed := st.freed ++ new } := by
  have hperm : (st.freed ++ new).Perm
      (st.returned ++ cellsOf (st.cut ++ sb'.sFreedDataList)) := by
    rw [cellsOf_append]
    have h1 := h.history
    rw [cellsOf_append] at h1
    calc st.freed ++ new
      _ |>.Perm ((st.returned ++ (cellsOf st.cut ++ cellsOf st.sb.sFreedDataList)) ++ new) :=
          h1.append_right _
      _ |>.Perm (st.returned ++ (cellsOf st.cut ++ (cellsOf st.sb.sFreedDataList ++ new))) := by
          rw [List.append_assoc, List.append_assoc]
      _ |>.Perm (st.returned ++ (cellsOf st.cut ++ cellsOf sb'.sFreedDataList)) :=
          (hcells.symm.append_left _).append_left _
  have hold := h.history.nodup_iff.mp h.nodup
  rw [List.nodup_append] at hold
  refine ⟨hinv, h.idle, hperm, hperm.nodup_iff.mpr ?_, h.past⟩
  refine List.nodup_append.mpr ⟨hold.1, hinv.cells_nodup, fun x hx y hy hxy => ?_⟩
  subst hxy
  rw [cellsOf_append, List.mem_append] at hy
  rcases hy with hy | hy
  · refine hold.2.2 x hx x ?_ rfl
    rw [cellsOf_append]
    exact List.mem_append_left _ hy
  · obtain ⟨e, he, hxe⟩ := mem_cellsOf.mp hy
    obtain ⟨g, c, t⟩ := x
    obtain ⟨-, rfl, -⟩ := mem_cells.mp hxe
    have h1 := h.past _ hx
    have h2 := (hinv.window e he).1
    dsimp only at h1
    omega

theorem fdStep_spec {op : FdOp} (h : FdRunInv fs st) (hop : op.Legal fs st) :
    ∃ st', fdStep fs op st = some st' ∧ FdRunInv fs st' := by
  cases op with
  | alloc g start len =>
    obtain ⟨ret, e4b, heq, hinv⟩ := h.inv.alloc hop.1 hop.2
    rw [fdStep, heq]
    exact ⟨_, rfl, hinv, h.idle, h.history, h.nodup, h.past⟩
  | free rb envs req =>
    obtain ⟨sb', log, heq, hinv, hcells⟩ := ext4FreeBlocks_spec h.inv rb envs hop
    rw [fdStep, heq]
    exact ⟨_, rfl, h.fresh hinv hcells⟩
  | nextTransaction => exact ⟨_, rfl, h.inv.nextTransaction, h.idle, h.history, h.nodup, h.past⟩
  | callback =>
    have hcut := h.idle hop.1
    have hinv0 := h.inv
    rw [hcut] at hinv0
    obtain ⟨hinv, happ⟩ := cutFreedData_spec hinv0 hop.2
    refine ⟨_, rfl, hinv, fun hc => Bool.noConfusion hc, ?_, h.nodup,
      fun x hx => Nat.le_succ_of_le (h.past x hx)⟩
    have := h.history
    rw [hcut, List.nil_append] at this
    dsimp only
    rwa [happ]
  | returnNext =>
    cases hcut : st.cut with
    | nil => exact ⟨st, by rw [fdStep, hcut], h⟩
    | cons e rest =>
      have hinv0 := h.inv
      rw [hcut] at hinv0
      obtain ⟨sb', heq, hinv, hlist, -⟩ := ext4FreeDataInBuddy_spec hinv0
      rw [fdStep, hcut]
      dsimp only
      rw [heq]
      refine ⟨_, rfl, hinv, fun hc => ?_, ?_, h.nodup, fun x hx => ?_⟩
      · exact Bool.noConfusion ((hop : st.inCallback = true).symm.trans hc)
      · have := h.history
        rw [hcut] at this
        dsimp only
        rw [hlist, List.append_assoc]
        exact this
      · rcases List.mem_append.mp hx with hx | hx
        · exact h.past x hx
        · obtain ⟨g, c, t⟩ := x
          obtain ⟨-, rfl, -⟩ := mem_cells.mp hx
          exact Nat.le_of_eq (hinv0.cutTid e (by simp))
  | callbackDone => exact ⟨_, rfl, h.inv, fun _ => hop.2, h.history, h.nodup, h.past⟩

theorem fdRun_spec {ops : List FdOp} (h : FdRunInv fs st) (hlegal : FdLegalRun fs ops st) :
    ∃ st', fdRun fs ops st = some st' ∧ FdRunInv fs st' := by
  induction ops generalizing st with
  | nil => exact ⟨st, rfl, h⟩
  | cons op ops ih =>
    obtain ⟨st1, heq, h1⟩ := fdStep_spec h hlegal.1
    obtain ⟨st2, heq2, h2⟩ := ih h1 (hlegal.2 st1 heq)
    exact ⟨st2, by rw [fdRun, heq, Option.bind_some, heq2], h2⟩

/-! ## The property of runs -/

variable (fs) in
/-- A group right after its buddy was set up from a bitmap that agrees
with the group descriptor. -/
structure Mounted (grp : GroupState) : Prop where
  padded : Padded fs.toGeometry grp.bitmapBh
  init : ∃ grinfo, grp.e4b = ext4MbInitCache fs.toGeometry grp.bitmapBh grinfo ∧
    grinfo.bbFree = cnt (fs.toGeometry.sMbMaxs 0) (Free fs.toGeometry grp.bitmapBh) ∧
    grinfo.bbitmapCorrupt = false
  root : grp.bbFreeRoot = []

/-- The state before the first transaction has committed. -/
def FdState.mounted (groups : Nat → GroupState) : FdState :=
  ⟨⟨groups, [], 0⟩, 1, 0, false, [], [], []⟩

theorem fdRunInv_mounted {groups : Nat → GroupState} (hm : ∀ g, Mounted fs (groups g)) :
    FdRunInv fs (FdState.mounted groups) := by
  have hspec : ∀ g, Canon fs.toGeometry (groups g).e4b ∧
      (groups g).e4b.bdBitmap = (groups g).bitmapBh ∧
      (groups g).e4b.bdInfo.bbitmapCorrupt = false := by
    intro g
    obtain ⟨grinfo, heq, hfree, hsound⟩ := (hm g).init
    obtain ⟨h1, h2, h3⟩ := ext4MbInitCache_spec (hm g).padded grinfo
    rw [heq]
    exact ⟨h1, h2, (h3 hfree).trans hsound⟩
  refine ⟨⟨fun g => (hspec g).1, fun g => (hspec g).2.2, fun g => ?_, fun g e => ?_, List.nodup_nil,
    fun e he => ?_, List.Pairwise.nil, fun e he => ?_, fun e he => ?_, Nat.one_pos,
    fun g c t hc => ?_, fun g c hc => ?_, rfl⟩, fun _ => rfl, List.Perm.nil, List.nodup_nil,
    fun x hx => ?_⟩
  · show (groups g).bbFreeRoot.Pairwise Apart
    rw [(hm g).root]
    exact List.Pairwise.nil
  · show e ∈ (groups g).bbFreeRoot ↔ _
    rw [(hm g).root]
    simp [FdState.mounted]
  · simp [FdState.mounted] at he
  · simp [FdState.mounted] at he
  · simp [FdState.mounted] at he
  · simp [FdState.mounted, cellsOf] at hc
  · show (groups g).e4b.bdBitmap c = true
    rw [(hspec g).2.1]
    exact hc
  · simp [FdState.mounted] at hx

/-- What a run leaves: `sb` counts what is pending, everything freed in a
transaction is either returned or pending, exactly once, and is used in
the buddy while it is pending. -/
structure FreedOnce (fs : FsLayout) (st : FdState) : Prop where
  pending : st.sb.sMbFreePending = (((st.cut ++ st.sb.sFreedDataList).map
    Ext4FreeData.efdCount).sum : Nat)
  history : st.freed.Perm (st.returned ++ (cellsOf st.cut ++ cellsOf st.sb.sFreedDataList))
  nodup : st.freed.Nodup
  used : ∀ g c t, (g, c, t) ∈ st.freed → (g, c, t) ∉ st.returned →
    (st.sb.groups g).e4b.bdBitmap c = true
  waiting : ∀ g c t, (g, c, t) ∈ st.freed → st.committed < t →
    (g, c, t) ∈ cellsOf st.sb.sFreedDataList ∧ (g, c, t) ∉ st.returned
  once : ∀ g c t, (g, c, t) ∈ st.freed →
    (t < st.committed ∨ (t = st.committed ∧ st.inCallback = false)) →
    st.returned.count (g, c, t) = 1 ∧ (g, c, t) ∉ cellsOf (st.cut ++ st.sb.sFreedDataList)
  returning : ∀ e rest, st.cut = e :: rest → ∃ st', fdStep fs .returnNext st = some st' ∧
    ∀ g c t, (g, c, t) ∈ e.cells → t = st.committed ∧
      (st.sb.groups g).e4b.bdBitmap c = true ∧ (st'.sb.groups g).e4b.bdBitmap c = false

theorem length_cellsOf (l : List Ext4FreeData) :
    (cellsOf l).length = (l.map Ext4FreeData.efdCount).sum := by
  rw [cellsOf, List.length_flatMap]
  simp

theorem FdRunInv.freedOnce (h : FdRunInv fs st) : FreedOnce fs st := by
  have hsplit : ∀ x, x ∈ st.freed ↔ x ∈ st.returned ∨ x ∈ cellsOf st.cut ∨
      x ∈ cellsOf st.sb.sFreedDataList := by
    intro x
    rw [h.history.mem_iff, cellsOf_append, List.mem_append, List.mem_append]
  have hcut : ∀ g c t, (g, c, t) ∈ cellsOf st.cut → t = st.committed := by
    intro g c t hx
    obtain ⟨e, he, hxe⟩ := mem_cellsOf.mp hx
    rw [(mem_cells.mp hxe).2.1]
    exact h.inv.cutTid e he
  have hlist : ∀ g c t, (g, c, t) ∈ cellsOf st.sb.sFreedDataList → st.committed < t := by
    intro g c t hx
    obtain ⟨e, he, hxe⟩ := mem_cellsOf.mp hx
    rw [(mem_cells.mp hxe).2.1]
    exact (h.inv.window e he).1
  refine ⟨?_, ?_, h.nodup, fun g c t hx hnot => ?_, fun g c t hx hlt => ?_,
    fun g c t hx hpast => ?_, fun e rest hcut => ?_⟩
  · rw [h.inv.pending, length_cellsOf]
  · rw [← cellsOf_append]
    exact h.history
  · refine (h.inv.held g c t ?_).2.1
    rw [cellsOf_append, List.mem_append]
    exact ((hsplit _).mp hx).resolve_left hnot
  · have hnot : (g, c, t) ∉ st.returned := fun hr => by
      have := h.past _ hr
      dsimp only at this
      omega
    rcases (hsplit _).mp hx with hr | hc | hl
    · exact absurd hr hnot
    · have := hcut g c t hc
      omega
    · exact ⟨hl, hnot⟩
  · have hnotp : (g, c, t) ∉ cellsOf (st.cut ++ st.sb.sFreedDataList) := by
      rw [cellsOf_append, List.mem_append]
      rintro (hc | hl)
      · rcases hpast with hlt | ⟨-, hidle⟩
        · exact Nat.ne_of_lt hlt (hcut g c t hc)
        · rw [h.idle hidle] at hc
          simp [cellsOf] at hc
      · have := hlist g c t hl
        omega
    refine ⟨List.count_eq_one_of_mem ?_ ?_, hnotp⟩
    · exact (List.nodup_append.mp (h.history.nodup_iff.mp h.nodup)).1
    · rw [cellsOf_append, List.mem_append] at hnotp
      exact ((hsplit _).mp hx).resolve_right hnotp
  · have hinv := h.inv
    rw [hcut] at hinv
    obtain ⟨sb', heq, -, -, -, hflip⟩ := ext4FreeDataInBuddy_spec hinv
    rw [fdStep, hcut]
    dsimp only
    rw [heq]
    refine ⟨_, rfl, fun g c t hx => ⟨?_, hflip g c t hx⟩⟩
    rw [(mem_cells.mp hx).2.1]
    exact hinv.cutTid e (by simp)

/-- **Freed clusters come back once, with their transaction.** In every
run of frees, commits and allocations, whatever goes to the freed-data
list is pending until the callback of its transaction, is used in the
buddy all that time, and that callback makes it free exactly once. Merging
does not show: the pending cells are those that were freed. -/
theorem run_returns_freed_once (fs : FsLayout) (groups : Nat → GroupState)
    (hm : ∀ g, Mounted fs (groups g)) (ops : List FdOp)
    (hlegal : FdLegalRun fs ops (FdState.mounted groups)) :
    ∃ st, fdRun fs ops (FdState.mounted groups) = some st ∧ FreedOnce fs st := by
  obtain ⟨st, heq, h⟩ := fdRun_spec (fdRunInv_mounted hm) hlegal
  exact ⟨st, heq, h.freedOnce⟩

/-- A filesystem of groups with 16 clusters of one block. -/
def FsLayout.small : FsLayout where
  blkbits := 1
  clustersPerGroup := 16
  blkbits_pos := by decide
  clusters_le := by decide
  clusterBits := 0
  firstDataBlock := 0
  clusters_pos := by decide
  bgBlockBitmap := fun g => 16 * g
  bgInodeBitmap := fun g => 16 * g + 1
  bgInodeTable := fun g => 16 * g + 2
  itbPerGroup := 1
  dataBlockValid := fun _ _ => true

/-- A group whose first eight clusters are in use. -/
def GroupState.small : GroupState where
  e4b := ext4MbInitCache FsLayout.small.toGeometry (fun b => decide (b < 8))
    ⟨8, 0, 0, 0, fun _ => 0, false⟩
  bitmapBh := fun b => decide (b < 8)
  bbFreeRoot := []

theorem mounted_small : Mounted FsLayout.small GroupState.small := by
  refine ⟨fun b h1 h2 => ?_, ⟨_, rfl, ?_, rfl⟩, rfl⟩
  · exact absurd h2 (Nat.not_lt.mpr h1)
  · show (8 : Int) = cnt (8 + 8) (Free FsLayout.small.toGeometry fun b => decide (b < 8))
    rw [cnt_extend_all 8 fun b h1 h2 => ⟨h2, by simp [h1]⟩,
      cnt_false fun b h hb => by simpa [h] using hb.2]
    rfl

/-- Blocks 4 and 5 of the small filesystem. -/
def FreeReq.small (writebackData metadata : Bool) : FreeReq :=
  ⟨true, writebackData, 4, 2, metadata, true, false, false⟩

theorem legal_small (w m : Bool) :
    (FreeReq.small w m).Legal .small (FdState.mounted fun _ => .small).sb := by
  refine ⟨Nat.two_pos, fun block count h => ?_⟩
  obtain ⟨rfl, rfl⟩ : 4 = block ∧ 2 = count := by
    simpa [clusterRange, FreeReq.small, FsLayout.small, FsLayout.clusterRatio] using h
  refine ⟨Nat.zero_le _, fun b h1 h2 => ?_⟩
  obtain rfl | rfl : b = 4 ∨ b = 5 := by omega
  · rfl
  · rfl

/-- Two blocks of metadata go through the list and come back with their
transaction. -/
theorem run_returns_freed_once_small : ∃ st,
    fdRun .small [.free (.spine _) [] (.small false true), .nextTransaction, .callback,
      .returnNext] (.mounted fun _ => .small) = some st ∧ FreedOnce .small st := by
  refine run_returns_freed_once .small _ (fun _ => mounted_small) _ ⟨legal_small _ _, ?_⟩
  intro st hst
  obtain ⟨r, hr, rfl⟩ := Option.map_eq_some_iff.mp hst
  -- transaction 1 is closed and becomes the one in the callback
  refine ⟨trivial, fun st hst => ?_⟩
  cases hst
  refine ⟨⟨rfl, Nat.lt_succ_self _⟩, fun st hst => ?_⟩
  cases hst
  exact ⟨rfl, fun _ _ => trivial⟩

/-- Data of an inode in writeback mode is not kept for the commit: it is
free in the buddy while the transaction that freed it is still running. And a
callback that has cut two blocks off the list has not taken them off
`s_mb_free_pending`. -/
theorem writeback_free_before_commit :
    (∃ st, fdRun .small [.free (.spine _) [] (.small true false)] (.mounted fun _ => .small)
        = some st ∧ st.committed < st.running ∧
      ((FdState.mounted fun _ => .small).sb.groups 0).e4b.bdBitmap 4 = true ∧
      (st.sb.groups 0).e4b.bdBitmap 4 = false) ∧
    ∃ st, fdRun .small [.free (.spine _) [] (.small false true), .nextTransaction, .callback]
        (.mounted fun _ => .small) = some st ∧ st.inCallback = true ∧
      st.sb.sFreedDataList = [] ∧ st.sb.sMbFreePending = 2 := by
  have h := (fdRunInv_mounted fun _ => mounted_small).inv
  have hused : ∀ c, InRange 4 2 c → (((FdState.mounted fun _ => .small).sb).groups 0).e4b.bdBitmap c
      = true := fun c hc => h.disk 0 c (decide_eq_true (by have := hc.2; omega))
  obtain ⟨e4b, hfree, -, hbm, -⟩ := mbFreeBlocks_used (h.canon 0) Nat.two_pos (by decide)
    (h.sound 0) hused
  obtain ⟨sb', hsec, hbit⟩ : ∃ sb', freeSection .small (.spine _) none
      (FdState.mounted fun _ => .small).sb 0 4 2 = some sb' ∧
      (sb'.groups 0).e4b.bdBitmap 4 = false := by
    rw [freeSection]
    dsimp only
    rw [hfree]
    refine ⟨_, rfl, ?_⟩
    show e4b.bdBitmap 4 = false
    rw [hbm]
    rfl
  have hfreed : ext4FreeBlocks .small (.spine _) [] 1 (.small true false)
      (FdState.mounted fun _ => .small).sb = some (sb', [(0, 4, 2)]) := by
    show freeLoop .small (.spine _) none 3 [] 4 2 _ = _
    rw [freeLoop]
    dsimp only
    rw [if_neg (by rw [h.sound]; simp), if_neg (by decide)]
    erw [hsec]
    rfl
  have hcut : (fdRun .small [.free (.spine _) [] (.small false true), .nextTransaction, .callback]
      (.mounted fun _ => .small)).map (fun st =>
        (st.inCallback, st.sb.sFreedDataList.length, st.sb.sMbFreePending))
          = some (true, 0, 2) := by
    decide +kernel
  obtain ⟨st, heq, hobs⟩ := Option.map_eq_some_iff.mp hcut
  simp only [Prod.mk.injEq, List.length_eq_zero_iff] at hobs
  refine ⟨?_, st, heq, hobs⟩
  rw [fdRun, fdStep]
  erw [hfreed]
  exact ⟨_, rfl, Nat.zero_lt_one, hused 4 ⟨Nat.le_refl _, by decide⟩, hbit⟩

end Ext4.Mballoc
