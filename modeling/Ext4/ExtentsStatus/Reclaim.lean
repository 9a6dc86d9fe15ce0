import Ext4.ExtentsStatus.Invariant

/-!
# Extent status — reclaim

The shrinker takes entries out of a tree and clears reference marks; it
never touches a delayed entry. `Thinned` says so for one sequence, and
`Shrunk` for all the trees of a superblock; both compose, so one step of
the scan gives the scan, and one scan the walk over the inodes.
-/

namespace Ext4.ExtentsStatus

open SearchTree Ext4SbInfo

/-- Two entries that differ in their reference mark at most. -/
structure Same (e e' : ExtentStatus) : Prop where
  addr : e'.addr = e.addr
  lblk : e'.esLblk = e.esLblk
  len : e'.esLen = e.esLen
  type : ext4EsType e' = ext4EsType e
  pblk : ext4EsPblock e' = ext4EsPblock e

namespace Same

variable {e e' e'' a b : ExtentStatus}

theorem refl : Same e e := ⟨rfl, rfl, rfl, rfl, rfl⟩

theorem trans (h : Same e e') (h' : Same e' e'') : Same e e'' :=
  ⟨h'.addr.trans h.addr, h'.lblk.trans h.lblk, h'.len.trans h.len, h'.type.trans h.type,
    h'.pblk.trans h.pblk⟩

theorem stop (h : Same e e') : esStop e' = esStop e := by
  rw [esStop, esStop, h.lblk, h.len]

theorem entryOk (h : Same e e') (he : EntryOk e) : EntryOk e' where
  pos := by
    rw [h.len]
    exact he.pos
  le_max := by
    rw [h.stop]
    exact he.le_max
  phys := by
    rw [hasPblk_congr h.type, freeKind_congr h.type, h.pblk, h.len]
    exact he.phys

theorem before (ha : Same a e) (hb : Same b e') (h : Before a b) : Before e e' := by
  refine ⟨by rw [ha.stop, hb.lblk]; exact h.stop_le, ?_⟩
  rw [← h.apart]
  unfold ext4EsCanBeMerged
  rw [ha.type, hb.type, ha.len, hb.len, ha.lblk, hb.lblk, ha.pblk, hb.pblk,
    isWritten_congr ha.type, isUnwritten_congr ha.type, isHole_congr ha.type,
    isDelayed_congr ha.type]

theorem at_iff (h : Same e e') (b : Nat) (v : EsVal) : At e' b v ↔ At e b v := by
  unfold At Segments.View.Covers esView
  simp only [h.lblk, h.stop, h.type, isMapped_congr h.type, h.pblk]

theorem clearReferenced (e : ExtentStatus) : Same e (ext4EsClearReferenced e) :=
  ⟨rfl, rfl, rfl, type_clearReferenced e, pblock_clearReferenced e⟩

theorem setReferenced (e : ExtentStatus) : Same e (ext4EsSetReferenced e) :=
  ⟨rfl, rfl, rfl, type_setReferenced e, pblock_setReferenced e⟩

end Same

/-- A block value that stands for a delayed block. -/
def valDelayed (v : EsVal) : Bool := v.1 &&& extentStatusDelayed != 0#64

/-- The second sequence is the first with some entries that are not
delayed taken out. -/
inductive Thinned : List ExtentStatus → List ExtentStatus → Prop where
  | nil : Thinned [] []
  | keep {e e' : ExtentStatus} {l l' : List ExtentStatus} :
      Same e e' → Thinned l l' → Thinned (e :: l) (e' :: l')
  | drop {e : ExtentStatus} {l l' : List ExtentStatus} :
      ext4EsIsDelayed e = false → Thinned l l' → Thinned (e :: l) l'

variable {v : EsVal} {sb' sb'' : Ext4SbInfo}

namespace Thinned

variable {l l' l'' : List ExtentStatus}

theorem refl (l : List ExtentStatus) : Thinned l l := by
  induction l with
  | nil => exact .nil
  | cons e l ih => exact .keep .refl ih

section

variable (h : Thinned l l')

include h

theorem append {k k' : List ExtentStatus} (h' : Thinned k k') : Thinned (l ++ k) (l' ++ k') := by
  induction h with
  | nil => exact h'
  | keep hs _ ih => exact .keep hs ih
  | drop hd _ ih => exact .drop hd ih

theorem trans (h' : Thinned l' l'') : Thinned l l'' := by
  induction h generalizing l'' with
  | nil => exact h'
  | keep hs _ ih =>
    cases h' with
    | keep hs' h'' => exact .keep (hs.trans hs') (ih h'')
    | drop hd h'' =>
      refine .drop ?_ (ih h'')
      rw [← isDelayed_congr hs.type]
      exact hd
  | drop hd _ ih => exact .drop hd (ih h')

theorem mem {e' : ExtentStatus} (he : e' ∈ l') : ∃ e ∈ l, Same e e' := by
  induction h with
  | nil => simp at he
  | keep hs _ ih =>
    rcases List.mem_cons.mp he with rfl | he
    · exact ⟨_, by simp, hs⟩
    · obtain ⟨e, hm, hs'⟩ := ih he
      exact ⟨e, by simp [hm], hs'⟩
  | drop _ _ ih =>
    obtain ⟨e, hm, hs'⟩ := ih he
    exact ⟨e, by simp [hm], hs'⟩

theorem addrs : (l'.map ExtentStatus.addr).Sublist (l.map ExtentStatus.addr) := by
  induction h with
  | nil => exact .slnil
  | keep hs _ ih =>
    rw [List.map_cons, List.map_cons, hs.addr]
    exact ih.cons_cons _
  | drop _ _ ih => exact ih.cons _

theorem order (ho : l.Pairwise Before) : l'.Pairwise Before := by
  induction h with
  | nil => exact .nil
  | keep hs ht ih =>
    rw [List.pairwise_cons] at ho ⊢
    refine ⟨fun x hx => ?_, ih ho.2⟩
    obtain ⟨e, hm, hs'⟩ := ht.mem hx
    exact hs.before hs' (ho.1 e hm)
  | drop _ _ ih => exact ih (List.pairwise_cons.mp ho).2

/-- Taking entries out leaves the rest apart: a gap cannot be merged over. -/
theorem treeOk (hl : TreeOk l) : TreeOk l' := by
  refine ⟨fun e' he' => ?_, h.order hl.order, hl.addrs.sublist h.addrs⟩
  obtain ⟨e, he, hs⟩ := h.mem he'
  exact hs.entryOk (hl.entries e he)

theorem holds_of {b : Nat} (hv : Holds l' b v) : Holds l b v := by
  obtain ⟨e', he', ha⟩ := hv
  obtain ⟨e, he, hs⟩ := h.mem he'
  exact ⟨e, he, (hs.at_iff b v).mp ha⟩

theorem holds_delayed {b : Nat} (hv : Holds l b v) (hd : valDelayed v = true) : Holds l' b v := by
  induction h with
  | nil => exact hv
  | keep hs _ ih =>
    rw [holds_cons] at hv ⊢
    rcases hv with hv | hv
    · exact .inl ((hs.at_iff b v).mpr hv)
    · exact .inr (ih hv)
  | @drop e _ _ hde _ ih =>
    rw [holds_cons] at hv
    rcases hv with hv | hv
    · have : valDelayed v = ext4EsIsDelayed e := by
        rw [← hv.2]
        rfl
      rw [this, hde] at hd
      cases hd
    · exact ih hv

end

end Thinned

/-- A scan of one tree: what it keeps and what it leaves alone. -/
structure Scanned (sb sb' : Ext4SbInfo) (i : Nat) : Prop where
  core : EsCore sb'
  others : ∀ j, j ≠ i → sb'.inodes j = sb.inodes j
  tree : Thinned (sb.root i) (sb'.root i)

variable {i : Nat}

section Scan

variable {sb : Ext4SbInfo} {i : Nat} {before after : List ExtentStatus} {es : ExtentStatus}

theorem Scanned.refl (h : EsCore sb) : Scanned sb sb i := ⟨h, fun _ _ => rfl, .refl _⟩

theorem Scanned.trans (h : Scanned sb sb' i) (h' : Scanned sb' sb'' i) : Scanned sb sb'' i :=
  ⟨h'.core, fun j hj => (h'.others j hj).trans (h.others j hj), h.tree.trans h'.tree⟩

theorem scanned_of_thinned (h : EsCore sb) (hothers : ∀ j, j ≠ i → sb'.inodes j = sb.inodes j)
    (hacct : Acct sb') (hthin : Thinned (sb.root i) (sb'.root i))
    (hnext : sb.nextAddr ≤ sb'.nextAddr) : Scanned sb sb' i := by
  refine ⟨h.edit hothers hacct (hthin.treeOk (h.tree i)) (fun e he => ?_) hnext, hothers, hthin⟩
  obtain ⟨e', hm, hs⟩ := hthin.mem he
  rw [hs.addr]
  exact Nat.lt_of_lt_of_le (h.fresh i e' hm) hnext

theorem Scanned.setShrinkLblk (h : Scanned sb sb' i) (b : Nat) :
    Scanned sb (sb'.setShrinkLblk i b) i :=
  h.trans (scanned_of_thinned h.core (fun j hj => inodes_setShrinkLblk_ne hj b)
    (h.core.acct.setShrinkLblk b) (by rw [root_setShrinkLblk]; exact .refl _) (Nat.le_refl _))

theorem scanned_clear (h : EsCore sb) (hroot : sb.root i = before ++ es :: after) :
    Scanned sb (sb.setRoot i (before ++ ext4EsClearReferenced es :: after)) i := by
  refine scanned_of_thinned h (fun j hj => inodes_setRoot_ne hj _)
    (h.acct.replace hroot (type_clearReferenced es)) ?_ (Nat.le_refl _)
  rw [root_setRoot, if_pos rfl, hroot]
  exact (Thinned.refl before).append (.keep (.clearReferenced es) (.refl after))

theorem scanned_drop (h : EsCore sb) (hroot : sb.root i = before ++ es :: after)
    (hd : ext4EsIsDelayed es = false) :
    Scanned sb (ext4EsFreeExtent (sb.setRoot i (before ++ after)) i es) i := by
  refine scanned_of_thinned h (fun j hj => by simp [hj]) (h.acct.free ?_ ?_) ?_ (by simp)
  · rw [hroot]
    simp
    omega
  · rw [hroot, shkCount_append, shkCount_append, shkCount_cons]
    omega
  · rw [root_free, root_setRoot, if_pos rfl, hroot]
    exact (Thinned.refl before).append (.drop hd (.refl after))

/-- The scan loop, by induction on the entries still ahead of it. -/
theorem reclaimLoop_spec {last : Nat} (h : EsCore sb) (hroot : sb.root i = before ++ es :: after)
    (n m : Nat) : Scanned sb (reclaimLoop i last before es after sb n m).2.2.2 i := by
  induction after generalizing before es sb n m with
  | nil =>
    rw [reclaimLoop]
    split
    · exact (Scanned.refl h).setShrinkLblk _
    split
    · exact (Scanned.refl h).setShrinkLblk _
    simp only
    split
    · exact (Scanned.refl h).setShrinkLblk _
    rename_i hd
    split
    · exact (scanned_clear h hroot).setShrinkLblk _
    · exact (scanned_drop h hroot (by simpa using hd)).setShrinkLblk _
  | cons es' after' ih =>
    rw [reclaimLoop]
    split
    · exact (Scanned.refl h).setShrinkLblk _
    split
    · exact (Scanned.refl h).setShrinkLblk _
    simp only
    split
    · exact ih h (by simp [hroot]) _ _
    rename_i hd
    split
    · have hs := scanned_clear h hroot
      exact hs.trans (ih hs.core (by simp) _ _)
    · have hs := scanned_drop h hroot (by simpa using hd)
      exact hs.trans (ih hs.core (by simp) _ _)

end Scan

variable {sb : Ext4SbInfo}

theorem esDoReclaimExtents_spec (h : EsCore sb) (rb : RbShape) (last n m : Nat) :
    Scanned sb (esDoReclaimExtents rb sb i last n m).2.2.2 i := by
  unfold esDoReclaimExtents
  split
  · exact (Scanned.refl h).setShrinkLblk _
  · rename_i z hz
    obtain ⟨hlist, -, -⟩ := esTreeSearch_some (h.tree i) hz
    exact reclaimLoop_spec h hlist.symm n m

/-- What the shrinker may do to all the trees. -/
structure Shrunk (sb sb' : Ext4SbInfo) : Prop where
  inv : EsInv sb'
  tree : ∀ j, Thinned (sb.root j) (sb'.root j)

theorem Shrunk.refl (h : EsInv sb) : Shrunk sb sb := ⟨h, fun _ => .refl _⟩

theorem Shrunk.trans (h : Shrunk sb sb') (h' : Shrunk sb' sb'') : Shrunk sb sb'' :=
  ⟨h'.inv, fun j => (h.tree j).trans (h'.tree j)⟩

/-- A scan followed by the reset of `cache_es`. -/
theorem Scanned.shrunk (h : EsInv sb) (hs : Scanned sb sb' i) :
    Shrunk sb (sb'.setCache i none) := by
  have hreset := hs.trans (scanned_of_thinned hs.core (fun j hj => inodes_setCache_ne hj none)
    (hs.core.acct.setCache none) (by rw [root_setCache]; exact .refl _) (Nat.le_refl _))
  refine ⟨⟨hreset.core, fun j => ?_⟩, fun j => ?_⟩ <;> by_cases hj : j = i
  · intro a ha
    simp [hj] at ha
  · exact (h.cache j).congr (hreset.others j hj)
  · exact hj ▸ hreset.tree
  · rw [root, root, hreset.others j hj]
    exact .refl _

theorem esReclaimExtents_spec (h : EsInv sb) (rb : RbShape) (i n : Nat) :
    Shrunk sb (esReclaimExtents rb sb i n).2.2 := by
  unfold esReclaimExtents
  simp only
  split
  · exact .refl h
  · have h1 := esDoReclaimExtents_spec (i := i) h.toEsCore rb extMaxBlocks n 0
    split
    · exact (h1.trans (esDoReclaimExtents_spec h1.core _ _ _ _)).shrunk h
    · exact h1.shrunk h

/-- Reordering `s_es_list` and spending lock outcomes change no tree. -/
theorem Shrunk.reorder (h : EsInv sb) {l : List Nat} (hl : l.Perm sb.sEsList) (t : List Bool) :
    Shrunk sb { sb with sEsList := l, tryLocks := t } := by
  refine ⟨⟨⟨⟨h.acct.all, h.acct.shk, fun j => ?_, ?_, ?_⟩, h.tree, h.fresh⟩, h.cache⟩,
    fun _ => .refl _⟩
  · exact hl.mem_iff.trans (h.acct.listed j)
  · exact hl.nodup_iff.mpr h.acct.nodup
  · exact h.acct.nr.trans hl.length_eq.symm

theorem writeTrylock_spec (h : EsInv sb) : Shrunk sb (writeTrylock sb).2 := by
  unfold writeTrylock
  split
  · exact .refl h
  · exact Shrunk.reorder h (.refl _) _

theorem shrinkWalk_spec (h : EsInv sb) (rb : RbShape) (lockedEi : Option Nat) (retried : Bool)
    (k n m s : Nat) : Shrunk sb (shrinkWalk rb lockedEi retried k sb n m s).2.2.2.2 := by
  induction k generalizing sb n m s with
  | zero => exact .refl h
  | succ k ih =>
    rw [shrinkWalk]
    split
    · exact .refl h
    · rename_i ei rest hl
      have hperm : (rest ++ [ei]).Perm sb.sEsList := hl ▸ List.perm_append_singleton ei rest
      have h0 : Shrunk sb { sb with sEsList := rest ++ [ei] } := .reorder h hperm sb.tryLocks
      simp only
      split
      · exact h0.trans (ih h0.inv _ _ _)
      split
      · exact h0.trans (ih h0.inv _ _ _)
      have h1 := h0.trans (writeTrylock_spec h0.inv)
      split
      · exact h1.trans (ih h1.inv _ _ _)
      have h2 := h1.trans (esReclaimExtents_spec h1.inv rb ei n)
      split
      · exact h2
      · exact h2.trans (ih h2.inv _ _ _)

/-- **The shrinker** only takes entries out of the trees, none of them
delayed. -/
theorem esShrink_spec (h : EsInv sb) (rb : RbShape) (n : Nat) (lockedEi : Option Nat) :
    Shrunk sb (esShrink rb sb n lockedEi).2 := by
  unfold esShrink
  have h1 := shrinkWalk_spec h rb lockedEi false sb.sEsNrInode n 0 0
  generalize shrinkWalk rb lockedEi false sb.sEsNrInode sb n 0 0 = w at h1 ⊢
  obtain ⟨out, n1, m1, s1, sb1⟩ := w
  simp only at h1 ⊢
  split
  · exact h1
  -- the last resort, on the inode whose lock the caller holds
  have hlast : ∀ (sb2 : Ext4SbInfo) (m2 n2 i : Nat), Shrunk sb sb2 →
      Shrunk sb (if m2 = 0 then
          ((esReclaimExtents rb sb2 i n2).1, (esReclaimExtents rb sb2 i n2).2.2)
        else (m2, sb2)).2 := by
    intro sb2 m2 n2 i h2
    split
    · exact h2.trans (esReclaimExtents_spec h2.inv rb i n2)
    · exact h2
  split
  · have h2 := h1.trans (shrinkWalk_spec h1.inv rb lockedEi true sb1.sEsNrInode n1 m1 s1)
    generalize shrinkWalk rb lockedEi true sb1.sEsNrInode sb1 n1 m1 s1 = w at h2 ⊢
    obtain ⟨out2, n2, m2, s2, sb2⟩ := w
    simp only at h2 ⊢
    split
    · exact h2
    · split
      · exact hlast sb2 m2 n2 _ h2
      · exact h2
  · simp only [Bool.false_eq_true, if_false]
    split
    · exact hlast sb1 m1 n1 _ h1
    · exact h1

end Ext4.ExtentsStatus
