import Ext4.ExtentsStatus.Order
import Mathlib.Data.List.Nodup

/-!
# Extent status — the counters and the list of inodes to shrink

`i_es_all_nr`, `i_es_shk_nr` and `s_es_list` are kept by the allocation
and the release of a node, one at a time, while the tree is edited beside
them. `Acct` is the agreement between the two; each lemma pairs one edit
of a tree with the counter update that goes with it.
-/

namespace Ext4.ExtentsStatus

open SearchTree Ext4SbInfo

/-- The number of reclaimable entries: those that are not delayed. -/
def shkCount (l : List ExtentStatus) : Nat := l.countP (fun e => !ext4EsIsDelayed e)

/-- The weight of one entry in `shkCount`. -/
def shkOne (e : ExtentStatus) : Nat := if ext4EsIsDelayed e then 0 else 1

theorem shkCount_append (l1 l2 : List ExtentStatus) :
    shkCount (l1 ++ l2) = shkCount l1 + shkCount l2 := List.countP_append ..

theorem shkCount_cons (e : ExtentStatus) (l : List ExtentStatus) :
    shkCount (e :: l) = shkOne e + shkCount l := by
  rw [shkCount, List.countP_cons, shkOne, shkCount, Nat.add_comm]
  cases ext4EsIsDelayed e <;> rfl

theorem shkOne_cases (e : ExtentStatus) : shkOne e = 0 ∨ shkOne e = 1 := by
  unfold shkOne
  split
  · exact .inl rfl
  · exact .inr rfl

theorem shkOne_congr {a b : ExtentStatus} (h : ext4EsType a = ext4EsType b) :
    shkOne a = shkOne b := by
  rw [shkOne, shkOne, isDelayed_congr h]

/-- The counters of every inode and the list agree with the trees. -/
structure Acct (sb : Ext4SbInfo) : Prop where
  all : ∀ i, (sb.inodes i).iEsAllNr = (sb.root i).length
  shk : ∀ i, (sb.inodes i).iEsShkNr = shkCount (sb.root i)
  listed : ∀ i, i ∈ sb.sEsList ↔ 0 < (sb.inodes i).iEsShkNr
  nodup : sb.sEsList.Nodup
  nr : sb.sEsNrInode = sb.sEsList.length

/-! ## Reading back the edits -/

variable {ei : Ext4InodeInfo}

section Projections

variable (sb : Ext4SbInfo) (i j : Nat)

theorem inodes_setInode (ei : Ext4InodeInfo) :
    (sb.setInode i ei).inodes j = if j = i then ei else sb.inodes j := by
  simp [setInode, Function.update_apply]

/-- An edit of one inode shows only in what it changes. -/
theorem setInode_congr {α : Type} (f : Ext4InodeInfo → α)
    (hf : f ei = f (sb.inodes i)) : f ((sb.setInode i ei).inodes j) = f (sb.inodes j) := by
  rw [inodes_setInode]
  split
  · rename_i h
    rw [h, hf]
  · rfl

@[simp] theorem root_setRoot (l : List ExtentStatus) :
    (sb.setRoot i l).root j = if j = i then l else sb.root j := by
  simp only [root, setRoot, inodes_setInode]
  split <;> rfl

@[simp] theorem root_setCache (a : Option Nat) : (sb.setCache i a).root j = sb.root j :=
  setInode_congr sb i j (fun ei => ei.iEsTree.root) rfl

@[simp] theorem root_setShrinkLblk (b : Nat) : (sb.setShrinkLblk i b).root j = sb.root j :=
  setInode_congr sb i j (fun ei => ei.iEsTree.root) rfl

/-- `cache_es` of inode `i`. -/
def Ext4SbInfo.cacheOf (sb : Ext4SbInfo) (i : Nat) : Option Nat := (sb.inodes i).iEsTree.cacheEs

@[simp] theorem cacheOf_setRoot (l : List ExtentStatus) :
    (sb.setRoot i l).cacheOf j = sb.cacheOf j :=
  setInode_congr sb i j (fun ei => ei.iEsTree.cacheEs) rfl

@[simp] theorem cacheOf_setCache (a : Option Nat) :
    (sb.setCache i a).cacheOf j = if j = i then a else sb.cacheOf j := by
  simp only [cacheOf, setCache, inodes_setInode]
  split <;> rfl

@[simp] theorem nextAddr_setRoot (l : List ExtentStatus) :
    (sb.setRoot i l).nextAddr = sb.nextAddr := rfl

@[simp] theorem nextAddr_setCache (a : Option Nat) : (sb.setCache i a).nextAddr = sb.nextAddr := rfl

section

variable (es : ExtentStatus)

include es

theorem inodes_free :
    (ext4EsFreeExtent sb i es).inodes j =
      if j = i then
        { sb.inodes i with
          iEsAllNr := (sb.inodes i).iEsAllNr - 1,
          iEsShkNr := (sb.inodes i).iEsShkNr - shkOne es }
      else sb.inodes j := by
  unfold ext4EsFreeExtent shkOne
  cases ext4EsIsDelayed es with
  | true =>
    simp only [if_true, inodes_setInode]
    split <;> rfl
  | false =>
    simp only [inodes_setInode, if_true, Bool.false_eq_true, if_false]
    split
    · unfold ext4EsListDel
      split <;> simp only [inodes_setInode] <;> split <;> rfl
    · simp only [inodes_setInode]
      split <;> rfl

theorem list_free :
    (ext4EsFreeExtent sb i es).sEsList =
      if shkOne es = 1 ∧ (sb.inodes i).iEsShkNr - 1 = 0 then sb.sEsList.erase i
      else sb.sEsList := by
  unfold ext4EsFreeExtent shkOne
  cases ext4EsIsDelayed es with
  | true => simp [setInode]
  | false =>
    simp only [inodes_setInode, if_true, Bool.false_eq_true, if_false, true_and]
    split
    · unfold ext4EsListDel
      split
      · rfl
      · rename_i h
        exact (List.erase_of_not_mem h).symm
    · rfl

omit es in
theorem nr_listDel (hnr : sb.sEsNrInode = sb.sEsList.length) :
    (ext4EsListDel sb i).sEsNrInode = (ext4EsListDel sb i).sEsList.length := by
  unfold ext4EsListDel
  split
  · rename_i hi
    show sb.sEsNrInode - 1 = (sb.sEsList.erase i).length
    rw [hnr, List.length_erase_of_mem hi]
  · exact hnr

theorem nr_free (hnr : sb.sEsNrInode = sb.sEsList.length) :
    (ext4EsFreeExtent sb i es).sEsNrInode = (ext4EsFreeExtent sb i es).sEsList.length := by
  unfold ext4EsFreeExtent
  cases ext4EsIsDelayed es with
  | true => exact hnr
  | false =>
    simp only [Bool.false_eq_true, if_false]
    split
    · exact nr_listDel _ _ hnr
    · exact hnr

@[simp] theorem root_free : (ext4EsFreeExtent sb i es).root j = sb.root j := by
  simp only [root, inodes_free]
  split
  · rename_i h
    rw [h]
  · rfl

@[simp] theorem cacheOf_free : (ext4EsFreeExtent sb i es).cacheOf j = sb.cacheOf j := by
  simp only [cacheOf, inodes_free]
  split
  · rename_i h
    rw [h]
  · rfl

@[simp] theorem nextAddr_free : (ext4EsFreeExtent sb i es).nextAddr = sb.nextAddr := by
  unfold ext4EsFreeExtent
  split
  · rfl
  · simp only
    split
    · unfold ext4EsListDel
      split <;> rfl
    · rfl

end

variable (lblk len : Nat) (pblk : Fsblk)

@[simp] theorem alloc_fst :
    (ext4EsAllocExtent sb i lblk len pblk).1 = ⟨sb.nextAddr, lblk, len, pblk⟩ := rfl

theorem inodes_alloc :
    (ext4EsAllocExtent sb i lblk len pblk).2.inodes j =
      if j = i then
        { sb.inodes i with
          iEsAllNr := (sb.inodes i).iEsAllNr + 1,
          iEsShkNr := (sb.inodes i).iEsShkNr + shkOne ⟨sb.nextAddr, lblk, len, pblk⟩ }
      else sb.inodes j := by
  unfold ext4EsAllocExtent shkOne
  simp only
  cases ext4EsIsDelayed ⟨sb.nextAddr, lblk, len, pblk⟩ with
  | true =>
    simp only [if_true, inodes_setInode]
    split <;> rfl
  | false =>
    simp only [Bool.false_eq_true, if_false]
    split
    · unfold ext4EsListAdd
      split <;> simp only [inodes_setInode, if_true] <;> split <;> rfl
    · simp only [inodes_setInode, if_true]
      split <;> rfl

omit lblk len pblk in
theorem list_listAdd : (ext4EsListAdd sb i).sEsList
    = if i ∉ sb.sEsList then sb.sEsList ++ [i] else sb.sEsList := by
  unfold ext4EsListAdd
  split <;> rfl

omit lblk len pblk in
theorem nr_listAdd (hnr : sb.sEsNrInode = sb.sEsList.length) :
    (ext4EsListAdd sb i).sEsNrInode = (ext4EsListAdd sb i).sEsList.length := by
  unfold ext4EsListAdd
  split
  · exact hnr
  · show sb.sEsNrInode + 1 = (sb.sEsList ++ [i]).length
    rw [hnr, List.length_append]
    rfl

theorem list_alloc :
    (ext4EsAllocExtent sb i lblk len pblk).2.sEsList =
      if shkOne ⟨sb.nextAddr, lblk, len, pblk⟩ = 1 ∧ (sb.inodes i).iEsShkNr = 0
        ∧ i ∉ sb.sEsList then sb.sEsList ++ [i]
      else sb.sEsList := by
  unfold ext4EsAllocExtent shkOne
  simp only
  cases ext4EsIsDelayed ⟨sb.nextAddr, lblk, len, pblk⟩ with
  | true => simp [setInode]
  | false =>
    simp only [Bool.false_eq_true, if_false, true_and]
    by_cases h0 : (sb.inodes i).iEsShkNr = 0
    · simp only [h0, true_and, if_true]
      exact list_listAdd _ i
    · simp [setInode, h0]

theorem nr_alloc (hnr : sb.sEsNrInode = sb.sEsList.length) :
    (ext4EsAllocExtent sb i lblk len pblk).2.sEsNrInode =
      (ext4EsAllocExtent sb i lblk len pblk).2.sEsList.length := by
  unfold ext4EsAllocExtent
  simp only
  split
  · exact hnr
  · split
    · exact nr_listAdd _ _ hnr
    · exact hnr

@[simp] theorem root_alloc : (ext4EsAllocExtent sb i lblk len pblk).2.root j = sb.root j := by
  simp only [root, inodes_alloc]
  split
  · rename_i h
    rw [h]
  · rfl

@[simp] theorem nextAddr_alloc :
    (ext4EsAllocExtent sb i lblk len pblk).2.nextAddr = sb.nextAddr + 1 := by
  unfold ext4EsAllocExtent
  simp only
  split
  · rfl
  · split
    · unfold ext4EsListAdd
      split <;> rfl
    · rfl

end Projections

/-! ## Edits that keep the accounts -/

section Edits

variable {sb : Ext4SbInfo} {i : Nat}

theorem Acct.setInode (h : Acct sb) (hall : ei.iEsAllNr = ei.iEsTree.root.length)
    (hshk : ei.iEsShkNr = shkCount ei.iEsTree.root)
    (hsame : ei.iEsShkNr = (sb.inodes i).iEsShkNr) : Acct (sb.setInode i ei) where
  all := fun j => by
    rw [Ext4SbInfo.root, inodes_setInode]
    split
    · exact hall
    · exact h.all j
  shk := fun j => by
    rw [Ext4SbInfo.root, inodes_setInode]
    split
    · exact hshk
    · exact h.shk j
  listed := fun j => by
    rw [setInode_congr sb i j (fun ei => ei.iEsShkNr) hsame]
    exact h.listed j
  nodup := h.nodup
  nr := h.nr

theorem Acct.setCache (h : Acct sb) (a : Option Nat) : Acct (sb.setCache i a) :=
  h.setInode (h.all i) (h.shk i) rfl

theorem Acct.setShrinkLblk (h : Acct sb) (b : Nat) : Acct (sb.setShrinkLblk i b) :=
  h.setInode (h.all i) (h.shk i) rfl

variable {l : List ExtentStatus}

/-- Editing an entry in place keeps the accounts as long as its type stays. -/
theorem Acct.replace (h : Acct sb) {b a : List ExtentStatus} {es es' : ExtentStatus}
    (hroot : sb.root i = b ++ es :: a) (htype : ext4EsType es' = ext4EsType es) :
    Acct (sb.setRoot i (b ++ es' :: a)) := by
  refine h.setInode ((h.all i).trans ?_) ((h.shk i).trans ?_) rfl
  · rw [hroot]
    simp
  · rw [hroot, shkCount_append, shkCount_append, shkCount_cons, shkCount_cons, shkOne_congr htype]

theorem Acct.free (h : Acct sb) {es : ExtentStatus} (hlen : (sb.root i).length = l.length + 1)
    (hshk : shkCount (sb.root i) = shkCount l + shkOne es) :
    Acct (ext4EsFreeExtent (sb.setRoot i l) i es) := by
  have hin : (sb.setRoot i l).inodes i =
      { sb.inodes i with iEsTree := { (sb.inodes i).iEsTree with root := l } } := by
    rw [Ext4SbInfo.setRoot, inodes_setInode, if_pos rfl]
  have hall := h.all i
  have hshk' := h.shk i
  have hlist : (sb.setRoot i l).sEsList = sb.sEsList := rfl
  have hone : shkOne es = 0 ∨ shkOne es = 1 := by exact shkOne_cases es
  refine ⟨fun j => ?_, fun j => ?_, fun j => ?_, ?_, nr_free _ _ _ h.nr⟩
  · rw [root_free, root_setRoot, inodes_free, hin]
    split
    · simp only
      omega
    · rename_i hj
      rw [Ext4SbInfo.setRoot, inodes_setInode, if_neg hj]
      exact h.all j
  · rw [root_free, root_setRoot, inodes_free, hin]
    split
    · simp only
      omega
    · rename_i hj
      rw [Ext4SbInfo.setRoot, inodes_setInode, if_neg hj]
      exact h.shk j
  · rw [list_free, inodes_free, hin, hlist]
    by_cases hj : j = i
    · subst hj
      rw [if_pos rfl]
      simp only
      split
      · simp only [h.nodup.mem_erase_iff, ne_eq, not_true_eq_false, false_and, false_iff]
        omega
      · rw [h.listed j]
        omega
    · rw [if_neg hj, Ext4SbInfo.setRoot, inodes_setInode, if_neg hj, ← h.listed j]
      split
      · exact List.mem_erase_of_ne hj
      · exact Iff.rfl
  · rw [list_free, hlist]
    split
    · exact h.nodup.erase i
    · exact h.nodup

theorem Acct.alloc (h : Acct sb) {lblk len : Nat} {pblk : Fsblk}
    (hlen : l.length = (sb.root i).length + 1)
    (hshk : shkCount l = shkCount (sb.root i) + shkOne ⟨sb.nextAddr, lblk, len, pblk⟩) :
    Acct ((ext4EsAllocExtent sb i lblk len pblk).2.setRoot i l) := by
  have hall := h.all i
  have hshk' := h.shk i
  have hone : shkOne ⟨sb.nextAddr, lblk, len, pblk⟩ = 0
      ∨ shkOne ⟨sb.nextAddr, lblk, len, pblk⟩ = 1 := shkOne_cases _
  have hmem := h.listed i
  refine ⟨fun j => ?_, fun j => ?_, fun j => ?_, ?_, nr_alloc _ _ _ _ _ h.nr⟩
  · rw [root_setRoot, Ext4SbInfo.setRoot, inodes_setInode]
    split
    · rw [inodes_alloc, if_pos rfl]
      dsimp only
      omega
    · rename_i hj
      rw [inodes_alloc, if_neg hj, root_alloc]
      exact h.all j
  · rw [root_setRoot, Ext4SbInfo.setRoot, inodes_setInode]
    split
    · rw [inodes_alloc, if_pos rfl]
      dsimp only
      omega
    · rename_i hj
      rw [inodes_alloc, if_neg hj, root_alloc]
      exact h.shk j
  · change j ∈ (ext4EsAllocExtent sb i lblk len pblk).2.sEsList ↔ _
    rw [Ext4SbInfo.setRoot, inodes_setInode, list_alloc]
    by_cases hj : j = i
    · subst hj
      rw [if_pos rfl]
      rw [inodes_alloc, if_pos rfl]
      dsimp only
      split
      · exact iff_of_true (by simp) (by omega)
      · rename_i hz
        rw [hmem]
        rcases hone with h1 | h1
        · rw [h1, Nat.add_zero]
        · have hpos : 0 < (sb.inodes j).iEsShkNr := by
            by_contra h0
            exact hz ⟨h1, by omega, fun hm => h0 (hmem.mp hm)⟩
          exact iff_of_true hpos (by omega)
    · rw [if_neg hj, inodes_alloc, if_neg hj, ← h.listed j]
      split
      · simp [hj]
      · exact Iff.rfl
  · change (ext4EsAllocExtent sb i lblk len pblk).2.sEsList.Nodup
    rw [list_alloc]
    split
    · rename_i hz
      rw [List.nodup_append]
      refine ⟨h.nodup, by simp, ?_⟩
      intro a ha b hb hab
      rw [List.mem_singleton] at hb
      exact hz.2.2 (by rw [← hb, ← hab]; exact ha)
    · exact h.nodup

end Edits

end Ext4.ExtentsStatus
