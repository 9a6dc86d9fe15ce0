import Ext4.Mballoc.FreedList
import Mathlib.Data.List.TakeWhile

/-!
# Multiblock allocator — the invariant of the freed data

Between the lock sections the list, the trees and the buddies agree: what
is pending is used in the buddy and free on disk, the list is ordered by
transaction and `s_mb_free_pending` counts the pending clusters.
-/

namespace Ext4.Mballoc

open Bitmap Dyadic SearchTree

variable (geo : Geometry)

/-- The state between two sections. `cut` are the entries the callback of
transaction `committed` has still to return; the later transactions up to
`running` have not committed. -/
structure FdInv (sb : Ext4SbInfo) (cut : List Ext4FreeData) (committed running : Nat) : Prop where
  canon : ∀ g, Canon geo (sb.groups g).e4b
  sound : ∀ g, (sb.groups g).e4b.bdInfo.bbitmapCorrupt = false
  sorted : ∀ g, (sb.groups g).bbFreeRoot.Pairwise Apart
  mem : ∀ g e, e ∈ (sb.groups g).bbFreeRoot ↔
    (e ∈ cut ∨ e ∈ sb.sFreedDataList) ∧ e.efdGroup = g
  nodup : (cut ++ sb.sFreedDataList).Nodup
  pos : ∀ e, e ∈ cut ∨ e ∈ sb.sFreedDataList → 0 < e.efdCount
  order : sb.sFreedDataList.Pairwise (fun x y => x.efdTid ≤ y.efdTid)
  window : ∀ e ∈ sb.sFreedDataList, committed < e.efdTid ∧ e.efdTid ≤ running
  cutTid : ∀ e ∈ cut, e.efdTid = committed
  lt : committed < running
  held : ∀ g c t, (g, c, t) ∈ cellsOf (cut ++ sb.sFreedDataList) → c < geo.clustersPerGroup ∧
    (sb.groups g).e4b.bdBitmap c = true ∧ (sb.groups g).bitmapBh c = false
  disk : ∀ g c, (sb.groups g).bitmapBh c = true → (sb.groups g).e4b.bdBitmap c = true
  pending : sb.sMbFreePending = ((cellsOf (cut ++ sb.sFreedDataList)).length : Int)

variable {geo}

theorem groups_setGroup (sb : Ext4SbInfo) (g g' : Nat) (grp : GroupState) :
    (sb.setGroup g grp).groups g' = if g' = g then grp else sb.groups g' :=
  Function.update_apply ..

theorem cellsOf_append (l l' : List Ext4FreeData) : cellsOf (l ++ l') = cellsOf l ++ cellsOf l' :=
  List.flatMap_append

@[simp] theorem length_cells (e : Ext4FreeData) : e.cells.length = e.efdCount := by
  simp [Ext4FreeData.cells]

variable {e x y : Ext4FreeData}

theorem apart_of_disjoint (hx : 0 < x.efdCount) (hy : 0 < y.efdCount)
    (h : ∀ c, x.efdStartCluster ≤ c → c < x.efdStartCluster + x.efdCount →
      y.efdStartCluster ≤ c → ¬ c < y.efdStartCluster + y.efdCount) : Apart x y ∨ Apart y x := by
  unfold Apart
  have h1 := h x.efdStartCluster (by omega) (by omega)
  have h2 := h y.efdStartCluster
  omega

section Link

variable {sb : Ext4SbInfo} {cut : List Ext4FreeData} {committed running : Nat}
  {new : Ext4FreeData}

theorem Linking.linked {list : List Ext4FreeData} {z : Zip Ext4FreeData}
    (hL : Linking cut sb.sFreedDataList new list z) (h : FdInv geo sb cut committed running)
    (htid : new.efdTid = running)
    (hnew : ∀ c, new.efdStartCluster ≤ c → c < new.efdStartCluster + new.efdCount →
      c < geo.clustersPerGroup ∧ (sb.groups new.efdGroup).e4b.bdBitmap c = true ∧
        (sb.groups new.efdGroup).bitmapBh c = false)
    {sb' : Ext4SbInfo} (hlist : sb'.sFreedDataList = list ++ [z.cur])
    (hpending : sb'.sMbFreePending = sb.sMbFreePending + new.efdCount)
    (hroot : ∀ g, (sb'.groups g).bbFreeRoot
      = if g = new.efdGroup then z.toList else (sb.groups g).bbFreeRoot)
    (he4b : ∀ g, (sb'.groups g).e4b = (sb.groups g).e4b)
    (hbh : ∀ g, (sb'.groups g).bitmapBh = (sb.groups g).bitmapBh) :
    FdInv geo sb' cut committed running ∧
      (cellsOf sb'.sFreedDataList).Perm (cellsOf sb.sFreedDataList ++ new.cells) := by
  have hone : cellsOf [z.cur] = z.cur.cells := by simp [cellsOf]
  have hcells : (cellsOf sb'.sFreedDataList).Perm (cellsOf sb.sFreedDataList ++ new.cells) := by
    rw [hlist, cellsOf_append, hone]
    exact hL.cells
  have hall : (cellsOf (cut ++ sb'.sFreedDataList)).Perm
      (cellsOf (cut ++ sb.sFreedDataList) ++ new.cells) := by
    rw [cellsOf_append, cellsOf_append, List.append_assoc]
    exact hcells.append_left _
  have hnotin : ¬ (z.cur ∈ cut ∨ z.cur ∈ list) := by
    intro hc
    have hs := hL.sorted
    have hp := hL.pos _ z.cur_mem
    rw [Zip.toList, List.pairwise_append, List.pairwise_cons] at hs
    rcases (hL.mem _).mpr ⟨hc, hL.group⟩ with hc | hc
    · have := hs.2.2 _ hc z.cur (by simp)
      unfold Apart at this
      omega
    · have hap := hs.2.1.1 _ hc
      unfold Apart at hap
      omega
  have hmem : ∀ e, e ∈ sb'.sFreedDataList ↔ e ∈ list ∨ e = z.cur := by
    intro e
    rw [hlist, List.mem_append, List.mem_singleton]
  refine ⟨⟨fun g => ?_, fun g => ?_, fun g => ?_, fun g e => ?_, ?_, fun e he => ?_, ?_,
    fun e he => ?_, h.cutTid, h.lt, fun g c t hc => ?_, fun g c hc => ?_, ?_⟩, hcells⟩
  · rw [he4b]
    exact h.canon g
  · rw [he4b]
    exact h.sound g
  · rw [hroot]
    split
    · exact hL.sorted
    · exact h.sorted g
  · rw [hroot, hmem]
    by_cases hg : g = new.efdGroup
    · subst hg
      rw [if_pos rfl, Zip.toList, List.mem_append, List.mem_cons]
      constructor
      · rintro (he | rfl | he)
        · exact ⟨((hL.mem e).mp (.inl he)).1.imp_right .inl, ((hL.mem e).mp (.inl he)).2⟩
        · exact ⟨.inr (.inr rfl), hL.group⟩
        · exact ⟨((hL.mem e).mp (.inr he)).1.imp_right .inl, ((hL.mem e).mp (.inr he)).2⟩
      · rintro ⟨he | he | he, hg⟩
        · exact ((hL.mem e).mpr ⟨.inl he, hg⟩).imp_right .inr
        · exact ((hL.mem e).mpr ⟨.inr he, hg⟩).imp_right .inr
        · exact .inr (.inl he)
    · rw [if_neg hg, h.mem]
      refine and_congr_left fun heg => or_congr_right ?_
      rw [hL.others e (by rw [heg]; exact hg)]
      exact (or_iff_left fun hc => hg (by rw [← heg, hc, hL.group])).symm
  · rw [hlist, ← List.append_assoc, List.nodup_append]
    refine ⟨hL.nodup, List.nodup_singleton _, fun x hx y hy hxy => hnotin ?_⟩
    rw [← List.mem_singleton.mp hy, ← hxy]
    exact List.mem_append.mp hx
  · rw [hmem] at he
    rcases he with he | he | he
    · exact h.pos e (.inl he)
    · exact h.pos e (.inr (hL.sub.mem he))
    · rw [he]
      exact hL.pos _ z.cur_mem
  · rw [hlist, List.pairwise_append]
    refine ⟨h.order.sublist hL.sub, List.pairwise_singleton _ _, fun x hx y hy => ?_⟩
    rw [List.mem_singleton.mp hy, hL.tid, htid]
    exact (h.window x (hL.sub.mem hx)).2
  · rcases (hmem e).mp he with he | he
    · exact h.window e (hL.sub.mem he)
    · rw [he, hL.tid, htid]
      exact ⟨h.lt, Nat.le_refl _⟩
  · rw [he4b, hbh]
    rcases List.mem_append.mp (hall.mem_iff.mp hc) with hc | hc
    · exact h.held g c t hc
    · obtain ⟨rfl, -, h1, h2⟩ := mem_cells.mp hc
      exact hnew c h1 h2
  · rw [he4b]
    rw [hbh] at hc
    exact h.disk g c hc
  · rw [hpending, hall.length_eq, h.pending, List.length_append, length_cells]
    push_cast
    rfl

/-- **`ext4_mb_free_metadata` adds the cells of its entry and no others**,
whatever it merges. -/
theorem ext4MbFreeMetadata_spec (rb : Shape Ext4FreeData) (new : Ext4FreeData)
    (h : FdInv geo sb cut committed running) (htid : new.efdTid = running) (hpos : 0 < new.efdCount)
    (hnew : ∀ c, new.efdStartCluster ≤ c → c < new.efdStartCluster + new.efdCount →
      (c < geo.clustersPerGroup ∧ (sb.groups new.efdGroup).e4b.bdBitmap c = true ∧
        (sb.groups new.efdGroup).bitmapBh c = false) ∧
      ∀ t, (new.efdGroup, c, t) ∉ cellsOf (cut ++ sb.sFreedDataList)) :
    FdInv geo (ext4MbFreeMetadata rb sb new) cut committed running ∧
      (cellsOf (ext4MbFreeMetadata rb sb new).sFreedDataList).Perm
        (cellsOf sb.sFreedDataList ++ new.cells) ∧
      ∀ g, ((ext4MbFreeMetadata rb sb new).groups g).e4b = (sb.groups g).e4b ∧
        ((ext4MbFreeMetadata rb sb new).groups g).bitmapBh = (sb.groups g).bitmapBh := by
  have hroot : ∀ e ∈ (sb.groups new.efdGroup).bbFreeRoot, 0 < e.efdCount := fun e he =>
    h.pos e ((h.mem _ e).mp he).1
  have hclear : ∀ e ∈ (sb.groups new.efdGroup).bbFreeRoot, Apart e new ∨ Apart new e := by
    intro e he
    refine apart_of_disjoint (hroot e he) hpos fun c h1 h2 h3 h4 => ?_
    refine (hnew c h3 h4).2 e.efdTid (mem_cellsOf.mpr ⟨e, ?_, mem_cells.mpr ⟨?_, rfl, h1, h2⟩⟩)
    · exact List.mem_append.mpr ((h.mem _ e).mp he).1
    · exact ((h.mem _ e).mp he).2.symm
  obtain ⟨z0, hlink, hcur, hrest, hsorted⟩ := linkEntry_spec rb (h.sorted _) hroot hpos hclear
  have hcut : ∀ e ∈ cut, e.efdTid ≠ new.efdTid := fun e he => by
    have := h.cutTid e he
    have := h.lt
    omega
  have hL0 : Linking cut sb.sFreedDataList new sb.sFreedDataList z0 := by
    refine ⟨hsorted, fun e he => ?_, fun e => ?_, fun _ _ => Iff.rfl, h.nodup, List.Sublist.refl _,
      by rw [hcur], by rw [hcur], by rw [hcur]⟩
    · rw [Zip.toList, List.mem_append, List.mem_cons, hcur] at he
      rcases he with he | rfl | he
      · exact hroot e (hrest ▸ List.mem_append_left _ he)
      · exact hpos
      · exact hroot e (hrest ▸ List.mem_append_right _ he)
    · rw [← h.mem, ← hrest, List.mem_append]
  have hL := (hL0.mergePrev hcut).mergeNext hcut
  have hgroups : ∀ g, ((ext4MbFreeMetadata rb sb new).groups g)
      = if g = new.efdGroup then { sb.groups g with
          bbFreeRoot := (mergeNext (mergePrev sb.sFreedDataList z0).1
            (mergePrev sb.sFreedDataList z0).2).2.toList }
        else sb.groups g := by
    intro g
    rw [ext4MbFreeMetadata, hlink]
    dsimp only
    rw [groups_setGroup]
    by_cases hg : g = new.efdGroup
    · rw [if_pos hg, if_pos hg, hg]
    · rw [if_neg hg, if_neg hg]
  have he4b : ∀ g, ((ext4MbFreeMetadata rb sb new).groups g).e4b = (sb.groups g).e4b := by
    intro g
    rw [hgroups]
    split <;> rfl
  have hbh : ∀ g, ((ext4MbFreeMetadata rb sb new).groups g).bitmapBh = (sb.groups g).bitmapBh := by
    intro g
    rw [hgroups]
    split <;> rfl
  obtain ⟨hinv, hcells⟩ := hL.linked h htid (fun c h1 h2 => (hnew c h1 h2).1)
    (show (ext4MbFreeMetadata rb sb new).sFreedDataList = _ by rw [ext4MbFreeMetadata, hlink])
    (by rw [ext4MbFreeMetadata, hlink])
    (fun g => by rw [hgroups]; split <;> rfl) he4b hbh
  exact ⟨hinv, hcells, fun g => ⟨he4b g, hbh g⟩⟩

end Link

/-! ## The sections -/

section Steps

variable {sb sb' : Ext4SbInfo} {cut : List Ext4FreeData} {committed running : Nat}

section

variable (h : FdInv geo sb cut committed running)

include h

theorem FdInv.setBits {g : Nat} {e4b : Ext4Buddy} {bh : Bits} (hcanon : Canon geo e4b)
    (hsound : e4b.bdInfo.bbitmapCorrupt = false)
    (hheld : ∀ c, (sb.groups g).e4b.bdBitmap c = true → (sb.groups g).bitmapBh c = false → (∃ t, (g,
      c, t) ∈ cellsOf (cut ++ sb.sFreedDataList)) → e4b.bdBitmap c = true ∧ bh c = false)
    (hdisk : ∀ c, bh c = true → e4b.bdBitmap c = true) :
    FdInv geo (sb.setGroup g { sb.groups g with e4b := e4b, bitmapBh := bh }) cut
      committed running where
  canon := fun g' => by
    rw [groups_setGroup]
    split
    · exact hcanon
    · exact h.canon g'
  sound := fun g' => by
    rw [groups_setGroup]
    split
    · exact hsound
    · exact h.sound g'
  sorted := fun g' => by
    rw [groups_setGroup]
    split
    · exact h.sorted g
    · exact h.sorted g'
  mem := fun g' e => by
    rw [groups_setGroup]
    split
    · rename_i hg
      rw [hg]
      exact h.mem g e
    · exact h.mem g' e
  nodup := h.nodup
  pos := h.pos
  order := h.order
  window := h.window
  cutTid := h.cutTid
  lt := h.lt
  held := fun g' c t hc => by
    obtain ⟨hlt, hb, hd⟩ := h.held g' c t hc
    rw [groups_setGroup]
    split
    · rename_i hg
      subst hg
      exact ⟨hlt, hheld c hb hd ⟨t, hc⟩⟩
    · exact ⟨hlt, hb, hd⟩
  disk := fun g' c hc => by
    rw [groups_setGroup] at hc ⊢
    split at hc
    · rename_i hg
      rw [if_pos hg]
      exact hdisk c hc
    · rename_i hg
      rw [if_neg hg]
      exact h.disk g' c hc
  pending := h.pending

/-- The entry that covers a pending cluster of a group is unique. -/
theorem FdInv.eq_of_mem {c : Nat} (hx : x ∈ cut ∨ x ∈ sb.sFreedDataList)
    (hy : y ∈ cut ∨ y ∈ sb.sFreedDataList) (hg : x.efdGroup = y.efdGroup)
    (hcx : x.efdStartCluster ≤ c ∧ c < x.efdStartCluster + x.efdCount)
    (hcy : y.efdStartCluster ≤ c ∧ c < y.efdStartCluster + y.efdCount) : x = y := by
  by_contra hne
  have hpair := (h.sorted y.efdGroup).imp (S := fun x y => Apart x y ∨ Apart y x) .inl
  have : Std.Symm (fun x y => Apart x y ∨ Apart y x) := ⟨fun _ _ hxy => hxy.symm⟩
  have := hpair.forall ((h.mem _ x).mpr ⟨hx, hg⟩) ((h.mem _ y).mpr ⟨hy, rfl⟩) hne
  unfold Apart at this
  omega

theorem FdInv.cells_nodup : (cellsOf (cut ++ sb.sFreedDataList)).Nodup := by
  refine List.nodup_flatMap.mpr ⟨fun e _ => ?_, h.nodup.imp_of_mem fun {x y} hx hy hne => ?_⟩
  · refine List.Nodup.map (fun c c' hc => ?_) List.nodup_range'
    exact (Prod.mk.inj (Prod.mk.inj hc).2).1
  · rintro ⟨g, c, t⟩ hcx hcy
    obtain ⟨hgx, -, h1, h2⟩ := mem_cells.mp hcx
    obtain ⟨hgy, -, h3, h4⟩ := mem_cells.mp hcy
    exact hne (h.eq_of_mem (List.mem_append.mp hx) (List.mem_append.mp hy) (hgx.symm.trans hgy)
      ⟨h1, h2⟩ ⟨h3, h4⟩)

theorem FdInv.root_nodup (g : Nat) : (sb.groups g).bbFreeRoot.Nodup := by
  refine (h.sorted g).imp_of_mem fun {x y} hx _ hxy heq => ?_
  have := h.pos x ((h.mem g x).mp hx).1
  rw [← heq] at hxy
  unfold Apart at hxy
  omega

end

/-- In a list ordered by transaction, nothing of the oldest one stands
behind the cut. -/
theorem lt_of_mem_dropWhile {l : List Ext4FreeData} {tid : Nat}
    (horder : l.Pairwise (fun x y => x.efdTid ≤ y.efdTid)) (hle : ∀ e ∈ l, tid ≤ e.efdTid)
    (he : e ∈ l.dropWhile (fun e => e.efdTid = tid)) : tid < e.efdTid := by
  induction l with
  | nil => simp at he
  | cons x l ih =>
    rw [List.pairwise_cons] at horder
    by_cases hx : x.efdTid = tid
    · rw [List.dropWhile_cons_of_pos (by simp [hx])] at he
      exact ih horder.2 (fun e he => hle e (List.mem_cons_of_mem _ he)) he
    · rw [List.dropWhile_cons_of_neg (by simp [hx])] at he
      have hlt : tid < x.efdTid := Nat.lt_of_le_of_ne (hle x (by simp)) (Ne.symm hx)
      rcases List.mem_cons.mp he with rfl | he
      · exact hlt
      · exact Nat.lt_of_lt_of_le hlt (horder.1 e he)

/-- The cut takes off exactly what transaction `committed + 1` has freed. -/
theorem cutFreedData_spec (h : FdInv geo sb [] committed running) (hlt : committed + 1 < running) :
    FdInv geo (cutFreedData sb (committed + 1)).2 (cutFreedData sb (committed + 1)).1
      (committed + 1) running ∧
      (cutFreedData sb (committed + 1)).1 ++ (cutFreedData sb (committed + 1)).2.sFreedDataList
        = sb.sFreedDataList := by
  have happ :
    (cutFreedData sb (committed + 1)).1 ++ (cutFreedData sb (committed + 1)).2.sFreedDataList
      = sb.sFreedDataList := List.takeWhile_append_dropWhile
  have hmem : ∀ e, (e ∈ (cutFreedData sb (committed + 1)).1 ∨
      e ∈ (cutFreedData sb (committed + 1)).2.sFreedDataList) ↔ e ∈ sb.sFreedDataList := by
    intro e
    rw [← List.mem_append, happ]
  have hsub : (cutFreedData sb (committed + 1)).2.sFreedDataList.Sublist sb.sFreedDataList :=
    List.dropWhile_sublist _
  refine ⟨⟨h.canon, h.sound, h.sorted, fun g e => ?_, ?_, fun e he => ?_, h.order.sublist hsub,
    fun e he => ⟨?_, (h.window e (hsub.mem he)).2⟩, fun e he => ?_, hlt, ?_, h.disk, ?_⟩, happ⟩
  · rw [hmem]
    have := h.mem g e
    simp only [List.not_mem_nil, false_or] at this
    exact this
  · rw [happ]
    exact h.nodup
  · exact h.pos e (.inr ((hmem e).mp he))
  · exact lt_of_mem_dropWhile h.order (fun x hx => (h.window x hx).1) he
  · have := List.mem_takeWhile_imp (p := fun e : Ext4FreeData => decide (e.efdTid = committed + 1))
      he
    simpa using this
  · rw [happ]
    exact h.held
  · rw [happ]
    exact h.pending

/-- `ext4_free_data_in_buddy` returns the clusters of its entry, which were
used up to now. -/
theorem ext4FreeDataInBuddy_spec {rest : List Ext4FreeData}
    (h : FdInv geo sb (e :: rest) committed running) :
    ∃ sb', ext4FreeDataInBuddy geo sb e = some sb' ∧ FdInv geo sb' rest committed running ∧
      sb'.sFreedDataList = sb.sFreedDataList ∧
      (∀ g, (sb'.groups g).bitmapBh = (sb.groups g).bitmapBh ∧ ∀ c,
        (sb'.groups g).e4b.bdBitmap c
          = if g = e.efdGroup ∧ e.efdStartCluster ≤ c ∧ c < e.efdStartCluster + e.efdCount
            then false else (sb.groups g).e4b.bdBitmap c) ∧
      ∀ g c t, (g, c, t) ∈ e.cells →
        (sb.groups g).e4b.bdBitmap c = true ∧ (sb'.groups g).e4b.bdBitmap c = false := by
  have hpos : 0 < e.efdCount := h.pos e (.inl (by simp))
  have hheld : ∀ c, InRange e.efdStartCluster e.efdCount c → c < geo.clustersPerGroup ∧
      (sb.groups e.efdGroup).e4b.bdBitmap c = true ∧ (sb.groups e.efdGroup).bitmapBh c = false := by
    intro c hc
    refine h.held e.efdGroup c e.efdTid (mem_cellsOf.mpr ⟨e, by simp, ?_⟩)
    exact mem_cells.mpr ⟨rfl, rfl, hc.1, hc.2⟩
  have hle : e.efdStartCluster + e.efdCount ≤ geo.clustersPerGroup := by
    have := (hheld (e.efdStartCluster + e.efdCount - 1) ⟨by omega, by omega⟩).1
    omega
  obtain ⟨e4b, hfree, hcanon, hbm, hsound⟩ := mbFreeBlocks_used (h.canon e.efdGroup) hpos hle
    (h.sound e.efdGroup) fun c hc => (hheld c hc).2.1
  have hnd : e ∉ rest ∧ e ∉ sb.sFreedDataList := by
    have := h.nodup
    rw [List.cons_append, List.nodup_cons, List.mem_append] at this
    exact ⟨fun hc => this.1 (.inl hc), fun hc => this.1 (.inr hc)⟩
  have hdis : ∀ x, x ∈ rest ∨ x ∈ sb.sFreedDataList → x.efdGroup = e.efdGroup → ∀ c,
      x.efdStartCluster ≤ c → c < x.efdStartCluster + x.efdCount →
      ¬ (e.efdStartCluster ≤ c ∧ c < e.efdStartCluster + e.efdCount) := by
    intro x hx hg c h1 h2 hc
    have := h.eq_of_mem (hx.imp_left (List.mem_cons_of_mem _)) (.inl (by simp)) hg ⟨h1, h2⟩ hc
    rw [this] at hx
    exact hx.elim hnd.1 hnd.2
  obtain ⟨sb', heq, hlist, hpend, hgroups⟩ : ∃ sb', ext4FreeDataInBuddy geo sb e = some sb' ∧
      sb'.sFreedDataList = sb.sFreedDataList ∧
      sb'.sMbFreePending = sb.sMbFreePending - e.efdCount ∧
      ∀ g, sb'.groups g = if g = e.efdGroup then
        { sb.groups g with e4b := e4b, bbFreeRoot := (sb.groups g).bbFreeRoot.erase e }
        else sb.groups g := by
    rw [ext4FreeDataInBuddy, hfree]
    refine ⟨_, rfl, rfl, rfl, fun g => ?_⟩
    dsimp only
    rw [groups_setGroup]
    by_cases hg : g = e.efdGroup
    · rw [if_pos hg, if_pos hg, hg]
    · rw [if_neg hg, if_neg hg]
  have hbits : ∀ g c, (sb'.groups g).e4b.bdBitmap c
      = if g = e.efdGroup ∧ e.efdStartCluster ≤ c ∧ c < e.efdStartCluster + e.efdCount then false
        else (sb.groups g).e4b.bdBitmap c := by
    intro g c
    rw [hgroups]
    by_cases hg : g = e.efdGroup
    · subst hg
      rw [if_pos rfl]
      dsimp only
      rw [hbm]
      by_cases hc : e.efdStartCluster ≤ c ∧ c < e.efdStartCluster + e.efdCount
      · rw [fill_in hc, if_pos ⟨rfl, hc⟩]
      · rw [fill_out hc, if_neg fun hc' => hc hc'.2]
    · rw [if_neg hg, if_neg fun hc => hg hc.1]
  have hbh : ∀ g, (sb'.groups g).bitmapBh = (sb.groups g).bitmapBh := by
    intro g
    rw [hgroups]
    split <;> rfl
  refine ⟨sb', heq, ⟨fun g => ?_, fun g => ?_, fun g => ?_, fun g x => ?_, ?_, fun x hx => ?_,
    by rw [hlist]; exact h.order, by rw [hlist]; exact h.window,
    fun x hx => h.cutTid x (List.mem_cons_of_mem _ hx), h.lt, fun g c t hc => ?_,
    fun g c hc => ?_, ?_⟩, hlist, fun g => ⟨hbh g, hbits g⟩, fun g c t hc => ?_⟩
  · rw [hgroups]
    split
    · exact hcanon
    · exact h.canon g
  · rw [hgroups]
    split
    · exact hsound
    · exact h.sound g
  · rw [hgroups]
    split
    · exact (h.sorted g).sublist List.erase_sublist
    · exact h.sorted g
  · rw [hgroups, hlist]
    have hm := h.mem g x
    rw [List.mem_cons] at hm
    split
    · dsimp only
      rw [(h.root_nodup g).mem_erase_iff, hm]
      constructor
      · rintro ⟨hne, (hx | hx) | hx, hg⟩
        · exact absurd hx hne
        · exact ⟨.inl hx, hg⟩
        · exact ⟨.inr hx, hg⟩
      · rintro ⟨hx | hx, hg⟩
        · exact ⟨fun heq => hnd.1 (heq ▸ hx), .inl (.inr hx), hg⟩
        · exact ⟨fun heq => hnd.2 (heq ▸ hx), .inr hx, hg⟩
    · rename_i hg
      rw [hm]
      refine and_congr_left fun hxg => or_congr_left (or_iff_right ?_)
      rintro rfl
      exact hg hxg.symm
  · rw [hlist]
    have := h.nodup
    rw [List.cons_append, List.nodup_cons] at this
    exact this.2
  · rw [hlist] at hx
    exact h.pos x (hx.imp_left (List.mem_cons_of_mem _))
  · rw [hlist] at hc
    have hold := h.held g c t (by
      obtain ⟨x, hx, hcx⟩ := mem_cellsOf.mp hc
      exact mem_cellsOf.mpr ⟨x, List.mem_cons_of_mem _ hx, hcx⟩)
    rw [hbits, hbh]
    refine ⟨hold.1, ?_, hold.2.2⟩
    obtain ⟨x, hx, hcx⟩ := mem_cellsOf.mp hc
    obtain ⟨rfl, -, h1, h2⟩ := mem_cells.mp hcx
    rw [if_neg fun hc' => hdis x (List.mem_append.mp hx) hc'.1 c h1 h2 hc'.2]
    exact hold.2.1
  · rw [hbh] at hc
    rw [hbits]
    split
    · rename_i hin
      obtain ⟨rfl, hin⟩ := hin
      rw [(hheld c hin).2.2] at hc
      exact hc
    · exact h.disk g c hc
  · rw [hpend, hlist, h.pending]
    show (((e.cells ++ cellsOf (rest ++ sb.sFreedDataList)).length : Nat) : Int) - e.efdCount = _
    rw [List.length_append, length_cells]
    push_cast
    omega
  · obtain ⟨rfl, -, h1, h2⟩ := mem_cells.mp hc
    refine ⟨(hheld c ⟨h1, h2⟩).2.1, ?_⟩
    rw [hbits, if_pos ⟨rfl, h1, h2⟩]

theorem FdInv.nextTransaction (h : FdInv geo sb cut committed running) :
    FdInv geo sb cut committed (running + 1) := by
  refine ⟨h.canon, h.sound, h.sorted, h.mem, h.nodup, h.pos, h.order, fun e he => ?_, h.cutTid,
    Nat.lt_succ_of_lt h.lt, h.held, h.disk, h.pending⟩
  have := h.window e he
  exact ⟨this.1, Nat.le_succ_of_le this.2⟩

theorem FdInv.alloc (h : FdInv geo sb cut committed running) {g start len : Nat} (hlen : 0 < len)
    (hfree : ∀ c, InRange start len c → Free geo (sb.groups g).e4b.bdBitmap c) :
    ∃ ret e4b, mbMarkUsed geo (sb.groups g).e4b start len = some (ret, e4b) ∧
      FdInv geo (sb.setGroup g { sb.groups g with
        e4b := e4b, bitmapBh := fill (sb.groups g).bitmapBh start len true }) cut
        committed running := by
  obtain ⟨ret, e4b, heq, hcanon, hbm, hcorrupt⟩ := mbMarkUsed_spec (h.canon g) hlen hfree
  refine ⟨ret, e4b, heq, h.setBits hcanon (hcorrupt.trans (h.sound g)) (fun c hb hd _ => ?_)
    fun c hc => ?_⟩
  · have hout : ¬ (start ≤ c ∧ c < start + len) := fun hin => by
      have := (hfree c hin).2
      rw [hb] at this
      exact Bool.noConfusion this
    rw [hbm, fill_out hout, fill_out hout]
    exact ⟨hb, hd⟩
  · rw [hbm]
    by_cases hin : start ≤ c ∧ c < start + len
    · exact fill_in hin
    · rw [fill_out hin] at hc ⊢
      exact h.disk g c hc

section

variable {fs : FsLayout} {g bit n : Nat} (h : FdInv fs.toGeometry sb cut committed running)
  (rb : Shape Ext4FreeData) (hn : 0 < n) (hle : bit + n ≤ fs.clustersPerGroup)
  (hused : ∀ c, InRange bit n c → (sb.groups g).bitmapBh c = true)

include h rb hn hle hused

theorem FdInv.freeSection_some :
    ∃ sb', freeSection fs rb (some running) sb g bit n = some sb' ∧
      FdInv fs.toGeometry sb' cut committed running ∧
      (cellsOf sb'.sFreedDataList).Perm
        (cellsOf sb.sFreedDataList ++ Ext4FreeData.cells ⟨g, bit, n, running⟩) ∧
      ∀ g', (sb'.groups g').e4b = (sb.groups g').e4b ∧ (sb'.groups g').bitmapBh
        = if g' = g then fill (sb.groups g').bitmapBh bit n false
          else (sb.groups g').bitmapBh := by
  have hnot : ∀ c, InRange bit n c → ∀ t, (g, c, t) ∉ cellsOf (cut ++ sb.sFreedDataList) := by
    intro c hc t hmem
    have := (h.held g c t hmem).2.2
    rw [hused c hc] at this
    exact Bool.noConfusion this
  -- the clusters are free on disk first
  have hclear : FdInv fs.toGeometry (sb.setGroup g { sb.groups g with
      bitmapBh := fill (sb.groups g).bitmapBh bit n false }) cut committed running := by
    refine h.setBits (h.canon g) (h.sound g) (fun c hb hd => ?_) fun c hc => ?_
    · rintro ⟨t, hc⟩
      rw [fill_out fun hin => hnot c hin t hc]
      exact ⟨hb, hd⟩
    · by_cases hin : bit ≤ c ∧ c < bit + n
      · rw [fill_in hin] at hc
        cases hc
      · rw [fill_out hin] at hc
        exact h.disk g c hc
  obtain ⟨hinv, hcells, hsame⟩ := ext4MbFreeMetadata_spec rb ⟨g, bit, n, running⟩ hclear
    rfl hn (fun c h1 h2 => by
      refine ⟨⟨Nat.lt_of_lt_of_le h2 hle, ?_, ?_⟩, hnot c ⟨h1, h2⟩⟩
      · rw [groups_setGroup, if_pos rfl]
        exact h.disk g c (hused c ⟨h1, h2⟩)
      · rw [groups_setGroup, if_pos rfl]
        exact fill_in ⟨h1, h2⟩)
  refine ⟨_, rfl, hinv, hcells, fun g' => ?_⟩
  rw [(hsame g').1, (hsame g').2, groups_setGroup]
  by_cases hg : g' = g
  · rw [if_pos hg, if_pos hg, hg]
    exact ⟨rfl, rfl⟩
  · rw [if_neg hg, if_neg hg]
    exact ⟨rfl, rfl⟩

theorem FdInv.freeSection_none :
    ∃ sb', freeSection fs rb none sb g bit n = some sb' ∧
      FdInv fs.toGeometry sb' cut committed running ∧
      sb'.sFreedDataList = sb.sFreedDataList ∧
      ∀ g', (sb'.groups g').e4b.bdBitmap
          = (if g' = g then fill (sb.groups g').e4b.bdBitmap bit n false
            else (sb.groups g').e4b.bdBitmap) ∧
        (sb'.groups g').bitmapBh
          = if g' = g then fill (sb.groups g').bitmapBh bit n false
            else (sb.groups g').bitmapBh := by
  obtain ⟨e4b, hfree, hcanon, hbm, hsound⟩ := mbFreeBlocks_used (h.canon g) hn hle (h.sound g)
    fun c hc => h.disk g c (hused c hc)
  unfold freeSection
  dsimp only
  rw [hfree]
  refine ⟨_, rfl, h.setBits hcanon hsound (fun c hb hd _ => ?_) (fun c hc => ?_), rfl,
    fun g' => ?_⟩
  · have hout : ¬ (bit ≤ c ∧ c < bit + n) := fun hin => by
      rw [hused c hin] at hd
      exact Bool.noConfusion hd
    rw [hbm, fill_out hout, fill_out hout]
    exact ⟨hb, hd⟩
  · rw [hbm]
    by_cases hin : bit ≤ c ∧ c < bit + n
    · rw [fill_in hin] at hc
      cases hc
    · rw [fill_out hin] at hc ⊢
      exact h.disk g c hc
  · rw [groups_setGroup]
    by_cases hg : g' = g
    · rw [if_pos hg, if_pos hg, if_pos hg, hg]
      exact ⟨hbm, rfl⟩
    · rw [if_neg hg, if_neg hg, if_neg hg]
      exact ⟨rfl, rfl⟩

end

end Steps

end Ext4.Mballoc
