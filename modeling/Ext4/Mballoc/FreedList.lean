import Ext4.Mballoc.FreeBlocks
import Ext4.Mballoc.FreedData
import Mathlib.Data.List.Nodup
import Mathlib.Data.List.Perm.Basic

/-!
# Multiblock allocator — the freed-data list

An entry stands for its cells: the clusters it returns, each with its
transaction. Linking an entry and merging it with its neighbours changes
neither the cells on the list, up to their order, nor the order of the
tree.
-/

namespace Ext4.Mballoc

open Bitmap Dyadic SearchTree

/-- The clusters of an entry with its transaction. -/
def Ext4FreeData.cells (e : Ext4FreeData) : List (Nat × Nat × Nat) :=
  (List.range' e.efdStartCluster e.efdCount).map fun c => (e.efdGroup, c, e.efdTid)

/-- The cells of a list of entries. -/
def cellsOf (l : List Ext4FreeData) : List (Nat × Nat × Nat) := l.flatMap Ext4FreeData.cells

variable {e : Ext4FreeData}

theorem mem_cells {g c t : Nat} :
    (g, c, t) ∈ e.cells ↔
      g = e.efdGroup ∧ t = e.efdTid ∧ e.efdStartCluster ≤ c
        ∧ c < e.efdStartCluster + e.efdCount := by
  rw [Ext4FreeData.cells, List.mem_map]
  constructor
  · rintro ⟨d, hd, ⟨⟩⟩
    exact ⟨rfl, rfl, List.mem_range'_1.mp hd⟩
  · rintro ⟨rfl, rfl, hc⟩
    exact ⟨c, List.mem_range'_1.mpr hc, rfl⟩

theorem mem_cellsOf {l : List Ext4FreeData} {x : Nat × Nat × Nat} :
    x ∈ cellsOf l ↔ ∃ e ∈ l, x ∈ e.cells := List.mem_flatMap

/-- `x` ends in front of `y`. -/
def Apart (x y : Ext4FreeData) : Prop := x.efdStartCluster + x.efdCount ≤ y.efdStartCluster

/-! ## Linking a new entry -/

section Link

variable {root : List Ext4FreeData} {new : Ext4FreeData}

theorem freeDir_gt (hpos : 0 < e.efdCount) : Apart e new → freeDir new.efdStartCluster e = .gt := by
  intro h
  rw [Apart] at h
  rw [freeDir, if_neg (by omega), if_pos h]

theorem freeDir_lt (hnew : 0 < new.efdCount) :
    Apart new e → freeDir new.efdStartCluster e = .lt := by
  unfold Apart freeDir
  intro h
  rw [if_pos (by omega)]

theorem linkEntry_spec (rb : Shape Ext4FreeData) (hs : root.Pairwise Apart)
    (hpos : ∀ e ∈ root, 0 < e.efdCount) (hnew : 0 < new.efdCount)
    (hclear : ∀ e ∈ root, Apart e new ∨ Apart new e) :
    ∃ z, linkEntry rb root new = some z ∧ z.cur = new ∧ z.before ++ z.after = root ∧
      z.toList.Pairwise Apart := by
  have hgt : ∀ e ∈ root, freeDir new.efdStartCluster e = .gt → Apart e new := by
    intro e he hd
    refine (hclear e he).resolve_right fun h => ?_
    rw [freeDir_lt hnew h] at hd
    cases hd
  have hlt : ∀ e ∈ root, freeDir new.efdStartCluster e = .lt → Apart new e := by
    intro e he hd
    refine (hclear e he).resolve_left fun h => ?_
    rw [freeDir_gt (hpos e he) h] at hd
    cases hd
  have hdir : Directed (freeDir new.efdStartCluster) root := by
    refine hs.imp_of_mem fun {x y} hx hy hxy => ⟨fun h => ?_, fun h => ?_⟩
    · exact freeDir_lt hnew (Nat.le_trans (hlt x hx h) (Nat.le_trans (Nat.le_add_right _ _) hxy))
    · exact freeDir_gt (hpos x hx)
        (Nat.le_trans hxy (Nat.le_trans (Nat.le_add_right _ _) (hgt y hy h)))
  -- a zipper with the new entry in the gap
  have hgap : ∀ b a : List Ext4FreeData, b ++ a = root → (∀ e ∈ b, Apart e new) →
      (∀ e ∈ a, Apart new e) → (b ++ new :: a).Pairwise Apart := by
    intro b a hba hb ha
    rw [← hba, List.pairwise_append] at hs
    rw [List.pairwise_append, List.pairwise_cons]
    exact ⟨hs.1, ⟨ha, hs.2.1⟩, fun x hx => List.forall_mem_cons.mpr ⟨hb x hx, hs.2.2 x hx⟩⟩
  unfold linkEntry
  cases hw : descend (freeDir new.efdStartCluster) (rb.tree root) with
  | none => exact ⟨_, rfl, rfl, (descend_eq_none hw).symm, List.pairwise_singleton _ _⟩
  | some z =>
    have hz := descend_toList hw
    have hcur : z.cur ∈ root := hz ▸ z.cur_mem
    have hmem : ∀ e, e ∈ z.before ∨ e ∈ z.after → e ∈ root := by
      intro e he
      rw [← hz, Zip.toList, List.mem_append, List.mem_cons]
      exact he.imp_right .inr
    rcases descend_ends hdir hw with heq | ⟨hd, hb, ha⟩ | ⟨hd, hb, ha⟩
    · rcases hclear _ hcur with h | h
      · rw [freeDir_gt (hpos _ hcur) h] at heq
        cases heq
      · rw [freeDir_lt hnew h] at heq
        cases heq
    · dsimp only
      rw [hd]
      exact ⟨_, rfl, rfl, hz, hgap _ _ hz (fun e he => hgt e (hmem e (.inl he)) (hb e he))
        (List.forall_mem_cons.mpr ⟨hlt _ hcur hd, fun e he => hlt e (hmem e (.inr he)) (ha e he)⟩)⟩
    · have hz' : (z.before ++ [z.cur]) ++ z.after = root := by rw [← hz]; simp [Zip.toList]
      dsimp only
      rw [hd]
      exact ⟨_, rfl, rfl, hz', hgap _ _ hz' (List.forall_mem_append.mpr
        ⟨fun e he => hgt e (hmem e (.inl he)) (hb e he),
          List.forall_mem_singleton.mpr (hgt _ hcur hd)⟩)
        fun e he => hlt e (hmem e (.inr he)) (ha e he)⟩

end Link

/-! ## Merging -/

/-- The state of `ext4_mb_free_metadata` while it merges: `z` is the tree
around the new entry, `list` what is left of `list₀`. `cut` are entries a
commit has taken off the list but not yet out of the tree. -/
structure Linking (cut list₀ : List Ext4FreeData) (new : Ext4FreeData) (list : List Ext4FreeData)
    (z : Zip Ext4FreeData) : Prop where
  sorted : z.toList.Pairwise Apart
  pos : ∀ e ∈ z.toList, 0 < e.efdCount
  mem : ∀ e, (e ∈ z.before ∨ e ∈ z.after) ↔ (e ∈ cut ∨ e ∈ list) ∧ e.efdGroup = new.efdGroup
  others : ∀ e, e.efdGroup ≠ new.efdGroup → (e ∈ list ↔ e ∈ list₀)
  nodup : (cut ++ list).Nodup
  sub : list.Sublist list₀
  group : z.cur.efdGroup = new.efdGroup
  tid : z.cur.efdTid = new.efdTid
  cells : (cellsOf list ++ z.cur.cells).Perm (cellsOf list₀ ++ new.cells)

variable {m x y : Ext4FreeData} {a b : List Ext4FreeData}

theorem tryMerge_cases (hm : ext4TryMergeFreedExtent x y = some m) :
    x.efdTid = y.efdTid ∧ x.efdGroup = y.efdGroup ∧
      (x.efdStartCluster + x.efdCount = y.efdStartCluster ∧
        { y with efdStartCluster := x.efdStartCluster, efdCount := y.efdCount + x.efdCount } = m ∨
      y.efdStartCluster + y.efdCount = x.efdStartCluster ∧
        { y with efdCount := y.efdCount + x.efdCount } = m) := by
  rw [ext4TryMergeFreedExtent] at hm
  split at hm
  · cases hm
  rename_i hsame
  rw [not_or, not_not, not_not] at hsame
  refine ⟨hsame.1, hsame.2, ?_⟩
  split at hm
  · rename_i hadj
    exact .inl ⟨hadj, Option.some.inj hm⟩
  · split at hm
    · rename_i hadj
      exact .inr ⟨hadj, Option.some.inj hm⟩
    · cases hm

namespace Linking

variable {cut list₀ list : List Ext4FreeData} {new : Ext4FreeData} {z : Zip Ext4FreeData}

theorem neighbours (h : Linking cut list₀ new list z)
    (hz : z.toList = b ++ x :: y :: a) : Apart x y ∧ 0 < x.efdCount ∧ 0 < y.efdCount := by
  have hsorted := h.sorted
  rw [hz] at hsorted
  refine ⟨?_, h.pos x (by rw [hz]; simp), h.pos y (by rw [hz]; simp)⟩
  exact (List.pairwise_cons.mp (List.pairwise_append.mp hsorted).2.1).1 y (by simp)

section

variable (h : Linking cut list₀ new list z) (hcut : ∀ e ∈ cut, e.efdTid ≠ new.efdTid)

include h hcut

/-- A neighbour `e` goes up in the new entry. -/
theorem absorb (he : e ∈ z.before ∨ e ∈ z.after) (htid : e.efdTid = new.efdTid)
    {z' : Zip Ext4FreeData} (hsorted : z'.toList.Pairwise Apart)
    (hpos : ∀ x ∈ z'.toList, 0 < x.efdCount)
    (hmem : ∀ x, (x ∈ z'.before ∨ x ∈ z'.after) ↔ x ≠ e ∧ (x ∈ z.before ∨ x ∈ z.after))
    (hgroup : z'.cur.efdGroup = z.cur.efdGroup) (htid' : z'.cur.efdTid = z.cur.efdTid)
    (hcells : z'.cur.cells.Perm (e.cells ++ z.cur.cells)) :
    Linking cut list₀ new (list.erase e) z' := by
  have hnotcut : e ∉ cut := fun hc => hcut e hc htid
  have hin : e ∈ list := by
    rcases ((h.mem e).mp he).1 with hc | hl
    · exact absurd hc hnotcut
    · exact hl
  have hnd : list.Nodup := (List.nodup_append.mp h.nodup).2.1
  refine ⟨hsorted, hpos, fun x => ?_, fun x hx => ?_, ?_, List.erase_sublist.trans h.sub,
    hgroup.trans h.group, htid'.trans h.tid, ?_⟩
  · rw [hmem, h.mem, hnd.mem_erase_iff]
    constructor
    · rintro ⟨hne, hc | hl, hg⟩
      · exact ⟨.inl hc, hg⟩
      · exact ⟨.inr ⟨hne, hl⟩, hg⟩
    · rintro ⟨hc | ⟨hne, hl⟩, hg⟩
      · exact ⟨fun h => hnotcut (h ▸ hc), .inl hc, hg⟩
      · exact ⟨hne, .inr hl, hg⟩
  · rw [hnd.mem_erase_iff, h.others x hx]
    exact and_iff_right fun hxe => hx (hxe ▸ ((h.mem e).mp he).2)
  · exact h.nodup.sublist (List.erase_sublist.append_left cut)
  · have hperm : (cellsOf list).Perm (e.cells ++ cellsOf (list.erase e)) :=
      (List.perm_cons_erase hin).flatMap_right _
    calc cellsOf (list.erase e) ++ z'.cur.cells
      _ |>.Perm (cellsOf (list.erase e) ++ (e.cells ++ z.cur.cells)) := hcells.append_left _
      _ |>.Perm ((cellsOf (list.erase e) ++ e.cells) ++ z.cur.cells) := by
          rw [List.append_assoc]
      _ |>.Perm ((e.cells ++ cellsOf (list.erase e)) ++ z.cur.cells) :=
          List.perm_append_comm.append_right _
      _ |>.Perm (cellsOf list ++ z.cur.cells) := hperm.symm.append_right _
      _ |>.Perm (cellsOf list₀ ++ new.cells) := h.cells

/-- Two neighbours of the tree, the new entry and `e`, become one. -/
theorem fuse {e : Ext4FreeData} (hz : z.toList = b ++ x :: y :: a)
    (he : (e = x ∧ z = ⟨b ++ [x], y, a⟩) ∨ (e = y ∧ z = ⟨b, x, y :: a⟩))
    (htid : x.efdTid = y.efdTid) (hgroup : x.efdGroup = y.efdGroup)
    (hadj : x.efdStartCluster + x.efdCount = y.efdStartCluster)
    (hm : m = ⟨x.efdGroup, x.efdStartCluster, x.efdCount + y.efdCount, x.efdTid⟩) :
    Linking cut list₀ new (list.erase e) ⟨b, m, a⟩ := by
  have hsorted := h.sorted
  have hpos := h.pos
  rw [hz] at hsorted hpos
  obtain ⟨-, hx0, hy0⟩ := h.neighbours hz
  simp only [List.pairwise_append, List.pairwise_cons, List.mem_cons] at hsorted
  obtain ⟨hb, ⟨hxa, hya, ha⟩, hbx⟩ := hsorted
  have hcells : m.cells = x.cells ++ y.cells := by
    rw [hm, Ext4FreeData.cells, Ext4FreeData.cells, Ext4FreeData.cells, ← htid, ← hgroup, ← hadj,
      ← List.map_append, List.range'_append_1]
  -- neither neighbour occurs a second time
  have hself : ∀ {w : Ext4FreeData}, 0 < w.efdCount → ¬ Apart w w := by
    intro w hw
    unfold Apart
    omega
  have hxb : x ∉ b := fun hc => hself hx0 (hbx x hc x (.inl rfl))
  have hyb : y ∉ b := fun hc => hself hy0 (hbx y hc y (.inr (.inl rfl)))
  have hxa' : x ∉ a := fun hc => hself hx0 (hxa x (.inr hc))
  have hya' : y ∉ a := fun hc => hself hy0 (hya y hc)
  have hsorted' : (b ++ m :: a).Pairwise Apart := by
    rw [List.pairwise_append, List.pairwise_cons]
    refine ⟨hb, ⟨fun w hw => ?_, ha⟩, fun v hv w hw => ?_⟩
    · rw [hm]
      show x.efdStartCluster + (x.efdCount + y.efdCount) ≤ w.efdStartCluster
      rw [← Nat.add_assoc, hadj]
      exact hya w hw
    · rcases List.mem_cons.mp hw with rfl | hw
      · rw [hm]
        exact hbx v hv x (.inl rfl)
      · exact hbx v hv w (.inr (.inr hw))
  have hpos' : ∀ w ∈ b ++ m :: a, 0 < w.efdCount := by
    simp only [List.forall_mem_append, List.forall_mem_cons] at hpos ⊢
    exact ⟨hpos.1, hm ▸ Nat.add_pos_left hx0 _, hpos.2.2.2⟩
  rcases he with ⟨rfl, rfl⟩ | ⟨rfl, rfl⟩
  · refine h.absorb hcut (.inl (by simp)) (htid.trans h.tid) hsorted' hpos' (fun w => ?_) ?_ ?_ ?_
    · show w ∈ b ∨ w ∈ a ↔ w ≠ e ∧ (w ∈ b ++ [e] ∨ w ∈ a)
      constructor
      · rintro (hw | hw)
        · exact ⟨fun h => hxb (h ▸ hw), .inl (List.mem_append_left _ hw)⟩
        · exact ⟨fun h => hxa' (h ▸ hw), .inr hw⟩
      · rintro ⟨hne, hw | hw⟩
        · exact .inl ((List.mem_append.mp hw).resolve_right fun h => hne (List.mem_singleton.mp h))
        · exact .inr hw
    · rw [hm]
      exact hgroup
    · rw [hm]
      exact htid
    · rw [hcells]
  · refine h.absorb hcut (.inr (by simp)) (htid.symm.trans h.tid) hsorted' hpos' (fun w => ?_)
      ?_ ?_ ?_
    · show w ∈ b ∨ w ∈ a ↔ w ≠ e ∧ (w ∈ b ∨ w ∈ e :: a)
      constructor
      · rintro (hw | hw)
        · exact ⟨fun h => hyb (h ▸ hw), .inl hw⟩
        · exact ⟨fun h => hya' (h ▸ hw), .inr (List.mem_cons_of_mem e hw)⟩
      · rintro ⟨hne, hw | hw⟩
        · exact .inl hw
        · exact .inr ((List.mem_cons.mp hw).resolve_left hne)
    · rw [hm]
    · rw [hm]
    · rw [hcells]
      exact List.perm_append_comm

theorem mergePrev : Linking cut list₀ new (mergePrev list z).1 (mergePrev list z).2 := by
  unfold Mballoc.mergePrev
  cases hp : z.prev with
  | none => exact h
  | some p =>
    obtain ⟨hbefore, -⟩ := Zip.prev_eq_some hp
    dsimp only
    cases hm : ext4TryMergeFreedExtent p.cur z.cur with
    | none => exact h
    | some m =>
      have hz : z.toList = p.before ++ p.cur :: z.cur :: z.after := by
        rw [Zip.toList, hbefore]
        simp
      obtain ⟨happ, hp0, hz0⟩ := h.neighbours hz
      rw [Apart] at happ
      obtain ⟨htid, hgroup, ⟨hadj, hm⟩ | ⟨hadj, -⟩⟩ := tryMerge_cases hm
      · refine h.fuse hcut hz (.inl ⟨rfl, ?_⟩) htid hgroup hadj ?_
        · rw [← hbefore]
        · rw [← hm, htid, hgroup, Nat.add_comm]
      · omega

theorem mergeNext : Linking cut list₀ new (mergeNext list z).1 (mergeNext list z).2 := by
  unfold Mballoc.mergeNext
  cases hn : z.next with
  | none => exact h
  | some n =>
    obtain ⟨hafter, -⟩ := Zip.next_eq_some hn
    dsimp only
    cases hm : ext4TryMergeFreedExtent n.cur z.cur with
    | none => exact h
    | some m =>
      have hz : z.toList = z.before ++ z.cur :: n.cur :: n.after := by
        rw [Zip.toList, hafter]
      obtain ⟨happ, hz0, hn0⟩ := h.neighbours hz
      rw [Apart] at happ
      obtain ⟨htid, hgroup, ⟨hadj, -⟩ | ⟨hadj, hm⟩⟩ := tryMerge_cases hm
      · omega
      · refine h.fuse hcut hz (.inr ⟨rfl, ?_⟩) htid.symm hgroup.symm hadj hm.symm
        rw [← hafter]

end

end Linking

end Ext4.Mballoc
