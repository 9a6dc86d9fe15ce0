import Ext4.Extents.InsertSpec

/-!
# Extent trees — what a lookup finds

`ext4_find_extent` as its callers use it: it may fail to read a block, and
otherwise its path ends at the extent that covers the block, if there is
one. An insertion along such a path is exact.
-/

namespace Ext4.Extents

open IndexTree

/-- `ext4_find_extent`, which may fail to read a block. -/
def findExtent (readErr : Option Errno) (t : ExtTree) (lblk : Nat) : Except Errno ExtPath :=
  match readErr with
  | some e => .error e
  | none => ext4FindExtent t lblk

section Found

variable {blocksize : Nat} {t : ExtTree} {b : Nat} {p : ExtPath}

/-- What a lookup that succeeds has found. -/
structure Found (t : ExtTree) (b : Nat) (p : ExtPath) : Prop where
  tree_eq : p.tree = t
  depth_le : p.depth ≤ ext4MaxExtentDepth
  located : Located Extent.eeBlock b p.depth p.path

theorem found_of_find (ht : t.Ok blocksize) (h : ext4FindExtent t b = .ok p) : Found t b p := by
  have hd : t.depth ≤ ext4MaxExtentDepth := by
    refine Nat.le_of_not_lt fun hd => ?_
    rw [ext4FindExtent, if_pos hd] at h
    cases h
  obtain ⟨q, hq, hclose, hloc⟩ := ext4FindExtent_spec ht hd b
  rw [hq] at h
  injection h with h
  subst h
  refine ⟨?_, hd, hloc⟩
  rw [ExtPath.tree, hclose]

theorem findExtent_found {e : Option Errno} (ht : t.Ok blocksize)
    (h : findExtent e t b = .ok p) : Found t b p := by
  cases e with
  | some e => nomatch h
  | none => exact found_of_find ht h

theorem Found.ok (h : Found t b p) (ht : t.Ok blocksize) : p.tree.Ok blocksize :=
  h.tree_eq.symm ▸ ht

theorem Found.mapping_eq (h : Found t b p) : p.tree.mapping = t.mapping :=
  congrArg ExtTree.mapping h.tree_eq

variable {ex : Extent} {rest : List Extent}

theorem Found.extents_eq (h : Found t b p) (hafter : (leaf p.depth p.path).after = ex :: rest) :
    t.extents = (left p.depth p.path ++ (leaf p.depth p.path).before)
      ++ ex :: (rest ++ right p.depth p.path) := by
  rw [← h.tree_eq]
  exact flat_of_after hafter

theorem Found.mem (h : Found t b p) (hafter : (leaf p.depth p.path).after = ex :: rest) :
    ex ∈ t.extents := by
  rw [h.extents_eq hafter]
  simp

/-- The lookup ends at the extent that covers the block, if there is one. -/
theorem Found.eq_of_covers (h : Found t b p) (ht : t.Ok blocksize) {x : Extent}
    (hx : x ∈ t.extents) (hc : x.eeBlock ≤ b ∧ b < x.eeEnd) :
    ∃ rest, (leaf p.depth p.path).after = x :: rest := by
  cases hafter : (leaf p.depth p.path).after with
  | nil =>
    have hnil := h.located.empty hafter
    rw [← h.tree_eq] at hx
    exact absurd hx (by rw [ExtPath.tree, ExtTree.extents, hnil]; exact List.not_mem_nil)
  | cons ex rest =>
    have hext := h.extents_eq hafter
    have hsep := ht.separated
    rw [hext] at hx hsep
    rcases List.mem_append.mp hx with hx | hx
    · -- an extent in front of the one found ends before it begins
      have h1 : x.eeEnd ≤ ex.eeBlock := (List.pairwise_append.mp hsep).2.2 x hx ex (by simp)
      have hnil := h.located.low ex (by rw [hafter]; rfl) (by omega)
      rw [hnil] at hx
      cases hx
    · rcases List.mem_cons.mp hx with rfl | hx
      · exact ⟨rest, rfl⟩
      · have h1 := h.located.high x (by rw [hafter]; exact hx)
        omega

theorem mapping_of_mem (ht : t.Ok blocksize) (hex : ex ∈ t.extents)
    {x : Nat} (hx : ex.eeBlock ≤ x ∧ x < ex.eeEnd) :
    t.mapping x = some (ex.eeStart + (x - ex.eeBlock), ext4ExtIsUnwritten ex) :=
  Segments.View.Separated.get_mem blockView ht.separated hex hx

theorem Found.extents_eq_flat (h : Found t b p) :
    flat p.depth (close p.depth p.path) = t.extents := by
  rw [← h.tree_eq]
  rfl

variable {env : InsertEnv} {newext : Extent}

section

variable (h : Found t newext.eeBlock p) (preIo : Bool) (hbs : 1024 ≤ env.blocksize)
  (ht : t.Ok env.blocksize) (hnew : newext.Ok)
  (hfree : ∀ x, newext.eeBlock ≤ x → x < newext.eeEnd → t.mapping x = none)

include h preIo hbs ht hnew hfree

theorem Found.insert_outcome :
    InsertOutcome env newext p (ext4ExtInsertExtent env preIo newext p) := by
  exact insertExtent_spec preIo hbs (h.ok ht) h.depth_le hnew h.located
    (h.extents_eq_flat ▸ free_of_unmapped hnew ht.extentsOk hfree)

theorem Found.insert (herr : (ext4ExtInsertExtent env preIo newext p).err = none) :
    (ext4ExtInsertExtent env preIo newext p).path.tree.Ok env.blocksize
      ∧ ∀ x, (ext4ExtInsertExtent env preIo newext p).path.tree.mapping x
          = if newext.eeBlock ≤ x ∧ x < newext.eeEnd
            then some (newext.eeStart + (x - newext.eeBlock), ext4ExtIsUnwritten newext)
            else t.mapping x := by
  have h2 := h.insert_outcome preIo hbs ht hnew hfree
  rw [InsertOutcome, herr] at h2
  refine ⟨h2.1, fun x => ?_⟩
  have hins : Inserts newext (flat p.depth (close p.depth p.path)) _ := h2.2
  rw [h.extents_eq_flat] at hins
  exact hins.mapping_eq hnew ht.extentsOk x

theorem Found.insert_failed {e : Errno} (hearly : env.early = true)
    (herr : (ext4ExtInsertExtent env preIo newext p).err = some e) :
    (ext4ExtInsertExtent env preIo newext p).path.tree.Ok env.blocksize
      ∧ (ext4ExtInsertExtent env preIo newext p).path.tree.mapping = t.mapping := by
  have h2 := h.insert_outcome preIo hbs ht hnew hfree
  rw [InsertOutcome, herr] at h2
  obtain ⟨hok, hsame, -⟩ := h2.resolve_left fun hlate => Bool.eq_false_iff.mp hlate.2 hearly
  refine ⟨hok, ?_⟩
  rw [ExtTree.mapping, hsame, h.tree_eq]
  rfl

end

end Found

/-- An insertion that succeeds adds exactly the blocks of the new extent, with
its state, and leaves every other block mapped as before. The tree stays well
formed, so that lookups find what it maps. -/
theorem insertExtent_mapping {newext : Extent} {env : InsertEnv} {preIo : Bool} {t : ExtTree}
    {p : ExtPath} (hbs : 1024 ≤ env.blocksize) (ht : t.Ok env.blocksize) (hnew : newext.Ok)
    (hfree : ∀ b, newext.eeBlock ≤ b → b < newext.eeEnd → t.mapping b = none)
    (hp : ext4FindExtent t newext.eeBlock = .ok p)
    (hr : (ext4ExtInsertExtent env preIo newext p).err = none) :
    (ext4ExtInsertExtent env preIo newext p).path.tree.Ok env.blocksize
      ∧ ∀ b, (ext4ExtInsertExtent env preIo newext p).path.tree.mapping b
        = if newext.eeBlock ≤ b ∧ b < newext.eeEnd
          then some (newext.eeStart + (b - newext.eeBlock), ext4ExtIsUnwritten newext)
          else t.mapping b :=
  (found_of_find ht hp).insert preIo hbs ht hnew hfree hr

/-- A full leaf below an index: every second block is mapped. -/
def fullLeaf : ExtTree :=
  ⟨1, [⟨0, 50, (List.range 84).map fun k => ⟨2 * k, 1, 1000 + 2 * k⟩⟩]⟩

theorem fullLeaf_ok : fullLeaf.Ok 1024 := by
  refine ⟨?_, by decide, by decide +kernel, ?_⟩
  · refine (@keyed_succ _ _ _ _ _ [] []).mpr ⟨fun _ h => absurd h List.not_mem_nil,
      ⟨trivial, by decide +kernel, by decide +kernel⟩, fun _ h => absurd h List.not_mem_nil⟩
  · show List.Pairwise (fun x y : Extent => x.eeEnd ≤ y.eeBlock) _
    decide +kernel

/-- The leaf is split for block 1, which goes between the first two extents. -/
theorem insertExtent_mapping_split :
    ∃ p, ext4FindExtent fullLeaf 1 = .ok p
      ∧ (ext4ExtInsertExtent ⟨1024, false, true, [60], none⟩ false ⟨1, 1, 2000⟩ p).path.tree.Ok 1024
      ∧ (ext4ExtInsertExtent ⟨1024, false, true, [60], none⟩ false ⟨1, 1, 2000⟩ p).path.tree.mapping
        1 = some (2000, false) := by
  have hfind : ext4FindExtent fullLeaf 1 = .ok ⟨1, ⟨[], 0, 50, ⟨[], flat 1 fullLeaf.root⟩, []⟩⟩ :=
    rfl
  have hfree : ∀ b, 1 ≤ b → b < 2 → fullLeaf.mapping b = none := by
    intro b hlo hhi
    obtain rfl : b = 1 := Nat.le_antisymm (Nat.le_of_lt_succ hhi) hlo
    decide +kernel
  obtain ⟨h1, h2⟩ := @insertExtent_mapping ⟨1, 1, 2000⟩ ⟨1024, false, true, [60], none⟩ false _ _
    (by decide) fullLeaf_ok (by decide) hfree hfind (by decide +kernel)
  exact ⟨_, hfind, h1, (h2 1).trans (by decide)⟩

end Ext4.Extents
