import Ext4.Extents.Lookup

/-!
# Extent trees — the neighbours of a block

`ext4_ext_search_left`, `ext4_ext_search_right` and
`ext4_ext_next_allocated_block` (extents.c) look around the block that a path
was made for. To the left the extent of the path is enough; to the right the
search climbs to the first level with an entry behind the path and goes down
again along first entries.

The two searches are made for blocks that are not mapped and refuse others.
The third function takes the extent of the path for one that begins at or
before the block: in front of the first extent it skips that extent.
-/

namespace Ext4.Extents

open IndexTree
open Ext4.ExtentsStatus (extMaxBlocks)

/-! ## The model -/

/-- The block that a search writes to `*logical` and `*phys`; without a
neighbour `*phys` is 0 and `*logical` stays. -/
structure Neighbour where
  logical : Nat
  phys : Nat
deriving DecidableEq, Repr

/-- `p_ext` of the leaf. -/
def ExtPath.ext (p : ExtPath) : Option Extent := (leaf p.depth p.path).after.head?

/-- Every level of the path is opened at its first entry. -/
def atFirst : (d : Nat) → Path Extent d → Bool
  | 0, c => c.before.isEmpty
  | d + 1, p => p.before.isEmpty && atFirst d p.down

def ext4ExtSearchLeft (p : ExtPath) (logical : Nat) : Except Errno Neighbour :=
  match p.ext with
  | none => if p.depth = 0 then .ok ⟨logical, 0⟩ else .error .bug
  | some ex =>
      if logical < ex.eeBlock then
        if atFirst p.depth p.path then .ok ⟨logical, 0⟩ else .error .efscorrupted
      else if logical < ex.eeEnd then .error .efscorrupted
      else .ok ⟨ex.eeEnd - 1, ex.eeStart + ext4ExtGetActualLen ex - 1⟩

section Right

variable (read : Nat → Option Errno)

/-- Down along first entries from the node in block `ptr`. `read` says which
blocks `read_extent_tree_block` fails for. -/
def firstExtentBelow : (d : Nat) → (ptr : Nat) → Node Extent d → Except Errno Extent
  | 0, ptr, es =>
      match read ptr, List.head? es with
      | some e, _ => .error e
      | none, some ex => .ok ex
      | none, none => .error .bug
  | d + 1, ptr, xs =>
      match read ptr, List.head? xs with
      | some e, _ => .error e
      | none, some x => firstExtentBelow d x.ptr x.child
      | none, none => .error .bug

/-- Up from the leaf to the first level with an index behind the path, and
down from there; `none` if there is no such level. -/
def searchIndexRight : (d : Nat) → Path Extent d → Except Errno (Option Extent)
  | 0, _ => .ok none
  | d + 1, p =>
      match searchIndexRight d p.down with
      | .ok none =>
          match p.after with
          | [] => .ok none
          | x :: _ => (firstExtentBelow read d x.ptr x.child).map some
      | r => r

/-- `ext4_ext_search_right`; the second result is `*ret_ex`. -/
def ext4ExtSearchRight (p : ExtPath) (logical : Nat) :
    Except Errno (Neighbour × Option Extent) :=
  let foundExtent := fun ex : Extent => (⟨ex.eeBlock, ex.eeStart⟩, some ex)
  match (leaf p.depth p.path).after with
  | [] => if p.depth = 0 then .ok (⟨logical, 0⟩, none) else .error .bug
  | ex :: rest =>
      if logical < ex.eeBlock then
        if atFirst p.depth p.path then .ok (foundExtent ex) else .error .efscorrupted
      else if logical < ex.eeEnd then .error .efscorrupted
      else
        match rest with
        | ex' :: _ => .ok (foundExtent ex')
        | [] =>
            match searchIndexRight read p.depth p.path with
            | .error e => .error e
            | .ok none => .ok (⟨logical, 0⟩, none)
            | .ok (some ex') => .ok (foundExtent ex')

end Right

/-! ## What a linear scan finds -/

/-- The last block in front of `b` that is mapped. -/
structure LastBelow (m : Nat → Option (Nat × Bool)) (b : Nat) (n : Neighbour) : Prop where
  below : n.logical < b
  mapped : ∃ u, m n.logical = some (n.phys, u)
  last : ∀ x, n.logical < x → x < b → m x = none

/-- The first block behind `b` that is mapped. -/
structure FirstAbove (m : Nat → Option (Nat × Bool)) (b : Nat) (n : Neighbour) : Prop where
  above : b < n.logical
  mapped : ∃ u, m n.logical = some (n.phys, u)
  first : ∀ x, b < x → x < n.logical → m x = none

/-- What `ext4_ext_search_left` should report. -/
def LeftOf (m : Nat → Option (Nat × Bool)) (b : Nat) (n : Neighbour) : Prop :=
  (n = ⟨b, 0⟩ ∧ ∀ x, x < b → m x = none) ∨ (0 < n.phys ∧ LastBelow m b n)

/-- What `ext4_ext_search_right` should report. -/
def RightOf (t : ExtTree) (b : Nat) (r : Neighbour × Option Extent) : Prop :=
  (r = (⟨b, 0⟩, none) ∧ ∀ x, b < x → t.mapping x = none)
    ∨ (0 < r.1.phys ∧ FirstAbove t.mapping b r.1
      ∧ ∃ ex ∈ t.extents, r.2 = some ex ∧ r.1 = ⟨ex.eeBlock, ex.eeStart⟩)

/-- The start of the first extent that begins behind `b`. -/
def nextStart (t : ExtTree) (b : Nat) : Nat :=
  ((t.extents.find? fun ex => decide (b < ex.eeBlock)).map Extent.eeBlock).getD extMaxBlocks

/-- The start of the first extent, or 0. -/
def firstStart (t : ExtTree) : Nat := (t.extents.head?.map Extent.eeBlock).getD 0

/-! ## The climb to the right -/

section Climb

variable {cap : Nat} (read : Nat → Option Errno)

/-- A block could not be read. -/
def ReadFailed {α : Type} (r : Except Errno α) : Prop := ∃ blk e, read blk = some e ∧ r = .error e

theorem firstExtentBelow_spec (d ptr : Nat) (n : Node Extent d)
    (h : Keyed Extent.eeBlock cap d n) (hne : flat d n ≠ []) :
    ReadFailed read (firstExtentBelow read d ptr n)
      ∨ ∃ ex, firstExtentBelow read d ptr n = .ok ex ∧ (flat d n).head? = some ex := by
  induction d generalizing ptr with
  | zero =>
    rw [firstExtentBelow]
    cases hread : read ptr with
    | some e => exact .inl ⟨ptr, e, hread, rfl⟩
    | none =>
      cases n with
      | nil => exact absurd rfl hne
      | cons ex es => exact .inr ⟨ex, rfl, rfl⟩
  | succ d ih =>
    rw [firstExtentBelow]
    cases hread : read ptr with
    | some e => exact .inl ⟨ptr, e, hread, rfl⟩
    | none =>
      cases n with
      | nil => exact absurd rfl h.1
      | cons x xs =>
        have hx := h.2 x (by simp)
        rcases ih x.ptr x.child hx.inner (flat_ne_nil hx) with hfail | ⟨ex, hex, hhead⟩
        · exact .inl hfail
        · refine .inr ⟨ex, hex, ?_⟩
          rw [flat_cons, List.head?_append, hhead]
          rfl

section

variable (d : Nat) (p : Path Extent d) (h : Keyed Extent.eeBlock cap d (close d p))
include d p h

theorem searchIndexRight_spec :
    ReadFailed read (searchIndexRight read d p)
      ∨ searchIndexRight read d p = .ok (right d p).head? := by
  induction d with
  | zero => exact .inr rfl
  | succ d ih =>
    obtain ⟨-, hcur, hafter⟩ := keyed_succ.mp h
    rw [searchIndexRight]
    rcases ih p.down hcur.inner with ⟨blk, e, hread, hfail⟩ | hdown
    · rw [hfail]
      exact .inl ⟨blk, e, hread, rfl⟩
    · rw [hdown, right, List.head?_append]
      cases hr : (right d p.down).head? with
      | some ex => exact .inr rfl
      | none =>
        cases ha : p.after with
        | nil => exact .inr rfl
        | cons x xs =>
          have hx := hafter x (by simp [ha])
          dsimp only
          rcases firstExtentBelow_spec read d x.ptr x.child hx.inner (flat_ne_nil hx) with
            ⟨blk, e, hread, hfail⟩ | ⟨ex, hex, hhead⟩
          · rw [hfail]
            exact .inl ⟨blk, e, hread, rfl⟩
          · rw [hex, List.flatMap_cons, List.head?_append, hhead]
            exact .inr rfl

/-- Nothing in front of the leaf means that every level is opened at its
first entry. -/
theorem atFirst_of_left_nil (hnil : left d p ++ (leaf d p).before = []) : atFirst d p = true := by
  induction d with
  | zero =>
    have hbefore : p.before = [] := hnil
    rw [atFirst, hbefore]
    rfl
  | succ d ih =>
    obtain ⟨hbefore, hcur, -⟩ := keyed_succ.mp h
    rw [left, List.append_assoc] at hnil
    obtain ⟨h1, h2⟩ := List.append_eq_nil_iff.mp hnil
    rw [atFirst, ih p.down hcur.inner h2, Bool.and_true]
    cases hb : p.before with
    | nil => rfl
    | cons x xs =>
      rw [hb, List.flatMap_cons] at h1
      exact absurd (List.append_eq_nil_iff.mp h1).1 (flat_ne_nil (hbefore x (by simp [hb])))

end

end Climb

/-! ## The three functions -/

section Searches

variable {blocksize : Nat} {t : ExtTree} {b x : Nat} {p : ExtPath} {ex : Extent}
  {rest : List Extent}

theorem search_of_covers (read : Nat → Option Errno)
    (hafter : (leaf p.depth p.path).after = ex :: rest) (hc : ex.eeBlock ≤ b ∧ b < ex.eeEnd) :
    ext4ExtSearchLeft p b = .error .efscorrupted
      ∧ ext4ExtSearchRight read p b = .error .efscorrupted := by
  rw [ext4ExtSearchLeft, ext4ExtSearchRight, ExtPath.ext, hafter]
  dsimp only [List.head?_cons]
  rw [if_neg (Nat.not_lt.mpr hc.1), if_pos hc.2, if_neg (Nat.not_lt.mpr hc.1), if_pos hc.2]
  exact ⟨rfl, rfl⟩

section

variable (ht : t.Ok blocksize)

include ht

theorem mapping_eeBlock (hex : ex ∈ t.extents) :
    t.mapping ex.eeBlock = some (ex.eeStart, ext4ExtIsUnwritten ex) := by
  have h := mapping_of_mem ht hex ⟨Nat.le_refl _, eeBlock_lt_eeEnd (ht.extents_ok ex hex)⟩
  rwa [Nat.sub_self, Nat.add_zero] at h

theorem mapped_lt_max (hx : t.mapping x ≠ none) : x < extMaxBlocks := by
  obtain ⟨v, hv⟩ := Option.ne_none_iff_exists'.mp hx
  obtain ⟨ex, hex, hc, -⟩ := blockView.get_eq_some_mem hv
  exact Nat.lt_of_lt_of_le hc.2 (ht.extents_ok ex hex).end_le

theorem mapping_lt_first {es : List Extent} (hext : t.extents = ex :: es)
    (hx : x < ex.eeBlock) : t.mapping x = none := by
  rw [ExtTree.mapping, mapping, hext]
  refine blockView.get_eq_none_of_lt fun y hy => ?_
  have hsep := ht.separated
  rw [hext] at hsep
  rcases List.mem_cons.mp hy with rfl | hy
  · exact hx
  · have h1 : ex.eeEnd ≤ y.eeBlock := (List.pairwise_cons.mp hsep).1 y hy
    exact Nat.lt_of_lt_of_le hx (Nat.le_trans (Nat.le_add_right _ _) h1)

/-- The neighbour on the right is the start of the extent behind. -/
theorem rightOf_found (hphys : ∀ ex ∈ t.extents, 0 < ex.eeStart)
    (hex : ex ∈ t.extents) (hlt : b < ex.eeBlock)
    (hgap : ∀ x, b < x → x < ex.eeBlock → t.mapping x = none) :
    RightOf t b (⟨ex.eeBlock, ex.eeStart⟩, some ex) :=
  .inr ⟨hphys ex hex, ⟨hlt, ⟨_, mapping_eeBlock ht hex⟩, hgap⟩, ex, hex, rfl, rfl⟩

variable (h : Found t b p)

include h

theorem Found.keyed :
    Keyed Extent.eeBlock (ext4ExtSpaceBlock blocksize) p.depth (close p.depth p.path) :=
  (h.ok ht).keyed

theorem Found.empty (hafter : (leaf p.depth p.path).after = []) : p.depth = 0 ∧ t.extents = [] := by
  have hnil := h.located.empty hafter
  refine ⟨?_, by rw [← h.tree_eq]; exact hnil⟩
  obtain ⟨d, q⟩ := p
  cases d with
  | zero => rfl
  | succ d =>
    have hleaf := (h.keyed ht).leaf_ne_nil
    rw [flat_close] at hnil
    exact absurd (List.append_eq_nil_iff.mp (List.append_eq_nil_iff.mp hnil).1).2 hleaf

theorem Found.lt_next (hb : b < extMaxBlocks) : b < ext4ExtNextAllocatedBlock p := by
  rw [ext4ExtNextAllocatedBlock, nextAllocated_eq (h.keyed ht)]
  cases hn : ((leaf p.depth p.path).after.tail ++ right p.depth p.path) with
  | nil => exact hb
  | cons y ys => exact h.located.high y (by rw [hn]; simp)

section

variable (hafter : (leaf p.depth p.path).after = ex :: rest)

include hafter

/-- No block behind the extent of a path is mapped up to the next extent. -/
theorem Found.gap_above (hx : ex.eeEnd ≤ x)
    (hnext : ∀ y ∈ (rest ++ right p.depth p.path).head?, x < y.eeBlock) : t.mapping x = none := by
  have hext := h.extents_eq hafter
  have hsep := ht.separated
  rw [ExtTree.mapping, mapping, blockView.get_eq_none_iff, hext]
  rw [hext] at hsep
  obtain ⟨-, hsep2, hsep3⟩ := List.pairwise_append.mp hsep
  intro y hy hc
  rcases List.mem_append.mp hy with hy | hy
  · have h1 : y.eeEnd ≤ ex.eeBlock := hsep3 y hy ex (by simp)
    have h2 := hc.2
    have h3 : ex.eeBlock ≤ ex.eeEnd := Nat.le_add_right _ _
    exact absurd h2 (Nat.not_lt.mpr (Nat.le_trans h1 (Nat.le_trans h3 hx)))
  · rcases List.mem_cons.mp hy with rfl | hy
    · exact absurd hc.2 (Nat.not_lt.mpr hx)
    · -- the first extent behind already begins past `x`
      cases htail : rest ++ right p.depth p.path with
      | nil => rw [htail] at hy; cases hy
      | cons z zs =>
        have hz := hnext z (by rw [htail]; rfl)
        rw [htail] at hy hsep2
        have hzy : z.eeBlock ≤ y.eeBlock := by
          rcases List.mem_cons.mp hy with rfl | hy
          · exact Nat.le_refl _
          · have h1 : z.eeEnd ≤ y.eeBlock :=
              (List.pairwise_cons.mp (List.pairwise_cons.mp hsep2).2).1 y hy
            exact Nat.le_trans (Nat.le_add_right _ _) h1
        exact absurd hc.1 (Nat.not_le.mpr (Nat.lt_of_lt_of_le hz hzy))

/-- In front of the extent of a path nothing is mapped, if the block of the
path is there. -/
theorem Found.gap_before (hb : b < ex.eeBlock) (hx : x < ex.eeBlock) : t.mapping x = none := by
  have hext := h.extents_eq hafter
  rw [h.located.low ex (by rw [hafter]; rfl) hb, List.nil_append] at hext
  exact mapping_lt_first ht hext hx

/-- No block between the extent of a path and the next allocated block is
mapped. -/
theorem Found.gap_next (hx : ex.eeEnd ≤ x) (hnext : x < ext4ExtNextAllocatedBlock p) :
    t.mapping x = none := by
  refine h.gap_above ht hafter hx fun y hy => ?_
  rw [ext4ExtNextAllocatedBlock, nextAllocated_eq (h.keyed ht), hafter, List.tail_cons] at hnext
  cases htail : rest ++ right p.depth p.path with
  | nil => rw [htail] at hy; nomatch hy
  | cons z zs =>
    rw [htail] at hnext hy
    obtain rfl := Option.some.inj hy
    exact hnext

/-- A block that is not mapped is in front of the extent of its path or
behind it. -/
theorem Found.outside (hb : t.mapping b = none) : b < ex.eeBlock ∨ ex.eeEnd ≤ b := by
  by_contra hin
  have hc : ex.eeBlock ≤ b ∧ b < ex.eeEnd := by omega
  rw [mapping_of_mem ht (h.mem hafter) hc] at hb
  nomatch hb

end

/-- `ext4_ext_next_allocated_block` is exact but for a block in front of the
first extent. -/
theorem nextAllocatedBlock_eq :
    ext4ExtNextAllocatedBlock p = nextStart t (max b (firstStart t)) := by
  rw [ext4ExtNextAllocatedBlock, nextAllocated_eq (h.keyed ht), nextStart]
  cases hafter : (leaf p.depth p.path).after with
  | nil =>
    have hnil := h.located.empty hafter
    rw [flat_close] at hnil
    rw [(List.append_eq_nil_iff.mp hnil).2, (h.empty ht hafter).2]
    rfl
  | cons ex rest =>
    have hext := h.extents_eq hafter
    have hsorted := ht.sorted
    rw [show flat t.depth t.root = t.extents from rfl, hext] at hsorted
    obtain ⟨-, hs2, hs3⟩ := List.pairwise_append.mp hsorted
    have hfront : ∀ x ∈ left p.depth p.path ++ (leaf p.depth p.path).before ++ [ex],
        ¬ max b (firstStart t) < x.eeBlock := by
      intro x hx
      by_cases hlt : b < ex.eeBlock
      · have hnil := h.located.low ex (by rw [hafter]; rfl) hlt
        rw [hnil, List.nil_append] at hx hext
        rw [List.mem_singleton.mp hx, firstStart, hext]
        exact Nat.not_lt.mpr (Nat.le_max_right _ _)
      · rcases List.mem_append.mp hx with hx | hx
        · have := hs3 x hx ex (by simp)
          omega
        · rw [List.mem_singleton.mp hx]
          omega
    have hback : ∀ x ∈ rest ++ right p.depth p.path, max b (firstStart t) < x.eeBlock := by
      intro x hx
      have h1 := h.located.high x (by rw [hafter]; exact hx)
      have h2 : firstStart t ≤ ex.eeBlock := by
        rw [firstStart, hext]
        cases hl : left p.depth p.path ++ (leaf p.depth p.path).before with
        | nil => exact Nat.le_refl _
        | cons y ys => exact Nat.le_of_lt (hs3 y (by rw [hl]; simp) ex (by simp))
      have h3 : ex.eeBlock < x.eeBlock := (List.pairwise_cons.mp hs2).1 x hx
      omega
    have hsplit : t.extents = (left p.depth p.path ++ (leaf p.depth p.path).before ++ [ex])
        ++ (rest ++ right p.depth p.path) := by
      rw [hext]
      simp
    have hnone : (left p.depth p.path ++ (leaf p.depth p.path).before ++ [ex]).find?
        (fun ex => decide (max b (firstStart t) < ex.eeBlock)) = none :=
      List.find?_eq_none.mpr fun x hx hd => hfront x hx (of_decide_eq_true hd)
    rw [hsplit, List.find?_append, hnone, Option.none_or]
    show ((rest ++ right p.depth p.path).head?.map Extent.eeBlock).getD extMaxBlocks = _
    cases htail : rest ++ right p.depth p.path with
    | nil => rfl
    | cons y ys =>
      have hy := hback y (by rw [htail]; exact List.mem_cons_self)
      rw [List.find?_cons, decide_eq_true hy]
      rfl

/-- The next allocated block is the start of an extent, if there is one. -/
theorem Found.next_start :
    ext4ExtNextAllocatedBlock p = extMaxBlocks
      ∨ ∃ ex ∈ t.extents, ext4ExtNextAllocatedBlock p = ex.eeBlock := by
  rw [nextAllocatedBlock_eq ht h, nextStart]
  cases hfind : t.extents.find? fun ex => decide (max b (firstStart t) < ex.eeBlock) with
  | none => exact .inl rfl
  | some ex => exact .inr ⟨ex, List.mem_of_find?_eq_some hfind, rfl⟩

variable (hphys : ∀ ex ∈ t.extents, 0 < ex.eeStart) (hb : t.mapping b = none)

include hphys hb

theorem searchLeft_spec : ∃ n, ext4ExtSearchLeft p b = .ok n ∧ LeftOf t.mapping b n := by
  rw [ext4ExtSearchLeft, ExtPath.ext]
  cases hafter : (leaf p.depth p.path).after with
  | nil =>
    obtain ⟨hd, hnil⟩ := h.empty ht hafter
    refine ⟨⟨b, 0⟩, if_pos hd, .inl ⟨rfl, fun x _ => ?_⟩⟩
    rw [ExtTree.mapping, hnil]
    rfl
  | cons ex rest =>
    have hok := ht.extents_ok ex (h.mem hafter)
    have hlen := hok.len_pos
    dsimp only [List.head?_cons]
    rcases h.outside ht hafter hb with hlt | hge
    · have hnil := h.located.low ex (by rw [hafter]; rfl) hlt
      rw [if_pos hlt, if_pos (atFirst_of_left_nil _ _ (h.keyed ht) hnil)]
      exact ⟨_, rfl, .inl ⟨rfl, fun x hx => h.gap_before ht hafter hlt (Nat.lt_trans hx hlt)⟩⟩
    · have hend : ex.eeEnd = ex.eeBlock + ext4ExtGetActualLen ex := rfl
      have hstart := hphys ex (h.mem hafter)
      rw [if_neg (by omega), if_neg (by omega)]
      refine ⟨_, rfl, .inr ⟨?_, ?_, ⟨ext4ExtIsUnwritten ex, ?_⟩, fun x hlo hhi => ?_⟩⟩
      · show 0 < ex.eeStart + ext4ExtGetActualLen ex - 1
        omega
      · show ex.eeEnd - 1 < b
        omega
      · show t.mapping (ex.eeEnd - 1) = some (ex.eeStart + ext4ExtGetActualLen ex - 1, _)
        rw [mapping_of_mem ht (h.mem hafter) ⟨by omega, by omega⟩]
        congr 2
        omega
      · have hlo' : ex.eeEnd - 1 < x := hlo
        refine h.gap_above ht hafter (by omega) fun y hy => ?_
        refine Nat.lt_trans hhi (h.located.high y ?_)
        rw [hafter]
        exact List.mem_of_mem_head? hy

theorem searchRight_spec (read : Nat → Option Errno) :
    ReadFailed read (ext4ExtSearchRight read p b)
      ∨ ∃ r, ext4ExtSearchRight read p b = .ok r ∧ RightOf t b r := by
  rw [ext4ExtSearchRight]
  cases hafter : (leaf p.depth p.path).after with
  | nil =>
    obtain ⟨hd, hnil⟩ := h.empty ht hafter
    refine .inr ⟨(⟨b, 0⟩, none), if_pos hd, .inl ⟨rfl, fun x _ => ?_⟩⟩
    rw [ExtTree.mapping, hnil]
    rfl
  | cons ex rest =>
    have hext := h.extents_eq hafter
    have hend : ex.eeBlock ≤ ex.eeEnd := Nat.le_add_right _ _
    dsimp only
    rcases h.outside ht hafter hb with hlt | hge
    · have hnil := h.located.low ex (by rw [hafter]; rfl) hlt
      rw [if_pos hlt, if_pos (atFirst_of_left_nil _ _ (h.keyed ht) hnil)]
      exact .inr ⟨_, rfl, rightOf_found ht hphys (h.mem hafter) hlt
        fun x _ hx => h.gap_before ht hafter hlt hx⟩
    · rw [if_neg (by omega), if_neg (by omega)]
      -- the extent behind the one of the path, in this leaf or in a later one
      have hbehind : ∀ ex', (rest ++ right p.depth p.path).head? = some ex' →
          RightOf t b (⟨ex'.eeBlock, ex'.eeStart⟩, some ex') := by
        intro ex' hhead
        have hmem := List.mem_of_mem_head? hhead
        refine rightOf_found ht hphys (by rw [hext]; simp [hmem])
          (h.located.high ex' (by rw [hafter]; exact hmem)) fun x hx hlt => ?_
        refine h.gap_above ht hafter (Nat.le_trans hge (Nat.le_of_lt hx)) fun y hy => ?_
        rw [hhead] at hy
        cases hy
        exact hlt
      cases rest with
      | cons ex' rest => exact .inr ⟨_, rfl, hbehind ex' rfl⟩
      | nil =>
        rcases searchIndexRight_spec read p.depth p.path (h.keyed ht) with
          ⟨blk, e, hread, hfail⟩ | hok
        · rw [hfail]
          exact .inl ⟨blk, e, hread, rfl⟩
        · rw [hok]
          cases hr : (right p.depth p.path).head? with
          | some ex' => exact .inr ⟨_, rfl, hbehind ex' hr⟩
          | none =>
            refine .inr ⟨_, rfl, .inl ⟨rfl, fun x hx => ?_⟩⟩
            refine h.gap_above ht hafter (Nat.le_trans hge (Nat.le_of_lt hx)) fun y hy => ?_
            rw [List.nil_append, hr] at hy
            cases hy

end

/-- **The searches around a block** agree with a linear scan of the extents:
the lookup ends at the extent that contains the block. If there is none, the
searches report the last mapped block below and the first one above; if there
is one, both refuse. The next allocated block is the start of the next extent,
or of the second one for a block in front of all extents. -/
theorem searches_eq_scan (read : Nat → Option Errno) (ht : t.Ok blocksize)
    (hd : t.depth ≤ ext4MaxExtentDepth) (hphys : ∀ ex ∈ t.extents, 0 < ex.eeStart) (b : Nat) :
    ∃ p, ext4FindExtent t b = .ok p
      ∧ ext4ExtNextAllocatedBlock p = nextStart t (max b (firstStart t))
      ∧ match t.extents.find? fun ex => decide (blockView.Covers ex b) with
        | some ex => p.ext = some ex
            ∧ ext4ExtSearchLeft p b = .error .efscorrupted
            ∧ ext4ExtSearchRight read p b = .error .efscorrupted
        | none => (∃ n, ext4ExtSearchLeft p b = .ok n ∧ LeftOf t.mapping b n)
            ∧ (ReadFailed read (ext4ExtSearchRight read p b)
              ∨ ∃ r, ext4ExtSearchRight read p b = .ok r ∧ RightOf t b r) := by
  obtain ⟨q, hq, -, -⟩ := ext4FindExtent_spec ht hd b
  have hfound := found_of_find ht hq
  refine ⟨_, hq, nextAllocatedBlock_eq ht hfound, ?_⟩
  cases hscan : t.extents.find? fun ex => decide (blockView.Covers ex b) with
  | some ex =>
    have hc : blockView.Covers ex b := by simpa using List.find?_some hscan
    obtain ⟨rest, hafter⟩ := hfound.eq_of_covers ht (List.mem_of_find?_eq_some hscan) hc
    exact ⟨by rw [ExtPath.ext, hafter]; rfl, search_of_covers read hafter hc⟩
  | none =>
    have hb : t.mapping b = none := by
      rw [ExtTree.mapping, mapping, Segments.View.get, hscan]
      rfl
    exact ⟨searchLeft_spec ht hfound hphys hb, searchRight_spec ht hfound hphys hb read⟩

/-- A file of one extent. -/
def oneExtent (lblk len start : Nat) : ExtTree := ⟨0, ([⟨lblk, len, start⟩] : List Extent)⟩

theorem oneExtent_ok {lblk len : Nat} (start : Nat) (hpos : 0 < len)
    (hlen : len ≤ extUnwrittenMaxLen) (hend : lblk + len ≤ extMaxBlocks) :
    (oneExtent lblk len start).Ok 4096 := by
  refine ⟨trivial, (by decide : 1 ≤ ext4ExtSpaceRoot), fun ex hex => ?_,
    List.pairwise_singleton _ _⟩
  rw [List.mem_singleton.mp hex]
  have hmax : extUnwrittenMaxLen < 2 ^ 15 := by decide
  have hactual : ext4ExtGetActualLen ⟨lblk, len, start⟩ = len := if_pos (by
    show len ≤ 2 ^ 15
    omega)
  refine ⟨by rwa [hactual], ?_, ?_⟩
  · show len < 2 ^ 16
    omega
  · show lblk + ext4ExtGetActualLen _ ≤ extMaxBlocks
    rwa [hactual]

/-- Two leaves below one root: the blocks 5 to 8, and block 20. -/
def twoLeaves : ExtTree := ⟨1, [⟨5, 70, [⟨5, 4, 100⟩]⟩, ⟨20, 71, [⟨20, 1, 200⟩]⟩]⟩

theorem twoLeaves_ok : twoLeaves.Ok 1024 := by
  refine ⟨⟨by simp [twoLeaves], fun x hx => ?_⟩, by decide, by decide, ?_⟩
  · rcases List.mem_cons.mp hx with rfl | hx
    · exact ⟨trivial, by decide, rfl⟩
    · rw [List.mem_singleton.mp hx]
      exact ⟨trivial, by decide, rfl⟩
  · exact List.pairwise_pair.mpr (show (9 : Nat) ≤ 20 by decide)

/-- In front of the first extent the next allocated block is not the nearest
one, and a search around a mapped block fails. -/
theorem searches_not_scan :
    (∃ p, ext4FindExtent twoLeaves 0 = .ok p ∧ ext4ExtNextAllocatedBlock p = 20
        ∧ (twoLeaves.mapping 5).isSome = true)
      ∧ ∃ p, ext4FindExtent twoLeaves 6 = .ok p
        ∧ ext4ExtSearchLeft p 6 = .error .efscorrupted
        ∧ (twoLeaves.mapping 5).isSome = true :=
  ⟨⟨_, rfl, rfl, rfl⟩, _, rfl, rfl, rfl⟩

/-- From a hole behind the first leaf the search climbs into the second. -/
theorem searches_eq_scan_climb :
    ∃ p, ext4FindExtent twoLeaves 12 = .ok p
      ∧ ∃ r, ext4ExtSearchRight (fun _ => none) p 12 = .ok r ∧ r.1 = ⟨20, 200⟩
        ∧ RightOf twoLeaves 12 r := by
  have hphys : ∀ ex ∈ twoLeaves.extents, 0 < ex.eeStart := by decide
  obtain ⟨p, hp, -, hscan⟩ :=
    searches_eq_scan (fun _ => none) twoLeaves_ok (by decide) hphys 12
  obtain ⟨-, ⟨_, _, hread, -⟩ | ⟨r, hr, hright⟩⟩ := hscan
  · nomatch hread
  · refine ⟨p, hp, r, hr, ?_, hright⟩
    cases hp
    cases hr
    rfl

end Searches

end Ext4.Extents
