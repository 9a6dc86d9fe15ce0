import Ext4.Extents.Leaf

/-!
# Extent trees — making room

`ext4_ext_split` cuts the tree along a path. What is behind the path goes to
a new subtree, and the new extent then belongs to the end of the half that
stays, or to a leaf of its own at the start of the new half. In both cases
the search that follows finds a leaf with room, and everything else is in
order.
-/

namespace Ext4.Extents

open IndexTree

/-! ## The two halves -/

/-- The path, in the half that stays. -/
def stay : (d : Nat) → Path Extent d → Path Extent d
  | 0, c => ⟨c.before, c.after.take 1⟩
  | d + 1, p => ⟨p.before, p.key, p.ptr, stay d p.down, []⟩

/-- The path to the first leaf of the new half. -/
def moved (border : Nat) : (d : Nat) → List Nat → Path Extent d → Path Extent d
  | 0, _, c => ⟨[], c.after.drop 1⟩
  | d + 1, bs, p => ⟨[], border, bs.tail.headD 0, moved border d bs.tail p.down, p.after⟩

section Halves

variable {cap border : Nat}

section

variable (d : Nat) (p : Path Extent d)

theorem close_stay (bs : List Nat) : close d (stay d p) = (cutBelow border d bs p).1 := by
  induction d generalizing bs with
  | zero => rfl
  | succ d ih =>
    rw [stay, close, ih p.down bs.tail]
    rfl

theorem close_moved (bs : List Nat) :
    close d (moved border d bs p) = (cutBelow border d bs p).2 := by
  induction d generalizing bs with
  | zero => rfl
  | succ d ih =>
    rw [moved, close, ih p.down bs.tail]
    rfl

theorem leaf_stay : leaf d (stay d p) = ⟨(leaf d p).before, (leaf d p).after.take 1⟩ := by
  induction d with
  | zero => rfl
  | succ d ih => exact ih p.down

theorem left_stay : left d (stay d p) = left d p := by
  induction d with
  | zero => rfl
  | succ d ih => exact congrArg (_ ++ ·) (ih p.down)

theorem right_stay : right d (stay d p) = [] := by
  induction d with
  | zero => rfl
  | succ d ih =>
    rw [stay, right, ih p.down]
    rfl

theorem leaf_moved (bs : List Nat) :
    leaf d (moved border d bs p) = ⟨[], (leaf d p).after.drop 1⟩ := by
  induction d generalizing bs with
  | zero => rfl
  | succ d ih => exact ih p.down bs.tail

theorem left_moved (bs : List Nat) : left d (moved border d bs p) = [] := by
  induction d generalizing bs with
  | zero => rfl
  | succ d ih =>
    rw [moved, left, ih p.down bs.tail]
    rfl

theorem right_moved (bs : List Nat) : right d (moved border d bs p) = right d p := by
  induction d generalizing bs with
  | zero => rfl
  | succ d ih => exact congrArg (· ++ _) (ih p.down bs.tail)

end

theorem width_stay_le {d : Nat} (p : Path Extent d) :
    width d (close d (stay d p)) ≤ width d (close d p) := by
  cases d with
  | zero =>
    show (p.before ++ p.after.take 1).length ≤ (p.before ++ p.after).length
    simp only [List.length_append, List.length_take]
    omega
  | succ d =>
    show (p.before ++ [_]).length ≤ (p.before ++ _ :: p.after).length
    simp only [List.length_append, List.length_cons, List.length_nil]
    omega

theorem width_moved_le {d : Nat} (bs : List Nat) (p : Path Extent d) :
    width d (close d (moved border d bs p)) ≤ width d (close d p) := by
  cases d with
  | zero =>
    show ([] ++ p.after.drop 1).length ≤ (p.before ++ p.after).length
    simp only [List.length_append, List.length_drop, List.nil_append]
    omega
  | succ d =>
    show p.after.length + 1 ≤ (p.before ++ _ :: p.after).length
    simp only [List.length_append, List.length_cons]
    omega

section

variable {d : Nat} {p : Path Extent d} (h : Beside Extent.eeBlock cap d p)
include h

theorem beside_stay : Beside Extent.eeBlock cap d (stay d p) := by
  induction d with
  | zero => trivial
  | succ d ih =>
    obtain ⟨h1, -, h3, h4⟩ := h
    exact ⟨h1, nofun, fun hd => Nat.le_trans (width_stay_le p.down) (h3 hd), ih h4⟩

theorem beside_moved (bs : List Nat) : Beside Extent.eeBlock cap d (moved border d bs p) := by
  induction d generalizing bs with
  | zero => trivial
  | succ d ih =>
    obtain ⟨-, h2, h3, h4⟩ := h
    exact ⟨nofun, h2,
      fun hd => Nat.le_trans (width_moved_le bs.tail p.down) (h3 hd), ih h4 bs.tail⟩

end

theorem spine_stay {f : Option Nat} {d : Nat} {p : Path Extent d}
    (h : Spine Extent.eeBlock f d p) : Spine Extent.eeBlock f d (stay d p) := by
  induction d with
  | zero => trivial
  | succ d ih =>
    refine ⟨ih h.1, fun k hk => h.2 k ?_⟩
    rwa [show (stay (d + 1) p).down = stay d p.down from rfl, left_stay] at hk

theorem spine_moved (d : Nat) (bs : List Nat) (p : Path Extent d) :
    Spine Extent.eeBlock (some border) d (moved border d bs p) := by
  induction d generalizing bs with
  | zero => trivial
  | succ d ih =>
    refine ⟨ih bs.tail p.down, fun k hk => ?_⟩
    rw [show (moved border (d + 1) bs p).down = moved border d bs.tail p.down from rfl,
      left_moved] at hk
    exact Option.some.inj hk

/-- The search for a block goes the same way in the half that stays. -/
theorem routes_stay {b d : Nat} {p : Path Extent d} (h : Routes Extent.eeBlock b d p) :
    Routes Extent.eeBlock b d (stay d p) := by
  induction d with
  | zero =>
    obtain ⟨before, after⟩ := p
    cases after with
    | nil => exact h
    | cons ex rest =>
      have hr : Routed (before.map Extent.eeBlock) ex.eeBlock b (rest.map Extent.eeBlock) := h
      have hs := hr.sorted
      rw [List.append_cons, List.pairwise_append] at hs
      exact ⟨hs.1, hr.low, nofun⟩
  | succ d ih =>
    obtain ⟨hr, hdown⟩ := h
    have hs := hr.sorted
    rw [List.append_cons, List.pairwise_append] at hs
    exact ⟨⟨hs.1, hr.low, nofun⟩, ih hdown⟩

/-- The search for the border goes to the new leaf, if that is empty. -/
theorem routes_moved {d : Nat} (bs : List Nat) {p : Path Extent d}
    (h : Routes Extent.eeBlock border d p) (hnil : (leaf d p).after.drop 1 = []) :
    Routes Extent.eeBlock border d (moved border d bs p) := by
  induction d generalizing bs with
  | zero =>
    have hm : moved border 0 bs p = ⟨[], []⟩ := congrArg (Cut.mk []) hnil
    rw [hm]
    rfl
  | succ d ih =>
    obtain ⟨hr, hdown⟩ := h
    refine ⟨⟨?_, fun hne => absurd rfl hne, hr.high⟩, ih bs.tail hdown hnil⟩
    have hs := hr.sorted
    rw [List.pairwise_append, List.pairwise_cons] at hs
    exact List.pairwise_cons.mpr ⟨fun y hy => Nat.le_of_lt (hr.high y hy), hs.2.1.2⟩

end Halves

/-! ## The tree after a split -/

/-- How the path `q` of the new tree comes from the path `p` that was split:
`l` went from its leaf to the left, `r` to the right. -/
structure SplitsTo (cap b d : Nat) (p q : Path Extent d) (l r : List Extent) (f : Option Nat) :
    Prop where
  beside : Beside Extent.eeBlock cap d q
  left_eq : left d q = left d p ++ l
  right_eq : right d q = r ++ right d p
  spine : Spine Extent.eeBlock f d q
  routes : Routes Extent.eeBlock b d q

variable {ex : Extent}

section Split

variable {cap b d : Nat} {l r : List Extent} {f : Option Nat}

theorem SplitsTo.up {p : Path Extent (d + 1)} {q : Path Extent d}
    (h : SplitsTo cap b d p.down q l r f) (hk : Keyed Extent.eeBlock cap (d + 1) (close (d + 1) p))
    (hw : d ≠ 0 → width d (close d q) ≤ cap) (hr : Routes Extent.eeBlock b (d + 1) p)
    (hf : (l.head?.map Extent.eeBlock).or f = (leaf d p.down).toList.head?.map Extent.eeBlock) :
    SplitsTo cap b (d + 1) p { p with down := q } l r f := by
  obtain ⟨h1, h2, h3⟩ := keyed_succ.mp hk
  have hne : (leaf d p.down).toList ≠ [] := hk.leaf_ne_nil
  refine ⟨⟨h1, h3, hw, h.beside⟩, ?_, ?_, ⟨h.spine, fun k hkey => ?_⟩, hr.1, h.routes⟩
  · show p.before.flatMap _ ++ left d q = _
    rw [h.left_eq, ← List.append_assoc]
    rfl
  · show right d q ++ p.after.flatMap _ = _
    rw [h.right_eq, List.append_assoc]
    rfl
  · -- the node below begins where it did
    have hfirst := firstKey_close Extent.eeBlock d p.down hne
    rw [← hf] at hfirst
    have hkey' : ((left d q).head?.map Extent.eeBlock).or f = some k := hkey
    rw [h.left_eq, List.head?_append, Option.map_or, Option.or_assoc, ← hfirst] at hkey'
    exact Option.some.inj (h2.first.symm.trans hkey')

theorem pairwise_insert {A B : List Nat} {k m : Nat} (h : (A ++ k :: B).Pairwise (· ≤ ·))
    (hkm : k ≤ m) (hmB : ∀ y ∈ B, m ≤ y) : (A ++ k :: m :: B).Pairwise (· ≤ ·) := by
  obtain ⟨h1, h2, h3⟩ := List.pairwise_append.mp h
  obtain ⟨h4, h5⟩ := List.pairwise_cons.mp h2
  have hk : ∀ y ∈ m :: B, k ≤ y :=
    List.forall_mem_cons.mpr ⟨hkm, fun y hy => Nat.le_trans hkm (hmB y hy)⟩
  refine List.pairwise_append.mpr ⟨h1, List.pairwise_cons.mpr ⟨hk,
    List.pairwise_cons.mpr ⟨hmB, h5⟩⟩, fun x hx => ?_⟩
  have hxk := h3 x hx k List.mem_cons_self
  exact List.forall_mem_cons.mpr ⟨hxk, fun y hy => Nat.le_trans hxk (hk y hy)⟩

section

variable {p : Path Extent (d + 1)} (hk : Keyed Extent.eeBlock cap (d + 1) (close (d + 1) p))
  (hs : (flat (d + 1) (close (d + 1) p)).Pairwise fun x y => x.eeBlock < y.eeBlock)

include hk hs

theorem key_above (hex : ex ∈ flat d (close d p.down)) :
    ∀ y ∈ p.after.map Entry.key, ex.eeBlock ≤ y := by
  intro y hy
  obtain ⟨x, hx, rfl⟩ := List.mem_map.mp hy
  obtain ⟨e, he, hek⟩ := Option.map_eq_some_iff.mp ((keyed_succ.mp hk).2.2 x hx).first
  rw [close, flat_append, flat_cons] at hs
  have hlt := (List.pairwise_append.mp (List.pairwise_append.mp hs).2.1).2.2 ex hex e
    (List.mem_flatMap.mpr ⟨x, hx, List.mem_of_mem_head? he⟩)
  rw [← hek]
  exact Nat.le_of_lt hlt

theorem insertIndex_stay {y : Extent} {rest : List Extent} (bs : List Nat)
    (hr : Routes Extent.eeBlock b (d + 1) p) (hafter : (leaf d p.down).after = ex :: y :: rest)
    (hb : b < y.eeBlock) :
    ∃ q, ext4ExtInsertIndex p.before ⟨p.key, p.ptr, (cutBelow y.eeBlock d bs p.down).1⟩
        ⟨y.eeBlock, bs.headD 0, (cutBelow y.eeBlock d bs p.down).2⟩ p.after = .ok (close (d + 1) q)
      ∧ SplitsTo cap b (d + 1) p q [] (y :: rest)
        ((leaf d p.down).toList.head?.map Extent.eeBlock)
      ∧ leaf (d + 1) q = ⟨(leaf d p.down).before, [ex]⟩ := by
  obtain ⟨h1, h2, h3⟩ := keyed_succ.mp hk
  have hs' := pairwise_down hs
  have hflat : flat d (close d p.down)
      = (left d p.down ++ (leaf d p.down).before ++ [ex]) ++ y :: (rest ++ right d p.down) := by
    rw [flat_close, Cut.toList, hafter]
    simp
  have hex : ex ∈ flat d (close d p.down) := by rw [hflat]; simp
  have hy : y ∈ flat d (close d p.down) := by rw [hflat]; simp
  have hlt : ex.eeBlock < y.eeBlock := by
    rw [hflat] at hs'
    exact (List.pairwise_append.mp hs').2.2 ex (by simp) y List.mem_cons_self
  have hkey : p.key < y.eeBlock := Nat.lt_of_le_of_lt (h2.key_le hs' hex) hlt
  have hleaf : leaf d (moved y.eeBlock d bs p.down) = ⟨[], y :: rest⟩ := by
    rw [leaf_moved, hafter]
    rfl
  have hfit : Fits Extent.eeBlock cap d (Keyed Extent.eeBlock cap d)
      ⟨y.eeBlock, bs.headD 0, close d (moved y.eeBlock d bs p.down)⟩ := by
    refine ⟨keyed_of_spine (beside_moved h2.inner.beside bs) ?_ ?_ fun hd => ?_,
      Nat.le_trans (width_moved_le bs p.down) h2.width_le, ?_⟩
    · rw [hleaf]
      exact spine_moved d bs p.down
    · rw [hleaf]
      simp [Cut.toList]
    · obtain ⟨d, rfl⟩ := Nat.exists_eq_succ_of_ne_zero hd
      have hlen := h2.inner.leaf_length_le
      rw [Cut.toList, hafter] at hlen
      rw [hleaf]
      simp [Cut.toList] at hlen ⊢
      omega
    · show firstKey Extent.eeBlock d (close d (moved y.eeBlock d bs p.down)) = some y.eeBlock
      rw [firstKey_close _ d _ (by rw [hleaf]; simp [Cut.toList]), left_moved, hleaf]
      rfl
  refine ⟨⟨p.before, p.key, p.ptr, stay d p.down,
    ⟨y.eeBlock, bs.headD 0, close d (moved y.eeBlock d bs p.down)⟩ :: p.after⟩, ?_,
    ⟨⟨h1, List.forall_mem_cons.mpr ⟨hfit, h3⟩,
      fun _ => Nat.le_trans (width_stay_le p.down) h2.width_le,
      beside_stay h2.inner.beside⟩, ?_, ?_, ⟨spine_stay h2.inner.spine, fun k hk' => ?_⟩,
      ⟨?_, hr.1.low, List.forall_mem_cons.mpr ⟨hb, hr.1.high⟩⟩, routes_stay hr.2⟩, ?_⟩
  · rw [ext4ExtInsertIndex, if_neg (Nat.ne_of_gt hkey), if_pos hkey, ← close_stay, ← close_moved]
    rfl
  · rw [List.append_nil, left, left_stay]
    rfl
  · rw [right, right_stay, List.flatMap_cons, flat_close, left_moved, right_moved, hleaf]
    simp [Cut.toList, right]
  · have hkey' : ((left d (stay d p.down)).head?.map Extent.eeBlock).or
        ((leaf d p.down).toList.head?.map Extent.eeBlock) = some k := hk'
    rw [left_stay, ← firstKey_close _ d p.down hk.leaf_ne_nil] at hkey'
    exact Option.some.inj (h2.first.symm.trans hkey')
  · exact pairwise_insert hr.1.sorted (Nat.le_of_lt hkey) (key_above hk hs hy)
  · show leaf d (stay d p.down) = _
    rw [leaf_stay, hafter]
    rfl

/-- The node with the free entry, when the new extent gets a leaf of its own. -/
theorem insertIndex_moved (bs : List Nat) (hr : Routes Extent.eeBlock b (d + 1) p)
    (hafter : (leaf d p.down).after = [ex]) (hb : ex.eeBlock < b) :
    ∃ q, ext4ExtInsertIndex p.before ⟨p.key, p.ptr, (cutBelow b d bs p.down).1⟩
        ⟨b, bs.headD 0, (cutBelow b d bs p.down).2⟩ p.after = .ok (close (d + 1) q)
      ∧ SplitsTo cap b (d + 1) p q (leaf d p.down).toList [] none
      ∧ leaf (d + 1) q = ⟨[], []⟩ := by
  obtain ⟨h1, h2, h3⟩ := keyed_succ.mp hk
  have hs' := pairwise_down hs
  have hex : ex ∈ flat d (close d p.down) := by
    rw [flat_close, Cut.toList, hafter]
    simp
  have hkey : p.key < b := Nat.lt_of_le_of_lt (h2.key_le hs' hex) hb
  have hne : (leaf d p.down).toList ≠ [] := hk.leaf_ne_nil
  have hleaf : leaf d (stay d p.down) = leaf d p.down := by
    rw [leaf_stay, hafter, List.take_succ_cons, List.take_zero, ← hafter]
  have hfit : Fits Extent.eeBlock cap d (Keyed Extent.eeBlock cap d)
      ⟨p.key, p.ptr, close d (stay d p.down)⟩ := by
    refine ⟨keyed_of_spine (beside_stay h2.inner.beside) ?_ ?_ fun hd => ?_,
      Nat.le_trans (width_stay_le p.down) h2.width_le, ?_⟩
    · rw [hleaf]
      exact spine_stay h2.inner.spine
    · rwa [hleaf]
    · obtain ⟨d, rfl⟩ := Nat.exists_eq_succ_of_ne_zero hd
      rw [hleaf]
      exact h2.inner.leaf_length_le
    · show firstKey Extent.eeBlock d (close d (stay d p.down)) = some p.key
      rw [firstKey_close _ d _ (by rwa [hleaf]), hleaf, left_stay, ← firstKey_close _ d p.down hne]
      exact h2.first
  refine ⟨⟨p.before ++ [⟨p.key, p.ptr, close d (stay d p.down)⟩], b, bs.headD 0,
    moved b d bs p.down, p.after⟩, ?_,
    ⟨⟨List.forall_mem_append.mpr ⟨h1, List.forall_mem_singleton.mpr hfit⟩, h3,
      fun _ => Nat.le_trans (width_moved_le bs p.down) h2.width_le,
      beside_moved h2.inner.beside bs⟩, ?_, ?_, ⟨(spine_moved d bs p.down).weaken, fun k hk' => ?_⟩,
      ⟨?_, fun _ => Nat.le_refl b, hr.1.high⟩, routes_moved bs hr.2 (by rw [hafter]; rfl)⟩, ?_⟩
  · rw [ext4ExtInsertIndex, if_neg (Nat.ne_of_gt hkey), if_pos hkey,
      ← close_stay, ← close_moved, List.append_cons]
    rfl
  · rw [left, left_moved, List.flatMap_append, List.flatMap_singleton, flat_close, left_stay,
      right_stay, hleaf]
    simp [left]
  · rw [right, right_moved]
    rfl
  · replace hk' : ((left d (moved b d bs p.down)).head?.map Extent.eeBlock).or none = some k := hk'
    rw [left_moved] at hk'
    cases hk'
  · have := pairwise_insert hr.1.sorted (Nat.le_of_lt hkey) fun y hy => Nat.le_of_lt
      (hr.1.high y hy)
    simpa using this
  · show leaf d (moved b d bs p.down) = _
    rw [leaf_moved, hafter]
    rfl

end

/-- A split finds the lowest node with a free entry, and that node is the
only one that gets wider. -/
theorem split_spec {blocksize border : Nat} {bs : List Nat} {c t : Cut Extent}
    (hf : (l.head?.map Extent.eeBlock).or f = c.toList.head?.map Extent.eeBlock)
    (hhost : ∀ (d : Nat) (p : Path Extent (d + 1)),
      Keyed Extent.eeBlock (ext4ExtSpaceBlock blocksize) (d + 1) (close (d + 1) p) →
      (flat (d + 1) (close (d + 1) p)).Pairwise (fun x y => x.eeBlock < y.eeBlock) →
      Routes Extent.eeBlock b (d + 1) p → leaf d p.down = c →
      ∃ q, ext4ExtInsertIndex p.before ⟨p.key, p.ptr, (cutBelow border d bs p.down).1⟩
          ⟨border, bs.headD 0, (cutBelow border d bs p.down).2⟩ p.after = .ok (close (d + 1) q)
        ∧ SplitsTo (ext4ExtSpaceBlock blocksize) b (d + 1) p q l r f ∧ leaf (d + 1) q = t)
    {max : Nat} {p : Path Extent d} {res : Except Errno (Node Extent d)}
    (hk : Keyed Extent.eeBlock (ext4ExtSpaceBlock blocksize) d (close d p))
    (hs : (flat d (close d p)).Pairwise fun x y => x.eeBlock < y.eeBlock)
    (hr : Routes Extent.eeBlock b d p) (hleaf : leaf d p = c) (hw : width d (close d p) ≤ max)
    (h : ext4ExtSplit blocksize border bs d max p = some res) :
    res = .error .enospc ∨ ∃ q, res = .ok (close d q)
      ∧ SplitsTo (ext4ExtSpaceBlock blocksize) b d p q l r f ∧ leaf d q = t
      ∧ width d (close d q) ≤ max := by
  induction d generalizing max with
  | zero => nomatch h
  | succ d ih =>
    rw [ext4ExtSplit] at h
    have h2 := (keyed_succ.mp hk).2.1
    cases hbelow : ext4ExtSplit blocksize border bs d (ext4ExtSpaceBlock blocksize) p.down with
    | some sub =>
      rw [hbelow] at h
      injection h with h
      rcases ih h2.inner (pairwise_down hs) hr.2 hleaf h2.width_le hbelow with rfl | ⟨q, rfl, hq⟩
      · exact .inl h.symm
      · obtain ⟨hsplit, hq', hwq⟩ := hq
        refine .inr ⟨{ p with down := q }, h.symm, hsplit.up hk (fun _ => hwq) hr ?_, hq', ?_⟩
        · rw [hf, ← hleaf]
          rfl
        · refine Nat.le_trans (Nat.le_of_eq ?_) hw
          show (p.before ++ _ :: p.after).length = (p.before ++ _ :: p.after).length
          simp
    | none =>
      rw [hbelow] at h
      dsimp only at h
      split at h
      · split at h
        · injection h with h
          exact .inl h.symm
        · injection h with h
          obtain ⟨q, hq, hsplit, hq'⟩ := hhost d p hk hs hr hleaf
          refine .inr ⟨q, h.symm.trans hq, hsplit, hq', ?_⟩
          rw [ext4ExtInsertIndex] at hq
          have hwidth : width (d + 1) (close (d + 1) q) = p.before.length + 1 + p.after.length
              + 1 := by
            split at hq
            · cases hq
            · split at hq <;> injection hq with hq <;> rw [← hq, width, List.length_append,
                List.length_cons, List.length_cons] <;> omega
          omega
      · nomatch h

end Split

end Ext4.Extents
