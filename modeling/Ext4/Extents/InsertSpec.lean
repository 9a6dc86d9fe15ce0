import Ext4.Extents.Split

/-!
# Extent trees — what an insertion does

Whichever way `ext4_ext_insert_extent` finds a place, the tree afterwards
stores the old extents and the new one, up to merging, and it is well formed.
-/

namespace Ext4.Extents

open IndexTree BinarySearch

/-! ## Leaves with room -/

/-- A path whose leaf can take the new extent, in a tree that stores `es`. -/
structure Prepared (blocksize : Nat) (newext : Extent) (es : List Extent) (d : Nat)
    (p : Path Extent d) : Prop where
  ready : Ready blocksize d p
  room : (leaf d p).toList.length < leafMax blocksize d
  extents : left d p ++ (leaf d p).toList ++ right d p = es
  spine : Spine Extent.eeBlock none d p
  place : ∃ b a, placeNew (leaf d p) newext = some (b ++ newext :: a, b.length)
    ∧ (leaf d p).toList = b ++ a ∧ Gap newext (left d p ++ b) (a ++ right d p)
    ∧ (b ≠ [] → Spine Extent.eeBlock ((leaf d p).toList.head?.map Extent.eeBlock) d p)

variable {x : Extent} {r : Inserted} {es : List Extent} {b max : Nat}

section Prepared

variable {blocksize d : Nat} {newext : Extent} {p : Path Extent d}

theorem prepared_of_located (ht : ExtTree.Ok blocksize ⟨d, close d p⟩)
    (hloc : Located Extent.eeBlock newext.eeBlock d p) (hnew : newext.Ok)
    (hfree : Free newext (flat d (close d p)))
    (hroom : (leaf d p).toList.length < leafMax blocksize d) :
    Prepared blocksize newext (flat d (close d p)) d p := by
  obtain ⟨b, a, h1, h2, h3⟩ := placeNew_spec hfree ht.extentsOk hnew hloc
  exact ⟨ht.ready, hroom, (flat_close d p).symm, ht.keyed.spine.weaken,
    b, a, h1, h2, h3, fun _ => ht.keyed.spine⟩

theorem Prepared.hasSpace {env : InsertEnv} (h : Prepared env.blocksize newext es d p)
    (preIo : Bool) (back : Path Extent d → Path Extent d)
    (hback : ∀ c, close d (back (rekey Extent.eeBlock d (setLeaf d p c)))
      = close d (rekey Extent.eeBlock d (setLeaf d p c))) (hnew : newext.Ok) (hes : ExtentsOk es) :
    (∀ e, (hasSpace env preIo newext d p back).err = some e → env.Late e)
      ∧ ((hasSpace env preIo newext d p back).err = none →
        (hasSpace env preIo newext d p back).path.tree.Ok env.blocksize
        ∧ InsertsAs preIo newext es (hasSpace env preIo newext d p back).path.tree.extents) := by
  obtain ⟨b, a, hplace, hleaf, hgap, hs'⟩ := h.place
  obtain ⟨h0, h1⟩ := hasSpace_spec preIo h.ready hback hnew hplace hleaf h.room
    hgap (h.extents ▸ hes) h.spine hs'
  refine ⟨h0, fun herr => ?_⟩
  obtain ⟨h2, h3, h4⟩ := h1 herr
  refine ⟨h2, _, _, ?_, hgap, h3, fun hpre => ?_⟩
  · rw [← h.extents, hleaf]
    simp
  · rw [h4 hpre, ExtPath.tree, ExtTree.extents, hback, flat_close_rekey, flat_close, left_setLeaf,
      right_setLeaf, leaf_setLeaf, Cut.toList]
    simp

end Prepared

theorem append_cons_unique {A A' B B' : List Extent}
    (hs : (A ++ x :: B).Pairwise fun y z => y.eeBlock < z.eeBlock)
    (h : A ++ x :: B = A' ++ x :: B') : A = A' ∧ B = B' := by
  obtain ⟨-, hB, hA⟩ := List.pairwise_append.mp hs
  have h1 : x ∉ A := fun hx => Nat.lt_irrefl _ (hA x hx x List.mem_cons_self)
  have h2 : x ∉ B := fun hx => Nat.lt_irrefl _ (List.rel_of_pairwise_cons hB hx)
  exact ((List.append_cons_inj_of_notMem h1 h2).mp h).imp_right And.right

section Next

variable {blocksize d : Nat} {newext : Extent} {p np : Path Extent d}

/-- The next leaf, when everything in this one is in front of the new extent. -/
theorem prepared_next (ht : ExtTree.Ok blocksize ⟨d, close d p⟩)
    (hloc : Located Extent.eeBlock newext.eeBlock d p) (hfree : Free newext (flat d (close d p)))
    (hbelow : ∀ ex ∈ left d p ++ (leaf d p).toList, ex.eeEnd ≤ newext.eeBlock) {R : List Extent}
    (hright : right d p = x :: R) (hclose : close d np = close d p)
    (hnp : Located Extent.eeBlock x.eeBlock d np)
    (hroom : (leaf d np).toList.length < leafMax blocksize d) :
    Prepared blocksize newext (flat d (close d p)) d np := by
  have hs : (flat d (close d p)).Pairwise fun y z => y.eeBlock < z.eeBlock := ht.sorted
  have habove := gap_above hfree ht.extentsOk hloc
  have hflat : flat d (close d p) = (left d p ++ (leaf d p).toList) ++ x :: R := by
    rw [flat_close, hright]
  -- the path stands at `x`, the first extent of the next leaf
  obtain ⟨rest, hafter⟩ : ∃ rest, (leaf d np).after = x :: rest := by
    cases hla : (leaf d np).after with
    | nil =>
      have hnil := hnp.empty hla
      rw [hclose, hflat] at hnil
      simp at hnil
    | cons e rest =>
      refine ⟨rest, ?_⟩
      have hflat' : flat d (close d p)
          = (left d np ++ (leaf d np).before) ++ e :: (rest ++ right d np) := by
        rw [← hclose, flat_of_after hla]
      have hx : x ∈ (left d np ++ (leaf d np).before) ++ e :: (rest ++ right d np) := by
        rw [← hflat', hflat]
        simp
      have hlow := hnp.low e (by rw [hla]; rfl)
      have hhigh := hnp.high
      rw [hla, List.tail_cons] at hhigh
      rcases List.mem_append.mp hx with hx | hx
      · rw [hflat'] at hs
        have hlt := (List.pairwise_append.mp hs).2.2 x hx e List.mem_cons_self
        rw [hlow hlt] at hx
        cases hx
      · rcases List.mem_cons.mp hx with rfl | hx
        · rfl
        · exact absurd (hhigh x hx) (Nat.lt_irrefl _)
  have hflat' : (left d p ++ (leaf d p).toList) ++ x :: R
      = (left d np ++ (leaf d np).before) ++ x :: (rest ++ right d np) := by
    rw [← hflat, ← hclose, flat_of_after hafter]
  obtain ⟨hleft, hrest⟩ := append_cons_unique (hflat ▸ hs) hflat'
  have htnp : ExtTree.Ok blocksize ⟨d, close d np⟩ := hclose ▸ ht
  have hx : newext.eeBlock < x.eeBlock := by
    refine hloc.high x ?_
    rw [hright]
    simp
  refine ⟨htnp.ready, hroom, ?_, htnp.keyed.spine.weaken, (leaf d np).before, x :: rest, ?_, ?_,
    ⟨?_, fun ex hex => habove ex ?_⟩, fun _ => htnp.keyed.spine⟩
  · rw [← flat_close, hclose]
  · rw [placeNew, hafter]
    dsimp only
    rw [if_neg (Nat.lt_asymm hx), if_neg (Nat.ne_of_gt hx)]
  · rw [Cut.toList, hafter]
  · rw [← hleft]
    exact hbelow
  · rw [hright, hrest]
    exact List.mem_append_right _ hex

theorem reopen_close (d : Nat) (p : Path Extent d) : reopen d p (close d p) = p := by
  induction d with
  | zero =>
    show Cut.mk ((p.before ++ p.after).take p.before.length)
      ((p.before ++ p.after).drop p.before.length) = p
    rw [List.take_left, List.drop_left]
  | succ d ih =>
    rw [reopen, close, zipAt_append]
    dsimp only
    rw [ih p.down]

theorem close_reopen_succ {p : Path Extent (d + 1)} {xs : List (Entry (Node Extent d))}
    (before : List (Entry (Node Extent d))) (x : Entry (Node Extent d))
    (after : List (Entry (Node Extent d))) (hxs : xs = before ++ x :: after)
    (hlen : before.length = p.before.length) (h : close d (reopen d p.down x.child) = x.child) :
    close (d + 1) (reopen (d + 1) p xs) = xs := by
  rw [reopen, ← hlen, hxs, zipAt_append]
  rw [close, h]

/-- The slots of a path are there again after an edit of another leaf. -/
theorem close_reopen (hclose : close d np = close d p) (c : Cut Extent) :
    close d (reopen d p (close d (rekey Extent.eeBlock d (setLeaf d np c))))
      = close d (rekey Extent.eeBlock d (setLeaf d np c)) := by
  induction d with
  | zero =>
    show Cut.toList ⟨List.take p.before.length c.toList, List.drop p.before.length c.toList⟩
      = c.toList
    exact cut_toList _ _
  | succ d ih =>
    have heq : np.before ++ ⟨np.key, np.ptr, close d np.down⟩ :: np.after
        = p.before ++ ⟨p.key, p.ptr, close d p.down⟩ :: p.after := hclose
    have hown : close d (reopen d p.down (close d p.down)) = close d p.down := by
      rw [reopen_close]
    generalize hx : (⟨p.key, p.ptr, close d p.down⟩ : Entry (Node Extent d)) = x at heq
    generalize hy : (⟨np.key, np.ptr, close d np.down⟩ : Entry (Node Extent d)) = y at heq
    obtain ⟨k, hform⟩ : ∃ k, close (d + 1) (rekey Extent.eeBlock (d + 1) (setLeaf (d + 1) np c))
        = np.before ++ ⟨k, np.ptr, close d (rekey Extent.eeBlock d (setLeaf d np.down c))⟩
          :: np.after :=
      ⟨_, rfl⟩
    rw [hform]
    rcases List.append_eq_append_iff.mp heq with ⟨as, h1, h2⟩ | ⟨as, h1, h2⟩
    · cases as with
      | nil =>
        injection h2 with h3 _
        rw [← hx, ← hy] at h3
        injection h3 with _ _ h4
        refine close_reopen_succ _ _ _ rfl (by rw [h1, List.append_nil]) ?_
        exact ih h4
      | cons z as =>
        -- the edited leaf is on the left of the path
        injection h2 with _ h4
        refine close_reopen_succ
          (np.before ++ ⟨k, np.ptr, close d (rekey Extent.eeBlock d (setLeaf d np.down c))⟩ :: as)
          x p.after ?_ ?_ (by rw [← hx]; exact hown)
        · rw [h4, List.append_assoc]
          rfl
        · rw [h1]
          simp
    · cases as with
      | nil =>
        injection h2 with h3 _
        rw [← hx, ← hy] at h3
        injection h3 with _ _ h4
        refine close_reopen_succ _ _ _ rfl (by rw [← List.append_nil p.before, ← h1]) ?_
        exact ih h4.symm
      | cons z as =>
        -- the edited leaf is on the right of the path
        injection h2 with h3 h4
        refine close_reopen_succ p.before x
          (as ++ ⟨k, np.ptr, close d (rekey Extent.eeBlock d (setLeaf d np.down c))⟩ :: np.after)
          ?_ rfl (by rw [← hx]; exact hown)
        rw [h1, h3, List.append_assoc]
        rfl

end Next

/-! ## New leaves -/

theorem spaceBlock_ge {blocksize : Nat} (h : 1024 ≤ blocksize) :
    84 ≤ ext4ExtSpaceBlock blocksize := by
  rw [ext4ExtSpaceBlock]
  omega

theorem spaceRoot_eq : ext4ExtSpaceRoot = 4 := rfl

section Create

variable {blocksize d : Nat} {newext : Extent} {p : Path Extent d}

/-- What making room comes to: a leaf with room, or an error that changed no
extent unless the call failed late. -/
def RoomOrSame (env : InsertEnv) (newext : Extent) (p : ExtPath) (r : Inserted) : Prop :=
  match r.err with
  | none => Prepared env.blocksize newext p.tree.extents r.path.depth r.path.path
  | some e => env.Late e ∨ r.path.tree.Ok env.blocksize
      ∧ r.path.tree.extents = p.tree.extents
      ∧ leaf r.path.depth r.path.path = leaf p.depth p.path

theorem loseTails_zero (p : Path Extent d) : loseTails 0 d p = p := by
  induction d with
  | zero => rfl
  | succ d ih =>
    rw [loseTails, ih]
    rfl

/-- The only early fault of a split is one before the first node is cut. -/
theorem splitFault_cases (env : InsertEnv) (bs : List Nat) (p : ExtPath)
    (root : Node Extent p.depth) :
    splitFault env bs p root = none ∨ ∃ r e, splitFault env bs p root = some r ∧ r.err = some e
      ∧ (env.Late e ∨ r.path = p) := by
  have hlate : ∀ f e, env.fault = some (f, e) → f.early = false → env.Late e.1 := by
    intro f e hf hfe
    refine ⟨e.2, ?_⟩
    rw [InsertEnv.early, hf]
    exact hfe
  rw [splitFault]
  split
  · rename_i n e hf
    split
    · refine .inr ⟨_, e, rfl, rfl, ?_⟩
      cases n with
      | zero =>
        right
        rw [loseTails_zero]
      | succ n => exact .inl (hlate _ e hf rfl)
    · exact .inl rfl
  · rename_i e hf
    exact .inr ⟨_, e, rfl, rfl, .inl (hlate _ e hf rfl)⟩
  · rename_i e hf
    exact .inr ⟨_, e, rfl, rfl, .inl (hlate _ e hf rfl)⟩
  · exact .inl rfl

section

variable {q p : Path Extent (d + 1)} {ex : Extent} {bs : List Nat}
  {res : Except Errno (Node Extent (d + 1))}
  (ht : ExtTree.Ok blocksize ⟨d + 1, close (d + 1) p⟩) (hnew : newext.Ok)
  (hfree : Free newext (flat (d + 1) (close (d + 1) p)))

include ht hnew hfree

section

variable (hw : width (d + 1) (close (d + 1) q) ≤ ext4ExtSpaceRoot)

include hw

/-- After a split behind the extent of the path its leaf has room. -/
theorem prepared_stay {y : Extent} {rest : List Extent}
    (hafter : (leaf (d + 1) p).after = ex :: y :: rest)
    (h : SplitsTo (ext4ExtSpaceBlock blocksize) newext.eeBlock (d + 1) p q [] (y :: rest)
      ((leaf (d + 1) p).toList.head?.map Extent.eeBlock))
    (hleaf : leaf (d + 1) q = ⟨(leaf (d + 1) p).before, [ex]⟩) :
    Prepared blocksize newext (flat (d + 1) (close (d + 1) p)) (d + 1) q := by
  have hflat : flat (d + 1) (close (d + 1) q) = flat (d + 1) (close (d + 1) p) := by
    rw [flat_close, flat_close, h.left_eq, h.right_eq, hleaf, Cut.toList, Cut.toList, hafter]
    simp
  have hlen := ht.keyed.leaf_length_le
  rw [Cut.toList, hafter, List.length_append, List.length_cons, List.length_cons] at hlen
  have hlenq : (leaf (d + 1) q).toList.length = (leaf (d + 1) p).before.length + 1 := by
    rw [hleaf, Cut.toList, List.length_append]
    rfl
  have hfirst : (leaf (d + 1) q).toList.head?.map Extent.eeBlock
      = (leaf (d + 1) p).toList.head?.map Extent.eeBlock := by
    rw [hleaf, Cut.toList, Cut.toList, hafter, List.head?_append, List.head?_append]
    rfl
  have hes : ExtentsOk (flat (d + 1) (close (d + 1) q)) := by
    rw [hflat]
    exact ht.extentsOk
  have hk : Keyed Extent.eeBlock (ext4ExtSpaceBlock blocksize) (d + 1) (close (d + 1) q) := by
    refine keyed_of_spine h.beside (hfirst ▸ h.spine) ?_ fun _ => ?_
    · rw [hleaf]
      simp [Cut.toList]
    · omega
  have htq : ExtTree.Ok blocksize ⟨d + 1, close (d + 1) q⟩ := ⟨hk, hw, hes.ok, hes.separated⟩
  have hprep := prepared_of_located htq (h.routes.located htq.keyed htq.sorted) hnew (hflat ▸ hfree)
    (by rw [leafMax, if_neg (Nat.succ_ne_zero d)]; omega)
  rwa [hflat] at hprep

theorem prepared_moved (hbs : 1024 ≤ blocksize)
    (hloc : Located Extent.eeBlock newext.eeBlock (d + 1) p)
    (hafter : (leaf (d + 1) p).after = [ex]) (hlt : ex.eeBlock < newext.eeBlock)
    (h : SplitsTo (ext4ExtSpaceBlock blocksize) newext.eeBlock (d + 1) p q
      (leaf (d + 1) p).toList [] none) (hleaf : leaf (d + 1) q = ⟨[], []⟩) :
    Prepared blocksize newext (flat (d + 1) (close (d + 1) p)) (d + 1) q := by
  have hcap := spaceBlock_ge hbs
  have hbelow := gap_below hfree ht.extentsOk hnew hafter hlt
  have habove := gap_above hfree ht.extentsOk hloc
  rw [hafter, List.tail_cons, List.nil_append] at habove
  refine ⟨⟨h.beside, fun _ => hw⟩, ?_, ?_, h.spine, [], [], ?_, ?_, ⟨?_, ?_⟩,
    fun hne => absurd rfl hne⟩
  · rw [hleaf, leafMax, if_neg (Nat.succ_ne_zero d)]
    exact Nat.lt_of_lt_of_le (by decide) hcap
  · rw [h.left_eq, h.right_eq, hleaf, flat_close]
    simp [Cut.toList]
  · rw [hleaf]
    rfl
  · rw [hleaf]
    rfl
  · rw [h.left_eq, List.append_nil, Cut.toList, hafter, ← List.append_assoc]
    exact hbelow
  · rw [h.right_eq]
    exact habove

end

variable (hbs : 1024 ≤ blocksize) (hloc : Located Extent.eeBlock newext.eeBlock (d + 1) p)
  (hfull : ext4ExtSpaceBlock blocksize ≤ (leaf (d + 1) p).toList.length)
  (h : ext4ExtSplit blocksize (splitBorder (leaf (d + 1) p) newext) bs (d + 1) ext4ExtSpaceRoot p
    = some res)

include hbs hloc hfull h

theorem split_prepared :
    res = .error .enospc ∨ ∃ q, res = .ok (close (d + 1) q)
      ∧ Routes Extent.eeBlock newext.eeBlock (d + 1) q
      ∧ Prepared blocksize newext (flat (d + 1) (close (d + 1) p)) (d + 1) q := by
  have hcap := spaceBlock_ge hbs
  have hr := hloc.routes ht.keyed ht.sorted
  generalize hc : leaf (d + 1) p = c at h
  obtain ⟨before, after⟩ := c
  match after with
  | [] =>
    have hnil := hloc.empty (by rw [hc])
    rw [flat_close, List.append_eq_nil_iff, List.append_eq_nil_iff] at hnil
    exact absurd hnil.1.2 ht.keyed.leaf_ne_nil
  | [ex] =>
    have hafter : (leaf (d + 1) p).after = [ex] := by rw [hc]
    have hlt : ex.eeBlock < newext.eeBlock := by
      -- otherwise the extent would be the only one of a full leaf
      have hmem : ex ∈ flat (d + 1) (close (d + 1) p) := by
        rw [flat_close, hc]
        simp [Cut.toList]
      have h1 := eeBlock_lt_eeEnd (ht.extents_ok ex hmem)
      have h2 := eeBlock_lt_eeEnd hnew
      rcases hfree ex hmem with h3 | h3
      · omega
      · have hnil := hloc.low ex (by rw [hc]; rfl) (by omega)
        rw [hc, List.append_eq_nil_iff] at hnil
        rw [hc, Cut.toList, hnil.2, List.nil_append, List.length_singleton] at hfull
        omega
    rcases split_spec (b := newext.eeBlock) (l := Cut.toList ⟨before, [ex]⟩) (r := []) (f := none)
        (c := ⟨before, [ex]⟩) (t := ⟨[], []⟩) (by rw [Option.or_none])
        (fun d p hk hs hr hp => by
          have hp' : (leaf d p.down).after = [ex] := by rw [hp]
          have hhost := insertIndex_moved hk hs bs hr hp' hlt
          rwa [hp] at hhost)
        ht.keyed ht.sorted hr hc ht.root_le h with hres | ⟨q, hres, hq, hqleaf, hqw⟩
    · exact .inl hres
    · exact .inr ⟨q, hres, hq.routes,
        prepared_moved ht hnew hfree hqw hbs hloc hafter hlt (hc ▸ hq) hqleaf⟩
  | ex :: y :: rest =>
    have hafter : (leaf (d + 1) p).after = ex :: y :: rest := by rw [hc]
    have hb : newext.eeBlock < y.eeBlock := by
      refine hloc.high y ?_
      rw [hafter]
      simp
    rcases split_spec (b := newext.eeBlock) (l := []) (r := y :: rest)
        (f := (Cut.toList ⟨before, ex :: y :: rest⟩).head?.map Extent.eeBlock)
        (c := ⟨before, ex :: y :: rest⟩) (t := ⟨before, [ex]⟩) rfl
        (fun d p hk hs hr hp => by
          have hp' : (leaf d p.down).after = ex :: y :: rest := by rw [hp]
          have hhost := insertIndex_stay hk hs bs hr hp' hb
          rwa [hp] at hhost)
        ht.keyed ht.sorted hr hc ht.root_le h with hres | ⟨q, hres, hq, hqleaf, hqw⟩
    · exact .inl hres
    · exact .inr ⟨q, hres, hq.routes,
        prepared_stay ht hnew hfree hqw hafter (hc ▸ hq) (by rw [hc]; exact hqleaf)⟩

theorem createNewLeaf_split {env : InsertEnv} (henv : env.blocksize = blocksize) (fuel : Nat)
    (hd : d + 1 ≤ ext4MaxExtentDepth) :
    RoomOrSame env newext ⟨d + 1, p⟩
      (ext4ExtCreateNewLeaf env newext (fuel + 1) bs ⟨d + 1, p⟩) := by
  subst henv
  unfold ext4ExtCreateNewLeaf
  dsimp only
  rw [h]
  rcases split_prepared ht hnew hfree hbs hloc hfull h with rfl | ⟨q, rfl, hq, hprep⟩
  · exact .inr ⟨ht, rfl, rfl⟩
  · dsimp only
    rcases splitFault_cases env bs ⟨d + 1, p⟩ (close (d + 1) q) with hf | ⟨r, e, hf, hr, hsame⟩
    · rw [hf, ext4FindExtent, if_neg (Nat.not_lt.mpr hd)]
      rw [find_close (d + 1) q hq]
      exact hprep
    · rw [hf, RoomOrSame, hr]
      refine hsame.imp_right fun hpath => ?_
      rw [hpath]
      exact ⟨ht, rfl, rfl⟩

end

/-- The old root below a new one. -/
abbrev grown (blk : Nat) (p : Path Extent d) : Path Extent (d + 1) :=
  ⟨[], firstEntry d (close d p), blk, p, []⟩

theorem flat_grown (blk : Nat) :
    flat (d + 1) (close (d + 1) (grown blk p)) = flat d (close d p) := by
  rw [close, flat_append, flat_cons]
  simp [flat]

theorem grow_ok (hbs : 1024 ≤ blocksize) (ht : ExtTree.Ok blocksize ⟨d, close d p⟩)
    (hne : (leaf d p).toList ≠ []) (blk : Nat) :
    ExtTree.Ok blocksize ⟨d + 1, close (d + 1) (grown blk p)⟩ := by
  have hcap := spaceBlock_ge hbs
  have hfirst : firstKey Extent.eeBlock d (close d p) = some (firstEntry d (close d p)) := by
    cases d with
    | zero =>
      obtain ⟨e, es, hes⟩ := List.exists_cons_of_ne_nil hne
      have hes' : close 0 p = e :: es := hes
      rw [hes']
      rfl
    | succ d =>
      obtain ⟨x, xs, hxs⟩ := List.exists_cons_of_ne_nil ht.keyed.1
      have hx := ht.keyed.2 x (by rw [hxs]; simp)
      have hxs' : close (d + 1) p = x :: xs := hxs
      rw [hxs', firstKey_cons hx]
      rfl
  have hes : ExtentsOk (flat (d + 1) (close (d + 1) (grown blk p))) := by
    rw [flat_grown]
    exact ht.extentsOk
  have hwidth : width d (close d p) ≤ ext4ExtSpaceBlock blocksize := by
    have := ht.root_le
    rw [spaceRoot_eq] at this
    exact Nat.le_trans this (Nat.le_trans (by decide) hcap)
  exact ⟨keyed_succ.mpr ⟨nofun, ⟨ht.keyed, hwidth, hfirst⟩,
    nofun⟩, (by decide : 1 ≤ ext4ExtSpaceRoot), hes.ok, hes.separated⟩

theorem split_isSome (blocksize border : Nat) (bs : List Nat) {p : Path Extent (d + 1)}
    (h : width (d + 1) (close (d + 1) p) < max) :
    ∃ res, ext4ExtSplit blocksize border bs (d + 1) max p = some res := by
  rw [ext4ExtSplit]
  cases ext4ExtSplit blocksize border bs d (ext4ExtSpaceBlock blocksize) p.down with
  | some r => exact ⟨_, rfl⟩
  | none =>
    have hw : p.before.length + 1 + p.after.length < max := by
      rw [width, close, List.length_append, List.length_cons] at h
      omega
    dsimp only
    rw [if_pos hw]
    split
    · exact ⟨_, rfl⟩
    · exact ⟨_, rfl⟩

theorem routes_grown (blk : Nat) (h : Routes Extent.eeBlock b d p) :
    Routes Extent.eeBlock b (d + 1) (grown blk p) :=
  ⟨⟨List.pairwise_singleton _ _, fun hne => absurd rfl hne, nofun⟩, h⟩

theorem find_grown (blk : Nat) (h : Routes Extent.eeBlock b d p) :
    ext4FindExtent (ext4ExtGrowIndepth (ExtPath.tree ⟨d, p⟩) blk) b
      = if ext4MaxExtentDepth < d + 1 then .error .efscorrupted else .ok ⟨d + 1, grown blk p⟩ := by
  have hfind : find Extent.eeBlock (ext4ExtGrowIndepth (ExtPath.tree ⟨d, p⟩) blk).depth
      (ext4ExtGrowIndepth (ExtPath.tree ⟨d, p⟩) blk).root b = some (grown blk p) :=
    find_close (d + 1) (grown blk p) (routes_grown blk h)
  rw [ext4FindExtent, hfind]
  rfl

/-- `ext4_ext_create_new_leaf`. -/
theorem createNewLeaf_spec {env : InsertEnv} (hbs : 1024 ≤ env.blocksize)
    (ht : ExtTree.Ok env.blocksize ⟨d, close d p⟩) (hd : d ≤ ext4MaxExtentDepth) (hnew : newext.Ok)
    (hloc : Located Extent.eeBlock newext.eeBlock d p) (hfree : Free newext (flat d (close d p)))
    (hfull : leafMax env.blocksize d ≤ (leaf d p).toList.length) (bs : List Nat) :
    RoomOrSame env newext ⟨d, p⟩ (ext4ExtCreateNewLeaf env newext 2 bs ⟨d, p⟩) := by
  have hcap := spaceBlock_ge hbs
  have hne : (leaf d p).toList ≠ [] := by
    intro hnil
    rw [hnil, List.length_nil, leafMax] at hfull
    split at hfull
    · exact absurd hfull (by decide)
    · omega
  cases hsplit : ext4ExtSplit env.blocksize (splitBorder (leaf d p) newext) bs d ext4ExtSpaceRoot p
    with
  | some res =>
    cases d with
    | zero => cases hsplit
    | succ d =>
      rw [leafMax, if_neg (Nat.succ_ne_zero d)] at hfull
      exact createNewLeaf_split ht hnew hfree hbs hloc hfull hsplit rfl 1 hd
  | none =>
    unfold ext4ExtCreateNewLeaf
    dsimp only
    rw [hsplit]
    cases bs with
    | nil => exact .inr ⟨ht, rfl, rfl⟩
    | cons blk bs =>
      have htg : ExtTree.Ok env.blocksize ⟨d + 1, close (d + 1) (grown blk p)⟩ :=
        grow_ok hbs ht hne blk
      have hr := hloc.routes ht.keyed ht.sorted
      have hlocg := (routes_grown blk hr).located htg.keyed htg.sorted
      have hfreeg : Free newext (flat (d + 1) (close (d + 1) (grown blk p))) := by
        rwa [flat_grown]
      have hmax : leafMax env.blocksize (d + 1) = ext4ExtSpaceBlock env.blocksize :=
        if_neg (Nat.succ_ne_zero d)
      dsimp only
      cases env.failing .grow with
      | some e => exact .inr ⟨ht, rfl, rfl⟩
      | none =>
      cases env.failing .regrown with
      | some e => exact .inr ⟨htg, flat_grown blk, rfl⟩
      | none =>
      rw [find_grown blk hr]
      by_cases hdeep : ext4MaxExtentDepth < d + 1
      · rw [if_pos hdeep]
        exact .inr ⟨htg, flat_grown blk, rfl⟩
      · rw [if_neg hdeep]
        dsimp only
        rw [hmax]
        split
        · rename_i hfull'
          obtain ⟨res, hres⟩ := split_isSome env.blocksize
            (splitBorder (leaf (d + 1) (grown blk p)) newext) bs
            (p := grown blk p) (by decide : 1 < ext4ExtSpaceRoot)
          have hroom := createNewLeaf_split htg hnew hfreeg hbs hlocg
            (Nat.le_of_eq hfull'.symm) hres rfl 0 (Nat.le_of_not_lt hdeep)
          have hext : (ExtPath.tree ⟨d + 1, grown blk p⟩).extents = (ExtPath.tree ⟨d, p⟩).extents :=
            flat_grown blk
          rw [RoomOrSame] at hroom ⊢
          rw [hext] at hroom
          exact hroom
        · rename_i hfull'
          have hprep := prepared_of_located htg hlocg hnew hfreeg
            (by rw [hmax]; exact Nat.lt_of_le_of_ne htg.keyed.leaf_length_le hfull')
          rw [flat_grown] at hprep
          exact hprep

end Create

/-! ## Insertion -/

theorem id_close (d : Nat) {p : Path Extent d} (c : Cut Extent) :
    close d (id (rekey Extent.eeBlock d (setLeaf d p c)))
      = close d (rekey Extent.eeBlock d (setLeaf d p c)) := rfl

/-- What an insertion comes to: the new extent is stored, or an error changed
no extent. A call that fails late promises nothing. -/
def InsertOutcome (env : InsertEnv) (newext : Extent) (p : ExtPath) (r : Inserted) : Prop :=
  match r.err with
  | none => r.path.tree.Ok env.blocksize ∧ Inserts newext p.tree.extents r.path.tree.extents
  | some e => env.Late e ∨ r.path.tree.Ok env.blocksize
      ∧ r.path.tree.extents = p.tree.extents
      ∧ leaf r.path.depth r.path.path = leaf p.depth p.path

/-- The same, with nothing merged if the insertion is one for an extent under
I/O. -/
def InsertOutcomeAs (env : InsertEnv) (preIo : Bool) (newext : Extent) (p : ExtPath)
    (r : Inserted) : Prop :=
  match r.err with
  | none => r.path.tree.Ok env.blocksize
      ∧ InsertsAs preIo newext p.tree.extents r.path.tree.extents
  | some e => env.Late e ∨ r.path.tree.Ok env.blocksize
      ∧ r.path.tree.extents = p.tree.extents
      ∧ leaf r.path.depth r.path.path = leaf p.depth p.path

variable {newext : Extent} {blocksize : Nat} {env : InsertEnv} {preIo : Bool} {p : ExtPath}
  {bs : List Nat}

theorem InsertOutcomeAs.outcome (h : InsertOutcomeAs env preIo newext p r) :
    InsertOutcome env newext p r := by
  rw [InsertOutcomeAs] at h
  rw [InsertOutcome]
  cases herr : r.err with
  | none =>
    rw [herr] at h
    exact ⟨h.1, h.2.inserts⟩
  | some e =>
    rw [herr] at h
    exact h

theorem InsertOutcomeAs.of_inserts (h : (∀ e, r.err = some e → env.Late e)
      ∧ (r.err = none → r.path.tree.Ok env.blocksize
        ∧ InsertsAs preIo newext p.tree.extents r.path.tree.extents)) :
    InsertOutcomeAs env preIo newext p r := by
  rw [InsertOutcomeAs]
  cases herr : r.err with
  | none => exact h.2 herr
  | some e => exact .inl (h.1 e herr)

section Insert

variable (preIo : Bool) {newext : Extent} {d : Nat} {p : Path Extent d}

section

variable (hbs : 1024 ≤ env.blocksize) (ht : ExtTree.Ok env.blocksize ⟨d, close d p⟩)
  (hd : d ≤ ext4MaxExtentDepth) (hnew : newext.Ok)
  (hloc : Located Extent.eeBlock newext.eeBlock d p) (hfree : Free newext (flat d (close d p)))

include hbs ht hd hnew hloc hfree

theorem insertAfterCreate_spec (hfull : leafMax env.blocksize d ≤ (leaf d p).toList.length) :
    InsertOutcomeAs env preIo newext ⟨d, p⟩ (insertAfterCreate env preIo newext ⟨d, p⟩) := by
  have hroom := createNewLeaf_spec hbs ht hd hnew hloc hfree hfull env.blocks
  rw [insertAfterCreate]
  rw [RoomOrSame] at hroom
  cases herr : (ext4ExtCreateNewLeaf env newext 2 env.blocks ⟨d, p⟩).err with
  | some e =>
    rw [herr] at hroom
    exact hroom
  | none =>
    rw [herr] at hroom
    cases hfail : env.failing .accessNew with
    | some e => exact .inl (env.late_of_failing rfl hfail)
    | none => exact .of_inserts (Prepared.hasSpace hroom preIo id (id_close _) hnew ht.extentsOk)

omit hbs hd hloc hfree in
theorem hasSpaceAccess_spec {q : Path Extent d} {back : Path Extent d → Path Extent d}
    (h : Prepared env.blocksize newext (flat d (close d p)) d q)
    (hback : ∀ c, close d (back (rekey Extent.eeBlock d (setLeaf d q c)))
      = close d (rekey Extent.eeBlock d (setLeaf d q c))) :
    InsertOutcomeAs env preIo newext ⟨d, p⟩ (hasSpaceAccess env preIo newext ⟨d, p⟩ q back) := by
  rw [hasSpaceAccess]
  split
  · exact .inr ⟨ht, rfl, rfl⟩
  · exact .of_inserts (h.hasSpace preIo back hback hnew ht.extentsOk)

theorem insertSomewhere_spec :
    InsertOutcomeAs env preIo newext ⟨d, p⟩ (insertSomewhere env preIo newext ⟨d, p⟩) := by
  rw [insertSomewhere]
  split
  · rename_i hroom
    exact hasSpaceAccess_spec preIo ht hnew
      (prepared_of_located ht hloc hnew hfree (Nat.lt_of_not_le hroom)) (id_close d)
  · rename_i hfull
    rw [Classical.not_not] at hfull
    have hafter := insertAfterCreate_spec preIo hbs ht hd hnew hloc hfree hfull
    cases hlast : (leaf d p).toList.getLast? with
    | none => exact hafter
    | some fex =>
      dsimp only
      split
      · exact hafter
      · rename_i next hnext
        split at hnext
        · -- the last extent of the leaf, and with it every other one, is in front
          have hfex : fex ∈ (leaf d p).toList := List.mem_of_getLast? hlast
          have hend : fex.eeEnd ≤ newext.eeBlock := by
            have hmem : fex ∈ flat d (close d p) := by
              rw [flat_close]
              simp [hfex]
            have := eeBlock_lt_eeEnd hnew
            rcases hfree fex hmem with h | h
            · exact h
            · omega
          have hbelow : ∀ ex ∈ left d p ++ (leaf d p).toList, ex.eeEnd ≤ newext.eeBlock := by
            intro ex hex
            obtain ⟨ys, hys⟩ := List.getLast?_eq_some_iff.mp hlast
            have hsep : blockView.Separated ((left d p ++ ys) ++ [fex] ++ right d p) := by
              have := ht.separated
              rw [ExtTree.extents, flat_close, hys] at this
              simpa using this
            rw [hys, ← List.append_assoc] at hex
            rcases List.mem_append.mp hex with hex | hex
            · have h1 : ex.eeEnd ≤ fex.eeBlock :=
                (List.pairwise_append.mp (List.pairwise_append.mp hsep).1).2.2 ex hex fex (by simp)
              omega
            · rw [List.mem_singleton.mp hex]
              exact hend
          rw [ext4ExtNextLeafBlock_eq ht.keyed] at hnext
          obtain ⟨x, hx, hxn⟩ := Option.map_eq_some_iff.mp hnext
          obtain ⟨R, hright⟩ : ∃ R, right d p = x :: R := List.head?_eq_some_iff.mp hx
          obtain ⟨np, hclose, hnp⟩ := exists_routes ht.keyed ht.sorted next
          have hfind : find Extent.eeBlock d (ExtPath.tree ⟨d, p⟩).root next = some np := by
            rw [← find_close d np hnp, hclose]
            rfl
          have htnp : ExtTree.Ok env.blocksize ⟨d, close d np⟩ := hclose.symm ▸ ht
          have hlocnp := hnp.located htnp.keyed htnp.sorted
          rw [hfind]
          cases env.failing .nextLeaf with
          | some e => exact .inr ⟨ht, rfl, rfl⟩
          | none =>
          dsimp only
          split
          · rename_i hroom
            rw [← hxn] at hlocnp
            exact hasSpaceAccess_spec preIo ht hnew
              (prepared_next ht hloc hfree hbelow hright hclose hlocnp (Nat.lt_of_not_le hroom))
              (close_reopen hclose)
          · exact hafter
        · cases hnext

/-- `ext4_ext_insert_extent`, on every way it can take. -/
theorem insertExtent_as :
    InsertOutcomeAs env preIo newext ⟨d, p⟩ (ext4ExtInsertExtent env preIo newext ⟨d, p⟩) := by
  rw [ext4ExtInsertExtent, if_neg (Nat.ne_of_gt hnew.len_pos)]
  dsimp only
  cases hjoin : (if preIo = true then none else joinFound env.ioUnwritten (leaf d p) newext) with
  | none => exact insertSomewhere_spec preIo hbs ht hd hnew hloc hfree
  | some found =>
    obtain ⟨es, n⟩ := found
    have hpre : preIo ≠ true := by
      intro hpre
      rw [if_pos hpre] at hjoin
      cases hjoin
    have hjoin' : joinFound env.ioUnwritten (leaf d p) newext = some (es, n) := by
      rwa [if_neg hpre] at hjoin
    obtain ⟨b, a, hleaf, hgap, hm, hlen, hfirst⟩ :=
      joinFound_spec hjoin' hnew hloc hfree ht.extentsOk
    have hes := ht.extentsOk
    rw [ExtTree.extents, flat_close, hleaf] at hes
    have hgapOk : ExtentsOk ((left d p ++ b) ++ newext :: (a ++ right d p)) :=
      hgap.extentsOk hnew (by simpa using hes)
    have hm' : Merges ((left d p ++ b) ++ newext :: (a ++ right d p))
        (left d p ++ es ++ right d p) := by
      have := hm.inside (left d p) (right d p)
      simpa using this
    have hspine : (leaf d p).before.length = 0 ∧ Spine Extent.eeBlock none d p
        ∨ Spine Extent.eeBlock (es.head?.map Extent.eeBlock) d p := by
      rcases hfirst with h | h
      · exact .inl ⟨h, ht.keyed.spine.weaken⟩
      · rw [h]
        exact .inr ht.keyed.spine
    cases env.failing .access with
    | some e => exact .inr ⟨ht, rfl, rfl⟩
    | none =>
    obtain ⟨h0, h1⟩ := mergeAndCorrect_spec env preIo n
      ht.ready (id_close d) (hm.ne_nil (by simp)) (hlen.symm ▸ ht.leaf_le) (hm'.extentsOk hgapOk)
      hspine
    refine .of_inserts ⟨h0, fun herr => ?_⟩
    obtain ⟨h2, h3, -⟩ := h1 herr
    refine ⟨h2, left d p ++ b, a ++ right d p, ?_, hgap, hm'.trans h3, fun h => absurd h hpre⟩
    show flat d (close d p) = _
    rw [flat_close, hleaf]
    simp

theorem insertExtent_spec :
    InsertOutcome env newext ⟨d, p⟩ (ext4ExtInsertExtent env preIo newext ⟨d, p⟩) :=
  (insertExtent_as preIo hbs ht hd hnew hloc hfree).outcome

end

end Insert

/-! ## Space -/

/-- A leaf below the root that stays too long to be moved into the inode. -/
def Crowded (blocksize : Nat) (p : ExtPath) : Prop :=
  p.depth = 1 → ext4ExtSpaceBlock blocksize ≤ (leaf p.depth p.path).toList.length

theorem splitFault_enospc {root : Node Extent p.depth} (h : splitFault env bs p root = some r) :
    r.err ≠ some .enospc := by
  intro he
  rw [splitFault] at h
  split at h
  · rename_i n e hf
    split at h
    · obtain rfl := Option.some.inj h
      exact e.2 (Option.some.inj he)
    · cases h
  · rename_i e hf
    obtain rfl := Option.some.inj h
    exact e.2 (Option.some.inj he)
  · rename_i e hf
    obtain rfl := Option.some.inj h
    exact e.2 (Option.some.inj he)
  · cases h

theorem InsertEnv.failing_enospc {f : InsertFault} : env.failing f ≠ some .enospc := by
  intro h
  rw [InsertEnv.failing] at h
  split at h
  · rename_i g e hf
    split at h
    · exact e.2 (Option.some.inj h)
    · cases h
  · cases h

theorem findExtent_error {t : ExtTree} {e : Errno} (h : ext4FindExtent t b = .error e) :
    e ≠ .enospc := by
  rw [ext4FindExtent] at h
  split at h
  · obtain rfl := Except.error.inj h
    decide
  · split at h
    · obtain rfl := Except.error.inj h
      decide
    · cases h

/-- Where a leaf cannot be split for a lack of space, it is full. -/
theorem createNewLeaf_enospc {fuel : Nat} (hp : Crowded env.blocksize p)
    (h : (ext4ExtCreateNewLeaf env newext fuel bs p).err = some .enospc) :
    Crowded env.blocksize (ext4ExtCreateNewLeaf env newext fuel bs p).path := by
  induction fuel generalizing bs p with
  | zero => cases h
  | succ fuel ih =>
    unfold ext4ExtCreateNewLeaf at h ⊢
    dsimp only at h ⊢
    split at h
    · exact hp
    · rename_i e hne hsplit
      obtain rfl : e = .enospc := Option.some.inj h
      exact absurd rfl hne
    · split at h
      · rename_i r hf
        exact absurd h (splitFault_enospc hf)
      · split at h
        · rename_i e hfind
          exact absurd (Option.some.inj h) (findExtent_error hfind)
        · cases h
    · split at h
      · exact hp
      · split at h
        · rename_i e hf
          exact absurd (hf.trans h) env.failing_enospc
        · split at h
          · rename_i e hf
            exact absurd (hf.trans h) env.failing_enospc
          · rename_i e hfind
            exact absurd (Option.some.inj h) (findExtent_error hfind)
          · split at h
            · rename_i hlen
              rw [if_pos hlen]
              refine ih (fun hq => ?_) h
              rw [hlen, leafMax, if_neg (by omega)]
            · cases h

theorem mergeAndCorrect_enospc {d k n : Nat} {p : Path Extent d}
    {back : Path Extent d → Path Extent d} :
    (mergeAndCorrect env preIo d p back es k n).err ≠ some .enospc := by
  rw [mergeAndCorrect]
  split
  · exact env.failing_enospc
  · split
    · rename_i hf
      intro h
      obtain rfl := Option.some.inj h
      exact (env.late_of_correctFault hf).1 rfl
    · exact env.failing_enospc

theorem hasSpace_enospc {d : Nat} {p : Path Extent d} {back : Path Extent d → Path Extent d} :
    (hasSpace env preIo newext d p back).err ≠ some .enospc := by
  rw [hasSpace]
  split
  · exact fun h => by cases h
  · exact mergeAndCorrect_enospc

theorem insertExtent_enospc (h : (ext4ExtInsertExtent env preIo newext p).err = some .enospc) :
    Crowded env.blocksize (ext4ExtInsertExtent env preIo newext p).path := by
  have hcreate : leafMax env.blocksize p.depth ≤ (leaf p.depth p.path).toList.length →
      (insertAfterCreate env preIo newext p).err = some .enospc →
      Crowded env.blocksize (insertAfterCreate env preIo newext p).path := by
    intro hfull h
    rw [insertAfterCreate] at h ⊢
    split at h
    · rename_i e _ herr
      obtain rfl := Option.some.inj h
      refine createNewLeaf_enospc (fun hd => ?_) herr
      rwa [leafMax, if_neg (by omega)] at hfull
    · rename_i e herr hf
      exact absurd (hf.trans h) env.failing_enospc
    · exact absurd h hasSpace_enospc
  have haccess : ∀ {q} {back}, (hasSpaceAccess env preIo newext p q back).err ≠ some .enospc := by
    intro q back h
    rw [hasSpaceAccess] at h
    split at h
    · rename_i hf
      exact env.failing_enospc (hf.trans h)
    · exact hasSpace_enospc h
  rw [ext4ExtInsertExtent] at h ⊢
  split at h
  · cases h
  rename_i hlen
  rw [if_neg hlen]
  dsimp only at h ⊢
  split at h
  · split at h
    · rename_i hf
      exact absurd (hf.trans h) env.failing_enospc
    · exact absurd h mergeAndCorrect_enospc
  · rw [insertSomewhere] at h ⊢
    dsimp only at h ⊢
    split at h
    · exact absurd h haccess
    · rename_i hfull
      rw [if_neg hfull]
      rw [Classical.not_not] at hfull
      split at h
      · exact hcreate hfull h
      · split at h
        · rename_i hf
          exact absurd (hf.trans h) env.failing_enospc
        · cases h
        · split at h
          · exact absurd h haccess
          · rename_i hroom
            rw [if_neg hroom]
            exact hcreate hfull h

/-! ## The mapping -/

theorem Inserts.mapping_eq {es' : List Extent} (h : Inserts newext es es') (hnew : newext.Ok)
    (hes : ExtentsOk es) (b : Nat) :
    mapping es' b = if newext.eeBlock ≤ b ∧ b < newext.eeEnd
      then some (newext.eeStart + (b - newext.eeBlock), ext4ExtIsUnwritten newext)
      else mapping es b := by
  obtain ⟨L, R, rfl, hgap, hm⟩ := h
  rw [hm.mapping_eq (hgap.extentsOk hnew hes).ok, mapping, mapping, blockView.get_append,
    blockView.get_append, blockView.get_cons]
  by_cases hc : blockView.Covers newext b
  · have hL : blockView.get L b = none :=
      blockView.get_eq_none_of_ge fun ex hex => Nat.le_trans (hgap.below ex hex) hc.1
    rw [if_pos hc, hL]
    exact (if_pos hc).symm
  · rw [if_neg hc]
    exact (if_neg hc).symm

theorem free_of_unmapped (hnew : newext.Ok) (hes : ExtentsOk es)
    (h : ∀ b, newext.eeBlock ≤ b → b < newext.eeEnd → mapping es b = none) : Free newext es := by
  intro ex hex
  by_contra hoverlap
  rw [not_or, Nat.not_le, Nat.not_le] at hoverlap
  have h1 := eeBlock_lt_eeEnd hnew
  have h2 := eeBlock_lt_eeEnd (hes.ok ex hex)
  have hnone := h (max newext.eeBlock ex.eeBlock) (Nat.le_max_left _ _) (by omega)
  refine blockView.get_eq_none_iff.mp hnone ex hex ⟨Nat.le_max_right _ _, ?_⟩
  show max newext.eeBlock ex.eeBlock < ex.eeEnd
  omega

end Ext4.Extents
