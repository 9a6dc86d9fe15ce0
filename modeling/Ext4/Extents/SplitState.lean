import Ext4.Extents.Neighbours
import Ext4.Extents.SplitAt

/-!
# Extent trees — splits that change the state

`ext4_split_extent_at` may give the two halves of an extent states of their
own. To the mapping of the file that is a change of the state of two ranges
(`setState`); no block moves.
-/

namespace Ext4.Extents

open IndexTree

/-- The mapping with another state for the blocks `lo .. hi - 1`. -/
def setState (m : Nat → Option (Nat × Bool)) (lo hi : Nat) (unwritten : Bool) :
    Nat → Option (Nat × Bool) :=
  fun x => if lo ≤ x ∧ x < hi then (m x).map fun v => (v.1, unwritten) else m x

section SetState

variable {m : Nat → Option (Nat × Bool)} {lo hi x : Nat} {u : Bool}

theorem setState_of_mem (h : lo ≤ x ∧ x < hi) :
    setState m lo hi u x = (m x).map fun v => (v.1, u) := if_pos h

theorem setState_of_not_mem (h : ¬ (lo ≤ x ∧ x < hi)) : setState m lo hi u x = m x := if_neg h

theorem setState_of_le (h : hi ≤ lo) : setState m lo hi u = m :=
  funext fun _ => setState_of_not_mem (by omega)

theorem setState_comm {lo' hi' : Nat} {u' : Bool} (h : hi ≤ lo') :
    setState (setState m lo hi u) lo' hi' u' = setState (setState m lo' hi' u') lo hi u := by
  funext x
  by_cases h1 : lo ≤ x ∧ x < hi
  · rw [setState_of_not_mem (by omega), setState_of_mem h1, setState_of_mem h1,
      setState_of_not_mem (by omega)]
  · by_cases h2 : lo' ≤ x ∧ x < hi'
    · rw [setState_of_mem h2, setState_of_not_mem h1, setState_of_not_mem h1, setState_of_mem h2]
    · rw [setState_of_not_mem h2, setState_of_not_mem h1, setState_of_not_mem h1,
        setState_of_not_mem h2]

theorem setState_fst (m : Nat → Option (Nat × Bool)) (lo hi : Nat) (u : Bool) (x : Nat) :
    (setState m lo hi u x).map Prod.fst = (m x).map Prod.fst := by
  rw [setState]
  split
  · rw [Option.map_map]
    rfl
  · rfl

end SetState

/-! ## The two pieces -/

section Pieces

variable {ex front back : Extent} {split : Nat} {A B : List Extent}

theorem mapping_restate {ex' : Extent} (hes : ExtentsOk (A ++ ex :: B))
    (hblock : ex'.eeBlock = ex.eeBlock) (hend : ex'.eeEnd = ex.eeEnd)
    (hstart : ex'.eeStart = ex.eeStart) :
    mapping (A ++ ex' :: B)
      = setState (mapping (A ++ ex :: B)) ex.eeBlock ex.eeEnd (ext4ExtIsUnwritten ex') := by
  funext x
  rw [mapping_replace hes hblock hend, setState]
  split
  · rename_i hx
    rw [mapping_replace hes rfl rfl, if_pos hx, hstart]
    rfl
  · rfl

theorem Pieces.mapping_eq (h : Pieces ex front back split) (hes : ExtentsOk (A ++ ex :: B))
    {es : List Extent} (hins : Inserts back (A ++ front :: B) es) :
    mapping es = setState (setState (mapping (A ++ ex :: B)) ex.eeBlock split
      (ext4ExtIsUnwritten front)) split ex.eeEnd (ext4ExtIsUnwritten back) := by
  obtain ⟨h1, h2⟩ := h.split_lt
  have hfront := h.shorten hes
  funext x
  rw [hins.mapping_eq h.back_ok hfront, h.back_block, h.back_end, h.back_start, setState]
  by_cases hx : ex.eeBlock ≤ x ∧ x < ex.eeEnd
  · have hwhole := mapping_replace hes rfl rfl x
    rw [if_pos hx] at hwhole
    by_cases hs : split ≤ x
    · rw [if_pos ⟨hs, hx.2⟩, if_pos ⟨hs, hx.2⟩, setState_of_not_mem (by omega), hwhole]
      simp only [Option.map_some, Option.some.injEq, Prod.mk.injEq, and_true]
      omega
    · rw [if_neg (by omega), if_neg (by omega), setState_of_mem ⟨hx.1, by omega⟩, hwhole,
        mapping_replace hfront rfl rfl,
          if_pos ⟨by rw [h.front_block]; exact hx.1, by rw [h.front_end]; omega⟩,
        h.front_block, h.front_start]
      rfl
  · rw [if_neg (by omega), if_neg (by omega), setState_of_not_mem (by omega)]
    -- outside of the extent neither sequence has anything of it
    rw [mapping, mapping, blockView.get_append, blockView.get_append, blockView.get_cons,
      blockView.get_cons, if_neg, if_neg]
    · exact fun hc => hx hc
    · rintro ⟨hc1, hc2⟩
      have hc1' : ex.eeBlock ≤ x := by rw [← h.front_block]; exact hc1
      have hc2' : x < split := by rw [← h.front_end]; exact hc2
      omega

end Pieces

/-! ## The cases of a split -/

/-- One of the extents has the blocks `lo .. hi - 1` and no other. -/
def HasPiece (es : List Extent) (lo hi : Nat) : Prop := ∃ y ∈ es, y.eeBlock = lo ∧ y.eeEnd = hi

/-- The blocks that are zeroed when there is no space for the second half. -/
def zeroRange (flags : SplitFlags) (ex : Extent) (split : Nat) : Nat × Nat :=
  if flags.dataValid1 then (split, ex.eeEnd)
  else if flags.dataValid2 then (ex.eeBlock, split)
  else (ex.eeBlock, ex.eeEnd)

/-- A split that ends in zeroes on disk in place of the second half: the
insertion of that half finds no space. -/
structure SplitEnv.Short (env : SplitEnv) (flags : SplitFlags) (preIo : Bool) (p : ExtPath)
    (ex : Extent) (split : Nat) : Prop where
  inside : ex.eeBlock < split ∧ split < ex.eeEnd
  unwritten : ext4ExtIsUnwritten ex = true
  may : flags.mayZeroout = true
  valid : (flags.dataValid1 && flags.dataValid2) = false
  access : env.access = none
  dirty : env.dirty = none
  zeroout : env.zeroout = none
  full : (ext4ExtInsertExtent env.toInsertEnv preIo (ex.back split flags.markUnwrit2)
    ⟨p.depth, setExt p.depth p.path (ex.front split flags.markUnwrit1)⟩).err = some .enospc

/-- A split none of the `BUG_ON`s of `ext4_split_extent_at` applies to. -/
structure SplitFlags.Fits (flags : SplitFlags) (ex : Extent) (split : Nat) : Prop where
  inside : ex.eeBlock ≤ split ∧ split < ex.eeEnd
  valid : (flags.dataValid1 && flags.dataValid2) = false
  state : ext4ExtIsUnwritten ex = false →
    (flags.mayZeroout || flags.markUnwrit1 || flags.markUnwrit2) = false

/-- What a split comes to, by the place where `ext4_split_extent_at` is left. -/
inductive SplitCase (env : SplitEnv) (flags : SplitFlags) (preIo : Bool) (p : ExtPath)
    (m : Nat → Option (Nat × Bool)) (ex : Extent) (split : Nat) (r : SplitDone) : Prop
  /-- an error, and everything as before -/
  | undone (short : ¬ env.Short flags preIo p ex split)
      (early : flags.Fits ex split → split = ex.eeBlock → env.access ≠ none)
      (e : Errno) (err : r.err = some e) (mapping : r.path.tree.mapping = m)
  /-- case b: the extent begins at `split` -/
  | marked (block : split = ex.eeBlock) (access : env.access = none) (err : r.err = env.dirty)
      (mapping : r.path.tree.mapping = setState m ex.eeBlock ex.eeEnd flags.markUnwrit2)
      (piece : preIo = true → HasPiece r.path.tree.extents ex.eeBlock ex.eeEnd)
  /-- case a -/
  | halved (short : ¬ env.Short flags preIo p ex split) (block : ex.eeBlock < split)
      (err : r.err = none)
      (mapping : r.path.tree.mapping
        = setState (setState m ex.eeBlock split flags.markUnwrit1) split ex.eeEnd flags.markUnwrit2)
      (pieces : preIo = true → HasPiece r.path.tree.extents ex.eeBlock split
        ∧ HasPiece r.path.tree.extents split ex.eeEnd)
  /-- no space for the second half, and zeroes written instead -/
  | zeroed (short : env.Short flags preIo p ex split) (z : Extent) (zeroed : r.zeroed = some z)
      (eq : z = flags.zeroEx ex (ex.front split flags.markUnwrit1)
        (ex.back split flags.markUnwrit2))
      (err : r.err = (ext4ZerooutEs env.es z).1)
      (mapping : r.path.tree.mapping = setState m ex.eeBlock ex.eeEnd false)
      (bounds : (z.eeBlock, z.eeEnd) = zeroRange flags ex split)

/-- An extent as the mapping has it, up to its state. -/
def Recordable (m : Nat → Option (Nat × Bool)) (z : Extent) : Prop :=
  z.Ok ∧ (m z.eeBlock).map Prod.fst = some z.eeStart

/-- What a split leaves behind. -/
structure SplitSpec (env : SplitEnv) (flags : SplitFlags) (preIo : Bool) (p : ExtPath)
    (m : Nat → Option (Nat × Bool)) (ex : Extent) (split : Nat) (r : SplitDone) : Prop where
  tree_ok : r.path.tree.Ok env.blocksize
  recorded : ∀ z, r.recorded = some z → Recordable m z
  unzeroed : ¬ env.Short flags preIo p ex split → r.zeroed = none
  cases : SplitCase env flags preIo p m ex split r

variable {q : ExtPath} {y : Extent} {r : Inserted} {blocksize : Nat}

section Initialized

variable {ex : Extent}

theorem initialized_spec (h : ex.Ok) (hblock : y.eeBlock = ex.eeBlock)
    (hlen : y.eeLen = ext4ExtGetActualLen ex) :
    y.Ok ∧ y.eeEnd = ex.eeEnd ∧ ext4ExtIsUnwritten y = false := by
  have hle := actualLen_le h
  have hact : ext4ExtGetActualLen y = ext4ExtGetActualLen ex := by
    rw [ext4ExtGetActualLen, hlen, if_pos hle]
  have hend : y.eeEnd = ex.eeEnd := by rw [Extent.eeEnd, Extent.eeEnd, hact, hblock]
  refine ⟨⟨by rw [hact]; exact h.len_pos, ?_, by rw [hend]; exact h.end_le⟩, hend, ?_⟩
  · rw [hlen]
    rw [extInitMaxLen] at hle
    omega
  · rw [ext4ExtIsUnwritten, hlen]
    exact decide_eq_false (Nat.not_lt.mpr hle)

theorem markUnwritten_of_unwritten (h : ex.Ok) (hu : ext4ExtIsUnwritten ex = true) :
    ext4ExtMarkUnwritten ex = ex := by
  have hlen := eeLen_eq ex
  rw [hu, if_pos rfl] at hlen
  have hlt : ext4ExtGetActualLen ex < 2 ^ 15 := by
    have := actualLen_unwritten h hu
    rw [extUnwrittenMaxLen, extInitMaxLen] at this
    omega
  refine Extent.ext rfl ?_ rfl
  show ex.eeLen ||| extInitMaxLen = ex.eeLen
  have hor := Nat.two_pow_add_eq_or_of_lt hlt 1
  rw [Nat.mul_one, Nat.add_comm] at hor
  rw [hlen, extInitMaxLen, hor, Nat.or_comm (2 ^ 15), Nat.or_assoc, Nat.or_self]

end Initialized

section Split

variable (env : SplitEnv) (flags : SplitFlags) (preIo : Bool) {d : Nat} {p : Path Extent d}
  {ex : Extent} {rest : List Extent} {split : Nat}

variable {back front : Extent} {A B : List Extent}

/-- Another extent over the same blocks in the slot of the path, merged with
its neighbours. -/
theorem remark_spec {x : Extent} {rest : List Extent} (ienv : InsertEnv) (hq : q.tree.Ok blocksize)
    (hext : q.tree.extents = A ++ x :: B) (hafter : (leaf q.depth q.path).after = x :: rest)
    (hes : ExtentsOk (A ++ ex :: B)) (hy : y.Ok) (hxb : x.eeBlock = ex.eeBlock)
    (hblock : y.eeBlock = ex.eeBlock) (hend : y.eeEnd = ex.eeEnd)
    (hstart : y.eeStart = ex.eeStart) :
    (tryToMergeAt ienv q.depth (setExt q.depth q.path y)).1.tree.Ok blocksize
      ∧ (tryToMergeAt ienv q.depth (setExt q.depth q.path y)).1.tree.mapping
        = setState (mapping (A ++ ex :: B)) ex.eeBlock ex.eeEnd (ext4ExtIsUnwritten y) := by
  have hes' := hes.replace hy hblock (Nat.le_of_eq hend)
  obtain ⟨hok, hflat⟩ := setExt_spec hq hext hafter (hblock.trans hxb.symm) hes'
  obtain ⟨h1, h2, -⟩ := tryToMergeAt_spec ienv hok (by rw [leaf_setExt]; simp [Cut.toList])
  have hflat' : flat q.depth (close q.depth (setExt q.depth q.path y)) = A ++ y :: B := hflat
  rw [hflat'] at h2
  refine ⟨h1, ?_⟩
  rw [ExtTree.mapping, h2.mapping_eq hes'.ok, mapping_restate hes hblock hend hstart]

theorem zeroEx_spec (hh : Pieces ex front back split) (hex : ex.Ok)
    (hes : ExtentsOk (A ++ ex :: B)) :
    Recordable (mapping (A ++ ex :: B)) (flags.zeroEx ex front back)
      ∧ ((flags.zeroEx ex front back).eeBlock, (flags.zeroEx ex front back).eeEnd)
        = zeroRange flags ex split := by
  have hmap : ∀ x, ex.eeBlock ≤ x → x < ex.eeEnd →
      (mapping (A ++ ex :: B) x).map Prod.fst = some (ex.eeStart + (x - ex.eeBlock)) := by
    intro x h1 h2
    rw [mapping_replace hes rfl rfl, if_pos ⟨h1, h2⟩]
    rfl
  have hlt := hh.split_lt
  rw [SplitFlags.zeroEx, zeroRange]
  split
  · refine ⟨⟨hh.back_ok, ?_⟩, by rw [hh.back_block, hh.back_end]⟩
    rw [hh.back_block, hh.back_start, hmap split (by omega) hlt.2]
  · split
    · refine ⟨⟨hh.front_ok, ?_⟩, by rw [hh.front_block, hh.front_end]⟩
      rw [hh.front_block, hh.front_start, hmap _ (Nat.le_refl _) (by omega), Nat.sub_self,
        Nat.add_zero]
    · refine ⟨⟨hex, ?_⟩, rfl⟩
      rw [hmap _ (Nat.le_refl _) (by omega), Nat.sub_self, Nat.add_zero]

/-- The zeroing in place of the second half, where the journal takes the
extent afterwards. -/
theorem zerooutInstead_spec (hj : env.dirtyZeroed = none) (hz : env.zeroout = none)
    (hshort : env.Short flags preIo q ex split) (hfront : ex.front split flags.markUnwrit1 = front)
    (hback : ex.back split flags.markUnwrit2 = back) (hh : Pieces ex front back split) (hex : ex.Ok)
    (hes : ExtentsOk (A ++ ex :: B)) (hr : r.path.tree.Ok env.blocksize)
    (hext : r.path.tree.extents = A ++ front :: B)
    (hafter : (leaf r.path.depth r.path.path).after = front :: rest) :
    SplitSpec env flags preIo q (mapping (A ++ ex :: B)) ex split
      (zerooutInstead env flags ex front back r) := by
  obtain ⟨hy, hend, hu⟩ := initialized_spec (y := { front with eeLen := ext4ExtGetActualLen ex })
    hex hh.front_block rfl
  obtain ⟨h1, h2⟩ := remark_spec env.toInsertEnv hr hext hafter hes hy hh.front_block
    hh.front_block hend hh.front_start
  rw [hu] at h2
  obtain ⟨hrec, hbounds⟩ := zeroEx_spec flags hh hex hes
  rw [zerooutInstead, hz]
  rw [hj]
  refine ⟨h1, fun z hz => ?_, fun h => absurd hshort h,
    .zeroed hshort _ rfl (by rw [hfront, hback]) rfl h2 hbounds⟩
  obtain rfl := Option.some.inj hz
  exact hrec

/-- What a split may meet: once the tree has changed, no call fails. -/
def SplitEnv.CalmFor (flags : SplitFlags) (preIo : Bool) (p : ExtPath) (ex : Extent) (split : Nat) :
    Prop :=
  env.early = true ∧ (env.Short flags preIo p ex split → env.dirtyZeroed = none)

/-- The state that case b of a split gives the extent. -/
theorem remarked_spec (hex : ex.Ok) (hu : ext4ExtIsUnwritten ex = false → flags.markUnwrit2 = false)
    (hy : (if flags.markUnwrit2 then ext4ExtMarkUnwritten ex else ext4ExtMarkInitialized ex) = y) :
    y.Ok ∧ y.eeBlock = ex.eeBlock ∧ y.eeEnd = ex.eeEnd ∧ y.eeStart = ex.eeStart
      ∧ ext4ExtIsUnwritten y = flags.markUnwrit2 := by
  cases hu2 : flags.markUnwrit2 with
  | true =>
    have hun : ext4ExtIsUnwritten ex = true := by
      by_contra hne
      cases hu2.symm.trans (hu (Bool.eq_false_iff.mpr hne))
    rw [hu2, if_pos rfl, markUnwritten_of_unwritten hex hun] at hy
    subst hy
    exact ⟨hex, rfl, rfl, rfl, hun⟩
  | false =>
    rw [hu2, if_neg Bool.false_ne_true] at hy
    subst hy
    obtain ⟨h1, h2, h3⟩ := initialized_spec (y := ext4ExtMarkInitialized ex) hex rfl rfl
    exact ⟨h1, rfl, h2, rfl, h3⟩

section

variable {env flags preIo} {e : Errno}

/-- An insertion that found no space, or failed early, leaves the first half in
its slot. -/
theorem insertOutcome_kept (hafter : (leaf d p).after = ex :: rest)
    (hins : InsertOutcomeAs env.toInsertEnv preIo back ⟨d, setExt d p front⟩ r)
    (herr : r.err = some e) (hcalm : env.early = true ∨ e = .enospc) :
    r.path.tree.Ok env.blocksize
      ∧ r.path.tree.extents = (left d p ++ (leaf d p).before) ++ front :: (rest ++ right d p)
      ∧ (leaf r.path.depth r.path.path).after = front :: rest := by
  have hext : (ExtPath.tree ⟨d, setExt d p front⟩).extents = _ := flat_setExt hafter front
  rw [InsertOutcomeAs, hext, herr] at hins
  obtain ⟨h1, h2, h3⟩ := hins.resolve_left fun hlate => by
    rcases hcalm with h | h
    · exact Bool.eq_false_iff.mp hlate.2 h
    · exact hlate.1 h
  refine ⟨h1, h2, ?_⟩
  rw [h3, leaf_setExt, hafter]
  rfl

variable (ht : ExtTree.Ok env.blocksize ⟨d, close d p⟩)

include ht

/-- An error before anything was changed. -/
theorem SplitSpec.unchanged (hshort : ¬ env.Short flags preIo ⟨d, p⟩ ex split)
    (hearly : flags.Fits ex split → split = ex.eeBlock → env.access ≠ none) :
    SplitSpec env flags preIo ⟨d, p⟩ (mapping (flat d (close d p))) ex split
      ⟨⟨some e, ⟨d, p⟩, []⟩, none, none⟩ :=
  ⟨ht, fun _ hz => (by cases hz), fun _ => rfl, .undone hshort hearly e rfl rfl⟩

variable (hafter : (leaf d p).after = ex :: rest)

include hafter

/-- Case b: only the state of the extent changes. -/
theorem SplitSpec.marked (hblock : split = ex.eeBlock) (hacc : env.access = none)
    (hu : ext4ExtIsUnwritten ex = false → flags.markUnwrit2 = false)
    (hy : (if flags.markUnwrit2 then ext4ExtMarkUnwritten ex else ext4ExtMarkInitialized ex) = y)
    {m : ExtPath × List Nat}
    (hm : (if preIo then (⟨d, setExt d p y⟩, [])
      else tryToMergeAt env.toInsertEnv d (setExt d p y)) = m) :
    SplitSpec env flags preIo ⟨d, p⟩ (mapping (flat d (close d p))) ex split
      ⟨⟨env.dirty, m.1, m.2⟩, none, none⟩ := by
  have hes := ht.around hafter
  have hflat := flat_of_after hafter
  obtain ⟨hyok, hyb, hye, hys, hyu⟩ := remarked_spec flags (hes.ok ex (by simp)) hu hy
  subst hm
  refine ⟨?_, fun _ hz => (by cases hz), fun _ => rfl, .marked hblock hacc rfl ?_ fun hpre => ?_⟩
  · cases preIo with
    | true => exact ht.setExt hafter hyb (hes.replace hyok hyb (Nat.le_of_eq hye))
    | false =>
      exact (remark_spec (q := ⟨d, p⟩) env.toInsertEnv ht hflat hafter hes hyok rfl hyb hye hys).1
  · cases preIo with
    | true =>
      show mapping (flat d (close d (setExt d p y))) = _
      rw [flat_setExt hafter, mapping_restate hes hyb hye hys, hyu, hflat]
    | false =>
      rw [← hyu, hflat]
      exact (remark_spec (q := ⟨d, p⟩) env.toInsertEnv ht hflat hafter hes hyok rfl hyb hye hys).2
  · subst hpre
    refine ⟨y, ?_, hyb, hye⟩
    show y ∈ flat d (close d (setExt d p y))
    rw [flat_setExt hafter]
    simp

variable (hh : Pieces ex front back split)

include hh

/-- Case a: the second half was inserted. -/
theorem SplitSpec.halved (hu1 : ext4ExtIsUnwritten front = flags.markUnwrit1)
    (hu2 : ext4ExtIsUnwritten back = flags.markUnwrit2)
    (hshort : ¬ env.Short flags preIo ⟨d, p⟩ ex split)
    (hins : InsertOutcomeAs env.toInsertEnv preIo back ⟨d, setExt d p front⟩ r)
    (herr : r.err = none) :
    SplitSpec env flags preIo ⟨d, p⟩ (mapping (flat d (close d p))) ex split ⟨r, none, none⟩ := by
  have hext : (ExtPath.tree ⟨d, setExt d p front⟩).extents = _ := flat_setExt hafter front
  rw [InsertOutcomeAs, hext, herr] at hins
  obtain ⟨hok, hcase⟩ := hins
  have hm := hh.mapping_eq (ht.around hafter) (InsertsAs.inserts hcase)
  rw [hu1, hu2, ← flat_of_after hafter] at hm
  refine ⟨hok, fun _ hz => (by cases hz), fun _ => rfl,
    .halved hshort hh.split_lt.1 herr hm fun hpre => ?_⟩
  obtain ⟨L, R, hLR, -, -, hexact⟩ := hcase
  have hes' := hexact hpre
  have hmem : front ∈ r.path.tree.extents := by
    have hfront : front ∈ L ++ R := by
      rw [← hLR]
      simp
    rw [hes']
    rcases List.mem_append.mp hfront with h | h <;> simp [h]
  exact ⟨⟨front, hmem, hh.front_block, hh.front_end⟩,
    back, by rw [hes']; simp, hh.back_block, hh.back_end⟩

/-- The label `fix_extent_len`. -/
theorem SplitSpec.restored (hshort : ¬ env.Short flags preIo ⟨d, p⟩ ex split)
    (hok : r.path.tree.Ok env.blocksize)
    (hext : r.path.tree.extents = (left d p ++ (leaf d p).before) ++ front :: (rest ++ right d p))
    (hleaf : (leaf r.path.depth r.path.path).after = front :: rest) {freed : List Nat} :
    SplitSpec env flags preIo ⟨d, p⟩ (mapping (flat d (close d p))) ex split
      ⟨⟨some e, fixExtentLen r.path ex, freed⟩, none, none⟩ := by
  obtain ⟨h1, h2⟩ := fixExtentLen_spec hok hext hleaf hh.front_block hh.front_start
    (ht.around hafter)
  have hlt := hh.split_lt
  refine ⟨h1, fun _ hz => (by cases hz), fun _ => rfl,
    .undone hshort (fun _ h => absurd h (Nat.ne_of_gt hlt.1)) e rfl ?_⟩
  rw [flat_of_after hafter]
  exact congrArg mapping h2

end

/-- **`ext4_split_extent_at`** on the extent of a path: the tree stays well
formed, and only states change. -/
theorem splitExtentAt_spec (split : Nat) (hbs : 1024 ≤ env.blocksize)
    (ht : ExtTree.Ok env.blocksize ⟨d, close d p⟩) (hd : d ≤ ext4MaxExtentDepth)
    (hafter : (leaf d p).after = ex :: rest)
    (hj : env.CalmFor flags preIo ⟨d, p⟩ ex split
      ∨ (ext4SplitExtentAt env flags preIo split ⟨d, p⟩).err = none) :
    SplitSpec env flags preIo ⟨d, p⟩ (mapping (flat d (close d p))) ex split
      (ext4SplitExtentAt env flags preIo split ⟨d, p⟩) := by
  have hes := ht.around hafter
  have hex := hes.ok ex (by simp)
  rw [ext4SplitExtentAt, hafter] at hj ⊢
  dsimp only at hj ⊢
  split
  · rename_i hbug
    have hbad : (flags.dataValid1 && flags.dataValid2) = false → ex.eeBlock ≤ split →
        ¬ split < ex.eeEnd := by
      intro hvalid h1 h2
      rcases hbug with hbug | hbug
      · cases hvalid.symm.trans hbug
      · omega
    exact .unchanged ht (fun hs => hbad hs.valid (Nat.le_of_lt hs.inside.1) hs.inside.2)
      fun hfits => absurd hfits.inside.2 (hbad hfits.valid hfits.inside.1)
  rename_i hbugs
  rw [if_neg hbugs] at hj
  split
  · rename_i hbug
    refine .unchanged ht (fun hs => ?_) fun hfits => ?_
    · cases hs.unwritten.symm.trans hbug.1
    · exact absurd hbug.2 (Bool.eq_false_iff.mp (hfits.state hbug.1))
  rename_i hstate
  rw [if_neg hstate] at hj
  have hunwritten : ext4ExtIsUnwritten ex = false →
      (flags.mayZeroout || flags.markUnwrit1 || flags.markUnwrit2) = false :=
    fun hu => Bool.eq_false_of_not_eq_true fun hm => hstate ⟨hu, hm⟩
  cases hacc : env.access with
  | some e =>
    refine .unchanged ht (fun hs => ?_) fun _ _ => ?_
    · cases hacc.symm.trans hs.access
    · rw [hacc]
      exact Option.some_ne_none e
  | none =>
    rw [hacc] at hj
    by_cases hblock : split = ex.eeBlock
    · rw [if_pos hblock]
      exact .marked ht hafter hblock hacc (fun hu => (Bool.or_eq_false_iff.mp (hunwritten hu)).2)
        rfl rfl
    · rw [if_neg hblock] at hj ⊢
      have hlt : ex.eeBlock < split ∧ split < ex.eeEnd := by
        rw [not_or, not_or] at hbugs
        omega
      cases hdirty : env.dirty with
      | some e =>
        exact .unchanged ht (fun hs => by cases hdirty.symm.trans hs.dirty) fun _ h =>
          absurd h hblock
      | none =>
        rw [hdirty] at hj
        obtain ⟨hh, hu1, hu2⟩ := pieces hex hlt.1 hlt.2 fun hu =>
          (Bool.or_eq_false_iff.mp ((Bool.or_assoc ..).symm.trans (hunwritten hu))).2
        have hins := hh.insert env.toInsertEnv preIo hbs ht hd hafter
        cases herr : (ext4ExtInsertExtent env.toInsertEnv preIo (ex.back split flags.markUnwrit2)
            ⟨d, setExt d p (ex.front split flags.markUnwrit1)⟩).err with
        | none =>
          exact .halved ht hafter hh hu1 hu2 (fun hs => by cases herr.symm.trans hs.full) hins herr
        | some e =>
          rw [herr] at hj
          dsimp only at hj ⊢
          split
          · rename_i hno
            rw [if_pos hno] at hj
            obtain ⟨hok, hsame, hleaf⟩ := insertOutcome_kept hafter hins herr (.inr hno.1)
            cases hz : env.zeroout with
            | some e' =>
              rw [zerooutInstead, hz]
              exact .restored ht hafter hh (fun hs => by cases hz.symm.trans hs.zeroout) hok hsame
                hleaf
            | none =>
              have hs : env.Short flags preIo ⟨d, p⟩ ex split := by
                refine ⟨hlt, ?_, hno.2, ?_, hacc, hdirty, hz, herr.trans (congrArg some hno.1)⟩
                · by_contra hu
                  exact hstate ⟨Bool.eq_false_of_not_eq_true hu, by rw [hno.2]; rfl⟩
                · exact Bool.eq_false_of_not_eq_true fun hv => hbugs (.inl hv)
              have hdz : env.dirtyZeroed = none := by
                rcases hj with hcalm | hok
                · exact hcalm.2 hs
                · rw [zerooutInstead, hz] at hok
                  cases hdz : env.dirtyZeroed with
                  | none => rfl
                  | some e' =>
                    rw [hdz] at hok
                    cases hok
              rw [flat_of_after hafter]
              exact zerooutInstead_spec env flags preIo hdz hz hs rfl rfl hh hex hes hok hsame hleaf
          · rename_i hno
            rw [if_neg hno] at hj
            have hearly : env.early = true := by
              rcases hj with hcalm | hok
              · exact hcalm.1
              · cases hok
            obtain ⟨hok, hsame, hleaf⟩ := insertOutcome_kept hafter hins herr (.inl hearly)
            rw [callersPath, if_pos hearly]
            exact .restored ht hafter hh
              (fun hs => hno ⟨Option.some.inj (herr.symm.trans hs.full), hs.may⟩) hok hsame hleaf

end Split

/-- A split on the path of a lookup. -/
theorem Found.splitExtentAt {env : SplitEnv} {t : ExtTree} {b : Nat} {p : ExtPath} {ex : Extent}
    (h : Found t b p) (flags : SplitFlags) (preIo : Bool) (split : Nat)
    (hb : env.blocksize = blocksize) (hbs : 1024 ≤ blocksize) (ht : t.Ok blocksize)
    (hext : p.ext = some ex)
    (hj : env.CalmFor flags preIo p ex split
      ∨ (ext4SplitExtentAt env flags preIo split p).err = none) :
    SplitSpec env flags preIo p t.mapping ex split (ext4SplitExtentAt env flags preIo split p) := by
  subst hb
  obtain ⟨rest, hafter⟩ := List.head?_eq_some_iff.mp hext
  have hm : mapping (flat p.depth (close p.depth p.path)) = t.mapping := h.mapping_eq
  rw [← hm]
  exact splitExtentAt_spec env flags preIo split hbs (h.ok ht) h.depth_le hafter hj

section Extent

variable {t : ExtTree} {p : ExtPath} {ex : Extent} {b lo hi : Nat}

theorem ExtTree.Ok.setState_self (ht : t.Ok blocksize) (hex : ex ∈ t.extents)
    (hlo : ex.eeBlock ≤ lo) (hhi : hi ≤ ex.eeEnd) :
    setState t.mapping lo hi (ext4ExtIsUnwritten ex) = t.mapping := by
  funext x
  by_cases hx : lo ≤ x ∧ x < hi
  · rw [setState_of_mem hx, mapping_of_mem ht hex ⟨by omega, by omega⟩]
    rfl
  · exact setState_of_not_mem hx

theorem Found.ext_mem (h : Found t b p) (hext : p.ext = some ex) : ex ∈ t.extents := by
  obtain ⟨rest, hafter⟩ := List.head?_eq_some_iff.mp hext
  exact h.mem hafter

theorem Found.ext_eq (h : Found t b p) (ht : t.Ok blocksize) (hex : ex ∈ t.extents)
    (hb : ex.eeBlock ≤ b ∧ b < ex.eeEnd) : p.ext = some ex := by
  obtain ⟨rest, hafter⟩ := h.eq_of_covers ht hex hb
  rw [ExtPath.ext, hafter]
  rfl

end Extent

end Ext4.Extents
