import Ext4.Extents.Merge

/-!
# Extent trees — edits of one leaf

What the end of an insertion does to a leaf and to the keys above it:
`ext4_ext_correct_indexes` brings every key up to date, so a tree whose leaf
got a new extent is well formed again.
-/

namespace Ext4.Extents

open IndexTree
open Ext4.ExtentsStatus (extMaxBlocks)

variable {io : Bool} {rest : List Extent} {n : Nat}

section Keys

variable {cap d : Nat} {p : Path Extent d}

/-- The extent of the path is the first of its leaf: the new border goes up
as far as the leaf is leftmost. -/
theorem correctIndexes_first {ex : Extent} (hleaf : leaf d p = ⟨[], ex :: rest⟩)
    (hb : Beside Extent.eeBlock cap d p) (hs : Spine Extent.eeBlock none d p) :
    ext4ExtCorrectIndexes d p
      = (rekey Extent.eeBlock d p, if left d p = [] then some ex.eeBlock else none) := by
  induction d with
  | zero =>
    have hp : p = ⟨[], ex :: rest⟩ := hleaf
    rw [hp]
    rfl
  | succ d ih =>
    have hleaf' : leaf d p.down = ⟨[], ex :: rest⟩ := hleaf
    have hfirst := firstKey_close Extent.eeBlock d p.down (by rw [hleaf']; simp [Cut.toList])
    rw [hleaf'] at hfirst
    rw [ext4ExtCorrectIndexes, ih hleaf' hb.2.2.2 hs.1, rekey, firstKey_close_rekey, hfirst]
    by_cases hleft : left d p.down = []
    · rw [if_pos hleft, hleft]
      cases hbefore : p.before with
      | nil => simp [left, hbefore, hleft, Cut.toList]
      | cons x xs =>
        have hx : flat d x.child ≠ [] := flat_ne_nil (hb.1 x (by simp [hbefore]))
        simp [left, hbefore, hx, Cut.toList]
    · rw [if_neg hleft]
      obtain ⟨e, es, hes⟩ := List.exists_cons_of_ne_nil hleft
      have hkey : p.key = e.eeBlock := hs.2 _ (by rw [hes]; rfl)
      simp [left, hes, hkey]

theorem correctIndexes_inner (hbefore : (leaf d p).before ≠ [])
    (hs : Spine Extent.eeBlock ((leaf d p).toList.head?.map Extent.eeBlock) d p) :
    ext4ExtCorrectIndexes d p = (rekey Extent.eeBlock d p, none) := by
  induction d with
  | zero =>
    obtain ⟨before, after⟩ := p
    cases before with
    | nil => exact absurd rfl hbefore
    | cons x xs => rfl
  | succ d ih =>
    have hne : (leaf (d + 1) p).toList ≠ [] := fun hnil =>
      hbefore (List.append_eq_nil_iff.mp hnil).1
    rw [ext4ExtCorrectIndexes, ih hbefore hs.1, rekey_of_spine hne hs,
      rekey_of_spine (p := p.down) hne hs.1]

theorem correctIndexes_eq_rekey (hne : (leaf d p).toList ≠ []) (hb : Beside Extent.eeBlock cap d p)
    (hs : (leaf d p).before = [] ∧ Spine Extent.eeBlock none d p
      ∨ Spine Extent.eeBlock ((leaf d p).toList.head?.map Extent.eeBlock) d p) :
    (ext4ExtCorrectIndexes d p).1 = rekey Extent.eeBlock d p := by
  by_cases hbefore : (leaf d p).before = []
  · have hs' : Spine Extent.eeBlock none d p := hs.elim (·.2) (·.weaken)
    rw [Cut.toList, hbefore, List.nil_append] at hne
    obtain ⟨ex, rest, hafter⟩ := List.exists_cons_of_ne_nil hne
    have hleaf : leaf d p = ⟨[], ex :: rest⟩ := by rw [← hbefore, ← hafter]
    rw [correctIndexes_first hleaf hb hs']
  · rw [correctIndexes_inner hbefore (hs.resolve_left fun h => hbefore h.1)]

end Keys

/-- A path in a tree that is well formed except for the leaf and the keys
above it. -/
structure Ready (blocksize d : Nat) (p : Path Extent d) : Prop where
  beside : Beside Extent.eeBlock (ext4ExtSpaceBlock blocksize) d p
  root_le : d ≠ 0 → width d (close d p) ≤ ext4ExtSpaceRoot

/-- A sequence of extents a tree may store. -/
structure ExtentsOk (es : List Extent) : Prop where
  ok : ∀ ex ∈ es, ex.Ok
  separated : blockView.Separated es

variable {es es' : List Extent}

theorem Merges.extentsOk (h : Merges es es') (hes : ExtentsOk es) : ExtentsOk es' :=
  ⟨h.ok hes.ok, h.separated hes.ok hes.separated⟩

theorem ExtTree.Ok.extentsOk {blocksize : Nat} {t : ExtTree} (h : t.Ok blocksize) :
    ExtentsOk t.extents :=
  ⟨h.extents_ok, h.separated⟩

theorem ExtTree.Ok.ready {blocksize d : Nat} {p : Path Extent d}
    (h : ExtTree.Ok blocksize ⟨d, close d p⟩) : Ready blocksize d p :=
  ⟨h.keyed.beside, fun _ => h.root_le⟩

section Edit

variable {blocksize d : Nat} {p : Path Extent d}

theorem ExtTree.Ok.leaf_le (h : ExtTree.Ok blocksize ⟨d, close d p⟩) :
    (leaf d p).toList.length ≤ leafMax blocksize d := by
  cases d with
  | zero => exact h.root_le
  | succ d => exact h.keyed.leaf_length_le

theorem Ready.setLeaf (h : Ready blocksize d p) (c : Cut Extent) :
    Ready blocksize d (setLeaf d p c) :=
  ⟨h.beside.setLeaf c, fun hd => (width_close_setLeaf hd p c).symm ▸ h.root_le hd⟩

/-- With a leaf that fits and its keys up to date the tree is well formed. -/
theorem Ready.ok (h : Ready blocksize d p) (hne : d ≠ 0 → (leaf d p).toList ≠ [])
    (hlen : (leaf d p).toList.length ≤ leafMax blocksize d)
    (hes : ExtentsOk (left d p ++ (leaf d p).toList ++ right d p)) :
    ExtTree.Ok blocksize ⟨d, close d (rekey Extent.eeBlock d p)⟩ := by
  have hflat : flat d (close d (rekey Extent.eeBlock d p))
      = left d p ++ (leaf d p).toList ++ right d p := by
    rw [flat_close_rekey, flat_close]
  refine ⟨keyed_rekey h.beside hne fun hd => ?_, ?_, ?_, ?_⟩
  · rwa [leafMax, if_neg hd] at hlen
  · show width d (close d (rekey Extent.eeBlock d p)) ≤ ext4ExtSpaceRoot
    rw [width_close_rekey]
    cases d with
    | zero => exact hlen
    | succ d => exact h.root_le (Nat.succ_ne_zero d)
  · intro ex hex
    exact hes.ok ex (hflat ▸ hex)
  · exact (congrArg blockView.Separated hflat).mpr hes.separated

theorem tryToMergeUp_spec {extendOk : Bool} {c : Cut Extent} {blk : Nat}
    (h : ext4ExtTryToMergeUp extendOk d p = some (c, blk)) :
    c = leaf d p ∧ left d p = [] ∧ right d p = [] ∧ c.toList.length ≤ ext4ExtSpaceRoot := by
  obtain _ | _ | d := d
  · cases h
  · rw [ext4ExtTryToMergeUp] at h
    split at h
    · rename_i hcond
      obtain ⟨h1, h2, -⟩ := hcond
      injection h with h
      injection h with hc hb
      have hbefore : p.before = [] := List.eq_nil_of_length_eq_zero (by omega)
      have hafter : p.after = [] := List.eq_nil_of_length_eq_zero (by omega)
      refine ⟨hc.symm, ?_, ?_, hc ▸ h2⟩
      · simp [left, hbefore]
      · simp [right, hafter]
    · cases h
  · cases h

theorem cut_toList (es : List Extent) (k : Nat) : Cut.toList ⟨es.take k, es.drop k⟩ = es :=
  List.take_append_drop k es

variable (env : InsertEnv) (preIo : Bool) {back : Path Extent d → Path Extent d}

/-- An error of a call that failed once the tree was being changed. -/
def InsertEnv.Late (env : InsertEnv) (e : Errno) : Prop := e ≠ .enospc ∧ env.early = false

variable {env} in
theorem InsertEnv.late_of_failing {f : InsertFault} {e : Errno} (hf : f.early = false)
    (h : env.failing f = some e) : env.Late e := by
  rw [InsertEnv.failing] at h
  split at h
  · rename_i g e' hfault
    split at h
    · rename_i hg
      obtain rfl := Option.some.inj h
      refine ⟨e'.2, ?_⟩
      rw [InsertEnv.early, hfault, hg]
      exact hf
    · cases h
  · cases h

variable {env} in
theorem InsertEnv.late_of_correctFault {n : Nat} {e : Errno}
    (h : env.correctFault d p = some (n, e)) : env.Late e := by
  rw [InsertEnv.correctFault] at h
  split at h
  · rename_i m e' hfault
    split at h
    · obtain ⟨-, rfl⟩ := Prod.mk.inj (Option.some.inj h)
      refine ⟨e'.2, ?_⟩
      rw [InsertEnv.early, hfault]
      rfl
    · cases h
  · cases h

/-- The end of every insertion: unless a call fails, the leaf `es` is stored up
to merging, and the tree is well formed. -/
theorem mergeAndCorrect_spec {es : List Extent} {k : Nat} (n : Nat) (hr : Ready env.blocksize d p)
    (hback : ∀ c, close d (back (rekey Extent.eeBlock d (setLeaf d p c)))
      = close d (rekey Extent.eeBlock d (setLeaf d p c))) (hne : es ≠ [])
    (hlen : es.length ≤ leafMax env.blocksize d) (hes : ExtentsOk (left d p ++ es ++ right d p))
    (hfirst : k = 0 ∧ Spine Extent.eeBlock none d p
      ∨ Spine Extent.eeBlock (es.head?.map Extent.eeBlock) d p) :
    (∀ e, (mergeAndCorrect env preIo d p back es k n).err = some e → env.Late e)
      ∧ ((mergeAndCorrect env preIo d p back es k n).err = none →
        (mergeAndCorrect env preIo d p back es k n).path.tree.Ok env.blocksize
        ∧ Merges (left d p ++ es ++ right d p)
            (mergeAndCorrect env preIo d p back es k n).path.tree.extents
        ∧ (preIo = true → (mergeAndCorrect env preIo d p back es k n).path
            = ⟨d, back (rekey Extent.eeBlock d (setLeaf d p ⟨es.take k, es.drop k⟩))⟩)) := by
  rw [mergeAndCorrect]
  have hm : Merges es (if preIo = true then es else ext4ExtTryToMerge env.ioUnwritten es n) := by
    split
    · exact .refl es
    · exact merges_tryToMerge _ es n
  have hpre : preIo = true →
      (if preIo = true then es else ext4ExtTryToMerge env.ioUnwritten es n) = es :=
    fun h => if_pos h
  generalize (if preIo = true then es else ext4ExtTryToMerge env.ioUnwritten es n) = merged at *
  have hm' : Merges (left d p ++ es ++ right d p) (left d p ++ merged ++ right d p) :=
    hm.inside (left d p) (right d p)
  have hmerged : (leaf d (setLeaf d p ⟨merged.take k, merged.drop k⟩)).toList = merged := by
    rw [leaf_setLeaf, cut_toList]
  cases hup : (if preIo = true then none
      else ext4ExtTryToMergeUp env.extendOk d
        (setLeaf d p ⟨merged.take k, merged.drop k⟩)) with
  | some found =>
    obtain ⟨c, blk⟩ := found
    have hpreIo : preIo ≠ true := by
      intro hpre'
      rw [if_pos hpre'] at hup
      cases hup
    rw [if_neg hpreIo] at hup
    obtain ⟨hc, hleft, hright, hroot⟩ := tryToMergeUp_spec hup
    rw [left_setLeaf] at hleft
    rw [right_setLeaf] at hright
    have hcl : c.toList = merged := by rw [hc, hmerged]
    have hext : left d p ++ merged ++ right d p = c.toList := by
      rw [hleft, hright, hcl, List.append_nil, List.nil_append]
    have hmOk := hm'.extentsOk hes
    rw [hext] at hmOk hm'
    exact ⟨fun e he => env.late_of_failing rfl he, fun _ =>
      ⟨⟨trivial, hroot, hmOk.ok, hmOk.separated⟩, hm', fun h => absurd h hpreIo⟩⟩
  | none =>
    have hq : Ready env.blocksize d (setLeaf d p ⟨merged.take k, merged.drop k⟩) :=
      hr.setLeaf _
    have hext : left d (setLeaf d p ⟨merged.take k, merged.drop k⟩)
        ++ (leaf d (setLeaf d p ⟨merged.take k, merged.drop k⟩)).toList
        ++ right d (setLeaf d p ⟨merged.take k, merged.drop k⟩)
        = left d p ++ merged ++ right d p := by
      rw [left_setLeaf, right_setLeaf, hmerged]
    have hmne : merged ≠ [] := hm.ne_nil hne
    have hok := hq.ok (fun _ => hmerged.symm ▸ hmne)
      (hmerged.symm ▸ Nat.le_trans hm.length_le hlen) (hext ▸ hm'.extentsOk hes)
    have hcorrect := correctIndexes_eq_rekey
      (p := setLeaf d p ⟨merged.take k, merged.drop k⟩)
      (hmerged.symm ▸ hmne) hq.beside (by
        rcases hfirst with ⟨hk, hs⟩ | hs
        · refine .inl ⟨?_, hs.setLeaf _⟩
          rw [leaf_setLeaf, hk]
          rfl
        · refine .inr ?_
          rw [hmerged, hm.first]
          exact hs.setLeaf _)
    rw [hcorrect]
    cases hfault : env.correctFault d (setLeaf d p ⟨merged.take k, merged.drop k⟩) with
    | some found =>
      refine ⟨fun e he => ?_, fun h => ?_⟩
      · obtain rfl := Option.some.inj he
        exact env.late_of_correctFault hfault
      · cases h
    | none =>
      refine ⟨fun e he => env.late_of_failing rfl he, fun _ => ⟨?_, ?_, fun h => ?_⟩⟩
      · rw [ExtPath.tree, hback]
        exact hok
      · rw [ExtPath.tree, ExtTree.extents, hback, flat_close_rekey, flat_close, hext]
        exact hm'
      · rw [hpre h]

end Edit

/-! ## The place of a new extent -/

/-- The new extent fits between the two parts of a sequence. -/
structure Gap (newext : Extent) (L R : List Extent) : Prop where
  below : ∀ ex ∈ L, ex.eeEnd ≤ newext.eeBlock
  above : ∀ ex ∈ R, newext.eeEnd ≤ ex.eeBlock

/-- The sequence after an insertion: the new extent in its gap, up to
merging. -/
def Inserts (newext : Extent) (es es' : List Extent) : Prop :=
  ∃ L R, es = L ++ R ∧ Gap newext L R ∧ Merges (L ++ newext :: R) es'

/-- An insertion that merges nothing if it is one for an extent under I/O. -/
def InsertsAs (preIo : Bool) (newext : Extent) (es es' : List Extent) : Prop :=
  ∃ L R, es = L ++ R ∧ Gap newext L R ∧ Merges (L ++ newext :: R) es'
    ∧ (preIo = true → es' = L ++ newext :: R)

theorem InsertsAs.inserts {preIo : Bool} {newext : Extent} (h : InsertsAs preIo newext es es') :
    Inserts newext es es' := by
  obtain ⟨L, R, h1, h2, h3, -⟩ := h
  exact ⟨L, R, h1, h2, h3⟩

/-- No extent of the sequence shares a block with the new one. -/
def Free (newext : Extent) (es : List Extent) : Prop :=
  ∀ ex ∈ es, ex.eeEnd ≤ newext.eeBlock ∨ newext.eeEnd ≤ ex.eeBlock

theorem Gap.extentsOk {newext : Extent} {L R : List Extent} (h : Gap newext L R)
    (hnew : newext.Ok) (hes : ExtentsOk (L ++ R)) : ExtentsOk (L ++ newext :: R) := by
  refine ⟨fun ex hex => ?_, ?_⟩
  · rcases List.mem_append.mp hex with hex | hex
    · exact hes.ok ex (by simp [hex])
    · rcases List.mem_cons.mp hex with rfl | hex
      · exact hnew
      · exact hes.ok ex (by simp [hex])
  · obtain ⟨h1, h2, h3⟩ := List.pairwise_append.mp hes.separated
    refine List.pairwise_append.mpr ⟨h1, List.pairwise_cons.mpr ⟨h.above, h2⟩, fun x hx y hy => ?_⟩
    rcases List.mem_cons.mp hy with rfl | hy
    · exact h.below x hx
    · exact h3 x hx y hy

section Place

variable {newext : Extent} {d : Nat} {p : Path Extent d}

variable {ex : Extent}

/-- What is in front of the extent of the path, and what is behind it. -/
theorem flat_of_after (hafter : (leaf d p).after = ex :: rest) :
    flat d (close d p) = (left d p ++ (leaf d p).before) ++ ex :: (rest ++ right d p) := by
  rw [flat_close, Cut.toList, hafter]
  simp

section

variable (hfree : Free newext (flat d (close d p))) (hes : ExtentsOk (flat d (close d p)))

include hfree hes

theorem gap_above (hloc : Located Extent.eeBlock newext.eeBlock d p) :
    ∀ ex ∈ (leaf d p).after.tail ++ right d p, newext.eeEnd ≤ ex.eeBlock := by
  intro ex hex
  have hmem : ex ∈ flat d (close d p) := by
    rw [flat_close, Cut.toList]
    rcases List.mem_append.mp hex with hex | hex
    · simp [List.mem_of_mem_tail hex]
    · simp [hex]
  have h1 := hloc.high ex hex
  have h2 := eeBlock_lt_eeEnd (hes.ok ex hmem)
  rcases hfree ex hmem with h3 | h3
  · omega
  · exact h3

/-- The extent of the path is in front of the new one, unless the new one is
to be the first of all. -/
theorem gap_below (hnew : newext.Ok) (hafter : (leaf d p).after = ex :: rest)
    (hlt : ex.eeBlock < newext.eeBlock) :
    ∀ e ∈ left d p ++ (leaf d p).before ++ [ex], e.eeEnd ≤ newext.eeBlock := by
  rw [flat_of_after hafter] at hfree hes
  have hend : ex.eeEnd ≤ newext.eeBlock := by
    rcases hfree ex (by simp) with h | h
    · exact h
    · have := eeBlock_lt_eeEnd hnew
      omega
  intro e he
  rcases List.mem_append.mp he with he | he
  · have h1 : e.eeEnd ≤ ex.eeBlock :=
      (List.pairwise_append.mp hes.separated).2.2 e he ex (by simp)
    omega
  · rw [List.mem_singleton.mp he]
    exact hend

theorem placeNew_spec (hnew : newext.Ok) (hloc : Located Extent.eeBlock newext.eeBlock d p) :
    ∃ b a, placeNew (leaf d p) newext = some (b ++ newext :: a, b.length)
      ∧ (leaf d p).toList = b ++ a ∧ Gap newext (left d p ++ b) (a ++ right d p) := by
  have habove := gap_above hfree hes hloc
  rw [placeNew]
  cases hafter : (leaf d p).after with
  | nil =>
    have hnil := hloc.empty hafter
    rw [flat_close, List.append_eq_nil_iff, List.append_eq_nil_iff] at hnil
    obtain ⟨⟨h1, h2⟩, h3⟩ := hnil
    refine ⟨[], [], rfl, h2, ?_, ?_⟩
    · intro e he
      rw [h1, List.append_nil] at he
      cases he
    · intro e he
      rw [h3, List.append_nil] at he
      cases he
  | cons ex rest =>
    rw [hafter, List.tail_cons] at habove
    dsimp only
    rcases Nat.lt_trichotomy ex.eeBlock newext.eeBlock with hlt | heq | hgt
    · rw [if_pos hlt]
      refine ⟨(leaf d p).before ++ [ex], rest, by simp, ?_, ?_, habove⟩
      · rw [Cut.toList, hafter]
        simp
      · rw [← List.append_assoc]
        exact gap_below hfree hes hnew hafter hlt
    · have hmem : ex ∈ flat d (close d p) := by
        rw [flat_of_after hafter]
        simp
      have h1 := eeBlock_lt_eeEnd (hes.ok ex hmem)
      have h2 := eeBlock_lt_eeEnd hnew
      rcases hfree ex hmem with h | h <;> omega
    · rw [if_neg (Nat.lt_asymm hgt), if_neg (Nat.ne_of_gt hgt)]
      have hnil := hloc.low ex (by rw [hafter]; rfl) hgt
      refine ⟨(leaf d p).before, ex :: rest, rfl, ?_, ?_, fun e he => ?_⟩
      · rw [Cut.toList, hafter]
      · intro e he
        rw [hnil] at he
        cases he
      · rcases List.mem_cons.mp he with rfl | he
        · have hmem : e ∈ flat d (close d p) := by
            rw [flat_of_after hafter]
            simp
          have h1 := eeBlock_lt_eeEnd (hes.ok e hmem)
          rcases hfree e hmem with h | h
          · omega
          · exact h
        · exact habove e he

end

variable {env : InsertEnv} (preIo : Bool) {back : Path Extent d → Path Extent d}

theorem hasSpace_spec {b a : List Extent} (hr : Ready env.blocksize d p)
    (hback : ∀ c, close d (back (rekey Extent.eeBlock d (setLeaf d p c)))
      = close d (rekey Extent.eeBlock d (setLeaf d p c))) (hnew : newext.Ok)
    (hplace : placeNew (leaf d p) newext = some (b ++ newext :: a, b.length))
    (hleaf : (leaf d p).toList = b ++ a)
    (hroom : (leaf d p).toList.length < leafMax env.blocksize d)
    (hgap : Gap newext (left d p ++ b) (a ++ right d p))
    (hes : ExtentsOk (left d p ++ (leaf d p).toList ++ right d p))
    (hs : Spine Extent.eeBlock none d p)
    (hs' : b ≠ [] → Spine Extent.eeBlock ((leaf d p).toList.head?.map Extent.eeBlock) d p) :
    (∀ e, (hasSpace env preIo newext d p back).err = some e → env.Late e)
      ∧ ((hasSpace env preIo newext d p back).err = none →
        (hasSpace env preIo newext d p back).path.tree.Ok env.blocksize
        ∧ Merges ((left d p ++ b) ++ newext :: (a ++ right d p))
            (hasSpace env preIo newext d p back).path.tree.extents
        ∧ (preIo = true → (hasSpace env preIo newext d p back).path
            = ⟨d, back (rekey Extent.eeBlock d (setLeaf d p ⟨b, newext :: a⟩))⟩)) := by
  have heq : left d p ++ (b ++ newext :: a) ++ right d p
      = (left d p ++ b) ++ newext :: (a ++ right d p) := by simp
  have hlen : (b ++ newext :: a).length ≤ leafMax env.blocksize d := by
    rw [hleaf, List.length_append] at hroom
    rw [List.length_append, List.length_cons]
    omega
  have hok : ExtentsOk (left d p ++ (b ++ newext :: a) ++ right d p) := by
    rw [heq]
    refine hgap.extentsOk hnew ?_
    rw [hleaf] at hes
    simpa using hes
  have hfirst : b.length = 0 ∧ Spine Extent.eeBlock none d p
      ∨ Spine Extent.eeBlock ((b ++ newext :: a).head?.map Extent.eeBlock) d p := by
    cases b with
    | nil => exact .inl ⟨rfl, hs⟩
    | cons e b =>
      have hspine := hs' (List.cons_ne_nil e b)
      rw [hleaf] at hspine
      exact .inr hspine
  have h := mergeAndCorrect_spec env preIo b.length hr hback (by simp) hlen hok hfirst
  rw [hasSpace, hplace]
  rw [heq, List.take_left, List.drop_left] at h
  exact h

end Place

/-! ## Joining the new extent to another one -/

section Join

variable {newext ex : Extent} {A B : List Extent}

theorem gap_append (hes : ExtentsOk (A ++ ex :: B)) (hfree : Free newext (A ++ ex :: B))
    (h : ex.eeEnd = newext.eeBlock) : Gap newext (A ++ [ex]) B := by
  obtain ⟨-, h2, h3⟩ := List.pairwise_append.mp hes.separated
  refine ⟨fun e he => ?_, fun e he => ?_⟩
  · rw [← h]
    rcases List.mem_append.mp he with he | he
    · have h1 : e.eeEnd ≤ ex.eeBlock := h3 e he ex (by simp)
      exact Nat.le_trans h1 (Nat.le_of_lt (eeBlock_lt_eeEnd (hes.ok ex (by simp))))
    · rw [List.mem_singleton.mp he]
  · have h1 : ex.eeEnd ≤ e.eeBlock := List.rel_of_pairwise_cons h2 he
    have h4 := eeBlock_lt_eeEnd (hes.ok e (by simp [he]))
    rcases hfree e (by simp [he]) with h5 | h5
    · omega
    · exact h5

theorem gap_prepend (hes : ExtentsOk (A ++ ex :: B)) (hfree : Free newext (A ++ ex :: B))
    (h : newext.eeEnd = ex.eeBlock) : Gap newext A (ex :: B) := by
  obtain ⟨-, h2, h3⟩ := List.pairwise_append.mp hes.separated
  refine ⟨fun e he => ?_, fun e he => ?_⟩
  · have h1 : e.eeEnd ≤ ex.eeBlock := h3 e he ex (by simp)
    have h4 := eeBlock_lt_eeEnd (hes.ok e (by simp [he]))
    rcases hfree e (by simp [he]) with h5 | h5
    · exact h5
    · omega
  · rw [h]
    rcases List.mem_cons.mp he with rfl | he
    · exact Nat.le_refl _
    · have h1 : ex.eeEnd ≤ e.eeBlock := List.rel_of_pairwise_cons h2 he
      exact Nat.le_trans (Nat.le_of_lt (eeBlock_lt_eeEnd (hes.ok ex (by simp)))) h1

theorem joinAt_spec {onlyPrepend : Bool} {i : Nat}
    (h : joinAt io es newext onlyPrepend i = some (es', n)) :
    ∃ A ex B, es = A ++ ex :: B ∧ A.length = i
      ∧ (Mergeable ex newext ∧ es' = A ++ ex.append newext :: B
        ∨ Mergeable newext ex ∧ es' = A ++ newext.append ex :: B) := by
  rw [joinAt] at h
  split at h
  · nomatch h
  · rename_i ex hex
    obtain ⟨hi, hget⟩ := List.getElem?_eq_some_iff.mp hex
    have hsplit : es = es.take i ++ ex :: es.drop (i + 1) := by
      rw [← hget, ← List.drop_eq_getElem_cons hi, List.take_append_drop]
    have hset : ∀ e, es.set i e = es.take i ++ e :: es.drop (i + 1) := fun e =>
      List.set_eq_take_append_cons_drop.trans (if_pos hi)
    refine ⟨es.take i, ex, es.drop (i + 1), hsplit, List.length_take_of_le (Nat.le_of_lt hi), ?_⟩
    split at h
    · rename_i hcan
      rw [Bool.and_eq_true] at hcan
      cases h
      exact .inl ⟨mergeable_of_can hcan.2, hset _⟩
    · split at h
      · rename_i hcan
        have hm := mergeable_of_can hcan
        cases h
        exact .inr ⟨hm, by rw [hset, prepend_eq_append hm]⟩
      · cases h

theorem joinFound_spec {d : Nat} {p : Path Extent d} {es : List Extent}
    (h : joinFound io (leaf d p) newext = some (es, n)) (hnew : newext.Ok)
    (hloc : Located Extent.eeBlock newext.eeBlock d p) (hfree : Free newext (flat d (close d p)))
    (hes : ExtentsOk (flat d (close d p))) :
    ∃ b a, (leaf d p).toList = b ++ a ∧ Gap newext (left d p ++ b) (a ++ right d p)
      ∧ Merges (b ++ newext :: a) es ∧ es.length = (leaf d p).toList.length
      ∧ ((leaf d p).before.length = 0
        ∨ es.head?.map Extent.eeBlock = (leaf d p).toList.head?.map Extent.eeBlock) := by
  -- the slot that was tried
  obtain ⟨onlyPrepend, i, hi, hjoin⟩ : ∃ onlyPrepend i,
      ((leaf d p).before.length = 0 ∨ 0 < i)
        ∧ joinAt io (leaf d p).toList newext onlyPrepend i = some (es, n) := by
    rw [joinFound] at h
    cases hafter : (leaf d p).after with
    | nil => rw [hafter] at h; nomatch h
    | cons ex rest =>
      rw [hafter] at h
      dsimp only at h
      split at h
      · exact ⟨_, _, .inr (Nat.succ_pos _), h⟩
      · split at h
        · rename_i hcond
          have h1 := eeBlock_lt_eeEnd hnew
          have hnil := hloc.low ex (by rw [hafter]; rfl) (by omega)
          exact absurd (List.append_eq_nil_iff.mp hnil).2 hcond.1
        · exact ⟨_, _, Nat.eq_zero_or_pos _, h⟩
  obtain ⟨A, ex, B, hleaf, hlen, hcases⟩ := joinAt_spec hjoin
  have hflat : flat d (close d p) = (left d p ++ A) ++ ex :: (B ++ right d p) := by
    rw [flat_close, hleaf]
    simp
  rw [hflat] at hes hfree
  rcases hcases with ⟨hm, rfl⟩ | ⟨hm, rfl⟩
  · refine ⟨A ++ [ex], B, by rw [hleaf]; simp, ?_, ?_, by rw [hleaf]; simp, .inr ?_⟩
    · have hg := gap_append hes hfree hm.logical
      rwa [List.append_assoc] at hg
    · rw [List.append_assoc]
      exact .step hm (.refl _)
    · rw [hleaf]
      cases A with
      | nil => exact congrArg some (append_eeBlock ex newext)
      | cons e A => rfl
  · refine ⟨A, ex :: B, hleaf, gap_prepend hes hfree hm.logical, .step hm (.refl _),
      by rw [hleaf]; simp, ?_⟩
    refine hi.imp_right fun hpos => ?_
    cases A with
    | nil => rw [List.length_nil] at hlen; omega
    | cons e A => rw [hleaf]; rfl

end Join

end Ext4.Extents
