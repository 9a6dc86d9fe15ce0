import Ext4.Extents.SplitState

/-!
# Extent trees — what a failed split undoes

`ext4_split_extent_at` shortens an extent before it inserts the second half,
and puts the old length back when that fails. It has no way back once a state
was changed: a failure of the journal in case b, of the extent status tree
after zeroes were written, or of the journal after the zeroed extent was
merged with a neighbour leaves another mapping behind.
-/

namespace Ext4.Extents

open IndexTree
open Ext4.ExtentsStatus (ext4EsInsertExtent)

/-! ## Merging around a slot -/

section Merging

variable {io : Bool} {x y : Extent} {b rest : List Extent}

/-- Merging to the right makes one extent of some of the next ones. -/
theorem mergeRight_head (hx : x.Ok) (hes : ∀ e ∈ rest, e.Ok) :
    ∃ z n, (ext4ExtTryToMergeRight io x rest).1 = z :: rest.drop n ∧ z.eeBlock = x.eeBlock
      ∧ z.eeStart = x.eeStart ∧ ext4ExtIsUnwritten z = ext4ExtIsUnwritten x
        ∧ x.eeEnd ≤ z.eeEnd := by
  induction rest generalizing x with
  | nil => exact ⟨x, 0, rfl, rfl, rfl, rfl, Nat.le_refl _⟩
  | cons y rest ih =>
    rw [ext4ExtTryToMergeRight]
    split
    · rename_i hcan
      have hm := mergeable_of_can hcan
      have hy := hes y List.mem_cons_self
      obtain ⟨z, n, h1, h2, h3, h4, h5⟩ := ih (append_ok hm hx hy)
        fun e he => hes e (List.mem_cons_of_mem y he)
      refine ⟨z, n + 1, h1, h2.trans (append_eeBlock x y), h3.trans (withLen_eeStart _ _ _),
        h4.trans (append_unwritten hm hx), ?_⟩
      rw [append_eeEnd hm hx] at h5
      have hlt := eeBlock_lt_eeEnd hy
      rw [← hm.logical] at hlt
      omega
    · exact ⟨x, 0, rfl, rfl, rfl, rfl, Nat.le_refl _⟩

theorem mergeRightAt_length (b : List Extent) (x : Extent) (rest : List Extent) :
    mergeRightAt io (b ++ x :: rest) b.length
      = (b ++ (ext4ExtTryToMergeRight io x rest).1, (ext4ExtTryToMergeRight io x rest).2) := by
  rw [mergeRightAt, List.drop_left, List.take_left]

/-- The extent of a slot, once it is written, can be merged with neither of
its neighbours. -/
def Alone (io : Bool) (before : List Extent) (ex : Extent) (rest : List Extent) : Prop :=
  (∀ x, before.getLast? = some x → ext4CanExtentsBeMerged io x (ext4ExtMarkInitialized ex) = false)
    ∧ ∀ y, rest.head? = some y → ext4CanExtentsBeMerged io (ext4ExtMarkInitialized ex) y = false

theorem mergeRight_of_not_can
    (h : ∀ y, rest.head? = some y → ext4CanExtentsBeMerged io x y = false) :
    ext4ExtTryToMergeRight io x rest = (x :: rest, false) := by
  cases rest with
  | nil => rfl
  | cons y rest => rw [ext4ExtTryToMergeRight, if_neg (Bool.eq_false_iff.mp (h y rfl))]

/-- With no merge to the left, merging in a slot is merging to the right. -/
theorem tryToMerge_of_not_can
    (h : ∀ y, b.getLast? = some y → ext4CanExtentsBeMerged io y x = false) :
    ext4ExtTryToMerge io (b ++ x :: rest) b.length
      = b ++ (ext4ExtTryToMergeRight io x rest).1 := by
  rcases List.eq_nil_or_concat b with rfl | ⟨b, y, rfl⟩
  · rw [List.length_nil, ext4ExtTryToMerge]
    exact congrArg Prod.fst (mergeRightAt_length [] x rest)
  · rw [List.concat_eq_append] at h ⊢
    have hy := h y List.getLast?_concat
    rw [List.length_append, List.length_singleton, ext4ExtTryToMerge]
    have hleft := @mergeRightAt_length io b y (x :: rest)
    rw [mergeRight_of_not_can fun z hz => by rwa [← Option.some.inj hz]] at hleft
    rw [List.append_assoc, List.singleton_append, hleft]
    rw [if_neg Bool.false_ne_true]
    have hright := @mergeRightAt_length io (b ++ [y]) x rest
    rw [List.length_append, List.length_singleton, List.append_assoc, List.singleton_append]
      at hright
    rw [hright]

theorem tryToMerge_of_can (h : ext4CanExtentsBeMerged io y x = true) :
    ext4ExtTryToMerge io (b ++ y :: x :: rest) (b.length + 1)
      = b ++ (ext4ExtTryToMergeRight io (y.append x) rest).1 := by
  have hleft := @mergeRightAt_length io b y (x :: rest)
  rw [ext4ExtTryToMergeRight, if_pos h] at hleft
  rw [ext4ExtTryToMerge, hleft]
  rfl

end Merging

/-! ## The way back -/

section Undo

variable {q : ExtPath} {ex whole : Extent} {A B before rest : List Extent} {blocksize : Nat}
  {env : SplitEnv}

theorem mapping_at_start (hes : ExtentsOk (A ++ ex :: B)) :
    mapping (A ++ ex :: B) ex.eeBlock = some (ex.eeStart, ext4ExtIsUnwritten ex) := by
  have hlt := eeBlock_lt_eeEnd (hes.ok ex (by simp))
  rw [mapping_replace hes rfl rfl, if_pos ⟨Nat.le_refl _, hlt⟩, Nat.sub_self, Nat.add_zero]

/-- A sequence in which a written extent lies over the first block. -/
theorem mapping_ne_of_covered (hes : ExtentsOk (A ++ ex :: B)) (hu : ext4ExtIsUnwritten ex = true)
    {z : Extent} {L R : List Extent} (hL : ∀ e ∈ L, e.eeEnd ≤ ex.eeBlock)
    (hz : z.eeBlock ≤ ex.eeBlock ∧ ex.eeBlock < z.eeEnd) (hzu : ext4ExtIsUnwritten z = false) :
    mapping (L ++ z :: R) ≠ mapping (A ++ ex :: B) := by
  intro heq
  have h := congrFun heq ex.eeBlock
  have hnone : blockView.get L ex.eeBlock = none := blockView.get_eq_none_of_ge hL
  have hcov : blockView.Covers z ex.eeBlock := hz
  rw [mapping_at_start hes, hu, mapping, blockView.get_append, hnone, blockView.get_cons,
    if_pos hcov] at h
  have hsnd : ext4ExtIsUnwritten z = true := congrArg Prod.snd (Option.some.inj h)
  rw [hzu] at hsnd
  cases hsnd

/-- A sequence that lost the extent behind. -/
theorem mapping_ne_of_lost {y : Extent} (hes : ExtentsOk (A ++ ex :: y :: B)) {R : List Extent}
    (hR : ∀ e ∈ R, e ∈ B) : mapping (A ++ ex :: R) ≠ mapping (A ++ ex :: y :: B) := by
  intro heq
  have h := congrFun heq y.eeBlock
  have hes' : ExtentsOk ((A ++ [ex]) ++ y :: B) := by simpa using hes
  obtain ⟨-, h2, h3⟩ := List.pairwise_append.mp hes'.separated
  have hsome := mapping_at_start hes'
  rw [List.append_assoc, List.singleton_append] at hsome
  have hnone : mapping (A ++ ex :: R) y.eeBlock = none := by
    refine blockView.get_eq_none_iff.mpr fun e he hcov => ?_
    have he' : e ∈ (A ++ [ex]) ++ R := by simpa using he
    rcases List.mem_append.mp he' with he' | he'
    · exact Nat.lt_irrefl _ (Nat.lt_of_lt_of_le hcov.2 (h3 e he' y List.mem_cons_self))
    · have hlt := eeBlock_lt_eeEnd (hes'.ok y (by simp))
      have hle : y.eeEnd ≤ e.eeBlock := (List.pairwise_cons.mp h2).1 e (hR e he')
      have hcov1 : e.eeBlock ≤ y.eeBlock := hcov.1
      omega
  rw [hnone, hsome] at h
  cases h

theorem fixExtentLen_extents (q : ExtPath) (ex : Extent) :
    (fixExtentLen q ex).tree.extents = left q.depth q.path ++ (leaf q.depth q.path).before
      ++ ((leaf q.depth q.path).after.head?.map fun z => { z with eeLen := ex.eeLen }).toList
      ++ (leaf q.depth q.path).after.tail ++ right q.depth q.path := by
  rw [fixExtentLen]
  split
  · rename_i hafter
    rw [hafter, ExtPath.tree, ExtTree.extents, flat_close, Cut.toList, hafter]
    simp
  · rename_i z rest hafter
    rw [hafter]
    show flat q.depth (close q.depth (setExt q.depth q.path _)) = _
    rw [flat_setExt hafter]
    simp

theorem tryToMergeUp_depth {extendOk : Bool} {d : Nat} {p : Path Extent d} {c : Cut Extent × Nat}
    (h : ext4ExtTryToMergeUp extendOk d p = some c) : d = 1 := by
  match d, p, h with
  | 0, _, h => cases h
  | 1, _, _ => rfl
  | _ + 2, _, h => cases h

/-- A leaf is copied into the inode only if little of it is left. -/
theorem tryToMergeAt_cases (env : InsertEnv) {d : Nat} {p : Path Extent d} {c : Cut Extent}
    (hleaf : leaf d p = c) {merged : List Extent}
    (hmerged : ext4ExtTryToMerge env.ioUnwritten c.toList c.before.length = merged) :
    (∃ c' blk, tryToMergeAt env d p = (⟨0, c'⟩, [blk]) ∧ d = 1 ∧ merged.length ≤ ext4ExtSpaceRoot)
      ∨ tryToMergeAt env d p
        = (⟨d, setLeaf d p ⟨merged.take c.before.length, merged.drop c.before.length⟩⟩, []) := by
  rw [tryToMergeAt, hleaf, hmerged]
  cases hup : ext4ExtTryToMergeUp env.extendOk d
      (setLeaf d p ⟨merged.take c.before.length, merged.drop c.before.length⟩) with
  | some found =>
    obtain ⟨c', blk⟩ := found
    obtain ⟨hc, -, -, hroot⟩ := tryToMergeUp_spec hup
    rw [hc, leaf_setLeaf, cut_toList] at hroot
    exact .inl ⟨c', blk, rfl, tryToMergeUp_depth hup, hroot⟩
  | none => exact .inr rfl

variable {front back : Extent} {flags : SplitFlags} {r : Inserted} {e : Errno}

/-- When the journal refuses the extent after a zeroing, the old mapping comes
back only if the extent was not merged with a neighbour. -/
theorem zerooutInstead_undone_iff (hbs : 1024 ≤ env.blocksize) (hz : env.zeroout = none)
    (hdz : env.dirtyZeroed = some e) (hq : r.path.tree.Ok env.blocksize)
    (hcrowded : Crowded env.blocksize r.path) (hext : r.path.tree.extents = A ++ front :: B)
    (hleaf : leaf r.path.depth r.path.path = ⟨before, front :: rest⟩)
    (hblock : front.eeBlock = ex.eeBlock) (hstart : front.eeStart = ex.eeStart) (hex : ex.Ok)
    (hu : ext4ExtIsUnwritten ex = true) (hes : ExtentsOk (A ++ ex :: B)) :
    (zerooutInstead env flags ex front back r).path.tree.mapping = mapping (A ++ ex :: B)
      ↔ Alone env.ioUnwritten before ex rest := by
  have hw : ({ front with eeLen := ext4ExtGetActualLen ex } : Extent) = ext4ExtMarkInitialized ex :=
    Extent.ext hblock rfl hstart
  obtain ⟨hwok, hwend, hwu⟩ := initialized_spec (y := ext4ExtMarkInitialized ex) hex rfl rfl
  have hafter : (leaf r.path.depth r.path.path).after = front :: rest := by rw [hleaf]
  obtain ⟨-, hmap⟩ := remark_spec env.toInsertEnv hq hext hafter hes hwok hblock rfl hwend rfl
  -- what is in front of the leaf and behind it
  have hsorted : (A ++ front :: B).Pairwise fun y z => y.eeBlock < z.eeBlock := by
    rw [← hext]
    exact hq.sorted
  have hflat : A ++ front :: B = (left r.path.depth r.path.path ++ before)
      ++ front :: (rest ++ right r.path.depth r.path.path) := by
    have h := flat_of_after hafter
    rw [hleaf] at h
    exact hext.symm.trans h
  obtain ⟨hA, hB⟩ := append_cons_unique hsorted hflat
  rw [zerooutInstead, hz]
  dsimp only
  rw [hdz, hw]
  rw [hwu] at hmap
  have hlist : leaf r.path.depth (setExt r.path.depth r.path.path (ext4ExtMarkInitialized ex))
      = ⟨before, ext4ExtMarkInitialized ex :: rest⟩ := by
    rw [leaf_setExt, hleaf]
    rfl
  generalize hmerged : ext4ExtTryToMerge env.ioUnwritten
    (before ++ ext4ExtMarkInitialized ex :: rest) before.length = merged
  have halone : Alone env.ioUnwritten before ex rest →
      merged = before ++ ext4ExtMarkInitialized ex :: rest := by
    intro h
    rw [← hmerged, tryToMerge_of_not_can h.1, mergeRight_of_not_can h.2]
  rcases tryToMergeAt_cases env.toInsertEnv hlist hmerged with ⟨c, blk, heq, hdepth, hlen⟩ | heq
  · -- the leaf is in the inode now, with the extent written
    rw [heq] at hmap ⊢
    rw [if_neg (List.cons_ne_nil blk []), hmap]
    refine iff_of_false (fun hsame => ?_) fun h => ?_
    · have hlt := eeBlock_lt_eeEnd hex
      have hval := congrFun hsame ex.eeBlock
      rw [setState_of_mem ⟨Nat.le_refl _, hlt⟩, mapping_at_start hes, hu] at hval
      cases hval
    · have hfull := hcrowded hdepth
      have hcap := spaceBlock_ge hbs
      rw [halone h, spaceRoot_eq, List.length_append, List.length_cons] at hlen
      rw [hleaf, Cut.toList, List.length_append, List.length_cons] at hfull
      dsimp only at hfull
      omega
  · rw [heq, if_pos rfl, ExtTree.mapping, fixExtentLen_extents]
    rw [left_setLeaf, right_setLeaf, leaf_setLeaf, setExt, left_setLeaf, right_setLeaf]
    generalize left r.path.depth r.path.path = L at hA
    generalize right r.path.depth r.path.path = R at hB
    subst hA hB
    refine ⟨fun hsame => ?_, fun h => ?_⟩
    · refine Classical.not_not.mp fun hnot => ?_
      by_cases hleft : ∀ x, before.getLast? = some x →
          ext4CanExtentsBeMerged env.ioUnwritten x (ext4ExtMarkInitialized ex) = false
      · -- merged with the extent behind, which is lost
        cases rest with
        | nil => exact hnot ⟨hleft, fun y hy => by cases hy⟩
        | cons y rest =>
          have hcan : ext4CanExtentsBeMerged env.ioUnwritten (ext4ExtMarkInitialized ex) y
              = true := by
            refine Bool.eq_true_of_not_eq_false fun h => hnot ⟨hleft, fun y' hy' => ?_⟩
            rwa [← Option.some.inj hy']
          have hm := mergeable_of_can hcan
          have hoks : ∀ e ∈ y :: rest, e.Ok := fun e he => hes.ok e (by
            simp only [List.mem_append, List.mem_cons] at he ⊢
            tauto)
          obtain ⟨z, n, h1, h2, h3, -⟩ := @mergeRight_head env.ioUnwritten _ _
            (append_ok hm hwok (hoks y List.mem_cons_self))
            fun e he => hoks e (List.mem_cons_of_mem y he)
          rw [tryToMerge_of_not_can hleft, ext4ExtTryToMergeRight, if_pos hcan, h1] at hmerged
          rw [← hmerged, List.take_left, List.drop_left] at hsame
          have hz' : ({ z with eeLen := ex.eeLen } : Extent) = ex :=
            Extent.ext (h2.trans (append_eeBlock _ _)) rfl (h3.trans (withLen_eeStart _ _ _))
          dsimp only [List.head?_cons, Option.map_some, Option.toList_some, List.tail_cons] at hsame
          rw [hz', List.append_assoc, List.append_assoc, List.singleton_append] at hsame
          refine mapping_ne_of_lost hes (fun e he => ?_) hsame
          rcases List.mem_append.mp he with he | he
          · exact List.mem_append_left _ (List.mem_of_mem_drop he)
          · exact List.mem_append_right _ he
      · -- merged with the extent in front, which is written
        simp only [not_forall, Bool.not_eq_false] at hleft
        obtain ⟨y, hy, hcan⟩ := hleft
        obtain ⟨b, rfl⟩ := List.getLast?_eq_some_iff.mp hy
        have hm := mergeable_of_can hcan
        have hyok : y.Ok := hes.ok y (by simp)
        obtain ⟨z, n, h1, h2, -, h4, h5⟩ := @mergeRight_head env.ioUnwritten _ rest
          (append_ok hm hyok hwok) fun e he => hes.ok e (by simp [he])
        rw [List.append_assoc, List.singleton_append, List.length_append, List.length_singleton,
          tryToMerge_of_can hcan, h1] at hmerged
        have htake : merged.take (b ++ [y]).length = b ++ [z] := by
          have hlen : (b ++ [y]).length = (b ++ [z]).length := by
            rw [List.length_append, List.length_append]
            rfl
          rw [hlen, ← hmerged, List.append_cons b z (rest.drop n), List.take_left]
        rw [htake] at hsame
        rw [append_eeEnd hm hyok, hwend] at h5
        have hlt := eeBlock_lt_eeEnd hex
        have hsep := (List.pairwise_append.mp hes.separated).2.2
        have hin : ∀ X Y, L ++ (b ++ [z]) ++ X ++ Y ++ R = (L ++ b) ++ z :: (X ++ Y ++ R) := by
          intro X Y
          simp
        rw [hin] at hsame
        refine mapping_ne_of_covered hes hu (fun e he => ?_) ⟨?_, by omega⟩ ?_ hsame
        · refine hsep e ?_ ex List.mem_cons_self
          rw [← List.append_assoc]
          exact List.mem_append_left _ he
        · rw [h2, append_eeBlock]
          have h := hsep y (by simp) ex List.mem_cons_self
          have hylt := eeBlock_lt_eeEnd hyok
          exact Nat.le_trans (Nat.le_of_lt hylt) h
        · rw [h4, append_unwritten hm hyok, hm.same, hwu]
    · rw [halone h, List.take_left, List.drop_left]
      simp [ext4ExtMarkInitialized]

end Undo

/-! ## Errors -/

/-- What a split must not meet for its errors to be undone: an error of the
journal once the extent got another state, an error of `ext4_zeroout_es` once
the zeroes are written, and an error of the journal once the zeroed extent was
merged. -/
structure SplitEnv.Undoes (env : SplitEnv) (flags : SplitFlags) (preIo : Bool) (p : ExtPath)
    (ex : Extent) (split : Nat) : Prop where
  marked : split = ex.eeBlock → env.access = none → env.dirty ≠ none →
    ext4ExtIsUnwritten ex = flags.markUnwrit2
  recorded : env.Short flags preIo p ex split → env.dirtyZeroed = none →
    (ext4ZerooutEs env.es (flags.zeroEx ex (ex.front split flags.markUnwrit1)
      (ex.back split flags.markUnwrit2))).1 = none
  alone : env.Short flags preIo p ex split → env.dirtyZeroed ≠ none →
    Alone env.ioUnwritten (leaf p.depth p.path).before ex (leaf p.depth p.path).after.tail

section Errors

variable {env : SplitEnv} {flags : SplitFlags} {preIo : Bool} {t : ExtTree} {b split : Nat}
  {p : ExtPath} {ex : Extent}

theorem splitExtentAt_short {rest : List Extent} (hs : env.Short flags preIo p ex split)
    (hafter : (leaf p.depth p.path).after = ex :: rest) :
    ext4SplitExtentAt env flags preIo split p
      = zerooutInstead env flags ex (ex.front split flags.markUnwrit1)
        (ex.back split flags.markUnwrit2)
        (ext4ExtInsertExtent env.toInsertEnv preIo (ex.back split flags.markUnwrit2)
          ⟨p.depth, setExt p.depth p.path (ex.front split flags.markUnwrit1)⟩) := by
  have hin := hs.inside
  rw [ext4SplitExtentAt, hafter]
  dsimp only
  rw [hs.valid, if_neg (by simp; omega), hs.unwritten, if_neg (by simp), hs.access]
  rw [if_neg (by omega), hs.dirty]
  rw [hs.full]
  dsimp only
  rw [if_pos ⟨rfl, hs.may⟩]

end Errors

/-! ## Concrete splits -/

/-- Two unwritten extents side by side, in a root without a free slot. -/
def pairRoot : ExtTree :=
  ⟨0, [⟨0, 5 + 2 ^ 15, 95⟩, ⟨5, 10 + 2 ^ 15, 100⟩, ⟨20, 1, 200⟩, ⟨30, 1, 300⟩]⟩

theorem pairRoot_ok : pairRoot.Ok 1024 :=
  .of_root (by decide) (by decide) (by decide)

/-- The path to the second of them. -/
def pairPath : ExtPath := ⟨0, ⟨pairRoot.extents.take 1, pairRoot.extents.drop 1⟩⟩

/-- An extent status tree with nothing in it. -/
def noStatus : StatusEnv := ⟨.spine _, [], 0, ⟨fun _ => ⟨⟨[], none⟩, 0, 0, 0, false⟩, [], 0, 0, []⟩⟩

/-- One entry for both extents, `EXTENT_STATUS_UNWRITTEN` and
`EXTENT_STATUS_DELAYED`, and no memory for another one. -/
def delayedStatus : StatusEnv :=
  match ext4EsInsertExtent noStatus.rb [] noStatus.sb 0 0#32 15#32 95#64 6#32 with
  | some (_, sb) => { noStatus with sb := sb, allocs := [false] }
  | none => noStatus

/-- No block for a new leaf, with the given result of `ext4_issue_zeroout` and
the given extent status tree. -/
def noSpace (zeroout : Option Errno) (es : StatusEnv) : SplitEnv :=
  ⟨⟨1024, true, true, [], none⟩, none, none, zeroout, none, es⟩

/-- The flags of a write into the second half of an unwritten extent. -/
def writeBack : SplitFlags := ⟨true, true, false, false, true⟩

theorem eio_ne_enospc : Errno.eio ≠ .enospc := by decide

/-- The last call of an insertion into the journal fails. -/
def lastDirty : SplitEnv :=
  ⟨⟨1024, false, true, [], some (.dirty, ⟨.eio, eio_ne_enospc⟩)⟩, none, none, none, none, noStatus⟩

/-- A root with room, opened at its only extent. -/
def soloPath : ExtPath := ⟨0, ⟨[], [⟨0, 10 + 2 ^ 15, 100⟩]⟩⟩

end Ext4.Extents
