import Ext4.Extents.Insert

/-!
# Extent trees — merging keeps the mapping

Everything the merging functions do to a sequence of extents is a series of
steps that each replace two neighbours by one extent. The relation `Merges`
says so; what a step keeps, the series keeps.
-/

namespace Ext4.Extents

open IndexTree
open Ext4.ExtentsStatus (extMaxBlocks)

/-- What `ext4_can_extents_be_merged` has checked. -/
structure Mergeable (x y : Extent) : Prop where
  same : ext4ExtIsUnwritten x = ext4ExtIsUnwritten y
  logical : x.eeEnd = y.eeBlock
  len_le : ext4ExtGetActualLen x + ext4ExtGetActualLen y ≤ maxLen (ext4ExtIsUnwritten x)
  physical : x.eeStart + ext4ExtGetActualLen x = y.eeStart

theorem mergeable_of_can {io : Bool} {x y : Extent} (h : ext4CanExtentsBeMerged io x y = true) :
    Mergeable x y := by
  rw [ext4CanExtentsBeMerged] at h
  simp only [Bool.and_eq_true, decide_eq_true_eq, Bool.not_eq_true', Bool.and_eq_false_iff,
    Bool.or_eq_false_iff, decide_eq_false_iff_not, Nat.not_lt] at h
  obtain ⟨⟨⟨⟨h1, h2⟩, h3⟩, h4⟩, h5⟩ := h
  refine ⟨h1, h2, ?_, h5⟩
  rw [maxLen]
  split
  · rename_i hu
    rcases h4 with h4 | h4
    · exact absurd (hu.symm.trans h4) (by decide)
    · exact h4.2
  · exact h3

section Append

variable {x y : Extent}

theorem len_add_pos (hx : x.Ok) : 0 < ext4ExtGetActualLen x + ext4ExtGetActualLen y :=
  Nat.add_pos_left hx.len_pos _

@[simp] theorem append_eeBlock (x y : Extent) : (x.append y).eeBlock = x.eeBlock :=
  withLen_eeBlock _ _ _

section

variable (h : Mergeable x y)

include h

theorem append_eeEnd (hx : x.Ok) : (x.append y).eeEnd = y.eeEnd := by
  have h1 := h.logical
  rw [Extent.append, withLen_eeEnd (len_add_pos hx) h.len_le, ← Nat.add_assoc]
  rw [Extent.eeEnd] at h1 ⊢
  rw [h1]

theorem append_unwritten (hx : x.Ok) : ext4ExtIsUnwritten (x.append y) = ext4ExtIsUnwritten x :=
  withLen_unwritten (len_add_pos hx) h.len_le

theorem append_ok (hx : x.Ok) (hy : y.Ok) : (x.append y).Ok := by
  refine withLen_ok (len_add_pos hx) h.len_le ?_
  have h1 := hy.end_le
  rw [Extent.eeEnd, ← h.logical, Extent.eeEnd] at h1
  omega

theorem prepend_eq_append : x.prepend y = x.append y := by
  obtain ⟨b, l, s⟩ := x
  rw [Extent.prepend, Extent.append, ← h.same, Nat.add_comm]
  generalize ext4ExtIsUnwritten ⟨b, l, s⟩ = u
  cases u <;> rfl

theorem covers_append (hx : x.Ok) (hy : y.Ok) (b : Nat) :
    blockView.Covers (x.append y) b ↔ blockView.Covers x b ∨ blockView.Covers y b := by
  have hend := append_eeEnd h hx
  have h1 := h.logical
  have h2 := eeBlock_lt_eeEnd hx
  have h3 := eeBlock_lt_eeEnd hy
  simp only [Segments.View.Covers, blockView, append_eeBlock, hend]
  omega

theorem val_append (hx : x.Ok) (b : Nat) : blockView.val (x.append y) b = blockView.val x b := by
  show ((x.append y).eeStart + (b - (x.append y).eeBlock), _) = (x.eeStart + (b - x.eeBlock), _)
  rw [append_unwritten h hx, append_eeBlock, Extent.append, withLen_eeStart]

theorem val_append_right (hx : x.Ok) {b : Nat} (hb : y.eeBlock ≤ b) :
    blockView.val (x.append y) b = blockView.val y b := by
  rw [val_append h hx]
  have h1 := h.logical
  have h2 := h.physical
  rw [Extent.eeEnd] at h1
  show (x.eeStart + (b - x.eeBlock), ext4ExtIsUnwritten x)
    = (y.eeStart + (b - y.eeBlock), ext4ExtIsUnwritten y)
  rw [h.same]
  congr 1
  omega

end

end Append

/-- Steps that each replace two neighbours by one extent. -/
inductive Merges : List Extent → List Extent → Prop where
  | refl (es : List Extent) : Merges es es
  | step {l r es : List Extent} {x y : Extent} (h : Mergeable x y)
      (rest : Merges (l ++ x.append y :: r) es) : Merges (l ++ x :: y :: r) es

namespace Merges

variable {es es' es'' : List Extent}

theorem trans (h : Merges es es') (h' : Merges es' es'') : Merges es es'' := by
  induction h with
  | refl => exact h'
  | step h _ ih => exact .step h (ih h')

theorem inside (l r : List Extent) (h : Merges es es') : Merges (l ++ es ++ r) (l ++ es' ++ r) := by
  induction h with
  | refl => exact .refl _
  | @step l' r' _ x y h _ ih =>
    have hstep : Merges ((l ++ l') ++ x :: y :: (r' ++ r)) (l ++ _ ++ r) :=
      .step h (by simpa using ih)
    simpa using hstep

section

variable (h : Merges es es')

include h

theorem ok (hok : ∀ ex ∈ es, ex.Ok) : ∀ ex ∈ es', ex.Ok := by
  induction h with
  | refl => exact hok
  | @step l r _ x y h _ ih =>
    refine ih ?_
    simp only [List.forall_mem_append, List.forall_mem_cons] at hok ⊢
    exact ⟨hok.1, append_ok h hok.2.1 hok.2.2.1, hok.2.2.2⟩

theorem separated (hok : ∀ ex ∈ es, ex.Ok) (hs : blockView.Separated es) :
    blockView.Separated es' := by
  induction h with
  | refl => exact hs
  | @step l r _ x y h rest ih =>
    have hx := hok x (by simp)
    have hok' : ∀ ex ∈ l ++ x.append y :: r, ex.Ok :=
      (Merges.step h (.refl (l ++ x.append y :: r))).ok hok
    refine ih hok' ?_
    simp only [Segments.View.Separated, List.pairwise_append, List.pairwise_cons,
      List.mem_cons] at hs ⊢
    obtain ⟨h1, ⟨h2, h3, h4⟩, h5⟩ := hs
    refine ⟨h1, ⟨fun z hz => ?_, h4⟩, fun z hz w hw => ?_⟩
    · show (x.append y).eeEnd ≤ _
      rw [append_eeEnd h hx]
      exact h3 z hz
    · rcases hw with rfl | hw
      · show z.eeEnd ≤ (x.append y).eeBlock
        rw [append_eeBlock]
        exact h5 z hz x (.inl rfl)
      · exact h5 z hz w (.inr (.inr hw))

theorem mapping_eq (hok : ∀ ex ∈ es, ex.Ok) : mapping es' = mapping es := by
  induction h with
  | refl => rfl
  | @step l r _ x y h rest ih =>
    have hx := hok x (by simp)
    have hy := hok y (by simp)
    rw [ih ((Merges.step h (.refl (l ++ x.append y :: r))).ok hok)]
    funext b
    rw [mapping, mapping, blockView.get_append, blockView.get_append, blockView.get_cons,
      blockView.get_cons, blockView.get_cons]
    congr 1
    by_cases hcx : blockView.Covers x b
    · rw [if_pos ((covers_append h hx hy b).mpr (.inl hcx)), if_pos hcx, val_append h hx]
    · rw [if_neg hcx]
      by_cases hcy : blockView.Covers y b
      · rw [if_pos ((covers_append h hx hy b).mpr (.inr hcy)), if_pos hcy,
          val_append_right h hx hcy.1]
      · rw [if_neg hcy, if_neg fun hc => ((covers_append h hx hy b).mp hc).elim hcx hcy]

theorem first : es'.head?.map Extent.eeBlock = es.head?.map Extent.eeBlock := by
  induction h with
  | refl => rfl
  | @step l r _ x y h _ ih =>
    rw [ih]
    cases l with
    | nil => exact congrArg some (append_eeBlock x y)
    | cons z l => rfl

theorem length_le : es'.length ≤ es.length := by
  induction h with
  | refl => exact Nat.le_refl _
  | step h _ ih =>
    refine Nat.le_trans ih ?_
    simp

theorem ne_nil (hne : es ≠ []) : es' ≠ [] := by
  induction h with
  | refl => exact hne
  | step h _ ih => exact ih (by simp)

end

end Merges

/-! ## The merging functions -/

theorem merges_tryToMergeRight (io : Bool) (ex : Extent) (rest : List Extent) :
    Merges (ex :: rest) (ext4ExtTryToMergeRight io ex rest).1 := by
  induction rest generalizing ex with
  | nil => exact .refl _
  | cons ex2 rest ih =>
    rw [ext4ExtTryToMergeRight]
    split
    · rename_i hcan
      exact Merges.step (l := []) (mergeable_of_can hcan) (ih (ex.append ex2))
    · exact .refl _

theorem merges_mergeRightAt (io : Bool) (es : List Extent) (i : Nat) :
    Merges es (mergeRightAt io es i).1 := by
  rw [mergeRightAt]
  split
  · exact .refl _
  · rename_i ex rest hdrop
    have h := (merges_tryToMergeRight io ex rest).inside (es.take i) []
    rw [← hdrop] at h
    simpa using h

theorem merges_tryToMerge (io : Bool) (es : List Extent) (n : Nat) :
    Merges es (ext4ExtTryToMerge io es n) := by
  cases n with
  | zero => exact merges_mergeRightAt io es 0
  | succ n =>
    rw [ext4ExtTryToMerge]
    split <;> exact merges_mergeRightAt ..

end Ext4.Extents
