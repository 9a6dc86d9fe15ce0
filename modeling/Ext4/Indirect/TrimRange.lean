import Ext4.Indirect.Trim

/-!
# Removing a range from an indirect map — both ends in one tree

The two chains part at some step `d`. If both are shared beyond it, they are
walked up until they are in the block where they part. Otherwise the end of
the range is below the branch of its start, and there is nothing in front of
the start there.
-/

namespace Ext4.Indirect

open Radix

variable {sb : IndSb} {slot h d : Nat} {t : Tree} {offsets offsets2 : Path} {sh sh2 : Shared}

/-! ## One round of the loop -/

variable {fuel a b : Nat}

theorem converge_meet (heq : blocknr t offsets (a + 1) = blocknr t offsets2 (b + 1))
    (st : IndState) :
    converge sb slot h t offsets offsets2 sh sh2 (fuel + 1) (a + 1) (b + 1) st
      = freeAt sb slot h offsets a (sh.ptr offsets (a + 1) + 1) (sh2.ptr offsets2 (b + 1)) st := by
  rw [converge, if_neg (by omega), if_pos ⟨Nat.succ_pos a, Nat.succ_pos b, heq⟩,
    Nat.add_sub_cancel]

theorem converge_left (hab : b < a + 1) (ha : a + 1 ≤ h)
    (hne : ¬ (0 < b ∧ blocknr t offsets (a + 1) = blocknr t offsets2 b)) (st : IndState) :
    converge sb slot h t offsets offsets2 sh sh2 (fuel + 1) (a + 1) b st
      = converge sb slot h t offsets offsets2 sh sh2 fuel a b
          (freeAt sb slot h offsets a (sh.ptr offsets (a + 1) + 1) sb.addrPerBlock st) := by
  have hl : 0 < a + 1 ∧ h - (a + 1) ≤ h - b := by omega
  have hr : ¬ (0 < b ∧ h - b ≤ h - (a + 1)) := by omega
  rw [converge, if_neg (by omega), if_neg fun hc => hne hc.2]
  simp only [if_pos hl, if_neg hr, Nat.add_sub_cancel]

theorem converge_right (hab : a < b + 1) (hb : b + 1 ≤ h)
    (hne : ¬ (0 < a ∧ blocknr t offsets a = blocknr t offsets2 (b + 1))) (st : IndState) :
    converge sb slot h t offsets offsets2 sh sh2 (fuel + 1) a (b + 1) st
      = converge sb slot h t offsets offsets2 sh sh2 fuel a b
          (freeAt sb slot h offsets2 b 0 (sh2.ptr offsets2 (b + 1)) st) := by
  have hl : ¬ (0 < a ∧ h - a ≤ h - (b + 1)) := by omega
  have hr : 0 < b + 1 ∧ h - (b + 1) ≤ h - a := by omega
  rw [converge, if_neg (by omega), if_neg fun hc => hne ⟨hc.1, hc.2.2⟩]
  simp only [if_neg hl, if_pos hr, Nat.add_sub_cancel]

theorem converge_both {fuel a : Nat} (hne : blocknr t offsets (a + 1) ≠ blocknr t offsets2 (a + 1))
    (st : IndState) :
    converge sb slot h t offsets offsets2 sh sh2 (fuel + 1) (a + 1) (a + 1) st
      = converge sb slot h t offsets offsets2 sh sh2 fuel a a
          (freeAt sb slot h offsets2 a 0 (sh2.ptr offsets2 (a + 1))
            (freeAt sb slot h offsets a (sh.ptr offsets (a + 1) + 1) sb.addrPerBlock st)) := by
  have hl : 0 < a + 1 ∧ h - (a + 1) ≤ h - (a + 1) := ⟨Nat.succ_pos a, Nat.le_refl _⟩
  rw [converge, if_neg (by omega), if_neg fun hc => hne hc.2.2]
  simp only [if_pos hl, Nat.add_sub_cancel]

/-! ## Where the chains meet -/

/-- The blocks of two chains are one block only if it is at one place. -/
theorem agree_of_blocknr_eq (hnd : (Tree.blocks sb.addrPerBlock h t).Nodup)
    (hds : Proper sb h (rest offsets)) (hds2 : Proper sb h (rest offsets2)) {a b : Nat}
    (ha : a < h) (hb : b < h) (hw : t.walk (rest offsets) a ≠ .hole)
    (heq : blocknr t offsets (a + 1) = blocknr t offsets2 (b + 1)) :
    a = b ∧ Agree a (rest offsets) (rest offsets2) := by
  rw [blocknr, blocknr] at heq
  cases hx : t.walk (rest offsets) a with
  | hole => exact absurd hx hw
  | node nr kids =>
    cases hy : t.walk (rest offsets2) b with
    | hole =>
      rw [hx, hy] at heq
      cases heq
    | node nr' kids' =>
      rw [hx, hy] at heq
      cases heq
      exact Tree.walk_inj hnd hx hy ha hb (fun m hm => hds m (Nat.lt_trans hm ha))
        fun m hm => hds2 m (Nat.lt_trans hm hb)

theorem blocknr_eq_of_agree {a : Nat} (hag : Agree a (rest offsets) (rest offsets2)) :
    blocknr t offsets (a + 1) = blocknr t offsets2 (a + 1) := by
  rw [blocknr, blocknr, Tree.walk_congr hag]

/-- The two chains above the place where they part. -/
structure Parting (h d : Nat) (offsets offsets2 : Path) : Prop where
  lt : d < h
  agree : Agree d (rest offsets) (rest offsets2)
  step : offsets (d + 1) < offsets2 (d + 1)

section Parting

variable (hpt : Parting h d offsets offsets2) {xs : Path} {j : Nat} (hj : d < j)

include hpt hj

theorem Parting.not_agree : ¬ Agree j (rest offsets) (rest offsets2) := fun hag =>
  Nat.ne_of_lt hpt.step (hag d hj)

theorem Parting.before (hag : Agree j xs (rest offsets)) : Before h xs (rest offsets2) := by
  refine ⟨d, hpt.lt, (hag.mono (Nat.le_of_lt hj)).trans hpt.agree, ?_⟩
  rw [hag d hj]
  exact hpt.step

theorem Parting.not_before (hag : Agree j xs (rest offsets2)) : ¬ Before h xs (rest offsets) := by
  refine Before.asymm ⟨d, hpt.lt, hpt.agree.trans (hag.mono (Nat.le_of_lt hj)).symm, ?_⟩
  rw [hag d hj]
  exact hpt.step

end Parting

section Loop

variable (hnd : (Tree.blocks sb.addrPerBlock h t).Nodup) (hds : Proper sb h (rest offsets))
  (hds2 : Proper sb h (rest offsets2)) (hpt : Parting h d offsets offsets2)
  (hptr : ∀ j < h, sh2.ptr offsets2 (j + 1) ≤ sb.addrPerBlock)

include hnd hds hds2 hpt hptr

theorem clears_converge (hfuel : a + b ≤ fuel) (hda : d < a) (hdb : d < b) (hah : a ≤ h)
    (hbh : b ≤ h) (hw : ∀ m < a, t.walk (rest offsets) m ≠ .hole) (st : IndState) :
    Clears sb slot h (fun xs =>
        (∃ j < a, d < j ∧ Agree j xs (rest offsets) ∧ sh.ptr offsets (j + 1) < xs j)
        ∨ (∃ j < b, d < j ∧ Agree j xs (rest offsets2) ∧ xs j < sh2.ptr offsets2 (j + 1))
        ∨ Agree d xs (rest offsets) ∧ sh.ptr offsets (d + 1) < xs d
          ∧ xs d < sh2.ptr offsets2 (d + 1)) st
      (converge sb slot h t offsets offsets2 sh sh2 fuel a b st) := by
  induction fuel generalizing a b st with
  | zero => omega
  | succ fuel ih =>
    obtain ⟨a, rfl⟩ : ∃ a', a = a' + 1 := ⟨a - 1, by omega⟩
    obtain ⟨b, rfl⟩ : ∃ b', b = b' + 1 := ⟨b - 1, by omega⟩
    have hwa := hw a (Nat.lt_succ_self a)
    by_cases heq : blocknr t offsets (a + 1) = blocknr t offsets2 (b + 1)
    · obtain ⟨rfl, hag⟩ := agree_of_blocknr_eq hnd hds hds2 hah hbh hwa heq
      have hd : d = a := by
        by_contra hne
        exact hpt.not_agree (by omega) hag
      rw [converge_meet heq, hd]
      refine (clears_freeAt hah hds (hptr a hbh) st).congr ?_ ?_
      · exact fun xs _ hc => .inl (.inr (.inr hc))
      · rintro xs - (⟨j, hj, hdj, -⟩ | ⟨j, hj, hdj, -⟩ | hc)
        · omega
        · omega
        · exact .inl hc
    · have hwa' : ∀ m < a, t.walk (rest offsets) m ≠ .hole := fun m hm =>
        hw m (Nat.lt_succ_of_lt hm)
      rcases Nat.lt_trichotomy a b with hlt | rfl | hlt
      · rw [converge_right (by omega) hbh fun hc => heq hc.2]
        refine ((clears_freeAt hbh hds2 (hptr b hbh) st).trans
          (ih (by omega) hda (by omega) hah (Nat.le_of_succ_le hbh) hw _)).congr ?_ ?_
        · rintro xs - (⟨hag, -, hx⟩ | hc | ⟨j, hj, hdj, hag, hx⟩ | hc)
          · exact .inl (.inr (.inl ⟨b, Nat.lt_succ_self b, by omega, hag, hx⟩))
          · exact .inl (.inl hc)
          · exact .inl (.inr (.inl ⟨j, Nat.lt_succ_of_lt hj, hdj, hag, hx⟩))
          · exact .inl (.inr (.inr hc))
        · rintro xs - (hc | ⟨j, hj, hdj, hag, hx⟩ | hc)
          · exact .inl (.inr (.inl hc))
          · rcases Nat.lt_succ_iff_lt_or_eq.mp hj with hjb | rfl
            · exact .inl (.inr (.inr (.inl ⟨j, hjb, hdj, hag, hx⟩)))
            · exact .inl (.inl ⟨hag, Nat.zero_le _, hx⟩)
          · exact .inl (.inr (.inr (.inr hc)))
      · have hda' : d < a := by
          by_contra hge
          obtain rfl : d = a := by omega
          exact heq (blocknr_eq_of_agree hpt.agree)
        rw [converge_both heq]
        refine (((clears_freeAt hah hds (Nat.le_refl _) st).trans
          (clears_freeAt hbh hds2 (hptr a hbh) _)).trans
          (ih (by omega) hda' hda' (Nat.le_of_succ_le hah) (Nat.le_of_succ_le hah) hwa' _)).congr ?_
            ?_
        · rintro xs - ((⟨hag, hx, -⟩ | ⟨hag, -, hx⟩) | ⟨j, hj, hdj, hag, hx⟩ |
            ⟨j, hj, hdj, hag, hx⟩ | hc)
          · exact .inl (.inl ⟨a, Nat.lt_succ_self a, hda', hag, hx⟩)
          · exact .inl (.inr (.inl ⟨a, Nat.lt_succ_self a, hda', hag, hx⟩))
          · exact .inl (.inl ⟨j, Nat.lt_succ_of_lt hj, hdj, hag, hx⟩)
          · exact .inl (.inr (.inl ⟨j, Nat.lt_succ_of_lt hj, hdj, hag, hx⟩))
          · exact .inl (.inr (.inr hc))
        · rintro xs hxs (⟨j, hj, hdj, hag, hx⟩ | ⟨j, hj, hdj, hag, hx⟩ | hc)
          · rcases Nat.lt_succ_iff_lt_or_eq.mp hj with hja | rfl
            · exact .inl (.inr (.inl ⟨j, hja, hdj, hag, hx⟩))
            · exact .inl (.inl (.inl ⟨hag, hx, hxs j hah⟩))
          · rcases Nat.lt_succ_iff_lt_or_eq.mp hj with hja | rfl
            · exact .inl (.inr (.inr (.inl ⟨j, hja, hdj, hag, hx⟩)))
            · exact .inl (.inl (.inr ⟨hag, Nat.zero_le _, hx⟩))
          · exact .inl (.inr (.inr (.inr hc)))
      · rw [converge_left (by omega) hah fun hc => heq hc.2]
        refine ((clears_freeAt hah hds (Nat.le_refl _) st).trans
          (ih (by omega) (by omega) hdb (Nat.le_of_succ_le hah) hbh hwa' _)).congr ?_ ?_
        · rintro xs - (⟨hag, hx, -⟩ | ⟨j, hj, hdj, hag, hx⟩ | hc)
          · exact .inl (.inl ⟨a, Nat.lt_succ_self a, by omega, hag, hx⟩)
          · exact .inl (.inl ⟨j, Nat.lt_succ_of_lt hj, hdj, hag, hx⟩)
          · exact .inl (.inr hc)
        · rintro xs hxs (⟨j, hj, hdj, hag, hx⟩ | hc)
          · rcases Nat.lt_succ_iff_lt_or_eq.mp hj with hja | rfl
            · exact .inl (.inr (.inl ⟨j, hja, hdj, hag, hx⟩))
            · exact .inl (.inl ⟨hag, hx, hxs j hah⟩)
          · exact .inl (.inr (.inr hc))

theorem clears_converge_below (hfuel : a + b ≤ fuel) (had : a ≤ d) (hab : a ≤ b) (hbh : b ≤ h)
    (hw : ∀ m < a, t.walk (rest offsets) m ≠ .hole) (st : IndState) :
    Clears sb slot h (fun xs =>
        (∃ j < b, a ≤ j ∧ Agree j xs (rest offsets2) ∧ xs j < sh2.ptr offsets2 (j + 1))
        ∨ (∃ j, a = j + 1 ∧ Agree j xs (rest offsets) ∧ sh.ptr offsets a < xs j
          ∧ xs j < sh2.ptr offsets2 a)) st
      (converge sb slot h t offsets offsets2 sh sh2 fuel a b st) := by
  induction fuel generalizing b st with
  | zero =>
    obtain ⟨rfl, rfl⟩ : a = 0 ∧ b = 0 := by omega
    refine .of_hole ?_
    rintro xs - (⟨j, hj, -⟩ | ⟨j, hj, -⟩)
    · omega
    · omega
  | succ fuel ih =>
    rcases Nat.lt_or_ge a b with hlt | hge
    · obtain ⟨b, rfl⟩ : ∃ b', b = b' + 1 := ⟨b - 1, by omega⟩
      have hne : ¬ (0 < a ∧ blocknr t offsets a = blocknr t offsets2 (b + 1)) := by
        rintro ⟨ha, heq⟩
        obtain ⟨a, rfl⟩ : ∃ a', a = a' + 1 := ⟨a - 1, by omega⟩
        have := agree_of_blocknr_eq hnd hds hds2 (by omega) hbh (hw a (Nat.lt_succ_self a)) heq
        omega
      rw [converge_right hlt hbh hne]
      refine ((clears_freeAt hbh hds2 (hptr b hbh) st).trans
        (ih (by omega) (Nat.le_of_lt_succ hlt) (Nat.le_of_succ_le hbh) _)).congr ?_ ?_
      · rintro xs - (⟨hag, -, hx⟩ | ⟨j, hj, haj, hag, hx⟩ | hc)
        · exact .inl (.inl ⟨b, Nat.lt_succ_self b, Nat.le_of_lt_succ hlt, hag, hx⟩)
        · exact .inl (.inl ⟨j, Nat.lt_succ_of_lt hj, haj, hag, hx⟩)
        · exact .inl (.inr hc)
      · rintro xs - (⟨j, hj, haj, hag, hx⟩ | hc)
        · rcases Nat.lt_succ_iff_lt_or_eq.mp hj with hjb | rfl
          · exact .inl (.inr (.inl ⟨j, hjb, haj, hag, hx⟩))
          · exact .inl (.inl ⟨hag, Nat.zero_le _, hx⟩)
        · exact .inl (.inr (.inr hc))
    · obtain rfl := Nat.le_antisymm hab hge
      cases a with
      | zero =>
        rw [converge, if_pos ⟨rfl, rfl⟩]
        refine .of_hole ?_
        rintro xs - (⟨j, hj, -⟩ | ⟨j, hj, -⟩)
        · exact absurd hj (Nat.not_lt_zero j)
        · cases hj
      | succ a =>
        rw [converge_meet (blocknr_eq_of_agree (hpt.agree.mono (Nat.le_of_succ_le had)))]
        refine (clears_freeAt hbh hds (hptr a hbh) st).congr ?_ ?_
        · rintro xs - ⟨hag, hlo, hhi⟩
          exact .inl (.inr ⟨a, rfl, hag, hlo, hhi⟩)
        · rintro xs - (⟨j, hj, haj, -⟩ | ⟨j, hj, hc⟩)
          · omega
          · cases hj
            exact .inl hc

end Loop

/-! ## The range -/

theorem isSubtree_iff (h0 : offsets 0 = offsets2 0) (level : Nat) :
    isSubtree offsets offsets2 level = true ↔ Agree level (rest offsets) (rest offsets2) := by
  rw [isSubtree, List.all_eq_true]
  constructor
  · intro hall m hm
    exact of_decide_eq_true (hall (m + 1) (List.mem_range.mpr (Nat.succ_lt_succ hm)))
  · intro hag i hi
    refine decide_eq_true ?_
    cases i with
    | zero => exact h0
    | succ i => exact hag i (Nat.lt_of_succ_lt_succ (List.mem_range.mp hi))

section Range

variable (hs : IsShared t h offsets sh) (hs2 : IsShared t h offsets2 sh2)
  (hpt : Parting h d offsets offsets2)

include hs hs2 hpt

/-- The end does not stop above the place where the start goes on. -/
theorem level_le_of_parting (hl : sh.level ≤ d) : sh.level ≤ sh2.level := by
  by_contra hlt
  obtain ⟨j, hj⟩ : ∃ j, sh.level = j + 1 := ⟨sh.level - 1, by omega⟩
  obtain ⟨i, hi, hne⟩ := hs.needed j hj
  have hag : Agree j (rest offsets) (rest offsets2) := hpt.agree.mono (by omega)
  have hoff : offsets (j + 1) = offsets2 (j + 1) := hpt.agree j (by omega)
  rw [hj, hoff] at hi
  rw [Tree.walk_congr hag] at hne
  exact hne (hs2.zeroes j (by omega) (by have := hpt.lt; omega) i hi)

theorem lt_level_of_parting (hl : d < sh.level) : d < sh2.level := by
  by_contra hle
  have hzero := hs2.zeroes d (Nat.le_of_not_lt hle) hpt.lt
  rw [← Tree.walk_congr hpt.agree] at hzero
  obtain ⟨j, hj⟩ : ∃ j, sh.level = j + 1 := ⟨sh.level - 1, by omega⟩
  obtain ⟨i, hi, hne⟩ := hs.needed j hj
  rcases Nat.lt_or_ge d j with hdj | hjd
  · refine hs.chain (d + 1) (by omega) ?_
    rw [Tree.walk_succ]
    exact hzero _ hpt.step
  · obtain rfl : j = d := by omega
    rw [hj] at hi
    exact hne (hzero i (Nat.lt_trans hi hpt.step))

end Range

section Range

variable {st : IndState}

theorem clears_trimRange (hnd : (Tree.blocks sb.addrPerBlock h (st.iData slot)).Nodup)
    (hds : Proper sb h (rest offsets)) (hds2 : Proper sb h (rest offsets2))
    (h0 : offsets 0 = offsets2 0) (hb : Before h (rest offsets) (rest offsets2)) :
    Clears sb slot h
      (fun xs => ¬ Before h xs (rest offsets) ∧ Before h xs (rest offsets2)) st
      (trimRange sb slot h offsets offsets2 st) := by
  obtain ⟨d, hdh, hagd, hltd⟩ := hb
  have hpt : Parting h d offsets offsets2 := ⟨hdh, hagd, hltd⟩
  have hs := isShared_ext4FindShared (st.iData slot) h offsets
  have hs2 := isShared_ext4FindShared (st.iData slot) h offsets2
  rw [trimRange]
  generalize ext4FindShared (st.iData slot) h offsets = sh at hs ⊢
  generalize ext4FindShared (st.iData slot) h offsets2 = sh2 at hs2 ⊢
  rcases Nat.lt_or_ge d sh.level with hl | hl
  · have hl2 := lt_level_of_parting hs hs2 hpt hl
    rw [if_neg fun hc => hpt.not_agree (Nat.lt_min.mpr ⟨hl, hl2⟩) ((isSubtree_iff h0 _).mp hc)]
    refine ((clears_freeTop hds hs).trans
      (clears_converge hnd hds hds2 hpt (hs2.next_ptr_bound hds2)
      (Nat.le_refl _) hl hl2 hs.le hs2.le hs.chain _)).congr ?_ ?_
    · rintro xs - (⟨-, hag⟩ | ⟨j, hj, hdj, hag, hx⟩ | ⟨j, hj, hdj, hag, hx⟩ | ⟨hag, hlo, hhi⟩) <;>
        refine and_or_right.mpr ⟨?_, ?_⟩
      · exact hs.not_before_of_agree hag
      · exact .inl (hpt.before hl hag)
      · exact hs.not_before_of_ptr_lt hag hx (Nat.lt_of_lt_of_le hj hs.le)
      · exact .inl (hpt.before hdj hag)
      · exact .inl (hpt.not_before hdj hag)
      · exact hs2.before_of_lt_next_ptr hag hx (Nat.lt_of_lt_of_le hj hs2.le)
      · exact hs.not_before_of_ptr_lt hag hlo hdh
      · exact hs2.before_of_lt_next_ptr (hag.trans hagd) hhi hdh
    · rintro xs - ⟨hnb, hb2⟩
      rcases before_split hb2 with ⟨m, hm, hagm, hltm⟩ | hag2
      · have hnext := Nat.lt_of_lt_of_le hltm (hs2.le_next_ptr (m + 1))
        rcases Nat.lt_trichotomy m d with hmd | rfl | hdm
        · refine absurd ⟨m, Nat.lt_trans hmd hdh, hagm.trans (hagd.mono (Nat.le_of_lt hmd)).symm,
            ?_⟩ hnb
          rw [hagd m hmd]
          exact hltm
        · have hagm' := hagm.trans hagd.symm
          rcases not_before_split hs.le hnb with ⟨j, hj, hag, hgt⟩ | hag
          · have hptr := Nat.lt_of_le_of_lt (hs.ptr_le (j + 1)) hgt
            rcases Nat.lt_trichotomy j m with hjm | rfl | hmj
            · exact absurd (hagm' j hjm) (Nat.ne_of_gt hgt)
            · exact .inl (.inr (.inr (.inr ⟨hagm', hptr, hnext⟩)))
            · exact .inl (.inr (.inl ⟨j, hj, hmj, hag, hptr⟩))
          · rcases hs.of_agree hag with htop | ⟨j, hj, hagj, hptr⟩ | hw
            · exact .inl (.inl ⟨htop, hag⟩)
            · rcases Nat.lt_or_eq_of_le (show m ≤ j by omega) with hmj | rfl
              · exact .inl (.inr (.inl ⟨j, by omega, hmj, hagj, hptr⟩))
              · exact .inl (.inr (.inr (.inr ⟨hagj, hptr, hnext⟩)))
            · exact .inr hw
        · exact .inl (.inr (.inr (.inl ⟨m, hm, hdm, hagm, hnext⟩)))
      · exact .inr (hs2.walk_before hag2 hb2)
  · have hl2 := level_le_of_parting hs hs2 hpt hl
    have hagl : Agree sh.level (rest offsets) (rest offsets2) := hagd.mono hl
    rw [Nat.min_eq_left hl2, if_pos ((isSubtree_iff h0 _).mpr hagl)]
    refine (clears_converge_below hnd hds hds2 hpt (hs2.next_ptr_bound hds2)
      (Nat.le_refl _) hl hl2 hs2.le hs.chain _).congr ?_ ?_
    · rintro xs - (⟨j, hj, hqj, hag, hx⟩ | ⟨j, hj, hag, hlo, hhi⟩) <;>
        refine and_or_right.mpr ⟨?_, ?_⟩
      · exact hs.not_before_of_agree ((hag.mono hqj).trans hagl.symm)
      · exact hs2.before_of_lt_next_ptr hag hx (Nat.lt_of_lt_of_le hj hs2.le)
      · exact hs.not_before_of_ptr_lt hag (hj ▸ hlo) (by omega)
      · exact hs2.before_of_lt_next_ptr (hag.trans (hagl.mono (by omega))) (hj ▸ hhi) (by omega)
    · rintro xs - ⟨hnb, hb2⟩
      rcases before_split hb2 with ⟨m, hm, hagm, hltm⟩ | hag2
      · refine .inl (.inl ⟨m, hm, ?_, hagm, Nat.lt_of_lt_of_le hltm (hs2.le_next_ptr _)⟩)
        by_contra hml
        have hml := Nat.lt_of_not_le hml
        refine hnb ⟨m, by omega, hagm.trans (hagl.mono (Nat.le_of_lt hml)).symm, ?_⟩
        rw [hagl m hml]
        exact hltm
      · exact .inr (hs2.walk_before hag2 hb2)

end Range

end Ext4.Indirect
