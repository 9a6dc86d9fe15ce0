import Ext4.ExtentsStatus.Reclaim

/-!
# Extent status — removing a range

`__es_remove_extent` cuts the first entry it meets, frees the entries the
range covers and trims the last one. The one branch that can fail is the
cut through the middle of an entry, which needs a second node; it fails
before anything else has changed.
-/

namespace Ext4.ExtentsStatus

open SearchTree Ext4SbInfo

/-- What a removal of the blocks `lblk .. last` leaves behind. -/
structure Removed (sb sb' : Ext4SbInfo) (i lblk last : Nat) : Prop where
  inv : EsInv sb'
  others : ∀ j, j ≠ i → sb'.inodes j = sb.inodes j
  holds : ∀ b v, Holds (sb'.root i) b v ↔ Holds (sb.root i) b v ∧ ¬ (lblk ≤ b ∧ b ≤ last)

/-- What one pass of the removal may come to. -/
def RemoveRes.Spec (sb : Ext4SbInfo) (i lblk last : Nat) (allocOk : Bool) : RemoveRes → Prop
  | .done sb' used => Removed sb sb' i lblk last ∧ (used = true → allocOk = true)
  | .failed e sb' => e = .enomem ∧ allocOk = false ∧ sb' = sb.setCache i none

theorem EsInv.dropCache {sb : Ext4SbInfo} (h : EsInv sb) (i : Nat) : EsInv (sb.setCache i none) :=
  (Scanned.refl (i := i) h.toEsCore).shrunk h |>.inv

section Edits

variable {sb : Ext4SbInfo} {i : Nat} {b a : List ExtentStatus} {x z : ExtentStatus}

theorem EsInv.put (h : EsInv sb) (hroot : sb.root i = b ++ x :: a)
    (htree : TreeOk (b ++ z :: a)) (haddr : z.addr = x.addr)
    (htype : ext4EsType z = ext4EsType x) : EsInv (sb.setRoot i (b ++ z :: a)) := by
  refine h.edit (i := i) (fun j hj => inodes_setRoot_ne hj _) (h.acct.replace hroot htype) ?_ ?_
    (Nat.le_refl _) ?_
  · rw [root_setRoot, if_pos rfl]
    exact htree
  · intro e he
    simp only [root_setRoot, if_true, List.mem_append, List.mem_cons] at he
    rcases or_left_comm.mp he with rfl | he
    · rw [haddr]
      exact h.fresh i x (by rw [hroot]; simp)
    · exact h.fresh i e (by rw [hroot]; simp [or_left_comm, he])
  · intro y hy
    rw [cacheOf_setRoot] at hy
    obtain ⟨e, he, hy'⟩ := h.cache i y hy
    rw [hroot] at he
    simp only [List.mem_append, List.mem_cons] at he
    rw [root_setRoot, if_pos rfl]
    rcases or_left_comm.mp he with rfl | he
    · exact ⟨z, by simp, haddr.trans hy'⟩
    · exact ⟨e, by simp [or_left_comm, he], hy'⟩

/-- One entry unlinked and released, while `cache_es` is NULL. -/
theorem EsInv.drop (h : EsInv sb) (hc : sb.cacheOf i = none) (hroot : sb.root i = b ++ x :: a) :
    EsInv (ext4EsFreeExtent (sb.setRoot i (b ++ a)) i x) := by
  have htree : TreeOk (b ++ x :: a) := hroot ▸ h.tree i
  refine h.edit (i := i) (fun j hj => by simp [hj]) (h.acct.free ?_ ?_) ?_ ?_ (by simp) ?_
  · rw [hroot]
    simp
    omega
  · rw [hroot, shkCount_append, shkCount_append, shkCount_cons]
    omega
  · rw [root_free, root_setRoot, if_pos rfl]
    exact htree.drop_cur
  · intro e he
    simp only [root_free, root_setRoot, if_true, List.mem_append] at he
    rw [nextAddr_free, nextAddr_setRoot]
    refine h.fresh i e ?_
    rw [hroot]
    rcases he with he | he <;> simp [he]
  · intro y hy
    rw [cacheOf_free, cacheOf_setRoot, hc] at hy
    cases hy

end Edits

/-- The loop that frees whole entries, by induction on what it has ahead. -/
theorem freeThrough_spec {i : Nat} (last : Nat) {before l : List ExtentStatus} {sb : Ext4SbInfo}
    (h : EsInv sb) (hc : sb.cacheOf i = none) (hroot : sb.root i = before ++ l) :
    ∃ d l' sb', freeThrough i last before l sb = (l', sb') ∧ l = d ++ l' ∧
      (∀ e ∈ d, ext4EsEnd e ≤ last) ∧ (∀ e t, l' = e :: t → last < ext4EsEnd e) ∧
      EsInv sb' ∧ sb'.cacheOf i = none ∧ sb'.root i = before ++ l' ∧
      ∀ j, j ≠ i → sb'.inodes j = sb.inodes j := by
  induction l generalizing sb with
  | nil =>
    exact ⟨[], [], sb, rfl, rfl, by simp, by simp, h, hc, hroot, fun _ _ => rfl⟩
  | cons es l ih =>
    rw [freeThrough]
    split
    · rename_i hle
      obtain ⟨d, l', sb', heq, hl, hd, hh, hinv, hc', hr, ho⟩ :=
        ih (h.drop hc hroot) (by simpa using hc) (by simp)
      refine ⟨es :: d, l', sb', heq, by simp [hl], ?_, hh, hinv, hc', hr, ?_⟩
      · exact List.forall_mem_cons.mpr ⟨hle, hd⟩
      · intro j hj
        rw [ho j hj]
        simp [hj]
    · refine ⟨[], es :: l, sb, rfl, rfl, by simp, ?_, h, hc, hroot, fun _ _ => rfl⟩
      rintro e t ⟨rfl, rfl⟩
      omega

variable {v : EsVal} {sb' : Ext4SbInfo} {l : List ExtentStatus} {n : Nat}

/-- Entries that end by `lblk` hold nothing from `lblk` on. -/
theorem lt_of_holds {b : Nat} (h : ∀ e ∈ l, esStop e ≤ n) (hv : Holds l b v) : b < n := by
  obtain ⟨e, he, ⟨hc, _⟩⟩ := hv
  have := h e he
  simp only [Segments.View.Covers, esView] at hc
  omega

theorem le_of_holds {b : Nat} (h : ∀ e ∈ l, n ≤ e.esLblk) (hv : Holds l b v) : n ≤ b := by
  obtain ⟨e, he, ⟨hc, _⟩⟩ := hv
  have := h e he
  simp only [Segments.View.Covers, esView] at hc
  omega

theorem At.bounds {e : ExtentStatus} {b : Nat} (h : At e b v) : e.esLblk ≤ b ∧ b < esStop e := h.1

theorem trimFront_fields (es : ExtentStatus) (lblk len : Nat) :
    (trimFront es lblk len).addr = es.addr ∧ (trimFront es lblk len).esLblk = lblk := by
  unfold trimFront
  dsimp only
  split <;> exact ⟨rfl, rfl⟩

/-- The range falls into the gap in front of `es`. -/
theorem not_in_range {b a : List ExtentStatus} {es : ExtentStatus} {lblk last : Nat}
    (htree : TreeOk (b ++ es :: a)) (hb : ∀ e ∈ b, esStop e ≤ lblk) (hlast : last < es.esLblk)
    (p : Nat) (v : EsVal) (hv : Holds (b ++ es :: a) p v) : ¬ (lblk ≤ p ∧ p ≤ last) := by
  rw [holds_append] at hv
  rcases hv with hv | hv
  · have := lt_of_holds hb hv
    omega
  · have := le_of_holds htree.start_le_from hv
    omega

variable {i lblk last : Nat}

theorem removed_refl {sb : Ext4SbInfo} (h : EsInv sb)
    (hnone : ∀ b v, Holds (sb.root i) b v → ¬ (lblk ≤ b ∧ b ≤ last)) : Removed sb sb i lblk last :=
  ⟨h, fun _ _ => rfl, fun b v => ⟨fun hv => ⟨hv, hnone b v hv⟩, And.left⟩⟩

/-- A step that touches blocks of the range only, ahead of a removal of it. -/
theorem Removed.of_inside {sb sb'' : Ext4SbInfo} (h : Removed sb' sb'' i lblk last)
    (ho : ∀ j, j ≠ i → sb'.inodes j = sb.inodes j)
    (hin : ∀ b v, ¬ (lblk ≤ b ∧ b ≤ last) → (Holds (sb'.root i) b v ↔ Holds (sb.root i) b v)) :
    Removed sb sb'' i lblk last := by
  refine ⟨h.inv, fun j hj => (h.others j hj).trans (ho j hj), fun b v => ?_⟩
  rw [h.holds]
  exact and_congr_left (hin b v)

theorem Removed.of_setCache {sb : Ext4SbInfo} (h : Removed (sb.setCache i none) sb' i lblk last) :
    Removed sb sb' i lblk last :=
  h.of_inside (fun j hj => inodes_setCache_ne hj none) (fun b v _ => by rw [root_setCache])

section Pass

variable {sb : Ext4SbInfo} {i lblk last : Nat} {b a : List ExtentStatus} {es : ExtentStatus}
  {allocOk : Bool}

theorem EsInv.cut (h : EsInv sb) (hroot : sb.root i = b ++ es :: a) {z : ExtentStatus}
    (hH : IsHead es z) : EsInv ((sb.setCache i none).setRoot i (b ++ z :: a)) := by
  have htree : TreeOk (b ++ es :: a) := hroot ▸ h.tree i
  have hes := htree.cur
  have htree' : TreeOk (b ++ z :: a) :=
    htree.replace (hH.entryOk hes) (fun e he => hH.before_left hes (htree.before_cur e he))
      (fun e he => hH.before_right (htree.stop_le_after e he)) hH.addr
  exact (h.dropCache i).put (by rw [root_setCache, hroot]) htree' hH.addr
    (type_of_pblk hH.pblk)

theorem isHead_cut (h1 : es.esLblk < lblk) (h2 : lblk < esStop es) :
    IsHead es { es with esLen := lblk - es.esLblk } := by
  simp only [esStop] at h2
  refine ⟨rfl, rfl, ?_, ?_, rfl⟩ <;> dsimp only <;> omega

theorem stop_cut (h1 : es.esLblk < lblk) : esStop { es with esLen := lblk - es.esLblk } = lblk := by
  simp only [esStop]
  omega

theorem stop_eq_end (h : EntryOk es) : esStop es = ext4EsEnd es + 1 := by
  have := h.pos
  simp only [esStop, ext4EsEnd]
  omega

section

variable (h : EsInv sb) (hroot : sb.root i = b ++ es :: a) (hb : ∀ e ∈ b, esStop e ≤ lblk)
include h hroot hb

theorem removePass_split (hrange : lblk ≤ last) (h1 : es.esLblk < lblk) (h2 : last < ext4EsEnd es)
    (rb : RbShape) :
    (match esInsertExtent rb ((sb.setCache i none).setRoot i
          (b ++ { es with esLen := lblk - es.esLblk } :: a)) i
          (splitTail es (last + 1) (ext4EsEnd es - last)) allocOk with
      | .done sb' used => RemoveRes.done sb' used
      | .enomem => .failed .enomem (sb.setCache i none)
      | .einval => .failed .einval (sb.setCache i none)).Spec sb i lblk last allocOk := by
  have htree : TreeOk (b ++ es :: a) := hroot ▸ h.tree i
  have hes := htree.cur
  have hstop := stop_eq_end hes
  have hH := isHead_cut h1 (show lblk < esStop es by omega)
  have hheadstop := stop_cut h1
  generalize ({ es with esLen := lblk - es.esLblk } : ExtentStatus) = head at hH hheadstop ⊢
  have hT : IsTail es (splitTail es (last + 1) (ext4EsEnd es - last)) :=
    isTail_splitTail hes (by omega) (by omega) (by omega)
  set tail := splitTail es (last + 1) (ext4EsEnd es - last)
  have htlblk : tail.esLblk = last + 1 := rfl
  have hcut := h.cut hroot hH
  have hclear : Clear tail (((sb.setCache i none).setRoot i (b ++ head :: a)).root i) := by
    intro e he
    simp only [root_setRoot, if_true, List.mem_append, List.mem_cons] at he
    rcases he with he | rfl | he
    · have := hb e he
      exact .inl (by rw [htlblk]; omega)
    · exact .inl (by rw [htlblk, hheadstop]; omega)
    · exact .inr (hT.stop ▸ htree.stop_le_after e he)
  have hins : (esInsertExtent rb ((sb.setCache i none).setRoot i (b ++ head :: a)) i tail
      allocOk).Spec _ i tail allocOk := esInsertExtent_spec hcut (hT.entryOk hes) hclear
  generalize esInsertExtent rb ((sb.setCache i none).setRoot i (b ++ head :: a)) i tail allocOk
    = r at hins ⊢
  cases r with
  | done sb' used =>
    obtain ⟨hI, hu⟩ := hins
    refine ⟨⟨hI.inv, ?_, ?_⟩, hu⟩
    · intro j hj
      rw [hI.others j hj, inodes_setRoot_ne hj, inodes_setCache_ne hj]
    · intro p v
      rw [hI.holds, root_setRoot, if_pos rfl, hroot, holds_append, holds_cons, holds_append,
        holds_cons, hH.at_iff, hT.at_iff, hheadstop, htlblk]
      have hbv : Holds b p v → p < lblk := lt_of_holds hb
      have hav : Holds a p v → esStop es ≤ p := le_of_holds htree.stop_le_after
      constructor
      · rintro ((hv | ⟨hv, hp⟩ | hv) | ⟨hv, hp⟩)
        · exact ⟨.inl hv, fun hin => by have := hbv hv; omega⟩
        · exact ⟨.inr (.inl hv), by omega⟩
        · exact ⟨.inr (.inr hv), fun hin => by have := hav hv; omega⟩
        · exact ⟨.inr (.inl hv), by omega⟩
      · rintro ⟨hv | hv | hv, hp⟩
        · exact .inl (.inl hv)
        · by_cases hlt : p < lblk
          · exact .inl (.inr (.inl ⟨hv, hlt⟩))
          · exact .inr ⟨hv, by omega⟩
        · exact .inl (.inr (.inr hv))
  | enomem => exact ⟨rfl, hins, rfl⟩
  | einval => exact hins.elim

theorem removed_trimFront (h1 : lblk ≤ es.esLblk) (h1' : es.esLblk ≤ last)
    (h2 : last < ext4EsEnd es) :
    Removed sb (sb.setRoot i (b ++ trimFront es (last + 1) (ext4EsEnd es - last) :: a))
      i lblk last := by
  have htree : TreeOk (b ++ es :: a) := hroot ▸ h.tree i
  have hes := htree.cur
  have hstop := stop_eq_end hes
  have hT : IsTail es (trimFront es (last + 1) (ext4EsEnd es - last)) :=
    isTail_trimFront hes (by omega) (by omega) (by omega)
  obtain ⟨haddr, hlblk⟩ := trimFront_fields es (last + 1) (ext4EsEnd es - last)
  generalize trimFront es (last + 1) (ext4EsEnd es - last) = tail at hT haddr hlblk ⊢
  have htree' : TreeOk (b ++ tail :: a) :=
    htree.replace (hT.entryOk hes)
      (fun e he => before_of_gap (by have := (htree.before_cur e he).stop_le; omega))
      (fun e he => hT.before_right (htree.entries e (by simp [he])) (htree.cur_before e he)) haddr
  refine ⟨h.put hroot htree' haddr hT.type, fun j hj => inodes_setRoot_ne hj _, ?_⟩
  intro p v
  rw [hroot, root_setRoot, if_pos rfl, holds_append, holds_cons, holds_append, holds_cons,
    hT.at_iff, hlblk]
  have hbv : Holds b p v → p < lblk := lt_of_holds hb
  have hav : Holds a p v → esStop es ≤ p := le_of_holds htree.stop_le_after
  constructor
  · rintro (hv | ⟨hv, hp⟩ | hv)
    · exact ⟨.inl hv, fun hin => by have := hbv hv; omega⟩
    · exact ⟨.inr (.inl hv), by omega⟩
    · exact ⟨.inr (.inr hv), fun hin => by have := hav hv; omega⟩
  · rintro ⟨hv | hv | hv, hp⟩
    · exact .inl hv
    · have := hv.bounds
      exact .inr (.inl ⟨hv, by omega⟩)
    · exact .inr (.inr hv)

end

/-- The loop over whole entries and the trim behind it, from a state where
nothing before `rest` reaches into the range and nothing in `rest` starts
before it. -/
theorem removeTail_spec (last : Nat) (h : EsInv sb) (hc : sb.cacheOf i = none)
    (hroot : sb.root i = b ++ a) (hb : ∀ e ∈ b, esStop e ≤ lblk) (ha : ∀ e ∈ a, lblk ≤ e.esLblk) :
    ∃ sb', removeTail i last b a sb = .done sb' false ∧ Removed sb sb' i lblk last := by
  obtain ⟨d, l', sb', heq, hl, hd, hh, hinv, hc', hr, ho⟩ := freeThrough_spec last h hc hroot
  rw [removeTail, heq]
  have hdv : ∀ p v, Holds d p v → lblk ≤ p ∧ p ≤ last := by
    intro p v hv
    have h1 : lblk ≤ p := le_of_holds (fun e he => ha e (by rw [hl]; simp [he])) hv
    have h2 : p < last + 1 := by
      refine lt_of_holds (fun e he => ?_) hv
      have h3 := hd e he
      simp only [ext4EsEnd] at h3
      simp only [esStop]
      omega
    omega
  -- the freed entries lie inside the range
  have hfreed : ∀ sb'', Removed sb' sb'' i lblk last → Removed sb sb'' i lblk last := by
    intro sb'' hR
    refine hR.of_inside ho fun p v hp => ?_
    have hno : ¬ Holds d p v := fun hv => hp (hdv p v hv)
    rw [hroot, hl, hr, holds_append, holds_append, holds_append, or_iff_right hno]
  cases l' with
  | nil =>
    refine ⟨sb', rfl, hfreed sb' (removed_refl hinv fun p v hv => ?_)⟩
    rw [hr, List.append_nil] at hv
    have := lt_of_holds hb hv
    omega
  | cons es after =>
    have hend := hh es after rfl
    have htree' : TreeOk (b ++ es :: after) := hr ▸ hinv.tree i
    have hmax := htree'.cur.le_max
    have hmod : (last + 1) % 2 ^ 32 = last + 1 := by
      unfold esStop extMaxBlocks at hmax
      unfold ext4EsEnd at hend
      omega
    rw [hmod]
    dsimp only
    split
    · exact ⟨_, rfl, hfreed _ (removed_trimFront hinv hr hb (ha es (by simp [hl])) (by omega) hend)⟩
    · refine ⟨sb', rfl, hfreed sb' (removed_refl hinv ?_)⟩
      rw [hr]
      exact not_in_range htree' hb (by omega)

theorem removePass_cut (h : EsInv sb) (hroot : sb.root i = b ++ es :: a)
    (hb : ∀ e ∈ b, esStop e ≤ lblk) (h1 : es.esLblk < lblk) (hcur : lblk < esStop es)
    (h2 : esStop es ≤ last + 1) :
    (removeTail i last (b ++ [{ es with esLen := lblk - es.esLblk }]) a
      ((sb.setCache i none).setRoot i (b ++ { es with esLen := lblk - es.esLblk } :: a))).Spec
      sb i lblk last allocOk := by
  have htree : TreeOk (b ++ es :: a) := hroot ▸ h.tree i
  have hH := isHead_cut h1 hcur
  have hheadstop := stop_cut h1
  generalize ({ es with esLen := lblk - es.esLblk } : ExtentStatus) = head at hH hheadstop ⊢
  obtain ⟨sb', heq, hR⟩ : ∃ sb', removeTail i last (b ++ [head]) a
      ((sb.setCache i none).setRoot i (b ++ head :: a)) = .done sb' false ∧
      Removed ((sb.setCache i none).setRoot i (b ++ head :: a)) sb' i lblk last := by
    refine removeTail_spec last (h.cut hroot hH) (by simp) (by simp) ?_ ?_
    · exact List.forall_mem_append.mpr
        ⟨hb, List.forall_mem_singleton.mpr (Nat.le_of_eq hheadstop)⟩
    · intro e he
      have := htree.stop_le_after e he
      omega
  rw [heq]
  refine ⟨hR.of_inside (fun j hj => ?_) fun p v hp => ?_, by simp⟩
  · rw [inodes_setRoot_ne hj, inodes_setCache_ne hj]
  · rw [root_setRoot, if_pos rfl, hroot, holds_append, holds_cons, holds_append, holds_cons,
      hH.at_iff, hheadstop]
    have hcut : At es p v ∧ p < lblk ↔ At es p v := by
      refine ⟨And.left, fun hv => ⟨hv, ?_⟩⟩
      have := hv.bounds
      omega
    rw [hcut]

/-- **One pass removes the range or leaves the trees as they were.** -/
theorem removePass_spec (h : EsInv sb) (hrange : lblk ≤ last) (rb : RbShape) (allocOk : Bool) :
    (removePass rb sb i lblk last allocOk).Spec sb i lblk last allocOk := by
  unfold removePass
  cases hs : esTreeSearch rb (sb.root i) lblk with
  | none =>
    have hall := esTreeSearch_none (h.tree i) hs
    refine ⟨removed_refl h fun b v hv => ?_, by simp⟩
    have := lt_of_holds hall hv
    omega
  | some z =>
    obtain ⟨hz, hb, hcur⟩ := esTreeSearch_some (h.tree i) hs
    have hroot : sb.root i = z.before ++ z.cur :: z.after := hz.symm
    have htree : TreeOk (z.before ++ z.cur :: z.after) := hroot ▸ h.tree i
    have hpos := htree.cur.pos
    have hafter := htree.stop_le_after
    have hr0 : (sb.setCache i none).root i = z.before ++ z.cur :: z.after := by
      rw [root_setCache, hroot]
    have h0 := h.dropCache i
    dsimp only
    split
    · -- the first entry behind `lblk` starts behind the range
      rename_i hlast
      refine ⟨removed_refl h ?_, by simp⟩
      rw [hroot]
      exact not_in_range htree hb hlast
    · have hend : ext4EsEnd z.cur = z.cur.esLblk + z.cur.esLen - 1 := rfl
      by_cases h2 : last < ext4EsEnd z.cur
      · rw [if_pos h2, if_pos (by omega)]
        by_cases h1 : z.cur.esLblk < lblk
        · rw [if_pos h1, if_pos (by omega)]
          exact removePass_split h hroot hb hrange h1 h2 rb
        · rw [if_neg h1, if_neg (by omega)]
          exact ⟨(removed_trimFront h0 hr0 hb (by omega) (by omega) h2).of_setCache,
            by simp⟩
      · rw [if_neg h2, if_neg (by omega)]
        by_cases h1 : z.cur.esLblk < lblk
        · rw [if_pos h1, if_pos (by omega)]
          exact removePass_cut h hroot hb h1 hcur (by unfold esStop; omega)
        · rw [if_neg h1, if_neg (by omega)]
          have hall : ∀ e ∈ z.cur :: z.after, lblk ≤ e.esLblk := by
            refine List.forall_mem_cons.mpr ⟨by omega, fun e he => ?_⟩
            have := hafter e he
            unfold esStop at this
            omega
          obtain ⟨sb', heq, hR⟩ := removeTail_spec last h0 (by simp) hr0 hb hall
          rw [heq]
          exact ⟨hR.of_setCache, by simp⟩

/-- How `__es_remove_extent` may end, after reclaim left `mid` behind. -/
def RemoveEnd (mid : Ext4SbInfo) (i lblk last : Nat) (allocs : List Bool) :
    Option Errno × Ext4SbInfo × List Bool → Prop
  | (none, sb', rest) => Removed mid sb' i lblk last ∧ ∀ ok ∈ rest, ok ∈ allocs
  | (some e, sb', _) => e = .enomem ∧ sb' = mid ∧ false ∈ allocs

/-- **`__es_remove_extent`, over all its retries**: the trees are thinned
by the reclaim an allocation failure asks for, and then the range is
removed, or nothing else happens. -/
theorem esRemoveExtent_spec (rb : RbShape) (hrange : lblk ≤ last) (allocs : List Bool)
    (h : EsInv sb) : ∃ mid, Shrunk sb mid ∧ (false ∉ allocs → mid = sb) ∧
      RemoveEnd mid i lblk last allocs (esRemoveExtent rb i lblk last allocs sb) := by
  induction allocs generalizing sb with
  | nil =>
    refine ⟨sb, .refl h, fun _ => rfl, ?_⟩
    have hp := removePass_spec (i := i) h hrange rb true
    rw [esRemoveExtent]
    generalize removePass rb sb i lblk last true = r at hp
    cases r with
    | done sb' used => exact ⟨hp.1, by simp⟩
    | failed e sb' => exact absurd hp.2.1 (by simp)
  | cons ok allocs ih =>
    have hp := removePass_spec (i := i) h hrange rb ok
    rw [esRemoveExtent]
    generalize removePass rb sb i lblk last ok = r at hp
    cases r with
    | done sb' used =>
      refine ⟨sb, .refl h, fun _ => rfl, hp.1, ?_⟩
      intro o ho
      split at ho
      · exact List.mem_cons_of_mem _ ho
      · exact ho
    | failed e sb' =>
      obtain ⟨rfl, rfl, rfl⟩ := hp
      have h0 : Shrunk sb (sb.setCache i none) :=
        (Scanned.refl (i := i) h.toEsCore).shrunk h
      have hS := h0.trans (esShrink_spec h0.inv rb 128 (some i))
      dsimp only
      generalize esShrink rb (sb.setCache i none) 128 (some i) = r at hS ⊢
      obtain ⟨n, sb1⟩ := r
      split
      · obtain ⟨mid, hmid, _, hm⟩ := ih hS.inv
        refine ⟨mid, hS.trans hmid, by simp, ?_⟩
        generalize esRemoveExtent rb i lblk last allocs sb1 = q at hm ⊢
        match q, hm with
        | (none, sb', rest), hm => exact ⟨hm.1, fun o ho => List.mem_cons_of_mem _ (hm.2 o ho)⟩
        | (some e, sb', rest), hm => exact ⟨hm.1, hm.2.1, by simp⟩
      · exact ⟨sb1, hS, by simp, rfl, rfl, by simp⟩

end Pass

end Ext4.ExtentsStatus
