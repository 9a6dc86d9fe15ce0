import Ext4.Mballoc.DropSteps

/-!
# Multiblock allocator — no cluster has two owners

The sections that free clusters, commit them and rebuild buddy pages, and
with them all sections: in every run from a mounted filesystem the holders
agree with the bitmaps, the preallocations and the threads.
-/

namespace Ext4.Mballoc

open Bitmap Dyadic SearchTree

variable {fs : FsLayout} {st : MbState}

/-! ## Clusters that go back -/

/-- A cluster that no thread and no preallocation counts on. -/
def Loose (fs : FsLayout) (st : MbState) (g c : Nat) : Prop :=
  st.holder g c = .pending ∨ (∃ o, st.holder g c = .owned o) ∧
    (∀ p pa, st.pas p = some pa → ¬ pa.Has fs g c) ∧
    ∀ x t, st.acs x = some t → t.phase = .closing →
      ¬ (t.ac.acBEx.feGroup = g ∧ t.ac.acBEx.has c = true)

variable {journalled : Bool} {ops : List MbOp} {op : MbOp} {c : Nat}

/-- A cluster of a preallocation is neither free nor pending. -/
theorem MbInv.taken (h : MbInv fs st) {p g : Nat} {pa : Ext4PreallocSpace}
    (hp : st.pas p = some pa) (hhas : pa.Has fs g c) :
    st.holder g c ≠ .free ∧ st.holder g c ≠ .pending := by
  rcases ((h.pa p pa hp).part g c hhas).cases with h1 | ⟨y, t, hy, ht, h1⟩ | ⟨o, h1⟩ <;>
    exact h1 ▸ ⟨nofun, nofun⟩

theorem Loose.not_has (h : MbInv fs st) {p g : Nat} {pa : Ext4PreallocSpace}
    (hc : Loose fs st g c) (hp : st.pas p = some pa) : ¬ pa.Has fs g c := by
  rcases hc with hc | ⟨-, hc, -⟩
  · exact fun hhas => (h.taken hp hhas).2 hc
  · exact hc p pa hp

variable {st' : MbState}

/-- Loose clusters become pending or free; threads and preallocations stay
as they are. -/
theorem MbInv.bookStep (h : MbInv fs st) (hacs : st'.acs = st.acs) (hpas : st'.pas = st.pas)
    (hlist : st'.bbPreallocList = st.bbPreallocList) (hobj : st'.objDiscard = st.objDiscard)
    (hgrp : st'.grpDiscard = st.grpDiscard)
    (hcell : ∀ g c, st'.holder g c = st.holder g c ∨ Loose fs st g c ∧ (st'.holder g c = .pending ∨
      st'.holder g c = .free)) (hbooks : Books fs st') : MbInv fs st' := by
  have hnew : ∀ g c v, st'.holder g c = v → v ≠ .pending → v ≠ .free → st.holder g c = v := by
    intro g c v hv h1 h2
    rcases hcell g c with heq | ⟨-, hp | hf⟩
    · exact heq.symm.trans hv
    · exact absurd (hv.symm.trans hp) h1
    · exact absurd (hv.symm.trans hf) h2
  have htouch : Touches fs st st' (fun _ => False) (fun _ => False) := by
    refine ⟨⟨fun y _ => by rw [hacs], fun q _ => by rw [hpas], fun q _ g => by rw [hlist],
      fun q _ => by rw [hobj], fun q _ => by rw [hgrp], fun _ _ _ => False.elim,
      fun _ _ _ _ _ _ hf => hf⟩, fun y _ g c => ⟨fun hc => hnew g c _ hc nofun nofun, fun hc => ?_⟩,
      fun q pa _ hq g c hhas => ?_, fun q _ g c hc => hnew g c _ hc nofun nofun,
      fun y t _ _ _ g c lc hc => hnew g c _ hc nofun nofun, fun y t _ hy hph c hc ⟨o, ho⟩ => ?_⟩
    · rcases hcell g c with heq | ⟨hold | ⟨⟨o, hold⟩, -⟩, -⟩
      · exact heq.trans hc
      · cases hold.symm.trans hc
      · cases hold.symm.trans hc
    · rcases hcell g c with heq | ⟨hold, -⟩
      · exact heq
      · exact absurd hhas (hold.not_has h hq)
    · rcases hcell t.ac.acBEx.feGroup c with heq | ⟨hold | ⟨-, -, hold⟩, -⟩
      · exact ⟨o, heq.trans ho⟩
      · cases hold.symm.trans ho
      · exact absurd ⟨rfl, hc⟩ (hold y t hy hph)
  exact h.touch htouch hbooks (fun _ _ => False.elim) (fun _ => False.elim) (fun _ _ => False.elim)
    (fun _ => False.elim) ⟨by rw [hacs]; exact h.inodes, by rw [hacs]; exact h.lgs⟩
    ⟨by rw [hlist]; exact h.lists, by rw [hobj]; exact h.objs, by rw [hgrp]; exact h.grps⟩

variable {rb : Shape Ext4FreeData}

theorem MbInv.freed_loose (h : MbInv fs st) {g bit n : Nat}
    (hlegal : (MbOp.freeSection rb journalled g bit n).Legal fs st)
    (hdisc : (MbOp.freeSection rb journalled g bit n).Discards fs st) (h1 : bit ≤ c)
    (h2 : c < bit + n) : (∃ o, st.holder g c = .owned o) ∧ Loose fs st g c := by
  obtain ⟨-, -, hcells⟩ := hlegal
  obtain ⟨⟨o, ho⟩, hout⟩ := hcells c h1 h2
  have hclosing : ∀ x t, st.acs x = some t → t.phase = .closing →
      ¬ (t.ac.acBEx.feGroup = g ∧ t.ac.acBEx.has c = true) := fun x t hx hph =>
    hout x t hx (by rw [hph]; nofun)
  refine ⟨⟨o, ho⟩, .inr ⟨⟨o, ho⟩, fun p pa hp hhas => ?_, hclosing⟩⟩
  rcases (h.pa p pa hp).part g c hhas with h1 | ⟨y, t, hy, ht, h1⟩ | ⟨i, hi, -⟩ |
    ⟨-, y, t, -, hy, -, hph, hg, hc, -⟩
  · cases ho.symm.trans h1
  · cases ho.symm.trans h1
  · exact hdisc c (by assumption) h2 p pa i hp hi hhas
  · exact hclosing y t hy hph ⟨hg, hc⟩

theorem holder_give_range (st : MbState) (g bit n : Nat) (v : Nat → Holder) (g' c : Nat) :
    (st.give g (fun c => bit ≤ c && c < bit + n) v).holder g' c
      = if g' = g ∧ InRange bit n c then v c else st.holder g' c := by
  have hiff : (g' = g ∧ (decide (bit ≤ c) && decide (c < bit + n)) = true) ↔
      g' = g ∧ InRange bit n c := by
    simp [InRange]
  simp only [MbState.give, hiff]

variable {g bit n : Nat} {sb' : Ext4SbInfo}

/-- The bitmap on disk after a section of `ext4_free_blocks`. -/
theorem Books.freed (h : Books fs st) {v : Holder} (hv : ∀ o, v ≠ .owned o)
    (hle : bit + n ≤ fs.clustersPerGroup)
    (hfd : FdInv fs.toGeometry sb' st.cut st.committed st.running)
    (hbh : ∀ g', (sb'.groups g').bitmapBh = if g' = g then fill (st.sb.groups g').bitmapBh bit n
      false else (st.sb.groups g').bitmapBh)
    (hin : ∀ g' c, c < fs.clustersPerGroup → ((sb'.groups g').e4b.bdBitmap c = true ↔ (if g' = g ∧
      InRange bit n c then v else st.holder g' c) ≠ .free))
    (hpend : ∀ g' c, c < fs.clustersPerGroup → ((∃ t, (g', c, t) ∈ cellsOf (st.cut ++
      sb'.sFreedDataList)) ↔ (if g' = g ∧ InRange bit n c then v else st.holder g' c) = .pending)) :
    Books fs ({ st with sb := sb' }.give g (fun c => bit ≤ c && c < bit + n) fun _ => v) := by
  refine ⟨hfd, h.idle, fun g' b h1 h2 => ?_, fun g' c hc => ?_, fun g' c hc => ?_,
    fun g' c hc => ?_⟩
  · show (sb'.groups g').bitmapBh b = true
    rw [hbh]
    split
    · rw [fill_out (by omega)]
      exact h.padded g' b h1 h2
    · exact h.padded g' b h1 h2
  · rw [holder_give_range]
    exact hin g' c hc
  · show (sb'.groups g').bitmapBh c = true ↔ _
    rw [hbh, holder_give_range]
    by_cases hg : g' = g
    · subst hg
      by_cases hr : InRange bit n c
      · rw [if_pos rfl, if_pos ⟨rfl, hr⟩, fill_in hr]
        exact iff_of_false Bool.noConfusion fun ⟨o, ho⟩ => hv o ho
      · rw [if_pos rfl, if_neg fun hc' => hr hc'.2, fill_out hr]
        exact h.disk g' c hc
    · rw [if_neg hg, if_neg fun hc' => hg hc'.1]
      exact h.disk g' c hc
  · rw [holder_give_range]
    exact hpend g' c hc

section

variable (h : Books fs st) (hn : 0 < n) (hle : bit + n ≤ fs.clustersPerGroup)
  (hown : ∀ c, InRange bit n c → ∃ o, st.holder g c = .owned o)

include h hn hle hown

/-- A section of `ext4_free_blocks`, in a transaction. -/
theorem Books.freeJournalled (hsb : freeSection fs rb (some st.running) st.sb g bit n = some sb') :
    Books fs ({ st with sb := sb' }.give g (fun c => bit ≤ c && c < bit + n)
      fun _ => .pending) := by
  obtain ⟨sb'', heq, hfd, hcells, hsame⟩ := h.fd.freeSection_some rb hn hle
    fun c hc => (h.disk g c (Nat.lt_of_lt_of_le hc.2 hle)).mpr (hown c hc)
  cases hsb.symm.trans heq
  refine h.freed (fun o => Holder.noConfusion) hle hfd (fun g' => (hsame g').2)
    (fun g' c hc => ?_) (fun g' c hc => ?_)
  · rw [(hsame g').1, h.incore g' c hc]
    split
    · rename_i hin
      obtain ⟨o, ho⟩ := hown c hin.2
      rw [hin.1, ho]
      simp
    · rfl
  · have hpend := h.pend g' c hc
    rw [cellsOf_append] at hpend ⊢
    simp only [List.mem_append, hcells.mem_iff, mem_cells] at hpend ⊢
    by_cases hin : g' = g ∧ InRange bit n c
    · rw [if_pos hin]
      exact iff_of_true ⟨st.running, .inr (.inr ⟨hin.1, rfl, hin.2.1, hin.2.2⟩)⟩ rfl
    · rw [if_neg hin, ← hpend]
      refine exists_congr fun t => or_congr_right (or_iff_left ?_)
      exact fun hx => hin ⟨hx.1, hx.2.2.1, hx.2.2.2⟩

/-- A section of `ext4_free_blocks` without a transaction. -/
theorem Books.freeAtOnce (hsb : freeSection fs rb none st.sb g bit n = some sb') :
    Books fs ({ st with sb := sb' }.give g (fun c => bit ≤ c && c < bit + n)
      fun _ => .free) := by
  obtain ⟨sb'', heq, hfd, hlist, hsame⟩ := h.fd.freeSection_none rb hn hle
    fun c hc => (h.disk g c (Nat.lt_of_lt_of_le hc.2 hle)).mpr (hown c hc)
  cases hsb.symm.trans heq
  refine h.freed (fun o => Holder.noConfusion) hle hfd (fun g' => (hsame g').2)
    (fun g' c hc => ?_) (fun g' c hc => ?_)
  · rw [(hsame g').1]
    by_cases hg : g' = g
    · subst hg
      by_cases hin : InRange bit n c
      · rw [if_pos rfl, if_pos ⟨rfl, hin⟩, fill_in hin]
        simp
      · rw [if_pos rfl, if_neg fun hc' => hin hc'.2, fill_out hin]
        exact h.incore g' c hc
    · rw [if_neg hg, if_neg fun hc' => hg hc'.1]
      exact h.incore g' c hc
  · rw [hlist, h.pend g' c hc]
    split
    · rename_i hin
      obtain ⟨o, ho⟩ := hown c hin.2
      rw [hin.1, ho]
      simp
    · rfl

end

/-- A section of `ext4_free_blocks`. -/
theorem MbInv.freeSection (h : MbInv fs st)
    (hlegal : (MbOp.freeSection rb journalled g bit n).Legal fs st)
    (hdisc : (MbOp.freeSection rb journalled g bit n).Discards fs st)
    (hsb : Mballoc.freeSection fs rb (if journalled then some st.running else none) st.sb g bit n =
      some sb') : MbInv fs ({ st with sb := sb' }.give g (fun c => bit ≤ c && c < bit + n)
      fun _ => if journalled then .pending else .free) := by
  have hloose : ∀ c, InRange bit n c → (∃ o, st.holder g c = .owned o) ∧ Loose fs st g c :=
    fun c hc => h.freed_loose hlegal hdisc hc.1 hc.2
  refine h.bookStep rfl rfl rfl rfl rfl (fun g' c => ?_) ?_
  · rw [holder_give_range]
    split
    · rename_i hin
      refine .inr ⟨?_, ?_⟩
      · rw [hin.1]
        exact (hloose c hin.2).2
      · cases journalled
        · exact .inr rfl
        · exact .inl rfl
    · exact .inl rfl
  · cases journalled with
    | false => exact h.books.freeAtOnce hlegal.1 hlegal.2.1 (fun c hc => (hloose c hc).1) hsb
    | true => exact h.books.freeJournalled hlegal.1 hlegal.2.1 (fun c hc => (hloose c hc).1) hsb

/-! ## Commits -/

theorem MbInv.nextTransaction (h : MbInv fs st) :
    MbInv fs { st with running := st.running + 1 } := by
  refine h.bookStep rfl rfl rfl rfl rfl (fun _ _ => .inl rfl)
    ⟨h.books.fd.nextTransaction, h.books.idle, h.books.padded, h.books.incore, h.books.disk,
      h.books.pend⟩

theorem MbInv.callback (h : MbInv fs st) (hidle : st.inCallback = false)
    (hlt : st.committed + 1 < st.running) :
    MbInv fs { st with
      sb := (cutFreedData st.sb (st.committed + 1)).2, committed := st.committed + 1,
      inCallback := true, cut := (cutFreedData st.sb (st.committed + 1)).1 } := by
  have hcut := h.books.idle hidle
  have hfd := h.books.fd
  rw [hcut] at hfd
  obtain ⟨hinv, happ⟩ := cutFreedData_spec hfd hlt
  refine h.bookStep rfl rfl rfl rfl rfl (fun _ _ => .inl rfl)
    ⟨hinv, fun hc => Bool.noConfusion hc, h.books.padded, h.books.incore, h.books.disk,
      fun g c hc => ?_⟩
  have hpend := h.books.pend g c hc
  rw [hcut, List.nil_append] at hpend
  dsimp only
  rw [happ]
  exact hpend

/-- `ext4_free_data_in_buddy` makes the pending clusters of its entry
free. -/
theorem MbInv.returnNext (h : MbInv fs st) {e : Ext4FreeData} {rest : List Ext4FreeData}
    (hcut : st.cut = e :: rest) (hcb : st.inCallback = true)
    (hsb : ext4FreeDataInBuddy fs.toGeometry st.sb e = some sb') :
    MbInv fs ({ st with sb := sb', cut := rest }.give e.efdGroup
      (fun c => e.efdStartCluster ≤ c && c < e.efdStartCluster + e.efdCount) fun _ => .free) := by
  have hfd := h.books.fd
  rw [hcut] at hfd
  obtain ⟨sb'', heq, hinv, hlist, hbits, -⟩ := ext4FreeDataInBuddy_spec hfd
  cases hsb.symm.trans heq
  have hmem : ∀ c, InRange e.efdStartCluster e.efdCount c →
      (e.efdGroup, c, e.efdTid) ∈ cellsOf (st.cut ++ st.sb.sFreedDataList) := fun c hc => by
    rw [hcut]
    exact mem_cellsOf.mpr ⟨e, by simp, mem_cells.mpr ⟨rfl, rfl, hc.1, hc.2⟩⟩
  have hpend : ∀ c, InRange e.efdStartCluster e.efdCount c →
      st.holder e.efdGroup c = .pending := fun c hc =>
    (h.books.pend _ c (h.books.fd.held _ c _ (hmem c hc)).1).mp ⟨_, hmem c hc⟩
  have hclear : ∀ g c, g = e.efdGroup ∧ InRange e.efdStartCluster e.efdCount c →
      (sb'.groups g).e4b.bdBitmap c = false := fun g c hin => by
    rw [(hbits g).2, if_pos (by exact hin)]
  refine h.bookStep rfl rfl rfl rfl rfl (fun g c => ?_)
    ⟨hinv, fun hc => Bool.noConfusion (hcb.symm.trans hc), fun g b h1 h2 => ?_, fun g c hc => ?_,
      fun g c hc => ?_, fun g c hc => ?_⟩
  · rw [holder_give_range]
    split
    · rename_i hin
      rw [hin.1]
      exact .inr ⟨.inl (hpend c hin.2), .inr rfl⟩
    · exact .inl rfl
  · exact (congrFun (hbits g).1 b).trans (h.books.padded g b h1 h2)
  · rw [holder_give_range]
    show (sb'.groups g).e4b.bdBitmap c = true ↔ _
    by_cases hin : g = e.efdGroup ∧ InRange e.efdStartCluster e.efdCount c
    · rw [if_pos hin, hclear g c hin]
      simp
    · rw [(hbits g).2, if_neg (by exact hin), if_neg hin]
      exact h.books.incore g c hc
  · rw [holder_give_range]
    show (sb'.groups g).bitmapBh c = true ↔ _
    rw [(hbits g).1, h.books.disk g c hc]
    split
    · rename_i hin
      rw [hin.1, hpend c hin.2]
      simp
    · rfl
  · rw [holder_give_range]
    show (∃ t, (g, c, t) ∈ cellsOf (rest ++ sb'.sFreedDataList)) ↔ _
    rw [hlist]
    by_cases hin : g = e.efdGroup ∧ InRange e.efdStartCluster e.efdCount c
    · rw [if_pos hin]
      refine iff_of_false (fun ⟨t, ht⟩ => ?_) Holder.noConfusion
      -- what is still pending is used in core
      rw [← hlist] at ht
      exact Bool.noConfusion ((hclear g c hin).symm.trans (hinv.held g c t ht).2.1)
    · rw [if_neg hin]
      refine Iff.trans (exists_congr fun t => ?_) (h.books.pend g c hc)
      rw [hcut, List.cons_append, cellsOf, cellsOf, List.flatMap_cons, List.mem_append,
        or_iff_right]
      intro hx
      obtain ⟨hg, -, h1, h2⟩ := mem_cells.mp hx
      exact hin ⟨hg, h1, h2⟩

/-! ## Buddy pages -/

theorem ext4MbGenerateFromPa_spec {pas : Nat → Option Ext4PreallocSpace} {g : Nat}
    {list : List Nat} {m m' : Bits} (h : ext4MbGenerateFromPa fs pas g list m = some m') :
    m' c = true ↔ m c = true ∨ ∃ p ∈ list, ∃ pa, pas p = some pa ∧ pa.Has fs g c := by
  induction list generalizing m with
  | nil =>
    cases h
    simp
  | cons p list ih =>
    -- a preallocation without clusters has none
    have hskip : (∀ pa, pas p = some pa → ¬ pa.Has fs g c) →
        ((∃ q ∈ p :: list, ∃ pa, pas q = some pa ∧ pa.Has fs g c) ↔
          ∃ q ∈ list, ∃ pa, pas q = some pa ∧ pa.Has fs g c) := by
      intro hno
      simp only [List.mem_cons, exists_eq_or_imp]
      exact or_iff_right fun ⟨pa, hpa, hhas⟩ => hno pa hpa hhas
    rw [ext4MbGenerateFromPa] at h
    split at h
    · rename_i hnone
      rw [ih h, hskip fun pa hpa => nomatch hnone.symm.trans hpa]
    · rename_i pa hpa
      split at h
      · rename_i hlen
        rw [ih h, hskip fun pa' hpa' hhas => ?_]
        cases hpa.symm.trans hpa'
        have := hhas.2
        omega
      · split at h
        · cases h
        · rename_i hg
          rw [ih h]
          simp only [List.mem_cons, exists_eq_or_imp]
          have hhas : pa.Has fs g c ↔
              fs.groupOffset pa.paPstart ≤ c ∧ c < fs.groupOffset pa.paPstart + pa.paLen :=
            and_iff_right (not_ne_iff.mp hg)
          have hfill : fill m (fs.groupOffset pa.paPstart) pa.paLen true c = true ↔
              pa.Has fs g c ∨ m c = true := by
            rw [hhas]
            by_cases hin : fs.groupOffset pa.paPstart ≤ c ∧
                c < fs.groupOffset pa.paPstart + pa.paLen
            · simp [fill_in hin, hin]
            · rw [fill_out hin, or_iff_right hin]
          have hpa' : (∃ pa', pas p = some pa' ∧ pa'.Has fs g c) ↔ pa.Has fs g c := by simp [hpa]
          rw [hfill, hpa', or_left_comm, or_assoc]

theorem ext4MbGenerateFromFreelist_spec (root : List Ext4FreeData) (m : Bits) :
    ext4MbGenerateFromFreelist root m c = true ↔
      m c = true ∨ ∃ e ∈ root, e.efdStartCluster ≤ c ∧ c < e.efdStartCluster + e.efdCount := by
  induction root generalizing m with
  | nil => simp [ext4MbGenerateFromFreelist]
  | cons e root ih =>
    rw [ext4MbGenerateFromFreelist, List.foldl_cons, ← ext4MbGenerateFromFreelist, ih]
    simp only [List.mem_cons, exists_eq_or_imp]
    by_cases hin : e.efdStartCluster ≤ c ∧ c < e.efdStartCluster + e.efdCount
    · simp [fill_in hin, hin]
    · rw [fill_out hin, or_iff_right hin]

section

variable (h : MbInv fs st) {g : Nat} (hlegal : (MbOp.initCache g).Legal fs st) {incore : Bits}
  (hgen : ext4MbGenerateFromPa fs st.pas g (st.bbPreallocList g) (st.sb.groups g).bitmapBh
    = some incore)

include h hlegal hgen

theorem MbInv.rebuilt (hc : c < fs.clustersPerGroup) :
    ext4MbGenerateFromFreelist (st.sb.groups g).bbFreeRoot incore c = true ↔
      st.holder g c ≠ .free := by
  have hlisted : ∀ p pa, st.pas p = some pa → pa.Has fs g c → p ∉ st.grpDiscard →
      p ∈ st.bbPreallocList g := by
    intro p pa hp hhas hg
    obtain ⟨g', s, hplace, hl⟩ := (h.pa p pa hp).place
    exact (hl g).mpr ⟨((hplace.has_iff g c).mp hhas).1, hg⟩
  rw [ext4MbGenerateFromFreelist_spec, ext4MbGenerateFromPa_spec hgen, h.books.disk g c hc]
  constructor
  · rintro ((⟨o, ho⟩ | ⟨p, -, pa, hpa, hhas⟩) | ⟨e, he, hin⟩) hfree
    · cases hfree.symm.trans ho
    · exact (h.taken hpa hhas).1 hfree
    · obtain ⟨hmem, hg⟩ := (h.books.fd.mem g e).mp he
      have hp := (h.books.pend g c hc).mp ⟨e.efdTid, mem_cellsOf.mpr
        ⟨e, List.mem_append.mpr hmem, mem_cells.mpr ⟨hg.symm, rfl, hin⟩⟩⟩
      cases hfree.symm.trans hp
  · intro hne
    cases hh : st.holder g c with
    | free => exact absurd hh hne
    | owned o => exact .inl (.inl ⟨o, rfl⟩)
    | pending =>
      obtain ⟨t, ht⟩ := (h.books.pend g c hc).mpr hh
      obtain ⟨e, he, hce⟩ := mem_cellsOf.mp ht
      obtain ⟨hg, -, h1, h2⟩ := mem_cells.mp hce
      exact .inr ⟨e, (h.books.fd.mem g e).mpr ⟨List.mem_append.mp he, hg.symm⟩, h1, h2⟩
    | prealloc p =>
      refine .inl (.inr ?_)
      cases hp : st.pas p with
      | none => exact absurd hh ((h.noPa p hp).cells g c)
      | some pa =>
        have hhas := (h.pa p pa hp).own g c hh
        exact ⟨p, hlisted p pa hp hhas fun hg => hlegal.2 p pa hg hp hhas.1, pa, hp, hhas⟩
    | inflight x =>
      refine .inl (.inr ?_)
      cases hx : st.acs x with
      | none => exact absurd hh (h.noAc x hx g c)
      | some t =>
        have hac := h.ac x t hx
        obtain ⟨hph, rfl, hin⟩ := (hac.cells g c).mp hh
        cases hpa : t.ac.acPa with
        | none => exact absurd (hac.taken hph hpa).1 (hlegal.1 x t hx)
        | some p =>
          obtain ⟨pa, hp, -, -, hlink, -, ⟨-, hg⟩, -⟩ := h.held hx ⟨hpa, .inl hph⟩
          have hhas := hlink.has hph hin
          exact ⟨p, hlisted p pa hp hhas hg, pa, hp, hhas⟩

/-- `ext4_mb_init_cache`. -/
theorem MbInv.initCache :
    MbInv fs (st.setGroup g { st.sb.groups g with
      e4b := ext4MbInitCache fs.toGeometry
        (ext4MbGenerateFromFreelist (st.sb.groups g).bbFreeRoot incore)
        (st.sb.groups g).e4b.bdInfo }) := by
  have hkeep : ∀ c, (st.sb.groups g).bitmapBh c = true →
      ext4MbGenerateFromFreelist (st.sb.groups g).bbFreeRoot incore c = true := fun c hc => by
    rw [ext4MbGenerateFromFreelist_spec, ext4MbGenerateFromPa_spec hgen]
    exact .inl (.inl hc)
  have hbits := fun c (hc : c < fs.clustersPerGroup) => h.rebuilt hlegal hgen hc
  generalize ext4MbGenerateFromFreelist (st.sb.groups g).bbFreeRoot incore = m at hkeep hbits ⊢
  have hpad : Padded fs.toGeometry m := fun b h1 h2 => hkeep b (h.books.padded g b h1 h2)
  obtain ⟨hcanon, hbm, hsound⟩ := ext4MbInitCache_spec hpad (st.sb.groups g).e4b.bdInfo
  -- the group descriptor agrees: the same clusters are free
  have hfree : (st.sb.groups g).e4b.bdInfo.bbFree
      = cnt (fs.toGeometry.sMbMaxs 0) (Free fs.toGeometry m) := by
    rw [(h.books.fd.canon g).free]
    refine cnt_congr fun c _ => and_congr_right fun hc => ?_
    rcases Nat.lt_or_ge c fs.clustersPerGroup with hlt | hge
    · rw [← Bool.not_eq_true, ← Bool.not_eq_true, hbits c hlt, h.books.incore g c hlt]
    · rw [hpad c hge hc, h.books.fd.disk g c (h.books.padded g c hge hc)]
  refine h.bookStep rfl rfl rfl rfl rfl (fun _ _ => .inl rfl) (h.books.setGroup
    (P := fun c => c < fs.clustersPerGroup) (v := st.holder g) ⟨rfl, rfl, rfl, rfl⟩ rfl
    (fun g' c => ?_) hcanon ((hsound hfree).trans (h.books.fd.sound g)) (fun c hc => ?_)
    fun c hc => ⟨rfl, .inr ⟨Nat.not_lt.mp (of_decide_eq_false hc), fun hc => ?_⟩⟩)
  · split
    · rename_i hc
      rw [hc.1]
      rfl
    · rfl
  · replace hc := of_decide_eq_true hc
    rw [hbm]
    exact ⟨hc, hbits c hc, h.books.disk g c hc, Iff.rfl⟩
  · rw [hbm]
    exact hkeep c hc

end

/-! ## Runs -/

/-- The sections of `ext4_mb_new_blocks`. -/
theorem mbStep_markDiskspaceUsed (h : MbInv fs st) {x : Nat} {env : FreeEnv}
    {ac : Ext4AllocationContext} (hx : st.acs x = some ⟨ac, .found⟩)
    (hlegal : (MbOp.markDiskspaceUsed x env).Legal fs st)
    (hst' : ext4MbMarkDiskspaceUsed fs env st x ac = some st') : MbInv fs st' := by
  unfold ext4MbMarkDiskspaceUsed at hst'
  dsimp only at hst'
  split at hst'
  · cases hst'
  · split at hst'
    · exact h.discardAllocated hx hst'
    · rw [if_neg (by simp [hlegal.1, hlegal.2 _ hx])] at hst'
      cases hst'
      exact h.markOk hx rfl

/-- **Every section keeps the invariant.** -/
theorem mbStep_spec (h : MbInv fs st) (hlegal : op.Legal fs st) (hdisc : op.Discards fs st)
    (hst' : mbStep fs op st = some st') : MbInv fs st' := by
  cases op <;> rw [mbStep] at hst'
  case newBlocks x inode logical len data lg =>
    split at hst'
    · cases hst'
    · rename_i hx
      cases hst'
      exact h.newBlocks hx hlegal
  case useInodePa x p =>
    obtain ⟨ac, hx, hf⟩ := acStep_eq_some hst'
    split at hf
    · cases hf
    · rename_i pa hp
      split at hf
      · rename_i husable
        obtain ⟨r, hr, rfl⟩ := Option.map_eq_some_iff.mp hf
        exact h.useInodePa hx hp husable hr
      · cases hf
  case useGroupPa x p =>
    obtain ⟨ac, hx, hf⟩ := acStep_eq_some hst'
    split at hf
    · cases hf
    · rename_i pa hp
      split at hf
      · rename_i husable
        cases hf
        exact h.useGroupPa hx hp husable
      · cases hf
  case regularAllocator x goal g start len =>
    obtain ⟨ac, hx, hf⟩ := acStep_eq_some hst'
    obtain ⟨r, hr, rfl⟩ := Option.map_eq_some_iff.mp hf
    exact h.regularAllocator hx hlegal hr rfl
  case noSpace x =>
    obtain ⟨ac, hx, hf⟩ := acStep_eq_some hst'
    cases hf
    exact h.noSpace hx
  case newPreallocation x p =>
    obtain ⟨ac, hx, hf⟩ := acStep_eq_some hst'
    split at hf
    · cases hf
    · rename_i hcond
      push Not at hcond
      obtain ⟨r, hr, rfl⟩ := Option.map_eq_some_iff.mp hf
      exact h.newPreallocation hx hcond.1 hcond.2 hr
  case newPreallocationFails x =>
    obtain ⟨ac, hx, hf⟩ := acStep_eq_some hst'
    split at hf
    · exact h.discardAllocated hx hf
    · cases hf
  case markDiskspaceUsed x env =>
    obtain ⟨ac, hx, hf⟩ := acStep_eq_some hst'
    split at hf
    · cases hf
    · exact mbStep_markDiskspaceUsed h hx hlegal hf
  case releaseContext x =>
    obtain ⟨ac, hx, hf⟩ := acStep_eq_some hst'
    split at hf
    · rename_i hpa
      cases hf
      exact h.releaseNone hx hpa
    · rename_i p hpa
      obtain ⟨pa, hp, rfl⟩ := Option.map_eq_some_iff.mp hf
      exact h.releaseContext hx hpa hp rfl
  case putPa x =>
    obtain ⟨ac, hx, hf⟩ := acStep_eq_some hst'
    split at hf
    · cases hf
    · rename_i p hpa
      obtain ⟨pa, hp, rfl⟩ := Option.map_eq_some_iff.mp hf
      exact h.putPa hx hpa hp rfl
  case unlinkPa x =>
    obtain ⟨ac, hx, hf⟩ := acStep_eq_some hst'
    split at hf
    · cases hf
    · rename_i p hpa
      obtain ⟨pa, hp, rfl⟩ := Option.map_eq_some_iff.mp hf
      exact h.unlinkPa hx hpa hp rfl
  case finish x =>
    obtain ⟨ac, hx, hf⟩ := acStep_eq_some hst'
    cases hf
    exact h.finish hx
  case discardPa p =>
    split at hst'
    · cases hst'
    · rename_i pa hp
      split at hst'
      · rename_i hcond
        cases hst'
        exact h.discardPa hp hcond.1 hcond.2
      · cases hst'
  case releaseDiscarded p =>
    split at hst'
    · rename_i hmem
      split at hst'
      · cases hst'
      · rename_i pa hp
        exact h.releaseDiscarded hp hmem hst'
    · cases hst'
  case pickGroupPa g p =>
    split at hst'
    · cases hst'
    · rename_i pa hp
      split at hst'
      · rename_i hcond
        cases hst'
        exact h.pickGroupPa hp hcond.2.1 hcond.2.2 hcond.1
      · cases hst'
  case releasePicked p =>
    split at hst'
    · rename_i hmem
      split at hst'
      · cases hst'
      · rename_i pa hp
        exact h.releasePicked hp hmem hst'
    · cases hst'
  case freeSection rb journalled g bit n =>
    obtain ⟨sb', hsb, rfl⟩ := Option.map_eq_some_iff.mp hst'
    exact h.freeSection hlegal hdisc hsb
  case nextTransaction =>
    cases hst'
    exact h.nextTransaction
  case callback =>
    cases hst'
    exact h.callback hlegal.1 hlegal.2
  case returnNext =>
    split at hst'
    · cases hst'
      exact h
    · rename_i e rest hcut
      obtain ⟨sb', hsb, rfl⟩ := Option.map_eq_some_iff.mp hst'
      exact h.returnNext hcut hlegal hsb
  case callbackDone =>
    cases hst'
    exact h.bookStep rfl rfl rfl rfl rfl (fun _ _ => .inl rfl)
      ⟨h.books.fd, fun _ => hlegal.2, h.books.padded, h.books.incore, h.books.disk, h.books.pend⟩
  case initCache g =>
    obtain ⟨incore, hgen, rfl⟩ := Option.map_eq_some_iff.mp hst'
    exact h.initCache hlegal hgen

theorem mbRun_spec (h : MbInv fs st) (hlegal : MbRunMeets fs (MbOp.Legal fs) ops st)
    (hdisc : MbRunMeets fs (MbOp.Discards fs) ops st) (hst' : mbRun fs ops st = some st') :
    MbInv fs st' := by
  induction ops generalizing st with
  | nil =>
    cases hst'
    exact h
  | cons op ops ih =>
    obtain ⟨st1, heq, hrest⟩ := Option.bind_eq_some_iff.mp hst'
    exact ih (mbStep_spec h hlegal.1 hdisc.1 heq) (hlegal.2 st1 heq) (hdisc.2 st1 heq) hrest

/-- A mounted filesystem: nobody allocates yet, and `owner` says what the
used clusters are used for. -/
def MbState.mounted (groups : Nat → GroupState) (owner : Nat → Nat → Owner) : MbState where
  sb := ⟨groups, [], 0⟩
  running := 1
  committed := 0
  inCallback := false
  cut := []
  bbPreallocList := fun _ => []
  pas := fun _ => none
  acs := fun _ => none
  objDiscard := []
  grpDiscard := []
  holder := fun g c => if (groups g).bitmapBh c then .owned (owner g c) else .free

theorem mbInv_mounted {groups : Nat → GroupState} (hm : ∀ g, Mounted fs (groups g))
    (owner : Nat → Nat → Owner) : MbInv fs (MbState.mounted groups owner) := by
  have hfd := (fdRunInv_mounted hm).inv
  have hsame : ∀ g, (groups g).e4b.bdBitmap = (groups g).bitmapBh := fun g => by
    obtain ⟨grinfo, heq, -⟩ := (hm g).init
    rw [heq]
    exact (ext4MbInitCache_spec (hm g).padded grinfo).2.1
  have hholder : ∀ g c v, (MbState.mounted groups owner).holder g c = v → v = .free ∨
      ∃ o, v = .owned o := by
    rintro g c v rfl
    unfold MbState.mounted
    dsimp only
    split
    · exact .inr ⟨_, rfl⟩
    · exact .inl rfl
  refine ⟨⟨fun x y t t' hx => (nomatch hx), fun x y t t' lg hx => (nomatch hx)⟩,
    ⟨fun g => List.nodup_nil, List.nodup_nil, List.nodup_nil⟩,
    ⟨hfd, fun _ => rfl, fun g => (hm g).padded, fun g c _ => ?_, fun g c _ => ?_,
      fun g c _ => ?_⟩, nofun, fun x _ g c hc => ?_, nofun,
    fun p _ => ⟨fun g c hc => ?_, nofun, nofun, nofun⟩⟩
  · show (groups g).e4b.bdBitmap c = true ↔ _
    rw [hsame]
    cases hb : (groups g).bitmapBh c <;> simp [MbState.mounted, hb]
  · show (groups g).bitmapBh c = true ↔ _
    cases hb : (groups g).bitmapBh c <;> simp [MbState.mounted, hb]
  · refine iff_of_false (fun ⟨t, ht⟩ => nomatch ht) fun hc => ?_
    rcases hholder g c _ hc with h | ⟨o, h⟩ <;> exact Holder.noConfusion h
  · rcases hholder g c _ hc with h | ⟨o, h⟩ <;> exact Holder.noConfusion h
  · rcases hholder g c _ hc with h | ⟨o, h⟩ <;> exact Holder.noConfusion h

/-! ## The property of runs -/

/-- The cluster is on the list of the running transactions or in the hands
of a callback. -/
def MbState.Pending (st : MbState) (g c : Nat) : Prop :=
  ∃ t, (g, c, t) ∈ cellsOf (st.cut ++ st.sb.sFreedDataList)

/-- No cluster has two owners. Clusters a thread has found are free on
disk, not pending, not found by another thread, and in no preallocation but
the one the thread takes them from. What two preallocations share is used
on disk; pending clusters are in none. The in-core bitmap has everything
that is used, preallocated or pending. -/
structure OneOwner (fs : FsLayout) (st : MbState) : Prop where
  found : ∀ x t, st.acs x = some t → t.phase = .found → ∀ c, t.ac.acBEx.has c = true →
    c < fs.clustersPerGroup ∧ (st.sb.groups t.ac.acBEx.feGroup).bitmapBh c = false ∧
      ¬ st.Pending t.ac.acBEx.feGroup c ∧
      (∀ p pa, st.pas p = some pa → pa.Has fs t.ac.acBEx.feGroup c → t.ac.acPa = some p) ∧
      (st.sb.groups t.ac.acBEx.feGroup).e4b.bdBitmap c = true ∧
      ∀ y u, st.acs y = some u → u.phase = .found → u.ac.acBEx.feGroup = t.ac.acBEx.feGroup →
        u.ac.acBEx.has c = true → y = x
  unused : ∀ p q pa qa g c, st.pas p = some pa → st.pas q = some qa → pa.Has fs g c →
    qa.Has fs g c → p = q ∨ (st.sb.groups g).bitmapBh c = true
  pending : ∀ g c, st.Pending g c → (st.sb.groups g).bitmapBh c = false ∧
    ∀ p pa, st.pas p = some pa → ¬ pa.Has fs g c
  incore : ∀ g c, (st.sb.groups g).bitmapBh c = true ∨ st.Pending g c ∨
    (∃ p pa, st.pas p = some pa ∧ pa.Has fs g c) → (st.sb.groups g).e4b.bdBitmap c = true

theorem MbInv.oneOwner (h : MbInv fs st) : OneOwner fs st where
  found := fun x t hx hph c hc => by
    have hac := h.ac x t hx
    have hh := (hac.cells _ c).mpr ⟨hph, rfl, hc⟩
    have hlt : c < fs.clustersPerGroup := by
      have := (has_iff_inRange.mp hc).2
      have := (hac.fit hph).2
      omega
    refine ⟨hlt, ?_, fun hp => ?_, fun p pa hp hhas => ?_, ?_, fun y u hy hpu hg hcu => ?_⟩
    · rw [← Bool.not_eq_true, h.books.disk _ c hlt, hh]
      nofun
    · cases hh.symm.trans ((h.books.pend _ c hlt).mp hp)
    · rcases ((h.pa p pa hp).part _ c hhas).cases with h1 | ⟨y, u, hy, hu, h1⟩ | ⟨o, h1⟩ <;>
        cases hh.symm.trans h1
      cases hx.symm.trans hy
      exact hu.1
    · rw [h.books.incore _ c hlt, hh]
      nofun
    · have hh' := ((h.ac y u hy).cells _ c).mpr ⟨hpu, rfl, hcu⟩
      rw [hg, hh] at hh'
      cases hh'
      rfl
  unused := fun p q pa qa g c hp hq hpc hqc => by
    have hlt := (h.pa p pa hp).has_lt hpc
    rcases ((h.pa p pa hp).part g c hpc).cases with h1 | ⟨y, t, hy, ht, h1⟩ | ho
    · rcases ((h.pa q qa hq).part g c hqc).cases with h2 | ⟨z, u, hz, hu, h2⟩ | ho
      · cases h1.symm.trans h2
        exact .inl rfl
      · cases h1.symm.trans h2
      · exact .inr ((h.books.disk g c hlt).mpr ho)
    · rcases ((h.pa q qa hq).part g c hqc).cases with h2 | ⟨z, u, hz, hu, h2⟩ | ho
      · cases h1.symm.trans h2
      · cases h1.symm.trans h2
        cases hy.symm.trans hz
        exact .inl (Option.some.inj (ht.1.symm.trans hu.1))
      · exact .inr ((h.books.disk g c hlt).mpr ho)
    · exact .inr ((h.books.disk g c hlt).mpr ho)
  pending := fun g c hc => by
    obtain ⟨t, ht⟩ := hc
    obtain ⟨hlt, -, hdisk⟩ := h.books.fd.held g c t ht
    exact ⟨hdisk, fun p pa hp => (Loose.not_has h (.inl ((h.books.pend g c hlt).mp ⟨t, ht⟩)) hp)⟩
  incore := fun g c hc => by
    rcases hc with hc | ⟨t, ht⟩ | ⟨p, pa, hp, hhas⟩
    · exact h.books.fd.disk g c hc
    · exact (h.books.fd.held g c t ht).2.1
    · rw [h.books.incore g c ((h.pa p pa hp).has_lt hhas)]
      exact (h.taken hp hhas).1

/-- **No cluster has two owners**, in every run in which blocks are freed
only outside the inode preallocations. -/
theorem run_one_owner (fs : FsLayout) (groups : Nat → GroupState) (owner : Nat → Nat → Owner)
    (hm : ∀ g, Mounted fs (groups g)) (ops : List MbOp)
    (hlegal : MbRunMeets fs (MbOp.Legal fs) ops (MbState.mounted groups owner))
    (hdisc : MbRunMeets fs (MbOp.Discards fs) ops (MbState.mounted groups owner)) (st : MbState)
    (hst : mbRun fs ops (MbState.mounted groups owner) = some st) : OneOwner fs st :=
  (mbRun_spec (mbInv_mounted hm owner) hlegal hdisc hst).oneOwner

/-! ## A preallocation that outlives the blocks -/

/-- A block is allocated for logical block 12 of inode 1, with a
preallocation of the four clusters from 8 on. -/
def handOut : List MbOp :=
  [.newBlocks 0 1 12 1 true none, .regularAllocator 0 ⟨12, 8, 0, 4⟩ 0 8 4, .newPreallocation 0 0,
    .markDiskspaceUsed 0 ⟨true, true⟩, .releaseContext 0, .putPa 0, .finish 0]

/-- The steps meet `P` and lead to `st'`. -/
def MbReaches (fs : FsLayout) (P : MbState → MbOp → Prop) (ops : List MbOp)
    (st st' : MbState) : Prop := MbRunMeets fs P ops st ∧ mbRun fs ops st = some st'

variable {P : MbState → MbOp → Prop}

theorem MbReaches.nil (st : MbState) : MbReaches fs P [] st st :=
  ⟨trivial, rfl⟩

theorem MbReaches.cons {st1 : MbState} (hstep : mbStep fs op st = some st1) (hop : P st op)
    (hrest : MbReaches fs P ops st1 st') : MbReaches fs P (op :: ops) st st' :=
  ⟨⟨hop, fun st' hst' => by cases hstep.symm.trans hst'; exact hrest.1⟩, by
    rw [mbRun, hstep, Option.bind_some, hrest.2]⟩

theorem MbReaches.append {ops' : List MbOp} {st'' : MbState} (h : MbReaches fs P ops st st')
    (h' : MbReaches fs P ops' st' st'') : MbReaches fs P (ops ++ ops') st st'' := by
  induction ops generalizing st with
  | nil =>
    cases h.2
    exact h'
  | cons op ops ih =>
    obtain ⟨st1, heq, hrest⟩ := Option.bind_eq_some_iff.mp h.2
    exact .cons heq h.1.1 (ih ⟨h.1.2 st1 heq, hrest⟩)

theorem MbRunMeets.imp {Q : MbState → MbOp → Prop} (h : MbRunMeets fs P ops st)
    (hPQ : ∀ st op, P st op → Q st op) : MbRunMeets fs Q ops st := by
  induction ops generalizing st with
  | nil => trivial
  | cons op ops ih => exact ⟨hPQ st op h.1, fun st' hst' => ih (h.2 st' hst')⟩

/-- The contract and the condition on frees. -/
def MbOp.Careful (fs : FsLayout) (st : MbState) (op : MbOp) : Prop :=
  op.Legal fs st ∧ op.Discards fs st

def MbState.small : MbState := .mounted (fun _ => .small) fun _ _ => .metadata

/-- What is left of the run: a preallocation whose first cluster is
used. -/
theorem handOut_small : ∃ st,
    MbReaches .small (MbOp.Careful .small) handOut .small st ∧
    (∀ x, st.acs x = none) ∧ st.running = 1 ∧
    st.pas 0 = some ⟨.inodePa 1, 8, 12, 4, 3, 0, false⟩ ∧ (∀ p, st.pas (p + 1) = none) ∧
    (∀ c, c < 8 → st.holder 0 c = .owned .metadata) ∧ st.holder 0 8 = .owned (.data 1 12) ∧
    ∀ g c lc, st.holder g c = .owned (.data 1 lc) → g = 0 ∧ c = 8 := by
  have h : MbInv .small .small := mbInv_mounted (fun _ => mounted_small) fun _ _ => Owner.metadata
  have hfree : ∀ c, InRange 8 4 c →
      Free FsLayout.small.toGeometry (MbState.small.sb.groups 0).e4b.bdBitmap c := by
    intro c hc
    have hlt : c < 16 := Nat.lt_of_lt_of_le hc.2 (by decide)
    refine ⟨hlt, ?_⟩
    rw [← Bool.not_eq_true, h.books.incore 0 c hlt]
    simp [MbState.small, MbState.mounted, GroupState.small, Nat.not_lt.mpr hc.1]
  obtain ⟨ret, e4b, heq, -⟩ := mbMarkUsed_spec (h.books.fd.canon 0) (by decide) hfree
  have hsmall : ∀ g c lc, MbState.small.holder g c ≠ .owned (.data 1 lc) := by
    intro g c lc heq
    have : MbState.small.holder g c = if decide (c < 8) then .owned .metadata else .free := rfl
    rw [this] at heq
    split at heq
    · cases heq
    · cases heq
  refine ⟨_, .cons rfl ⟨⟨Nat.one_pos, fun _ => ⟨nofun,
      fun g c lc _ _ => hsmall g c lc⟩, nofun⟩, trivial⟩ <|
    .cons (congrArg (Option.map _) heq) ⟨⟨by decide, by decide, fun t ht hd => ?_,
      fun c h1 h2 => hfree c ⟨h1, h2⟩⟩, trivial⟩ <|
    .cons rfl ⟨trivial, trivial⟩ <| .cons rfl ⟨⟨rfl, fun _ _ => rfl⟩, trivial⟩ <|
    .cons rfl ⟨trivial, trivial⟩ <| .cons rfl ⟨trivial, trivial⟩ <|
    .cons rfl ⟨trivial, trivial⟩ <| .nil _, fun x => ?_, rfl, rfl, fun p => rfl,
    fun c hc => ?_, rfl, fun g c lc hc => ?_⟩
  · cases ht
    cases hd
  · cases x with
    | zero => rfl
    | succ x => rfl
  · have hout : ∀ n, Ext4FreeExtent.has ⟨12, 8, 0, n⟩ c = false := fun n =>
      Bool.eq_false_iff.mpr fun hh => absurd (has_iff_inRange.mp hh).1 (Nat.not_le.mpr hc)
    change (if _ ∧ Ext4FreeExtent.has ⟨12, 8, 0, 1⟩ c = true then _
      else if _ ∧ Ext4FreeExtent.has ⟨12, 8, 0, 4⟩ c = true then _
      else if _ ∧ Ext4FreeExtent.has ⟨12, 8, 0, 4⟩ c = true then _
      else if decide (c < 8) = true then _ else _) = _
    simp only [hout, Bool.false_eq_true, and_false, if_false, hc, decide_true, if_true]
  · change (if g = 0 ∧ Ext4FreeExtent.has ⟨12, 8, 0, 1⟩ c = true then
        .owned (.data 1 (12 + (c - 8)))
      else if g = 0 ∧ Ext4FreeExtent.has ⟨12, 8, 0, 4⟩ c = true then
        if Ext4FreeExtent.has ⟨12, 8, 0, 1⟩ c = true then .inflight 0 else .prealloc 0
      else if g = 0 ∧ Ext4FreeExtent.has ⟨12, 8, 0, 4⟩ c = true then .inflight 0
      else MbState.small.holder g c) = Holder.owned _ at hc
    split_ifs at hc with h1
    · have hr : InRange 8 1 c := has_iff_inRange.mp h1.2
      have := hr.1
      have := hr.2
      exact ⟨h1.1, by omega⟩
    · exact absurd hc (hsmall g c lc)

theorem MbReaches.inv {st : MbState}
    (h : MbReaches .small (MbOp.Careful .small) ops .small st) : MbInv .small st :=
  mbRun_spec (mbInv_mounted (fun _ => mounted_small) _) (h.1.imp fun _ _ hc => hc.1)
    (h.1.imp fun _ _ hc => hc.2) h.2

theorem mbStep_freeSection (h : freeSection fs rb (some st.running) st.sb g bit n = some sb') :
    mbStep fs (.freeSection rb true g bit n) st
      = some ({ st with sb := sb' }.give g (fun c => bit ≤ c && c < bit + n) fun _ =>
        .pending) := by
  rw [mbStep, if_pos rfl, if_pos rfl, h]
  rfl

/-- Metadata is freed next to the preallocation. -/
theorem run_one_owner_small : ∃ st,
    mbRun .small (handOut ++ [.freeSection (.spine _) true 0 4 2]) .small = some st ∧
      OneOwner .small st := by
  obtain ⟨st, hreach, hacs, -, hp, hno, hmeta, -⟩ := handOut_small
  have h := hreach.inv
  have hrange : ∀ c, InRange 4 2 c → c < 8 := fun c hc => Nat.lt_of_lt_of_le hc.2 (by decide)
  obtain ⟨sb', hsb, -⟩ := h.books.fd.freeSection_some (.spine _) Nat.two_pos
    (show 4 + 2 ≤ FsLayout.small.clustersPerGroup by decide) fun c hc =>
      (h.books.disk 0 c (Nat.lt_of_lt_of_le (hrange c hc) (by decide))).mpr
        ⟨_, hmeta c (hrange c hc)⟩
  obtain ⟨st', hrun⟩ : ∃ st', MbReaches .small (MbOp.Careful .small)
      (handOut ++ [.freeSection (.spine _) true 0 4 2]) .small st' := by
    refine ⟨_, hreach.append (.cons (mbStep_freeSection hsb) ⟨⟨Nat.two_pos, by decide,
      fun c h1 h2 => ⟨⟨_, hmeta c (hrange c ⟨h1, h2⟩)⟩, fun x t hx => ?_⟩⟩,
      fun c h1 h2 p pa inode hpa _ hhas => ?_⟩ (.nil _))⟩
    · rw [hacs] at hx
      cases hx
    · cases p with
      | zero =>
        cases hp.symm.trans hpa
        have h8 : 8 ≤ c := hhas.2.1
        omega
      | succ p => exact nomatch (hno p).symm.trans hpa
  exact ⟨st', hrun.2, run_one_owner .small _ _ (fun _ => mounted_small) _
    (hrun.1.imp fun _ _ hc => hc.1) (hrun.1.imp fun _ _ hc => hc.2) _ hrun.2⟩

/-- The cluster is used on disk, pending, preallocated or found by a thread. -/
def MbState.Accounted (fs : FsLayout) (st : MbState) (g c : Nat) : Prop :=
  (st.sb.groups g).bitmapBh c = true ∨ st.Pending g c
    ∨ (∃ p pa, st.pas p = some pa ∧ pa.Has fs g c)
    ∨ ∃ x t, st.acs x = some t ∧ t.phase = .found ∧ g = t.ac.acBEx.feGroup
      ∧ t.ac.acBEx.has c = true

/-- **No cluster is lost** in such a run. -/
theorem run_loses_none {groups : Nat → GroupState} {owner : Nat → Nat → Owner}
    (hm : ∀ g, Mounted fs (groups g))
    (hrun : MbReaches fs (MbOp.Careful fs) ops (.mounted groups owner) st)
    (hc : c < fs.clustersPerGroup) (hb : (st.sb.groups g).e4b.bdBitmap c = true) :
    st.Accounted fs g c := by
  have h := mbRun_spec (mbInv_mounted hm owner) (hrun.1.imp fun _ _ hc => hc.1)
    (hrun.1.imp fun _ _ hc => hc.2) hrun.2
  rw [h.books.incore g c hc] at hb
  rw [MbState.Accounted, h.books.disk g c hc, MbState.Pending, h.books.pend g c hc]
  cases hh : st.holder g c with
  | free => exact absurd hh hb
  | owned o => exact .inl ⟨o, rfl⟩
  | pending => exact .inr (.inl rfl)
  | prealloc p =>
    cases hp : st.pas p with
    | none => exact absurd hh ((h.noPa p hp).cells g c)
    | some pa => exact .inr (.inr (.inl ⟨p, pa, hp, (h.pa p pa hp).own g c hh⟩))
  | inflight x =>
    cases hx : st.acs x with
    | none => exact absurd hh (h.noAc x hx g c)
    | some t => exact .inr (.inr (.inr ⟨x, t, hx, ((h.ac x t hx).cells g c).mp hh⟩))

theorem run_loses_none_small : ∃ st, mbRun .small handOut .small = some st ∧
    st.Accounted .small 0 11 := by
  obtain ⟨st, hreach, -, -, hp, -⟩ := handOut_small
  exact ⟨st, hreach.2, run_loses_none (fun _ => mounted_small) hreach (by decide)
    (hreach.inv.oneOwner.incore 0 11 (.inr (.inr ⟨0, _, hp, by decide, by decide, by decide⟩)))⟩

/-- The block of the file is freed while its preallocation stays, as
`ext4_alloc_branch` does when the indirect block above it cannot be had, and
the next request for the same
logical block gets it again although it is still pending. -/
theorem freed_block_handed_out : ∃ st t,
    MbRunMeets .small (MbOp.Legal .small) (handOut ++ [.freeSection (.spine _) true 0 8 1,
      .newBlocks 0 1 12 1 true none, .useInodePa 0 0]) .small ∧
    mbRun .small (handOut ++ [.freeSection (.spine _) true 0 8 1,
      .newBlocks 0 1 12 1 true none, .useInodePa 0 0]) .small = some st ∧
    st.acs 0 = some t ∧ t.phase = .found ∧ t.ac.acBEx.feGroup = 0 ∧ t.ac.acBEx.has 8 = true ∧
    st.Pending 0 8 ∧ ¬ OneOwner .small st := by
  obtain ⟨st, hreach, hacs, hrun, hp, -, -, hown, honly⟩ := handOut_small
  have h := hreach.inv
  have hrange : ∀ c, InRange 8 1 c → c = 8 := fun c hc => Nat.le_antisymm (Nat.le_of_lt_succ hc.2)
    hc.1
  obtain ⟨sb', hsb, -, hcells, -⟩ := h.books.fd.freeSection_some (.spine _) Nat.one_pos
    (show 8 + 1 ≤ FsLayout.small.clustersPerGroup by decide) fun c hc => by
      rw [hrange c hc]
      exact (h.books.disk 0 8 (by decide)).mpr ⟨_, hown⟩
  have hpending : ∃ t, (0, 8, t) ∈ cellsOf (st.cut ++ sb'.sFreedDataList) := by
    refine ⟨st.running, ?_⟩
    rw [cellsOf_append, List.mem_append, hcells.mem_iff, List.mem_append]
    exact .inr (.inr (mem_cells.mpr ⟨rfl, rfl, Nat.le_refl 8, Nat.lt_succ_self 8⟩))
  -- the freed block, and the request that comes back for it
  let st1 := ({ st with sb := sb' } : MbState).give 0 (fun c => 8 ≤ c && c < 8 + 1)
    fun _ => .pending
  let st2 := st1.setAc 0 (some ⟨ext4MbInitializeContext .small 1 12 1 true none, .start⟩)
  have hnew : mbStep .small (.newBlocks 0 1 12 1 true none) st1 = some st2 := by
    rw [mbStep, show st1.acs 0 = none from hacs 0]
  obtain ⟨st3, t, huse, ht, hph, hg, hhas, hsame⟩ : ∃ st3 t,
      mbStep .small (.useInodePa 0 0) st2 = some st3 ∧ st3.acs 0 = some t ∧ t.phase = .found ∧
      t.ac.acBEx.feGroup = 0 ∧ t.ac.acBEx.has 8 = true ∧
      st3.cut ++ st3.sb.sFreedDataList = st.cut ++ sb'.sFreedDataList := by
    rw [mbStep, acStep, show st2.acs 0 = some _ from rfl]
    dsimp only
    rw [show st2.pas 0 = some _ from hp]
    exact ⟨_, _, rfl, rfl, rfl, rfl, rfl, rfl⟩
  have hreach' : MbReaches .small (MbOp.Legal .small)
    (handOut ++ [.freeSection (.spine _) true 0 8 1,
      .newBlocks 0 1 12 1 true none, .useInodePa 0 0]) .small st3 := by
    have hlegal : MbReaches .small (MbOp.Legal .small) handOut .small st :=
      ⟨hreach.1.imp fun _ _ hc => hc.1, hreach.2⟩
    refine hlegal.append (.cons (mbStep_freeSection hsb) ⟨Nat.one_pos, by decide,
      fun c h1 h2 => ⟨⟨.data 1 12, by rw [hrange c ⟨h1, h2⟩]; exact hown⟩, fun x t hx => ?_⟩⟩ <|
      .cons hnew ⟨Nat.one_pos, fun _ => ⟨fun y t hy => ?_, fun g c lc _ _ hc => ?_⟩,
        nofun⟩ <| .cons huse trivial <| .nil _)
    · exact nomatch (hacs x).symm.trans hx
    · exact nomatch (hacs y).symm.trans hy
    · rw [holder_give_range] at hc
      split at hc
      · cases hc
      · rename_i hne
        obtain ⟨rfl, rfl⟩ := honly g c lc hc
        exact hne ⟨rfl, by decide⟩
  have hpend : st3.Pending 0 8 := by
    rw [MbState.Pending, hsame]
    exact hpending
  refine ⟨st3, t, hreach'.1, hreach'.2, ht, hph, hg, hhas, hpend, fun hone => ?_⟩
  have := (hone.found 0 t ht hph 8 hhas).2.2.1
  rw [hg] at this
  exact this hpend

end Ext4.Mballoc
