import Ext4.Mballoc.PreallocSteps

/-!
# Multiblock allocator — sections that let preallocations go

The references of threads end in `ext4_mb_release_context`; a preallocation
nobody refers to is used up and dropped, or discarded and released to the
buddy.
-/

namespace Ext4.Mballoc

open Bitmap Dyadic SearchTree

variable {fs : FsLayout} {st : MbState}

/-! ## The end of a reference -/

variable {g x : Nat}

theorem AcInv.nofly {t : AcThread} (h : AcInv fs st x t) (hph : t.phase ≠ .found)
    (g c : Nat) : st.holder g c ≠ .inflight x := fun hc => hph ((h.cells g c).mp hc).1

variable {ac : Ext4AllocationContext} {pa : Ext4PreallocSpace} {st' : MbState}

/-- The first section of `ext4_mb_release_context`. -/
theorem MbInv.releaseContext (h : MbInv fs st) {p : Nat} (hx : st.acs x = some ⟨ac, .closing⟩)
    (hapa : ac.acPa = some p) (hp : st.pas p = some pa)
    (hst' : st' = (st.setAc x (some ⟨ac, .released⟩)).setPa p (some (advancePa fs ac pa))) :
    MbInv fs st' := by
  have hinv := h.ac x _ hx
  have hnofly := hinv.nofly nofun
  have hxp : AcThread.Holds ⟨ac, .closing⟩ p := ⟨hapa, .inr (.inl rfl)⟩
  obtain ⟨pa0, hp0, hcount, hlive, hlink, hpinv, hoff, -, hdrops⟩ := h.held hx hxp
  cases hp.symm.trans hp0
  obtain ⟨hsets, hpasp⟩ := Sets.pa hst'
  have hholder : st'.holder = st.holder := by rw [hst']; rfl
  have hlist : st'.bbPreallocList = st.bbPreallocList := by rw [hst']; rfl
  have hxp' : AcThread.Holds ⟨ac, .released⟩ p := ⟨hapa, .inr (.inr rfl)⟩
  obtain ⟨hcount', hlive', htype'⟩ : (advancePa fs ac pa).paCount = 1 ∧
      (advancePa fs ac pa).paDeleted = false ∧ (advancePa fs ac pa).paType = pa.paType := by
    unfold advancePa
    split <;> exact ⟨hcount, hlive, rfl⟩
  refine h.user hx (fun q hq => ⟨hq, .inr (.inl rfl)⟩) (hsets.mono fun q hq => hq ▸ hapa)
    ⟨rfl, rfl, rfl⟩ rfl hlist (fun _ _ => .inl (by rw [hholder]))
    (h.books.recast hsets.run (by rw [hst']; rfl) fun _ _ => .inl (by rw [hholder])) ?_
      fun q hq => ?_
  · refine hinv.past rfl (by rw [hholder]; exact hnofly) (by simp) (by simp) (by simp)
      (fun q hq => ?_) fun q hq => by cases hq.2
    cases Option.some.inj (hapa.symm.trans hq.1)
    refine ⟨_, hpasp, hcount', hlive', ?_⟩
    unfold Link at hlink ⊢
    rw [htype']
    split at hlink
    · exact ⟨hlink.1, hlink.2.1, by simp⟩
    · exact ⟨hlink.1, fun hh => by rcases hh with hh | hh <;> cases hh⟩
  cases Option.some.inj (hapa.symm.trans hq)
  refine ⟨_, hpasp, ?_⟩
  obtain ⟨g, s, hplace, hl⟩ := hpinv.place
  cases htype : pa.paType with
  | inodePa i =>
    have hadv : advancePa fs ac pa = pa := by rw [advancePa, htype]
    rw [hadv]
    refine PaInv.inUse hsets hxp' hdrops hoff ⟨g, s, hplace, by rw [hlist, hsets.grp]; exact hl⟩
      hcount hlive (by rw [hholder]; exact hpinv.own) (fun g' c hc => ?_)
      (hpinv.left.congr fun _ _ _ => by rw [hholder])
    rw [Part, hholder]
    rcases h.part_rest hx hxp hp hc (hnofly g' c) with h1 | h1 | ⟨lg, hlg, -⟩
    · exact .inl h1
    · exact .inr (.inr (.inl h1))
    · cases htype.symm.trans hlg
  | groupPa lg =>
    have hadv : advancePa fs ac pa = { pa with
        paPstart := pa.paPstart + fs.c2b ac.acBEx.feLen
        paLstart := pa.paLstart + fs.c2b ac.acBEx.feLen
        paFree := pa.paFree - ac.acBEx.feLen
        paLen := pa.paLen - ac.acBEx.feLen } := by
      rw [advancePa, htype]
    rw [Link, htype] at hlink
    obtain ⟨hle, hat⟩ := hlink.2 (.inr rfl)
    dsimp only at hle hat
    have hpos := hplace.pos
    have hfit := hplace.fit
    have hplace' : PaPlace fs (advancePa fs ac pa) g (s + ac.acBEx.feLen) := by
      rw [hadv]
      refine ⟨?_, by dsimp only; omega, by dsimp only; omega⟩
      rw [hplace.eq, FsLayout.grpOffsToBlock, FsLayout.grpOffsToBlock, FsLayout.c2b,
        FsLayout.c2b, FsLayout.c2b, Nat.add_mul, Nat.add_assoc]
    have hlen' : (advancePa fs ac pa).paLen = pa.paLen - ac.acBEx.feLen := by rw [hadv]
    -- the clusters in front are marked
    have hfront : ∀ c, s ≤ c → c < s + ac.acBEx.feLen →
        ac.acBEx.feGroup = g ∧ ac.acBEx.has c = true := fun c h1 h2 => by
      obtain ⟨h3, h4⟩ := hplace.start (by omega)
      obtain ⟨h5, h6⟩ := hat (by omega)
      exact ⟨h5.trans h3, has_iff_inRange.mpr ⟨by omega, by omega⟩⟩
    refine PaInv.inUse hsets hxp' hdrops hoff ⟨g, _, hplace', by rw [hlist, hsets.grp]; exact hl⟩
      hcount' hlive' (fun g' c hc => ?_) (fun g' c hc => ?_) ?_
    · rw [hholder] at hc
      obtain ⟨h1, h2, h3⟩ := (hplace.has_iff g' c).mp (hpinv.own g' c hc)
      rw [hplace'.has_iff, hlen']
      refine ⟨h1, ?_, by omega⟩
      by_contra hlt
      obtain ⟨h4, h5⟩ := hfront c h2 (by omega)
      obtain ⟨o, h6⟩ := hinv.marked rfl c h5
      rw [h4, ← h1, hc] at h6
      cases h6
    · rw [hplace'.has_iff, hlen'] at hc
      rw [Part, hholder]
      rcases h.part_rest hx hxp hp ((hplace.has_iff g' c).mpr ⟨hc.1, by omega, by omega⟩)
        (hnofly g' c) with h1 | ⟨i, hi, -⟩ | ⟨-, -, -, h1⟩
      · exact .inl h1
      · cases htype.symm.trans hi
      · have := has_iff_inRange.mp h1
        dsimp only at this
        obtain ⟨h3, h4⟩ := hplace.start (by omega)
        have h5 := this.1
        have h6 := this.2
        obtain ⟨h7, h8⟩ := hat (by omega)
        omega
    · have hleft := hpinv.left
      rw [FreeCount, htype] at hleft
      rw [FreeCount, htype', htype, hadv]
      dsimp only at hleft ⊢
      omega

/-- The first section of `ext4_mb_put_pa`. -/
theorem MbInv.putPa (h : MbInv fs st) {p : Nat} (hx : st.acs x = some ⟨ac, .released⟩)
    (hapa : ac.acPa = some p) (hp : st.pas p = some pa)
    (hst' : st' = (st.setAc x (some ⟨ac, if (ext4MbPutPa pa).2 then .dropping else .done⟩)).setPa p
      (some (ext4MbPutPa pa).1)) : MbInv fs st' := by
  have hinv := h.ac x _ hx
  have hnofly := hinv.nofly nofun
  have hxp : AcThread.Holds ⟨ac, .released⟩ p := ⟨hapa, .inr (.inr rfl)⟩
  obtain ⟨pa0, hp0, hcount, hlive, -, hpinv, ⟨ho, hg⟩, huniq, hdrops⟩ := h.held hx hxp
  cases hp.symm.trans hp0
  -- the last reference goes: the preallocation is dropped if it is used up
  obtain ⟨hput1, hput2⟩ : (ext4MbPutPa pa).1 = { pa with
      paCount := 0, paDeleted := (ext4MbPutPa pa).2 } ∧
      ((ext4MbPutPa pa).2 = true ↔ pa.paFree = 0) := by
    unfold ext4MbPutPa
    rw [hcount, hlive]
    by_cases h0 : pa.paFree = 0
    · simp [h0]
    · simp [h0]
  generalize (ext4MbPutPa pa).1 = pa' at hst' hput1
  generalize hd : (ext4MbPutPa pa).2 = d at hst' hput1 hput2
  generalize ht' : (⟨ac, if d then .dropping else .done⟩ : AcThread) = t' at hst'
  have hpa : t'.ac = ac := by rw [← ht']
  have hphase : t'.phase = if d then .dropping else .done := by rw [← ht']
  have hnohold : ∀ q, ¬ t'.Holds q := by
    rintro q ⟨-, hq⟩
    rw [hphase] at hq
    cases d <;> simp at hq
  have hdrop : t'.Drops p → d = true := by
    rintro ⟨-, hq⟩
    rw [hphase] at hq
    cases d
    · simp at hq
    · rfl
  obtain ⟨hsets, hpasp⟩ := Sets.pa hst'
  have hholder : st'.holder = st.holder := by rw [hst']; rfl
  have hlist : st'.bbPreallocList = st.bbPreallocList := by rw [hst']; rfl
  refine h.user hx (fun q hq => ⟨hq, .inr (.inr rfl)⟩) (hsets.mono fun q hq => hq ▸ hapa)
    (by rw [AcThread.SameKeys, hpa]; exact ⟨rfl, rfl, rfl⟩) (by rw [hpa]) hlist
    (fun _ _ => .inl (by rw [hholder]))
    (h.books.recast hsets.run (by rw [hst']; rfl) fun _ _ => .inl (by rw [hholder])) ?_
      fun q hq => ?_
  · have hne : t'.phase ≠ .start ∧ t'.phase ≠ .found ∧ t'.phase ≠ .closing := by
      rw [hphase]
      cases d <;> simp
    refine hinv.past (by rw [hpa]) (by rw [hholder]; exact hnofly) hne.1 hne.2.1
      (fun hh => absurd hh hne.2.2) (fun q hq => absurd hq (hnohold q)) fun q hq => ?_
    obtain rfl := Option.some.inj (hapa.symm.trans (hpa ▸ hq.1))
    refine ⟨pa', hpasp, ?_, ?_⟩
    · rw [hput1]
      exact hput2.mp (hdrop hq)
    · rw [hput1]
      exact hdrop hq
  cases Option.some.inj (hapa.symm.trans hq)
  have hback : ∀ y u, st'.acs y = some u → y = x ∧ u = t' ∨ y ≠ x ∧ st.acs y = some u := by
    intro y u hy
    by_cases heq : y = x
    · exact .inl ⟨heq, Option.some.inj ((heq ▸ hy).symm.trans hsets.self)⟩
    · exact .inr ⟨heq, (hsets.acs y heq).symm.trans hy⟩
  have hyx : ∀ z v, st'.acs z = some v → v.Drops p → z = x := by
    intro z v hz hv
    rcases hback z v hz with ⟨hzx, -⟩ | ⟨-, hold⟩
    · exact hzx
    · exact absurd hv (hdrops z v hold)
  have hhas : ∀ g' c, pa'.Has fs g' c ↔ pa.Has fs g' c := fun g' c => by rw [hput1]; rfl
  have hleft := hpinv.left
  refine ⟨pa', hpasp, ?_, fun g' c hc => ?_, fun g' c hc => ?_, .inr ⟨by rw [hput1], ?_⟩,
    fun _ => by rw [hput1], ?_, ?_, fun y u hy hdr => ?_, fun _ hno => ?_, ?_⟩
  · obtain ⟨g0, s0, hpl, hl⟩ := hpinv.place
    rw [hlist, hsets.grp, hput1]
    exact ⟨g0, s0, ⟨hpl.eq, hpl.fit, hpl.pos⟩, hl⟩
  · rw [hholder] at hc
    exact (hhas g' c).mpr (hpinv.own g' c hc)
  · rw [Part, hholder]
    rcases h.part_rest hx hxp hp ((hhas g' c).mp hc) (hnofly g' c) with h1 | ⟨i, hi, h1⟩ |
      ⟨-, -, h1, -⟩
    · exact .inl h1
    · rw [hput1]
      exact .inr (.inr (.inl ⟨i, hi, h1⟩))
    · cases h1
  · intro y u hy hu
    rcases hback y u hy with ⟨-, rfl⟩ | ⟨hne, hold⟩
    · exact hnohold p hu
    · exact hne (huniq y u hold hu)
  · rw [hsets.obj, hsets.grp]
    exact fun hh => (hh.elim ho hg).elim
  · rw [hsets.obj]
    exact fun hh => absurd hh ho
  · rw [hsets.obj, hsets.grp]
    exact ⟨ho, hg, fun z v hz hv => (hyx z v hz hv).trans (hyx y u hy hdr).symm⟩
  · rw [hput1]
    unfold FreeCount at hleft
    split at hleft
    · exact hleft.1
    · by_contra h0
      have hd' : d = true := hput2.mpr (by dsimp only at h0; omega)
      refine hno x t' hsets.self ⟨by rw [hpa]; exact hapa, ?_⟩
      rw [hphase, hd', if_pos rfl]
  · rw [hput1]
    exact hleft.congr fun _ _ _ => by rw [hholder]

theorem nodup_update_erase {l : Nat → List Nat} (h : ∀ g, (l g).Nodup) (g p g' : Nat) :
    (Function.update l g ((l g).erase p) g').Nodup := by
  by_cases hg : g' = g
  · rw [hg, Function.update_self]
    exact (h g).erase p
  · rw [Function.update_of_ne hg]
    exact h g'

variable {p : Nat}

theorem PaInv.has_lt (h : PaInv fs st p pa) {c : Nat} (hc : pa.Has fs g c) :
    c < fs.clustersPerGroup := by
  obtain ⟨g', s, hplace, -⟩ := h.place
  have := ((hplace.has_iff g c).mp hc).2.2
  have := hplace.fit
  omega

theorem PaInv.not_holds (h : PaInv fs st p pa) (hdel : pa.paDeleted = true) :
    ∀ y u, st.acs y = some u → ¬ u.Holds p := by
  rcases h.count with ⟨h1, -⟩ | ⟨-, hno⟩
  · exact nomatch (h.idle hdel).symm.trans h1
  · exact hno

section

variable (h : MbInv fs st)

include h

/-- The rest of `ext4_mb_put_pa`: a preallocation that is used up has no
clusters of its own. -/
theorem MbInv.unlinkPa {p : Nat} (hx : st.acs x = some ⟨ac, .dropping⟩) (hapa : ac.acPa = some p)
    (hp : st.pas p = some pa)
    (hst' : st' = ((st.setAc x (some ⟨ac, .done⟩)).unlinkPa (putPaGroup fs pa) p).setPa p none) :
    MbInv fs st' := by
  have hinv := h.ac x _ hx
  have hpinv := h.pa p pa hp
  have hxp : AcThread.Drops ⟨ac, .dropping⟩ p := ⟨hapa, rfl⟩
  obtain ⟨pa0, hp0, hfree, hdel⟩ := hinv.drops p hxp
  cases hp.symm.trans hp0
  obtain ⟨ho, hg, huniq⟩ := hpinv.dropped x _ hx hxp
  obtain ⟨g, s, hplace, hl⟩ := hpinv.place
  have hleft := hpinv.left
  have hempty : ∀ g' c, st.holder g' c ≠ .prealloc p := by
    intro g' c hc
    have hhas := hpinv.own g' c hc
    unfold FreeCount at hleft
    split at hleft
    · obtain ⟨h1, h2, h3⟩ := hhas
      obtain ⟨j, rfl⟩ := Nat.exists_eq_add_of_le h2
      have := cnt_pos (p := fun k => st.holder (fs.groupNo pa.paPstart)
        (fs.groupOffset pa.paPstart + k) = .prealloc p) (show j < pa.paLen by omega)
        (by rw [h1]; exact hc)
      omega
    · obtain ⟨-, h2, h3⟩ := hhas
      omega
  have hgroup : putPaGroup fs pa = g := by
    refine hplace.putPaGroup_eq (fun lg hlg => ?_) fun i hi => ?_
    · rw [FreeCount, hlg] at hleft
      omega
    · rw [FreeCount, hi] at hleft
      omega
  obtain ⟨hsets, hpasp⟩ := Sets.pa hst'
  have hholder : st'.holder = st.holder := by rw [hst']; rfl
  have hlist : ∀ q g', q ∈ st'.bbPreallocList g' ↔ ¬ (g' = g ∧ q = p) ∧
      q ∈ st.bbPreallocList g' := fun q g' => by
    rw [hst', hgroup]
    exact mem_unlinkPa st p q g g' (h.lists g)
  refine h.thread hx hsets (fun u hu => by cases hu; exact ⟨rfl, rfl, rfl⟩) ?_ ?_
    (fun q hq g' => ?_)
    (fun _ _ => .inl (by rw [hholder]))
    (h.books.recast hsets.run (by rw [hst']; rfl) fun _ _ => .inl (by rw [hholder]))
      (fun u hu => ?_)
    (by simp) ?_ ?_ (by rw [hst']; exact nodup_update_erase h.lists _ _)
  · rintro q (hq | ⟨u, hu, hq⟩)
    · exact (Option.some.inj (hapa.symm.trans hq.acPa)).symm
    · cases hu
      exact absurd hq not_uses_done
  · rintro y u q hy hu hq rfl
    exact hq.elim (hpinv.not_holds hdel y u hu) fun hq => hy (huniq y u hu hq)
  · rw [hlist]
    exact and_iff_right fun hh => hq hh.2
  · cases hu
    exact hinv.past rfl (by rw [hholder]; exact hinv.nofly (by simp)) (by simp) (by simp) (by simp)
      (fun q hq => absurd (.inl hq) not_uses_done) fun q hq => absurd (.inr hq) not_uses_done
  · rintro q pa' rfl hq
    cases hpasp.symm.trans hq
  · rintro q rfl -
    refine ⟨fun g' c => by rw [hholder]; exact hempty g' c, fun g' hmem => ?_,
      by rw [hsets.obj]; exact ho, by rw [hsets.grp]; exact hg⟩
    rw [hlist, hl] at hmem
    exact hmem.1 ⟨hmem.2.1, rfl⟩

/-! ## Discarding -/

/-- A section of a thread that discards the preallocation `p`. -/
theorem MbInv.discard (hacs : st'.acs = st.acs) (hno : ∀ y u, st.acs y = some u → ¬ u.Uses p)
    (hpas : ∀ q, q ≠ p → st'.pas q = st.pas q)
    (hlist : ∀ q, q ≠ p → ∀ g, q ∈ st'.bbPreallocList g ↔ q ∈ st.bbPreallocList g)
    (hobj : ∀ q, q ≠ p → (q ∈ st'.objDiscard ↔ q ∈ st.objDiscard))
    (hgrp : ∀ q, q ≠ p → (q ∈ st'.grpDiscard ↔ q ∈ st.grpDiscard))
    (hcell : ∀ g c, st'.holder g c = st.holder g c ∨ MovesTo st (fun _ => False) (· = p) (st.holder
      g c) (st'.holder g c)) (hbooks : Books fs st')
    (hpa : ∀ pa, st'.pas p = some pa → PaInv fs st' p pa) (hnoPa : st'.pas p = none → NoPa st' p)
    (hnd : NodupLists st') : MbInv fs st' := by
  have hframe : Frame st st' (fun _ => False) (· = p) :=
    ⟨fun _ _ => by rw [hacs], hpas, hlist, hobj, hgrp, fun _ _ _ => False.elim,
      fun y u q _ hu hq hqp => hno y u hu (hqp ▸ hq)⟩
  refine h.touch (hframe.touches h hcell) hbooks (fun _ _ => False.elim) (fun _ => False.elim) ?_ ?_
    ⟨by rw [hacs]; exact h.inodes, by rw [hacs]; exact h.lgs⟩ hnd
  · rintro q pa rfl hq
    exact hpa pa hq
  · rintro q rfl hq
    exact hnoPa hq

section

variable (hp : st.pas p = some pa) (hcount : pa.paCount = 0) (hlive : pa.paDeleted = false)

include hp hcount hlive

/-- Nobody refers to a preallocation without references that is not yet
marked. -/
theorem MbInv.unused : ∀ y u, st.acs y = some u → ¬ u.Uses p := by
  rintro y u hy (hu | hu)
  · obtain ⟨pa', hp', h1, -⟩ := (h.ac y u hy).holds p hu
    cases hp.symm.trans hp'
    omega
  · exact (h.live hp hlive).2.2 y u hy hu

/-- `ext4_discard_preallocations` and `ext4_mb_discard_lg_preallocations`
mark a preallocation. -/
theorem MbInv.discardPa : MbInv fs { st.setPa p (some { pa with paDeleted := true }) with
      objDiscard := p :: st.objDiscard } := by
  have hpinv := h.pa p pa hp
  have hno := h.unused hp hcount hlive
  obtain ⟨ho, hg, -⟩ := h.live hp hlive
  have hpas : ∀ q, q ≠ p → (st.setPa p (some { pa with paDeleted := true })).pas q = st.pas q :=
    fun q hq => (pas_setPa ..).trans (if_neg hq)
  have hpasp : (st.setPa p (some { pa with paDeleted := true })).pas p
      = some { pa with paDeleted := true } := (pas_setPa ..).trans (if_pos rfl)
  refine h.discard rfl hno hpas (fun _ _ _ => Iff.rfl) (fun q hq => ?_) (fun _ _ => Iff.rfl)
    (fun _ _ => .inl rfl) (h.books.recast ⟨rfl, rfl, rfl, rfl⟩ rfl fun _ _ => .inl rfl)
    (fun pa' hpa' => ?_) (fun hnone => ?_) ⟨h.lists, List.nodup_cons.mpr ⟨ho, h.objs⟩, h.grps⟩
  · simp [hq]
  · rw [show MbState.pas _ p = _ from hpasp] at hpa'
    cases hpa'
    obtain ⟨g0, s0, hpl, hl⟩ := hpinv.place
    exact
      { place := ⟨g0, s0, ⟨hpl.eq, hpl.fit, hpl.pos⟩, hl⟩
        own := hpinv.own
        part := hpinv.part
        count := hpinv.count
        idle := fun _ => hcount
        listed := fun _ => rfl
        apart := fun _ => hg
        dropped := fun y u hy hu => absurd (.inr hu) (hno y u hy)
        alive := hpinv.alive
        left := hpinv.left }
  · cases hpasp.symm.trans hnone

/-- `ext4_mb_discard_group_preallocations` moves a preallocation to its own
list. -/
theorem MbInv.pickGroupPa (hmem : p ∈ st.bbPreallocList g) :
    MbInv fs { (st.setPa p (some { pa with paDeleted := true })).unlinkPa g p with
      grpDiscard := p :: st.grpDiscard } := by
  have hpinv := h.pa p pa hp
  have hno := h.unused hp hcount hlive
  obtain ⟨ho, hg, -⟩ := h.live hp hlive
  generalize hst' : ({ (st.setPa p (some { pa with paDeleted := true })).unlinkPa g p with
      grpDiscard := p :: st.grpDiscard } : MbState) = st'
  have hpas : ∀ q, st'.pas q = if q = p then some { pa with paDeleted := true } else st.pas q := by
    rw [← hst']
    exact fun q => pas_setPa ..
  have hlist : ∀ q g', q ∈ st'.bbPreallocList g' ↔ ¬ (g' = g ∧ q = p) ∧
      q ∈ st.bbPreallocList g' := fun q g' => by
    rw [← hst']
    exact mem_unlinkPa st p q g g' (h.lists g)
  have hgrp : st'.grpDiscard = p :: st.grpDiscard := by rw [← hst']
  have hobj : st'.objDiscard = st.objDiscard := by rw [← hst']; rfl
  have hholder : st'.holder = st.holder := by rw [← hst']; rfl
  have hacs : st'.acs = st.acs := by rw [← hst']; rfl
  refine h.discard hacs hno (fun q hq => by rw [hpas, if_neg hq]) (fun q hq g' => ?_)
    (fun _ _ => by rw [hobj]) (fun q hq => by rw [hgrp]; simp [hq])
    (fun _ _ => .inl (by rw [hholder])) (h.books.recast (by rw [← hst']; exact ⟨rfl, rfl, rfl, rfl⟩)
      (by rw [← hst']; rfl) fun _ _ => .inl (by rw [hholder])) (fun pa' hpa' => ?_)
    (fun hnone => ?_)
      ⟨by rw [← hst']; exact nodup_update_erase h.lists _ _, by rw [hobj]; exact h.objs,
      by rw [hgrp]; exact List.nodup_cons.mpr ⟨hg, h.grps⟩⟩
  · rw [hlist]
    exact and_iff_right fun hh => hq hh.2
  · rw [hpas, if_pos rfl] at hpa'
    cases hpa'
    obtain ⟨g0, s0, hpl, hl⟩ := hpinv.place
    have hgg : g = g0 := ((hl g).mp hmem).1
    refine ⟨⟨g0, s0, ⟨hpl.eq, hpl.fit, hpl.pos⟩, fun g' => ?_⟩, by rw [hholder]; exact hpinv.own,
      fun g' c hc => ?_, by rw [hacs]; exact hpinv.count, fun _ => hcount, fun _ => rfl, ?_,
      fun y u hy hu => ?_, by rw [hacs]; exact hpinv.alive,
      FreeCount.congr hpinv.left fun _ _ _ => by rw [hholder]⟩
    · rw [hlist, hl, hgrp]
      exact ⟨fun hh => absurd ⟨hh.2.1.trans hgg.symm, rfl⟩ hh.1,
        fun hh => absurd List.mem_cons_self hh.2⟩
    · rw [Part, hholder, hacs]
      exact hpinv.part g' c hc
    · rw [hobj]
      exact fun hh => absurd hh ho
    · rw [hacs] at hy
      exact absurd (.inr hu) (hno y u hy)
  · rw [hpas, if_pos rfl] at hnone
    cases hnone

end

/-- The release of a discarded preallocation frees what is left of it. -/
theorem MbInv.releasePa_spec {s p : Nat} (hp : st.pas p = some pa) (hdel : pa.paDeleted = true)
    (hplace : PaPlace fs pa g s) (hlen : 0 < pa.paLen) {grp : GroupState}
    (hr : releasePa fs g (st.sb.groups g) pa = some grp) :
    ∃ e4b, grp = { st.sb.groups g with e4b := e4b } ∧ Canon fs.toGeometry e4b ∧
      e4b.bdInfo.bbitmapCorrupt = false ∧ ∀ c, e4b.bdBitmap c
        = if st.holder g c = .prealloc p then false else (st.sb.groups g).e4b.bdBitmap c := by
  have hpinv := h.pa p pa hp
  have hcanon := h.books.fd.canon g
  have hsound := h.books.fd.sound g
  have hfit := hplace.fit
  obtain ⟨hg, hs⟩ := hplace.start hlen
  have hnohold := hpinv.not_holds hdel
  have hpart : ∀ c, s ≤ c → c < s + pa.paLen → st.holder g c = .prealloc p ∨
      ∃ i o, pa.paType = .inodePa i ∧ st.holder g c = .owned o := by
    intro c h1 h2
    rcases hpinv.part_idle hnohold ((hplace.has_iff g c).mpr ⟨rfl, h1, h2⟩) with hh | ⟨i, hi, hh⟩
    · exact .inl hh
    · exact .inr ⟨i, _, hi, hh⟩
  have hown : ∀ c, st.holder g c = .prealloc p → s ≤ c ∧ c < s + pa.paLen := fun c hc =>
    ((hplace.has_iff g c).mp (hpinv.own g c hc)).2
  have hincore : ∀ c, st.holder g c = .prealloc p → (st.sb.groups g).e4b.bdBitmap c = true :=
    fun c hc => by
      rw [h.books.incore g c (by have := hown c hc; omega), hc]
      exact Holder.noConfusion
  unfold releasePa at hr
  split at hr
  · unfold ext4MbReleaseInodePa at hr
    rw [if_neg (by simp [hdel, hg]), hs] at hr
    -- free on disk are the clusters nobody took
    have hzero : ∀ c, s ≤ c → c < s + pa.paLen →
        ((st.sb.groups g).bitmapBh c = false ↔ st.holder g c = .prealloc p) := by
      intro c h1 h2
      have hd := h.books.disk g c (by omega)
      rcases hpart c h1 h2 with hh | ⟨-, o, -, hh⟩
      · rw [hh] at hd
        refine iff_of_true (Bool.eq_false_iff.mpr fun ht => ?_) hh
        obtain ⟨o, ho⟩ := hd.mp ht
        cases ho
      · refine iff_of_false (fun hf => ?_) fun hq => ?_
        · rw [hd.mpr ⟨o, hh⟩] at hf
          cases hf
        · cases hh.symm.trans hq
    obtain ⟨e4b, heq, hcanon', hsound', hbm⟩ := releaseLoop_spec (st.sb.groups g).bitmapBh hfit
      (pa.paLen + 1) s _ hcanon hsound (by omega)
      (fun c h1 h2 h3 => hincore c ((hzero c h1 h2).mp h3))
    rw [heq] at hr
    cases hr
    refine ⟨e4b, rfl, hcanon', hsound', fun c => ?_⟩
    rw [hbm]
    refine if_congr ⟨fun hh => (hzero c hh.1 hh.2.1).mp hh.2.2, fun hh => ?_⟩ rfl rfl
    obtain ⟨h1, h2⟩ := hown c hh
    exact ⟨h1, h2, (hzero c h1 h2).mpr hh⟩
  · rename_i lg hlg
    unfold ext4MbReleaseGroupPa at hr
    rw [if_neg (by simp [hdel, hg]), hs] at hr
    have hall : ∀ c, s ≤ c → c < s + pa.paLen → st.holder g c = .prealloc p := by
      intro c h1 h2
      rcases hpart c h1 h2 with hh | ⟨i, -, hi, -⟩
      · exact hh
      · cases hlg.symm.trans hi
    obtain ⟨e4b, heq, hcanon', hbm, hsound'⟩ := mbFreeBlocks_used hcanon hlen hfit hsound
      fun c hc => hincore c (hall c hc.1 hc.2)
    rw [heq] at hr
    cases hr
    refine ⟨e4b, rfl, hcanon', hsound', fun c => ?_⟩
    rw [hbm, fill]
    exact if_congr ⟨fun hh => hall c hh.1 hh.2, fun hh => hown c hh⟩ rfl rfl

/-- **A discarded preallocation is gone.** `st₁` is the state with the
preallocation taken off the lists. -/
theorem MbInv.releaseStep (hp : st.pas p = some pa) (hdisc : p ∈ st.objDiscard ∨ p ∈ st.grpDiscard)
    (st1 : MbState)
    (hsame : { st1 with bbPreallocList := st.bbPreallocList, objDiscard := st.objDiscard, grpDiscard
      := st.grpDiscard } = st)
    (hlist : ∀ q, q ≠ p → ∀ g, q ∈ st1.bbPreallocList g ↔ q ∈ st.bbPreallocList g)
    (hobj : ∀ q, q ≠ p → (q ∈ st1.objDiscard ↔ q ∈ st.objDiscard))
    (hgrp : ∀ q, q ≠ p → (q ∈ st1.grpDiscard ↔ q ∈ st.grpDiscard))
    (hoff : (∀ g, p ∉ st1.bbPreallocList g) ∧ p ∉ st1.objDiscard ∧ p ∉ st1.grpDiscard)
    (hnd : NodupLists st1)
    (hr : Mballoc.releaseStep fs st1 (fs.groupNo pa.paPstart) p pa = some st') : MbInv fs st' := by
  have hpinv := h.pa p pa hp
  have hdel := hpinv.listed hdisc
  have hcount := hpinv.idle hdel
  have hdrops : ∀ y u, st.acs y = some u → ¬ u.Drops p := fun y u hy hu => by
    obtain ⟨h1, h2, -⟩ := hpinv.dropped y u hy hu
    exact hdisc.elim h1 h2
  have hlen := hpinv.alive hcount hdrops
  have hno : ∀ y u, st.acs y = some u → ¬ u.Uses p := fun y u hy hu =>
    hu.elim (hpinv.not_holds hdel y u hy) (hdrops y u hy)
  obtain ⟨g, s, hplace, -⟩ := hpinv.place
  rw [(hplace.start hlen).1] at hr
  have hsb : st1.sb = st.sb := by rw [← hsame]
  have hh1 : st1.holder = st.holder := by rw [← hsame]
  obtain ⟨grp, hgr, heq⟩ := Option.map_eq_some_iff.mp hr
  rw [hsb] at hgr
  obtain ⟨e4b, rfl, hcanon, hsound, hbm⟩ := h.releasePa_spec hp hdel hplace hlen hgr
  have hgives : Gives st st' g (fun c => st.holder g c = .prealloc p) fun _ => .free := by
    rw [← heq]
    intro g' c
    rw [holder_give]
    show (if g' = g ∧ decide (st1.holder g c = .prealloc p) = true then _ else st1.holder g' c) = _
    rw [hh1]
  have hpas : ∀ q, st'.pas q = if q = p then none else st.pas q := by
    intro q
    rw [← heq]
    show Function.update st1.pas p none q = _
    rw [Function.update_apply, ← hsame]
  refine h.discard (by rw [← heq, ← hsame]; rfl) hno (fun q hq => by rw [hpas, if_neg hq])
    (fun q hq g' => by rw [← heq]; exact hlist q hq g')
    (fun q hq => by rw [← heq]; exact hobj q hq) (fun q hq => by rw [← heq]; exact hgrp q hq)
    (hgives.cell fun c hc => by simp [MovesTo, of_decide_eq_true hc])
    (h.books.setGroup (by rw [← heq, ← hsame]; exact ⟨rfl, rfl, rfl, rfl⟩)
      (by rw [← heq]; show st1.sb.setGroup _ _ = _; rw [hsb]) hgives hcanon hsound (fun c hc => ?_)
      fun c hc => ⟨rfl, .inl ?_⟩) (fun pa' hpa' => ?_) (fun _ => ?_)
    (by rw [← heq]; exact ⟨hnd.lists, hnd.objs, hnd.grps⟩)
  · replace hc := of_decide_eq_true hc
    have hlt := hpinv.has_lt (hpinv.own g c hc)
    rw [hbm, if_pos hc, h.books.disk g c hlt, hc]
    simp [hlt]
  · rw [hbm, if_neg (of_decide_eq_false hc)]
  · rw [hpas, if_pos rfl] at hpa'
    cases hpa'
  · refine ⟨fun g' c hc => ?_, by rw [← heq]; exact hoff.1, by rw [← heq]; exact hoff.2.1,
      by rw [← heq]; exact hoff.2.2⟩
    by_cases hr : g' = g ∧ decide (st.holder g c = .prealloc p) = true
    · cases (hgives.on hr).symm.trans hc
    · rw [hgives.off hr] at hc
      obtain ⟨rfl, -⟩ := (hplace.has_iff g' c).mp (hpinv.own g' c hc)
      exact hr ⟨rfl, decide_eq_true hc⟩

/-- The release after `ext4_discard_preallocations`. -/
theorem MbInv.releaseDiscarded (hp : st.pas p = some pa) (hmem : p ∈ st.objDiscard)
    (hr : Mballoc.releaseStep fs ({ st with objDiscard := st.objDiscard.erase p }.unlinkPa
      (fs.groupNo pa.paPstart) p) (fs.groupNo pa.paPstart) p pa = some st') : MbInv fs st' := by
  have hpinv := h.pa p pa hp
  have hdel := hpinv.listed (.inl hmem)
  have hlen := hpinv.alive (hpinv.idle hdel) fun y u hy hu => (hpinv.dropped y u hy hu).1 hmem
  obtain ⟨g, s, hplace, hl⟩ := hpinv.place
  have hg := (hplace.start hlen).1
  have hlist := fun q g' => mem_unlinkPa { st with objDiscard := st.objDiscard.erase p } p q
    (fs.groupNo pa.paPstart) g' (h.lists _)
  refine h.releaseStep hp (.inl hmem) ({ st with objDiscard := st.objDiscard.erase p }.unlinkPa
    (fs.groupNo pa.paPstart) p) rfl (fun q hq g' => ?_) (fun q hq => ?_) (fun q hq => Iff.rfl)
    ⟨fun g' hm => ?_, h.objs.not_mem_erase, hpinv.apart hmem⟩
    ⟨nodup_update_erase h.lists _ _, h.objs.erase _, h.grps⟩ hr
  · rw [hlist]
    exact and_iff_right fun hh => hq hh.2
  · exact List.mem_erase_of_ne hq
  · obtain ⟨h1, h2⟩ := (hlist p g').mp hm
    exact h1 ⟨((hl g').mp h2).1.trans hg.symm, rfl⟩

/-- The release of `ext4_mb_discard_group_preallocations`. -/
theorem MbInv.releasePicked (hp : st.pas p = some pa) (hmem : p ∈ st.grpDiscard)
    (hr : Mballoc.releaseStep fs { st with grpDiscard := st.grpDiscard.erase p } (fs.groupNo
      pa.paPstart) p pa = some st') : MbInv fs st' := by
  have hpinv := h.pa p pa hp
  obtain ⟨g, s, hplace, hl⟩ := hpinv.place
  exact h.releaseStep hp (.inr hmem) { st with grpDiscard := st.grpDiscard.erase p } rfl
    (fun q hq g' => Iff.rfl) (fun q hq => Iff.rfl)
    (fun q hq => List.mem_erase_of_ne hq) ⟨fun g' hm => ((hl g').mp hm).2 hmem, fun ho =>
      hpinv.apart ho hmem, h.grps.not_mem_erase⟩ ⟨h.lists, h.objs, h.grps.erase _⟩ hr

end

end Ext4.Mballoc
