import Ext4.Mballoc.HolderSteps

/-!
# Multiblock allocator — sections that create, use up and drop preallocations

What a thread does with the clusters it found: it keeps the surplus in a
preallocation, marks its part on disk or gives it back, and lets go of the
preallocation.
-/

namespace Ext4.Mballoc

open Bitmap Dyadic SearchTree

variable {fs : FsLayout} {st : MbState}

theorem AcInv.inflight {x : Nat} {ac : Ext4AllocationContext} (h : AcInv fs st x ⟨ac, .found⟩) :
    ∀ c, ac.acBEx.has c = true → st.holder ac.acBEx.feGroup c = .inflight x :=
  fun c hc => (h.cells _ c).mpr ⟨rfl, rfl, hc⟩

/-! ## A new preallocation -/

variable {pa : Ext4PreallocSpace}

variable {c k n p : Nat}

/-- **The surplus becomes a preallocation**, of which the thread uses `n`
clusters from cluster `k` on. -/
theorem MbInv.newPa (h : MbInv fs st) {x : Nat} {ac ac' : Ext4AllocationContext}
    (hx : st.acs x = some ⟨ac, .found⟩) (hnone : ac.acPa = none) (hp : st.pas p = none)
    (hkeys : AcThread.SameKeys ⟨ac, .found⟩ ⟨ac', .found⟩) (ho : ac'.acOEx = ac.acOEx)
    (hapa : ac'.acPa = some p) (hg : ac'.acBEx.feGroup = ac.acBEx.feGroup)
    (hs : ac'.acBEx.feStart = ac.acBEx.feStart + k) (hlen : ac'.acBEx.feLen = n) (hn : 0 < n)
    (hkn : k + n ≤ ac.acBEx.feLen) (hplace : PaPlace fs pa ac.acBEx.feGroup ac.acBEx.feStart)
    (hplen : pa.paLen = ac.acBEx.feLen) (hcount : pa.paCount = 1) (hlive : pa.paDeleted = false)
    (hlink : Link fs ⟨ac', .found⟩ pa) {st' : MbState}
    (hst' : st' = (((st.setAc x (some ⟨ac', .found⟩)).setPa p (some pa)).linkPa ac.acBEx.feGroup
      p).give ac.acBEx.feGroup ac.acBEx.has
        fun c => if ac'.acBEx.has c then .inflight x else .prealloc p)
    (hleft : FreeCount fs st' p pa) : MbInv fs st' := by
  have hinv := h.ac x _ hx
  have hno := h.noPa p hp
  obtain ⟨hpos, hfit⟩ := hinv.fit rfl
  obtain ⟨hsets, hpasp⟩ : Sets st st' x (some ⟨ac', .found⟩) (· = p) ∧ st'.pas p = some pa :=
    Sets.pa hst'
  have hgives : Gives st st' ac.acBEx.feGroup ac.acBEx.has
      fun c => if ac'.acBEx.has c then .inflight x else .prealloc p := by
    rw [hst']
    exact fun _ _ => rfl
  have hold := hinv.inflight
  -- the part in use lies in what was found
  have hsub : ∀ c, ac'.acBEx.has c = true → ac.acBEx.has c = true := fun c hc => by
    rw [has_iff_inRange, hs, hlen] at hc
    exact has_iff_inRange.mpr ⟨by have := hc.1; omega, by have := hc.2; omega⟩
  have hhas : ∀ g' c, pa.Has fs g' c ↔ g' = ac.acBEx.feGroup ∧ ac.acBEx.has c = true :=
    fun g' c => by
      rw [hplace.has_iff, has_iff_inRange, hplen]
      rfl
  have hgone : ∀ y t, st.acs y = some t → ¬ t.Uses p := by
    rintro y t hy (ht | ht)
    · obtain ⟨qa, hqa, -⟩ := (h.ac y t hy).holds p ht
      exact nomatch hp.symm.trans hqa
    · obtain ⟨qa, hqa, -⟩ := (h.ac y t hy).drops p ht
      exact nomatch hp.symm.trans hqa
  have hlist : ∀ q g', q ∈ st'.bbPreallocList g'
      ↔ (g' = ac.acBEx.feGroup ∧ q = p) ∨ q ∈ st.bbPreallocList g' := fun q g' => by
    rw [hst']
    exact mem_linkPa ..
  have hxp : AcThread.Holds ⟨ac', .found⟩ p := ⟨hapa, .inl rfl⟩
  refine h.thread hx hsets (fun u hu => by cases hu; exact hkeys) ?_
    (fun y u q _ hu hq hqp => hgone y u hu (hqp ▸ hq)) (fun q hq g' => ?_)
    (hgives.cell fun c hc => ?_)
    (h.books.recast hsets.run (by rw [hst']; rfl) (hgives.cell fun c hc => ?_)) (fun u hu => ?_)
    nofun ?_ ?_ (fun g' => ?_)
  · rintro q (hq | ⟨u, hu, hq⟩)
    · exact absurd hq (not_uses_none (by exact hnone))
    · cases hu
      exact (Option.some.inj (hapa.symm.trans hq.acPa)).symm
  · rw [hlist]
    exact or_iff_right fun hh => hq hh.2
  · rw [hold c hc]
    split <;> simp [MovesTo]
  · rw [hold c hc]
    split <;> exact ⟨rfl, rfl⟩
  · cases hu
    refine hinv.takes ho hapa (fun g' c => ?_) ?_ hpasp hcount hlive hlink
    · rw [hg]
      by_cases hc : g' = ac.acBEx.feGroup ∧ ac.acBEx.has c = true
      · rw [hgives.on hc]
        split <;> simp [hc.1, *]
      · rw [hgives.off hc]
        exact iff_of_false (fun hh => hc ((hinv.cells g' c).mp hh).2)
          fun hh => hc ⟨hh.1, hsub c hh.2⟩
    · rw [hs, hlen]
      dsimp only at hfit
      omega
  · rintro q qa rfl hqa
    cases hpasp.symm.trans hqa
    refine PaInv.inUse hsets hxp (fun y u hy hd => hgone y u hy (.inr hd)) ⟨hno.obj, hno.grp⟩
      ⟨_, _, hplace, fun g' => ?_⟩ hcount hlive (fun g' c hc => ?_) (fun g' c hc => ?_) hleft
    · rw [hlist, hsets.grp]
      simp [hno.list g', hno.grp]
    · rw [hhas]
      by_contra hr
      rw [hgives.off hr] at hc
      exact hno.cells g' c hc
    · rw [hhas] at hc
      rw [Part, hgives.on hc]
      by_cases hr : ac'.acBEx.has c = true
      · exact .inr (.inl ⟨x, _, hsets.self, hxp, if_pos hr⟩)
      · exact .inl (if_neg hr)
  · rintro q rfl hq
    cases hpasp.symm.trans hq
  · rw [hst']
    show (Function.update st.bbPreallocList ac.acBEx.feGroup
      (p :: st.bbPreallocList ac.acBEx.feGroup) g').Nodup
    rw [Function.update_apply]
    split
    · exact List.nodup_cons.mpr ⟨hno.list _, h.lists _⟩
    · exact h.lists g'

theorem cnt_outside {len : Nat} {p : Nat → Prop} (hkn : k + n ≤ len)
    (hp : ∀ i, i < len → (p i ↔ ¬ (k ≤ i ∧ i < k + n))) : cnt len p = len - n := by
  have hall : cnt len (fun _ => True) = len := by
    have := cnt_extend_all (n := 0) (p := fun _ => True) len fun _ _ _ => trivial
    rw [Nat.zero_add] at this
    rw [this]
    exact Int.zero_add _
  have := cnt_add (q := fun _ => True) (p := p) hkn
    (fun i h1 h2 => ⟨trivial, fun hpi => (hp i (by omega)).mp hpi ⟨h1, h2⟩⟩)
    (fun i hi hout => iff_of_true trivial ((hp i hi).mpr hout))
  omega

/-- `ext4_mb_new_preallocation`. -/
theorem MbInv.newPreallocation (h : MbInv fs st) {x : Nat} {ac : Ext4AllocationContext}
    (hx : st.acs x = some ⟨ac, .found⟩) (hnone : ac.acPa = none) (hp : st.pas p = none)
    {r : Ext4AllocationContext × Ext4PreallocSpace} (hr : ext4MbNewPreallocation fs ac p = some r) :
    MbInv fs ((((st.setAc x (some ⟨r.1, .found⟩)).setPa p (some r.2)).linkPa ac.acBEx.feGroup
      p).give ac.acBEx.feGroup ac.acBEx.has
        fun c => if r.1.acBEx.has c then .inflight x else .prealloc p) := by
  have hinv := h.ac x _ hx
  obtain ⟨hpos, hfit⟩ := hinv.fit rfl
  have hasked := hinv.asked
  dsimp only at hpos hfit hasked
  have hmk : ∀ pa : Ext4PreallocSpace,
      pa.paPstart = fs.grpOffsToBlock ac.acBEx.feGroup ac.acBEx.feStart →
      pa.paLen = ac.acBEx.feLen → PaPlace fs pa ac.acBEx.feGroup ac.acBEx.feStart :=
    fun pa h1 h2 => ⟨h1, by rw [h2]; exact hfit, by omega⟩
  unfold ext4MbNewPreallocation at hr
  split at hr
  · rename_i lg hlg
    unfold ext4MbNewGroupPa at hr
    split at hr
    · cases hr
    rename_i hlt
    cases hr
    dsimp only at hlt ⊢
    have hplace := hmk ⟨.groupPa lg, fs.grpOffsToBlock ac.acBEx.feGroup ac.acBEx.feStart,
      fs.grpOffsToBlock ac.acBEx.feGroup ac.acBEx.feStart, ac.acBEx.feLen, ac.acBEx.feLen, 1,
      false⟩ rfl rfl
    obtain ⟨hg, hs⟩ := hplace.start hpos
    dsimp only at hg hs
    refine h.newPa (k := 0) (n := ac.acOEx.feLen) hx hnone hp (by exact ⟨rfl, rfl, rfl⟩) (by rfl)
      (by rfl) (by exact hg) (by exact hs) (by rfl) hasked (by omega) hplace (by rfl) (by rfl)
      (by rfl) ?_ rfl ?_
    · exact ⟨hlg, fun _ => ⟨by show ac.acOEx.feLen ≤ ac.acBEx.feLen; omega, fun _ => ⟨rfl, rfl⟩⟩⟩
    · exact rfl
  · unfold ext4MbNewInodePa at hr
    split at hr
    · cases hr
    rename_i hlt
    split at hr
    · cases hr
    rename_i lstart _
    dsimp only at hr
    have hplace := hmk ⟨.inodePa ac.acInode, fs.grpOffsToBlock ac.acBEx.feGroup ac.acBEx.feStart,
      lstart, ac.acBEx.feLen, ac.acBEx.feLen, 1, false⟩ rfl rfl
    obtain ⟨hg, hs⟩ := hplace.start hpos
    obtain ⟨k, n, hn, hno, hkn, hlc, h1, h2⟩ := ext4MbUseInodePa_spec hplace
      (by exact hinv.aligned) hr
    dsimp only at hg hs hkn hlc
    have hdata : ac.acData = true := (hinv.taken rfl hnone).2.2 (by dsimp only; omega)
    refine h.newPa (k := k) (n := n) hx hnone hp (by rw [h1]; exact ⟨rfl, rfl, rfl⟩) (by rw [h1])
      (by rw [h1]) (by rw [h1]) (by rw [h1]) (by rw [h1]) hn hkn
      (by rw [h2]; exact ⟨hplace.eq, hplace.fit, hplace.pos⟩) (by rw [h2]) (by rw [h2])
      (by rw [h2]) ?_ rfl ?_
    · rw [Link, h1, h2]
      refine ⟨rfl, hdata, fun _ => ⟨hg.symm, ?_, ?_, ?_⟩⟩
      · dsimp only
        omega
      · dsimp only
        omega
      · dsimp only
        rw [hs, ← hlc, ← Nat.add_assoc]
        rfl
    · rw [FreeCount, h1, h2]
      dsimp only
      refine ⟨hpos, (cnt_outside hkn fun i hi => ?_).symm⟩
      rw [hg, hs, holder_give, if_pos ⟨rfl, has_iff_inRange.mpr ⟨by omega, by omega⟩⟩]
      by_cases hin : k ≤ i ∧ i < k + n
      · rw [if_pos (has_iff_inRange.mpr ⟨by dsimp only; omega, by dsimp only; omega⟩)]
        simp [hin]
      · rw [if_neg]
        · simp [hin]
        · intro hh
          have := has_iff_inRange.mp hh
          exact hin ⟨by have := this.1; dsimp only at this; omega,
            by have := this.2; dsimp only at this; omega⟩

/-! ## Marking on disk and giving back -/

variable {t : AcThread}

theorem MbInv.held (h : MbInv fs st) {x : Nat} (hx : st.acs x = some t)
    (ht : t.Holds p) : ∃ pa, st.pas p = some pa ∧ pa.paCount = 1 ∧ pa.paDeleted = false ∧
      Link fs t pa ∧ PaInv fs st p pa ∧ (p ∉ st.objDiscard ∧ p ∉ st.grpDiscard) ∧
      (∀ y u, st.acs y = some u → u.Holds p → y = x) ∧
      ∀ y u, st.acs y = some u → ¬ u.Drops p := by
  obtain ⟨pa, hp, hcount, hlive, hlink⟩ := (h.ac x t hx).holds p ht
  obtain ⟨hobj, hgrp, hdrops⟩ := h.live hp hlive
  exact ⟨pa, hp, hcount, hlive, hlink, h.pa p pa hp, ⟨hobj, hgrp⟩,
    fun y u hy hu => h.holds_unique hy hx hu ht, hdrops⟩

/-- A section of a thread with the preallocation it refers to, if any. -/
theorem MbInv.user (h : MbInv fs st) {st' : MbState} {x : Nat} {t t' : AcThread}
    (hx : st.acs x = some t) (hheld : ∀ q, t.ac.acPa = some q → t.Holds q)
    (hs : Sets st st' x (some t') fun q => t.ac.acPa = some q) (hkeys : t.SameKeys t')
    (hsame : t'.ac.acPa = t.ac.acPa) (hlist : st'.bbPreallocList = st.bbPreallocList)
    (hcell : ∀ g c, st'.holder g c = st.holder g c ∨
      MovesTo st (· = x) (fun q => t.ac.acPa = some q) (st.holder g c) (st'.holder g c))
    (hbooks : Books fs st') (hac : AcInv fs st' x t')
    (hpa : ∀ p, t.ac.acPa = some p → ∃ pa, st'.pas p = some pa ∧ PaInv fs st' p pa) :
    MbInv fs st' := by
  refine h.thread hx hs (fun u hu => by cases hu; exact hkeys) ?_ ?_
    (fun _ _ _ => by rw [hlist]) hcell hbooks (fun u hu => by cases hu; exact hac) nofun
    (fun q qa hq hqa => ?_) (fun q hq hno => ?_) (by rw [hlist]; exact h.lists)
  · rintro q (hq | ⟨u, hu, hq⟩)
    · exact hq.acPa
    · cases hu
      exact hsame.symm.trans hq.acPa
  · intro y u q hy hu hq hpa
    obtain ⟨-, -, -, -, -, -, -, huniq, hdrops⟩ := h.held hx (hheld q hpa)
    exact hq.elim (fun hq => hy (huniq y u hu hq)) (hdrops y u hu)
  · obtain ⟨pa, hp, hinv⟩ := hpa q hq
    cases hp.symm.trans hqa
    exact hinv
  · obtain ⟨pa, hp, -⟩ := hpa q hq
    cases hp.symm.trans hno

/-- Clusters of the preallocation that its user has not in flight. -/
theorem MbInv.part_rest (h : MbInv fs st) {x : Nat} (hx : st.acs x = some t) (hxp : t.Holds p)
    (hp : st.pas p = some pa) {g : Nat} (hc : pa.Has fs g c) (hfly : st.holder g c ≠ .inflight x) :
    st.holder g c = .prealloc p ∨
      (∃ i, pa.paType = .inodePa i ∧
        st.holder g c = .owned (.data i (pa.lcluster fs + (c - fs.groupOffset pa.paPstart)))) ∨
      ∃ lg, pa.paType = .groupPa lg ∧ t.phase = .closing ∧ t.ac.acBEx.has c = true := by
  obtain ⟨-, -, -, -, -, -, -, huniq, -⟩ := h.held hx hxp
  rcases (h.pa p pa hp).part g c hc with h1 | ⟨y, u, hy, hu, h1⟩ | h1 |
    ⟨lg, y, u, hlg, hy, hu, h1, -, h2, -⟩
  · exact .inl h1
  · rw [huniq y u hy hu] at h1
    exact absurd h1 hfly
  · exact .inr (.inl h1)
  · obtain rfl := huniq y u hy hu
    cases hx.symm.trans hy
    exact .inr (.inr ⟨lg, hlg, h1, h2⟩)

/-- Nothing is in flight when the clusters that were found go elsewhere. -/
theorem AcInv.landed {st' : MbState} {x : Nat} {v : Nat → Holder} (h : AcInv fs st x t)
    (hgives : Gives st st' t.ac.acBEx.feGroup t.ac.acBEx.has v) (hv : ∀ c, v c ≠ .inflight x)
    (g c : Nat) : st'.holder g c ≠ .inflight x := by
  intro hc
  by_cases hr : g = t.ac.acBEx.feGroup ∧ t.ac.acBEx.has c = true
  · exact hv c ((hgives.on hr).symm.trans hc)
  · rw [hgives.off hr] at hc
    exact hr ((h.cells g c).mp hc).2

/-- The clusters of a thread that uses a preallocation belong to it. -/
theorem Link.has (h : Link fs t pa) (hph : t.phase = .found) (hc : t.ac.acBEx.has c = true) :
    pa.Has fs t.ac.acBEx.feGroup c := by
  have hr := has_iff_inRange.mp hc
  unfold InRange at hr
  unfold Link at h
  split at h
  · obtain ⟨-, -, hb⟩ := h
    obtain ⟨hg, h1, h2, -⟩ := hb hph
    exact ⟨hg.symm, by omega, by omega⟩
  · obtain ⟨-, hb⟩ := h
    obtain ⟨hlen, hb⟩ := hb (.inl hph)
    obtain ⟨hg, hs⟩ := hb (by omega)
    exact ⟨hg.symm, by omega, by omega⟩

section

variable (h : MbInv fs st) {x : Nat} {ac : Ext4AllocationContext}
  (hx : st.acs x = some ⟨ac, .found⟩) {st' : MbState}

include h hx

theorem MbInv.markOk
    (hst' : st' = ((st.setGroup ac.acBEx.feGroup { st.sb.groups ac.acBEx.feGroup with
      bitmapBh := fill (st.sb.groups ac.acBEx.feGroup).bitmapBh ac.acBEx.feStart ac.acBEx.feLen
        true }).give ac.acBEx.feGroup ac.acBEx.has fun c => .owned (ac.owner fs c)).setAc x
          (some ⟨ac, .closing⟩)) : MbInv fs st' := by
  have hinv := h.ac x _ hx
  obtain ⟨hpos, hfit⟩ := hinv.fit rfl
  dsimp only at hpos hfit
  have hsets : Sets st st' x (some ⟨ac, .closing⟩) fun q => ac.acPa = some q := by
    rw [hst']
    exact .thread ..
  have hgives : Gives st st' ac.acBEx.feGroup ac.acBEx.has fun c => .owned (ac.owner fs c) := by
    rw [hst']
    exact fun _ _ => rfl
  have hpas : st'.pas = st.pas := by rw [hst']; rfl
  have hlist : st'.bbPreallocList = st.bbPreallocList := by rw [hst']; rfl
  have hold := hinv.inflight
  have hpre : ∀ q g' c, st'.holder g' c = .prealloc q ↔ st.holder g' c = .prealloc q := by
    intro q g' c
    by_cases hc : g' = ac.acBEx.feGroup ∧ ac.acBEx.has c = true
    · rw [hgives.on hc, hc.1, hold c hc.2]
      simp
    · rw [hgives.off hc]
  have hbooks : Books fs st' := by
    refine h.books.setGroup hsets.run (by rw [hst']; rfl) hgives (h.books.fd.canon _)
      (h.books.fd.sound _) (fun c hc => ?_) fun c hc => ⟨fill_out fun hh => ?_, .inl rfl⟩
    · have hin := has_iff_inRange.mp hc
      have hlt : c < fs.clustersPerGroup := Nat.lt_of_lt_of_le hin.2 hfit
      rw [fill_in hin, h.books.incore _ c hlt, hold c hc]
      simp [hlt]
    · simp [has_iff_inRange.mpr hh] at hc
  refine h.user hx (fun q hq => ⟨hq, .inl rfl⟩) hsets ⟨rfl, rfl, rfl⟩ rfl hlist
    (hgives.cell fun c hc => ?_) hbooks ?_ fun q hq => ?_
  · rw [hold c hc]
    refine ⟨by simp, .inr ⟨_, rfl, fun y u lc hy hu hd heq => ?_⟩⟩
    unfold Ext4AllocationContext.owner at heq
    split at heq
    · rename_i hd'
      exact hy (h.inodes y x u _ hu hx hd hd' (Owner.data.inj heq).1.symm)
    · cases heq
  · refine hinv.past rfl (hinv.landed hgives nofun) nofun nofun
      (fun _ c hc => ⟨_, hgives.on ⟨rfl, hc⟩⟩) (fun q hq => ?_) fun q hq => nomatch hq.2
    obtain ⟨pa, hp, h1, h2, hl, -⟩ := h.held hx (p := q) ⟨hq.1, .inl rfl⟩
    refine ⟨pa, by rw [hpas]; exact hp, h1, h2, ?_⟩
    unfold Link at hl ⊢
    split at hl
    · exact ⟨hl.1, hl.2.1, nofun⟩
    · exact ⟨hl.1, fun _ => hl.2 (.inl rfl)⟩
  · have hxq : AcThread.Holds ⟨ac, .found⟩ q := ⟨hq, .inl rfl⟩
    obtain ⟨pa, hp, hcount, hlive, hlink, hpinv, hoff, -, hdrops⟩ := h.held hx hxq
    have hxq' : AcThread.Holds ⟨ac, .closing⟩ q := ⟨hq, .inr (.inl rfl)⟩
    refine ⟨pa, by rw [hpas]; exact hp, PaInv.inUse (hsets.mono fun _ hq' => ?_) hxq' hdrops hoff
      (by rw [hlist, hsets.grp]; exact hpinv.place) hcount hlive
      (fun g' c hc => hpinv.own g' c ((hpre q g' c).mp hc)) (fun g' c hc => ?_)
      (hpinv.left.congr fun g' c _ => hpre q g' c)⟩
    · exact (Option.some.inj (hq.symm.trans hq')).symm
    by_cases hr : g' = ac.acBEx.feGroup ∧ ac.acBEx.has c = true
    · -- the thread's part carries the mark of its logical cluster
      have hin := has_iff_inRange.mp hr.2
      unfold Link at hlink
      split at hlink
      · rename_i i hi
        obtain ⟨hino, hdata, hrest⟩ := hlink
        obtain ⟨-, h1, -, h2⟩ := hrest rfl
        refine .inr (.inr (.inl ⟨i, hi, ?_⟩))
        rw [hgives.on hr, Ext4AllocationContext.owner, if_pos hdata, hino]
        have := hin.1
        dsimp only at h1 h2
        have hlc : ac.acOEx.feLogical / fs.clusterRatio + (c - ac.acBEx.feStart)
            = pa.lcluster fs + (c - fs.groupOffset pa.paPstart) := by omega
        rw [hlc]
      · rename_i lg hlg
        exact .inr (.inr (.inr ⟨lg, x, _, hlg, hsets.self, hxq', rfl, hr.1.symm, hr.2, _,
          hgives.on hr⟩))
    · rw [Part, hgives.off hr]
      rcases h.part_rest hx hxq hp hc fun hh => hr ((hinv.cells g' c).mp hh).2 with h1 | h1 |
        ⟨-, -, h1, -⟩
      · exact .inl h1
      · exact .inr (.inr (.inl h1))
      · cases h1

theorem MbInv.discardFound (hnone : ac.acPa = none) {e4b : Ext4Buddy}
    (hfree : mbFreeBlocks fs.toGeometry (st.sb.groups ac.acBEx.feGroup).e4b ac.acBEx.feStart
      ac.acBEx.feLen = some e4b)
    (hst' : st' = ((st.setAc x (some ⟨ac.fail, .closing⟩)).setGroup ac.acBEx.feGroup
      { st.sb.groups ac.acBEx.feGroup with e4b := e4b }).give ac.acBEx.feGroup ac.acBEx.has
        fun _ => .free) : MbInv fs st' := by
  have hinv := h.ac x _ hx
  obtain ⟨hpos, hfit⟩ := hinv.fit rfl
  dsimp only at hpos hfit
  have hold := hinv.inflight
  have hlt : ∀ c, InRange ac.acBEx.feStart ac.acBEx.feLen c → c < fs.clustersPerGroup :=
    fun c hc => Nat.lt_of_lt_of_le hc.2 hfit
  obtain ⟨e4b', heq, hcanon, hbm, hsound⟩ := mbFreeBlocks_used (h.books.fd.canon ac.acBEx.feGroup)
    hpos hfit (h.books.fd.sound _) fun c hc => by
      rw [h.books.incore _ c (hlt c hc), hold c (has_iff_inRange.mpr hc)]
      simp
  cases heq.symm.trans hfree
  have hsets : Sets st st' x (some ⟨ac.fail, .closing⟩) fun q => ac.acPa = some q := by
    rw [hst']
    exact .thread ..
  have hgives : Gives st st' ac.acBEx.feGroup ac.acBEx.has fun _ => .free := by
    rw [hst']
    exact fun _ _ => rfl
  have hbooks : Books fs st' := by
    refine h.books.setGroup hsets.run (by rw [hst']; rfl) hgives hcanon hsound (fun c hc => ?_)
      fun c hc => ⟨rfl, .inl ?_⟩
    · have hin := has_iff_inRange.mp hc
      rw [hbm, fill_in hin, h.books.disk _ c (hlt c hin), hold c hc]
      simp [hlt c hin]
    · rw [hbm, fill_out fun hh => by simp [has_iff_inRange.mpr hh] at hc]
  have hno : ∀ q, ac.acPa ≠ some q := by simp [hnone]
  refine h.user hx (fun q hq => absurd hq (hno q)) hsets ⟨rfl, rfl, rfl⟩ rfl (by rw [hst']; rfl)
    (hgives.cell fun c hc => by simp [MovesTo, hold c hc]) hbooks ?_ fun q hq => absurd hq (hno q)
  exact hinv.past rfl (hinv.landed hgives (by simp)) (by simp) (by simp)
    (fun _ c hc => (fail_empty hc).elim) (fun q hq => absurd hq.1 (hno q)) fun q hq => by cases hq.2

theorem MbInv.discardUsed {pa pa' : Ext4PreallocSpace} (hapa : ac.acPa = some p)
    (hp : st.pas p = some pa) (hpa' : pa' = match pa.paType with
      | .inodePa _ => { pa with paFree := pa.paFree + ac.acBEx.feLen }
      | .groupPa _ => pa)
    (hst' : st' = (((st.setAc x (some ⟨ac.fail, .closing⟩)).give ac.acBEx.feGroup ac.acBEx.has
      fun _ => .prealloc p).setPa p (some pa'))) : MbInv fs st' := by
  have hinv := h.ac x _ hx
  have hxp : AcThread.Holds ⟨ac, .found⟩ p := ⟨hapa, .inl rfl⟩
  obtain ⟨pa0, hp0, hcount, hlive, hlink, hpinv, hoff, -, hdrops⟩ := h.held hx hxp
  cases hp.symm.trans hp0
  have hold := hinv.inflight
  -- only `pa_free` changes
  obtain ⟨f, hf⟩ : ∃ f, pa' = { pa with paFree := f } := by
    rw [hpa']
    split
    · exact ⟨_, rfl⟩
    · exact ⟨pa.paFree, rfl⟩
  have hhas : ∀ g' c, pa'.Has fs g' c ↔ pa.Has fs g' c := fun g' c => by rw [hf]; rfl
  obtain ⟨hsets, hpasp⟩ := Sets.pa hst'
  have hgives : Gives st st' ac.acBEx.feGroup ac.acBEx.has fun _ => .prealloc p := by
    rw [hst']
    exact fun _ _ => rfl
  have hlist : st'.bbPreallocList = st.bbPreallocList := by rw [hst']; rfl
  have hxp' : AcThread.Holds ⟨ac.fail, .closing⟩ p := ⟨hapa, .inr (.inl rfl)⟩
  have hlive' : pa'.paCount = 1 ∧ pa'.paDeleted = false := by
    rw [hf]
    exact ⟨hcount, hlive⟩
  refine h.user hx (fun q hq => ⟨hq, .inl rfl⟩) (hsets.mono fun q hq => hq ▸ hapa) ⟨rfl, rfl, rfl⟩
    rfl hlist (hgives.cell fun c hc => by simp [MovesTo, hold c hc, hapa])
    (h.books.recast hsets.run (by rw [hst']; rfl)
      (hgives.cell fun c hc => by rw [hold c hc]; exact ⟨rfl, rfl⟩)) ?_ fun q hq => ?_
  · refine hinv.past rfl (hinv.landed hgives (by simp)) (by simp) (by simp)
      (fun _ c hc => (fail_empty hc).elim) (fun q hq => ?_) fun q hq => by cases hq.2
    cases Option.some.inj (hapa.symm.trans hq.1)
    refine ⟨pa', hpasp, hlive'.1, hlive'.2, ?_⟩
    rw [hf]
    unfold Link at hlink ⊢
    dsimp only
    split at hlink
    · exact ⟨hlink.1, hlink.2.1, by simp⟩
    · exact ⟨hlink.1, fun _ => ⟨Nat.zero_le _, fun hne => absurd rfl hne⟩⟩
  · cases Option.some.inj (hapa.symm.trans hq)
    refine ⟨pa', hpasp, PaInv.inUse hsets hxp' hdrops hoff ?_ hlive'.1 hlive'.2 (fun g' c hc => ?_)
      (fun g' c hc => ?_) ?_⟩
    · rw [hlist, hsets.grp, hf]
      obtain ⟨g0, s0, hpl, hl⟩ := hpinv.place
      exact ⟨g0, s0, ⟨hpl.eq, hpl.fit, hpl.pos⟩, hl⟩
    · rw [hhas]
      by_cases hr : g' = ac.acBEx.feGroup ∧ ac.acBEx.has c = true
      · rw [hr.1]
        exact hlink.has rfl hr.2
      · rw [hgives.off hr] at hc
        exact hpinv.own g' c hc
    · by_cases hr : g' = ac.acBEx.feGroup ∧ ac.acBEx.has c = true
      · exact .inl (hgives.on hr)
      · rw [Part, hgives.off hr]
        rcases h.part_rest hx hxp hp ((hhas g' c).mp hc)
          fun hh => hr ((hinv.cells g' c).mp hh).2 with h1 | ⟨i, hi, h1⟩ | ⟨-, -, h1, -⟩
        · exact .inl h1
        · rw [hf]
          exact .inr (.inr (.inl ⟨i, hi, h1⟩))
        · cases h1
    · have hleft := hpinv.left
      cases htype : pa.paType with
      | groupPa lg =>
        obtain rfl : pa' = pa := by rw [hpa', htype]
        rw [FreeCount, htype] at hleft ⊢
        exact hleft
      | inodePa i =>
        rw [FreeCount, htype] at hleft
        rw [Link, htype] at hlink
        obtain ⟨h1, h2, h3, -⟩ := hlink.2.2 rfl
        dsimp only at h1 h2 h3 hleft
        rw [hpa', htype, FreeCount]
        dsimp only
        refine ⟨hleft.1, ?_⟩
        rw [hleft.2]
        refine (cnt_add (show ac.acBEx.feStart - fs.groupOffset pa.paPstart + ac.acBEx.feLen
          ≤ pa.paLen by omega) (fun j hj1 hj2 => ?_) fun j hj hout => ?_).symm
        · have hr : ac.acBEx.has (fs.groupOffset pa.paPstart + j) = true :=
            has_iff_inRange.mpr ⟨by omega, by omega⟩
          rw [hgives.on ⟨h1.symm, hr⟩, ← h1, hold _ hr]
          exact ⟨rfl, by simp⟩
        · rw [hgives.off]
          rintro ⟨-, hh⟩
          have := has_iff_inRange.mp hh
          exact hout ⟨by have := this.1; omega, by have := this.2; omega⟩

/-- **`ext4_discard_allocated_blocks`.** -/
theorem MbInv.discardAllocated (hst' : ext4DiscardAllocatedBlocks fs st x ac = some st') :
    MbInv fs st' := by
  have hinv := h.ac x _ hx
  unfold ext4DiscardAllocatedBlocks at hst'
  dsimp only at hst'
  split at hst'
  · rename_i hnone
    obtain ⟨-, hfex, -⟩ := hinv.taken rfl hnone
    replace hfex : ac.acFEx = ac.acBEx := hfex
    have hpos : 0 < ac.acBEx.feLen := (hinv.fit rfl).1
    rw [hfex, if_neg (by omega)] at hst'
    obtain ⟨e4b, hfree, heq⟩ := Option.map_eq_some_iff.mp hst'
    exact h.discardFound hx hnone hfree heq.symm
  · rename_i p hapa
    split at hst'
    · cases hst'
    · rename_i pa hp
      split at hst' <;> cases hst'
      · rename_i i hi
        exact h.discardUsed hx hapa hp rfl (by rw [hi])
      · rename_i lg hlg
        refine h.discardUsed hx hapa hp rfl ?_
        rw [hlg]
        have hsame : Function.update st.pas p (some pa) = st.pas :=
          Function.update_eq_self_iff.mpr hp.symm
        show _ = MbState.mk _ _ _ _ _ _ (Function.update st.pas p (some pa)) _ _ _ _
        rw [hsame]
        rfl

end

end Ext4.Mballoc
