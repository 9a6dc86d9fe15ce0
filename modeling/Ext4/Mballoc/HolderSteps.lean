import Ext4.Mballoc.Holders

/-!
# Multiblock allocator — the sections keep the holders

A section touches one thread, one preallocation, or the bitmaps of one
group. What it does not touch keeps its part of the invariant
(`MbInv.touch`), so that each section is left with its own thread and its
own preallocation.
-/

namespace Ext4.Mballoc

open Bitmap Dyadic SearchTree

variable {fs : FsLayout} {st : MbState}

/-! ## Reading a changed state -/

section Read

variable (st) (x y p q g g' c : Nat) (t : Option AcThread) (pa : Option Ext4PreallocSpace)
  (P : Nat → Bool) (v : Nat → Holder)

@[simp] theorem acs_setAc : (st.setAc x t).acs y = if y = x then t else st.acs y :=
  Function.update_apply ..

@[simp] theorem pas_setPa : (st.setPa p pa).pas q = if q = p then pa else st.pas q :=
  Function.update_apply ..

@[simp] theorem holder_give : (st.give g P v).holder g' c
    = if g' = g ∧ P c = true then v c else st.holder g' c := rfl

@[simp] theorem mem_linkPa : q ∈ (st.linkPa g p).bbPreallocList g'
    ↔ (g' = g ∧ q = p) ∨ q ∈ st.bbPreallocList g' := by
  show q ∈ Function.update st.bbPreallocList g (p :: st.bbPreallocList g) g' ↔ _
  rw [Function.update_apply]
  split
  · rename_i h
    simp [h]
  · rename_i h
    simp [h]

theorem mem_unlinkPa (hnd : (st.bbPreallocList g).Nodup) : q ∈ (st.unlinkPa g p).bbPreallocList g'
    ↔ ¬ (g' = g ∧ q = p) ∧ q ∈ st.bbPreallocList g' := by
  show q ∈ Function.update st.bbPreallocList g ((st.bbPreallocList g).erase p) g' ↔ _
  rw [Function.update_apply]
  split
  · rename_i h
    subst h
    rw [hnd.mem_erase_iff]
    exact and_congr_left fun _ => not_congr (and_iff_right rfl).symm
  · rename_i h
    simp [h]

end Read

variable {x : Nat} {st' : MbState}

theorem acStep_eq_some {phase : AcPhase} {f : Ext4AllocationContext → Option MbState}
    (h : acStep st x phase f = some st') : ∃ ac, st.acs x = some ⟨ac, phase⟩ ∧ f ac = some st' := by
  unfold acStep at h
  split at h
  · cases h
  · rename_i t ht
    split at h
    · rename_i hp
      exact ⟨t.ac, by rw [ht, ← hp], h⟩
    · cases h

/-! ## The untouched rest -/

/-- The section touches the threads `X` and the preallocations `Q`. -/
structure Frame (st st' : MbState) (X Q : Nat → Prop) : Prop where
  acs : ∀ y, ¬ X y → st'.acs y = st.acs y
  pas : ∀ q, ¬ Q q → st'.pas q = st.pas q
  list : ∀ q, ¬ Q q → ∀ g, q ∈ st'.bbPreallocList g ↔ q ∈ st.bbPreallocList g
  obj : ∀ q, ¬ Q q → (q ∈ st'.objDiscard ↔ q ∈ st.objDiscard)
  grp : ∀ q, ¬ Q q → (q ∈ st'.grpDiscard ↔ q ∈ st.grpDiscard)
  uses : ∀ y t q, X y → st.acs y = some t ∨ st'.acs y = some t → t.Uses q → Q q
  others : ∀ y t q, ¬ X y → st.acs y = some t → t.Uses q → ¬ Q q

/-- It leaves the clusters of the others alone. -/
structure Touches (fs : FsLayout) (st st' : MbState) (X Q : Nat → Prop) : Prop
    extends Frame st st' X Q where
  inflight : ∀ y, ¬ X y → ∀ g c, st'.holder g c = .inflight y ↔ st.holder g c = .inflight y
  has : ∀ q pa, ¬ Q q → st.pas q = some pa → ∀ g c, pa.Has fs g c → st'.holder g c = st.holder g c
  prealloc : ∀ q, ¬ Q q → ∀ g c, st'.holder g c = .prealloc q → st.holder g c = .prealloc q
  owned : ∀ y t, ¬ X y → st.acs y = some t → t.ac.acData = true → ∀ g c lc,
    st'.holder g c = .owned (.data t.ac.acInode lc) → st.holder g c = .owned (.data t.ac.acInode lc)
  marked : ∀ y t, ¬ X y → st.acs y = some t → t.phase = .closing → ∀ c,
    t.ac.acBEx.has c = true → (∃ o, st.holder t.ac.acBEx.feGroup c = .owned o) →
    ∃ o, st'.holder t.ac.acBEx.feGroup c = .owned o

/-- A cluster that the touched threads and preallocations may pass on. -/
def Mine (X Q : Nat → Prop) (v : Holder) : Prop :=
  v = .free ∨ (∃ y, X y ∧ v = .inflight y) ∨ ∃ q, Q q ∧ v = .prealloc q

variable {X Q : Nat → Prop}

@[simp] theorem mine_free : Mine X Q .free := .inl rfl

@[simp] theorem mine_inflight {y : Nat} : Mine X Q (.inflight y) ↔ X y := by
  simp [Mine]

theorem Mine.ne_inflight {v : Holder} {y : Nat} (h : Mine X Q v) (hy : ¬ X y) :
    v ≠ .inflight y := by
  rintro rfl
  exact hy (mine_inflight.mp h)

variable {q : Nat}

@[simp] theorem mine_prealloc : Mine X Q (.prealloc q) ↔ Q q := by
  simp [Mine]

@[simp] theorem not_mine_owned {o : Owner} : ¬ Mine X Q (.owned o) := by
  simp [Mine]

/-- Clusters move between the touched threads and preallocations, and to
new owners. -/
def MovesTo (st : MbState) (X Q : Nat → Prop) (old new : Holder) : Prop :=
  Mine X Q old ∧ (Mine X Q new ∨ ∃ o, new = .owned o ∧
    ∀ y t lc, ¬ X y → st.acs y = some t → t.ac.acData = true → o ≠ .data t.ac.acInode lc)

theorem Frame.touches (hf : Frame st st' X Q) (h : MbInv fs st)
    (hcell : ∀ g c, st'.holder g c = st.holder g c ∨ MovesTo st X Q (st.holder g c) (st'.holder g
      c)) :
    Touches fs st st' X Q where
  toFrame := hf
  inflight := fun y hy g c => by
    rcases hcell g c with heq | ⟨hold, hnew | ⟨o, ho, -⟩⟩
    · rw [heq]
    · exact iff_of_false (hnew.ne_inflight hy) (hold.ne_inflight hy)
    · refine iff_of_false (fun hc => ?_) (hold.ne_inflight hy)
      cases ho.symm.trans hc
  has := fun q pa hq hpa g c hc => by
    rcases hcell g c with heq | ⟨hold, -⟩
    · exact heq
    · exfalso
      rcases ((h.pa q pa hpa).part g c hc).cases with h1 | ⟨y, t, hy, ht, h1⟩ | ⟨o, h1⟩ <;>
        rw [h1] at hold
      · exact hq (mine_prealloc.mp hold)
      · exact hq (hf.uses y t q (mine_inflight.mp hold) (.inl hy) (.inl ht))
      · exact not_mine_owned hold
  prealloc := fun q hq g c hc => by
    rcases hcell g c with heq | ⟨-, hnew | ⟨o, ho, -⟩⟩
    · exact heq.symm.trans hc
    · rw [hc] at hnew
      exact absurd (mine_prealloc.mp hnew) hq
    · exact nomatch ho.symm.trans hc
  owned := fun y t hy ht hd g c lc hc => by
    rcases hcell g c with heq | ⟨-, hnew | ⟨o, ho, hfor⟩⟩
    · exact heq.symm.trans hc
    · rw [hc] at hnew
      exact absurd hnew not_mine_owned
    · cases ho.symm.trans hc
      exact absurd rfl (hfor y t lc hy ht hd)
  marked := fun y t _ _ _ c _ ⟨o, ho⟩ => by
    rcases hcell t.ac.acBEx.feGroup c with heq | ⟨hold, -⟩
    · exact ⟨o, heq.trans ho⟩
    · rw [ho] at hold
      exact absurd hold not_mine_owned

/-- **The rest follows**: only the touched threads and preallocations have
to be looked at. -/
theorem MbInv.touch (h : MbInv fs st) (ht : Touches fs st st' X Q) (hbooks : Books fs st')
    (hac : ∀ x t, X x → st'.acs x = some t → AcInv fs st' x t)
    (hnoAc : ∀ x, X x → st'.acs x = none → ∀ g c, st'.holder g c ≠ .inflight x)
    (hpa : ∀ p pa, Q p → st'.pas p = some pa → PaInv fs st' p pa)
    (hnoPa : ∀ p, Q p → st'.pas p = none → NoPa st' p) (huniq : Unique st') (hnd : NodupLists st') :
    MbInv fs st' where
  books := hbooks
  ac := fun y t hy => by
    by_cases hX : X y
    · exact hac y t hX hy
    · rw [ht.acs y hX] at hy
      refine (h.ac y t hy).frame (ht.inflight y hX) (ht.owned y t hX hy) (fun g c hp hg hc => ?_)
        fun q hq => ht.pas q (ht.others y t q hX hy hq)
      rw [← hg]
      exact ht.marked y t hX hy hp c hc
  noAc := fun y hy g c => by
    by_cases hX : X y
    · exact hnoAc y hX hy g c
    · rw [ht.acs y hX] at hy
      rw [Ne, ht.inflight y hX g c]
      exact h.noAc y hy g c
  pa := fun q pa hq => by
    by_cases hQ : Q q
    · exact hpa q pa hQ hq
    · rw [ht.pas q hQ] at hq
      refine (h.pa q pa hq).frame (ht.list q hQ) (ht.obj q hQ) (ht.grp q hQ) (fun y t hy => ?_)
        (ht.has q pa hQ hq) (ht.prealloc q hQ)
      by_cases hX : X y
      · exact ⟨fun hs => absurd (ht.uses y t q hX (.inr hs) hy) hQ,
          fun hs => absurd (ht.uses y t q hX (.inl hs) hy) hQ⟩
      · rw [ht.acs y hX]
  noPa := fun q hq => by
    by_cases hQ : Q q
    · exact hnoPa q hQ hq
    · rw [ht.pas q hQ] at hq
      have hno := h.noPa q hq
      exact ⟨fun g c hc => hno.cells g c (ht.prealloc q hQ g c hc),
        fun g hg => hno.list g ((ht.list q hQ g).mp hg), fun ho => hno.obj ((ht.obj q hQ).mp ho),
        fun hg => hno.grp ((ht.grp q hQ).mp hg)⟩
  toUnique := huniq
  toNodupLists := hnd

/-! ## Sections of one thread -/

def AcThread.SameKeys (t t' : AcThread) : Prop :=
  t.ac.acData = t'.ac.acData ∧ t.ac.acInode = t'.ac.acInode ∧ t.ac.acLg = t'.ac.acLg

/-- What a section of the thread `x` sets, and what it leaves alone. -/
structure Sets (st st' : MbState) (x : Nat) (t' : Option AcThread) (Q : Nat → Prop) : Prop where
  self : st'.acs x = t'
  acs : ∀ y, y ≠ x → st'.acs y = st.acs y
  pas : ∀ q, ¬ Q q → st'.pas q = st.pas q
  obj : st'.objDiscard = st.objDiscard
  grp : st'.grpDiscard = st.grpDiscard
  run : SameRun st st'

theorem Sets.thread (st : MbState) (x : Nat) (t' : Option AcThread) (Q : Nat → Prop)
    (sb : Ext4SbInfo) (f : Nat → Nat → Holder) :
    Sets st { st.setAc x t' with sb := sb, holder := f } x t' Q :=
  ⟨Function.update_self .., fun _ hy => Function.update_of_ne hy .., fun _ _ => rfl, rfl, rfl,
    ⟨rfl, rfl, rfl, rfl⟩⟩

variable {t' : Option AcThread}

theorem Sets.pa {p : Nat} {pa : Option Ext4PreallocSpace} {l : Nat → List Nat}
    {f : Nat → Nat → Holder}
    (h : st' = { (st.setAc x t').setPa p pa with bbPreallocList := l, holder := f }) :
    Sets st st' x t' (· = p) ∧ st'.pas p = pa := by
  rw [h]
  exact ⟨⟨Function.update_self .., fun _ hy => Function.update_of_ne hy ..,
    fun _ hq => Function.update_of_ne hq .., rfl, rfl, ⟨rfl, rfl, rfl, rfl⟩⟩,
    Function.update_self ..⟩

theorem Sets.mono {Q Q' : Nat → Prop} (h : Sets st st' x t' Q) (hQ : ∀ q, Q q → Q' q) :
    Sets st st' x t' Q' :=
  ⟨h.self, h.acs, fun q hq => h.pas q fun hq' => hq (hQ q hq'), h.obj, h.grp, h.run⟩

variable {t : AcThread}

/-- A section of one thread that goes on or returns, with the preallocations
`Q`. -/
theorem MbInv.thread (h : MbInv fs st) {Q : Nat → Prop} (hx : st.acs x = some t)
    (hs : Sets st st' x t' Q) (hkeys : ∀ u ∈ t', t.SameKeys u)
    (huses : ∀ q, t.Uses q ∨ (∃ u ∈ t', u.Uses q) → Q q)
    (hothers : ∀ y u q, y ≠ x → st.acs y = some u → u.Uses q → ¬ Q q)
    (hlist : ∀ q, ¬ Q q → ∀ g, q ∈ st'.bbPreallocList g ↔ q ∈ st.bbPreallocList g)
    (hcell : ∀ g c, st'.holder g c = st.holder g c ∨ MovesTo st (· = x) Q (st.holder g c)
      (st'.holder g c)) (hbooks : Books fs st') (hac : ∀ u ∈ t', AcInv fs st' x u)
    (hnoAc : t' = none → ∀ g c, st'.holder g c ≠ .inflight x)
    (hpa : ∀ p pa, Q p → st'.pas p = some pa → PaInv fs st' p pa)
    (hnoPa : ∀ p, Q p → st'.pas p = none → NoPa st' p)
    (hlists : ∀ g, (st'.bbPreallocList g).Nodup) :
    MbInv fs st' := by
  have hframe : Frame st st' (· = x) Q := by
    refine ⟨hs.acs, hs.pas, hlist, fun _ _ => by rw [hs.obj], fun _ _ => by rw [hs.grp], ?_,
      hothers⟩
    rintro y u q rfl (hu | hu) hq
    · cases hx.symm.trans hu
      exact huses q (.inl hq)
    · exact huses q (.inr ⟨u, hs.self.symm.trans hu, hq⟩)
  have hback : ∀ y u, st'.acs y = some u → ∃ t, st.acs y = some t ∧ t.SameKeys u := by
    intro y u hy
    by_cases heq : y = x
    · subst heq
      exact ⟨t, hx, hkeys u (hs.self.symm.trans hy)⟩
    · exact ⟨u, (hs.acs y heq).symm.trans hy, rfl, rfl, rfl⟩
  refine h.touch (hframe.touches h hcell) hbooks ?_ ?_ hpa hnoPa ⟨?_, ?_⟩
    ⟨hlists, by rw [hs.obj]; exact h.objs, by rw [hs.grp]; exact h.grps⟩
  · rintro y u rfl hu
    exact hac u (hs.self.symm.trans hu)
  · rintro y rfl hu
    exact hnoAc (hs.self.symm.trans hu)
  · intro y z u u' hy hz hd hd' hi
    obtain ⟨v, hv, h1, h2, -⟩ := hback y u hy
    obtain ⟨v', hv', h1', h2', -⟩ := hback z u' hz
    exact h.inodes y z v v' hv hv' (h1.trans hd) (h1'.trans hd') (by rw [h2, h2', hi])
  · intro y z u u' lg hy hz hl hl'
    obtain ⟨v, hv, -, -, h3⟩ := hback y u hy
    obtain ⟨v', hv', -, -, h3'⟩ := hback z u' hz
    exact h.lgs y z v v' lg hv hv' (h3.trans hl) (h3'.trans hl')

variable {ac : Ext4AllocationContext}

theorem not_uses_start : ¬ AcThread.Uses ⟨ac, .start⟩ q := by
  rintro (⟨-, h | h | h⟩ | ⟨-, h⟩) <;> cases h

theorem not_uses_done : ¬ AcThread.Uses ⟨ac, .done⟩ q := by
  rintro (⟨-, h | h | h⟩ | ⟨-, h⟩) <;> cases h

theorem AcThread.Uses.acPa (h : t.Uses q) : t.ac.acPa = some q :=
  h.elim (·.1) (·.1)

theorem not_uses_none (h : t.ac.acPa = none) : ¬ t.Uses q :=
  fun hq => nomatch h.symm.trans hq.acPa

theorem AcInv.past {t t' : AcThread} (h : AcInv fs st x t) (ho : t'.ac.acOEx = t.ac.acOEx)
    (hcells : ∀ g c, st'.holder g c ≠ .inflight x) (hstart : t'.phase ≠ .start)
    (hfound : t'.phase ≠ .found)
    (hmarked : t'.phase = .closing → ∀ c, t'.ac.acBEx.has c = true → ∃ o, st'.holder
      t'.ac.acBEx.feGroup c = .owned o)
    (hholds : ∀ p, t'.Holds p → ∃ pa, st'.pas p = some pa ∧ pa.paCount = 1 ∧ pa.paDeleted = false ∧
      Link fs t' pa)
    (hdrops : ∀ p, t'.Drops p → ∃ pa, st'.pas p = some pa ∧ pa.paFree = 0 ∧ pa.paDeleted = true) :
    AcInv fs st' x t' where
  aligned := ho ▸ h.aligned
  asked := ho ▸ h.asked
  cells := fun g c => ⟨fun h => absurd h (hcells g c), fun h => absurd h.1 hfound⟩
  fit := fun h => absurd h hfound
  hole := fun h => absurd h hstart
  taken := fun h => absurd h hfound
  marked := hmarked
  holds := hholds
  drops := hdrops

theorem fail_empty {c : Nat} (h : ac.fail.acBEx.has c = true) : False := by
  rw [Ext4FreeExtent.has, Bool.and_eq_true, decide_eq_true_iff, decide_eq_true_iff] at h
  exact Nat.lt_irrefl _ (Nat.lt_of_le_of_lt h.1 h.2)

/-- A section that only takes the thread `x` on, without any clusters or
preallocations. -/
theorem MbInv.advance (h : MbInv fs st) (hx : st.acs x = some t) (hfound : t.phase ≠ .found)
    (hno : ∀ q, ¬ t.Uses q)
    (hnext : ∀ u ∈ t', t.SameKeys u ∧ u.ac.acOEx = t.ac.acOEx ∧ (∀ q, ¬ u.Uses q) ∧ u.phase ≠ .start
      ∧ u.phase ≠ .found ∧ (u.phase = .closing → ∀ c, ¬ u.ac.acBEx.has c = true)) :
    MbInv fs (st.setAc x t') := by
  have hinv := h.ac x t hx
  have hcells : ∀ g c, st.holder g c ≠ .inflight x := fun g c hc =>
    hfound ((hinv.cells g c).mp hc).1
  refine h.thread hx (.thread st x t' (fun _ => False) _ _) (fun u hu => (hnext u hu).1) ?_
    (fun _ _ _ _ _ _ => id) (fun _ _ _ => Iff.rfl) (fun _ _ => .inl rfl)
    (h.books.recast ⟨rfl, rfl, rfl, rfl⟩ rfl fun _ _ => .inl rfl) (fun u hu => ?_)
    (fun _ => hcells) (fun _ _ => False.elim) (fun _ => False.elim) h.lists
  · rintro q (hq | ⟨u, hu, hq⟩)
    · exact hno q hq
    · exact (hnext u hu).2.2.1 q hq
  · obtain ⟨-, ho, hno', h1, h2, h3⟩ := hnext u hu
    exact hinv.past ho hcells h1 h2 (fun hc c hb => absurd hb (h3 hc c))
      (fun q hq => absurd (.inl hq) (hno' q)) fun q hq => absurd (.inr hq) (hno' q)

theorem MbInv.noSpace (h : MbInv fs st) (hx : st.acs x = some ⟨ac, .start⟩) :
    MbInv fs (st.setAc x (some ⟨ac.fail, .closing⟩)) := by
  have hnone : ac.fail.acPa = none := ((h.ac x _ hx).hole rfl).1
  refine h.advance hx nofun (fun _ => not_uses_start) fun u hu => ?_
  cases hu
  exact ⟨⟨rfl, rfl, rfl⟩, rfl, fun q => not_uses_none hnone, nofun, nofun, fun _ _ => fail_empty⟩

theorem MbInv.finish (h : MbInv fs st) (hx : st.acs x = some ⟨ac, .done⟩) :
    MbInv fs (st.setAc x none) :=
  h.advance hx nofun (fun _ => not_uses_done) nofun

theorem MbInv.releaseNone (h : MbInv fs st) (hx : st.acs x = some ⟨ac, .closing⟩)
    (hpa : ac.acPa = none) : MbInv fs (st.setAc x (some ⟨ac, .done⟩)) := by
  refine h.advance hx nofun (fun _ => not_uses_none hpa) fun u hu => ?_
  cases hu
  exact ⟨⟨rfl, rfl, rfl⟩, rfl, fun q => not_uses_done, nofun, nofun, nofun⟩

theorem FsLayout.lblkCmask_eq (fs : FsLayout) (lblk : Nat) :
    fs.lblkCmask lblk = fs.clusterRatio * (lblk / fs.clusterRatio) := by
  have := Nat.mod_add_div lblk fs.clusterRatio
  rw [FsLayout.lblkCmask]
  omega

variable {ac' : Ext4AllocationContext} {r : Ext4AllocationContext × Ext4PreallocSpace} {len s : Nat}

theorem MbInv.newBlocks (h : MbInv fs st) {x inode logical : Nat} {data : Bool} {lg : Option Nat}
    (hx : st.acs x = none) (hlegal : (MbOp.newBlocks x inode logical len data lg).Legal fs st) :
    MbInv fs (st.setAc x
      (some ⟨ext4MbInitializeContext fs inode logical len data lg, .start⟩)) := by
  obtain ⟨hlen, hdata, hlg⟩ := hlegal
  have hdiv : fs.lblkCmask logical / fs.clusterRatio = logical / fs.clusterRatio := by
    rw [fs.lblkCmask_eq, Nat.mul_div_cancel_left _ fs.ratio_pos]
  have hframe : Frame st (st.setAc x
      (some ⟨ext4MbInitializeContext fs inode logical len data lg, .start⟩)) (· = x)
      (fun _ => False) := by
    refine ⟨fun y hy => by rw [acs_setAc, if_neg hy], fun _ _ => rfl, fun _ _ _ => Iff.rfl,
      fun _ _ => Iff.rfl, fun _ _ => Iff.rfl, ?_, fun _ _ _ _ _ _ => id⟩
    rintro y u q rfl hu hq
    rw [hx, acs_setAc, if_pos rfl] at hu
    rcases hu with hu | hu <;> cases hu
    exact not_uses_start hq
  refine h.touch (hframe.touches h fun _ _ => .inl rfl)
    (h.books.recast ⟨rfl, rfl, rfl, rfl⟩ rfl fun _ _ => .inl rfl) ?_ ?_ (fun _ _ => False.elim)
    (fun _ => False.elim) ⟨?_, ?_⟩ ⟨h.lists, h.objs, h.grps⟩
  · rintro y u rfl hu
    rw [acs_setAc, if_pos rfl] at hu
    cases hu
    refine ⟨?_, Nat.lt_min.mpr ⟨hlen, fs.clusters_pos⟩,
      fun g c => ⟨fun hc => absurd hc (h.noAc y hx g c), nofun⟩, nofun,
      fun _ => ⟨rfl, fun hd g c lc h1 h2 => ?_⟩, nofun, nofun,
      fun q hq => absurd (.inl hq) not_uses_start, fun q hq => absurd (.inr hq) not_uses_start⟩
    · show _ ∣ fs.lblkCmask logical
      rw [fs.lblkCmask_eq]
      exact Dvd.intro _ rfl
    · dsimp only [ext4MbInitializeContext] at hd h1 h2
      rw [hdiv] at h1 h2
      exact (hdata hd).2 g c lc h1 (Nat.lt_of_lt_of_le h2
        (Nat.add_le_add_left (Nat.min_le_left _ _) _))
  · rintro y rfl hu
    rw [acs_setAc, if_pos rfl] at hu
    cases hu
  · intro y z t t' hy hz hd hd' hi
    rw [acs_setAc] at hy hz
    split at hy <;> split at hz
    · rename_i h1 h2
      rw [h1, h2]
    · cases hy
      exact absurd hi.symm ((hdata hd).1 z t' hz hd')
    · cases hz
      exact absurd hi ((hdata hd').1 y t hy hd)
    · exact h.inodes y z t t' hy hz hd hd' hi
  · intro y z t t' l hy hz hl hl'
    rw [acs_setAc] at hy hz
    split at hy <;> split at hz
    · rename_i h1 h2
      rw [h1, h2]
    · cases hy
      exact absurd hl' ((hlg l hl).2 z t' hz)
    · cases hz
      exact absurd hl ((hlg l hl').2 y t hy)
    · exact h.lgs y z t t' l hy hz hl hl'

theorem has_iff_inRange {e : Ext4FreeExtent} {c : Nat} :
    e.has c = true ↔ InRange e.feStart e.feLen c := by
  rw [Ext4FreeExtent.has, Bool.and_eq_true, decide_eq_true_iff, decide_eq_true_iff]
  rfl

theorem Books.free_lt (h : Books fs st) {g c : Nat}
    (hf : Free fs.toGeometry (st.sb.groups g).e4b.bdBitmap c) : c < fs.clustersPerGroup := by
  rcases Nat.lt_or_ge c fs.clustersPerGroup with hlt | hge
  · exact hlt
  · have := (h.fd.canon g).padded c hge hf.1
    rw [hf.2] at this
    nomatch this

theorem MbInv.regularAllocator (h : MbInv fs st) {x g start : Nat} {goal : Ext4FreeExtent}
    (hx : st.acs x = some ⟨ac, .start⟩)
    (hlegal : (MbOp.regularAllocator x goal g start len).Legal fs st) {r : Nat × Ext4Buddy}
    (hr : mbMarkUsed fs.toGeometry (st.sb.groups g).e4b start (min len goal.feLen) = some r)
    {b : Ext4FreeExtent} (hb : b = ⟨goal.feLogical, start, g, min len goal.feLen⟩) :
    MbInv fs (((st.setAc x (some ⟨{ ac with
        acGEx := goal, acBEx := b, acFEx := b, acBitmapPage := some g }, .found⟩)).setGroup g
          { st.sb.groups g with e4b := r.2 }).give g b.has fun _ => .inflight x) := by
  obtain ⟨hlen, hgoal, hdata, hfree⟩ := hlegal
  have hinv := h.ac x _ hx
  have hnone : ac.acPa = none := (hinv.hole rfl).1
  have hpos : 0 < min len goal.feLen := Nat.lt_min.mpr ⟨hlen, hgoal⟩
  have hrange : ∀ c, b.has c = true ↔ InRange start (min len goal.feLen) c := fun c => by
    rw [has_iff_inRange, hb]
  have hfree' : ∀ c, InRange start (min len goal.feLen) c →
      Free fs.toGeometry (st.sb.groups g).e4b.bdBitmap c := fun c hc =>
    hfree c hc.1 (by have := hc.2; omega)
  have hlt : ∀ c, b.has c = true → c < fs.clustersPerGroup := fun c hc =>
    h.books.free_lt (hfree' c ((hrange c).mp hc))
  have hold : ∀ c, b.has c = true → st.holder g c = .free := fun c hc => by
    have := h.books.incore g c (hlt c hc)
    rw [(hfree' c ((hrange c).mp hc)).2] at this
    by_contra hne
    exact nomatch this.mpr hne
  obtain ⟨ret, e4b, heq, hcanon, hbm, hsound⟩ := mbMarkUsed_spec (h.books.fd.canon g) hpos hfree'
  cases heq.symm.trans hr
  generalize hst' : ((st.setAc x _).setGroup g _).give g b.has _ = st'
  have hsets : Sets st st' x (some ⟨{ ac with
      acGEx := goal, acBEx := b, acFEx := b, acBitmapPage := some g }, .found⟩) fun _ => False := by
    rw [← hst']
    exact .thread ..
  have hgives : Gives st st' g b.has fun _ => .inflight x := by
    rw [← hst']
    exact fun _ _ => rfl
  have hbooks : Books fs st' := by
    refine h.books.setGroup hsets.run (by rw [← hst']; rfl) hgives hcanon
      (hsound.trans (h.books.fd.sound g)) (fun c hc => ?_) fun c hc => ⟨rfl, .inl ?_⟩
    · rw [hbm, fill_in ((hrange c).mp hc), h.books.disk g c (hlt c hc), hold c hc]
      simp [hlt c hc]
    · rw [hbm, fill_out fun hh => by simp [(hrange c).mpr hh] at hc]
  refine h.thread hx hsets (fun u hu => by cases hu; exact ⟨rfl, rfl, rfl⟩) ?_
    (fun _ _ _ _ _ _ => id) (fun _ _ _ => by rw [← hst']; rfl)
    (hgives.cell fun c hc => by simp [MovesTo, hold c hc]) hbooks (fun u hu => ?_) nofun
    (fun _ _ => False.elim) (fun _ => False.elim) (by rw [← hst']; exact h.lists)
  · rintro q (hq | ⟨u, hu, hq⟩)
    · exact not_uses_start hq
    · cases hu
      exact not_uses_none hnone hq
  · cases hu
    exact
      { aligned := hinv.aligned
        asked := hinv.asked
        cells := fun g' c => by
          by_cases hc : g' = g ∧ b.has c = true
          · rw [hgives.on hc]
            exact iff_of_true rfl ⟨rfl, by rw [hb]; exact hc.1, hc.2⟩
          · rw [hgives.off hc]
            refine iff_of_false (fun hh => ?_) fun hh => hc ⟨?_, hh.2.2⟩
            · exact nomatch ((hinv.cells g' c).mp hh).1
            · rw [hh.2.1, hb]
        fit := fun _ => by
          have := hlt (start + min len goal.feLen - 1) ((hrange _).mpr ⟨by omega, by omega⟩)
          rw [hb]
          exact ⟨hpos, by dsimp only; omega⟩
        hole := nofun
        taken := fun _ _ => ⟨by rw [hb], rfl, fun hlt => by
          by_contra hnd
          have hg := hdata _ hx (Bool.eq_false_iff.mpr hnd)
          rw [hb, hg] at hlt
          exact Nat.lt_irrefl _ (Nat.lt_of_lt_of_le hlt (Nat.min_le_right _ _))⟩
        marked := nofun
        holds := fun q hq => (not_uses_none (by exact hnone) (.inl hq)).elim
        drops := fun q hq => (not_uses_none (by exact hnone) (.inr hq)).elim }

/-! ## Using a preallocation -/

theorem MbInv.holds_unique (h : MbInv fs st) {x y p : Nat} {t t' : AcThread}
    (hx : st.acs x = some t) (hy : st.acs y = some t') (ht : t.Holds p) (ht' : t'.Holds p) :
    x = y := by
  obtain ⟨pa, hpa, -, -, hl⟩ := (h.ac x t hx).holds p ht
  obtain ⟨pa', hpa', -, -, hl'⟩ := (h.ac y t' hy).holds p ht'
  cases hpa.symm.trans hpa'
  unfold Link at hl hl'
  cases hty : pa.paType with
  | inodePa i =>
    rw [hty] at hl hl'
    exact h.inodes x y t t' hx hy hl.2.1 hl'.2.1 (hl.1.trans hl'.1.symm)
  | groupPa lg =>
    rw [hty] at hl hl'
    exact h.lgs x y t t' lg hx hy hl.1 hl'.1

variable {pa : Ext4PreallocSpace}

theorem MbInv.live (h : MbInv fs st) {p : Nat} (hp : st.pas p = some pa)
    (hlive : pa.paDeleted = false) :
    p ∉ st.objDiscard ∧ p ∉ st.grpDiscard ∧ ∀ y t, st.acs y = some t → ¬ t.Drops p := by
  have hnot : ¬ pa.paDeleted = true := by simp [hlive]
  refine ⟨fun ho => hnot ((h.pa p pa hp).listed (.inl ho)),
    fun hg => hnot ((h.pa p pa hp).listed (.inr hg)), fun y t hy hd => ?_⟩
  obtain ⟨pa', hp', -, hdel⟩ := (h.ac y t hy).drops p hd
  cases hp.symm.trans hp'
  exact hnot hdel

theorem PaInv.inUse {x p : Nat} {t' : AcThread} (hs : Sets st st' x (some t') (· = p))
    (ht' : t'.Holds p) (hdrops : ∀ y u, st.acs y = some u → ¬ u.Drops p)
    (hoff : p ∉ st.objDiscard ∧ p ∉ st.grpDiscard)
    (hplace : ∃ g s, PaPlace fs pa g s ∧ ∀ g', p ∈ st'.bbPreallocList g' ↔ g' = g ∧ p ∉
      st'.grpDiscard) (hcount : pa.paCount = 1) (hlive : pa.paDeleted = false)
    (hown : ∀ g c, st'.holder g c = .prealloc p → pa.Has fs g c)
    (hpart : ∀ g c, pa.Has fs g c → Part fs st' p pa g c) (hleft : FreeCount fs st' p pa) :
    PaInv fs st' p pa where
  place := hplace
  own := hown
  part := hpart
  count := .inl ⟨hcount, x, t', hs.self, ht'⟩
  idle := fun hd => nomatch hlive.symm.trans hd
  listed := by
    rw [hs.obj, hs.grp]
    exact fun hh => (hh.elim hoff.1 hoff.2).elim
  apart := by
    rw [hs.obj]
    exact fun hh => absurd hh hoff.1
  dropped := fun y u hy hd => by
    by_cases heq : y = x
    · subst heq
      cases hs.self.symm.trans hy
      rcases ht'.2 with h1 | h1 | h1 <;> cases hd.2.symm.trans h1
    · rw [hs.acs y heq] at hy
      exact absurd hd (hdrops y u hy)
  alive := fun h0 => nomatch hcount.symm.trans h0
  left := hleft

/-- A thread that has found clusters of a preallocation. -/
theorem AcInv.takes {p : Nat} (h : AcInv fs st x t) (ho : ac'.acOEx = t.ac.acOEx)
    (hapa : ac'.acPa = some p)
    (hcells : ∀ g c, st'.holder g c = .inflight x ↔ g = ac'.acBEx.feGroup ∧ ac'.acBEx.has c = true)
    (hfit : 0 < ac'.acBEx.feLen ∧ ac'.acBEx.feStart + ac'.acBEx.feLen ≤ fs.clustersPerGroup)
    (hpa : st'.pas p = some pa) (hcount : pa.paCount = 1) (hlive : pa.paDeleted = false)
    (hlink : Link fs ⟨ac', .found⟩ pa) : AcInv fs st' x ⟨ac', .found⟩ where
  aligned := ho ▸ h.aligned
  asked := ho ▸ h.asked
  cells := fun g c => (hcells g c).trans (and_iff_right rfl).symm
  fit := fun _ => hfit
  hole := nofun
  taken := fun _ hh => nomatch hapa.symm.trans hh
  marked := nofun
  holds := fun q hq => by
    cases Option.some.inj (hapa.symm.trans hq.1)
    exact ⟨pa, hpa, hcount, hlive, hlink⟩
  drops := fun q hq => nomatch hq.2

/-- The clusters of a preallocation that no thread refers to. -/
theorem PaInv.part_idle {p g c : Nat} (h : PaInv fs st p pa)
    (hno : ∀ y t, st.acs y = some t → ¬ t.Holds p) (hc : pa.Has fs g c) :
    st.holder g c = .prealloc p ∨ ∃ i, pa.paType = .inodePa i ∧
      st.holder g c = .owned (.data i (pa.lcluster fs + (c - fs.groupOffset pa.paPstart))) := by
  rcases h.part g c hc with hh | ⟨y, t, hy, ht, -⟩ | hh | ⟨-, y, t, -, hy, ht, -⟩
  · exact .inl hh
  · exact absurd ht (hno y t hy)
  · exact .inr hh
  · exact absurd ht (hno y t hy)

/-- **A thread takes clusters of a preallocation.** -/
theorem MbInv.usePa (h : MbInv fs st) {x p g k n : Nat} {ac : Ext4AllocationContext}
    {pa pa' : Ext4PreallocSpace} (hx : st.acs x = some ⟨ac, .start⟩) (hp : st.pas p = some pa)
    (hlive : pa.paDeleted = false) (hno : ∀ y t, st.acs y = some t → ¬ t.Holds p)
    (hplace : PaPlace fs pa g s) (hn : 0 < n) (hkn : k + n ≤ pa.paLen)
    (hcells : ∀ c, InRange (s + k) n c → st.holder g c = .prealloc p)
    (hkeys : AcThread.SameKeys ⟨ac, .start⟩ ⟨ac', .found⟩) (ho : ac'.acOEx = ac.acOEx)
    (hapa : ac'.acPa = some p) (hg : ac'.acBEx.feGroup = g) (hs : ac'.acBEx.feStart = s + k)
    (hlen : ac'.acBEx.feLen = n)
    (hpa' : pa' = { pa with paFree := pa'.paFree, paCount := pa.paCount + 1 })
    (hlink : Link fs ⟨ac', .found⟩ pa')
    (hst' : st' = ((st.setAc x (some ⟨ac', .found⟩)).setPa p (some pa')).give ac'.acBEx.feGroup
      ac'.acBEx.has fun _ => .inflight x) (hleft : FreeCount fs st' p pa') : MbInv fs st' := by
  have hinv := h.ac x _ hx
  have hpinv := h.pa p pa hp
  obtain ⟨hobj, hgrp, hdrops⟩ := h.live hp hlive
  have hcount : pa'.paCount = 1 := by
    rw [hpa']
    rcases hpinv.count with ⟨-, y, t, hy, ht⟩ | ⟨h0, -⟩
    · exact absurd ht (hno y t hy)
    · rw [h0]
  have hlive' : pa'.paDeleted = false := by
    rw [hpa']
    exact hlive
  obtain ⟨hsets, hpasp⟩ := Sets.pa hst'
  have hgives : Gives st st' g ac'.acBEx.has fun _ => .inflight x := by
    rw [hst', ← hg]
    exact fun _ _ => rfl
  have hold : ∀ c, ac'.acBEx.has c = true → st.holder g c = .prealloc p := fun c hc => by
    rw [has_iff_inRange, hs, hlen] at hc
    exact hcells c hc
  have hhas : ∀ g' c, pa'.Has fs g' c ↔ pa.Has fs g' c := fun g' c => by
    rw [hpa']
    rfl
  have hxp : AcThread.Holds ⟨ac', .found⟩ p := ⟨hapa, .inl rfl⟩
  refine h.thread hx hsets (fun u hu => by cases hu; exact hkeys) ?_ ?_
    (fun _ _ _ => by rw [hst']; rfl) (hgives.cell fun c hc => by simp [MovesTo, hold c hc])
    (h.books.recast hsets.run (by rw [hst']; rfl)
      (hgives.cell fun c hc => by rw [hold c hc]; exact ⟨rfl, rfl⟩)) (fun u hu => ?_) nofun ?_ ?_
    (by rw [hst']; exact h.lists)
  · rintro q (hq | ⟨u, hu, hq⟩)
    · exact absurd hq not_uses_start
    · cases hu
      exact (Option.some.inj (hapa.symm.trans hq.acPa)).symm
  · rintro y t q hy ht hq rfl
    exact hq.elim (hno y t ht) (hdrops y t ht)
  · cases hu
    refine hinv.takes ho hapa (fun g' c => ?_) ?_ hpasp hcount hlive' hlink
    · rw [hg]
      by_cases hc : g' = g ∧ ac'.acBEx.has c = true
      · exact iff_of_true (hgives.on hc) hc
      · rw [hgives.off hc, hinv.cells]
        exact iff_of_false (fun hh => nomatch hh.1) hc
    · rw [hs, hlen]
      have := hplace.fit
      omega
  · rintro q qa rfl hqa
    cases hpasp.symm.trans hqa
    obtain ⟨g0, s0, hpl0, hlist⟩ := hpinv.place
    refine PaInv.inUse hsets hxp hdrops ⟨hobj, hgrp⟩ ⟨g0, s0, ?_, by rw [hst']; exact hlist⟩ hcount
      hlive' (fun g' c hc => ?_) (fun g' c hc => ?_) hleft
    · rw [hpa']
      exact ⟨hpl0.eq, hpl0.fit, hpl0.pos⟩
    · rw [hgives g' c] at hc
      split at hc
      · cases hc
      · exact (hhas g' c).mpr (hpinv.own g' c hc)
    · by_cases hr : g' = g ∧ ac'.acBEx.has c = true
      · exact .inr (.inl ⟨x, _, hsets.self, hxp, hgives.on hr⟩)
      · rw [Part, hgives.off hr]
        rcases hpinv.part_idle hno ((hhas g' c).mp hc) with h1 | h1
        · exact .inl h1
        · rw [hpa']
          exact .inr (.inr (.inl h1))
  · rintro q rfl hq
    cases hpasp.symm.trans hq

/-- Rounding the one down and the other up, two parts lose nothing. -/
theorem div_add_roundUp {r a d m : Nat} (hr : 0 < r) (h : a + d = r * m) :
    d / r + (a + r - 1) / r = m := by
  cases a with
  | zero =>
    rw [← Nat.zero_add d, h, Nat.mul_div_cancel_left _ hr, Nat.div_eq_of_lt (by omega),
      Nat.add_zero]
  | succ a =>
    have hlt := Nat.div_lt_of_lt_mul (show a < r * m by omega)
    rw [show d = r * m - (a + 1) by omega, Nat.mul_sub_div _ _ _ (by omega),
      show a + 1 + r - 1 = a + r by omega, Nat.add_div_right _ hr]
    omega

/-- The part of an inode preallocation that belongs to the request: it
starts `k` clusters in, where its logical cluster is. -/
theorem ext4MbUseInodePa_spec {p g : Nat} (hplace : PaPlace fs pa g s)
    (haligned : fs.clusterRatio ∣ ac.acOEx.feLogical) (hr : ext4MbUseInodePa fs ac p pa = some r) :
    ∃ k n, 0 < n ∧ n ≤ ac.acOEx.feLen ∧ k + n ≤ pa.paLen ∧
      k + pa.lcluster fs = ac.acOEx.feLogical / fs.clusterRatio ∧
      r.1 = { ac with
        acBEx := { ac.acBEx with feGroup := g, feStart := s + k, feLen := n }, acPa := some p } ∧
      r.2 = { pa with paFree := pa.paFree - n } := by
  have hr0 := fs.ratio_pos
  unfold ext4MbUseInodePa at hr
  dsimp only at hr
  split at hr
  · cases hr
  rename_i hbug
  push Not at hbug
  obtain ⟨hstart, hstop, hfree, hlen⟩ := hbug
  obtain ⟨m, hm⟩ := haligned
  -- the distance from the start of the preallocation, in blocks
  obtain ⟨d, hd⟩ : ∃ d : Nat, ac.acOEx.feLogical = pa.paLstart + d :=
    ⟨ac.acOEx.feLogical - pa.paLstart, by omega⟩
  have hsum : (pa.paPstart + ((ac.acOEx.feLogical : Int) - pa.paLstart))
      = (pa.paPstart + d : Nat) := by
    omega
  rw [hsum] at hr hstop hfree hlen
  generalize hw : (min ((pa.paPstart : Int) + fs.c2b pa.paLen)
    ((pa.paPstart + d : Nat) + fs.c2b ac.acOEx.feLen) - (pa.paPstart + d : Nat))
      = w at hr hfree hlen
  obtain ⟨n, hn⟩ : ∃ n : Nat, (w + fs.clusterRatio - 1) / fs.clusterRatio = n :=
    ⟨((w + fs.clusterRatio - 1) / fs.clusterRatio).toNat, by omega⟩
  rw [hn] at hr hlen hfree
  -- `n` is `w` in clusters, rounded up
  have hlow : (fs.clusterRatio : Int) * n ≤ w + fs.clusterRatio - 1 := by
    rw [← hn]
    exact Int.mul_ediv_self_le (by omega)
  have hwpos : 0 < w := by
    have : (fs.clusterRatio : Int) * 1 ≤ fs.clusterRatio * n :=
      Int.mul_le_mul_of_nonneg_left (by omega) (by omega)
    omega
  obtain ⟨hw1, hw2⟩ : w ≤ (fs.clusterRatio * pa.paLen : Nat) - d
      ∧ w ≤ (fs.clusterRatio * ac.acOEx.feLen : Nat) := by
    rw [← hw, Nat.mul_comm fs.clusterRatio, Nat.mul_comm fs.clusterRatio]
    unfold FsLayout.c2b
    omega
  have hdlt : d < fs.clusterRatio * pa.paLen := by omega
  have hdm : d % fs.clusterRatio + fs.clusterRatio * (d / fs.clusterRatio) = d :=
    Nat.mod_add_div _ _
  have hfit : fs.clusterRatio * (d / fs.clusterRatio + n) < fs.clusterRatio * (pa.paLen + 1) := by
    rw [Nat.mul_add, Nat.mul_add]
    omega
  have hfit2 : fs.clusterRatio * n < fs.clusterRatio * (ac.acOEx.feLen + 1) := by
    rw [Nat.mul_add]
    omega
  have hblock : s * fs.clusterRatio + d < fs.blocksPerGroup := by
    have h1 : (s + pa.paLen) * fs.clusterRatio ≤ fs.blocksPerGroup :=
      Nat.mul_le_mul_right _ hplace.fit
    rw [Nat.add_mul, Nat.mul_comm pa.paLen] at h1
    omega
  obtain ⟨hg, hs⟩ := fs.block_spec (g := g) hblock
  cases hr
  have h1 := Nat.lt_of_mul_lt_mul_left hfit
  have h2 := Nat.lt_of_mul_lt_mul_left hfit2
  refine ⟨d / fs.clusterRatio, n, by omega, by omega, by omega, ?_, ?_, ?_⟩
  · -- the request starts at a cluster boundary
    rw [Ext4PreallocSpace.lcluster, FsLayout.numB2c, hm, Nat.mul_div_cancel_left _ hr0]
    exact div_add_roundUp hr0 (hd.symm.trans hm)
  · rw [Int.toNat_natCast, hplace.eq, hg, hs, Int.toNat_natCast]
  · rfl

section

variable (h : MbInv fs st) {x p : Nat} (hx : st.acs x = some ⟨ac, .start⟩)
  (hp : st.pas p = some pa)

include h hx hp

/-- A preallocation that could only be held by the thread that starts is held
by nobody. -/
theorem MbInv.not_held (honly : ∀ y t, st.acs y = some t → Link fs t pa → y = x) :
    ∀ y t, st.acs y = some t → ¬ t.Holds p := by
  intro y t hy ht
  obtain ⟨qa, hqa, -, -, hl⟩ := (h.ac y t hy).holds p ht
  cases hp.symm.trans hqa
  obtain rfl := honly y t hy hl
  cases hx.symm.trans hy
  exact not_uses_start (.inl ht)

/-- `ext4_mb_use_inode_pa` on a preallocation that passed the test: the
logical clusters of the request are a hole, so nobody has their clusters. -/
theorem MbInv.useInodePa (husable : usableInodePa fs ac pa = true)
    (hr : ext4MbUseInodePa fs ac p { pa with paCount := pa.paCount + 1 } = some r) :
    MbInv fs (((st.setAc x (some ⟨r.1, .found⟩)).setPa p (some r.2)).give r.1.acBEx.feGroup
      r.1.acBEx.has fun _ => .inflight x) := by
  have hinv := h.ac x _ hx
  have hpinv := h.pa p pa hp
  simp only [usableInodePa, Bool.and_eq_true, decide_eq_true_iff, Bool.not_eq_true'] at husable
  obtain ⟨⟨⟨⟨⟨hdata, htype⟩, -⟩, -⟩, hlive⟩, -⟩ := husable
  obtain ⟨g, s, hplace, -⟩ := hpinv.place
  have hplace' : PaPlace fs { pa with paCount := pa.paCount + 1 } g s :=
    ⟨hplace.eq, hplace.fit, hplace.pos⟩
  obtain ⟨k, n, hn, hno, hkn, hlc, h1, h2⟩ := ext4MbUseInodePa_spec hplace' hinv.aligned hr
  replace hlc : k + pa.lcluster fs = ac.acOEx.feLogical / fs.clusterRatio := hlc
  dsimp only at hkn hno
  have hstart := hplace.start (by omega)
  have hholds : ∀ y t, st.acs y = some t → ¬ t.Holds p := h.not_held hx hp fun y t hy hl => by
    rw [Link, htype] at hl
    exact h.inodes y x t _ hy hx hl.2.1 hdata hl.1
  have hcells : ∀ c, InRange (s + k) n c → st.holder g c = .prealloc p := by
    intro c hc
    have h3 := hc.1
    have h4 := hc.2
    have hhas : pa.Has fs g c := (hplace.has_iff g c).mpr ⟨rfl, by omega, by omega⟩
    rcases hpinv.part_idle hholds hhas with hh | ⟨i, hi, hh⟩
    · exact hh
    · rw [htype] at hi
      cases hi
      refine absurd hh ((hinv.hole rfl).2 hdata g c _ ?_ ?_)
      · rw [hstart.2, ← hlc]
        omega
      · rw [hstart.2, ← hlc]
        dsimp only
        omega
  refine h.usePa hx hp hlive hholds hplace hn hkn hcells (by rw [h1]; exact ⟨rfl, rfl, rfl⟩)
    (by rw [h1]) (by rw [h1]) (by rw [h1]) (by rw [h1]) (by rw [h1]) (by rw [h2]) ?_ rfl ?_
  · rw [Link, h1, h2]
    dsimp only
    rw [htype]
    refine ⟨rfl, hdata, fun _ => ⟨hstart.1.symm, ?_, ?_, ?_⟩⟩
    · omega
    · rw [hstart.2]
      omega
    · rw [hstart.2, ← hlc, ← Nat.add_assoc]
      rfl
  · have hleft := hpinv.left
    rw [FreeCount, htype] at hleft
    rw [FreeCount, h1, h2]
    dsimp only
    rw [htype]
    refine ⟨hleft.1, ?_⟩
    rw [hleft.2, hstart.1, hstart.2]
    have hcnt : cnt pa.paLen (fun k => st.holder g (s + k) = .prealloc p)
        = cnt pa.paLen (fun k' => (if g = g ∧ Ext4FreeExtent.has
            { ac.acBEx with feGroup := g, feStart := s + k, feLen := n } (s + k') = true
          then Holder.inflight x else st.holder g (s + k')) = .prealloc p) + n := by
      refine cnt_add (show k + n ≤ pa.paLen from hkn)
        (fun i hi1 hi2 => ⟨hcells _ ⟨by omega, by omega⟩, ?_⟩)
        (fun i hi hi' => ?_)
      · rw [if_pos ⟨rfl, has_iff_inRange.mpr ⟨by dsimp only; omega, by dsimp only; omega⟩⟩]
        exact Holder.noConfusion
      · rw [if_neg]
        rintro ⟨-, hh⟩
        have := has_iff_inRange.mp hh
        exact hi' ⟨by have := this.1; dsimp only at this; omega,
          by have := this.2; dsimp only at this; omega⟩
    exact Int.sub_eq_iff_eq_add.mpr hcnt

/-- `ext4_mb_use_group_pa`: the mutex of the locality group keeps other
threads out. -/
theorem MbInv.useGroupPa (husable : usableGroupPa ac pa = true) :
    MbInv fs (((st.setAc x (some ⟨ext4MbUseGroupPa fs ac p pa, .found⟩)).setPa p
      (some { pa with paCount := pa.paCount + 1 })).give (ext4MbUseGroupPa fs ac p pa).acBEx.feGroup
        (ext4MbUseGroupPa fs ac p pa).acBEx.has fun _ => .inflight x) := by
  have hinv := h.ac x _ hx
  have hpinv := h.pa p pa hp
  unfold usableGroupPa at husable
  split at husable
  · cases husable
  rename_i lg hlg
  simp only [Bool.and_eq_true, decide_eq_true_iff, Bool.not_eq_true'] at husable
  obtain ⟨⟨htype, hlive⟩, hfree⟩ := husable
  have hleft := hpinv.left
  rw [FreeCount, htype] at hleft
  dsimp only at hleft
  have hasked := hinv.asked
  dsimp only at hasked
  obtain ⟨g, s, hplace, -⟩ := hpinv.place
  have hstart := hplace.start (by omega)
  have hholds : ∀ y t, st.acs y = some t → ¬ t.Holds p := h.not_held hx hp fun y t hy hl => by
    rw [Link, htype] at hl
    exact h.lgs y x t _ lg hy hx hl.1 hlg
  have hcells : ∀ c, InRange (s + 0) ac.acOEx.feLen c → st.holder g c = .prealloc p := by
    intro c hc
    have h3 := hc.1
    have h4 := hc.2
    have hhas : pa.Has fs g c := (hplace.has_iff g c).mpr ⟨rfl, by omega, by omega⟩
    rcases hpinv.part_idle hholds hhas with hh | ⟨i, hi, -⟩
    · exact hh
    · rw [htype] at hi
      cases hi
  refine h.usePa hx hp hlive hholds hplace hasked (by omega) hcells (by exact ⟨rfl, rfl, rfl⟩)
    (by rfl) (by rfl) (by exact hstart.1) (by exact hstart.2) (by rfl) (by rfl) ?_ rfl ?_
  · rw [Link, htype]
    exact ⟨hlg, fun _ => ⟨by show ac.acOEx.feLen ≤ pa.paLen; omega, fun _ => ⟨rfl, rfl⟩⟩⟩
  · rw [FreeCount, htype]
    exact hleft

end

end Ext4.Mballoc
