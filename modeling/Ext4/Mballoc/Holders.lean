import Ext4.Mballoc.FreedRuns
import Ext4.Mballoc.NewBlocks

/-!
# Multiblock allocator — every cluster has one holder

The bitmaps, the preallocations, the freed data and the threads are read as
one map from clusters to holders. Since it is a map, no cluster is held
twice; the invariant says that all parts of the state agree with it.
-/

namespace Ext4.Mballoc

open Bitmap Dyadic SearchTree

/-! ## Places -/

variable {d p : Nat}

/-- A block of a group, counted from the start of one of its clusters. -/
theorem FsLayout.block_spec (fs : FsLayout) {g s : Nat}
    (h : s * fs.clusterRatio + d < fs.blocksPerGroup) :
    fs.groupNo (fs.grpOffsToBlock g s + d) = g ∧
      fs.groupOffset (fs.grpOffsToBlock g s + d) = s + d / fs.clusterRatio := by
  have hsub : fs.grpOffsToBlock g s + d - fs.firstDataBlock
      = s * fs.clusterRatio + d + fs.blocksPerGroup * g := by
    rw [grpOffsToBlock, c2b, Nat.mul_comm g]
    omega
  rw [groupNo, groupOffset, hsub, Nat.add_mul_div_left _ _ fs.bpg_pos, Nat.div_eq_of_lt h,
    Nat.zero_add, Nat.add_mul_mod_self_left, Nat.mod_eq_of_lt h, Nat.mul_comm s,
    Nat.mul_add_div fs.ratio_pos]
  exact ⟨rfl, rfl⟩

theorem FsLayout.cluster_lt (fs : FsLayout) {s : Nat} (hs : s < fs.clustersPerGroup)
    (hd : d < fs.clusterRatio) : s * fs.clusterRatio + d < fs.blocksPerGroup := by
  have : (s + 1) * fs.clusterRatio ≤ fs.blocksPerGroup := Nat.mul_le_mul_right _ hs
  rw [Nat.add_mul, Nat.one_mul] at this
  omega

/-- The preallocation starts at cluster `s` of group `g` and ends in it. It
is not empty unless it has been consumed. -/
structure PaPlace (fs : FsLayout) (pa : Ext4PreallocSpace) (g s : Nat) : Prop where
  eq : pa.paPstart = fs.grpOffsToBlock g s
  fit : s + pa.paLen ≤ fs.clustersPerGroup
  pos : 0 < s + pa.paLen

namespace PaPlace

variable {fs : FsLayout} {pa : Ext4PreallocSpace} {g s : Nat}

theorem start (h : PaPlace fs pa g s) (hlen : 0 < pa.paLen) :
    fs.groupNo pa.paPstart = g ∧ fs.groupOffset pa.paPstart = s := by
  have hs : s < fs.clustersPerGroup := by have := h.fit; omega
  rw [h.eq]
  simpa using fs.block_spec (g := g) (fs.cluster_lt hs fs.ratio_pos)

theorem has_iff (h : PaPlace fs pa g s) (g' c : Nat) :
    pa.Has fs g' c ↔ g' = g ∧ s ≤ c ∧ c < s + pa.paLen := by
  rcases Nat.eq_zero_or_pos pa.paLen with h0 | hpos
  · rw [Ext4PreallocSpace.Has, h0]
    omega
  · obtain ⟨h1, h2⟩ := h.start hpos
    rw [Ext4PreallocSpace.Has, h1, h2, eq_comm]

/-- The group `ext4_mb_put_pa` goes to, which it takes from the last block
that was used if nothing is left. -/
theorem putPaGroup_eq (h : PaPlace fs pa g s)
    (hempty : ∀ lg, pa.paType = .groupPa lg → pa.paLen = 0)
    (hinode : ∀ i, pa.paType = .inodePa i → 0 < pa.paLen) : putPaGroup fs pa = g := by
  unfold putPaGroup
  split
  · rename_i i hi
    exact (h.start (hinode i hi)).1
  · rename_i lg hlg
    have hlen := hempty lg hlg
    have hs : 0 < s := by have := h.pos; omega
    have hr := fs.ratio_pos
    have hblock : pa.paPstart - 1 = fs.grpOffsToBlock g (s - 1) + (fs.clusterRatio - 1) := by
      obtain ⟨k, rfl⟩ := Nat.exists_eq_add_of_lt hs
      rw [h.eq, FsLayout.grpOffsToBlock, FsLayout.grpOffsToBlock, FsLayout.c2b, FsLayout.c2b,
        Nat.zero_add, Nat.add_sub_cancel, Nat.add_mul, Nat.one_mul]
      omega
    rw [hblock]
    exact (fs.block_spec (fs.cluster_lt (by have := h.fit; omega) (by omega))).1

end PaPlace

/-! ## The invariant -/

/-- The thread has a reference to the preallocation. -/
def AcThread.Holds (t : AcThread) (p : Nat) : Prop :=
  t.ac.acPa = some p ∧ (t.phase = .found ∨ t.phase = .closing ∨ t.phase = .released)

/-- The thread is about to take the preallocation off its list. -/
def AcThread.Drops (t : AcThread) (p : Nat) : Prop := t.ac.acPa = some p ∧ t.phase = .dropping

def AcThread.Uses (t : AcThread) (p : Nat) : Prop := t.Holds p ∨ t.Drops p

variable (fs : FsLayout)

/-- The logical cluster of the first cluster of an inode preallocation. -/
def Ext4PreallocSpace.lcluster (pa : Ext4PreallocSpace) : Nat := fs.numB2c pa.paLstart

/-- What a thread has taken from a preallocation it refers to: the part for
its logical clusters, or the front of a group preallocation. -/
def Link (t : AcThread) (pa : Ext4PreallocSpace) : Prop :=
  match pa.paType with
  | .inodePa i => t.ac.acInode = i ∧ t.ac.acData = true ∧
      (t.phase = .found → t.ac.acBEx.feGroup = fs.groupNo pa.paPstart ∧
        fs.groupOffset pa.paPstart ≤ t.ac.acBEx.feStart ∧
        t.ac.acBEx.feStart + t.ac.acBEx.feLen ≤ fs.groupOffset pa.paPstart + pa.paLen ∧
        t.ac.acBEx.feStart + pa.lcluster fs
          = fs.groupOffset pa.paPstart + t.ac.acOEx.feLogical / fs.clusterRatio)
  | .groupPa lg => t.ac.acLg = some lg ∧
      (t.phase = .found ∨ t.phase = .closing → t.ac.acBEx.feLen ≤ pa.paLen ∧
        (t.ac.acBEx.feLen ≠ 0 → t.ac.acBEx.feGroup = fs.groupNo pa.paPstart ∧
          t.ac.acBEx.feStart = fs.groupOffset pa.paPstart))

variable (st : MbState)

/-- The bitmaps and the freed data agree with the holders. -/
structure Books : Prop where
  fd : FdInv fs.toGeometry st.sb st.cut st.committed st.running
  idle : st.inCallback = false → st.cut = []
  padded : ∀ g, Padded fs.toGeometry (st.sb.groups g).bitmapBh
  incore : ∀ g c, c < fs.clustersPerGroup →
    ((st.sb.groups g).e4b.bdBitmap c = true ↔ st.holder g c ≠ .free)
  disk : ∀ g c, c < fs.clustersPerGroup →
    ((st.sb.groups g).bitmapBh c = true ↔ ∃ o, st.holder g c = .owned o)
  pend : ∀ g c, c < fs.clustersPerGroup →
    ((∃ t, (g, c, t) ∈ cellsOf (st.cut ++ st.sb.sFreedDataList)) ↔ st.holder g c = .pending)

/-- A thread in `ext4_mb_new_blocks`. -/
structure AcInv (x : Nat) (t : AcThread) : Prop where
  aligned : fs.clusterRatio ∣ t.ac.acOEx.feLogical
  asked : 0 < t.ac.acOEx.feLen
  cells : ∀ g c, st.holder g c = .inflight x ↔
    t.phase = .found ∧ g = t.ac.acBEx.feGroup ∧ t.ac.acBEx.has c = true
  fit : t.phase = .found →
    0 < t.ac.acBEx.feLen ∧ t.ac.acBEx.feStart + t.ac.acBEx.feLen ≤ fs.clustersPerGroup
  hole : t.phase = .start → t.ac.acPa = none ∧ (t.ac.acData = true → ∀ g c lc,
    t.ac.acOEx.feLogical / fs.clusterRatio ≤ lc →
    lc < t.ac.acOEx.feLogical / fs.clusterRatio + t.ac.acOEx.feLen →
    st.holder g c ≠ .owned (.data t.ac.acInode lc))
  taken : t.phase = .found → t.ac.acPa = none →
    t.ac.acBitmapPage = some t.ac.acBEx.feGroup ∧ t.ac.acFEx = t.ac.acBEx ∧
      (t.ac.acOEx.feLen < t.ac.acBEx.feLen → t.ac.acData = true)
  marked : t.phase = .closing → ∀ c, t.ac.acBEx.has c = true →
    ∃ o, st.holder t.ac.acBEx.feGroup c = .owned o
  holds : ∀ p, t.Holds p → ∃ pa, st.pas p = some pa ∧ pa.paCount = 1 ∧ pa.paDeleted = false ∧
    Link fs t pa
  drops : ∀ p, t.Drops p → ∃ pa, st.pas p = some pa ∧ pa.paFree = 0 ∧ pa.paDeleted = true

/-- Who may hold a cluster of a preallocation. -/
def Part (p : Nat) (pa : Ext4PreallocSpace) (g c : Nat) : Prop :=
  st.holder g c = .prealloc p ∨
    (∃ x t, st.acs x = some t ∧ t.Holds p ∧ st.holder g c = .inflight x) ∨
    (∃ i, pa.paType = .inodePa i ∧
      st.holder g c = .owned (.data i (pa.lcluster fs + (c - fs.groupOffset pa.paPstart)))) ∨
    ∃ lg x t, pa.paType = .groupPa lg ∧ st.acs x = some t ∧ t.Holds p ∧
      t.phase = .closing ∧ t.ac.acBEx.feGroup = g ∧ t.ac.acBEx.has c = true ∧
      ∃ o, st.holder g c = .owned o

/-- `pa_free` counts what nobody has taken. -/
def FreeCount (p : Nat) (pa : Ext4PreallocSpace) : Prop :=
  match pa.paType with
  | .inodePa _ => 0 < pa.paLen ∧ pa.paFree = cnt pa.paLen fun k =>
      st.holder (fs.groupNo pa.paPstart) (fs.groupOffset pa.paPstart + k) = .prealloc p
  | .groupPa _ => pa.paFree = pa.paLen

/-- A preallocation. -/
structure PaInv (p : Nat) (pa : Ext4PreallocSpace) : Prop where
  place : ∃ g s, PaPlace fs pa g s ∧
    ∀ g', p ∈ st.bbPreallocList g' ↔ g' = g ∧ p ∉ st.grpDiscard
  own : ∀ g c, st.holder g c = .prealloc p → pa.Has fs g c
  part : ∀ g c, pa.Has fs g c → Part fs st p pa g c
  count : (pa.paCount = 1 ∧ ∃ x t, st.acs x = some t ∧ t.Holds p) ∨
    (pa.paCount = 0 ∧ ∀ x t, st.acs x = some t → ¬ t.Holds p)
  idle : pa.paDeleted = true → pa.paCount = 0
  listed : p ∈ st.objDiscard ∨ p ∈ st.grpDiscard → pa.paDeleted = true
  apart : p ∈ st.objDiscard → p ∉ st.grpDiscard
  dropped : ∀ x t, st.acs x = some t → t.Drops p → p ∉ st.objDiscard ∧ p ∉ st.grpDiscard ∧
    ∀ y t', st.acs y = some t' → t'.Drops p → y = x
  alive : pa.paCount = 0 → (∀ x t, st.acs x = some t → ¬ t.Drops p) → 0 < pa.paLen
  left : FreeCount fs st p pa

/-- Nothing refers to an address without a preallocation. -/
structure NoPa (p : Nat) : Prop where
  cells : ∀ g c, st.holder g c ≠ .prealloc p
  list : ∀ g, p ∉ st.bbPreallocList g
  obj : p ∉ st.objDiscard
  grp : p ∉ st.grpDiscard

/-- An inode and a locality group have one thread each. -/
structure Unique : Prop where
  inodes : ∀ x y t t', st.acs x = some t → st.acs y = some t' → t.ac.acData = true →
    t'.ac.acData = true → t.ac.acInode = t'.ac.acInode → x = y
  lgs : ∀ x y t t' lg, st.acs x = some t → st.acs y = some t' → t.ac.acLg = some lg →
    t'.ac.acLg = some lg → x = y

structure NodupLists : Prop where
  lists : ∀ g, (st.bbPreallocList g).Nodup
  objs : st.objDiscard.Nodup
  grps : st.grpDiscard.Nodup

/-- **The invariant** of the allocator with its threads and preallocations. -/
structure MbInv : Prop extends Unique st, NodupLists st where
  books : Books fs st
  ac : ∀ x t, st.acs x = some t → AcInv fs st x t
  noAc : ∀ x, st.acs x = none → ∀ g c, st.holder g c ≠ .inflight x
  pa : ∀ p pa, st.pas p = some pa → PaInv fs st p pa
  noPa : ∀ p, st.pas p = none → NoPa st p

variable {fs} {st}

variable {pa : Ext4PreallocSpace}

theorem Part.cases {g c : Nat} (h : Part fs st p pa g c) :
    st.holder g c = .prealloc p ∨
      (∃ x t, st.acs x = some t ∧ t.Holds p ∧ st.holder g c = .inflight x) ∨
      ∃ o, st.holder g c = .owned o := by
  rcases h with h | h | ⟨i, -, h⟩ | ⟨-, -, -, -, -, -, -, -, -, h⟩
  · exact .inl h
  · exact .inr (.inl h)
  · exact .inr (.inr ⟨_, h⟩)
  · exact .inr (.inr h)

/-! ## What a step leaves alone -/

variable {st' : MbState}

/-- A thread stays as it is if its clusters, its preallocation and the
holes of its file do. -/
theorem AcInv.frame {x : Nat} {t : AcThread} (h : AcInv fs st x t)
    (hcells : ∀ g c, st'.holder g c = .inflight x ↔ st.holder g c = .inflight x)
    (hown : t.ac.acData = true → ∀ g c lc, st'.holder g c = .owned (.data t.ac.acInode lc) →
      st.holder g c = .owned (.data t.ac.acInode lc))
    (hkeep : ∀ g c, t.phase = .closing → t.ac.acBEx.feGroup = g → t.ac.acBEx.has c = true → (∃ o,
      st.holder g c = .owned o) → ∃ o, st'.holder g c = .owned o)
    (hpas : ∀ p, t.Uses p → st'.pas p = st.pas p) : AcInv fs st' x t where
  aligned := h.aligned
  asked := h.asked
  cells := fun g c => (hcells g c).trans (h.cells g c)
  fit := h.fit
  hole := fun hs => ⟨(h.hole hs).1, fun hd g c lc h1 h2 heq =>
    (h.hole hs).2 hd g c lc h1 h2 (hown hd g c lc heq)⟩
  taken := h.taken
  marked := fun hp c hc => hkeep _ c hp rfl hc (h.marked hp c hc)
  holds := fun p hp => by
    rw [hpas p (.inl hp)]
    exact h.holds p hp
  drops := fun p hp => by
    rw [hpas p (.inr hp)]
    exact h.drops p hp

theorem FreeCount.congr (h : FreeCount fs st p pa)
    (hpre : ∀ g c, pa.Has fs g c → (st'.holder g c = .prealloc p ↔ st.holder g c = .prealloc p)) :
    FreeCount fs st' p pa := by
  unfold FreeCount at h ⊢
  split at h
  · refine ⟨h.1, h.2.trans (cnt_congr fun k hk => (hpre _ _ ?_).symm)⟩
    exact ⟨rfl, Nat.le_add_right _ _, Nat.add_lt_add_left hk _⟩
  · exact h

/-- A preallocation stays as it is if its clusters, its lists and the
threads that use it do. -/
theorem PaInv.frame (h : PaInv fs st p pa)
    (hlist : ∀ g, p ∈ st'.bbPreallocList g ↔ p ∈ st.bbPreallocList g)
    (hobj : p ∈ st'.objDiscard ↔ p ∈ st.objDiscard) (hgrp : p ∈ st'.grpDiscard ↔ p ∈ st.grpDiscard)
    (hacs : ∀ x t, t.Uses p → (st'.acs x = some t ↔ st.acs x = some t))
    (hhas : ∀ g c, pa.Has fs g c → st'.holder g c = st.holder g c)
    (hown : ∀ g c, st'.holder g c = .prealloc p → st.holder g c = .prealloc p) :
    PaInv fs st' p pa where
  place := by
    obtain ⟨g, s, hp, hl⟩ := h.place
    exact ⟨g, s, hp, fun g' => by rw [hlist, hgrp]; exact hl g'⟩
  own := fun g c hc => h.own g c (hown g c hc)
  part := fun g c hc => by
    rw [Part, hhas g c hc]
    rcases h.part g c hc with h1 | ⟨x, t, hx, ht, hh⟩ | h3 | ⟨lg, x, t, hlg, hx, ht, hrest⟩
    · exact .inl h1
    · exact .inr (.inl ⟨x, t, (hacs x t (.inl ht)).mpr hx, ht, hh⟩)
    · exact .inr (.inr (.inl h3))
    · exact .inr (.inr (.inr ⟨lg, x, t, hlg, (hacs x t (.inl ht)).mpr hx, ht, hrest⟩))
  count := by
    rcases h.count with ⟨h1, x, t, hx, ht⟩ | ⟨h0, hno⟩
    · exact .inl ⟨h1, x, t, (hacs x t (.inl ht)).mpr hx, ht⟩
    · exact .inr ⟨h0, fun x t hx ht => hno x t ((hacs x t (.inl ht)).mp hx) ht⟩
  idle := h.idle
  listed := by
    rw [hobj, hgrp]
    exact h.listed
  apart := by
    rw [hobj, hgrp]
    exact h.apart
  dropped := fun x t hx ht => by
    rw [hobj, hgrp]
    obtain ⟨h1, h2, h3⟩ := h.dropped x t ((hacs x t (.inr ht)).mp hx) ht
    exact ⟨h1, h2, fun y t' hy ht' => h3 y t' ((hacs y t' (.inr ht')).mp hy) ht'⟩
  alive := fun h0 hno => h.alive h0 fun x t hx hd =>
    hno x t ((hacs x t (.inr hd)).mpr hx) hd
  left := h.left.congr fun g c hc => by rw [hhas g c hc]

/-- Nothing happens to the transactions. -/
structure SameRun (st st' : MbState) : Prop where
  running : st'.running = st.running
  committed : st'.committed = st.committed
  inCallback : st'.inCallback = st.inCallback
  cut : st'.cut = st.cut

/-- A cluster of a thread or of a preallocation. -/
def Holder.reserved : Holder → Bool
  | .inflight _ => true
  | .prealloc _ => true
  | _ => false

def Holder.Recasts (old new : Holder) : Prop := old.reserved = true ∧ new.reserved = true

/-- Reserved clusters may move between threads and preallocations. -/
theorem Books.recast (h : Books fs st) (hrun : SameRun st st') (hsb : st'.sb = st.sb)
    (hcell : ∀ g c, st'.holder g c = st.holder g c ∨ (st.holder g c).Recasts (st'.holder g c)) :
    Books fs st' := by
  have hkind : ∀ g c, (st'.holder g c = .free ↔ st.holder g c = .free) ∧
      ((∃ o, st'.holder g c = .owned o) ↔ ∃ o, st.holder g c = .owned o) ∧
      (st'.holder g c = .pending ↔ st.holder g c = .pending) := by
    intro g c
    rcases hcell g c with heq | ⟨hold, hnew⟩
    · simp [heq]
    · cases h1 : st.holder g c <;> cases h2 : st'.holder g c <;> simp_all [Holder.reserved]
  obtain ⟨hr, hc, hcb, hcut⟩ := hrun
  refine ⟨by rw [hsb, hr, hc, hcut]; exact h.fd, by rw [hcb, hcut]; exact h.idle,
    by rw [hsb]; exact h.padded, fun g c hlt => ?_, fun g c hlt => ?_, fun g c hlt => ?_⟩
  · rw [hsb, Ne, (hkind g c).1]
    exact h.incore g c hlt
  · rw [hsb, (hkind g c).2.1]
    exact h.disk g c hlt
  · rw [hsb, hcut, (hkind g c).2.2]
    exact h.pend g c hlt

/-- The clusters `P` of the group `g` go to `v`. -/
def Gives (st st' : MbState) (g : Nat) (P : Nat → Bool) (v : Nat → Holder) : Prop :=
  ∀ g' c, st'.holder g' c = if g' = g ∧ P c = true then v c else st.holder g' c

section Gives

variable {st' : MbState} {g g' c : Nat} {P : Nat → Bool} {v : Nat → Holder}

theorem Gives.on (h : Gives st st' g P v) (hc : g' = g ∧ P c = true) : st'.holder g' c = v c :=
  (h g' c).trans (if_pos hc)

theorem Gives.off (h : Gives st st' g P v) (hc : ¬ (g' = g ∧ P c = true)) :
    st'.holder g' c = st.holder g' c := (h g' c).trans (if_neg hc)

theorem Gives.cell (h : Gives st st' g P v) {R : Holder → Holder → Prop}
    (hR : ∀ c, P c = true → R (st.holder g c) (v c)) (g' c : Nat) :
    st'.holder g' c = st.holder g' c ∨ R (st.holder g' c) (st'.holder g' c) := by
  by_cases hc : g' = g ∧ P c = true
  · rw [h.on hc, hc.1]
    exact .inr (hR c hc.2)
  · exact .inl (h.off hc)

end Gives

/-- A group gets a new buddy and a new bitmap: they change for the clusters
`P`, which go to `v`. -/
theorem Books.setGroup (h : Books fs st) {g : Nat} {e4b : Ext4Buddy} {bh : Bits} {P : Nat → Bool}
    {v : Nat → Holder} (hrun : SameRun st st')
    (hsb : st'.sb = st.sb.setGroup g { st.sb.groups g with e4b := e4b, bitmapBh := bh })
    (hgives : Gives st st' g P v) (hcanon : Canon fs.toGeometry e4b)
    (hsound : e4b.bdInfo.bbitmapCorrupt = false)
    (hin : ∀ c, P c = true → c < fs.clustersPerGroup ∧ (e4b.bdBitmap c = true ↔ v c ≠ .free) ∧ (bh c
      = true ↔ ∃ o, v c = .owned o) ∧ (v c = .pending ↔ st.holder g c = .pending))
    (hout : ∀ c, P c = false → bh c = (st.sb.groups g).bitmapBh c ∧ (e4b.bdBitmap c = (st.sb.groups
      g).e4b.bdBitmap c ∨ fs.clustersPerGroup ≤ c ∧ (bh c = true → e4b.bdBitmap c = true))) :
    Books fs st' := by
  have hcell : ∀ c, c < fs.clustersPerGroup → (e4b.bdBitmap c = true ↔ st'.holder g c ≠ .free) ∧
      (bh c = true ↔ ∃ o, st'.holder g c = .owned o) ∧
      (st'.holder g c = .pending ↔ st.holder g c = .pending) := by
    intro c hc
    cases hP : P c with
    | true =>
      rw [hgives.on ⟨rfl, hP⟩]
      exact (hin c hP).2
    | false =>
      obtain ⟨h1, h2⟩ := hout c hP
      rw [hgives.off (by simp [hP]), h1,
        h2.resolve_right fun hge => absurd hc (Nat.not_lt.mpr hge.1)]
      exact ⟨h.incore g c hc, h.disk g c hc, Iff.rfl⟩
  have hother : ∀ g', g' ≠ g → ∀ c, st'.holder g' c = st.holder g' c := fun g' hg c =>
    hgives.off fun hh => hg hh.1
  have hrest : ∀ c, fs.clustersPerGroup ≤ c → P c = false := fun c hge => by
    rw [← Bool.not_eq_true]
    exact fun hP => absurd (hin c hP).1 (Nat.not_lt.mpr hge)
  obtain ⟨hr, hc, hcb, hcut⟩ := hrun
  refine ⟨?_, by rw [hcb, hcut]; exact h.idle, fun g' b h1 h2 => ?_, fun g' c hc => ?_,
    fun g' c hc => ?_, fun g' c hc => ?_⟩
  · rw [hsb, hr, hc, hcut]
    refine h.fd.setBits hcanon hsound (fun c _ _ ⟨t, ht⟩ => ?_) (fun c hc => ?_)
    · have hlt := (h.fd.held g c t ht).1
      have hh := (hcell c hlt).2.2.mpr ((h.pend g c hlt).mp ⟨t, ht⟩)
      rw [(hcell c hlt).1, ← Bool.not_eq_true, (hcell c hlt).2.1, hh]
      exact ⟨nofun, nofun⟩
    · rcases Nat.lt_or_ge c fs.clustersPerGroup with hlt | hge
      · obtain ⟨o, ho⟩ := (hcell c hlt).2.1.mp hc
        rw [(hcell c hlt).1, ho]
        simp
      · obtain ⟨h1, h2 | h2⟩ := hout c (hrest c hge)
        · rw [h2]
          exact h.fd.disk g c (h1 ▸ hc)
        · exact h2.2 hc
  all_goals rw [hsb]
  · rw [groups_setGroup]
    split
    · exact (hout b (hrest b h1)).1.trans (h.padded g b h1 h2)
    · exact h.padded g' b h1 h2
  · by_cases hg : g' = g
    · rw [groups_setGroup, if_pos hg, hg]
      exact (hcell c hc).1
    · rw [groups_setGroup, if_neg hg, hother g' hg]
      exact h.incore g' c hc
  · by_cases hg : g' = g
    · rw [groups_setGroup, if_pos hg, hg]
      exact (hcell c hc).2.1
    · rw [groups_setGroup, if_neg hg, hother g' hg]
      exact h.disk g' c hc
  · rw [hcut, show (st.sb.setGroup g _).sFreedDataList = st.sb.sFreedDataList from rfl,
      h.pend g' c hc]
    by_cases hg : g' = g
    · rw [hg, (hcell c hc).2.2]
    · rw [hother g' hg]

/-! ## Releasing -/

/-- The loop frees what is free on disk, if all of that is used in core. -/
theorem releaseLoop_spec {geo : Geometry} (bh : Bits) {stop : Nat}
    (hstop : stop ≤ geo.clustersPerGroup) (fuel : Nat) : ∀ bit e4b, Canon geo e4b →
      e4b.bdInfo.bbitmapCorrupt = false → stop - bit < fuel →
      (∀ c, bit ≤ c → c < stop → bh c = false → e4b.bdBitmap c = true) →
      ∃ e4b', releaseLoop geo bh stop fuel bit e4b = some e4b' ∧ Canon geo e4b' ∧
        e4b'.bdInfo.bbitmapCorrupt = false ∧
        ∀ c, e4b'.bdBitmap c
          = if bit ≤ c ∧ c < stop ∧ bh c = false then false else e4b.bdBitmap c := by
  induction fuel with
  | zero =>
    intro bit e4b _ _ hfuel
    omega
  | succ fuel ih =>
    intro bit e4b hcanon hsound hfuel hused
    rw [releaseLoop]
    split
    · rename_i hlt
      obtain ⟨h1, h2, h3, h4⟩ := findNext_spec bh false (Nat.le_of_lt hlt)
      generalize findNext bh false stop bit = first at h1 h2 h3 h4
      dsimp only
      split
      · refine ⟨e4b, rfl, hcanon, hsound, fun c => ?_⟩
        rw [if_neg]
        rintro ⟨hc1, hc2, hc3⟩
        rw [h3 c hc1 (by omega)] at hc3
        cases hc3
      · obtain ⟨n1, n2, n3, n4⟩ := findNext_spec bh true h2
        generalize findNext bh true stop first = next at n1 n2 n3 n4
        have hfirst : bh first = false := h4 (by omega)
        have hpos : first < next := by
          refine Nat.lt_of_le_of_ne n1 fun heq => ?_
          have hnext := n4 (by omega)
          rw [← heq, hfirst] at hnext
          cases hnext
        have hfree : ∀ c, InRange first (next - first) c → bh c = false := fun c hc =>
          n3 c hc.1 (by have := hc.2; omega)
        obtain ⟨e4b', heq, hcanon', hbm, hsound'⟩ := mbFreeBlocks_used hcanon
          (show 0 < next - first by omega) (by omega) hsound fun c hc =>
            hused c (by have := hc.1; omega) (by have := hc.2; omega) (hfree c hc)
        rw [heq]
        have hbm' : ∀ c, e4b'.bdBitmap c
            = if first ≤ c ∧ c < next then false else e4b.bdBitmap c := fun c => by
          rw [hbm, fill, show first + (next - first) = next by omega]
        obtain ⟨e4b'', heq', hcanon'', hsound'', hbm''⟩ := ih (next + 1) e4b' hcanon' hsound'
          (by omega) (fun c hc1 hc2 hc3 => by
            rw [hbm', if_neg (by omega)]
            exact hused c (by omega) hc2 hc3)
        refine ⟨e4b'', heq', hcanon'', hsound'', fun c => ?_⟩
        rw [hbm'', hbm']
        -- below `first` and at `next` the bit is set on disk
        have hlow : bit ≤ c → c < first → bh c = true := fun hc1 hc2 => by simpa using h3 c hc1 hc2
        have hnext : c = next → c < stop → bh c = true := fun hc1 hc2 => by
          rw [hc1] at hc2 ⊢
          exact n4 hc2
        have hmid : first ≤ c → c < next → bh c = false := fun hc1 hc2 => by
          simpa using n3 c hc1 hc2
        by_cases hin : first ≤ c ∧ c < next
        · rw [if_neg (by omega), if_pos hin, if_pos ⟨by omega, by omega, hmid hin.1 hin.2⟩]
        · rw [if_neg hin]
          refine if_congr ⟨fun hc => ⟨by omega, hc.2⟩, fun hc => ⟨?_, hc.2⟩⟩ rfl rfl
          by_contra hle
          rcases Nat.lt_or_ge c first with hlt | hge
          · cases (hlow hc.1 hlt).symm.trans hc.2.2
          · cases (hnext (by omega) hc.2.1).symm.trans hc.2.2
    · refine ⟨e4b, rfl, hcanon, hsound, fun c => ?_⟩
      rw [if_neg (by omega)]

end Ext4.Mballoc
