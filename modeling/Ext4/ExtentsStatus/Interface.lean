import Ext4.ExtentsStatus.Remove
import Ext4.Lib.PartialMap

/-!
# Extent status — the interface on maps

The trees of a superblock read as one partial map per inode. Reclaim,
removal and insertion are stated once more over the maps (`Kept`, `erase`,
`override`), and each function other code calls gets one specification:
what it returns, what it keeps, and which values may be gone when a node
allocation has failed.
-/

namespace Ext4.ExtentsStatus

open SearchTree Ext4SbInfo PartialMap

/-- What the trees say about every block of every inode. -/
def esMap (sb : Ext4SbInfo) : Family Nat EsVal := fun i b => esView.get (sb.root i) b

/-- The whole of every file. -/
def everywhere (_ _ : Nat) : Prop := True

/-- The blocks outside `[lo, hi)` of inode `i`. -/
def outside (i lo hi : Nat) (j b : Nat) : Prop := ¬ (j = i ∧ lo ≤ b ∧ b < hi)

variable {l : List ExtentStatus} {b : Nat}

theorem get_eq_some_iff (h : TreeOk l) {v : EsVal} : esView.get l b = some v ↔ Holds l b v := by
  constructor
  · intro hg
    obtain ⟨e, he, hc, hv⟩ := Segments.View.get_eq_some_mem _ hg
    exact ⟨e, he, hc, hv⟩
  · rintro ⟨e, he, hc, rfl⟩
    exact Segments.View.Separated.get_mem _ h.separated he hc

variable {es : ExtentStatus} {l' : List ExtentStatus} {last : Nat}

theorem get_congr {l : List ExtentStatus} (h : TreeOk l) (h' : TreeOk l')
    (hiff : ∀ v, Holds l' b v ↔ Holds l b v) : esView.get l' b = esView.get l b := by
  ext v
  rw [get_eq_some_iff h, get_eq_some_iff h', hiff]

theorem get_eq_none_of (h : TreeOk l) (hno : ∀ v, ¬ Holds l b v) : esView.get l b = none := by
  rw [Option.eq_none_iff_forall_ne_some]
  intro v hv
  exact hno v ((get_eq_some_iff h).mp hv)

variable {sb sb' : Ext4SbInfo}

theorem esMap_of_inodes {j : Nat} (h : sb'.inodes j = sb.inodes j) : esMap sb' j = esMap sb j := by
  funext b
  rw [esMap, esMap, root, root, h]

/-! ## The three edits, over maps -/

theorem Shrunk.kept (h : EsInv sb) (hs : Shrunk sb sb') :
    Kept valDelayed True everywhere (esMap sb) (esMap sb') := by
  intro j b _
  cases hv' : esMap sb' j b with
  | none =>
    refine .inr ⟨trivial, rfl, fun v hv => ?_⟩
    by_contra hd
    have hH := (get_eq_some_iff (h.tree j)).mp hv
    have := (hs.tree j).holds_delayed hH (by simpa using hd)
    cases hv'.symm.trans ((get_eq_some_iff (hs.inv.tree j)).mpr this)
  | some w =>
    have hw := (hs.tree j).holds_of ((get_eq_some_iff (hs.inv.tree j)).mp hv')
    exact .inl ((get_eq_some_iff (h.tree j)).mpr hw).symm

theorem Removed.map_eq {i lblk : Nat} (h : EsInv sb) (hr : Removed sb sb' i lblk last) :
    esMap sb' = erase (esMap sb) i lblk (last + 1) := by
  funext j b
  by_cases hj : j = i
  · subst hj
    by_cases hb : lblk ≤ b ∧ b < last + 1
    · rw [erase_in ⟨rfl, hb⟩]
      refine get_eq_none_of (hr.inv.tree j) fun v hv => ?_
      exact ((hr.holds b v).mp hv).2 (by omega)
    · rw [erase_out (by simpa using hb)]
      refine get_congr (h.tree j) (hr.inv.tree j) fun v => ?_
      rw [hr.holds]
      exact and_iff_left (by omega)
  · rw [erase_out (fun hc => hj hc.1), esMap_of_inodes (hr.others j hj)]

variable {newes : ExtentStatus}

theorem Inserted.map_eq {i : Nat} (h : EsInv sb) (hclear : Clear newes (sb.root i))
    (hi : Inserted sb sb' i newes) :
    esMap sb' = override (esMap sb) i newes.esLblk (esStop newes) (esView.val newes) := by
  funext j b
  by_cases hj : j = i
  · subst hj
    by_cases hb : newes.esLblk ≤ b ∧ b < esStop newes
    · rw [override_in ⟨rfl, hb⟩, esMap, get_eq_some_iff (hi.inv.tree j), hi.holds]
      exact .inr ⟨hb, rfl⟩
    · rw [override_out (by simpa using hb)]
      refine get_congr (h.tree j) (hi.inv.tree j) fun v => ?_
      rw [hi.holds]
      exact or_iff_left (fun hv => hb hv.bounds)
  · rw [override_out (fun hc => hj hc.1), esMap_of_inodes (hi.others j hj)]

theorem Removed.clear {i lblk : Nat} (hr : Removed sb sb' i lblk last) (hle : lblk ≤ last)
    (hlblk : newes.esLblk = lblk) (hstop : esStop newes = last + 1) : Clear newes (sb'.root i) := by
  intro e he
  by_contra hno
  have hpos := ((hr.inv.tree i).entries e he).pos
  rw [not_or, hlblk, hstop] at hno
  have hs : esStop e = e.esLblk + e.esLen := rfl
  have hat : At e (max e.esLblk lblk) (esView.val e (max e.esLblk lblk)) := by
    refine ⟨?_, rfl⟩
    show e.esLblk ≤ max e.esLblk lblk ∧ max e.esLblk lblk < esStop e
    omega
  exact ((hr.holds _ _).mp ⟨e, he, hat⟩).2 (by omega)

theorem Clear.thinned {l : List ExtentStatus} (h : Clear newes l) (ht : Thinned l l') :
    Clear newes l' := by
  intro e' he'
  obtain ⟨e, he, hs⟩ := ht.mem he'
  rw [hs.stop, hs.lblk]
  exact h e he

/-! ## `ext4_es_insert_extent` -/

/-- What callers promise about an extent they insert: it lies inside a
file (`ext4_es_end` stops the kernel on one that does not), and where it
stands for physical blocks they do not run into the status bits. -/
structure ArgsOk (lblk len : BitVec 32) (pblk : Fsblk) (status : BitVec 32) : Prop where
  range : lblk.toNat + len.toNat ≤ extMaxBlocks
  phys : isMapped (mkEs lblk.toNat len.toNat pblk status) = true →
    pblk.toNat % 2 ^ 59 + len.toNat ≤ 2 ^ 59

variable {lblk len : BitVec 32} {pblk : Fsblk} {status : BitVec 32}

theorem ArgsOk.entryOk (h : ArgsOk lblk len pblk status) (hlen : len ≠ 0#32) :
    EntryOk (mkEs lblk.toNat len.toNat pblk status) where
  pos := by
    show 0 < len.toNat
    rw [Nat.pos_iff_ne_zero]
    exact fun h0 => hlen (BitVec.eq_of_toNat_eq h0)
  le_max := h.range
  phys := by
    intro hp hf
    rw [mkEs, pblock_storePblockStatus]
    exact h.phys (isMapped_iff.mpr ⟨hp, hf⟩)

theorem last_toNat (hlen : len ≠ 0#32) (hb : ¬ lblk + len - 1#32 < lblk) :
    (lblk + len - 1#32).toNat + 1 = lblk.toNat + len.toNat ∧
      lblk.toNat ≤ (lblk + len - 1#32).toNat := by
  have hpos : len.toNat ≠ 0 := fun h0 => hlen (BitVec.eq_of_toNat_eq h0)
  rw [BitVec.lt_def, BitVec.toNat_sub, BitVec.toNat_add, BitVec.toNat_ofNat] at hb
  rw [BitVec.toNat_sub, BitVec.toNat_add, BitVec.toNat_ofNat]
  omega

theorem not_wraps (hlen : len ≠ 0#32) (h : lblk.toNat + len.toNat ≤ 2 ^ 32) :
    ¬ lblk + len - 1#32 < lblk := by
  have hpos : len.toNat ≠ 0 := fun h0 => hlen (BitVec.eq_of_toNat_eq h0)
  rw [BitVec.lt_def, BitVec.toNat_sub, BitVec.toNat_add, BitVec.toNat_ofNat]
  omega

/-- How the insertion may end, after reclaim left `mid` behind. -/
def InsertEnd (mid : Ext4SbInfo) (i : Nat) (newes : ExtentStatus) (allocs : List Bool) :
    Option Errno × Ext4SbInfo → Prop
  | (none, sb') => Inserted mid sb' i newes ∨
      (false ∈ allocs ∧ ext4EsIsDelayed newes = false ∧ sb' = mid)
  | (some e, sb') => e = .enomem ∧ sb' = mid ∧ false ∈ allocs

theorem insertRetry_spec (rb : RbShape) {i : Nat} (hnew : EntryOk newes) (allocs : List Bool)
    (h : EsInv sb) (hclear : Clear newes (sb.root i)) :
    ∃ mid, Shrunk sb mid ∧ (false ∉ allocs → mid = sb) ∧
      InsertEnd mid i newes allocs (insertRetry rb i newes allocs sb) := by
  induction allocs generalizing sb with
  | nil =>
    refine ⟨sb, .refl h, fun _ => rfl, ?_⟩
    have hp : (esInsertExtent rb sb i newes true).Spec sb i newes true :=
      esInsertExtent_spec h hnew hclear
    rw [insertRetry]
    generalize esInsertExtent rb sb i newes true = r at hp
    cases r with
    | done sb' used => exact .inl hp.1
    | enomem => cases hp
    | einval => exact hp.elim
  | cons ok allocs ih =>
    have hp : (esInsertExtent rb sb i newes ok).Spec sb i newes ok :=
      esInsertExtent_spec h hnew hclear
    rw [insertRetry]
    generalize esInsertExtent rb sb i newes ok = r at hp
    cases r with
    | done sb' used => exact ⟨sb, .refl h, fun _ => rfl, .inl hp.1⟩
    | einval => exact hp.elim
    | enomem =>
      obtain rfl : ok = false := hp
      have hS := esShrink_spec h rb 128 (some i)
      dsimp only
      generalize esShrink rb sb 128 (some i) = r at hS ⊢
      obtain ⟨n, sb1⟩ := r
      split
      · obtain ⟨mid, hmid, _, hm⟩ := ih hS.inv (hclear.thinned (hS.tree i))
        refine ⟨mid, hS.trans hmid, by simp, ?_⟩
        generalize insertRetry rb i newes allocs sb1 = q at hm ⊢
        match q, hm with
        | (none, sb'), .inl hm => exact .inl hm
        | (none, sb'), .inr hm => exact .inr ⟨by simp, hm.2⟩
        | (some e, sb'), hm => exact ⟨hm.1, hm.2.1, by simp⟩
      · refine ⟨sb1, hS, by simp, ?_⟩
        split
        · rename_i hd
          exact .inr ⟨by simp, by simpa using hd, rfl⟩
        · exact ⟨rfl, rfl, by simp⟩

/-- What an insertion of the values `f` on `[lo, hi)` does to the map.
`failed` says that a node allocation failed on the way: then values that
are not delayed may be gone, those of the new extent among them. -/
def InsertSpec (m m' : Family Nat EsVal) (i lo hi : Nat) (f : Nat → EsVal) (failed : Prop) :
    Option Errno → Prop
  | none =>
      Kept valDelayed failed (outside i lo hi) m m' ∧
      ((∀ b, lo ≤ b ∧ b < hi → m' i b = some (f b)) ∨
        (failed ∧ ∀ b, lo ≤ b ∧ b < hi → m' i b = none ∧ valDelayed (f b) = false))
  | some e =>
      e = .enomem ∧ failed ∧ Kept valDelayed failed (outside i lo hi) m m' ∧
      ∀ b, lo ≤ b ∧ b < hi → m' i b = m i b ∨ m' i b = none

/-- What a removal of `[lo, hi)` does to the map. A removal that fails has
removed nothing. -/
def RemoveSpec (m m' : Family Nat EsVal) (i lo hi : Nat) (failed : Prop) : Option Errno → Prop
  | none =>
      Kept valDelayed failed (outside i lo hi) m m' ∧ ∀ b, lo ≤ b ∧ b < hi → m' i b = none
  | some e => e = .enomem ∧ failed ∧ Kept valDelayed failed everywhere m m'

section Ops

variable {sb : Ext4SbInfo} (rb : RbShape) (allocs : List Bool) (i : Nat) {lblk len : BitVec 32}

theorem Shrunk.kept_of {mid : Ext4SbInfo} {failed : Prop} (h : EsInv sb) (hs : Shrunk sb mid)
    (hm : ¬ failed → mid = sb) : Kept valDelayed failed everywhere (esMap sb) (esMap mid) := by
  by_cases hf : failed
  · exact (hs.kept h).weaken (fun _ => hf) (fun _ _ => id)
  · rw [hm hf]
    exact .refl _

theorem esRemoveExtent_maps (h : EsInv sb) (hlen : len ≠ 0#32) (hb : ¬ lblk + len - 1#32 < lblk) :
    ∃ err sb' rest, esRemoveExtent rb i lblk.toNat (lblk + len - 1#32).toNat allocs sb
        = (err, sb', rest) ∧ EsInv sb' ∧
      RemoveSpec (esMap sb) (esMap sb') i lblk.toNat (lblk.toNat + len.toNat)
        (false ∈ allocs) err ∧
      (err = none → (∀ newes : ExtentStatus, newes.esLblk = lblk.toNat →
        esStop newes = lblk.toNat + len.toNat → Clear newes (sb'.root i)) ∧
        ∀ ok ∈ rest, ok ∈ allocs) := by
  obtain ⟨hlast, hle⟩ := last_toNat hlen hb
  rw [← hlast]
  obtain ⟨mid, hS, hmid, hend⟩ := esRemoveExtent_spec (i := i) rb hle allocs h
  have hK := hS.kept_of h hmid
  generalize esRemoveExtent rb i lblk.toNat (lblk + len - 1#32).toNat allocs sb = r at hend
  match r, hend with
  | (none, sb', rest), ⟨hR, hrest⟩ =>
    have hmap := hR.map_eq hS.inv
    refine ⟨none, sb', rest, rfl, hR.inv, ⟨?_, ?_⟩, fun _ => ⟨?_, hrest⟩⟩
    · refine (hK.weaken id (fun _ _ _ => trivial)).trans (.of_eq fun j b hout => ?_)
      rw [hmap, erase_out hout]
    · intro b hin
      rw [hmap, erase_in ⟨rfl, hin⟩]
    · exact fun newes h1 h2 => hR.clear hle h1 h2
  | (some e, sb', rest), ⟨he, hsb, hfail⟩ =>
    subst hsb
    exact ⟨some e, _, rest, rfl, hS.inv, ⟨he, hfail, hK⟩, by simp⟩

/-- **`ext4_es_remove_extent`.** -/
theorem ext4EsRemoveExtent_spec (h : EsInv sb) (hb : len = 0#32 ∨ ¬ lblk + len - 1#32 < lblk) :
    ∃ err sb', ext4EsRemoveExtent rb allocs sb i lblk len = some (err, sb') ∧ EsInv sb' ∧
      RemoveSpec (esMap sb) (esMap sb') i lblk.toNat (lblk.toNat + len.toNat)
        (false ∈ allocs) err := by
  unfold ext4EsRemoveExtent
  by_cases hlen : len = 0#32
  · refine ⟨none, sb, by simp [hlen], h, .refl _, fun b hin => ?_⟩
    rw [hlen, BitVec.toNat_ofNat] at hin
    omega
  · have hb' := hb.resolve_left hlen
    obtain ⟨err, sb', rest, heq, hinv, hspec, -⟩ := esRemoveExtent_maps rb allocs i h hlen hb'
    refine ⟨err, sb', ?_, hinv, hspec⟩
    simp only [if_neg hlen, if_neg hb', heq]

/-- **`ext4_es_insert_extent`.** -/
theorem ext4EsInsertExtent_spec (h : EsInv sb) (hargs : ArgsOk lblk len pblk status) :
    ∃ err sb', ext4EsInsertExtent rb allocs sb i lblk len pblk status = some (err, sb') ∧
      EsInv sb' ∧
      InsertSpec (esMap sb) (esMap sb') i lblk.toNat (lblk.toNat + len.toNat)
        (esView.val (mkEs lblk.toNat len.toNat pblk status)) (false ∈ allocs) err := by
  unfold ext4EsInsertExtent
  by_cases hlen : len = 0#32
  · refine ⟨none, sb, by simp [hlen], h, .refl _, .inl fun b hin => ?_⟩
    rw [hlen, BitVec.toNat_ofNat] at hin
    omega
  have hb : ¬ lblk + len - 1#32 < lblk := by
    have := hargs.range
    exact not_wraps hlen (by rw [extMaxBlocks] at this; omega)
  obtain ⟨err, sb1, rest, heq, hinv1, hrem, hclear⟩ := esRemoveExtent_maps rb allocs i h hlen hb
  simp only [if_neg hlen, if_neg hb, heq]
  cases err with
  | some e =>
    obtain ⟨he, hfail, hK⟩ := hrem
    refine ⟨some e, sb1, rfl, hinv1, he, hfail, hK.weaken id (fun _ _ _ => trivial), ?_⟩
    exact fun b _ => hK.eq_or_none trivial
  | none =>
    obtain ⟨hK1, hgone⟩ := hrem
    obtain ⟨hclear, hrest⟩ := hclear rfl
    have hcl := hclear (mkEs lblk.toNat len.toNat pblk status) rfl rfl
    obtain ⟨mid, hS, hmid, hend⟩ := insertRetry_spec rb (hargs.entryOk hlen) rest hinv1 hcl
    have hfail : false ∈ rest → false ∈ allocs := hrest false
    have hK2 := (hS.kept_of hinv1 hmid).weaken hfail (fun _ _ => id)
    have hK : Kept valDelayed (false ∈ allocs)
        (outside i lblk.toNat (lblk.toNat + len.toNat)) (esMap sb) (esMap mid) :=
      hK1.trans (hK2.weaken id (fun _ _ _ => trivial))
    have hnone : ∀ b, lblk.toNat ≤ b ∧ b < lblk.toNat + len.toNat → esMap mid i b = none :=
      fun b hin => hK2.eq_none trivial (hgone b hin)
    dsimp only
    generalize insertRetry rb i (mkEs lblk.toNat len.toNat pblk status) rest sb1 = r at hend ⊢
    obtain ⟨_ | e, sb'⟩ := r
    · rcases hend with hI | ⟨hf, hd, hsb⟩
      · have hmap := hI.map_eq hS.inv (hcl.thinned (hS.tree i))
        refine ⟨none, sb', rfl, hI.inv, hK.trans (.of_eq fun j b hout => ?_), .inl ?_⟩
        · rw [hmap]
          exact override_out hout
        · intro b hin
          rw [hmap]
          exact override_in ⟨rfl, hin⟩
      · subst hsb
        exact ⟨none, _, rfl, hS.inv, hK, .inr ⟨hfail hf, fun b hin => ⟨hnone b hin, hd⟩⟩⟩
    · obtain ⟨he, hsb, hf⟩ := hend
      subst hsb
      exact ⟨some e, _, rfl, hS.inv, he, hfail hf, hK, fun b hin => .inr (hnone b hin)⟩

/-! ## `ext4_es_cache_extent` -/

/-- What caching the values `f` on `[lo, hi)` does to the map: nothing if
anything in the range is known already. -/
def CacheSpec (m m' : Family Nat EsVal) (i lo hi : Nat) (f : Nat → EsVal) (failed : Prop) : Prop :=
  ((∃ b, (lo ≤ b ∧ b < hi) ∧ m i b ≠ none) ∧ m' = m) ∨
  ((∀ b, lo ≤ b ∧ b < hi → m i b = none) ∧ (m' = override m i lo hi f ∨ (failed ∧ m' = m)))

theorem get_eq_none_of_clear (h : TreeOk l) (hc : Clear newes l)
    (hb : newes.esLblk ≤ b ∧ b < esStop newes) : esView.get l b = none := by
  refine get_eq_none_of h ?_
  rintro v ⟨e, he, hat⟩
  have := hat.bounds
  rcases hc e he with h1 | h1 <;> omega

/-- The branches that insert. -/
theorem cache_insert (h : EsInv sb) (hnew : EntryOk newes)
    (hclear : Clear newes (sb.root i)) :
    ∃ sb', some (match esInsertExtent rb sb i newes (allocs.headD true) with
      | .done sb _ => sb
      | .enomem => sb
      | .einval => sb) = some sb' ∧ EsInv sb' ∧
      CacheSpec (esMap sb) (esMap sb') i newes.esLblk (esStop newes) (esView.val newes)
        (false ∈ allocs) := by
  have hnone : ∀ b, newes.esLblk ≤ b ∧ b < esStop newes → esMap sb i b = none :=
    fun b hin => get_eq_none_of_clear (h.tree i) hclear hin
  have hp : (esInsertExtent rb sb i newes (allocs.headD true)).Spec sb i newes
      (allocs.headD true) := esInsertExtent_spec h hnew hclear
  generalize esInsertExtent rb sb i newes (allocs.headD true) = r at hp
  cases r with
  | done sb' used =>
    refine ⟨sb', rfl, hp.1.inv, .inr ⟨hnone, .inl ?_⟩⟩
    rw [hp.1.map_eq h hclear]
  | enomem =>
    refine ⟨sb, rfl, h, .inr ⟨hnone, .inr ⟨?_, rfl⟩⟩⟩
    cases allocs with
    | nil => cases hp
    | cons ok allocs =>
      obtain rfl : ok = false := hp
      simp
  | einval => exact hp.elim

theorem ext4EsCacheExtent_spec (h : EsInv sb) (hargs : ArgsOk lblk len pblk status) :
    ∃ sb', ext4EsCacheExtent rb allocs sb i lblk len pblk status = some sb' ∧ EsInv sb' ∧
      CacheSpec (esMap sb) (esMap sb') i lblk.toNat (lblk.toNat + len.toNat)
        (esView.val (mkEs lblk.toNat len.toNat pblk status)) (false ∈ allocs) := by
  unfold ext4EsCacheExtent
  by_cases hlen : len = 0#32
  · refine ⟨sb, by simp [hlen], h, .inr ⟨fun b hin => ?_, .inl ?_⟩⟩
    · have h0 : len.toNat = 0 := by rw [hlen]; rfl
      omega
    · have h0 : len.toNat = 0 := by rw [hlen]; rfl
      funext j b
      rw [override_out (by omega)]
  have hb : ¬ lblk + len - 1#32 < lblk := by
    have := hargs.range
    exact not_wraps hlen (by rw [extMaxBlocks] at this; omega)
  obtain ⟨hlast, hle⟩ := last_toNat hlen hb
  have hnew := hargs.entryOk hlen
  have htree := h.tree i
  simp only [if_neg hlen, if_neg hb]
  generalize hn : mkEs lblk.toNat len.toNat pblk status = newes at hnew
  have hl : newes.esLblk = lblk.toNat := by rw [← hn]; rfl
  have hst : esStop newes = lblk.toNat + len.toNat := by rw [← hn]; rfl
  rw [← hst, ← hl]
  split
  · rename_i hs
    have hall := esTreeSearch_none htree hs
    exact cache_insert rb allocs i h hnew fun e he => .inl (hall e he)
  · rename_i z hs
    obtain ⟨hz, hbefore, hcur⟩ := esTreeSearch_some htree hs
    have hroot : sb.root i = z.before ++ z.cur :: z.after := hz.symm
    have htree' : TreeOk (z.before ++ z.cur :: z.after) := hroot ▸ htree
    split
    · refine cache_insert rb allocs i h hnew fun e he => ?_
      rw [hroot] at he
      simp only [List.mem_append, List.mem_cons] at he
      rcases he with he | rfl | he
      · exact .inl (hbefore e he)
      · exact .inr (by omega)
      · have := htree'.stop_le_after e he
        simp only [esStop] at this
        exact .inr (by omega)
    · refine ⟨sb, rfl, h, .inl ⟨⟨max lblk.toNat z.cur.esLblk, by omega, ?_⟩, rfl⟩⟩
      have hpos := htree'.cur.pos
      have hs' : esStop z.cur = z.cur.esLblk + z.cur.esLen := rfl
      have hc : esView.Covers z.cur (max lblk.toNat z.cur.esLblk) := by
        show z.cur.esLblk ≤ _ ∧ _ < esStop z.cur
        omega
      rw [esMap, htree.separated.get_mem _ (hz ▸ z.cur_mem) hc]
      simp

/-! ## The two readers -/

variable {z : Zip ExtentStatus}

/-- The entry `cache_es` points to stands in the tree. -/
theorem cached_some (hc : sb.cached i = some z) : z.toList = sb.root i := by
  unfold cached at hc
  split at hc
  · cases hc
  · rename_i a _
    have happ : ((sb.root i).span (fun e => decide (e.addr ≠ a))).1 ++
        ((sb.root i).span (fun e => decide (e.addr ≠ a))).2 = sb.root i := by
      simp [List.span_eq_takeWhile_dropWhile, List.takeWhile_append_dropWhile]
    split at hc
    · cases hc
    · rename_i before es after hs
      cases hc
      rw [hs] at happ
      exact happ

/-- Marking an entry as referenced changes nothing a caller can see. -/
theorem setReferenced_spec (h : EsInv sb) (hz : z.toList = sb.root i) :
    EsInv (sb.setRoot i (z.before ++ ext4EsSetReferenced z.cur :: z.after)) ∧
      esMap (sb.setRoot i (z.before ++ ext4EsSetReferenced z.cur :: z.after)) = esMap sb := by
  have hroot : sb.root i = z.before ++ z.cur :: z.after := hz.symm
  have hsame := Same.setReferenced z.cur
  have hthin : Thinned (sb.root i) (z.before ++ ext4EsSetReferenced z.cur :: z.after) := by
    rw [hroot]
    exact (Thinned.refl _).append (.keep hsame (.refl _))
  have hinv := h.put hroot (hthin.treeOk (h.tree i)) hsame.addr hsame.type
  refine ⟨hinv, ?_⟩
  funext j b
  by_cases hj : j = i
  · subst hj
    refine get_congr (h.tree j) (hinv.tree j) fun v => ?_
    rw [root_setRoot, if_pos rfl, hroot, holds_append, holds_cons, holds_append, holds_cons,
      hsame.at_iff]
  · rw [esMap_of_inodes (inodes_setRoot_ne hj _)]

/-- What a lookup of `b` reports: the entry that covers it, all of whose
blocks carry the values the map gives them, or that there is none. -/
def LookupSpec (m : Family Nat EsVal) (i b : Nat) : Option ExtentStatus → Prop
  | none => m i b = none
  | some es => esView.Covers es b ∧ ∀ c, esView.Covers es c → m i c = some (esView.val es c)

/-- What holds of a lookup of `b` whichever way it goes. -/
def LookedUp (sb : Ext4SbInfo) (i b : Nat) (r : Option ExtentStatus × Ext4SbInfo) : Prop :=
  EsInv r.2 ∧ esMap r.2 = esMap sb ∧ LookupSpec (esMap sb) i b r.1

theorem lookupHit_spec (h : EsInv sb) (hz : z.toList = sb.root i)
    (hb : z.cur.esLblk ≤ b ∧ b < esStop z.cur) : LookedUp sb i b (lookupHit sb i z) := by
  have hL : LookupSpec (esMap sb) i b (some z.cur) :=
    ⟨hb, fun c hc => (h.tree i).separated.get_mem _ (hz ▸ z.cur_mem) hc⟩
  unfold lookupHit
  split
  · exact ⟨h, rfl, hL⟩
  · obtain ⟨h1, h2⟩ := setReferenced_spec i h hz
    exact ⟨h1, h2, hL⟩

theorem lookupSearch_spec (h : EsInv sb) (b : Nat) : LookedUp sb i b (lookupSearch rb sb i b) := by
  unfold lookupSearch
  cases hd : descend (searchDir b) (rb.tree (sb.root i)) with
  | none =>
    refine ⟨h, rfl, ?_⟩
    show esView.get (sb.root i) b = none
    rw [descend_eq_none hd, Segments.View.get_nil]
  | some z =>
    obtain ⟨hz, hbefore, hafter⟩ := search_splits (h.tree i) hd
    have hok := (h.tree i).entries _ (hz ▸ z.cur_mem)
    dsimp only
    split
    · rename_i heq
      exact lookupHit_spec i h hz ((searchDir_eq hok).mp heq)
    · rename_i hne
      refine ⟨h, rfl, ?_⟩
      show esView.get (sb.root i) b = none
      rw [Segments.View.get_eq_none_iff]
      intro e he hc
      rw [← hz, Zip.toList] at he
      simp only [List.mem_append, List.mem_cons] at he
      have hb : e.esLblk ≤ b ∧ b < esStop e := hc
      rcases he with he | rfl | he
      · have := hbefore e he
        omega
      · exact hne ((searchDir_eq hok).mpr hb)
      · have := hafter e he
        omega

/-- **`ext4_es_lookup_extent`.** -/
theorem ext4EsLookupExtent_spec (h : EsInv sb) (lblk : BitVec 32) :
    LookedUp sb i lblk.toNat (ext4EsLookupExtent rb sb i lblk) := by
  unfold ext4EsLookupExtent
  split
  · rename_i z hz
    split
    · rename_i hin
      have hzl := cached_some i hz
      have hpos := ((h.tree i).entries _ (hzl ▸ z.cur_mem)).pos
      simp only [inRange, decide_eq_true_eq] at hin
      exact lookupHit_spec i h hzl (by simp only [esStop]; omega)
    · exact lookupSearch_spec rb i h _
  · exact lookupSearch_spec rb i h _

theorem nextDelayed_some (h : nextDelayed last l = some es) :
    es ∈ l ∧ ext4EsIsDelayed es = true := by
  induction l with
  | nil => cases h
  | cons e l ih =>
    rw [nextDelayed] at h
    split at h
    · cases h
    · split at h
      · rename_i hd
        cases h
        exact ⟨List.mem_cons_self, hd⟩
      · obtain ⟨h1, h2⟩ := ih h
        exact ⟨by simp [h1], h2⟩

theorem findStart_some {lblk : Nat} (h : EsInv sb) (hz : findStart rb sb i lblk = some z) :
    z.toList = sb.root i := by
  unfold findStart at hz
  split at hz
  · rename_i w hw
    split at hz
    · cases hz
      exact cached_some i hw
    · exact (esTreeSearch_some (h.tree i) hz).1
  · exact (esTreeSearch_some (h.tree i) hz).1

theorem findFrom_some (h : findFrom last z = some es) :
    es ∈ z.toList ∧ ext4EsIsDelayed es = true := by
  unfold findFrom at h
  rw [Zip.toList]
  split at h
  · rename_i hd
    cases h
    exact ⟨by simp, hd⟩
  · obtain ⟨hmem, hd⟩ := nextDelayed_some h
    exact ⟨by simp [hmem], hd⟩

/-- **`ext4_es_find_delayed_extent_range`** reports a delayed entry of the
tree or nothing, and moves `cache_es` at most. -/
theorem ext4EsFindDelayedExtentRange_spec (h : EsInv sb) {lblk last : BitVec 32}
    (hb : ¬ last < lblk) :
    ∃ res sb', ext4EsFindDelayedExtentRange rb sb i lblk last = some (res, sb') ∧ EsInv sb' ∧
      esMap sb' = esMap sb ∧
      ∀ es, res = some es → es ∈ sb.root i ∧ ext4EsIsDelayed es = true := by
  unfold ext4EsFindDelayedExtentRange
  rw [if_neg hb]
  cases hr : (findStart rb sb i lblk.toNat).bind (findFrom last.toNat) with
  | none => exact ⟨none, sb, rfl, h, rfl, by simp⟩
  | some es =>
    obtain ⟨z, hz, hes⟩ := Option.bind_eq_some_iff.mp hr
    have hmem := findFrom_some hes
    rw [findStart_some rb i h hz] at hmem
    refine ⟨some es, _, rfl, ?_, ?_, ?_⟩
    · refine h.edit (i := i) (fun j hj => inodes_setCache_ne hj _) (h.acct.setCache _)
        (by rw [root_setCache]; exact h.tree i)
        (by rw [root_setCache]; exact h.fresh i) (Nat.le_refl _) ?_
      intro a ha
      simp only [cacheOf_setCache, if_true, Option.some.injEq] at ha
      exact ⟨es, by rw [root_setCache]; exact hmem.1, ha⟩
    · funext j b
      rw [esMap, esMap, root_setCache]
    · rintro _ ⟨⟩
      exact hmem

end Ops

end Ext4.ExtentsStatus
