import Ext4.ExtentsStatus.Tree
import Ext4.Lib.Segments

/-!
# Extent status — entries in order, and what merging does to them

The tree invariant speaks about pairs of entries: the left one ends
before the right one starts (`Before`), and the two cannot be merged.
Only neighbours can touch, so the pairwise form says the same as the
adjacent one and survives taking entries out. A merge is described once
(`Joins`), whichever of the four places of the source performs it.
-/

namespace Ext4.ExtentsStatus

open SearchTree Segments

/-- The first block after an entry. -/
def esStop (e : ExtentStatus) : Nat := e.esLblk + e.esLen

/-- Types whose entries merge whatever their physical blocks are. -/
def freeKind (e : ExtentStatus) : Bool :=
  ext4EsIsHole e || (ext4EsIsDelayed e && !ext4EsIsUnwritten e)

/-- Types whose physical block means something. -/
def hasPblk (e : ExtentStatus) : Bool := ext4EsIsWritten e || ext4EsIsUnwritten e

/-- Types whose entries stand for physical blocks. Where a written or
unwritten type is mixed with one that merges freely, merging does not keep
track of physical blocks, and they say nothing. -/
def isMapped (e : ExtentStatus) : Bool := hasPblk e && !freeKind e

/-- The entries the tree may hold: some blocks, inside a file, and — where
merging goes by physical blocks — a physical range that does not wrap. -/
structure EntryOk (e : ExtentStatus) : Prop where
  pos : 0 < e.esLen
  le_max : esStop e ≤ extMaxBlocks
  phys : hasPblk e = true → freeKind e = false →
    (ext4EsPblock e).toNat + e.esLen ≤ 2 ^ 59

/-- `a` stands to the left of `b`, and the two cannot be merged. -/
structure Before (a b : ExtentStatus) : Prop where
  stop_le : esStop a ≤ b.esLblk
  apart : ext4EsCanBeMerged a b = false

variable {a b : ExtentStatus}

section

variable (h : ext4EsType a = ext4EsType b)
include h

theorem freeKind_congr : freeKind a = freeKind b := by
  simp only [freeKind, isHole_congr h, isDelayed_congr h, isUnwritten_congr h]

theorem hasPblk_congr : hasPblk a = hasPblk b := by
  simp only [hasPblk, isWritten_congr h, isUnwritten_congr h]

theorem isMapped_congr : isMapped a = isMapped b := by
  simp only [isMapped, hasPblk_congr h, freeKind_congr h]

end

variable {e : ExtentStatus}

theorem isMapped_iff : isMapped e = true ↔ hasPblk e = true ∧ freeKind e = false := by
  simp [isMapped]

theorem canBeMerged_iff (hlen : a.esLen + b.esLen ≤ extMaxBlocks) :
    ext4EsCanBeMerged a b = true ↔
      ext4EsType a = ext4EsType b ∧ esStop a = b.esLblk ∧
      (freeKind a = true ∨
        hasPblk a = true ∧ (ext4EsPblock a).toNat + a.esLen = (ext4EsPblock b).toNat) := by
  unfold ext4EsCanBeMerged
  by_cases ht : ext4EsType a = ext4EsType b
  · rw [if_neg (not_not.mpr ht), if_neg (Nat.not_lt.mpr hlen), and_iff_right ht, esStop]
    by_cases hs : a.esLblk + a.esLen = b.esLblk
    · have hnext : ((ext4EsIsWritten a || ext4EsIsUnwritten a) &&
          (ext4EsPblock a).toNat + a.esLen == (ext4EsPblock b).toNat) = true
          ↔ hasPblk a = true ∧ (ext4EsPblock a).toNat + a.esLen = (ext4EsPblock b).toNat := by
        rw [Bool.and_eq_true, beq_iff_eq]
        rfl
      rw [if_neg (not_not.mpr hs), and_iff_right hs, if_congr hnext rfl rfl]
      by_cases hp : hasPblk a = true ∧ (ext4EsPblock a).toNat + a.esLen = (ext4EsPblock b).toNat
      · rw [if_pos hp]
        exact iff_of_true rfl (.inr hp)
      · rw [if_neg hp, or_iff_left hp, freeKind]
        cases ext4EsIsHole a <;> cases ext4EsIsDelayed a && !ext4EsIsUnwritten a <;> simp
    · rw [if_pos hs]
      exact iff_of_false Bool.false_ne_true fun h => hs h.1
  · rw [if_pos ht]
    exact iff_of_false Bool.false_ne_true fun h => ht h.1

theorem stop_eq_of_canBeMerged (h : ext4EsCanBeMerged a b = true) : esStop a = b.esLblk := by
  unfold ext4EsCanBeMerged at h
  by_contra hne
  have hne' : ¬ a.esLblk + a.esLen = b.esLblk := hne
  split_ifs at h

theorem before_of_gap (h : esStop a < b.esLblk) : Before a b := by
  refine ⟨by omega, ?_⟩
  by_contra hm
  have := stop_eq_of_canBeMerged (by simpa using hm)
  omega

theorem len_add_le (hb : EntryOk b) (h : esStop a ≤ b.esLblk) :
    a.esLen + b.esLen ≤ extMaxBlocks := by
  have := hb.le_max
  simp only [esStop] at h this
  omega

/-- An order is kept where a merge that has become possible was possible before. -/
theorem Before.trans {c : ExtentStatus} (h : Before a b) (hb : EntryOk b) (h' : Before b c) :
    Before a c := by
  have h1 := h.stop_le
  have h2 := hb.pos
  have h3 := h'.stop_le
  refine before_of_gap ?_
  simp only [esStop] at h1 h3 ⊢
  omega

theorem Before.of_imp {a' b' : ExtentStatus} (h : Before a b) (hb : EntryOk b) (hb' : EntryOk b')
    (hle : esStop a' ≤ b'.esLblk)
    (himp : ext4EsType a' = ext4EsType b' → esStop a' = b'.esLblk →
      (freeKind a' = true ∨
        hasPblk a' = true ∧ (ext4EsPblock a').toNat + a'.esLen = (ext4EsPblock b').toNat) →
      ext4EsType a = ext4EsType b ∧ esStop a = b.esLblk ∧
      (freeKind a = true ∨
        hasPblk a = true ∧ (ext4EsPblock a).toNat + a.esLen = (ext4EsPblock b).toNat)) :
    Before a' b' := by
  refine ⟨hle, Bool.eq_false_iff.mpr fun hm => Bool.eq_false_iff.mp h.apart ?_⟩
  obtain ⟨ht, hc, hk⟩ := (canBeMerged_iff (len_add_le hb' hle)).mp hm
  exact (canBeMerged_iff (len_add_le hb h.stop_le)).mpr (himp ht hc hk)

/-! ## Joining two entries -/

/-- `z` is `x` and its right neighbour `y` as one entry. -/
structure Joins (x y z : ExtentStatus) : Prop where
  mergeable : ext4EsCanBeMerged x y = true
  lblk : z.esLblk = x.esLblk
  len : z.esLen = x.esLen + y.esLen
  type : ext4EsType z = ext4EsType x
  pblk : hasPblk x = true → ext4EsPblock z = ext4EsPblock x

namespace Joins

variable {x y z : ExtentStatus}

theorem stop (h : Joins x y z) : esStop z = esStop y := by
  have := stop_eq_of_canBeMerged h.mergeable
  simp only [esStop, h.lblk, h.len] at *
  omega

theorem entryOk (h : Joins x y z) (hx : EntryOk x) (hy : EntryOk y) : EntryOk z where
  pos := by
    have := hx.pos
    rw [h.len]
    omega
  le_max := by
    rw [h.stop]
    exact hy.le_max
  phys := by
    intro hp hf
    rw [hasPblk_congr h.type] at hp
    rw [freeKind_congr h.type] at hf
    have hm := (canBeMerged_iff (len_add_le hy (stop_eq_of_canBeMerged h.mergeable).le)).mp
      h.mergeable
    obtain ⟨ht, _, hff | ⟨_, hpb⟩⟩ := hm
    · rw [hf] at hff
      cases hff
    · have hyp := hy.phys (by rw [← hasPblk_congr ht]; exact hp)
        (by rw [← freeKind_congr ht]; exact hf)
      rw [h.pblk hp, h.len]
      omega

/-- What could not be merged with the left part cannot be merged with the
whole. -/
theorem before_left (h : Joins x y z) (hx : EntryOk x) (hz : EntryOk z) (he : Before e x) :
    Before e z := by
  refine he.of_imp hx hz (h.lblk ▸ he.stop_le) fun ht hc hk =>
    ⟨by rw [ht, h.type], by rw [hc, h.lblk], ?_⟩
  rcases hk with hk | ⟨hk1, hk2⟩
  · exact .inl hk
  · refine .inr ⟨hk1, ?_⟩
    rw [hk2, h.pblk (by rw [← hasPblk_congr h.type, ← hasPblk_congr ht]; exact hk1)]

/-- What could not be merged with the right part cannot be merged with the
whole. -/
theorem before_right (h : Joins x y z) (hy : EntryOk y) (hok : EntryOk e) (he : Before y e) :
    Before z e := by
  obtain ⟨hxy, _, hxk⟩ :=
    (canBeMerged_iff (len_add_le hy (stop_eq_of_canBeMerged h.mergeable).le)).mp h.mergeable
  refine he.of_imp hok hok (h.stop ▸ he.stop_le) fun ht hc hk =>
    ⟨by rw [← hxy, ← h.type, ht], by rw [← h.stop, hc], ?_⟩
  rcases hxk with hxk | ⟨hxk1, hxk2⟩
  · exact .inl (by rw [← freeKind_congr hxy]; exact hxk)
  · rcases hk with hk | ⟨hk1, hk2⟩
    · exact .inl (by rw [← freeKind_congr (h.type.trans hxy)]; exact hk)
    · refine .inr ⟨by rw [← hasPblk_congr hxy]; exact hxk1, ?_⟩
      rw [h.pblk hxk1, h.len] at hk2
      omega

end Joins

/-- `absorb` joins an entry with its right neighbour. -/
theorem joins_absorb {es1 es2 : ExtentStatus} (h : ext4EsCanBeMerged es1 es2 = true) :
    Joins es1 es2 (absorb es1 es2) := by
  refine ⟨h, ?_, ?_, ?_, fun _ => ?_⟩
  all_goals
    unfold absorb
    split
  · rfl
  · rfl
  · rfl
  · rfl
  · exact type_setReferenced _
  · rfl
  · exact pblock_setReferenced _
  · rfl

theorem joins_growRight {newes es : ExtentStatus} (h : ext4EsCanBeMerged es newes = true) :
    Joins es newes (growRight newes es) :=
  ⟨h, rfl, rfl, rfl, fun _ => rfl⟩

theorem joins_growLeft {newes es : ExtentStatus} (h : ext4EsCanBeMerged newes es = true) :
    Joins newes es (growLeft newes es) := by
  have ht : ext4EsType newes = ext4EsType es := by
    by_contra hne
    rw [ext4EsCanBeMerged, if_pos hne] at h
    cases h
  set es' : ExtentStatus := { es with esLblk := newes.esLblk, esLen := es.esLen + newes.esLen }
    with hes'
  have ht' : ext4EsType es' = ext4EsType newes := ht.symm
  have hp' : (ext4EsIsWritten es' || ext4EsIsUnwritten es') = hasPblk newes :=
    hasPblk_congr ht'
  unfold growLeft
  simp only [← hes', hp']
  cases hp : hasPblk newes with
  | true =>
    refine ⟨h, rfl, ?_, ?_, fun _ => ?_⟩
    · exact Nat.add_comm _ _
    · simpa using ht'
    · apply BitVec.eq_of_toNat_eq
      simp only [if_true]
      rw [pblock_storePblock, pblock_toNat]
  | false =>
    refine ⟨h, rfl, ?_, ?_, fun h' => ?_⟩
    · exact Nat.add_comm _ _
    · simpa using ht'
    · rw [hp] at h'
      cases h'

/-! ## Cutting an entry -/

/-- `z` is the first part of `es`. -/
structure IsHead (es z : ExtentStatus) : Prop where
  addr : z.addr = es.addr
  lblk : z.esLblk = es.esLblk
  pos : 0 < z.esLen
  lt : z.esLen < es.esLen
  pblk : z.esPblk = es.esPblk

/-- `z` is the last part of `es`, with the physical block moved along. -/
structure IsTail (es z : ExtentStatus) : Prop where
  stop : esStop z = esStop es
  le : es.esLblk ≤ z.esLblk
  pos : 0 < z.esLen
  type : ext4EsType z = ext4EsType es
  pblk : hasPblk es = true → freeKind es = false →
    (ext4EsPblock z).toNat = (ext4EsPblock es).toNat + (z.esLblk - es.esLblk)

theorem type_of_pblk (h : a.esPblk = b.esPblk) : ext4EsType a = ext4EsType b := by
  rw [ext4EsType, ext4EsType, h]

theorem pblock_of_pblk (h : a.esPblk = b.esPblk) : ext4EsPblock a = ext4EsPblock b := by
  rw [ext4EsPblock, ext4EsPblock, h]

namespace IsHead

variable {es z : ExtentStatus}

theorem stop_lt (h : IsHead es z) : esStop z < esStop es := by
  have := h.lt
  simp only [esStop, h.lblk]
  omega

theorem entryOk (h : IsHead es z) (hes : EntryOk es) : EntryOk z where
  pos := h.pos
  le_max := by
    have := h.stop_lt
    have := hes.le_max
    omega
  phys := by
    intro hp hf
    have hlt := h.lt
    have ht := type_of_pblk h.pblk
    have := hes.phys (by rw [← hasPblk_congr ht]; exact hp) (by rw [← freeKind_congr ht]; exact hf)
    rw [pblock_of_pblk h.pblk]
    omega

theorem before_left (h : IsHead es z) (hes : EntryOk es) (he : Before e es) : Before e z := by
  refine he.of_imp hes (h.entryOk hes) (h.lblk ▸ he.stop_le) fun ht hc hk => ?_
  rw [type_of_pblk h.pblk] at ht
  rw [pblock_of_pblk h.pblk] at hk
  exact ⟨ht, by rw [hc, h.lblk], hk⟩

theorem before_right (h : IsHead es z) (he : esStop es ≤ e.esLblk) : Before z e := by
  have := h.stop_lt
  exact before_of_gap (by omega)

end IsHead

namespace IsTail

variable {es z : ExtentStatus}

theorem len_eq (h : IsTail es z) : z.esLen + (z.esLblk - es.esLblk) = es.esLen := by
  have h1 := h.stop
  have h2 := h.le
  simp only [esStop] at h1
  omega

theorem entryOk (h : IsTail es z) (hes : EntryOk es) : EntryOk z where
  pos := h.pos
  le_max := by
    rw [h.stop]
    exact hes.le_max
  phys := by
    intro hp hf
    rw [hasPblk_congr h.type] at hp
    rw [freeKind_congr h.type] at hf
    have h1 := h.pblk hp hf
    have h2 := hes.phys hp hf
    have h3 := h.len_eq
    omega

theorem before_right (h : IsTail es z) (hok : EntryOk e) (he : Before es e) : Before z e := by
  refine he.of_imp hok hok (h.stop ▸ he.stop_le) fun ht hc hk =>
    ⟨by rw [← h.type, ht], by rw [← h.stop, hc], ?_⟩
  cases hf : freeKind es with
  | true => exact .inl rfl
  | false =>
    rcases hk with hk | ⟨hk1, hk2⟩
    · rw [freeKind_congr h.type, hf] at hk
      cases hk
    · rw [hasPblk_congr h.type] at hk1
      have h1 := h.pblk hk1 hf
      have h3 := h.len_eq
      exact .inr ⟨hk1, by omega⟩

end IsTail

/-- The physical block `n` blocks into an entry, after the mask. -/
theorem add_sub_mod (p : Fsblk) (len k : Nat) (hk : k ≤ len) (hlen : len < 2 ^ 32)
    (hno : p.toNat % 2 ^ 59 + (len - k) < 2 ^ 59) :
    (p + BitVec.ofNat 64 len - BitVec.ofNat 64 k).toNat % 2 ^ 59
      = p.toNat % 2 ^ 59 + (len - k) := by
  rw [BitVec.toNat_sub, BitVec.toNat_add, BitVec.toNat_ofNat, BitVec.toNat_ofNat]
  omega

section

variable {es : ExtentStatus} {lblk len : Nat} (hes : EntryOk es) (hpos : 0 < len)
  (hle : es.esLblk ≤ lblk) (hstop : lblk + len = esStop es)

include hes hpos hle hstop

theorem isTail_trimFront : IsTail es (trimFront es lblk len) := by
  have hlen : len ≤ es.esLen := by
    simp only [esStop] at hstop
    omega
  have hmax := hes.le_max
  set es' : ExtentStatus := { es with esLblk := lblk, esLen := len } with hes'
  have hp' : (ext4EsIsWritten es' || ext4EsIsUnwritten es') = hasPblk es := rfl
  unfold trimFront
  simp only [← hes', hp']
  cases hp : hasPblk es with
  | true =>
    refine ⟨hstop, hle, hpos, ?_, fun _ hf => ?_⟩
    · simp only [if_true, type_storePblock]
      rfl
    · have hph := hes.phys hp hf
      rw [pblock_toNat] at hph
      simp only [if_true]
      rw [pblock_storePblock, pblock_toNat es, add_sub_mod es.esPblk es.esLen len hlen
        (by simp only [esStop, extMaxBlocks] at hmax; omega) (by omega)]
      show _ + (es.esLen - len) = _ + (lblk - es.esLblk)
      simp only [esStop] at hstop
      omega
  | false =>
    refine ⟨hstop, hle, hpos, rfl, fun h' => ?_⟩
    rw [hp] at h'
    cases h'

theorem isTail_splitTail : IsTail es (splitTail es lblk len) := by
  have hlen : len ≤ es.esLen := by
    simp only [esStop] at hstop
    omega
  have hmax := hes.le_max
  refine ⟨hstop, hle, hpos, type_storePblockStatus_status _ _ _, fun hp hf => ?_⟩
  have hph := hes.phys hp hf
  have hp' : (ext4EsIsWritten es || ext4EsIsUnwritten es) = true := hp
  unfold splitTail
  simp only [hp', if_true]
  have hself : (ext4EsPblock es).toNat % 2 ^ 59 = (ext4EsPblock es).toNat :=
    Nat.mod_eq_of_lt (pblock_lt es)
  rw [pblock_storePblockStatus, add_sub_mod (ext4EsPblock es) es.esLen len hlen
    (by simp only [esStop, extMaxBlocks] at hmax; omega) (by omega), hself]
  show _ + (es.esLen - len) = _ + (lblk - es.esLblk)
  simp only [esStop] at hstop
  omega

end

/-! ## The blocks of an entry and their values -/

/-- What an entry says about a block: its type, and the physical block
where the type stands for one. -/
abbrev EsVal := BitVec 64 × Option Nat

/-- An entry read as a segment of the file. -/
def esView : View ExtentStatus EsVal where
  lo := fun e => e.esLblk
  hi := esStop
  val := fun e b =>
    (ext4EsType e, if isMapped e then some ((ext4EsPblock e).toNat + (b - e.esLblk)) else none)

/-- Entry `e` says `v` about block `b`. -/
def At (e : ExtentStatus) (b : Nat) (v : EsVal) : Prop :=
  esView.Covers e b ∧ esView.val e b = v

/-- Some entry of `l` says `v` about block `b`. -/
def Holds (l : List ExtentStatus) (b : Nat) (v : EsVal) : Prop := ∃ e ∈ l, At e b v

theorem Joins.at_iff {x y z : ExtentStatus} (h : Joins x y z) (hy : EntryOk y)
    (b : Nat) (v : EsVal) : At z b v ↔ At x b v ∨ At y b v := by
  obtain ⟨ht, hc, hk⟩ :=
    (canBeMerged_iff (len_add_le hy (stop_eq_of_canBeMerged h.mergeable).le)).mp h.mergeable
  have hstop := h.stop
  have hcov : esView.Covers z b ↔ esView.Covers x b ∨ esView.Covers y b := by
    simp only [View.Covers, esView, h.lblk, hstop, ← hc]
    simp only [esStop] at hc ⊢
    omega
  have hvx : esView.val z b = esView.val x b := by
    simp only [esView, h.type, isMapped_congr h.type, h.lblk]
    cases hp : isMapped x with
    | true => simp [h.pblk (isMapped_iff.mp hp).1]
    | false => simp
  have hvy : esView.Covers y b → esView.val x b = esView.val y b := by
    intro hcy
    simp only [View.Covers, esView] at hcy
    simp only [esView, ht, isMapped_congr ht]
    cases hp : isMapped x with
    | true =>
      rcases hk with hk | ⟨_, hk⟩
      · rw [(isMapped_iff.mp hp).2] at hk
        cases hk
      · rw [← isMapped_congr ht, hp]
        simp only [if_true, Prod.mk.injEq, Option.some.injEq, true_and]
        simp only [esStop] at hc
        omega
    | false => simp [← isMapped_congr ht, hp]
  unfold At
  rw [hcov, hvx]
  constructor
  · rintro ⟨hx | hy, hv⟩
    · exact .inl ⟨hx, hv⟩
    · exact .inr ⟨hy, (hvy hy).symm.trans hv⟩
  · rintro (⟨hx, hv⟩ | ⟨hy, hv⟩)
    · exact ⟨.inl hx, hv⟩
    · exact ⟨.inr hy, (hvy hy).trans hv⟩

theorem IsHead.at_iff {es z : ExtentStatus} (h : IsHead es z) (b : Nat) (v : EsVal) :
    At z b v ↔ At es b v ∧ b < esStop z := by
  have hlt := h.stop_lt
  have hval : esView.val z b = esView.val es b := by
    have ht := type_of_pblk h.pblk
    simp only [esView, ht, isMapped_congr ht, pblock_of_pblk h.pblk, h.lblk]
  unfold At
  rw [hval]
  simp only [View.Covers, esView, h.lblk]
  constructor
  · rintro ⟨⟨h1, h2⟩, hv⟩
    exact ⟨⟨⟨h1, Nat.lt_trans h2 hlt⟩, hv⟩, h2⟩
  · rintro ⟨⟨⟨h1, -⟩, hv⟩, h2⟩
    exact ⟨⟨h1, h2⟩, hv⟩

theorem IsTail.at_iff {es z : ExtentStatus} (h : IsTail es z) (b : Nat) (v : EsVal) :
    At z b v ↔ At es b v ∧ z.esLblk ≤ b := by
  have hle := h.le
  have hval : z.esLblk ≤ b → esView.val z b = esView.val es b := by
    intro hb
    simp only [esView, h.type, isMapped_congr h.type]
    cases hp : isMapped es with
    | true =>
      have := h.pblk (isMapped_iff.mp hp).1 (isMapped_iff.mp hp).2
      simp only [if_true, Prod.mk.injEq, Option.some.injEq, true_and]
      omega
    | false => simp
  unfold At
  simp only [View.Covers, esView, h.stop]
  constructor
  · rintro ⟨⟨h1, h2⟩, hv⟩
    exact ⟨⟨⟨Nat.le_trans hle h1, h2⟩, (hval h1).symm.trans hv⟩, h1⟩
  · rintro ⟨⟨⟨-, h2⟩, hv⟩, h1⟩
    exact ⟨⟨h1, h2⟩, (hval h1).trans hv⟩

end Ext4.ExtentsStatus
