import Ext4.ExtentsStatus.Delayed
import Mathlib.Data.Set.Card
import Mathlib.Order.Interval.Finset.Nat

/-!
# Delayed allocation — counting reserved clusters

With bigalloc space is reserved by the cluster: the first delayed block of a
cluster reserves it, the others use that reservation. When a range is written
out, `get_reserved_cluster_alloc` (extents.c) says how many clusters were
reserved for it: all the clusters it touches, but for those at its two ends
that have delayed blocks outside of it. The two ends may be one cluster, and
then both corrections are about the same one.
-/

namespace Ext4.Delalloc

open SearchTree Ext4.ExtentsStatus Ext4SbInfo

/-- `s_cluster_bits`, the logarithm of `s_cluster_ratio`. -/
structure Clusters where
  bits : Nat
  bits_lt : bits < 32
deriving DecidableEq

namespace Clusters

variable (c : Clusters)

/-- `s_cluster_ratio`. -/
def ratio : Nat := 2 ^ c.bits

/-- `s_cluster_ratio - 1`, the mask of the offset in a cluster. -/
def mask : BitVec 32 := BitVec.ofNat 32 (c.ratio - 1)

/-- `EXT4_B2C`. -/
def b2c (lblk : BitVec 32) : BitVec 32 := lblk >>> c.bits

/-- `EXT4_LBLK_COFF`. -/
def lblkCoff (lblk : BitVec 32) : BitVec 32 := lblk &&& c.mask

/-- `EXT4_LBLK_CMASK`. -/
def lblkCmask (lblk : BitVec 32) : BitVec 32 := lblk &&& ~~~c.mask

theorem ratio_pos : 0 < c.ratio := Nat.two_pow_pos _

theorem ratio_lt : c.ratio < 2 ^ 32 := Nat.pow_lt_pow_right (by decide) c.bits_lt

theorem ratio_dvd : c.ratio ∣ 2 ^ 32 := Nat.pow_dvd_pow 2 (Nat.le_of_lt c.bits_lt)

theorem toNat_b2c (lblk : BitVec 32) : (c.b2c lblk).toNat = lblk.toNat / c.ratio := by
  rw [b2c, BitVec.toNat_ushiftRight, Nat.shiftRight_eq_div_pow, ratio]

theorem toNat_lblkCoff (lblk : BitVec 32) : (c.lblkCoff lblk).toNat = lblk.toNat % c.ratio := by
  have h := c.ratio_lt
  rw [lblkCoff, mask, BitVec.toNat_and, BitVec.toNat_ofNat, Nat.mod_eq_of_lt (by omega), ratio,
    Nat.and_two_pow_sub_one_eq_mod]

theorem toNat_lblkCmask (lblk : BitVec 32) :
    (c.lblkCmask lblk).toNat = lblk.toNat - lblk.toNat % c.ratio := by
  have hdisj : c.lblkCmask lblk &&& c.lblkCoff lblk = 0#32 := by
    ext i
    simp only [lblkCmask, lblkCoff, BitVec.getElem_and, BitVec.getElem_not, BitVec.getElem_zero]
    cases c.mask[i] <;> simp
  have hsum : c.lblkCmask lblk ||| c.lblkCoff lblk = lblk := by
    ext i
    simp only [lblkCmask, lblkCoff, BitVec.getElem_or, BitVec.getElem_and, BitVec.getElem_not]
    cases c.mask[i] <;> simp
  have hadd := BitVec.toNat_add_of_and_eq_zero hdisj
  rw [BitVec.add_eq_or_of_and_eq_zero _ _ hdisj, hsum, toNat_lblkCoff] at hadd
  omega

end Clusters

/-! ## The model -/

section Model

variable (rb : RbShape) (c : Clusters) (i : Nat)

/-- `ext4_find_delalloc_range`. The end of the extent found is computed in
32 bits. -/
def ext4FindDelallocRange (sb : Ext4SbInfo) (lblkStart lblkEnd : BitVec 32) :
    Option (Bool × Ext4SbInfo) :=
  (ext4EsFindDelayedExtentRange rb sb i lblkStart lblkEnd).map fun r =>
    (match r.1 with
      | none => false
      | some es =>
          if es.esLblk ≤ lblkStart.toNat ∧ lblkStart.toNat < (es.esLblk + es.esLen) % 2 ^ 32 then
            true
          else decide (lblkStart.toNat ≤ es.esLblk ∧ es.esLblk ≤ lblkEnd.toNat), r.2)

/-- `ext4_find_delalloc_cluster`. -/
def ext4FindDelallocCluster (sb : Ext4SbInfo) (lblk : BitVec 32) : Option (Bool × Ext4SbInfo) :=
  let lblkStart := c.lblkCmask lblk
  let lblkEnd := lblkStart + BitVec.ofNat 32 c.ratio - 1#32
  ext4FindDelallocRange rb i sb lblkStart lblkEnd

/-- A cluster less if a delayed block is found. -/
def dropDelayed (sb : Ext4SbInfo) (lblkFrom lblkTo allocated : BitVec 32) :
    Option (BitVec 32 × Ext4SbInfo) :=
  (ext4FindDelallocRange rb i sb lblkFrom lblkTo).map fun r =>
    (if r.1 then allocated - 1#32 else allocated, r.2)

/-- `get_reserved_cluster_alloc`. -/
def getReservedClusterAlloc (sb : Ext4SbInfo) (lblkStart numBlks : BitVec 32) :
    Option (BitVec 32 × Ext4SbInfo) :=
  let allocClusterStart := c.b2c lblkStart
  let allocClusterEnd := c.b2c (lblkStart + numBlks - 1#32)
  let allocated := allocClusterEnd - allocClusterStart + 1#32
  let left := c.lblkCoff lblkStart
  let right := c.lblkCoff (lblkStart + numBlks)
  (if left ≠ 0#32 then
    dropDelayed rb i sb (c.lblkCmask lblkStart) (c.lblkCmask lblkStart + left - 1#32) allocated
  else some (allocated, sb)).bind fun r =>
    if r.1 ≠ 0#32 ∧ right ≠ 0#32 then
      dropDelayed rb i r.2 (lblkStart + numBlks)
        (lblkStart + numBlks + (BitVec.ofNat 32 c.ratio - right) - 1#32) r.1
    else some r

end Model

/-! ## The queries -/

variable {k x : Nat} {P : Prop}

section Queries

variable (rb : RbShape) (i : Nat) {sb : Ext4SbInfo}

/-- A query answers whether a block of the range is delayed, and changes no
tree. -/
theorem findDelallocRange_spec (h : EsInv sb) {lblkStart lblkEnd : BitVec 32}
    (hle : lblkStart ≤ lblkEnd) :
    ∃ hit sb', ext4FindDelallocRange rb i sb lblkStart lblkEnd = some (hit, sb')
      ∧ EsInv sb' ∧ (∀ j, sb'.root j = sb.root j)
      ∧ (hit = true ↔ ∃ b, lblkStart.toNat ≤ b ∧ b ≤ lblkEnd.toNat ∧ DelayedAt (sb.root i) b) := by
  obtain ⟨sb', hcall, hinv, hroot⟩ := findDelayed_answer rb i h hle
  rw [BitVec.le_def] at hle
  rw [ext4FindDelallocRange, hcall, Option.map_some]
  refine ⟨_, sb', rfl, hinv, hroot, ?_⟩
  rw [← firstDelayed_isSome (h.tree i) hle]
  cases hfirst : firstDelayed (sb.root i) lblkStart.toNat lblkEnd.toNat with
  | some e =>
    have hfound := List.find?_some hfirst
    rw [Bool.and_eq_true, decide_eq_true_eq] at hfound
    obtain ⟨-, hlast, hstop⟩ := hfound
    have hmax := ((h.tree i).entries e (List.mem_of_find?_eq_some hfirst)).le_max
    rw [esStop] at hstop hmax
    have hmod : (e.esLblk + e.esLen) % 2 ^ 32 = e.esLblk + e.esLen :=
      Nat.mod_eq_of_lt (by rw [extMaxBlocks] at hmax; omega)
    simp only [Option.some_or, Option.isSome_some, iff_true]
    split
    · rfl
    · rename_i hout
      rw [hmod] at hout
      exact decide_eq_true ⟨by omega, hlast⟩
  | none =>
    simp only [Option.none_or, Option.isSome_none, Bool.false_eq_true, iff_false]
    cases hb : (firstBehind (sb.root i) lblkStart.toNat).filter ext4EsIsDelayed with
    | none => exact Bool.false_ne_true
    | some e =>
      obtain ⟨hb, hd⟩ := Option.filter_eq_some_iff.mp hb
      have hpast := firstBehind_past hfirst hb hd
      dsimp only
      rw [if_neg (by omega), decide_eq_true_eq]
      omega

theorem next_multiple_le {r m : Nat} (hr : 0 < r) (hdvd : r ∣ m) (hx : x < m) :
    x + (r - x % r) ≤ m := by
  obtain ⟨d, rfl⟩ := hdvd
  have h1 := Nat.div_add_mod x r
  have h2 := Nat.mod_lt x hr
  have h3 : x / r + 1 ≤ d := (Nat.div_lt_iff_lt_mul hr).mpr (by rwa [Nat.mul_comm])
  have h4 : r * (x / r + 1) ≤ r * d := Nat.mul_le_mul_left r h3
  rw [Nat.mul_succ] at h4
  omega

theorem toNat_clusterEnd (c : Clusters) (lblk : BitVec 32) :
    (c.lblkCmask lblk + BitVec.ofNat 32 c.ratio - 1#32).toNat
      = lblk.toNat - lblk.toNat % c.ratio + (c.ratio - 1) := by
  have hr := c.ratio_pos
  have hlt := c.ratio_lt
  have hfit := next_multiple_le hr c.ratio_dvd lblk.isLt
  have hle := Nat.mod_le lblk.toNat c.ratio
  have hmod := Nat.mod_lt lblk.toNat hr
  have hratio : (BitVec.ofNat 32 c.ratio).toNat = c.ratio := by
    rw [BitVec.toNat_ofNat, Nat.mod_eq_of_lt hlt]
  rw [BitVec.toNat_sub, BitVec.toNat_add, c.toNat_lblkCmask, hratio]
  show (2 ^ 32 - 1 + _) % 2 ^ 32 = _
  omega

/-- The blocks of the cluster of `x`. -/
theorem div_eq_div_iff {r : Nat} (hr : 0 < r) (b x : Nat) :
    b / r = x / r ↔ x - x % r ≤ b ∧ b ≤ x - x % r + (r - 1) := by
  have h := Nat.div_add_mod x r
  rw [Nat.mul_comm] at h
  have hx : x - x % r = x / r * r := by omega
  rw [hx, Nat.div_eq_iff hr]
  omega

theorem findDelallocCluster_spec (c : Clusters) (h : EsInv sb) (lblk : BitVec 32) :
    ∃ hit sb', ext4FindDelallocCluster rb c i sb lblk = some (hit, sb')
      ∧ EsInv sb' ∧ (∀ j, sb'.root j = sb.root j)
      ∧ (hit = true ↔ ∃ b, b / c.ratio = lblk.toNat / c.ratio ∧ DelayedAt (sb.root i) b) := by
  have hpos := c.ratio_pos
  have hlo := c.toNat_lblkCmask lblk
  have hhi := toNat_clusterEnd c lblk
  obtain ⟨hit, sb', hcall, hinv, hroot, hiff⟩ := findDelallocRange_spec rb i h
    (show c.lblkCmask lblk ≤ c.lblkCmask lblk + BitVec.ofNat 32 c.ratio - 1#32 by
      rw [BitVec.le_def, hlo, hhi]
      omega)
  refine ⟨hit, sb', hcall, hinv, hroot, ?_⟩
  rw [hiff, hlo, hhi]
  refine exists_congr fun b => ?_
  rw [div_eq_div_iff hpos, and_assoc]

end Queries

/-! ## Counting -/

section Counting

variable {r lo hi : Nat} {D : Nat → Prop}

/-- The clusters with a block in `lo .. hi - 1` and no block in `D` outside of
it. -/
def reservedFor (r lo hi : Nat) (D : Nat → Prop) : Set Nat :=
  {k | (∃ b, lo ≤ b ∧ b < hi ∧ b / r = k) ∧ ∀ b, b / r = k → D b → lo ≤ b ∧ b < hi}

/-- The cluster of the first block has a block in front of the range. -/
def TakenLeft (r lo : Nat) (D : Nat → Prop) : Prop := ∃ b, b / r = lo / r ∧ b < lo ∧ D b

/-- The cluster of the last block has a block behind the range. -/
def TakenRight (r hi : Nat) (D : Nat → Prop) : Prop := ∃ b, b / r = (hi - 1) / r ∧ hi ≤ b ∧ D b

theorem mem_reservedFor (hr : 0 < r) (hlt : lo < hi) :
    k ∈ reservedFor r lo hi D ↔ (lo / r ≤ k ∧ k ≤ (hi - 1) / r)
      ∧ ¬ (k = lo / r ∧ TakenLeft r lo D) ∧ ¬ (k = (hi - 1) / r ∧ TakenRight r hi D) := by
  constructor
  · rintro ⟨⟨b, hb1, hb2, rfl⟩, hin⟩
    refine ⟨⟨Nat.div_le_div_right hb1, Nat.div_le_div_right (by omega)⟩, ?_, ?_⟩
    · rintro ⟨hk, b', hb', hlow, hD⟩
      have := hin b' (by rw [hb', hk]) hD
      omega
    · rintro ⟨hk, b', hb', hhigh, hD⟩
      have := hin b' (by rw [hb', hk]) hD
      omega
  · rintro ⟨⟨h1, h2⟩, hleft, hright⟩
    refine ⟨?_, fun b hb hD => ⟨?_, ?_⟩⟩
    · -- the first block of the cluster, or the first one of the range
      refine ⟨max lo (k * r), by omega, ?_, ?_⟩
      · have := Nat.div_mul_le_self (hi - 1) r
        have := Nat.mul_le_mul_right r h2
        omega
      · rw [Nat.div_eq_iff hr]
        have := (Nat.div_le_iff_le_mul_add_pred hr).mp h1
        rw [Nat.mul_comm] at this
        omega
    · by_contra hlow
      have : b / r ≤ lo / r := Nat.div_le_div_right (by omega)
      exact hleft ⟨by omega, b, by omega, by omega, hD⟩
    · by_contra hhigh
      have : (hi - 1) / r ≤ b / r := Nat.div_le_div_right (by omega)
      exact hright ⟨by omega, b, by omega, by omega, hD⟩

open Classical in
/-- One end of a set of clusters, taken out on a condition. -/
noncomputable def takeOut (s : Finset Nat) (P : Prop) (k : Nat) : Finset Nat :=
  if P then s.erase k else s

variable {s : Finset Nat}

theorem mem_takeOut : x ∈ takeOut s P k ↔ x ∈ s ∧ ¬ (x = k ∧ P) := by
  rw [takeOut]
  split
  · rename_i hP
    rw [Finset.mem_erase, and_comm, and_iff_left hP]
  · rename_i hP
    rw [and_iff_left fun h => hP h.2]

theorem card_takeOut_of (hP : P) (hk : k ∈ s) : (takeOut s P k).card = s.card - 1 := by
  rw [takeOut, if_pos hP, Finset.card_erase_of_mem hk]

theorem takeOut_of_not (hP : ¬ P) : takeOut s P k = s := by
  rw [takeOut, if_neg hP]

theorem coe_takeOut (hr : 0 < r) (hlt : lo < hi) :
    reservedFor r lo hi D = (takeOut (takeOut (Finset.Icc (lo / r) ((hi - 1) / r))
      (TakenLeft r lo D) (lo / r)) (TakenRight r hi D) ((hi - 1) / r) : Finset Nat) := by
  ext k
  rw [mem_reservedFor hr hlt, Finset.mem_coe, mem_takeOut, mem_takeOut, Finset.mem_Icc]
  exact and_assoc.symm

/-- Whether a cluster has blocks outside on the left is asked only if the
range does not begin with it. -/
theorem not_takenLeft (hr : 0 < r) (h : lo % r = 0) : ¬ TakenLeft r lo D := by
  rintro ⟨b, hb, hlow, -⟩
  have := (div_eq_div_iff hr b lo).mp hb
  omega

theorem takenLeft_iff (hr : 0 < r) (h : lo % r ≠ 0) :
    TakenLeft r lo D ↔ ∃ b, lo - lo % r ≤ b ∧ b ≤ lo - 1 ∧ D b := by
  have hmod := Nat.mod_lt lo hr
  have hle := Nat.mod_le lo r
  refine exists_congr fun b => ?_
  rw [div_eq_div_iff hr, and_assoc]
  refine and_congr_right fun h1 => ?_
  rw [← and_assoc]
  refine and_congr_left fun _ => ?_
  omega

theorem not_takenRight (hr : 0 < r) (hpos : 0 < hi) (h : hi % r = 0) : ¬ TakenRight r hi D := by
  rintro ⟨b, hb, hhigh, -⟩
  have h1 := Nat.div_add_mod hi r
  have h2 : hi / r ≤ b / r := Nat.div_le_div_right hhigh
  have h3 : (hi - 1) / r < hi / r := by
    rw [Nat.div_lt_iff_lt_mul hr, Nat.mul_comm]
    omega
  omega

theorem takenRight_iff (hr : 0 < r) (h : hi % r ≠ 0) :
    TakenRight r hi D ↔ ∃ b, hi ≤ b ∧ b ≤ hi + (r - hi % r) - 1 ∧ D b := by
  have hmod := Nat.mod_lt hi hr
  have hle := Nat.mod_le hi r
  have hsame : (hi - 1) / r = hi / r := (div_eq_div_iff hr _ _).mpr (by omega)
  refine exists_congr fun b => ?_
  rw [hsame, div_eq_div_iff hr, ← and_assoc, ← and_assoc]
  refine and_congr_left fun _ => ?_
  omega

end Counting

/-! ## The count of the code -/

section Reserved

variable (rb : RbShape) (c : Clusters) (i : Nat) {sb : Ext4SbInfo}

variable {s : Finset Nat}

theorem dropDelayed_spec (h : EsInv sb) {lblkFrom lblkTo allocated : BitVec 32}
    (hle : lblkFrom ≤ lblkTo) (hk : k ∈ s) (hs : s.card = allocated.toNat)
    (hP : P ↔ ∃ b, lblkFrom.toNat ≤ b ∧ b ≤ lblkTo.toNat ∧ DelayedAt (sb.root i) b) :
    ∃ n sb', dropDelayed rb i sb lblkFrom lblkTo allocated = some (n, sb')
      ∧ EsInv sb' ∧ (∀ j, sb'.root j = sb.root j) ∧ (takeOut s P k).card = n.toNat := by
  obtain ⟨hit, sb', hcall, hinv, hroot, hiff⟩ := findDelallocRange_spec rb i h hle
  rw [dropDelayed, hcall, Option.map_some]
  refine ⟨_, sb', rfl, hinv, hroot, ?_⟩
  rw [← hP] at hiff
  cases hit with
  | true =>
    have hcard : 0 < s.card := Finset.card_pos.mpr ⟨k, hk⟩
    rw [card_takeOut_of (hiff.mp rfl) hk, if_pos rfl, hs]
    bv_omega
  | false =>
    rw [takeOut_of_not fun hp => Bool.false_ne_true (hiff.mpr hp)]
    exact hs

theorem coff_eq_zero (lblk : BitVec 32) : c.lblkCoff lblk = 0#32 ↔ lblk.toNat % c.ratio = 0 := by
  rw [← c.toNat_lblkCoff lblk, ← BitVec.toNat_inj]
  rfl

theorem leftEnd_spec (h : EsInv sb) (lblk allocated : BitVec 32) (hk : lblk.toNat / c.ratio ∈ s)
    (hs : s.card = allocated.toNat) :
    ∃ n sb', (if c.lblkCoff lblk ≠ 0#32 then
        dropDelayed rb i sb (c.lblkCmask lblk) (c.lblkCmask lblk + c.lblkCoff lblk - 1#32) allocated
      else some (allocated, sb)) = some (n, sb')
      ∧ EsInv sb' ∧ (∀ j, sb'.root j = sb.root j)
      ∧ (takeOut s (TakenLeft c.ratio lblk.toNat (DelayedAt (sb.root i)))
          (lblk.toNat / c.ratio)).card = n.toNat := by
  have hr := c.ratio_pos
  have hcoff := c.toNat_lblkCoff lblk
  have hcmask := c.toNat_lblkCmask lblk
  have hle := Nat.mod_le lblk.toNat c.ratio
  by_cases hoff : lblk.toNat % c.ratio = 0
  · rw [if_neg (not_not.mpr ((coff_eq_zero c lblk).mpr hoff))]
    exact ⟨_, _, rfl, h, fun _ => rfl, by rw [takeOut_of_not (not_takenLeft hr hoff), hs]⟩
  · rw [if_pos fun h0 => hoff ((coff_eq_zero c lblk).mp h0)]
    have hto : (c.lblkCmask lblk + c.lblkCoff lblk - 1#32).toNat = lblk.toNat - 1 := by
      bv_omega
    refine dropDelayed_spec rb i h (BitVec.le_def.mpr (by omega)) hk hs ?_
    rw [takenLeft_iff hr hoff, hcmask, hto]

theorem rightEnd_spec (h : EsInv sb) (lblk numBlks allocated : BitVec 32) (hpos : 0 < numBlks.toNat)
    (hend : lblk.toNat + numBlks.toNat ≤ 2 ^ 32)
    (hk : s.card ≠ 0 → (lblk.toNat + numBlks.toNat - 1) / c.ratio ∈ s)
    (hs : s.card = allocated.toNat) :
    ∃ n sb', (if allocated ≠ 0#32 ∧ c.lblkCoff (lblk + numBlks) ≠ 0#32 then
        dropDelayed rb i sb (lblk + numBlks)
          (lblk + numBlks + (BitVec.ofNat 32 c.ratio - c.lblkCoff (lblk + numBlks)) - 1#32)
            allocated
      else some (allocated, sb)) = some (n, sb')
      ∧ (takeOut s (TakenRight c.ratio (lblk.toNat + numBlks.toNat) (DelayedAt (sb.root i)))
          ((lblk.toNat + numBlks.toNat - 1) / c.ratio)).card = n.toNat := by
  have hr := c.ratio_pos
  have hrlt := c.ratio_lt
  have hdvd := c.ratio_dvd
  have hcoff : (c.lblkCoff (lblk + numBlks)).toNat = (lblk.toNat + numBlks.toNat) % c.ratio := by
    rw [c.toNat_lblkCoff, BitVec.toNat_add, Nat.mod_mod_of_dvd _ hdvd]
  by_cases hzero : allocated = 0#32
  · -- the left correction took the only cluster
    have hempty : s = ∅ := by
      rw [← Finset.card_eq_zero, hs, hzero]
      rfl
    rw [if_neg fun hne => hne.1 hzero]
    refine ⟨allocated, sb, rfl, ?_⟩
    rw [hempty, hzero, takeOut, Finset.erase_empty, ite_self]
    rfl
  by_cases hoff : (lblk.toNat + numBlks.toNat) % c.ratio = 0
  · have hcoff0 : c.lblkCoff (lblk + numBlks) = 0#32 :=
      BitVec.eq_of_toNat_eq (by rw [hcoff, hoff]; rfl)
    rw [if_neg fun hne => hne.2 hcoff0, takeOut_of_not (not_takenRight hr (by omega) hoff)]
    exact ⟨allocated, sb, rfl, hs⟩
  · have hcoff0 : c.lblkCoff (lblk + numBlks) ≠ 0#32 := by
      intro h0
      rw [h0] at hcoff
      exact hoff hcoff.symm
    rw [if_pos ⟨hzero, hcoff0⟩]
    -- a range that does not end with a cluster ends before the last block
    have hlt : lblk.toNat + numBlks.toNat < 2 ^ 32 := by
      refine Nat.lt_of_le_of_ne hend fun heq => hoff ?_
      rw [heq]
      exact Nat.mod_eq_zero_of_dvd hdvd
    have hsum : (lblk + numBlks).toNat = lblk.toNat + numBlks.toNat := by
      rw [BitVec.toNat_add, Nat.mod_eq_of_lt hlt]
    have hmod := Nat.mod_lt (lblk.toNat + numBlks.toNat) hr
    have hfit : lblk.toNat + numBlks.toNat + (c.ratio - (lblk.toNat + numBlks.toNat) % c.ratio)
        ≤ 2 ^ 32 := next_multiple_le hr hdvd hlt
    have hto : (lblk + numBlks + (BitVec.ofNat 32 c.ratio - c.lblkCoff (lblk + numBlks))
      - 1#32).toNat
        = lblk.toNat + numBlks.toNat
          + (c.ratio - (lblk.toNat + numBlks.toNat) % c.ratio) - 1 := by
      have hratio : (BitVec.ofNat 32 c.ratio).toNat = c.ratio := by
        rw [BitVec.toNat_ofNat, Nat.mod_eq_of_lt hrlt]
      rw [BitVec.toNat_sub, BitVec.toNat_add, BitVec.toNat_sub, hsum, hratio, hcoff]
      show (2 ^ 32 - 1 + _) % 2 ^ 32 = _
      omega
    have hcard : s.card ≠ 0 := by
      rw [hs]
      exact fun h0 => hzero (BitVec.eq_of_toNat_eq h0)
    generalize lblk + numBlks + (BitVec.ofNat 32 c.ratio - c.lblkCoff (lblk + numBlks)) - 1#32
      = lblkTo at hto ⊢
    have hle : lblk + numBlks ≤ lblkTo := by
      rw [BitVec.le_def, hsum, hto]
      omega
    have htaken := takenRight_iff (D := DelayedAt (sb.root i)) hr hoff
    rw [← hto, ← hsum] at htaken
    obtain ⟨n, sb', hcall, -, -, hn⟩ := dropDelayed_spec rb i h hle (hk hcard) hs htaken
    rw [hsum] at hn
    exact ⟨n, sb', hcall, hn⟩

theorem div_le_div_add {r : Nat} (hr : 0 < r) (x d : Nat) : (x + d) / r ≤ x / r + d := by
  have h1 := Nat.lt_mul_div_succ x hr
  have h2 : d * 1 ≤ d * r := Nat.mul_le_mul_left d hr
  refine Nat.le_of_lt_succ ((Nat.div_lt_iff_lt_mul hr).mpr ?_)
  calc x + d < r * (x / r + 1) + d * r := by omega
    _ = (x / r + d).succ * r := by
      rw [Nat.succ_eq_add_one, Nat.add_right_comm, Nat.add_mul, Nat.mul_comm r]

/-- **`get_reserved_cluster_alloc`** counts the clusters that the range
touches and that have no delayed block outside of it. -/
theorem getReservedClusterAlloc_counts (h : EsInv sb) (lblk numBlks : BitVec 32)
    (hpos : 0 < numBlks.toNat) (hend : lblk.toNat + numBlks.toNat ≤ 2 ^ 32) :
    ∃ n sb', getReservedClusterAlloc rb c i sb lblk numBlks = some (n, sb')
      ∧ n.toNat = (reservedFor c.ratio lblk.toNat (lblk.toNat + numBlks.toNat)
          (DelayedAt (sb.root i))).ncard := by
  have hr := c.ratio_pos
  have hlast : (lblk + numBlks - 1#32).toNat = lblk.toNat + numBlks.toNat - 1 := by bv_omega
  -- all the clusters the range touches
  have hdiv : lblk.toNat / c.ratio ≤ (lblk.toNat + numBlks.toNat - 1) / c.ratio :=
    Nat.div_le_div_right (by omega)
  have hdiv' : (lblk.toNat + numBlks.toNat - 1) / c.ratio
      ≤ lblk.toNat / c.ratio + (numBlks.toNat - 1) := by
    have := div_le_div_add hr lblk.toNat (numBlks.toNat - 1)
    rwa [← Nat.add_sub_assoc hpos] at this
  have hall : (Finset.Icc (lblk.toNat / c.ratio) ((lblk.toNat + numBlks.toNat - 1) / c.ratio)).card
      = (c.b2c (lblk + numBlks - 1#32) - c.b2c lblk + 1#32).toNat := by
    have h1 := c.toNat_b2c lblk
    have h2 := c.toNat_b2c (lblk + numBlks - 1#32)
    rw [hlast] at h2
    rw [Nat.card_Icc]
    bv_omega
  obtain ⟨n1, sb1, hleft, hinv, hroot, hcard⟩ := leftEnd_spec rb c i h lblk _
    (Finset.mem_Icc.mpr ⟨Nat.le_refl _, hdiv⟩) hall
  obtain ⟨n2, sb2, hright, hcount⟩ := rightEnd_spec rb c i hinv lblk numBlks n1 hpos hend
    (fun hne => by
      obtain ⟨k, hk⟩ := Finset.card_pos.mp (Nat.pos_of_ne_zero hne)
      rw [mem_takeOut, Finset.mem_Icc] at hk ⊢
      refine ⟨⟨hdiv, Nat.le_refl _⟩, fun ⟨hsame, htaken⟩ => hk.2 ⟨by omega, htaken⟩⟩) hcard
  refine ⟨n2, sb2, ?_, ?_⟩
  · rw [getReservedClusterAlloc, hleft, Option.bind_some, hright]
  · rw [coe_takeOut hr (by omega), Set.ncard_coe_finset, ← hcount, hroot]

/-- Clusters of four blocks, and the blocks 10 to 19 delayed: of the two
clusters that 10 to 13 are in, the second has delayed blocks behind them. -/
theorem getReservedClusterAlloc_counts_one :
    ∃ st, run delayedAhead EsState.init = some st
      ∧ ∃ n sb', getReservedClusterAlloc (.spine _) ⟨2, by decide⟩ 0 st.sb 10#32 4#32
        = some (n, sb')
        ∧ (reservedFor 4 10 14 (DelayedAt (st.sb.root 0))).ncard = n.toNat ∧ n = 1#32 := by
  have hok : ∀ s ∈ delayedAhead, s.2.Ok := List.forall_mem_singleton.mpr ⟨by decide, by decide⟩
  obtain ⟨n, sb', hcall, hcount⟩ := getReservedClusterAlloc_counts (.spine _) ⟨2, by decide⟩ 0
    (RunInv.of_run hok rfl).inv 10#32 4#32 (by decide) (by decide)
  refine ⟨_, rfl, n, sb', hcall, hcount.symm, ?_⟩
  cases hcall
  rfl

end Reserved

end Ext4.Delalloc
