import Ext4.Mballoc.Layout

/-!
# Multiblock allocator — generating a buddy

`ext4_mb_generate_buddy` cuts every run of free clusters, from its left
end, into the longest aligned chunks. These are the maximal chunks, so the
state it leaves is canonical.
-/

namespace Ext4.Mballoc

open Bitmap Dyadic Ext4Buddy

variable {geo : Geometry}

/-! ## The order of the next chunk -/

variable {m : Bits} {i n o : Nat}

theorem ffs_spec (hn : n ≠ 0) : 1 ≤ ffs n ∧ 2 ^ (ffs n - 1) ∣ n ∧ ¬ 2 ^ ffs n ∣ n := by
  induction n using Nat.strong_induction_on with
  | h n ih =>
    rw [ffs, if_neg hn]
    by_cases hodd : n % 2 = 1
    · rw [if_pos hodd]
      refine ⟨Nat.le_refl 1, by simp, ?_⟩
      rw [pow_one]
      omega
    · rw [if_neg hodd]
      obtain ⟨h1, h2, h3⟩ := ih (n / 2) (by omega) (by omega)
      have hn2 : n = 2 * (n / 2) := by omega
      refine ⟨by omega, ?_, ?_⟩
      · rw [show ffs (n / 2) + 1 - 1 = ffs (n / 2) - 1 + 1 by omega, pow_succ, Nat.mul_comm, hn2]
        have : 2 * (n / 2) / 2 = n / 2 := by omega
        rw [this]
        exact Nat.mul_dvd_mul_left 2 h2
      · rw [pow_succ, Nat.mul_comm, hn2]
        have : 2 * (n / 2) / 2 = n / 2 := by omega
        rw [this]
        exact fun hd => h3 (Nat.dvd_of_mul_dvd_mul_left (by omega) hd)

theorem two_pow_dvd_or {a t k : Nat} : 2 ^ k ∣ a ||| 2 ^ t ↔ 2 ^ k ∣ a ∧ k ≤ t := by
  rw [Nat.dvd_iff_mod_eq_zero, Nat.or_mod_two_pow, Nat.or_eq_zero_iff, ← Nat.dvd_iff_mod_eq_zero,
    ← Nat.dvd_iff_mod_eq_zero, Nat.pow_dvd_pow_iff_le_right (by omega)]

variable (geo) in
/-- The longest aligned chunk at `first` that fits in `len`. -/
theorem nextOrder_spec (first : Nat) {len : Nat} (hlen : 0 < len) :
    nextOrder geo first len ≤ geo.top ∧ 2 ^ nextOrder geo first len ∣ first ∧
      2 ^ nextOrder geo first len ≤ len ∧
      (nextOrder geo first len = geo.top ∨ ¬ 2 ^ (nextOrder geo first len + 1) ∣ first ∨
        len < 2 ^ (nextOrder geo first len + 1)) := by
  have hborder : 2 <<< geo.blkbits = 2 ^ geo.top := by
    rw [Nat.shiftLeft_eq, Geometry.top, pow_succ, Nat.mul_comm]
  obtain ⟨h1, h2, h3⟩ := ffs_spec (n := first ||| 2 ^ geo.top) (by
    rw [Ne, Nat.or_eq_zero_iff]
    have := Nat.two_pow_pos geo.top
    omega)
  rw [two_pow_dvd_or] at h2 h3
  have hsize : 0 < Nat.size len := Nat.size_pos.mpr hlen
  have hlow : 2 ^ (Nat.size len - 1) ≤ len := Nat.lt_size.mp (by omega)
  have hhigh : len < 2 ^ Nat.size len := Nat.lt_size_self len
  unfold nextOrder fls
  rw [hborder]
  dsimp only
  split
  · rename_i hlt
    refine ⟨h2.2, h2.1, Nat.le_trans (Nat.pow_le_pow_right (by omega) (by omega)) hlow, ?_⟩
    rw [Nat.sub_add_cancel h1]
    by_cases htop : ffs (first ||| 2 ^ geo.top) - 1 = geo.top
    · exact .inl htop
    · exact .inr (.inl fun hd => h3 ⟨hd, by omega⟩)
  · rename_i hge
    have hle : Nat.size len - 1 ≤ ffs (first ||| 2 ^ geo.top) - 1 := by omega
    refine ⟨Nat.le_trans hle h2.2, Nat.dvd_trans (Nat.pow_dvd_pow 2 hle) h2.1, hlow, ?_⟩
    rw [Nat.sub_add_cancel hsize]
    exact .inr (.inr hhigh)

/-! ## One run of free clusters -/

variable {e4b : Ext4Buddy}

/-- One turn of `ext4_mb_mark_free_simple`. At order 0 there is no bit to
clear: the bitmap is the buddy. -/
theorem Laid.markChunk {S : Nat → Nat → Prop} (h : Laid geo e4b S) (hv : Valid geo o i)
    (hS : ¬ S o i) :
    Laid geo (if 0 < o then (e4b.addCounter o 1).putBit geo o i false else e4b.addCounter o 1)
      (fun o' i' => S o' i' ∨ (o' = o ∧ i' = i)) := by
  by_cases ho : 0 < o
  · rw [if_pos ho, putBit_addCounter]
    exact h.insert hv hS
  · obtain rfl : o = 0 := by omega
    rw [if_neg ho]
    refine h.countZero (fun o' i' h1 => or_iff_left (by omega)) ?_
    refine cnt_add_one hv.2 (.inr ⟨rfl, rfl⟩) hS fun j _ hj => ?_
    exact or_iff_left fun hc => hj hc.2

/-- `ext4_mb_mark_free_simple` from `q` to the end of the run. -/
theorem markFreeLoop_spec {F : Nat → Prop} (hF : ∀ b, F b → b < geo.sMbMaxs 0) (fuel : Nat) :
    ∀ q len e4b, len ≤ fuel → (∀ b, q ≤ b → b < q + len → F b) → ¬ F (q + len) →
      Cut F geo.top q → Laid geo e4b (Below F geo.top q) →
      Laid geo (markFreeLoop geo fuel q len e4b) (Below F geo.top (q + len)) ∧
        Kept e4b (markFreeLoop geo fuel q len e4b) := by
  induction fuel with
  | zero =>
    intro q len e4b hfuel _ _ _ hlaid
    obtain rfl : len = 0 := by omega
    exact ⟨hlaid, Kept.refl e4b⟩
  | succ fuel ih =>
    intro q len e4b hfuel hrun hend hcut hlaid
    rw [markFreeLoop]
    by_cases hlen : 0 < len
    · rw [if_pos hlen]
      obtain ⟨htop, hdvd, hle, hlong⟩ := nextOrder_spec geo q hlen
      dsimp only
      generalize nextOrder geo q len = o at *
      have hm := hcut.max hrun hend hdvd hle hlong
      rw [Nat.shiftRight_eq_div_pow, Nat.shiftLeft_eq, Nat.one_mul]
      have hsum : q + 2 ^ o + (len - 2 ^ o) = q + len := by omega
      have hlaid' := (hlaid.markChunk (valid_of_whole hF htop hm.1) not_below).congr
        fun o' i' hv => below_add hm hdvd htop hv.1
      obtain ⟨h1, h2⟩ := ih (q + 2 ^ o) (len - 2 ^ o) _ (by omega)
        (fun b hb1 hb2 => hrun b (by omega) (by omega)) (by rwa [hsum])
        (Cut.behind hm hdvd) hlaid'
      rw [hsum] at h1
      refine ⟨h1, Kept.trans ?_ h2⟩
      by_cases ho : 0 < o
      · rw [if_pos ho]
        exact (kept_addCounter ..).trans (kept_putBit _ ho _ _)
      · rw [if_neg ho]
        exact kept_addCounter ..
    · obtain rfl : len = 0 := by omega
      rw [if_neg hlen]
      exact ⟨hlaid, Kept.refl e4b⟩

theorem markFreeSimple_one (first : Nat) (e4b : Ext4Buddy) :
    ext4MbMarkFreeSimple geo first 1 e4b = e4b.addCounter 0 1 := by
  have horder : nextOrder geo first 1 = 0 := by
    have hle := (nextOrder_spec geo first Nat.one_pos).2.2.1
    by_contra hne
    have := Nat.one_lt_two_pow hne
    omega
  rw [ext4MbMarkFreeSimple, markFreeLoop, if_pos (by omega), horder]
  rfl

/-! ## The whole bitmap -/

theorem free_lt (hpad : ∀ b, geo.clustersPerGroup ≤ b → b < geo.sMbMaxs 0 → m b = true) {b : Nat}
    (hb : Free geo m b) : b < geo.clustersPerGroup := by
  by_contra hge
  have := hb.2
  rw [hpad b (by omega) hb.1] at this
  exact Bool.noConfusion this

/-- The loop of `ext4_mb_generate_buddy`, at the start of a run or at the
end of the group. -/
theorem generateLoop_spec (hpad : ∀ b, geo.clustersPerGroup ≤ b → b < geo.sMbMaxs 0 → m b = true)
    (fuel : Nat) :
    ∀ i free fragments e4b, e4b.bdBitmap = m → i ≤ geo.clustersPerGroup →
      geo.clustersPerGroup ≤ i + fuel →
      (i < geo.clustersPerGroup → Starts (Free geo m) i) →
      Laid geo e4b (Below (Free geo m) geo.top i) →
      free = cnt i (Free geo m) → fragments = cnt i (Starts (Free geo m)) →
      ∃ e4b', generateLoop geo fuel i free fragments e4b
          = (cnt geo.clustersPerGroup (Free geo m),
            cnt geo.clustersPerGroup (Starts (Free geo m)), e4b') ∧
        Laid geo e4b' (Below (Free geo m) geo.top geo.clustersPerGroup) ∧ Kept e4b e4b' := by
  have hmaxs := clusters_le_maxs geo
  induction fuel with
  | zero =>
    intro i free fragments e4b _ hi hfuel _ hlaid hfree hfrag
    obtain rfl : i = geo.clustersPerGroup := by omega
    exact ⟨e4b, by rw [generateLoop, hfree, hfrag], hlaid, Kept.refl e4b⟩
  | succ fuel ih =>
    intro i free fragments e4b hbm hi hfuel hstart hlaid hfree hfrag
    rw [generateLoop]
    by_cases hlt : i < geo.clustersPerGroup
    · rw [if_pos hlt, hbm]
      obtain ⟨hFi, hprev⟩ := hstart hlt
      obtain ⟨hj1, hj2, hj3, hj4⟩ := findNext_spec m true hi
      generalize findNext m true geo.clustersPerGroup i = j at *
      have hrun : ∀ b, i ≤ b → b < j → Free geo m b := fun b h1 h2 =>
        ⟨by omega, by simpa using hj3 b h1 h2⟩
      have hFj : ¬ Free geo m j := fun hf => by
        have := hj4 (free_lt hpad hf)
        rw [hf.2] at this
        exact Bool.noConfusion this
      have hij : i < j := by exact Nat.lt_of_le_of_ne hj1 fun heq => hFj (heq ▸ hFi)
      have hcut : Cut (Free geo m) geo.top i := by
        rcases hprev with rfl | hprev
        · exact Cut.zero
        · exact Cut.of_gap hprev
      -- the run `[i, j)`
      have hsimple : (if 1 < j - i then ext4MbMarkFreeSimple geo i (j - i) e4b
          else e4b.addCounter 0 1) = ext4MbMarkFreeSimple geo i (j - i) e4b := by
        split
        · rfl
        · rw [show j - i = 1 by omega, markFreeSimple_one]
      have hsum : i + (j - i) = j := by omega
      obtain ⟨hlaid1, hkept1⟩ := markFreeLoop_spec (fun b hb => hb.1) (j - i) i (j - i) e4b
        (Nat.le_refl _) (by rwa [hsum]) (by rwa [hsum]) hcut hlaid
      dsimp only
      rw [hsimple, ext4MbMarkFreeSimple]
      rw [hsum] at hlaid1
      generalize markFreeLoop geo (j - i) i (j - i) e4b = e1 at *
      -- the gap `[j, k)` behind it
      obtain ⟨k, hk, hjk, hkmax, hgap, hnext⟩ : ∃ k,
          (if j < geo.clustersPerGroup then findNext e1.bdBitmap false geo.clustersPerGroup j
            else j) = k ∧ j ≤ k ∧ k ≤ geo.clustersPerGroup ∧
          (∀ b, j ≤ b → b < k → ¬ Free geo m b) ∧
          (k < geo.clustersPerGroup → j < k ∧ Free geo m k) := by
        rw [hkept1.bitmap, hbm]
        obtain ⟨h1, h2, h3, h4⟩ := findNext_spec m false hj2
        split
        · refine ⟨_, rfl, h1, h2, fun b hb1 hb2 hf => ?_, fun hk => ?_⟩
          · have := h3 b hb1 hb2
            rw [hf.2] at this
            exact Bool.noConfusion this
          · have hfk : Free geo m (findNext m false geo.clustersPerGroup j) := ⟨by omega, h4 hk⟩
            refine ⟨Nat.lt_of_le_of_ne h1 fun heq => hFj ?_, hfk⟩
            rwa [← heq] at hfk
        · exact ⟨j, rfl, Nat.le_refl _, hj2, fun b hb1 hb2 => by omega, fun hk => by omega⟩
      rw [hk]
      have hfree' : free + ↑(j - i) = cnt k (Free geo m) := by
        obtain ⟨d, rfl⟩ := Nat.exists_eq_add_of_le hjk
        rw [cnt_extend_none d hgap, hfree]
        obtain ⟨len, rfl⟩ := Nat.exists_eq_add_of_le hj1
        rw [cnt_extend_all len hrun, Nat.add_sub_cancel_left]
      have hfrag' : fragments + 1 = cnt k (Starts (Free geo m)) := by
        -- of `[i, k)`, only `i` starts a run
        have hone : cnt (i + 1) (Starts (Free geo m)) = cnt i (Starts (Free geo m)) + 1 := by
          rw [cnt, if_pos ⟨hFi, hprev⟩]
        obtain ⟨d, rfl⟩ := Nat.exists_eq_add_of_le (show i + 1 ≤ k by omega)
        rw [cnt_extend_none d, hone, hfrag]
        rintro b hb1 hb2 ⟨hfb, h0 | hprevb⟩
        · omega
        · rcases Nat.lt_or_ge b j with hbj | hjb
          · exact hprevb (hrun (b - 1) (by omega) (by omega))
          · exact hgap b hjb hb2 hfb
      obtain ⟨e4b', heq, hlaid', hkept'⟩ := ih k _ _ e1 (hkept1.bitmap.trans hbm) hkmax (by omega)
        (fun hlt' => ⟨(hnext hlt').2, .inr (hgap (k - 1) (by have := (hnext hlt').1; omega)
          (by have := (hnext hlt').1; omega))⟩)
        (hlaid1.congr fun o c _ => below_gap hjk hgap) hfree' hfrag'
      exact ⟨e4b', heq, hlaid', hkept1.trans hkept'⟩
    · obtain rfl : i = geo.clustersPerGroup := by omega
      exact ⟨e4b, by rw [if_neg hlt, hfree, hfrag], hlaid, Kept.refl e4b⟩

/-- No buddy at any order, as `ext4_mb_init_cache` and
`mb_regenerate_buddy` prepare it. -/
def Blank (geo : Geometry) (e4b : Ext4Buddy) : Prop := Laid geo e4b (fun _ _ => False)

/-- **`ext4_mb_generate_buddy` leaves a canonical state.** -/
theorem ext4MbGenerateBuddy_spec (hblank : Blank geo e4b)
    (hpad : ∀ b, geo.clustersPerGroup ≤ b → b < geo.sMbMaxs 0 → e4b.bdBitmap b = true) :
    Canon geo (ext4MbGenerateBuddy geo e4b) ∧
      (ext4MbGenerateBuddy geo e4b).bdBitmap = e4b.bdBitmap ∧
      (e4b.bdInfo.bbFree = cnt (geo.sMbMaxs 0) (Free geo e4b.bdBitmap) →
        (ext4MbGenerateBuddy geo e4b).bdInfo.bbitmapCorrupt = e4b.bdInfo.bbitmapCorrupt) ∧
      (e4b.bdInfo.bbitmapCorrupt = true →
        (ext4MbGenerateBuddy geo e4b).bdInfo.bbitmapCorrupt = true) := by
  have hF : ∀ b, Free geo e4b.bdBitmap b → b < geo.clustersPerGroup := fun b hb => free_lt hpad hb
  have hmaxs := clusters_le_maxs geo
  obtain ⟨h1, h2, h3, h4⟩ := findNext_spec e4b.bdBitmap false (Nat.zero_le geo.clustersPerGroup)
  unfold ext4MbGenerateBuddy
  dsimp only
  generalize findNext e4b.bdBitmap false geo.clustersPerGroup 0 = i at *
  have hused : ∀ b, b < i → ¬ Free geo e4b.bdBitmap b := fun b hb hf => by
    have := h3 b (Nat.zero_le b) hb
    rw [hf.2] at this
    exact Bool.noConfusion this
  generalize he0 : ({ e4b with bdInfo := { e4b.bdInfo with bbFirstFree := i } } : Ext4Buddy) = e0
  have hlaid0 : Laid geo e0 (Below (Free geo e4b.bdBitmap) geo.top i) := by
    refine (hblank.of_eq (by rw [← he0]) (by rw [← he0])).congr fun o c _ => ?_
    rw [below_gap (Nat.zero_le i) (fun b _ hb => hused b hb)]
    exact iff_false_intro below_zero
  obtain ⟨e1, heq, hlaid1, hkept⟩ := generateLoop_spec hpad geo.clustersPerGroup i 0 0 e0
    (by rw [← he0]) h2 (by omega)
    (fun hlt => ⟨⟨by omega, h4 hlt⟩, by
      rcases Nat.eq_zero_or_pos i with h0 | hpos
      · exact .inl h0
      · exact .inr (hused (i - 1) (by omega))⟩)
    hlaid0 (cnt_false fun b hb => hused b hb).symm
    (cnt_false fun b hb hs => hused b hb hs.1).symm
  rw [heq]
  have hbm : e1.bdBitmap = e4b.bdBitmap := by rw [hkept.bitmap, ← he0]
  have hfirst : e1.bdInfo.bbFirstFree = i := by rw [hkept.info.firstFree, ← he0]
  have hbbFree : e1.bdInfo.bbFree = e4b.bdInfo.bbFree := by rw [hkept.info.free, ← he0]
  have hcorrupt : e1.bdInfo.bbitmapCorrupt = e4b.bdInfo.bbitmapCorrupt := by
    rw [hkept.info.corrupt, ← he0]
  obtain ⟨d, hd⟩ := Nat.exists_eq_add_of_le hmaxs
  have hfree : cnt geo.clustersPerGroup (Free geo e4b.bdBitmap)
      = cnt (geo.sMbMaxs 0) (Free geo e4b.bdBitmap) := by
    rw [hd, cnt_extend_none d fun b hb _ hf => absurd (hF b hf) (by omega)]
  have hruns : cnt geo.clustersPerGroup (Starts (Free geo e4b.bdBitmap))
      = runs (geo.sMbMaxs 0) (Free geo e4b.bdBitmap) := by
    rw [runs, hd, cnt_extend_none d fun b hb _ hf => absurd (hF b hf.1) (by omega)]
  rw [hfree, hruns]
  -- whether or not the group descriptor agreed, `bb_free` is now the count
  obtain ⟨e2, he2, hb2, hbuddy2, hc2, hfree2, hfrag2, hfirst2, hcorrupt2, hstays2⟩ :
    ∃ e2 : Ext4Buddy,
      (if cnt (geo.sMbMaxs 0) (Free geo e4b.bdBitmap) ≠ e1.bdInfo.bbFree then
        { e1 with bdInfo := { e1.bdInfo with
            bbFragments := runs (geo.sMbMaxs 0) (Free geo e4b.bdBitmap)
            bbFree := cnt (geo.sMbMaxs 0) (Free geo e4b.bdBitmap), bbitmapCorrupt := true } }
      else { e1 with bdInfo := { e1.bdInfo with
            bbFragments := runs (geo.sMbMaxs 0) (Free geo e4b.bdBitmap) } }) = e2 ∧
      e2.bdBitmap = e4b.bdBitmap ∧ e2.bdBuddy = e1.bdBuddy ∧
      e2.bdInfo.bbCounters = e1.bdInfo.bbCounters ∧
      e2.bdInfo.bbFree = cnt (geo.sMbMaxs 0) (Free geo e4b.bdBitmap) ∧
      e2.bdInfo.bbFragments = runs (geo.sMbMaxs 0) (Free geo e4b.bdBitmap) ∧
      e2.bdInfo.bbFirstFree = i ∧
      (e4b.bdInfo.bbFree = cnt (geo.sMbMaxs 0) (Free geo e4b.bdBitmap) →
        e2.bdInfo.bbitmapCorrupt = e4b.bdInfo.bbitmapCorrupt) ∧
      (e4b.bdInfo.bbitmapCorrupt = true → e2.bdInfo.bbitmapCorrupt = true) := by
    by_cases hne : cnt (geo.sMbMaxs 0) (Free geo e4b.bdBitmap) ≠ e1.bdInfo.bbFree
    · rw [if_pos hne]
      exact ⟨_, rfl, hbm, rfl, rfl, rfl, rfl, hfirst, fun h => absurd (hbbFree.trans h).symm hne,
        fun _ => rfl⟩
    · rw [if_neg hne]
      exact ⟨_, rfl, hbm, rfl, rfl, (not_not.mp hne).symm, rfl, hfirst, fun _ => hcorrupt,
        fun h => hcorrupt.trans h⟩
  have hbm2 : (mbSetLargestFreeOrder geo e2).bdBitmap = e4b.bdBitmap := hb2
  show Canon geo (mbSetLargestFreeOrder geo _) ∧ (mbSetLargestFreeOrder geo _).bdBitmap = _ ∧
    (_ → (mbSetLargestFreeOrder geo _).bdInfo.bbitmapCorrupt = _) ∧
    (_ → (mbSetLargestFreeOrder geo _).bdInfo.bbitmapCorrupt = true)
  rw [he2]
  refine ⟨⟨?_, ?_, ?_, ?_, ?_, rfl⟩, hbm2, hcorrupt2, hstays2⟩
  · rwa [hbm2]
  · rw [hbm2]
    have hlaid2 : Laid geo (mbSetLargestFreeOrder geo e2)
        (Below (Free geo e4b.bdBitmap) geo.top geo.clustersPerGroup) := hlaid1.of_eq hbuddy2 hc2
    refine hlaid2.congr fun o c _ => ?_
    exact (below_iff_max hF).symm
  · rw [hbm2]
    exact hfree2
  · rw [hbm2]
    exact hfrag2
  · intro b hb
    rw [hbm2]
    exact hused b (hfirst2 ▸ hb)

/-! ## Regeneration -/

theorem testBit_setAllBits (e4b : Ext4Buddy) (hn : n ≤ geo.top) (h1 : 1 ≤ o) (hon : o ≤ n)
    (hi : i < geo.sMbMaxs o) : (setAllBits geo n e4b).testBit geo o i = true := by
  induction n with
  | zero => omega
  | succ n ih =>
    rw [setAllBits, testBit_fillBits hn (by omega) ⟨by omega, hi⟩]
    by_cases ho : o = n + 1
    · subst ho
      rw [if_pos ⟨rfl, by omega, by omega⟩]
    · rw [if_neg fun hc => ho hc.1]
      exact ih (by omega) (by omega)

theorem kept_setAllBits (e4b : Ext4Buddy) (n : Nat) : Kept e4b (setAllBits geo n e4b) := by
  induction n with
  | zero => exact Kept.refl e4b
  | succ n ih => exact ih.trans (kept_fillBits _ (by omega) _ _ _)

/-- **`mb_regenerate_buddy` leaves a canonical state, whatever the buddy
was.** -/
theorem mbRegenerateBuddy_spec
    (hpad : ∀ b, geo.clustersPerGroup ≤ b → b < geo.sMbMaxs 0 → e4b.bdBitmap b = true) :
    Canon geo (mbRegenerateBuddy geo e4b) ∧
      (mbRegenerateBuddy geo e4b).bdBitmap = e4b.bdBitmap ∧
      (e4b.bdInfo.bbitmapCorrupt = true →
        (mbRegenerateBuddy geo e4b).bdInfo.bbitmapCorrupt = true) := by
  have hkept := @kept_setAllBits geo e4b geo.top
  rw [← hkept.bitmap] at hpad ⊢
  rw [← hkept.info.corrupt]
  have hblank : Blank geo { setAllBits geo geo.top e4b with
      bdInfo := { (setAllBits geo geo.top e4b).bdInfo with
        bbFragments := 0
        bbCounters := fun o => if o < geo.blkbits + 2 then 0
          else (setAllBits geo geo.top e4b).bdInfo.bbCounters o } } := by
    refine ⟨fun o i h1 hv => ?_, fun o ho => ?_⟩
    · have := testBit_setAllBits e4b (Nat.le_refl _) h1 hv.1 hv.2
      rw [testBit, if_neg (by omega)] at this ⊢
      simp [this]
    · rw [Geometry.top] at ho
      rw [cnt_false fun _ _ => id]
      exact if_pos (by omega)
  obtain ⟨hcanon, hsame, -, hstays⟩ := ext4MbGenerateBuddy_spec hblank hpad
  exact ⟨hcanon, hsame, hstays⟩

end Ext4.Mballoc
