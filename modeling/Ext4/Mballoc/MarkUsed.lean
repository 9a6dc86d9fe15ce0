import Ext4.Mballoc.Layout

/-!
# Multiblock allocator — allocating a free range

A buddy is canonical (`Canon`) when it shows the maximal chunks of the
free clusters and its counts agree with them. `mb_mark_used` keeps it so:
its loop takes whole buddies out and splits the ones that stick out of the
range. Between two turns the family still tiles what is left, and a buddy
that does not touch the rest of the range is maximal already.
-/

namespace Ext4.Mballoc

open Bitmap Dyadic Ext4Buddy

variable {geo : Geometry}

/-! ## `mb_find_order_for_block` -/

variable {e4b : Ext4Buddy} {S : Nat → Nat → Prop} {F : Nat → Prop} {m : Bits} {b o start len : Nat}

/-- The walk over the buddy block visits the bitmaps of the orders. -/
theorem findOrderLoop_spec (h : Laid geo e4b S) (hb : b < geo.sMbMaxs 0) {fuel order r : Nat}
    (h1 : 1 ≤ order) (hsum : order + fuel = geo.top + 1)
    (hr : findOrderLoop e4b.bdBuddy fuel order (b / 2 ^ (order - 1)) (geo.sMbOffsets order)
      ((1 <<< (geo.blkbits - 1)) >>> (order - 1)) = r) :
    (order ≤ r ∧ r ≤ geo.top ∧ S r (b / 2 ^ r)) ∨
      (r = 0 ∧ ∀ o, order ≤ o → o ≤ geo.top → ¬ S o (b / 2 ^ o)) := by
  induction fuel generalizing order with
  | zero => exact .inr ⟨hr.symm, fun o ho1 ho2 => by omega⟩
  | succ fuel ih =>
    have hv : Valid geo order (b / 2 ^ order) := valid_of_lt (by omega) hb
    have hshift : (b / 2 ^ (order - 1)) >>> 1 = b / 2 ^ order := by
      rw [Nat.shiftRight_eq_div_pow, pow_one, ← div_pow_succ, Nat.sub_add_cancel h1]
    have hbit : e4b.bdBuddy (8 * geo.sMbOffsets order + b / 2 ^ order)
        = e4b.testBit geo order (b / 2 ^ order) := by
      rw [testBit, if_neg (by omega)]
      rfl
    rw [findOrderLoop] at hr
    simp only [hshift, hbit] at hr
    split at hr
    · rename_i hclear
      subst hr
      exact .inl ⟨Nat.le_refl _, by omega, (h.bits order _ h1 hv).mp (by simpa using hclear)⟩
    · rename_i hset
      have hnot : ¬ S order (b / 2 ^ order) := by
        rw [← h.bits order _ h1 hv]
        simpa using hset
      have hoff : geo.sMbOffsets (order + 1)
          = geo.sMbOffsets order + (1 <<< (geo.blkbits - 1)) >>> (order - 1) := by
        obtain ⟨k, rfl⟩ : ∃ k, order = k + 1 := ⟨order - 1, by omega⟩
        rfl
      have hincr : ((1 <<< (geo.blkbits - 1)) >>> (order - 1)) >>> 1
          = (1 <<< (geo.blkbits - 1)) >>> (order + 1 - 1) := by
        rw [← Nat.shiftRight_add]
        congr 1
        omega
      rw [hincr, ← hoff] at hr
      rcases ih (by omega) (by omega) hr with ⟨h2, h3, h4⟩ | ⟨h2, h3⟩
      · exact .inl ⟨by omega, h3, h4⟩
      · refine .inr ⟨h2, fun o ho hle => ?_⟩
        rcases Nat.eq_or_lt_of_le ho with rfl | hlt
        · exact hnot
        · exact h3 o hlt hle

theorem mbFindOrderForBlock_spec (h : Laid geo e4b S) (ht : Tiles S F geo.top)
    (hb : b < geo.sMbMaxs 0) (hF : F b) :
    S (mbFindOrderForBlock geo e4b b) (b / 2 ^ mbFindOrderForBlock geo e4b b) := by
  have hloop : findOrderLoop e4b.bdBuddy (geo.blkbits + 1) 1 (b / 2 ^ (1 - 1)) (geo.sMbOffsets 1)
      ((1 <<< (geo.blkbits - 1)) >>> (1 - 1)) = mbFindOrderForBlock geo e4b b := by
    rw [mbFindOrderForBlock, Nat.sub_self, pow_zero, Nat.div_one]
    rfl
  rcases findOrderLoop_spec h hb (Nat.le_refl 1) (by rw [Geometry.top]; omega) hloop with
    ⟨-, -, hS⟩ | ⟨hzero, hnone⟩
  · exact hS
  · rw [hzero]
    obtain ⟨o, ho⟩ := ht.cover b hF
    rcases Nat.eq_zero_or_pos o with rfl | hpos
    · exact ho
    · exact absurd ho (hnone o hpos (ht.le_top _ _ ho))

/-! ## The loop of `mb_mark_used` -/

theorem splitBuddy_laid (h : Laid geo e4b S) (ht : Tiles S F geo.top)
    (hF : ∀ b, F b → b < geo.sMbMaxs 0) (hS : S (o + 1) (start / 2 ^ (o + 1))) :
    Laid geo (splitBuddy geo e4b start (o + 1)) (Halved S o (start / 2 ^ (o + 1))) := by
  have htop := ht.le_top _ _ hS
  obtain ⟨hw1, hw2⟩ := whole_succ.mp (ht.whole _ _ hS)
  have hv : Valid geo (o + 1) (start / 2 ^ (o + 1)) := valid_of_whole hF htop (ht.whole _ _ hS)
  have hv1 := valid_of_whole hF (by omega) hw1
  have hv2 := valid_of_whole hF (by omega) hw2
  -- neither half was in the family: it would overlap the buddy that is split
  have hno : ∀ i, Whole F o i → i / 2 = start / 2 ^ (o + 1) → ¬ S o i := by
    intro i _ hi hs
    have hb := start_div o i
    have hb' : i * 2 ^ o / 2 ^ (o + 1) = start / 2 ^ (o + 1) := by
      rw [div_pow_succ, hb, hi]
    have := ht.unique o (o + 1) (i * 2 ^ o) (hb.symm ▸ hs) (hb'.symm ▸ hS)
    omega
  have hcur : start / 2 ^ o / 2 * 2 = 2 * (start / 2 ^ (o + 1)) := by
    rw [← div_pow_succ, Nat.mul_comm]
  have h1 := h.remove hv hS
  have h2 := h1.insert hv1 (fun hs => hno _ hw1 (by omega) hs.1)
  have h3 := h2.insert hv2 (by
    rintro (hs | ⟨-, hs⟩)
    · exact hno _ hw2 (by omega) hs.1
    · omega)
  unfold splitBuddy
  simp only [Nat.add_sub_cancel, Nat.shiftRight_eq_div_pow]
  rw [hcur]
  rw [putBit_addCounter] at h3
  exact h3

theorem sameInfo_splitBuddy (e4b : Ext4Buddy) (start ord : Nat) :
    SameInfo e4b (splitBuddy geo e4b start ord) :=
  ((((sameInfo_putBit e4b _ _ _).trans (sameInfo_addCounter _ _ _)).trans
    ((sameInfo_putBit _ _ _ _).trans (sameInfo_putBit _ _ _ _))).trans
    (sameInfo_addCounter _ _ _)).trans (sameInfo_addCounter _ _ _)

variable (geo) in
theorem bitmap_splitBuddy
    (hz : Whole (fun b => e4b.bdBitmap b = false) (o + 1) (start / 2 ^ (o + 1))) :
    (splitBuddy geo e4b start (o + 1)).bdBitmap = e4b.bdBitmap := by
  funext b
  unfold splitBuddy
  simp only [bitmap_addCounter, bitmap_putBit, Nat.add_sub_cancel, Nat.shiftRight_eq_div_pow]
  have hhalf : o = 0 → (b = start / 2 ^ o / 2 * 2 ∨ b = start / 2 ^ o / 2 * 2 + 1) →
      e4b.bdBitmap b = false := by
    intro ho hb
    refine hz b ?_
    subst ho
    rw [div_pow_succ, div_pow_succ]
    simp only [pow_zero, Nat.div_one] at hb ⊢
    omega
  split
  · rename_i hc
    exact (hhalf hc.1 (.inr hc.2)).symm
  · split
    · rename_i hc
      exact (hhalf hc.1 (.inl hc.2)).symm
    · rw [if_neg fun hc => Nat.succ_ne_zero o hc.1]

/-- The clusters that are still to be taken. -/
def InRange (start len b : Nat) : Prop := start ≤ b ∧ b < start + len

instance (start len b : Nat) : Decidable (InRange start len b) :=
  inferInstanceAs (Decidable (_ ∧ _))

variable (geo) in
/-- Between two turns: the family tiles `F`, the free clusters without
those taken so far; what does not touch the rest of the range is maximal
for the clusters that will be left. -/
structure Marking (e4b : Ext4Buddy) (S : Nat → Nat → Prop) (F : Nat → Prop) (start len : Nat) :
    Prop where
  laid : Laid geo e4b S
  tiles : Tiles S F geo.top
  bound : ∀ b, F b → b < geo.sMbMaxs 0
  zero : ∀ b, F b → e4b.bdBitmap b = false
  range : ∀ b, InRange start len b → F b
  maximal : ∀ o i, S o i → (∃ b, InRange start len b ∧ b / 2 ^ o = i) ∨
    Max (fun b => F b ∧ ¬ InRange start len b) geo.top o i

theorem chunk_iff (hstart : start / 2 ^ o * 2 ^ o = start) :
    b / 2 ^ o = start / 2 ^ o ↔ start ≤ b ∧ b < start + 2 ^ o := by
  rw [mem_chunk, Nat.add_mul, Nat.one_mul, hstart]

/-- Taking a chunk off the range does not change what is left in the end. -/
theorem rest_take (hstart : start / 2 ^ o * 2 ^ o = start) (hlen : 2 ^ o ≤ len) :
    (fun b => (F b ∧ b / 2 ^ o ≠ start / 2 ^ o) ∧ ¬ InRange (start + 2 ^ o) (len - 2 ^ o) b)
      = fun b => F b ∧ ¬ InRange start len b := by
  have hpos := Nat.two_pow_pos o
  funext b
  rw [Ne, chunk_iff hstart]
  unfold InRange
  refine propext ⟨fun hb => ⟨hb.1.1, ?_⟩, fun hb => ⟨⟨hb.1, ?_⟩, ?_⟩⟩ <;> omega

namespace Marking

theorem take (h : Marking geo e4b S F start len) (hS : S o (start / 2 ^ o))
    (hstart : start / 2 ^ o * 2 ^ o = start) (hlen : 2 ^ o ≤ len) :
    Marking geo ((e4b.putBit geo o (start / 2 ^ o) true).addCounter o (-1))
      (fun o' i' => S o' i' ∧ ¬ (o' = o ∧ i' = start / 2 ^ o))
      (fun b => F b ∧ b / 2 ^ o ≠ start / 2 ^ o) (start + 2 ^ o) (len - 2 ^ o) := by
  have hpos := Nat.two_pow_pos o
  have hv : Valid geo o (start / 2 ^ o) :=
    valid_of_whole h.bound (h.tiles.le_top _ _ hS) (h.tiles.whole _ _ hS)
  refine ⟨h.laid.remove hv hS, h.tiles.remove hS, fun b hb => h.bound b hb.1, ?_, ?_, ?_⟩
  · rintro b ⟨hb, hne⟩
    rw [bitmap_addCounter, bitmap_putBit, if_neg]
    · exact h.zero b hb
    · rintro ⟨rfl, hb⟩
      rw [pow_zero, Nat.div_one] at hb
      rw [pow_zero, Nat.div_one, Nat.div_one] at hne
      exact hne hb
  · intro b hb
    unfold InRange at hb
    refine ⟨h.range b ⟨by omega, by omega⟩, ?_⟩
    rw [Ne, chunk_iff hstart]
    omega
  · rintro o' i' ⟨hs, hne⟩
    rw [rest_take hstart hlen]
    rcases h.maximal o' i' hs with ⟨b, hb, hbi⟩ | hm
    · by_cases hin : InRange (start + 2 ^ o) (len - 2 ^ o) b
      · exact .inl ⟨b, hin, hbi⟩
      · -- the buddy would share a cluster with the one that was taken
        exfalso
        have hbc : b / 2 ^ o = start / 2 ^ o := by
          rw [chunk_iff hstart]
          unfold InRange at hb hin
          omega
        obtain rfl := h.tiles.unique _ _ b (hbc.symm ▸ hS) (hbi.symm ▸ hs)
        exact hne ⟨rfl, by rw [← hbi, hbc]⟩
    · exact .inr hm

theorem split (h : Marking geo e4b S F start len) (hS : S (o + 1) (start / 2 ^ (o + 1)))
    (hlen : 0 < len) :
    Marking geo (splitBuddy geo e4b start (o + 1)) (Halved S o (start / 2 ^ (o + 1)))
      F start len := by
  have htop := h.tiles.le_top _ _ hS
  have hw := h.tiles.whole _ _ hS
  have hstart : InRange start len start := ⟨Nat.le_refl _, by omega⟩
  have hbm := bitmap_splitBuddy geo (hw.mono fun b _ hb => h.zero b hb)
  -- a half outside the range is maximal: the other one, or its parent, contains `start`
  have hhalf : ∀ i, i / 2 = start / 2 ^ (o + 1) → Whole F o i →
      (∃ b, InRange start len b ∧ b / 2 ^ o = i) ∨
        Max (fun b => F b ∧ ¬ InRange start len b) geo.top o i := by
    intro i hi hwi
    by_cases hin : ∃ b, InRange start len b ∧ b / 2 ^ o = i
    · exact .inl hin
    · refine .inr ⟨fun b hb => ⟨hwi b hb, fun hr => hin ⟨b, hr, hb⟩⟩, fun _ hp => ?_⟩
      rw [hi] at hp
      exact (hp start rfl).2 hstart
  obtain ⟨hw1, hw2⟩ := whole_succ.mp hw
  refine ⟨splitBuddy_laid h.laid h.tiles h.bound hS, h.tiles.split hS, h.bound, ?_, h.range, ?_⟩
  · intro b hb
    rw [hbm]
    exact h.zero b hb
  · rintro o' i' ((⟨hs, -⟩ | ⟨rfl, rfl⟩) | ⟨rfl, rfl⟩)
    · exact h.maximal o' i' hs
    · exact hhalf _ (by omega) hw1
    · exact hhalf _ (by omega) hw2

/-- A range of no clusters is done. -/
theorem done (h : Marking geo e4b S F start 0) :
    Laid geo e4b (Max (fun b => F b ∧ ¬ InRange start 0 b) geo.top) := by
  have hno : ∀ b, ¬ InRange start 0 b := by
    intro b hb
    unfold InRange at hb
    omega
  have heq : (fun b => F b ∧ ¬ InRange start 0 b) = F := by
    funext b
    simp [hno b]
  have hmax : ∀ o i, S o i → Max F geo.top o i := fun o i hs =>
    heq ▸ (h.maximal o i hs).resolve_left fun ⟨b, hb, _⟩ => hno b hb
  rw [heq]
  exact h.laid.congr fun o i hv => (h.tiles.eq_max hmax hv.1).symm

end Marking

/-- **The loop**: with a turn for every split and every buddy it takes the
range out of the family and writes to no cluster outside it. -/
theorem markUsedLoop_spec (fuel ret : Nat) (h : Marking geo e4b S F start len)
    (hfuel : 0 < len → ∀ o, S o (start / 2 ^ o) → len * (geo.top + 2) + o < fuel) :
    ∃ ret' e4b', markUsedLoop geo fuel start len ret e4b = some (ret', e4b') ∧
      Laid geo e4b' (Max (fun b => F b ∧ ¬ InRange start len b) geo.top) ∧ SameInfo e4b e4b' ∧
      ∀ b, ¬ InRange start len b → e4b'.bdBitmap b = e4b.bdBitmap b := by
  induction fuel generalizing start len ret e4b S F with
  | zero =>
    rcases Nat.eq_zero_or_pos len with rfl | hlen
    · exact ⟨ret, e4b, rfl, h.done, ⟨rfl, rfl, rfl, rfl⟩, fun _ _ => rfl⟩
    · obtain ⟨o, ho⟩ := h.tiles.cover start (h.range start ⟨Nat.le_refl _, by omega⟩)
      have := hfuel hlen o ho
      omega
  | succ fuel ih =>
    rw [markUsedLoop]
    by_cases hlen0 : len = 0
    · rw [if_pos hlen0]
      subst hlen0
      exact ⟨ret, e4b, rfl, h.done, ⟨rfl, rfl, rfl, rfl⟩, fun _ _ => rfl⟩
    rw [if_neg hlen0]
    have hlen : 0 < len := Nat.pos_of_ne_zero hlen0
    have hF : F start := h.range start ⟨Nat.le_refl _, by omega⟩
    have hS := mbFindOrderForBlock_spec h.laid h.tiles (h.bound start hF) hF
    generalize mbFindOrderForBlock geo e4b start = ord at hS ⊢
    have hmeas := hfuel hlen ord hS
    have hpos := Nat.two_pow_pos ord
    dsimp only
    rw [Nat.shiftRight_eq_div_pow, Nat.shiftLeft_eq, Nat.one_shiftLeft]
    by_cases hc : start / 2 ^ ord * 2 ^ ord = start ∧ 2 ^ ord ≤ len
    · rw [if_pos hc]
      have hv : Valid geo ord (start / 2 ^ ord) :=
        valid_of_whole h.bound (h.tiles.le_top _ _ hS) (h.tiles.whole _ _ hS)
      rw [if_neg (Nat.not_le.mpr hv.2)]
      have htake := h.take hS hc.1 hc.2
      obtain ⟨ret', e4b', heq, hlaid, hinfo, hbm⟩ := ih ret htake (by
        intro _ o ho
        have htop := htake.tiles.le_top _ _ ho
        have hle : (len - 2 ^ ord) * (geo.top + 2) ≤ (len - 1) * (geo.top + 2) :=
          Nat.mul_le_mul_right _ (by omega)
        have hone : (len - 1) * (geo.top + 2) + (geo.top + 2) = len * (geo.top + 2) := by
          rw [← Nat.succ_mul]
          congr 1
          omega
        omega)
      rw [rest_take hc.1 hc.2] at hlaid
      refine ⟨ret', e4b', heq, hlaid, ?_, fun b hb => ?_⟩
      · exact ((sameInfo_putBit _ _ _ _).trans (sameInfo_addCounter _ _ _)).trans hinfo
      · have hout : ¬ InRange (start + 2 ^ ord) (len - 2 ^ ord) b := by
          unfold InRange at hb ⊢
          omega
        rw [hbm b hout, bitmap_addCounter, bitmap_putBit, if_neg]
        rintro ⟨rfl, rfl⟩
        refine hb ⟨?_, ?_⟩ <;> simp [hlen]
    · rw [if_neg hc]
      cases ord with
      | zero =>
        refine absurd ⟨?_, ?_⟩ hc
        · rw [pow_zero, Nat.div_one, Nat.mul_one]
        · rw [pow_zero]
          omega
      | succ o =>
        rw [if_neg (Nat.succ_ne_zero o)]
        have hsplit := h.split hS hlen
        obtain ⟨ret', e4b', heq, hlaid, hinfo, hbm⟩ :=
          ih (if ret = 0 then len ||| (o + 1) <<< 16 else ret) hsplit (by
          rintro _ o' ho'
          -- the buddy around `start` is now one of the halves
          have hhalf : o' = o := by
            refine hsplit.tiles.unique o' o start ho' ?_
            have hm := Nat.mod_two_eq_zero_or_one (start / 2 ^ o)
            rw [div_pow_succ]
            rcases hm with hm | hm
            · exact .inl (.inr ⟨rfl, by omega⟩)
            · exact .inr ⟨rfl, by omega⟩
          omega)
        refine ⟨ret', e4b', heq, hlaid, (sameInfo_splitBuddy _ _ _).trans hinfo,
          fun b hb => ?_⟩
        rw [hbm b hb, bitmap_splitBuddy geo ((h.tiles.whole _ _ hS).mono
          fun b _ hb => h.zero b hb)]

/-! ## `mb_mark_used` -/

theorem free_fill_true :
    Free geo (fill m start len true) b ↔ Free geo m b ∧ ¬ InRange start len b := by
  unfold Free
  by_cases hb : start ≤ b ∧ b < start + len
  · rw [fill_in hb]
    exact ⟨fun h => absurd h.2 (by simp), fun h => absurd hb h.2⟩
  · rw [fill_out hb]
    exact ⟨fun h => ⟨h, hb⟩, fun h => h.1⟩

/-- The runs of free clusters, when a range changes from free (`m`) to used
(`m'`) or back, in the form both functions keep count of them. -/
theorem fragments_eq {m' : Bits} (hlen : 0 < len)
    (hle : start + len ≤ geo.sMbMaxs 0) (hfree : ∀ b, InRange start len b → Free geo m b)
    (hm' : ∀ b, Free geo m' b ↔ Free geo m b ∧ ¬ InRange start len b) (left right : Bool)
    (hleft : left = true ↔ start ≠ 0 ∧ Free geo m (start - 1))
    (hright : right = true ↔ start + len < geo.sMbMaxs 0 ∧ Free geo m (start + len)) :
    runs (geo.sMbMaxs 0) (Free geo m)
      + (if left && right then 1 else if !left && !right then -1 else 0)
      = runs (geo.sMbMaxs 0) (Free geo m') := by
  have hruns := runs_add (p := Free geo m') (q := Free geo m) hlen hle
    (fun i h1 h2 => ⟨hfree i ⟨h1, h2⟩, fun h => ((hm' i).mp h).2 ⟨h1, h2⟩⟩)
    (fun i hi => by
      rw [hm']
      exact (and_iff_left hi).symm)
  have hl : (start ≠ 0 ∧ Free geo m' (start - 1)) ↔ left = true := by
    rw [hleft, hm']
    exact and_congr_right fun h0 => and_iff_left fun hin => by have := hin.1; omega
  have hr : (start + len < geo.sMbMaxs 0 ∧ Free geo m' (start + len)) ↔ right = true := by
    rw [hright, hm']
    exact and_congr_right fun _ => and_iff_left fun hin => Nat.lt_irrefl _ hin.2
  simp only [hl, hr] at hruns
  rw [hruns]
  cases left <;> cases right <;> simp

/-- **`mb_mark_used`** of a free range keeps the buddy canonical. -/
theorem mbMarkUsed_spec (h : Canon geo e4b) (hlen : 0 < len)
    (hfree : ∀ b, InRange start len b → Free geo e4b.bdBitmap b) :
    ∃ ret e4b', mbMarkUsed geo e4b start len = some (ret, e4b') ∧ Canon geo e4b' ∧
      e4b'.bdBitmap = fill e4b.bdBitmap start len true ∧
      e4b'.bdInfo.bbitmapCorrupt = e4b.bdInfo.bbitmapCorrupt := by
  have hle : start + len ≤ geo.sMbMaxs 0 := by
    have := (hfree (start + len - 1) ⟨by omega, by omega⟩).1
    omega
  have hmax0 : 2 ^ geo.blkbits <<< 3 = geo.sMbMaxs 0 := rfl
  have hnew : ∀ b, Free geo (fill e4b.bdBitmap start len true) b ↔
      Free geo e4b.bdBitmap b ∧ ¬ InRange start len b := fun b => free_fill_true
  have hmark : Marking geo { e4b with bdInfo := markUsedInfo geo e4b start len }
      (fun o i => o ≤ geo.top ∧ Max (Free geo e4b.bdBitmap) geo.top o i)
      (Free geo e4b.bdBitmap) start len := by
    refine ⟨(h.laid.congr fun o i hv => and_iff_right hv.1).of_eq rfl rfl, tiles_max _ _,
      fun b hb => hb.1, fun b hb => hb.2, hfree, ?_⟩
    rintro o i ⟨-, hm⟩
    by_cases hin : ∃ b, InRange start len b ∧ b / 2 ^ o = i
    · exact .inl hin
    · refine .inr ⟨fun b hb => ⟨hm.1 b hb, fun hr => hin ⟨b, hr, hb⟩⟩, fun ho hw => hm.2 ho ?_⟩
      exact hw.mono fun b _ hb => hb.1
  obtain ⟨ret, e4b', heq, hlaid, hinfo, hbm⟩ :=
    markUsedLoop_spec (markUsedFuel geo len) 0 hmark (by
      intro _ o ho
      rw [markUsedFuel]
      omega)
  have hset : (fun b => Free geo e4b.bdBitmap b ∧ ¬ InRange start len b)
      = Free geo (fill e4b.bdBitmap start len true) := by
    funext b
    exact propext (hnew b).symm
  rw [hset] at hlaid
  have hbitmap : ((mbSetLargestFreeOrder geo e4b').fillBits geo 0 start len true).bdBitmap
      = fill e4b.bdBitmap start len true := by
    funext b
    show fill e4b'.bdBitmap start len true b = _
    by_cases hb : start ≤ b ∧ b < start + len
    · rw [fill_in hb, fill_in hb]
    · rw [fill_out hb, fill_out hb]
      exact hbm b hb
  refine ⟨ret, _, ?_, ?_, hbitmap, by rw [info_fillBits]; exact hinfo.corrupt⟩
  · rw [mbMarkUsed, hmax0, if_neg (by omega)]
    dsimp only
    rw [heq]
  · refine ⟨?_, ?_, ?_, ?_, ?_, ?_⟩
    · intro b hb1 hb2
      rw [hbitmap]
      by_cases hb : start ≤ b ∧ b < start + len
      · exact fill_in hb
      · rw [fill_out hb]
        exact h.padded b hb1 hb2
    · rw [hbitmap]
      exact hlaid.of_eq rfl (by rw [info_fillBits]; rfl)
    · rw [hbitmap, info_fillBits]
      show e4b'.bdInfo.bbFree = _
      rw [hinfo.free]
      show e4b.bdInfo.bbFree - len = _
      have := cnt_add (p := Free geo (fill e4b.bdBitmap start len true))
        (q := Free geo e4b.bdBitmap) hle
        (fun i h1 h2 => ⟨hfree i ⟨h1, h2⟩, fun hi => ((hnew i).mp hi).2 ⟨h1, h2⟩⟩)
        (fun i _ hi => by
          rw [hnew]
          exact (and_iff_left hi).symm)
      rw [h.free, this]
      omega
    · rw [hbitmap, info_fillBits]
      show e4b'.bdInfo.bbFragments = _
      rw [hinfo.fragments, ← fragments_eq hlen hle hfree hnew
        (start ≠ 0 && !e4b.bdBitmap (start - 1))
        (start + len < geo.sMbMaxs 0 && !e4b.bdBitmap (start + len)) ?_ ?_, ← h.fragments]
      · rfl
      · simp only [Free, Bool.and_eq_true, decide_eq_true_eq, Bool.not_eq_true']
        exact and_congr_right fun hc => (and_iff_right (by omega)).symm
      · simp only [Free, Bool.and_eq_true, decide_eq_true_eq, Bool.not_eq_true']
        exact and_congr_right fun hc => (and_iff_right hc).symm
    · intro b hb
      rw [hbitmap, hnew]
      rw [info_fillBits] at hb
      have hff : (mbSetLargestFreeOrder geo e4b').bdInfo.bbFirstFree
          = if e4b.bdInfo.bbFirstFree = start then start + len else e4b.bdInfo.bbFirstFree :=
        hinfo.firstFree
      rw [hff] at hb
      rintro ⟨hb1, hb2⟩
      split at hb
      · rename_i hs
        rcases Nat.lt_or_ge b start with hlt | hge
        · exact h.firstFree b (by omega) hb1
        · exact hb2 ⟨hge, hb⟩
      · exact h.firstFree b hb hb1
    · rw [info_fillBits]
      rfl

end Ext4.Mballoc
