import Ext4.Mballoc.Generate
import Ext4.Mballoc.MarkUsed

/-!
# Multiblock allocator — freeing a used range

`mb_free_blocks` merges buddies from order 0 upwards and touches, at each
order, only the two borders of the range of chunks that became whole. The
orders below the current one are canonical for the new free clusters, the
others still for the old ones (`Rising`).
-/

namespace Ext4.Mballoc

open Bitmap Dyadic Ext4Buddy

variable {geo : Geometry}

variable (geo) in
/-- The orders below `order` show the new maximal chunks, the rest the old. -/
def Rising (F F' : Nat → Prop) (order : Nat) (o i : Nat) : Prop :=
  if o < order then Max F' geo.top o i else Max F geo.top o i

variable {left right : Bool} {count first i len o s : Nat} {p : Nat → Prop}

/-- Every order has an even number of chunks: a sibling always exists. -/
theorem sMbMaxs_even (h : o ≤ geo.top) : geo.sMbMaxs o % 2 = 0 := by
  rw [Geometry.top] at h
  rw [sMbMaxs_eq h, show geo.blkbits + 3 - o = geo.blkbits + 2 - o + 1 by omega, pow_succ]
  omega

variable {e4b : Ext4Buddy}

theorem Laid.insertRange {S : Nat → Nat → Prop} {lo : Nat} (h : Laid geo e4b S) (ho : o ≤ geo.top)
    (hle : lo + len ≤ geo.sMbMaxs o) (hS : ∀ i, lo ≤ i → i < lo + len → ¬ S o i) :
    Laid geo ((e4b.fillBits geo o lo len false).addCounter o len)
      (fun o' i' => S o' i' ∨ (o' = o ∧ lo ≤ i' ∧ i' < lo + len)) where
  bits := fun o' i' h1 hv' => by
    rw [testBit_addCounter, testBit_fillBits ho hle hv']
    split
    · rename_i hc
      simp [hc]
    · rename_i hc
      rw [h.bits o' i' h1 hv']
      exact (or_iff_left hc).symm
  counters := fun o' ho' => by
    rw [counters_addCounter, info_fillBits, h.counters o' ho']
    split
    · rename_i hc
      subst hc
      refine (cnt_add hle (fun i h1 h2 => ⟨.inr ⟨rfl, h1, h2⟩, hS i h1 h2⟩) fun i _ hi => ?_).symm
      exact or_iff_left (fun hc => hi hc.2)
    · rename_i hc
      exact cnt_congr fun i _ => (or_iff_left fun hh => hc hh.1).symm

/-! ## The two borders of a range -/

/-- A family of chunks of one order after the left border of `[f, ..]`. -/
def leftBordered (p W : Nat → Prop) (f i : Nat) : Prop :=
  (p i ∧ ¬ (f % 2 = 1 ∧ i = f - 1)) ∨ (f % 2 = 1 ∧ i = f ∧ ¬ W (f - 1))

/-- The same after the right border of `[.., l]`. -/
def rightBordered (p W : Nat → Prop) (l i : Nat) : Prop :=
  (p i ∧ ¬ (l % 2 = 0 ∧ i = l + 1)) ∨ (l % 2 = 0 ∧ i = l ∧ ¬ W (l + 1))

theorem leftBordered_right {W : Nat → Prop} {f l : Nat} (hle : f ≤ l) (hl : l % 2 = 0)
    (hp : ¬ p l) : ¬ leftBordered p W f l ∧ (leftBordered p W f (l + 1) ↔ p (l + 1)) := by
  constructor
  · rintro (⟨h, -⟩ | ⟨hf, rfl, -⟩)
    · exact hp h
    · omega
  · refine ⟨fun h => ?_, fun h => .inl ⟨h, fun hc => by omega⟩⟩
    rcases h with ⟨h, -⟩ | ⟨-, h, -⟩
    · exact h
    · omega

theorem rightBordered_left {W : Nat → Prop} {f l : Nat} (hle : f ≤ l) :
    rightBordered (leftBordered p W f) W l i ↔
      (p i ∧ ¬ (f % 2 = 1 ∧ i = f - 1) ∧ ¬ (l % 2 = 0 ∧ i = l + 1)) ∨
        (f % 2 = 1 ∧ i = f ∧ ¬ W (f - 1)) ∨ (l % 2 = 0 ∧ i = l ∧ ¬ W (l + 1)) := by
  constructor
  · rintro (⟨⟨h1, h2⟩ | ⟨h1, h2, h3⟩, h4⟩ | h)
    · exact .inl ⟨h1, h2, h4⟩
    · exact .inr (.inl ⟨h1, h2, h3⟩)
    · exact .inr (.inr h)
  · rintro (⟨h1, h2, h3⟩ | ⟨h1, h2, h3⟩ | h)
    · exact .inl ⟨.inl ⟨h1, h2⟩, h3⟩
    · exact .inl ⟨.inr ⟨h1, h2, h3⟩, fun h4 => by omega⟩
    · exact .inr h

section Borders

variable {e4b : Ext4Buddy} {S : Nat → Nat → Prop} {W : Prop} {order f : Nat}

/-- The step of `mb_buddy_adjust_border` with its counter, at a border `f`
whose sibling is `s`. `W` says that the sibling is whole. -/
theorem adjustBorder_laid (h : Laid geo e4b S) (ho : 1 ≤ order) (side : Int)
    (hside : (f : Int) + side = s) (hvf : Valid geo order f) (hvs : Valid geo order s)
    (hSf : ¬ S order f) (hSs : S order s ↔ W) :
    ∃ f' d e4b', mbBuddyAdjustBorder geo order f side e4b = (f', d, e4b') ∧
      ((W ∧ f' = f + side) ∨ (¬ W ∧ f' = f - side)) ∧
      Laid geo (e4b'.addCounter order d) (fun o i =>
        (S o i ∧ ¬ (o = order ∧ i = s)) ∨ (o = order ∧ i = f ∧ ¬ W)) ∧
      Kept e4b (e4b'.addCounter order d) := by
  unfold mbBuddyAdjustBorder
  have hs : ((f : Int) + side).toNat = s := by omega
  have hf : ((f : Int)).toNat = f := by omega
  rw [hs, hf]
  have hbit := h.bits order s ho hvs
  by_cases hW : W
  · rw [if_neg (by rw [hbit.mpr (hSs.mpr hW)]; simp)]
    refine ⟨_, _, _, rfl, .inl ⟨hW, rfl⟩, ?_, (kept_putBit e4b ho _ _).trans (kept_addCounter ..)⟩
    refine (h.remove hvs (hSs.mpr hW)).congr fun o i _ => ?_
    exact or_iff_left (fun hc => hc.2.2 hW)
  · have hns : ¬ S order s := fun hc => hW (hSs.mp hc)
    rw [if_pos (by rw [← hbit] at hns; simpa using hns)]
    refine ⟨_, _, _, rfl, .inr ⟨hW, rfl⟩, ?_, (kept_putBit e4b ho _ _).trans (kept_addCounter ..)⟩
    refine (h.insert hvf hSf).congr fun o i _ => ?_
    constructor
    · rintro (⟨h, -⟩ | ⟨h1, h2, -⟩)
      · exact .inl h
      · exact .inr ⟨h1, h2⟩
    · rintro (h | ⟨h1, h2⟩)
      · refine .inl ⟨h, ?_⟩
        rintro ⟨rfl, rfl⟩
        exact hns h
      · exact .inr ⟨h1, h2, hW⟩

section

variable (h : Laid geo e4b S) (ho : 1 ≤ order) (htop : order ≤ geo.top)
include h ho htop

/-- The left border of the range `[f, ..]`. -/
theorem adjustLeft_laid {W : Nat → Prop} (hmax : f < geo.sMbMaxs order) (hS : ¬ S order f)
    (hSf : f % 2 = 1 → (S order (f - 1) ↔ W (f - 1))) :
    ∃ f' e4b', adjustLeft geo order f e4b = (f', e4b') ∧
      (f % 2 = 0 → f' = f) ∧
      (f % 2 = 1 → (W (f - 1) ∧ f' = f - 1) ∨ (¬ W (f - 1) ∧ f' = f + 1)) ∧
      Laid geo e4b' (fun o i => if o = order then leftBordered (S order) W f i else S o i) ∧
      Kept e4b e4b' := by
  unfold adjustLeft
  by_cases hf : f % 2 = 1
  · rw [if_pos (by omega)]
    obtain ⟨f', d, e1, heq, hcase, hlaid, hkept⟩ :=
      adjustBorder_laid h ho (s := f - 1) (-1) (by omega) ⟨htop, hmax⟩ ⟨htop, by omega⟩ hS (hSf hf)
    rw [heq]
    refine ⟨f', _, rfl, fun h0 => by omega, fun _ => ?_, hlaid.congr fun o i _ => ?_, hkept⟩
    · rcases hcase with ⟨hw, hf'⟩ | ⟨hw, hf'⟩
      · exact .inl ⟨hw, by omega⟩
      · exact .inr ⟨hw, by omega⟩
    · by_cases hoo : o = order
      · simp [leftBordered, hoo, hf]
      · simp [hoo]
  · rw [if_neg (by omega)]
    refine ⟨f, e4b, rfl, fun _ => rfl, fun h1 => absurd h1 hf, h.congr fun o i _ => ?_,
      Kept.refl e4b⟩
    by_cases hoo : o = order
    · simp [leftBordered, hoo, hf]
    · simp [hoo]

/-- The right border of the range `[.., l]`. -/
theorem adjustRight_laid {W : Nat → Prop} {l : Nat} (hmax : l < geo.sMbMaxs order)
    (hS : l % 2 = 0 → ¬ S order l) (hSl : l % 2 = 0 → (S order (l + 1) ↔ W (l + 1))) :
    ∃ l' e4b', adjustRight geo order l e4b = (l', e4b') ∧
      (l % 2 = 1 → l' = l) ∧
      (l % 2 = 0 → (W (l + 1) ∧ l' = l + 1) ∨ (¬ W (l + 1) ∧ l' = l - 1)) ∧
      Laid geo e4b' (fun o i => if o = order then rightBordered (S order) W l i else S o i) ∧
      Kept e4b e4b' := by
  have heven := sMbMaxs_even htop
  unfold adjustRight
  by_cases hl : l % 2 = 0
  · rw [if_pos (by omega)]
    obtain ⟨l', d, e2, heq, hcase, hlaid, hkept⟩ :=
      adjustBorder_laid h ho (s := l + 1) 1 (by omega) ⟨htop, hmax⟩ ⟨htop, by omega⟩
        (hS hl) (hSl hl)
    rw [heq]
    refine ⟨l', _, rfl, fun h0 => by omega, fun _ => hcase, hlaid.congr fun o i _ => ?_, hkept⟩
    by_cases hoo : o = order
    · simp [rightBordered, hoo, hl]
    · simp [hoo]
  · rw [if_neg (by omega)]
    refine ⟨l, e4b, rfl, fun _ => rfl, fun h1 => absurd h1 hl, h.congr fun o i _ => ?_,
      Kept.refl e4b⟩
    by_cases hoo : o = order
    · simp [rightBordered, hoo, hl]
    · simp [hoo]

/-- The family after both borders of the range `[f, l]` of one order. -/
def bordered (S : Nat → Nat → Prop) (W : Nat → Prop) (order f l o i : Nat) : Prop :=
  if o = order then rightBordered (leftBordered (S order) W f) W l i else S o i

theorem adjustBorders_laid {W W' : Nat → Prop} {l : Nat} (hlev : Level W W' f l)
    (hmax : l < geo.sMbMaxs order) (hSW : ∀ k, S order k → W k)
    (hSf : f % 2 = 1 → (S order (f - 1) ↔ W (f - 1)))
    (hSl : l % 2 = 0 → (S order (l + 1) ↔ W (l + 1))) :
    ∃ f' l' e1 e2, adjustLeft geo order f e4b = (f', e1) ∧ adjustRight geo order l e1 = (l', e2) ∧
      Moved W f l f' l' ∧
      Laid geo e2 (bordered S W order f l) ∧ Kept e4b e2 := by
  have hle := hlev.le
  have hnot : ∀ k, f ≤ k ∧ k ≤ l → ¬ S order k := fun k hk hs => hlev.disjoint k hk (hSW k hs)
  obtain ⟨f', e1, heq1, hf0, hf1, hlaid1, hkept1⟩ := adjustLeft_laid (W := W) h ho htop
    (by omega) (hnot f ⟨Nat.le_refl _, hle⟩) hSf
  obtain ⟨l', e2, heq2, hl1, hl0, hlaid2, hkept2⟩ := adjustRight_laid (W := W) hlaid1 ho htop hmax
    (fun hl => by
      rw [if_pos rfl]
      exact (leftBordered_right hle hl (hnot l ⟨hle, Nat.le_refl _⟩)).1)
    (fun hl => by
      rw [if_pos rfl, ← hSl hl]
      exact (leftBordered_right hle hl (hnot l ⟨hle, Nat.le_refl _⟩)).2)
  refine ⟨f', l', e1, e2, heq1, heq2, ⟨hf0, hf1, hl1, hl0⟩, hlaid2.congr fun o i _ => ?_,
    hkept1.trans hkept2⟩
  unfold bordered
  by_cases hoo : o = order
  · simp [hoo]
  · simp [hoo]

end

end Borders

section Up

variable {e4b : Ext4Buddy} {F F' : Nat → Prop} {lo hi order f l : Nat}

section

variable (hlev : Level (Whole F order) (Whole F' order) f l)

include hlev

/-- The borders' siblings are whole exactly if they are buddies: the chunk
above has a used half. -/
theorem max_iff_whole (hin : f ≤ sib i ∧ sib i ≤ l) : Max F geo.top order i ↔ Whole F order i := by
  refine ⟨fun h => h.1, fun h => ⟨h, fun _ hp => ?_⟩⟩
  exact hlev.disjoint _ hin (whole_parent.mp hp).2

theorem rising_left (hf : f % 2 = 1) :
    Rising geo F F' order order (f - 1) ↔ Whole F order (f - 1) := by
  rw [Rising, if_neg (Nat.lt_irrefl _)]
  refine max_iff_whole hlev ?_
  rw [sib, if_pos (by omega)]
  have := hlev.le
  omega

theorem rising_right (hl : l % 2 = 0) :
    Rising geo F F' order order (l + 1) ↔ Whole F order (l + 1) := by
  rw [Rising, if_neg (Nat.lt_irrefl _)]
  refine max_iff_whole hlev ?_
  rw [sib, if_neg (by omega)]
  have := hlev.le
  omega

/-- Below the highest order, the borders leave the new maximal chunks. -/
theorem bordered_iff_rising (hlt : order < geo.top) (o i : Nat) :
    bordered (Rising geo F F' order) (Whole F order) order f l o i ↔
      Rising geo F F' (order + 1) o i := by
  unfold bordered Rising
  by_cases hoo : o = order
  · subst hoo
    rw [if_pos rfl, rightBordered_left hlev.le, if_neg (Nat.lt_irrefl _),
      if_pos (Nat.lt_succ_self _), max_iff_sib hlt, max_iff_sib hlt, hlev.lone_iff]
  · rw [if_neg hoo, if_congr (show o < order ↔ o < order + 1 by omega) rfl rfl]

/-- At the highest order, they and the range between them are the new
maximal chunks. -/
theorem bordered_top_iff {f' l' : Int} (hm : Moved (Whole F order) f l f' l')
    (heq : order = geo.top) (ho : o ≤ geo.top) (i : Nat) :
    bordered (Rising geo F F' order) (Whole F order) order f l o i ∨
      (o = order ∧ f' ≤ i ∧ i ≤ l') ↔ Max F' geo.top o i := by
  unfold bordered Rising
  by_cases hoo : o = order
  · subst hoo
    rw [if_pos rfl, rightBordered_left hlev.le, if_neg (Nat.lt_irrefl _), heq, max_top, max_top,
      ← heq, ← hm.top_iff hlev]
    simp only [true_and]
  · rw [if_neg hoo, if_pos (show o < order by omega)]
    exact or_iff_left fun hc => hoo hc.1

end

theorem rising_of_none (hg : Grown F F' lo hi)
    (hno : ∀ i, ¬ (Whole F' order i ∧ Touched lo hi order i)) :
    Max F' geo.top o i ↔ Rising geo F F' order o i := by
  rw [Rising]
  split
  · rfl
  · exact hg.max_iff_of_none hno (by omega)

/-- `mb_buddy_mark_free` from `order` on. -/
theorem markFreeUp_spec (hg : Grown F F' lo hi) (hF : ∀ b, F' b → b < geo.sMbMaxs 0)
    (fuel : Nat) : ∀ (order f l : Nat) (e4b : Ext4Buddy), 1 ≤ order →
      order + fuel = geo.top + 1 → order ≤ geo.top → f ≤ l →
      (∀ k, f ≤ k ∧ k ≤ l ↔ Whole F' order k ∧ Touched lo hi order k) →
      Laid geo e4b (Rising geo F F' order) →
      Laid geo (markFreeUp geo fuel order f l e4b) (Max F' geo.top) ∧
        Kept e4b (markFreeUp geo fuel order f l e4b) := by
  induction fuel with
  | zero => omega
  | succ fuel ih =>
    intro order f l e4b ho hfuel htop hle hr hlaid
    have hlev := Level.of_grown hg hle hr
    have hvl : Valid geo order l := valid_of_whole hF htop ((hr l).mp ⟨hle, Nat.le_refl _⟩).1
    have hrise : ∀ k, Rising geo F F' order order k ↔ Max F geo.top order k := fun k => by
      rw [Rising, if_neg (Nat.lt_irrefl _)]
    obtain ⟨f', l', e1, e2, heq1, heq2, hm, hlaid2, hkept⟩ :=
      adjustBorders_laid hlaid ho htop hlev hvl.2 (fun k hk => ((hrise k).mp hk).1)
        (rising_left hlev) (rising_right hlev)
    have hnext := hm.next_grown hlev hr
    obtain ⟨hf2, hf⟩ := hm.left
    obtain ⟨hl2, hl⟩ := hm.right
    have hf0 : 0 ≤ f' := by omega
    rw [markFreeUp, heq1]
    dsimp only
    rw [heq2]
    by_cases hemp : l' < f'
    · rw [if_pos hemp]
      refine ⟨hlaid2.congr fun o i hv => ?_, hkept⟩
      by_cases htop' : order = geo.top
      · rw [← bordered_top_iff hlev hm htop' hv.1]
        exact or_iff_left (fun hc => by omega)
      · rw [bordered_iff_rising hlev (by omega)]
        exact rising_of_none hg fun j hj => by have := (hnext j).mpr hj; omega
    · rw [if_neg hemp]
      have hmax := sMbMaxs_even htop
      have hlm : l' < geo.sMbMaxs order := by have := hvl.2; omega
      by_cases htop' : order = geo.top
      · rw [if_pos (.inr (by rw [htop', Geometry.top]; omega))]
        obtain ⟨a, rfl⟩ : ∃ a : Nat, f' = a := ⟨f'.toNat, by omega⟩
        obtain ⟨len, hlen⟩ : ∃ len : Nat, l' - a + 1 = len := ⟨(l' - a + 1).toNat, by omega⟩
        rw [hlen, Int.toNat_natCast, Int.toNat_natCast]
        refine ⟨(hlaid2.insertRange htop (by omega) fun i h1 h2 => ?_).congr fun o i hv => ?_,
          hkept.trans ((kept_fillBits e2 ho _ _ _).trans (kept_addCounter ..))⟩
        · rw [bordered, if_pos rfl, rightBordered_left hle, hrise, htop', max_top, ← htop']
          exact hm.between hlev (by omega)
        · rw [← bordered_top_iff hlev hm htop' hv.1]
          exact or_congr_right (and_congr_right fun _ => by omega)
      · rw [if_neg (by rw [Geometry.top] at htop htop'; omega)]
        obtain ⟨a, ha⟩ : ∃ a : Nat, f' / 2 = a := ⟨(f' / 2).toNat, by omega⟩
        obtain ⟨c, hc⟩ : ∃ c : Nat, l' / 2 = c := ⟨(l' / 2).toNat, by omega⟩
        rw [ha, hc] at hnext ⊢
        obtain ⟨h1, h2⟩ := ih (order + 1) a c e2 (by omega) (by omega) (by omega) (by omega)
          (fun j => by rw [← hnext]; omega)
          (hlaid2.congr fun o i _ => (bordered_iff_rising hlev (by omega) o i).symm)
        exact ⟨h1, hkept.trans h2⟩

end Up

/-! ## Order 0

The bitmap is already cleared, only the counter of order 0 follows. -/

section Zero

variable {e4b : Ext4Buddy} {S S' : Nat → Nat → Prop} {W : Nat → Prop} {f l n : Nat}

/-- A border `f` with sibling `s` takes the sibling away or stays itself. -/
theorem cnt_border {q : Nat → Prop} {w : Bool} (hf : f < n) (hs : s < n) (hpf : ¬ p f)
    (hps : p s ↔ w = true) (hq : ∀ i, q i ↔ (p i ∧ i ≠ s) ∨ (i = f ∧ w = false)) :
    cnt n q = cnt n p + (if w then -1 else 1) := by
  cases w with
  | true =>
    have hq' : ∀ i, q i ↔ p i ∧ i ≠ s := fun i =>
      (hq i).trans (or_iff_left fun hc => Bool.noConfusion hc.2)
    have h1 := cnt_add_one hs (hps.mpr rfl) (fun hc => ((hq' s).mp hc).2 rfl)
      fun i _ hi => ((hq' i).trans (and_iff_left hi)).symm
    rw [if_pos rfl]
    omega
  | false =>
    rw [if_neg Bool.false_ne_true]
    refine cnt_add_one hf ((hq f).mpr (.inr ⟨rfl, rfl⟩)) hpf fun i _ hi => ?_
    rw [hq]
    exact ⟨fun hc => (hc.resolve_right fun h => hi h.1).1,
      fun hc => .inl ⟨hc, fun h => Bool.false_ne_true (hps.mp (h ▸ hc))⟩⟩

theorem alignFirst_laid (h : Laid geo e4b S) (hmax : f < geo.sMbMaxs 0) (hS : ¬ S 0 f)
    (hSf : f % 2 = 1 → (S 0 (f - 1) ↔ W (f - 1))) (hleft : f % 2 = 1 → (left = true ↔ W (f - 1))) :
    Laid geo (alignFirst f left e4b).2
      (fun o i => if o = 0 then leftBordered (S 0) W f i else S o i) ∧
      Kept e4b (alignFirst f left e4b).2 := by
  unfold alignFirst
  by_cases hf : f % 2 = 1
  · rw [if_pos hf]
    refine ⟨h.countZero (fun o i ho => by rw [if_neg (by omega)]) ?_, kept_addCounter ..⟩
    refine cnt_border hmax (s := f - 1) (by omega) hS ((hSf hf).trans (hleft hf).symm) fun i => ?_
    simp [leftBordered, hf, ← hleft hf]
  · rw [if_neg hf]
    refine ⟨h.congr fun o i _ => ?_, Kept.refl e4b⟩
    by_cases hoo : o = 0
    · simp [leftBordered, hoo, hf]
    · simp [hoo]

theorem alignLast_laid (h : Laid geo e4b S) (hmax : l < geo.sMbMaxs 0) (hS : l % 2 = 0 → ¬ S 0 l)
    (hSl : l % 2 = 0 → (S 0 (l + 1) ↔ W (l + 1)))
    (hright : l % 2 = 0 → (right = true ↔ W (l + 1))) :
    Laid geo (alignLast l right e4b).2
      (fun o i => if o = 0 then rightBordered (S 0) W l i else S o i) ∧
      Kept e4b (alignLast l right e4b).2 := by
  have heven := sMbMaxs_even (Nat.zero_le geo.top)
  unfold alignLast
  by_cases hl : l % 2 = 0
  · rw [if_pos hl]
    refine ⟨h.countZero (fun o i ho => by rw [if_neg (by omega)]) ?_, kept_addCounter ..⟩
    refine cnt_border hmax (s := l + 1) (by omega) (hS hl) ((hSl hl).trans (hright hl).symm)
      fun i => ?_
    simp [rightBordered, hl, ← hright hl]
  · rw [if_neg hl]
    refine ⟨h.congr fun o i _ => ?_, Kept.refl e4b⟩
    by_cases hoo : o = 0
    · simp [rightBordered, hoo, hl]
    · simp [hoo]

/-- `first` and `last` stay inside the range where the borders of an order
above would step out; the halves are the same. -/
theorem align_moved (e1 e2 : Ext4Buddy) (hleft : f % 2 = 1 → (left = true ↔ W (f - 1)))
    (hright : l % 2 = 0 → (right = true ↔ W (l + 1))) :
    ∃ f' l' : Int, Moved W f l f' l' ∧
      ((alignFirst f left e1).1 = f' ∨
        ((alignFirst f left e1).1 = f' + 1 ∧ (alignFirst f left e1).1 = f)) ∧
      ((alignLast l right e2).1 = l' ∨
        ((alignLast l right e2).1 = l' - 1 ∧ (alignLast l right e2).1 = l)) := by
  refine ⟨if f % 2 = 1 then if left then f - 1 else f + 1 else f,
    if l % 2 = 0 then if right then l + 1 else l - 1 else l, ⟨?_, ?_, ?_, ?_⟩, ?_, ?_⟩
  · intro hf
    rw [if_neg (by omega)]
  · intro hf
    rw [if_pos hf, ← hleft hf]
    cases left
    · exact .inr ⟨Bool.false_ne_true, rfl⟩
    · exact .inl ⟨rfl, rfl⟩
  · intro hl
    rw [if_neg (by omega)]
  · intro hl
    rw [if_pos hl, ← hright hl]
    cases right
    · exact .inr ⟨Bool.false_ne_true, rfl⟩
    · exact .inl ⟨rfl, rfl⟩
  · unfold alignFirst
    by_cases hf : f % 2 = 1
    · rw [if_pos hf, if_pos hf]
      cases left
      · exact .inl rfl
      · exact .inr ⟨by simp, by simp⟩
    · rw [if_neg hf, if_neg hf]
      exact .inl rfl
  · unfold alignLast
    by_cases hl : l % 2 = 0
    · rw [if_pos hl, if_pos hl]
      cases right
      · exact .inl rfl
      · exact .inr ⟨by simp, by simp⟩
    · rw [if_neg hl, if_neg hl]
      exact .inl rfl

end Zero

/-- The buddies after a used range `[f, l]` became free. -/
theorem coalesce_spec {F F' : Nat → Prop} {f l : Nat} (left right : Bool) (hg : Grown F F' f l)
    (hF : ∀ b, F' b → b < geo.sMbMaxs 0) (hle : f ≤ l)
    (hleft : f % 2 = 1 → (left = true ↔ F (f - 1)))
    (hright : l % 2 = 0 → (right = true ↔ F (l + 1))) (h : Laid geo e4b (Max F geo.top)) :
    Laid geo (coalesce geo e4b f l left right) (Max F' geo.top) ∧
      Kept e4b (coalesce geo e4b f l left right) := by
  have hr : ∀ k, f ≤ k ∧ k ≤ l ↔ Whole F' 0 k ∧ Touched f l 0 k := by
    intro k
    rw [whole_zero]
    constructor
    · exact fun hk => ⟨(hg.iff k).mpr (.inr hk), k, hk, by simp⟩
    · rintro ⟨-, b, hb, hbk⟩
      simp only [pow_zero, Nat.div_one] at hbk
      exact hbk ▸ hb
  have hlev := Level.of_grown hg hle hr
  have hl0 : l < geo.sMbMaxs 0 := hF l ((hg.iff l).mpr (.inr ⟨hle, Nat.le_refl _⟩))
  have hpos : 0 < geo.top := by rw [Geometry.top]; omega
  have hrise : ∀ k, Rising geo F F' 0 0 k ↔ Max F geo.top 0 k := fun k => by
    rw [Rising, if_neg (Nat.lt_irrefl _)]
  have hnot : ∀ k, f ≤ k ∧ k ≤ l → ¬ Rising geo F F' 0 0 k := fun k hk hm =>
    hlev.disjoint k hk ((hrise k).mp hm).1
  have h0 : Laid geo e4b (Rising geo F F' 0) := h.congr fun o i _ => by
    rw [Rising, if_neg (Nat.not_lt_zero _)]
  rw [← funext fun b => propext (whole_zero (F := F) (b := b))] at hleft hright
  obtain ⟨hlaid1, hkept1⟩ := alignFirst_laid h0 (by omega) (hnot f ⟨Nat.le_refl _, hle⟩)
    (rising_left hlev) hleft
  obtain ⟨hlaid2, hkept2⟩ := alignLast_laid (W := Whole F 0) hlaid1 hl0
    (fun hl => (leftBordered_right hle hl (hnot l ⟨hle, Nat.le_refl _⟩)).1)
    (fun hl => by
      rw [if_pos rfl, (leftBordered_right hle hl (hnot l ⟨hle, Nat.le_refl _⟩)).2]
      exact rising_right hlev hl) hright
  obtain ⟨f', l', hm, hf', hl'⟩ := align_moved (W := Whole F 0) e4b (alignFirst f left e4b).2
    hleft hright
  have hnext := hm.next_grown hlev hr
  obtain ⟨hf2, hf⟩ := hm.left
  obtain ⟨hl2, hl⟩ := hm.right
  have hlaid : Laid geo (alignLast l right (alignFirst f left e4b).2).2
      (Rising geo F F' 1) := hlaid2.congr fun o i _ => by
    rw [← bordered_iff_rising hlev hpos, bordered]
    by_cases hoo : o = 0
    · simp [hoo]
    · simp [hoo]
  rw [coalesce]
  dsimp only
  generalize alignFirst f left e4b = r1 at *
  generalize alignLast l right r1.2 = r2 at *
  by_cases hin : r1.1 ≤ r2.1
  · rw [if_pos hin]
    obtain ⟨a, ha⟩ : ∃ a : Nat, r1.1 / 2 = a := ⟨(r1.1 / 2).toNat, by omega⟩
    obtain ⟨c, hc⟩ : ∃ c : Nat, r2.1 / 2 = c := ⟨(r2.1 / 2).toNat, by omega⟩
    rw [ha, hc, mbBuddyMarkFree]
    obtain ⟨h1, h2⟩ := markFreeUp_spec hg hF geo.top 1 a c _ (by omega) (by omega) (by omega)
      (by omega) (fun j => by rw [← hnext]; omega) hlaid
    exact ⟨h1, (hkept1.trans hkept2).trans h2⟩
  · rw [if_neg hin]
    refine ⟨hlaid.congr fun o i _ => ?_, hkept1.trans hkept2⟩
    exact rising_of_none hg fun j hj => by have := (hnext j).mpr hj; omega

theorem free_fill_false {m : Bits} {start b : Nat} (hle : start + len ≤ geo.sMbMaxs 0) :
    Free geo (fill m start len false) b ↔ Free geo m b ∨ InRange start len b := by
  unfold Free InRange
  by_cases hb : start ≤ b ∧ b < start + len
  · rw [fill_in hb]
    exact ⟨fun _ => .inr hb, fun _ => ⟨by omega, rfl⟩⟩
  · rw [fill_out hb]
    exact (or_iff_left hb).symm

/-- **`mb_free_blocks` of a used range keeps the state canonical.** -/
theorem mbFreeBlocks_used (h : Canon geo e4b) (hcount : 0 < count)
    (hle : first + count ≤ geo.clustersPerGroup) (hcorrupt : e4b.bdInfo.bbitmapCorrupt = false)
    (hused : ∀ b, InRange first count b → e4b.bdBitmap b = true) :
    ∃ e4b', mbFreeBlocks geo e4b first count = some e4b' ∧ Canon geo e4b' ∧
      e4b'.bdBitmap = fill e4b.bdBitmap first count false ∧
      e4b'.bdInfo.bbitmapCorrupt = false := by
  have hle0 : first + count ≤ geo.sMbMaxs 0 := Nat.le_trans hle (clusters_le_maxs geo)
  have hmax0 : 2 ^ geo.blkbits <<< 3 = geo.sMbMaxs 0 := rfl
  have hnew : ∀ b, Free geo (fill e4b.bdBitmap first count false) b ↔
      Free geo e4b.bdBitmap b ∨ InRange first count b := fun b => free_fill_false hle0
  have hdis : ∀ b, InRange first count b → ¬ Free geo e4b.bdBitmap b := fun b hb hf => by
    have := hf.2
    rw [hused b hb] at this
    exact Bool.noConfusion this
  have hblock : ¬ findNext e4b.bdBitmap false (first + count) first < first + count := fun hlt => by
    obtain ⟨h1, -, -, h4⟩ := findNext_spec e4b.bdBitmap false (Nat.le_add_right first count)
    have := h4 hlt
    rw [hused _ ⟨h1, hlt⟩] at this
    exact Bool.noConfusion this
  have hg : Grown (Free geo e4b.bdBitmap) (Free geo (fill e4b.bdBitmap first count false))
      first (first + count - 1) := by
    refine ⟨fun b => ?_, fun b hb => hdis b ⟨hb.1, by omega⟩⟩
    rw [hnew]
    exact or_congr_right (by unfold InRange; omega)
  have hbehind : fill e4b.bdBitmap first count false (first + count)
      = e4b.bdBitmap (first + count) := fill_out (by omega)
  unfold mbFreeBlocks
  rw [if_neg (by omega), hmax0, if_neg (by omega), if_neg (by rw [hcorrupt]; simp)]
  rw [if_neg hblock, hbehind]
  generalize hleft : (decide (first ≠ 0) && !e4b.bdBitmap (first - 1)) = left
  generalize hright : (decide (first + count < geo.sMbMaxs 0) && !e4b.bdBitmap (first + count))
    = right
  have hleft' : left = true ↔ first ≠ 0 ∧ Free geo e4b.bdBitmap (first - 1) := by
    rw [← hleft]
    simp only [Free, Bool.and_eq_true, decide_eq_true_eq, Bool.not_eq_true']
    exact and_congr_right fun hc => (and_iff_right (by omega)).symm
  have hright' : right = true ↔
      first + count < geo.sMbMaxs 0 ∧ Free geo e4b.bdBitmap (first + count) := by
    rw [← hright]
    simp only [Free, Bool.and_eq_true, decide_eq_true_eq, Bool.not_eq_true']
    exact ⟨fun hc => ⟨hc.1, hc.1, hc.2⟩, fun hc => ⟨hc.1, hc.2.2⟩⟩
  refine ⟨_, rfl, ?_⟩
  generalize he0 : ({ e4b with bdBitmap := _, bdInfo := _ } : Ext4Buddy) = e0
  obtain ⟨hlaid, hkept⟩ := coalesce_spec left right hg
    (fun b hb => hb.1) (by omega)
    (fun hf => by
      rw [hleft']
      exact and_iff_right (by omega))
    (fun _ => by
      rw [hright', show first + count - 1 + 1 = first + count by omega]
      exact and_iff_right_of_imp fun hf => hf.1)
    (h.laid.of_eq (show e0.bdBuddy = _ by rw [← he0]) (by rw [← he0]))
  generalize coalesce geo e0 first (first + count - 1) left right = e1 at *
  have hbitmap : (mbSetLargestFreeOrder geo e1).bdBitmap = fill e4b.bdBitmap first count false := by
    show e1.bdBitmap = _
    rw [hkept.bitmap, ← he0]
  have hsound : (mbSetLargestFreeOrder geo e1).bdInfo.bbitmapCorrupt = false := by
    show e1.bdInfo.bbitmapCorrupt = _
    rw [hkept.info.corrupt, ← he0]
    exact hcorrupt
  refine ⟨⟨?_, ?_, ?_, ?_, ?_, rfl⟩, hbitmap, hsound⟩
  · intro b hb1 hb2
    rw [hbitmap, fill_out (by omega)]
    exact h.padded b hb1 hb2
  · rw [hbitmap]
    exact hlaid.of_eq rfl rfl
  · rw [hbitmap]
    show e1.bdInfo.bbFree = _
    rw [hkept.info.free, ← he0]
    show e4b.bdInfo.bbFree + count = _
    rw [h.free, cnt_add hle0 (fun i h1 h2 => ⟨(hnew i).mpr (.inr ⟨h1, h2⟩), hdis i ⟨h1, h2⟩⟩)
      fun i _ hi => by
        rw [hnew]
        exact or_iff_left hi]
  · rw [hbitmap]
    show e1.bdInfo.bbFragments = _
    rw [hkept.info.fragments, ← he0]
    -- allocating the range again would give the old fragments back
    have hfrag := fragments_eq (m := fill e4b.bdBitmap first count false)
      hcount hle0 (fun b hb => (hnew b).mpr (.inr hb))
      (fun b => show Free geo e4b.bdBitmap b ↔ _ by
        rw [hnew]
        constructor
        · exact fun hf => ⟨.inl hf, fun hb => hdis b hb hf⟩
        · rintro ⟨hf | hf, hb⟩
          · exact hf
          · exact absurd hf hb)
      left right
      (by
        rw [hleft', hnew]
        refine and_congr_right fun h0 => (or_iff_left fun hb => ?_).symm
        have := hb.1
        omega)
      (by
        rw [hright', hnew]
        refine and_congr_right fun h0 => (or_iff_left fun hb => ?_).symm
        have := hb.2
        omega)
    show e4b.bdInfo.bbFragments + _ = _
    rw [h.fragments, ← hfrag]
    cases left <;> cases right <;> simp
  · intro b hb
    rw [hbitmap, hnew]
    have hff : (mbSetLargestFreeOrder geo e1).bdInfo.bbFirstFree
        = if first < e4b.bdInfo.bbFirstFree then first else e4b.bdInfo.bbFirstFree := by
      show e1.bdInfo.bbFirstFree = _
      rw [hkept.info.firstFree, ← he0]
    rw [hff] at hb
    rintro (hf | hf)
    · refine h.firstFree b ?_ hf
      split at hb <;> omega
    · have := hf.1
      split at hb <;> omega

theorem Canon.setLargest (h : Canon geo e4b) : Canon geo (mbSetLargestFreeOrder geo e4b) :=
  ⟨h.padded, h.laid.of_eq rfl rfl, h.free, h.fragments, h.firstFree, rfl⟩

/-- What a free comes to for a bitmap, and for the mark of a corrupt group:
nothing if the group has it, and else the clusters are cleared and the group
gets it if one of them was clear. -/
def freedBits (first count : Nat) (m : Bits) (corrupt : Bool) : Bits × Bool :=
  if corrupt then (m, true)
  else (fill m first count false, (List.range count).any fun i => !m (first + i))

theorem freedBits_of_used {m : Bits} (hused : ∀ b, InRange first count b → m b = true) :
    freedBits first count m false = (fill m first count false, false) := by
  refine congrArg (Prod.mk _) (List.any_eq_false.mpr fun i hi => ?_)
  rw [hused _ ⟨Nat.le_add_right _ _, Nat.add_lt_add_left (List.mem_range.mp hi) _⟩]
  decide

theorem freedBits_of_free {m : Bits} {b : Nat} (hb : InRange first count b) (hfree : m b ≠ true) :
    freedBits first count m false = (fill m first count false, true) := by
  refine congrArg (Prod.mk _) (List.any_eq_true.mpr ⟨b - first, ?_, ?_⟩)
  · obtain ⟨hge, hlt⟩ := hb
    exact List.mem_range.mpr (by omega)
  · rw [Nat.add_sub_cancel' hb.1, Bool.eq_false_iff.mpr hfree]
    rfl

/-- **`mb_free_blocks` keeps the state canonical**, also when the group is
marked corrupt already or becomes so because a cluster is freed twice. -/
theorem mbFreeBlocks_spec (h : Canon geo e4b) (hle : first + count ≤ geo.clustersPerGroup) :
    ∃ e4b', mbFreeBlocks geo e4b first count = some e4b' ∧ Canon geo e4b' ∧
      (e4b'.bdBitmap, e4b'.bdInfo.bbitmapCorrupt)
        = freedBits first count e4b.bdBitmap e4b.bdInfo.bbitmapCorrupt := by
  have hle0 : first + count ≤ geo.sMbMaxs 0 := Nat.le_trans hle (clusters_le_maxs geo)
  have hmax0 : 2 ^ geo.blkbits <<< 3 = geo.sMbMaxs 0 := rfl
  by_cases hcount : count = 0
  · refine ⟨e4b, if_pos hcount, h, ?_⟩
    subst hcount
    cases e4b.bdInfo.bbitmapCorrupt with
    | true => rfl
    | false => rw [freedBits_of_used fun b hb => absurd hb.2 (Nat.not_lt.mpr hb.1), fill_zero]
  by_cases hcorrupt : e4b.bdInfo.bbitmapCorrupt = true
  · refine ⟨e4b, ?_, h, by rw [hcorrupt]; rfl⟩
    rw [mbFreeBlocks, if_neg hcount, hmax0, if_neg (by omega), if_pos hcorrupt]
  have hfalse := Bool.eq_false_iff.mpr hcorrupt
  by_cases hused : ∀ b, InRange first count b → e4b.bdBitmap b = true
  · obtain ⟨e4b', heq, hcanon, hbits, hstays⟩ := mbFreeBlocks_used h (by omega) hle hfalse hused
    refine ⟨e4b', heq, hcanon, ?_⟩
    rw [hbits, hstays, hfalse, freedBits_of_used hused]
  · push Not at hused
    obtain ⟨b, hb, hfree⟩ := hused
    have hblock : findNext e4b.bdBitmap false (first + count) first < first + count := by
      obtain ⟨h1, h2, h3, -⟩ := findNext_spec e4b.bdBitmap false (Nat.le_add_right first count)
      by_contra hge
      exact hfree (h3 b hb.1 (by have := hb.2; omega))
    rw [mbFreeBlocks, if_neg hcount, hmax0, if_neg (by omega), if_neg hcorrupt]
    rw [if_pos hblock]
    generalize hmarked : Ext4Buddy.mk (fill e4b.bdBitmap first count false) _ _ = marked
    have hpad : ∀ c, geo.clustersPerGroup ≤ c → c < geo.sMbMaxs 0 → marked.bdBitmap c = true := by
      intro c hc1 hc2
      rw [← hmarked]
      show fill e4b.bdBitmap first count false c = true
      rw [fill_out (by omega)]
      exact h.padded c hc1 hc2
    obtain ⟨hcanon, hbits, hstays⟩ := mbRegenerateBuddy_spec hpad
    refine ⟨_, rfl, hcanon.setLargest, ?_⟩
    show ((mbRegenerateBuddy geo marked).bdBitmap, _) = _
    rw [hbits, hfalse, freedBits_of_free hb hfree]
    refine Prod.ext (by rw [← hmarked]) (hstays (by rw [← hmarked]))

end Ext4.Mballoc
