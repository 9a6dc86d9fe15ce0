import Ext4.Mballoc.Prealloc
import Ext4.Mballoc.Runs

/-!
# Multiblock allocator — the free extent at a cluster

`mb_find_extent` measures how far the free clusters reach from a given one.
It goes from buddy to buddy: behind the end of one it looks up the order of
the next. The chunks a canonical buddy shows are maximal, so the next one
begins exactly where the last one ended and no cluster is counted twice.
-/

namespace Ext4.Mballoc

open Bitmap Dyadic Ext4Buddy

section Model

variable (geo : Geometry) (e4b : Ext4Buddy)

/-- The `while` loop of `mb_find_extent`, with the value `fe_len` has in the
end. A turn adds at least one cluster, and the fuel is their number. -/
def findExtentLoop (needed : Int) : Nat → Nat → Nat → Nat → Nat
  | 0, _, _, feLen => feLen
  | fuel + 1, block, order, feLen =>
      if feLen < needed ∧ order ≤ geo.blkbits + 1 then
        if geo.sMbMaxs order ≤ block + 1 then feLen
        else
          let next := (block + 1) * 2 ^ order
          if e4b.bdBitmap next then feLen
          else
            let order := mbFindOrderForBlock geo e4b next
            findExtentLoop needed fuel (next >>> order) order (feLen + 2 ^ order)
      else feLen

/-- `mb_find_extent`, for the buddy of the group `bdGroup`. `none` is the
`BUG_ON`. -/
def mbFindExtent (bdGroup block : Nat) (needed : Int) (ex : Ext4FreeExtent) :
    Option Ext4FreeExtent :=
  if geo.sMbMaxs 0 ≤ block then none
  else if e4b.bdBitmap block then some { ex with feLen := 0, feStart := 0, feGroup := 0 }
  else
    let order := mbFindOrderForBlock geo e4b block
    let feStart := (block >>> order) <<< order
    let next := block - feStart
    let feLen := findExtentLoop geo e4b needed (geo.sMbMaxs 0) (block >>> order) order
      (2 ^ order - next)
    let feStart := feStart + next
    if 2 ^ (geo.blkbits + 3) < feStart + feLen then
      some { ex with feLen := 0, feStart := 0, feGroup := 0 }
    else some { ex with feLen := feLen, feStart := feStart, feGroup := bdGroup }

/-- The maximal run of free clusters from `b` on has length `n`. -/
def LongestRun (m : Bits) (b n : Nat) : Prop :=
  (∀ b', InRange b n b' → Free geo m b') ∧ ¬ Free geo m (b + n)

end Model

variable {geo : Geometry} {e4b : Ext4Buddy}

theorem Canon.findOrder_max (h : Canon geo e4b) {b : Nat} (hb : Free geo e4b.bdBitmap b) :
    mbFindOrderForBlock geo e4b b ≤ geo.top ∧ Max (Free geo e4b.bdBitmap) geo.top
      (mbFindOrderForBlock geo e4b b) (b / 2 ^ mbFindOrderForBlock geo e4b b) :=
  mbFindOrderForBlock_spec (h.laid.congr fun _ _ hv => and_iff_right hv.1) (tiles_max _ _) hb.1 hb

variable (geo e4b) in
/-- Between two turns: `block` is the maximal chunk in which the extent ends,
and all clusters so far are free. -/
structure Reached (start block order feLen : Nat) : Prop where
  order_le : order ≤ geo.top
  max : Max (Free geo e4b.bdBitmap) geo.top order block
  stop : (block + 1) * 2 ^ order = start + feLen
  free : ∀ b, InRange start feLen b → Free geo e4b.bdBitmap b

variable {start block order feLen : Nat}

/-- Looking up the order of the cluster behind the end adds a whole chunk. -/
theorem Reached.next (h : Reached geo e4b start block order feLen) (hc : Canon geo e4b)
    (hfree : Free geo e4b.bdBitmap (start + feLen)) {o : Nat}
    (ho : mbFindOrderForBlock geo e4b (start + feLen) = o) :
    Reached geo e4b start ((start + feLen) / 2 ^ o) o (feLen + 2 ^ o) := by
  obtain ⟨hle, hmax⟩ := hc.findOrder_max hfree
  rw [ho] at hle hmax
  -- otherwise the chunk would also hold the last cluster of `block`
  have hdvd : (start + feLen) / 2 ^ o * 2 ^ o = start + feLen :=
    Nat.div_mul_cancel (h.stop ▸ h.max.dvd_behind (h.stop.symm ▸ hmax) h.order_le hle)
  have hstop : ((start + feLen) / 2 ^ o + 1) * 2 ^ o = start + (feLen + 2 ^ o) := by
    rw [Nat.add_mul, hdvd]
    omega
  refine ⟨hle, hmax, hstop, fun b hb => ?_⟩
  by_cases hin : b < start + feLen
  · exact h.free b ⟨hb.1, hin⟩
  · exact hmax.1 b (mem_chunk.mpr ⟨by omega, hstop ▸ hb.2⟩)

theorem Reached.at_end (h : Reached geo e4b start block order feLen) :
    geo.sMbMaxs order ≤ block + 1 ↔ geo.sMbMaxs 0 ≤ start + feLen := by
  have hle := h.order_le
  rw [sMbMaxs_eq hle, sMbMaxs_eq (Nat.zero_le _), ← h.stop]
  rw [Geometry.top] at hle
  rw [show geo.blkbits + 3 - 0 = geo.blkbits + 3 - order + order by omega, pow_add,
    Nat.mul_le_mul_right_iff (Nat.two_pow_pos order)]

/-- The loop ends with enough clusters, or behind the last free one. -/
theorem findExtentLoop_spec (hc : Canon geo e4b) (needed : Int) (fuel : Nat) :
    ∀ block order feLen, Reached geo e4b start block order feLen →
      geo.sMbMaxs 0 ≤ start + feLen + fuel →
      ∃ r, findExtentLoop geo e4b needed fuel block order feLen = r ∧ feLen ≤ r ∧
        (∀ b, InRange start r b → Free geo e4b.bdBitmap b) ∧
        (needed ≤ r ∨ ¬ Free geo e4b.bdBitmap (start + r)) := by
  induction fuel with
  | zero =>
    intro block order feLen h hfuel
    exact ⟨feLen, rfl, Nat.le_refl _, h.free, .inr fun hf => absurd hf.1 (by omega)⟩
  | succ fuel ih =>
    intro block order feLen h hfuel
    have hle : order ≤ geo.blkbits + 1 := h.order_le
    rw [findExtentLoop]
    dsimp only
    rw [h.stop, Nat.shiftRight_eq_div_pow, if_congr h.at_end rfl rfl]
    split
    · split
      · exact ⟨feLen, rfl, Nat.le_refl _, h.free, .inr fun hf => absurd hf.1 (by omega)⟩
      · split
        · rename_i hbit
          exact ⟨feLen, rfl, Nat.le_refl _, h.free, .inr fun hf => by simp [hf.2] at hbit⟩
        · rename_i hend hbit
          have hpos := Nat.two_pow_pos (mbFindOrderForBlock geo e4b (start + feLen))
          obtain ⟨r, hr, hler, hspec⟩ :=
            ih _ _ _ (h.next hc ⟨by omega, by simpa using hbit⟩ rfl) (by omega)
          exact ⟨r, hr, by omega, hspec⟩
    · exact ⟨feLen, rfl, Nat.le_refl _, h.free, .inl (by omega)⟩

/-- The extent before the first turn: the rest of the buddy around `start`. -/
theorem reached_first (hc : Canon geo e4b) (hfree : Free geo e4b.bdBitmap start) {o : Nat}
    (ho : mbFindOrderForBlock geo e4b start = o) :
    Reached geo e4b start (start / 2 ^ o) o (2 ^ o - (start - start / 2 ^ o * 2 ^ o)) := by
  obtain ⟨hle, hmax⟩ := hc.findOrder_max hfree
  rw [ho] at hle hmax
  obtain ⟨hlo, hhi⟩ := mem_chunk.mp (rfl : start / 2 ^ o = _)
  have hstop : (start / 2 ^ o + 1) * 2 ^ o
      = start + (2 ^ o - (start - start / 2 ^ o * 2 ^ o)) := by
    rw [Nat.add_mul] at hhi ⊢
    omega
  exact ⟨hle, hmax, hstop, fun b hb =>
    hmax.1 b (mem_chunk.mpr ⟨hlo.trans hb.1, hstop ▸ hb.2⟩)⟩

/-- **`mb_find_extent`** of any cluster of the group returns free clusters
only. They start at the cluster if it is free, none are returned if it is
not, and they are as many as needed or the whole run. -/
theorem mbFindExtent_covers (h : Canon geo e4b) (bdGroup : Nat) (needed : Int)
    (ex : Ext4FreeExtent) (start : Nat) (hs : start < geo.sMbMaxs 0) :
    ∃ ex', mbFindExtent geo e4b bdGroup start needed ex = some ex' ∧
      (∀ b, InRange ex'.feStart ex'.feLen b → Free geo e4b.bdBitmap b) ∧
      (Free geo e4b.bdBitmap start → ex'.feStart = start ∧ 0 < ex'.feLen) ∧
      (¬ Free geo e4b.bdBitmap start → ex'.feLen = 0) ∧
      ∀ n, LongestRun geo e4b.bdBitmap start n → min needed n ≤ ex'.feLen := by
  rw [mbFindExtent, if_neg (by omega)]
  split
  · rename_i hbit
    have hused : ¬ Free geo e4b.bdBitmap start := fun hf => by simp [hf.2] at hbit
    refine ⟨_, rfl, fun b hb => ?_, fun hf => absurd hf hused, fun _ => rfl, fun n hn => ?_⟩
    · exact absurd hb.2 (Nat.not_lt.mpr hb.1)
    · have hn0 : n = 0 := by
        by_contra hne
        exact hused (hn.1 start ⟨Nat.le_refl _, by omega⟩)
      exact hn0 ▸ min_le_right ..
  · rename_i hbit
    have hfree : Free geo e4b.bdBitmap start := ⟨hs, by simpa using hbit⟩
    have hfirst := reached_first h hfree rfl
    obtain ⟨r, hr, hle, hall, hend⟩ := findExtentLoop_spec h needed (geo.sMbMaxs 0) _ _ _ hfirst
      (by omega)
    obtain ⟨hlo, hhi⟩ := mem_chunk.mp (rfl : start / 2 ^ mbFindOrderForBlock geo e4b start = _)
    dsimp only
    rw [Nat.shiftRight_eq_div_pow, Nat.shiftLeft_eq, hr, Nat.add_sub_cancel' hlo]
    have hpos : 0 < r := by
      rw [Nat.add_mul] at hhi
      omega
    -- the last cluster is free, so the range ends inside the group
    have hin := (hall (start + r - 1) ⟨by omega, by omega⟩).1
    rw [sMbMaxs_eq (Nat.zero_le _), Nat.sub_zero] at hin
    rw [if_neg (by omega)]
    refine ⟨_, rfl, hall, fun _ => ⟨rfl, hpos⟩, fun hf => absurd hfree hf, fun n hn => ?_⟩
    rcases hend with hend | hend
    · exact (min_le_left ..).trans hend
    · have : n ≤ r := by
        by_contra hlt
        exact hend (hn.1 _ ⟨by omega, by omega⟩)
      exact (min_le_right ..).trans (by simpa using this)

/-- A group of 13 clusters of which cluster 4 is used. -/
theorem mbFindExtent_covers_small :
    let geo : Geometry := ⟨1, 13, by decide, by decide⟩
    let incore : Bits := fun b => decide (b = 4 ∨ 13 ≤ b)
    let e4b := ext4MbInitCache geo incore ⟨12, 0, 0, 0, fun _ => 0, false⟩
    ∃ ex', mbFindExtent geo e4b 0 5 100 ⟨0, 0, 0, 0⟩ = some ex' ∧ ex'.feStart = 5 ∧
      0 < ex'.feLen := by
  intro geo incore e4b
  have hpad : Padded geo incore := fun b hb _ => decide_eq_true (.inr hb)
  obtain ⟨hc, hbm, -⟩ := ext4MbInitCache_spec hpad ⟨12, 0, 0, 0, fun _ => 0, false⟩
  obtain ⟨ex', heq, -, hstart, -⟩ := mbFindExtent_covers hc 0 100 ⟨0, 0, 0, 0⟩ 5 (by decide)
  exact ⟨ex', heq, hstart ⟨by decide, by rw [hbm]; decide⟩⟩

end Ext4.Mballoc
