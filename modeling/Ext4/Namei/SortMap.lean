import Mathlib.Data.DFinsupp.WellFounded
import Mathlib.Order.PiLex
import Mathlib.Order.Fin.Basic

/-!
# Directories — sorting the map of a block

When a block of a directory is split, `dx_sort_map` (namei.c) sorts its
entries by hash: a comb sort with a shrinking gap, then a bubble sort.
-/

namespace Ext4.Namei

/-- `struct dx_map_entry`. -/
structure DxMapEntry where
  hash : UInt32
  offs : UInt16
  size : UInt16

/-- The map of a block, from the entry 0 to the entry `top`. -/
abbrev DxMap (top : Nat) := Fin (top + 1) → DxMapEntry

section

variable {top : Nat}

/-- Both inner loops: `q` goes down to the start of the map, from the entry
`k - 1` on, and `p` is `gap` behind it. Only the bubble sort reads the flag
`more`. -/
def exchangePass (gap : Nat) : (k : Nat) → k + gap ≤ top + 1 → DxMap top × Bool → DxMap top × Bool
  | 0, _, s => s
  | k + 1, h, (map, more) =>
      let q : Fin (top + 1) := ⟨k, by omega⟩
      let p : Fin (top + 1) := ⟨k + gap, by omega⟩
      exchangePass gap k (by omega)
        (if (map p).hash < (map q).hash then (map ∘ Equiv.swap q p, true) else (map, more))

/-- The next gap of the comb sort, of an `unsigned`. -/
def nextGap (count : Nat) : Nat :=
  let count := count * 10 % 2 ^ 32 / 13
  if (count + 2 ^ 32 - 9) % 2 ^ 32 < 2 then 11 else count

theorem nextGap_lt {count : Nat} (h : 2 < count) : nextGap count < count := by
  have hle := Nat.mod_le (count * 10) (2 ^ 32)
  unfold nextGap
  generalize count * 10 % 2 ^ 32 = c at hle ⊢
  dsimp only
  split <;> omega

def combSort (count : Nat) (h : count ≤ top + 1) (map : DxMap top) : DxMap top :=
  if hc : 2 < count then
    have hlt := nextGap_lt hc
    combSort (nextGap count) (by omega)
      (exchangePass (nextGap count) (top + 1 - nextGap count) (by omega) (map, false)).1
  else map
termination_by count

/-- What gets smaller with every exchange. -/
def hashes (map : DxMap top) : Lex (Fin (top + 1) → Nat) := toLex fun i => (map i).hash.toNat

/-- A pass of the bubble sort exchanges nothing, and then no neighbours are out
of order, or it sets `more` and the hashes come earlier in the order. -/
theorem exchangePass_cases (map : DxMap top) (more : Bool) {k : Nat} (h : k + 1 ≤ top + 1) :
    (exchangePass 1 k h (map, more) = (map, more) ∧
      ∀ q (hq : q < k), (map ⟨q, by omega⟩).hash ≤ (map ⟨q + 1, by omega⟩).hash) ∨
    (exchangePass 1 k h (map, more)).2 = true ∧
      hashes (exchangePass 1 k h (map, more)).1 < hashes map := by
  induction k generalizing map more with
  | zero => exact .inl ⟨rfl, fun q hq => absurd hq (Nat.not_lt_zero q)⟩
  | succ k ih =>
    rw [exchangePass]
    split
    · rename_i hlt
      have hless : hashes (map ∘ Equiv.swap ⟨k, by omega⟩ ⟨k + 1, by omega⟩) < hashes map :=
        Pi.lex_desc (f := fun i => (map i).hash.toNat) (Fin.mk_le_mk.mpr (Nat.le_succ k))
          (UInt32.lt_iff_toNat_lt.mp hlt)
      rcases ih (map ∘ Equiv.swap ⟨k, by omega⟩ ⟨k + 1, by omega⟩) true (by omega) with
        ⟨heq, -⟩ | ⟨hmore, hless'⟩
      · rw [heq]
        exact .inr ⟨rfl, hless⟩
      · exact .inr ⟨hmore, hless'.trans hless⟩
    · rename_i hlt
      rcases ih map more (by omega) with ⟨heq, hsorted⟩ | hless
      · refine .inl ⟨heq, fun q hq => ?_⟩
        rcases Nat.lt_succ_iff_lt_or_eq.mp hq with hq | rfl
        · exact hsorted q hq
        · exact UInt32.not_lt.mp hlt
      · exact .inr hless

theorem hashes_exchangePass {map : DxMap top}
    (hmore : (exchangePass 1 top (Nat.le_refl _) (map, false)).2 = true) :
    hashes (exchangePass 1 top (Nat.le_refl _) (map, false)).1 < hashes map := by
  rcases exchangePass_cases map false (Nat.le_refl (top + 1)) with ⟨heq, -⟩ | hless
  · rw [heq] at hmore
    nomatch hmore
  · exact hless.2

def bubbleSort (map : DxMap top) : DxMap top :=
  if hmore : (exchangePass 1 top (Nat.le_refl _) (map, false)).2 = true then
    have := hashes_exchangePass hmore
    bubbleSort (exchangePass 1 top (Nat.le_refl _) (map, false)).1
  else (exchangePass 1 top (Nat.le_refl _) (map, false)).1
termination_by wellFounded_lt.wrap (hashes map)

/-- `dx_sort_map` of `top + 1` entries. -/
def dxSortMap (map : DxMap top) : DxMap top :=
  bubbleSort (combSort (top + 1) (Nat.le_refl _) map)

/-! ## The order -/

/-- `map'` has the entries of `map`, in any order. -/
def Permutes (map map' : DxMap top) : Prop :=
  ∃ σ : Equiv.Perm (Fin (top + 1)), map' = map ∘ σ

variable {map map' map'' : DxMap top}

theorem Permutes.refl (map : DxMap top) : Permutes map map := ⟨1, rfl⟩

theorem Permutes.trans (h : Permutes map map') (h' : Permutes map' map'') : Permutes map map'' := by
  obtain ⟨σ, rfl⟩ := h
  obtain ⟨τ, rfl⟩ := h'
  exact ⟨σ * τ, rfl⟩

theorem exchangePass_permutes (map : DxMap top) (more : Bool) {gap k : Nat}
    (h : k + gap ≤ top + 1) : Permutes map (exchangePass gap k h (map, more)).1 := by
  induction k generalizing map more with
  | zero => exact .refl map
  | succ k ih =>
    rw [exchangePass]
    split
    · exact .trans ⟨_, rfl⟩ (ih _ true _)
    · exact ih map more _

theorem combSort_permutes (map : DxMap top) {count : Nat} (h : count ≤ top + 1) :
    Permutes map (combSort count h map) := by
  induction count using Nat.strong_induction_on generalizing map with
  | _ count ih =>
    rw [combSort]
    split
    · rename_i hc
      exact (exchangePass_permutes map false _).trans (ih _ (nextGap_lt hc) _ _)
    · exact .refl map

theorem bubbleSort_spec (map : DxMap top) :
    (∀ i j, i ≤ j → (bubbleSort map i).hash ≤ (bubbleSort map j).hash)
      ∧ Permutes map (bubbleSort map) := by
  induction map using bubbleSort.induct with
  | case1 map hmore hless ih =>
    rw [bubbleSort, dif_pos hmore]
    exact ⟨ih.1, (exchangePass_permutes map false _).trans ih.2⟩
  | case2 map hmore =>
    rw [bubbleSort, dif_neg hmore]
    rcases exchangePass_cases map false (Nat.le_refl (top + 1)) with ⟨heq, hsorted⟩ | hless
    · rw [heq]
      refine ⟨fun i j hij => ?_, .refl map⟩
      have hmono : Monotone fun i => (map i).hash.toNat :=
        Fin.monotone_iff_le_succ.mpr fun q => UInt32.le_iff_toNat_le.mp (hsorted q q.2)
      exact UInt32.le_iff_toNat_le.mpr (hmono hij)
    · exact absurd hless.1 hmore

/-- **`dx_sort_map` sorts**: it ends, and leaves a permutation of the entries in
the order of their hashes. -/
theorem dxSortMap_sorts (map : DxMap top) :
    (∀ i j, i ≤ j → (dxSortMap map i).hash ≤ (dxSortMap map j).hash)
      ∧ Permutes map (dxSortMap map) := by
  obtain ⟨hsorted, hperm⟩ := bubbleSort_spec (combSort (top + 1) (Nat.le_refl _) map)
  exact ⟨hsorted, (combSort_permutes map _).trans hperm⟩

end

end Ext4.Namei
