import Ext4.Lib.Bitmap
import Mathlib.Data.BitVec

/-!
# Multiblock allocator — bits by the word

`ext4_set_bits`, `mb_clear_bits` and `mb_test_and_clear_bits` (mballoc.c) write
whole words where they can. The model of the allocator writes ranges of bits;
this file says that it is the same.
-/

namespace Ext4.Mballoc

open Bitmap

/-- The memory of a bitmap. -/
abbrev Words := Nat → BitVec 32

def Words.bits (bm : Words) : Bits := fun i => (bm (i / 32)).getLsbD (i % 32)

/-- `mb_set_bit`. -/
def mbSetBit (bit : Nat) (bm : Words) : Words :=
  Function.update bm (bit / 32) (bm (bit / 32) ||| BitVec.twoPow 32 (bit % 32))

/-- `mb_clear_bit`. -/
def mbClearBit (bit : Nat) (bm : Words) : Words :=
  Function.update bm (bit / 32) (bm (bit / 32) &&& ~~~BitVec.twoPow 32 (bit % 32))

/-- The loop of the three functions. `len` is the end of the range by then. -/
def bitsLoop {σ : Type} (word bit : Nat → σ → σ) (cur len : Nat) (s : σ) : σ :=
  if cur < len then
    if cur % 32 = 0 ∧ len - cur ≥ 32 then bitsLoop word bit (cur + 32) len (word cur s)
    else bitsLoop word bit (cur + 1) len (bit cur s)
  else s
termination_by len - cur

section

variable (bm : Words) (cur len : Nat)

/-- `ext4_set_bits`. -/
def ext4SetBits : Words :=
  bitsLoop (fun cur bm => Function.update bm (cur / 32) (BitVec.allOnes 32)) mbSetBit cur
    (cur + len)
    bm

/-- `mb_clear_bits`. -/
def mbClearBits : Words :=
  bitsLoop (fun cur bm => Function.update bm (cur / 32) 0#32) mbClearBit cur (cur + len) bm

/-- `mb_test_and_clear_bits`: the memory and `zero_bit`. -/
def mbTestAndClearBits : Words × Int :=
  bitsLoop
    (fun cur s =>
      let addr := s.1 (cur / 32)
      (Function.update s.1 (cur / 32) 0#32,
        if addr ≠ BitVec.allOnes 32 ∧ s.2 = -1 then cur + findNext addr.getLsbD false 32 0
          else s.2))
    (fun cur s => (mbClearBit cur s.1, if s.1.bits cur = false ∧ s.2 = -1 then cur else s.2))
    cur (cur + len) (bm, -1)

end

/-! ## One turn -/

section Turn

variable {bm : Words} {cur : Nat} {v : Bool}

theorem bits_update {w : BitVec 32}
    (hw : ∀ j < 32, w.getLsbD j = if j = cur % 32 then v else (bm (cur / 32)).getLsbD j) :
    Words.bits (Function.update bm (cur / 32) w) = fill bm.bits cur 1 v := by
  rw [← put_eq_fill]
  funext i
  rw [Words.bits, put, Function.update_apply, Function.update_apply]
  by_cases h : i / 32 = cur / 32
  · rw [if_pos h, hw _ (Nat.mod_lt i (by decide)), Words.bits, h]
    exact if_congr (by omega) rfl rfl
  · rw [if_neg h, if_neg (fun hc : i = cur => h (hc ▸ rfl)), Words.bits]

theorem bits_setBit : (mbSetBit cur bm).bits = fill bm.bits cur 1 true := by
  refine bits_update fun j hj => ?_
  by_cases h : j = cur % 32 <;> simp [h, hj, Nat.mod_lt]

theorem bits_clearBit : (mbClearBit cur bm).bits = fill bm.bits cur 1 false := by
  refine bits_update fun j hj => ?_
  by_cases h : j = cur % 32 <;> simp [h, hj, Nat.mod_lt]

theorem bits_word {w : BitVec 32} (hw : ∀ i < 32, w.getLsbD i = v) (h : cur % 32 = 0) :
    Words.bits (Function.update bm (cur / 32) w) = fill bm.bits cur 32 v := by
  funext i
  have hin : i / 32 = cur / 32 ↔ cur ≤ i ∧ i < cur + 32 := by omega
  unfold Words.bits fill
  rw [Function.update_apply, ← if_congr hin rfl rfl]
  split
  · exact hw _ (Nat.mod_lt i (by decide))
  · rfl

variable {m : Bits} {lo : Nat}

/-- `z` is the first clear bit of `[lo, hi)`, or -1. -/
def FirstClear (m : Bits) (lo hi : Nat) (z : Int) : Prop :=
  (z = -1 ∧ ∀ b, lo ≤ b → b < hi → m b = true)
    ∨ ∃ b : Nat, z = b ∧ (lo ≤ b ∧ b < hi) ∧ m b = false ∧ ∀ i, lo ≤ i → i < b → m i = true

/-- `zero_bit` of two ranges, one behind the other. -/
theorem FirstClear.append {c : Prop} [Decidable c] {x z : Int} {mid hi : Nat}
    (h : FirstClear m lo mid z) (h' : FirstClear m mid hi (if c then x else -1)) (h1 : lo ≤ mid)
    (h2 : mid ≤ hi) : FirstClear m lo hi (if c ∧ z = -1 then x else z) := by
  rcases h with ⟨rfl, hall⟩ | ⟨b, rfl, hb, hclear, hset⟩
  · rw [if_congr (and_iff_left rfl) rfl rfl]
    have hjoin : ∀ i, lo ≤ i → mid ≤ i ∨ m i = true := fun i hi =>
      (Nat.lt_or_ge i mid).elim (fun hm => .inr (hall i hi hm)) .inl
    rcases h' with ⟨hz, hall'⟩ | ⟨b, hz, hb, hclear, hset⟩
    · exact .inl ⟨hz, fun i hi1 hi2 => (hjoin i hi1).elim (hall' i · hi2) id⟩
    · exact .inr ⟨b, hz, by omega, hclear, fun i hi1 hi2 => (hjoin i hi1).elim (hset i · hi2) id⟩
  · rw [if_neg fun hc => by omega]
    exact .inr ⟨b, rfl, by omega, hclear, hset⟩

theorem firstClear_bit (m : Bits) (cur : Nat) :
    FirstClear m cur (cur + 1) (if m cur = false then cur else -1) := by
  split
  · rename_i hc
    exact .inr ⟨cur, rfl, by omega, hc, fun i h1 h2 => by omega⟩
  · rename_i hc
    refine .inl ⟨rfl, fun b h1 h2 => ?_⟩
    obtain rfl : b = cur := by omega
    simpa using hc

theorem firstClear_word {w : BitVec 32} (hw : ∀ i < 32, m (cur + i) = w.getLsbD i) :
    FirstClear m cur (cur + 32)
      (if w ≠ BitVec.allOnes 32 then cur + findNext w.getLsbD false 32 0 else -1) := by
  split
  · rename_i hne
    obtain ⟨-, hle, hset, hclear⟩ := findNext_spec w.getLsbD false (Nat.zero_le 32)
    generalize findNext w.getLsbD false 32 0 = j at hle hset hclear ⊢
    have hlt : j < 32 := by
      refine Nat.lt_of_le_of_ne hle fun hj => hne (BitVec.eq_of_getLsbD_eq fun i hi => ?_)
      rw [hset i (Nat.zero_le i) (hj ▸ hi), BitVec.getLsbD_allOnes]
      simpa using hi
    refine .inr ⟨cur + j, by omega, by omega, by rw [hw j hlt, hclear hlt], fun i h1 h2 => ?_⟩
    obtain ⟨i, rfl⟩ := Nat.exists_eq_add_of_le h1
    rw [hw i (by omega), hset i (Nat.zero_le i) (by omega)]
    rfl
  · rename_i heq
    refine .inl ⟨rfl, fun b h1 h2 => ?_⟩
    obtain ⟨i, rfl⟩ := Nat.exists_eq_add_of_le h1
    rw [hw i (by omega), not_not.mp heq, BitVec.getLsbD_allOnes]
    simpa using h2

end Turn

/-! ## The loop -/

/-- What a turn keeps, of whichever kind, holds at the end. -/
theorem bitsLoop_rule {σ : Type} {word bit : Nat → σ → σ} (P : Nat → σ → Prop) {cur len k : Nat}
    {s : σ} (hword : ∀ k s, (cur + k) % 32 = 0 → P k s → P (k + 32) (word (cur + k) s))
    (hbit : ∀ k s, P k s → P (k + 1) (bit (cur + k) s)) (hle : k ≤ len) (h : P k s) :
    P len (bitsLoop word bit (cur + k) (cur + len) s) := by
  induction hn : len - k using Nat.strongRecOn generalizing k s with
  | _ n ih =>
    rw [bitsLoop]
    split
    · split
      · rename_i hfit
        exact ih (len - (k + 32)) (by omega) (by omega) (hword k s hfit.1 h) rfl
      · exact ih (len - (k + 1)) (by omega) (by omega) (hbit k s h) rfl
    · rwa [show len = k by omega]

section

variable (bm : Words) (cur len : Nat)

theorem bitsLoop_fill {v : Bool} {word bit : Nat → Words → Words}
    (hword : ∀ cur bm, cur % 32 = 0 → (word cur bm).bits = fill bm.bits cur 32 v)
    (hbit : ∀ cur bm, (bit cur bm).bits = fill bm.bits cur 1 v) :
    (bitsLoop word bit cur (cur + len) bm).bits = fill bm.bits cur len v := by
  refine bitsLoop_rule (fun k (s : Words) => s.bits = fill bm.bits cur k v) (k := 0)
    (fun k s hk h => ?_)
    (fun k s h => ?_) (Nat.zero_le len) fill_zero.symm
  · rw [hword _ s hk, h, fill_fill]
  · rw [hbit, h, fill_fill]

theorem mbTestAndClearBits_spec :
    (mbTestAndClearBits bm cur len).1.bits = fill bm.bits cur len false
      ∧ FirstClear bm.bits cur (cur + len) (mbTestAndClearBits bm cur len).2 := by
  refine bitsLoop_rule (fun k (s : Words × Int) => s.1.bits = fill bm.bits cur k false
      ∧ FirstClear bm.bits cur (cur + k) s.2) (k := 0) (fun k s hk h => ⟨?_, ?_⟩)
    (fun k s h => ⟨?_, ?_⟩) (Nat.zero_le len)
    ⟨fill_zero.symm, .inl ⟨rfl, fun b h1 h2 => absurd h1 (Nat.not_le.mpr h2)⟩⟩
  · rw [bits_word (fun _ _ => BitVec.getLsbD_zero) hk, h.1, fill_fill]
  · -- the bits from here on are the old ones
    refine h.2.append (firstClear_word fun i hi => ?_) (by omega) (by omega)
    have hold : s.1.bits (cur + k + i) = bm.bits (cur + k + i) := by rw [h.1, fill_out (by omega)]
    rw [← hold, Words.bits, show (cur + k + i) / 32 = (cur + k) / 32 by omega,
      show (cur + k + i) % 32 = i by omega]
  · rw [bits_clearBit, h.1, fill_fill]
  · rw [h.1, fill_out (by omega)]
    exact h.2.append (firstClear_bit bm.bits (cur + k)) (by omega) (by omega)

/-- **Writes by the word** change the bits of the range and no others, and
`mb_test_and_clear_bits` returns the first of them that was clear, or -1. -/
theorem write_by_words :
    (ext4SetBits bm cur len).bits = fill bm.bits cur len true
      ∧ (mbClearBits bm cur len).bits = fill bm.bits cur len false
      ∧ (mbTestAndClearBits bm cur len).1.bits = fill bm.bits cur len false
      ∧ FirstClear bm.bits cur (cur + len) (mbTestAndClearBits bm cur len).2 := by
  refine ⟨bitsLoop_fill bm cur len (fun _ _ hcur => bits_word (fun i hi => ?_) hcur) fun _ _ =>
    bits_setBit, bitsLoop_fill bm cur len (fun _ _ hcur => bits_word (fun _ _ =>
    BitVec.getLsbD_zero) hcur) fun _ _ => bits_clearBit, mbTestAndClearBits_spec bm cur len⟩
  rw [BitVec.getLsbD_allOnes]
  simpa using hi

end

end Ext4.Mballoc
