import Ext4.Lib.SearchTree

/-!
# Binary search for the last key that is not above a value

The search runs over the positions behind the first one. It ends at the
first position whose key is above the value; the position in front of it is
the result. The first position is the result if no other one qualifies.
-/

namespace BinarySearch

open SearchTree

/-- The loop, over the positions `[lo, hi)`. -/
def upperBound (key : Nat → Nat) (b : Nat) : Nat → Nat → Nat → Nat
  | 0, lo, _ => lo
  | fuel + 1, lo, hi =>
      if lo < hi then
        let m := lo + (hi - 1 - lo) / 2
        if b < key m then upperBound key b fuel lo m else upperBound key b fuel (m + 1) hi
      else lo

theorem upperBound_spec {key : Nat → Nat} {b fuel lo hi : Nat} (hle : lo ≤ hi)
    (hfuel : hi - lo ≤ fuel) (hmono : ∀ i j, lo ≤ i → i ≤ j → j < hi → key i ≤ key j) :
    lo ≤ upperBound key b fuel lo hi ∧ upperBound key b fuel lo hi ≤ hi
      ∧ (∀ i, lo ≤ i → i < upperBound key b fuel lo hi → key i ≤ b)
      ∧ ∀ i, upperBound key b fuel lo hi ≤ i → i < hi → b < key i := by
  induction fuel generalizing lo hi with
  | zero =>
    rw [upperBound]
    exact ⟨Nat.le_refl lo, hle, fun i _ _ => by omega, fun i _ _ => by omega⟩
  | succ fuel ih =>
    rw [upperBound]
    split
    · dsimp only
      generalize hm : lo + (hi - 1 - lo) / 2 = m
      have hlom : lo ≤ m := by omega
      have hmhi : m < hi := by omega
      split
      · rename_i hb
        obtain ⟨h1, h2, h3, h4⟩ := ih hlom (by omega) fun i j hi' hij hj =>
          hmono i j hi' hij (Nat.lt_trans hj hmhi)
        refine ⟨h1, Nat.le_trans h2 (Nat.le_of_lt hmhi), h3, fun i hi' hih => ?_⟩
        rcases Nat.lt_or_ge i m with him | hmi
        · exact h4 i hi' him
        · exact Nat.lt_of_lt_of_le hb (hmono m i hlom hmi hih)
      · rename_i hb
        obtain ⟨h1, h2, h3, h4⟩ := ih (show m + 1 ≤ hi from hmhi) (by omega) fun i j hi' hij hj =>
          hmono i j (by omega) hij hj
        refine ⟨by omega, h2, fun i hi' hih => ?_, h4⟩
        rcases Nat.lt_or_ge m i with hmi | him
        · exact h3 i hmi hih
        · exact Nat.le_trans (hmono i m hi' him hmhi) (Nat.le_of_not_lt hb)
    · have heq : hi = lo := by omega
      rw [heq]
      exact ⟨Nat.le_refl _, Nat.le_refl _, fun i h1 h2 => by omega, fun i h1 h2 => by omega⟩

variable {α : Type}

/-- The element at a position, with what stands on its sides. -/
def zipAt (xs : List α) (k : Nat) : Option (Zip α) :=
  match xs.drop k with
  | [] => none
  | x :: after => some ⟨xs.take k, x, after⟩

theorem zipAt_append (before : List α) (x : α) (after : List α) :
    zipAt (before ++ x :: after) before.length = some ⟨before, x, after⟩ := by
  rw [zipAt, List.drop_left, List.take_left]

variable {xs : List α}

theorem zipAt_of_lt {k : Nat} (hk : k < xs.length) :
    zipAt xs k = some ⟨xs.take k, xs[k], xs.drop (k + 1)⟩ := by
  rw [zipAt, List.drop_eq_getElem_cons hk]

/-- The search in a sequence. -/
def seek (key : α → Nat) (b : Nat) (xs : List α) : Option (Zip α) :=
  zipAt xs (upperBound (fun i => ((xs.map key)[i]?).getD 0) b xs.length 1 xs.length - 1)

theorem seek_spec {key : α → Nat} (b : Nat) (hne : xs ≠ [])
    (hs : xs.Pairwise fun x y => key x ≤ key y) :
    ∃ z, seek key b xs = some z ∧ z.toList = xs ∧ (∀ y ∈ z.after, b < key y)
      ∧ (z.before ≠ [] → key z.cur ≤ b) := by
  have hpos : 1 ≤ xs.length := List.length_pos_iff.mpr hne
  have hget : ∀ i (hi : i < xs.length), ((xs.map key)[i]?).getD 0 = key xs[i] := by
    intro i hi
    rw [List.getElem?_map, List.getElem?_eq_getElem hi]
    rfl
  have hmono : ∀ i j, 1 ≤ i → i ≤ j → j < xs.length →
      ((xs.map key)[i]?).getD 0 ≤ ((xs.map key)[j]?).getD 0 := by
    intro i j _ hij hj
    rw [hget i (by omega), hget j hj]
    rcases Nat.lt_or_eq_of_le hij with hlt | rfl
    · exact List.pairwise_iff_getElem.mp hs i j (by omega) hj hlt
    · exact Nat.le_refl _
  obtain ⟨h1, h2, h3, h4⟩ := upperBound_spec (b := b) hpos (Nat.sub_le xs.length 1) hmono
  rw [seek]
  generalize upperBound (fun i => ((xs.map key)[i]?).getD 0) b xs.length 1 xs.length = k at *
  have hk : k - 1 < xs.length := by omega
  refine ⟨_, zipAt_of_lt hk, ?_, fun y hy => ?_, fun hbefore => ?_⟩
  · show xs.take (k - 1) ++ xs[k - 1] :: xs.drop (k - 1 + 1) = xs
    rw [← List.drop_eq_getElem_cons hk, List.take_append_drop]
  · obtain ⟨i, hi, rfl⟩ := List.mem_iff_getElem.mp hy
    rw [List.length_drop] at hi
    rw [List.getElem_drop, ← hget]
    exact h4 _ (by omega) (by omega)
  · rw [← hget _ hk]
    refine h3 _ ?_ (by omega)
    rcases Nat.lt_or_ge (k - 1) 1 with h0 | h0
    · simp [Nat.lt_one_iff.mp h0] at hbefore
    · exact h0

end BinarySearch
