import Mathlib.Algebra.Group.Nat.Defs
import Mathlib.Tactic.Common

/-!
# Bitmaps, and counting in them

A bitmap is a function to `Bool`. Next to its edits this file counts the
points below a bound that satisfy a predicate (`cnt`) and the maximal runs
of such points (`runs`), and says how both change when a point or an
interval changes sides.
-/

namespace Bitmap

/-- A bitmap without an end. -/
abbrev Bits := Nat → Bool

/-- Write one bit. -/
def put (m : Bits) (i : Nat) (v : Bool) : Bits := Function.update m i v

/-- Write the bits `[lo, lo + len)`. -/
def fill (m : Bits) (lo len : Nat) (v : Bool) : Bits :=
  fun b => if lo ≤ b ∧ b < lo + len then v else m b

/-- The first bit `v` in `[start, start + fuel)`, else the end. -/
def findFrom (m : Bits) (v : Bool) : Nat → Nat → Nat
  | 0, start => start
  | fuel + 1, start => if m start = v then start else findFrom m v fuel (start + 1)

/-- The first bit `v` in `[start, max)`, else `max`. -/
def findNext (m : Bits) (v : Bool) (max start : Nat) : Nat := findFrom m v (max - start) start

theorem put_self (m : Bits) (i : Nat) (v : Bool) : put m i v i = v := Function.update_self ..

theorem put_ne (m : Bits) {i j : Nat} (v : Bool) (h : j ≠ i) : put m i v j = m j :=
  Function.update_of_ne h ..

variable {m : Bits} {v : Bool} {b k len lo : Nat}

theorem fill_in (h : lo ≤ b ∧ b < lo + len) : fill m lo len v b = v := if_pos h

theorem fill_out (h : ¬ (lo ≤ b ∧ b < lo + len)) : fill m lo len v b = m b := if_neg h

theorem fill_zero : fill m lo 0 v = m := funext fun _ => fill_out (by omega)

theorem put_eq_fill : put m k v = fill m k 1 v := by
  funext i
  rw [put, fill, Function.update_apply]
  exact if_congr (by omega) rfl rfl

theorem fill_fill : fill (fill m lo len v) (lo + len) k v = fill m lo (len + k) v := by
  funext i
  unfold fill
  by_cases h1 : lo + len ≤ i ∧ i < lo + len + k
  · rw [if_pos h1, if_pos (by omega)]
  by_cases h2 : lo ≤ i ∧ i < lo + len
  · rw [if_neg h1, if_pos h2, if_pos (by omega)]
  · rw [if_neg h1, if_neg h2, if_neg (by omega)]

theorem findFrom_spec (m : Bits) (v : Bool) (fuel : Nat) : ∀ start,
    start ≤ findFrom m v fuel start ∧ findFrom m v fuel start ≤ start + fuel ∧
    (∀ b, start ≤ b → b < findFrom m v fuel start → m b = !v) ∧
    (findFrom m v fuel start < start + fuel → m (findFrom m v fuel start) = v) := by
  induction fuel with
  | zero =>
    intro start
    rw [findFrom]
    exact ⟨Nat.le_refl _, Nat.le_refl _, fun b h1 h2 => absurd h2 (Nat.not_lt.mpr h1),
      fun h => absurd h (Nat.lt_irrefl _)⟩
  | succ fuel ih =>
    intro start
    rw [findFrom]
    split
    · rename_i hv
      exact ⟨Nat.le_refl _, by omega, fun b h1 h2 => by omega, fun _ => hv⟩
    · obtain ⟨h1, h2, h3, h4⟩ := ih (start + 1)
      refine ⟨by omega, by omega, fun b hb1 hb2 => ?_, fun h => h4 (by omega)⟩
      rcases Nat.eq_or_lt_of_le hb1 with rfl | hlt
      · cases hm : m start <;> cases v <;> simp_all
      · exact h3 b hlt hb2

/-- What `findNext` returns. -/
theorem findNext_spec (m : Bits) (v : Bool) {max start : Nat} (h : start ≤ max) :
    start ≤ findNext m v max start ∧ findNext m v max start ≤ max ∧
    (∀ b, start ≤ b → b < findNext m v max start → m b = !v) ∧
    (findNext m v max start < max → m (findNext m v max start) = v) := by
  obtain ⟨h1, h2, h3, h4⟩ := findFrom_spec m v (max - start) start
  exact ⟨h1, by rw [findNext]; omega, h3, fun hlt => h4 (by rw [findNext] at hlt; omega)⟩

/-! ## Counting -/

open Classical in
/-- How many points below `n` satisfy `p`. -/
noncomputable def cnt : Nat → (Nat → Prop) → Int
  | 0, _ => 0
  | n + 1, p => cnt n p + if p n then 1 else 0

section Count

variable {n : Nat} {p q : Nat → Prop}

theorem cnt_congr (h : ∀ i, i < n → (q i ↔ p i)) : cnt n q = cnt n p := by
  induction n with
  | zero => rfl
  | succ n ih =>
    have hn := h n (Nat.lt_succ_self n)
    rw [cnt, cnt, ih (fun i hi => h i (by omega))]
    by_cases hp : p n
    · rw [if_pos hp, if_pos (hn.mpr hp)]
    · rw [if_neg hp, if_neg (fun hq => hp (hn.mp hq))]

theorem cnt_false (h : ∀ i, i < n → ¬ p i) : cnt n p = 0 := by
  induction n with
  | zero => rfl
  | succ n ih =>
    rw [cnt, ih (fun i hi => h i (by omega)), if_neg (h n (Nat.lt_succ_self n))]
    rfl

theorem cnt_nonneg (n : Nat) (p : Nat → Prop) : 0 ≤ cnt n p := by
  induction n with
  | zero => exact Int.le_refl _
  | succ n ih =>
    rw [cnt]
    split <;> omega

theorem cnt_pos (hk : k < n) (hp : p k) : 0 < cnt n p := by
  induction n with
  | zero => omega
  | succ n ih =>
    rw [cnt]
    rcases Nat.lt_succ_iff_lt_or_eq.mp hk with hlt | rfl
    · have := ih hlt
      split <;> omega
    · have := cnt_nonneg k p
      rw [if_pos hp]
      omega

theorem cnt_add_one (hk : k < n) (hq : q k) (hp : ¬ p k)
    (hold : ∀ i, i < n → i ≠ k → (q i ↔ p i)) : cnt n q = cnt n p + 1 := by
  induction n with
  | zero => omega
  | succ n ih =>
    rw [cnt, cnt]
    by_cases hkn : k = n
    · subst hkn
      rw [if_pos hq, if_neg hp,
        cnt_congr fun i hi => hold i (Nat.lt_succ_of_lt hi) (Nat.ne_of_lt hi)]
      omega
    · have hn := hold n (Nat.lt_succ_self n) (fun h => hkn h.symm)
      rw [ih (by omega) (fun i hi => hold i (by omega))]
      by_cases hpn : p n
      · rw [if_pos hpn, if_pos (hn.mpr hpn)]
      · rw [if_neg hpn, if_neg (fun hqn => hpn (hn.mp hqn)), Int.add_zero, Int.add_zero]

theorem cnt_le (n : Nat) (p : Nat → Prop) : cnt n p ≤ n := by
  induction n with
  | zero => exact Int.le_refl _
  | succ n ih =>
    rw [cnt]
    split <;> omega

theorem cnt_lt (hk : k < n) (hp : ¬ p k) : cnt n p < n := by
  have h1 : cnt n (fun i => p i ∨ i = k) = cnt n p + 1 :=
    cnt_add_one hk (.inr rfl) hp fun i _ hi => or_iff_left hi
  have h2 := cnt_le n fun i => p i ∨ i = k
  omega

theorem cnt_add (hle : lo + len ≤ n) (hnew : ∀ i, lo ≤ i → i < lo + len → q i ∧ ¬ p i)
    (hold : ∀ i, i < n → ¬ (lo ≤ i ∧ i < lo + len) → (q i ↔ p i)) : cnt n q = cnt n p + len := by
  induction len generalizing q with
  | zero =>
    rw [cnt_congr fun i hi => hold i hi (by omega)]
    exact (Int.add_zero _).symm
  | succ len ih =>
    have h1 : cnt n q = cnt n (fun i => q i ∧ i ≠ lo + len) + 1 := by
      refine cnt_add_one (show lo + len < n by omega) ?_ (fun hc => hc.2 rfl)
        fun i _ hi => (and_iff_left hi).symm
      exact (hnew (lo + len) (by omega) (by omega)).1
    have h2 : cnt n (fun i => q i ∧ i ≠ lo + len) = cnt n p + len := by
      refine ih (by omega) (fun i h1 h2 => ?_) fun i hi hout => ?_
      · have := hnew i h1 (by omega)
        exact ⟨⟨this.1, by omega⟩, this.2⟩
      · by_cases hb : i = lo + len
        · exact iff_of_false (fun hc => hc.2 hb) (hnew i (by omega) (by omega)).2
        · rw [hold i hi (by omega)]
          exact and_iff_left hb
    rw [h1, h2]
    omega

theorem cnt_extend_all (len : Nat) (h : ∀ i, n ≤ i → i < n + len → p i) :
    cnt (n + len) p = cnt n p + len := by
  induction len with
  | zero => simp
  | succ len ih =>
    rw [← Nat.add_assoc, cnt, ih (fun i h1 h2 => h i h1 (by omega)),
      if_pos (h _ (by omega) (by omega))]
    omega

theorem cnt_mono {m : Nat} (h : m ≤ n) : cnt m p ≤ cnt n p := by
  induction n with
  | zero =>
    obtain rfl := Nat.le_zero.mp h
    exact Int.le_refl _
  | succ n ih =>
    rcases Nat.le_or_eq_of_le_succ h with hle | rfl
    · have := ih hle
      rw [cnt]
      split <;> omega
    · exact Int.le_refl _

theorem cnt_extend_none (len : Nat) (h : ∀ i, n ≤ i → i < n + len → ¬ p i) :
    cnt (n + len) p = cnt n p := by
  induction len with
  | zero => rfl
  | succ len ih =>
    rw [← Nat.add_assoc, cnt, ih (fun i h1 h2 => h i h1 (by omega)),
      if_neg (h _ (by omega) (by omega)), Int.add_zero]

end Count

/-! ## Runs -/

/-- The first point of a maximal run. -/
def Starts (p : Nat → Prop) (b : Nat) : Prop := p b ∧ (b = 0 ∨ ¬ p (b - 1))

/-- The number of maximal runs below `n`. -/
noncomputable def runs (n : Nat) (p : Nat → Prop) : Int := cnt n (Starts p)

open Classical in
/-- An interval without points is filled. A run begins there unless one
ends in front of it, and the run behind it no longer begins. -/
theorem runs_add {n : Nat} {p q : Nat → Prop} (hlen : 0 < len) (hle : lo + len ≤ n)
    (hnew : ∀ i, lo ≤ i → i < lo + len → q i ∧ ¬ p i)
    (hold : ∀ i, ¬ (lo ≤ i ∧ i < lo + len) → (q i ↔ p i)) :
    runs n q = runs n p + (if lo ≠ 0 ∧ p (lo - 1) then 0 else 1)
      - (if lo + len < n ∧ p (lo + len) then 1 else 0) := by
  -- the runs of `q` that do not begin at `lo`, and those of `p` that do not begin behind it
  have hmid : cnt n (fun i => Starts q i ∧ i ≠ lo)
      = cnt n (fun i => Starts p i ∧ i ≠ lo + len) := by
    refine cnt_congr fun i hi => ?_
    by_cases hin : lo ≤ i ∧ i < lo + len
    · have h1 := hnew i hin.1 hin.2
      constructor
      · rintro ⟨⟨-, h0 | hprev⟩, hne⟩
        · omega
        · exact absurd (hnew (i - 1) (by omega) (by omega)).1 hprev
      · rintro ⟨⟨hp, -⟩, -⟩
        exact absurd hp h1.2
    · by_cases hend : i = lo + len
      · refine iff_of_false ?_ fun hc => hc.2 hend
        rintro ⟨⟨-, h0 | hprev⟩, -⟩
        · omega
        · exact hprev (hnew (i - 1) (by omega) (by omega)).1
      · unfold Starts
        rw [hold i hin, hold (i - 1) (by omega)]
        exact and_congr_right fun _ => iff_of_true (by omega) hend
  have hq : runs n q = cnt n (fun i => Starts q i ∧ i ≠ lo)
      + (if lo ≠ 0 ∧ p (lo - 1) then 0 else 1) := by
    split
    · rename_i h
      have hlo : ¬ Starts q lo := fun hs =>
        hs.2.elim h.1 fun hn => hn ((hold (lo - 1) (by omega)).mpr h.2)
      rw [Int.add_zero]
      exact cnt_congr fun i _ => ⟨fun hs => ⟨hs, fun hi => hlo (hi ▸ hs)⟩, And.left⟩
    · rename_i h
      refine cnt_add_one (k := lo) (by omega) ⟨(hnew lo (by omega) (by omega)).1, ?_⟩
        (fun h' => h'.2 rfl) fun i _ hi => ⟨fun hs => ⟨hs, hi⟩, And.left⟩
      by_cases h0 : lo = 0
      · exact .inl h0
      · exact .inr fun hprev => h ⟨h0, (hold (lo - 1) (by omega)).mp hprev⟩
  have hp : runs n p = cnt n (fun i => Starts p i ∧ i ≠ lo + len)
      + (if lo + len < n ∧ p (lo + len) then 1 else 0) := by
    split
    · rename_i h
      refine cnt_add_one (k := lo + len) h.1 ⟨h.2, .inr ?_⟩ (fun h' => h'.2 rfl)
        fun i _ hi => ⟨fun hs => ⟨hs, hi⟩, And.left⟩
      exact (hnew (lo + len - 1) (by omega) (by omega)).2
    · rename_i h
      rw [Int.add_zero]
      exact cnt_congr fun i hi =>
        ⟨fun hs => ⟨hs, fun hend => h ⟨hend ▸ hi, hend ▸ hs.1⟩⟩, And.left⟩
  rw [hq, hp, hmid]
  omega

end Bitmap
