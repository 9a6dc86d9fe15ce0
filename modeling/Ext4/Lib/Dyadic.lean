import Mathlib.Algebra.Order.Ring.Nat
import Mathlib.Tactic.Common
import Mathlib.Tactic.Ring

/-!
# Dyadic chunks

Chunk `i` of order `o` is the set of points `b` with `b / 2 ^ o = i`: it
has `2 ^ o` points and starts at a multiple of its size. Two chunks are
nested or disjoint. A chunk is maximal for a set when it lies in the set
and the chunk around it does not (`Max`); the maximal chunks of a set tile
it, and they are the only such tiling (`Tiles.eq_max`).
-/

namespace Dyadic

variable {F F' : Nat → Prop} {top o o' i b : Nat}

/-- Every point of the chunk lies in `F`. -/
def Whole (F : Nat → Prop) (o i : Nat) : Prop := ∀ b, b / 2 ^ o = i → F b

/-- The other half of the chunk around chunk `i`. -/
def sib (i : Nat) : Nat := if i % 2 = 0 then i + 1 else i - 1

theorem div_pow_succ (b o : Nat) : b / 2 ^ (o + 1) = b / 2 ^ o / 2 := by
  rw [pow_succ, Nat.div_div_eq_div_mul]

theorem div_pow_add (b o k : Nat) : b / 2 ^ (o + k) = b / 2 ^ o / 2 ^ k := by
  rw [pow_add, Nat.div_div_eq_div_mul]

theorem start_div (o i : Nat) : i * 2 ^ o / 2 ^ o = i :=
  Nat.mul_div_cancel i (Nat.two_pow_pos o)

theorem mem_chunk {b o i : Nat} : b / 2 ^ o = i ↔ i * 2 ^ o ≤ b ∧ b < (i + 1) * 2 ^ o := by
  have hpos := Nat.two_pow_pos o
  constructor
  · rintro rfl
    refine ⟨Nat.div_mul_le_self b _, ?_⟩
    rw [Nat.add_mul, Nat.one_mul]
    exact Nat.lt_div_mul_add hpos
  · rintro ⟨h1, h2⟩
    exact Nat.div_eq_of_lt_le h1 h2

theorem whole_zero : Whole F 0 b ↔ F b := by
  constructor
  · intro h
    exact h b (by simp)
  · intro h c hc
    rw [pow_zero, Nat.div_one] at hc
    exact hc ▸ h

theorem Whole.mono (h : Whole F o i) (hF : ∀ b, b / 2 ^ o = i → F b → F' b) : Whole F' o i :=
  fun b hb => hF b hb (h b hb)

theorem whole_succ {j : Nat} : Whole F (o + 1) j ↔ Whole F o (2 * j) ∧ Whole F o (2 * j + 1) := by
  constructor
  · intro h
    refine ⟨fun b hb => h b ?_, fun b hb => h b ?_⟩ <;> rw [div_pow_succ, hb] <;> omega
  · rintro ⟨h1, h2⟩ b hb
    rw [div_pow_succ] at hb
    rcases Nat.mod_two_eq_zero_or_one (b / 2 ^ o) with hm | hm
    · exact h1 b (by omega)
    · exact h2 b (by omega)

/-- The chunk around chunk `i` is whole when both halves are. -/
theorem whole_parent : Whole F (o + 1) (i / 2) ↔ Whole F o i ∧ Whole F o (sib i) := by
  rw [whole_succ]
  unfold sib
  rcases Nat.mod_two_eq_zero_or_one i with hm | hm
  · rw [if_pos hm, show 2 * (i / 2) = i by omega]
  · rw [if_neg (by omega), show 2 * (i / 2) = i - 1 by omega, show i - 1 + 1 = i by omega]
    exact and_comm

theorem Whole.sub {k : Nat} (h : Whole F (o + k) (b / 2 ^ (o + k))) : Whole F o (b / 2 ^ o) := by
  intro c hc
  refine h c ?_
  rw [div_pow_add, div_pow_add, hc]

/-- Whole, and not part of a larger whole chunk of order at most `top`. -/
def Max (F : Nat → Prop) (top o i : Nat) : Prop :=
  Whole F o i ∧ (o < top → ¬ Whole F (o + 1) (i / 2))

theorem max_iff_sib (h : o < top) : Max F top o i ↔ Whole F o i ∧ ¬ Whole F o (sib i) := by
  unfold Max
  rw [whole_parent]
  constructor
  · exact fun hm => ⟨hm.1, fun hs => hm.2 h ⟨hm.1, hs⟩⟩
  · exact fun hm => ⟨hm.1, fun _ hc => hm.2 hc.2⟩

theorem max_top : Max F top top i ↔ Whole F top i := by
  simp [Max]

theorem Max.unique (h : Max F top o (b / 2 ^ o)) (h' : Max F top o' (b / 2 ^ o'))
    (ho : o ≤ top) (ho' : o' ≤ top) : o = o' := by
  have key : ∀ {o o' : Nat}, Max F top o (b / 2 ^ o) → Max F top o' (b / 2 ^ o') → o' ≤ top →
      ¬ o < o' := by
    intro o o' h h' ho' hlt
    refine h.2 (by omega) ?_
    rw [← div_pow_succ]
    obtain ⟨k, rfl⟩ : ∃ k, o' = o + 1 + k := ⟨o' - (o + 1), by omega⟩
    exact h'.1.sub
  have h1 := key h h' ho'
  have h2 := key h' h ho
  omega

/-- Behind a maximal chunk no maximal chunk is cut in two. -/
theorem Max.dvd_behind (h : Max F top o i) (h' : Max F top o' ((i + 1) * 2 ^ o / 2 ^ o'))
    (ho : o ≤ top) (ho' : o' ≤ top) : 2 ^ o' ∣ (i + 1) * 2 ^ o := by
  by_contra hdvd
  have hpos := Nat.two_pow_pos o
  have hlast : ((i + 1) * 2 ^ o - 1) / 2 ^ o = i := by
    rw [mem_chunk, Nat.add_mul]
    omega
  have hsame : ((i + 1) * 2 ^ o - 1) / 2 ^ o' = (i + 1) * 2 ^ o / 2 ^ o' := by
    have := Nat.div_mul_le_self ((i + 1) * 2 ^ o) (2 ^ o')
    have hne : (i + 1) * 2 ^ o / 2 ^ o' * 2 ^ o' ≠ (i + 1) * 2 ^ o :=
      fun heq => hdvd (Dvd.intro_left _ heq)
    have hlt := (mem_chunk.mp (rfl : (i + 1) * 2 ^ o / 2 ^ o' = _)).2
    rw [mem_chunk]
    omega
  obtain rfl := Max.unique (hlast.symm ▸ h) (hsame.symm ▸ h') ho ho'
  exact hdvd (Nat.dvd_mul_left ..)

/-! ## Tilings -/

/-- A family of chunks that splits a set into pieces. -/
structure Tiles (S : Nat → Nat → Prop) (F : Nat → Prop) (top : Nat) : Prop where
  le_top : ∀ o i, S o i → o ≤ top
  whole : ∀ o i, S o i → Whole F o i
  unique : ∀ o o' b, S o (b / 2 ^ o) → S o' (b / 2 ^ o') → o = o'
  cover : ∀ b, F b → ∃ o, S o (b / 2 ^ o)

variable {S : Nat → Nat → Prop}

theorem Tiles.eq_max (h : Tiles S F top) (hmax : ∀ o i, S o i → Max F top o i) (ho : o ≤ top) :
    S o i ↔ Max F top o i := by
  refine ⟨hmax o i, fun hm => ?_⟩
  have hb := start_div o i
  obtain ⟨o', ho'⟩ := h.cover (i * 2 ^ o) (hm.1 _ hb)
  have hm' : Max F top o (i * 2 ^ o / 2 ^ o) := hb.symm ▸ hm
  obtain rfl := hm'.unique (hmax _ _ ho') ho (h.le_top _ _ ho')
  rwa [hb] at ho'

theorem exists_max (hb : F b) : ∃ o, o ≤ top ∧ Max F top o (b / 2 ^ o) := by
  -- grow the chunk around `b` while it stays whole
  have key : ∀ n o, o + n = top → Whole F o (b / 2 ^ o) →
      ∃ o, o ≤ top ∧ Max F top o (b / 2 ^ o) := by
    intro n
    induction n with
    | zero =>
      intro o ho h
      exact ⟨o, by omega, h, fun hlt => by omega⟩
    | succ n ih =>
      intro o ho h
      by_cases hp : Whole F (o + 1) (b / 2 ^ (o + 1))
      · exact ih (o + 1) (by omega) hp
      · refine ⟨o, by omega, h, fun _ => ?_⟩
        rwa [← div_pow_succ]
  refine key top 0 (by omega) ?_
  rw [pow_zero, Nat.div_one, whole_zero]
  exact hb

theorem tiles_max (F : Nat → Prop) (top : Nat) :
    Tiles (fun o i => o ≤ top ∧ Max F top o i) F top where
  le_top := fun _ _ h => h.1
  whole := fun _ _ h => h.2.1
  unique := fun _ _ _ h h' => h.2.unique h'.2 h.1 h'.1
  cover := fun _ hb => exists_max hb

theorem Tiles.remove (h : Tiles S F top) (hS : S o i) :
    Tiles (fun o' i' => S o' i' ∧ ¬ (o' = o ∧ i' = i)) (fun b => F b ∧ b / 2 ^ o ≠ i) top where
  le_top := fun _ _ hs => h.le_top _ _ hs.1
  whole := by
    rintro o' i' ⟨hs, hne⟩ b hb
    refine ⟨h.whole o' i' hs b hb, fun hbi => hne ?_⟩
    subst hb
    subst hbi
    obtain rfl := h.unique _ _ b hS hs
    exact ⟨rfl, rfl⟩
  unique := fun _ _ b hs hs' => h.unique _ _ b hs.1 hs'.1
  cover := by
    rintro b ⟨hb, hne⟩
    obtain ⟨o', ho'⟩ := h.cover b hb
    refine ⟨o', ho', ?_⟩
    rintro ⟨rfl, hi⟩
    exact hne hi

/-- The family with the two halves of one chunk in its place. -/
def Halved (S : Nat → Nat → Prop) (o i : Nat) (o' i' : Nat) : Prop :=
  ((S o' i' ∧ ¬ (o' = o + 1 ∧ i' = i)) ∨ (o' = o ∧ i' = 2 * i)) ∨ (o' = o ∧ i' = 2 * i + 1)

theorem Tiles.split (h : Tiles S F top) (hS : S (o + 1) i) : Tiles (Halved S o i) F top where
  le_top := by
    have htop := h.le_top _ _ hS
    rintro o' i' ((hs | ⟨rfl, -⟩) | ⟨rfl, -⟩)
    · exact h.le_top _ _ hs.1
    · omega
    · omega
  whole := by
    obtain ⟨h1, h2⟩ := whole_succ.mp (h.whole _ _ hS)
    rintro o' i' ((hs | ⟨rfl, rfl⟩) | ⟨rfl, rfl⟩)
    · exact h.whole _ _ hs.1
    · exact h1
    · exact h2
  unique := by
    -- a half and a piece that was kept would overlap in the piece that was split
    have key : ∀ o' b, S o' (b / 2 ^ o') ∧ ¬ (o' = o + 1 ∧ b / 2 ^ o' = i) →
        ¬ (b / 2 ^ o = 2 * i ∨ b / 2 ^ o = 2 * i + 1) := by
      rintro o' b ⟨hs, hne⟩ hhalf
      have hb : b / 2 ^ (o + 1) = i := by
        rw [div_pow_succ]
        omega
      obtain rfl := h.unique _ _ b (hb.symm ▸ hS) hs
      exact hne ⟨rfl, hb⟩
    rintro o1 o2 b ((h1 | ⟨rfl, h1⟩) | ⟨rfl, h1⟩) ((h2 | ⟨rfl, h2⟩) | ⟨rfl, h2⟩)
    · exact h.unique _ _ b h1.1 h2.1
    · exact absurd (.inl h2) (key _ b h1)
    · exact absurd (.inr h2) (key _ b h1)
    · exact absurd (.inl h1) (key _ b h2)
    · rfl
    · rfl
    · exact absurd (.inr h1) (key _ b h2)
    · rfl
    · rfl
  cover := by
    intro b hb
    obtain ⟨o', ho'⟩ := h.cover b hb
    by_cases hc : o' = o + 1 ∧ b / 2 ^ o' = i
    · -- one of the halves has it
      obtain ⟨rfl, hi⟩ := hc
      rw [div_pow_succ] at hi
      rcases Nat.mod_two_eq_zero_or_one (b / 2 ^ o) with hm | hm
      · exact ⟨o, .inl (.inr ⟨rfl, by omega⟩)⟩
      · exact ⟨o, .inr ⟨rfl, by omega⟩⟩
    · exact ⟨o', .inl (.inl ⟨ho', hc⟩)⟩

/-! ## Growing a set by an interval -/

/-- `F'` is `F` and the points `[lo, hi]`, which were not in `F`. -/
structure Grown (F F' : Nat → Prop) (lo hi : Nat) : Prop where
  iff : ∀ b, F' b ↔ F b ∨ (lo ≤ b ∧ b ≤ hi)
  disjoint : ∀ b, lo ≤ b ∧ b ≤ hi → ¬ F b

/-- The chunk has a point in `[lo, hi]`. -/
def Touched (lo hi o i : Nat) : Prop := ∃ b, (lo ≤ b ∧ b ≤ hi) ∧ b / 2 ^ o = i

theorem touched_succ {lo hi j : Nat} :
    Touched lo hi (o + 1) j ↔ Touched lo hi o (2 * j) ∨ Touched lo hi o (2 * j + 1) := by
  constructor
  · rintro ⟨b, hb, hj⟩
    rw [div_pow_succ] at hj
    rcases Nat.mod_two_eq_zero_or_one (b / 2 ^ o) with hm | hm
    · exact .inl ⟨b, hb, by omega⟩
    · exact .inr ⟨b, hb, by omega⟩
  · rintro (⟨b, hb, hj⟩ | ⟨b, hb, hj⟩)
    · exact ⟨b, hb, by rw [div_pow_succ, hj]; omega⟩
    · exact ⟨b, hb, by rw [div_pow_succ, hj]; omega⟩

namespace Grown

variable {lo hi : Nat}

section

variable (h : Grown F F' lo hi)
include h

theorem not_touched (hw : Whole F o i) : ¬ Touched lo hi o i := by
  rintro ⟨b, hb, hbi⟩
  exact h.disjoint b hb (hw b hbi)

theorem whole_of (hw : Whole F o i) : Whole F' o i :=
  hw.mono fun b _ hb => (h.iff b).mpr (.inl hb)

/-- The chunks that become whole are those that were not touched before. -/
theorem whole_iff : Whole F' o i ↔ Whole F o i ∨ (Whole F' o i ∧ Touched lo hi o i) := by
  constructor
  · intro hw
    by_cases ht : Touched lo hi o i
    · exact .inr ⟨hw, ht⟩
    · refine .inl fun b hb => ?_
      rcases (h.iff b).mp (hw b hb) with hF | hin
      · exact hF
      · exact absurd ⟨b, hin, hb⟩ ht
  · rintro (hw | hw)
    · exact h.whole_of hw
    · exact hw.1

/-- Where no touched chunk is whole, none above it is, and nothing changes. -/
theorem max_iff_of_none (hno : ∀ i, ¬ (Whole F' o i ∧ Touched lo hi o i)) {k : Nat} (hk : o ≤ k) :
    Max F' top k i ↔ Max F top k i := by
  have hnone : ∀ k i, o ≤ k → ¬ (Whole F' k i ∧ Touched lo hi k i) := by
    rintro k i hk ⟨hw, b, hb, rfl⟩
    obtain ⟨n, rfl⟩ : ∃ n, k = o + n := ⟨k - o, by omega⟩
    exact hno (b / 2 ^ o) ⟨hw.sub, b, hb, rfl⟩
  have hwhole : ∀ k i, o ≤ k → (Whole F' k i ↔ Whole F k i) := by
    intro k i hk
    rw [h.whole_iff]
    exact or_iff_left (hnone k i hk)
  unfold Max
  rw [hwhole k i hk, hwhole (k + 1) (i / 2) (by omega)]

end

end Grown

/-- One order of a growing set: the whole chunks `W`, the chunks `[f, l]`
that become whole. A chunk without its sibling whole is lone. -/
structure Level (W W' : Nat → Prop) (f l : Nat) : Prop where
  le : f ≤ l
  iff : ∀ k, W' k ↔ W k ∨ (f ≤ k ∧ k ≤ l)
  disjoint : ∀ k, f ≤ k ∧ k ≤ l → ¬ W k

namespace Level

variable {W W' : Nat → Prop} {f l k : Nat}

theorem of_grown {lo hi : Nat} (h : Grown F F' lo hi) (hle : f ≤ l)
    (hr : ∀ k, f ≤ k ∧ k ≤ l ↔ Whole F' o k ∧ Touched lo hi o k) :
    Level (Whole F o) (Whole F' o) f l where
  le := hle
  iff := fun k => by rw [hr, ← h.whole_iff]
  disjoint := fun k hk hw => h.not_touched hw ((hr k).mp hk).2

/-- Which chunks are lone after the growth: a border that does not meet its
sibling becomes lone, and a lone chunk that meets a border is no more. -/
theorem lone_iff (h : Level W W' f l) : (W' k ∧ ¬ W' (sib k)) ↔
    ((W k ∧ ¬ W (sib k)) ∧ ¬ (f % 2 = 1 ∧ k = f - 1) ∧ ¬ (l % 2 = 0 ∧ k = l + 1)) ∨
    (f % 2 = 1 ∧ k = f ∧ ¬ W (f - 1)) ∨ (l % 2 = 0 ∧ k = l ∧ ¬ W (l + 1)) := by
  have hle := h.le
  have hsib : (k % 2 = 0 ∧ sib k = k + 1) ∨ (k % 2 = 1 ∧ sib k = k - 1) := by
    rcases Nat.mod_two_eq_zero_or_one k with hm | hm
    · exact .inl ⟨hm, if_pos hm⟩
    · exact .inr ⟨hm, if_neg (by omega)⟩
  rw [h.iff, h.iff]
  by_cases hk : f ≤ k ∧ k ≤ l
  · have hWk := h.disjoint k hk
    by_cases hs : f ≤ sib k ∧ sib k ≤ l
    · -- an inner chunk
      constructor
      · rintro ⟨-, h2⟩
        exact absurd (.inr hs) h2
      · rintro (⟨⟨h1, -⟩, -⟩ | ⟨h1, h2, -⟩ | ⟨h1, h2, -⟩)
        · exact absurd h1 hWk
        · omega
        · omega
    · refine ⟨fun hc => ?_, fun hc => ⟨.inr hk, fun hb => ?_⟩⟩
      · -- a border, with its sibling outside
        have hns : ¬ W (sib k) := fun hw => hc.2 (.inl hw)
        rcases (show (f % 2 = 1 ∧ k = f ∧ sib k = f - 1) ∨ (l % 2 = 0 ∧ k = l ∧ sib k = l + 1) by
          omega) with ⟨h1, h2, h3⟩ | ⟨h1, h2, h3⟩
        · exact .inr (.inl ⟨h1, h2, h3 ▸ hns⟩)
        · exact .inr (.inr ⟨h1, h2, h3 ▸ hns⟩)
      · have hw := hb.resolve_right hs
        rcases hc with ⟨⟨h1, -⟩, -⟩ | ⟨h1, h2, h3⟩ | ⟨h1, h2, h3⟩
        · exact hWk h1
        · rw [show sib k = f - 1 by omega] at hw
          exact h3 hw
        · rw [show sib k = l + 1 by omega] at hw
          exact h3 hw
  · by_cases hs : f ≤ sib k ∧ sib k ≤ l
    · -- the sibling of a border
      have hb : (f % 2 = 1 ∧ k = f - 1) ∨ (l % 2 = 0 ∧ k = l + 1) := by omega
      constructor
      · rintro ⟨-, h2⟩
        exact absurd (.inr hs) h2
      · omega
    · refine ⟨fun hc =>
        .inl ⟨⟨hc.1.resolve_right hk, fun hw => hc.2 (.inl hw)⟩, by omega, by omega⟩,
        fun hc => ?_⟩
      rcases hc with ⟨⟨h1, h2⟩, -⟩ | ⟨h1, h2, -⟩ | ⟨h1, h2, -⟩
      · exact ⟨.inl h1, fun hb => hb.elim h2 hs⟩
      · omega
      · omega

end Level

/-- The borders of `[f, l]` after a step at each: a border that has its
sibling on the outside moves out if the sibling is whole, else in. -/
structure Moved (W : Nat → Prop) (f l : Nat) (f' l' : Int) : Prop where
  left_even : f % 2 = 0 → f' = f
  left_odd : f % 2 = 1 → (W (f - 1) ∧ f' = f - 1) ∨ (¬ W (f - 1) ∧ f' = f + 1)
  right_odd : l % 2 = 1 → l' = l
  right_even : l % 2 = 0 → (W (l + 1) ∧ l' = l + 1) ∨ (¬ W (l + 1) ∧ l' = l - 1)

namespace Moved

variable {W W' : Nat → Prop} {f l k : Nat} {f' l' : Int}

theorem left (h : Moved W f l f' l') :
    f' % 2 = 0 ∧ (f' = f ∨ (f % 2 = 1 ∧ f' = f - 1 ∧ W (f - 1)) ∨
      (f % 2 = 1 ∧ f' = f + 1 ∧ ¬ W (f - 1))) := by
  rcases Nat.mod_two_eq_zero_or_one f with hm | hm
  · have := h.left_even hm
    exact ⟨by omega, .inl this⟩
  · rcases h.left_odd hm with ⟨hw, h1⟩ | ⟨hw, h1⟩
    · exact ⟨by omega, .inr (.inl ⟨hm, h1, hw⟩)⟩
    · exact ⟨by omega, .inr (.inr ⟨hm, h1, hw⟩)⟩

theorem right (h : Moved W f l f' l') :
    l' % 2 = 1 ∧ (l' = l ∨ (l % 2 = 0 ∧ l' = l + 1 ∧ W (l + 1)) ∨
      (l % 2 = 0 ∧ l' = l - 1 ∧ ¬ W (l + 1))) := by
  rcases Nat.mod_two_eq_zero_or_one l with hm | hm
  · rcases h.right_even hm with ⟨hw, h1⟩ | ⟨hw, h1⟩
    · exact ⟨by omega, .inr (.inl ⟨hm, h1, hw⟩)⟩
    · exact ⟨by omega, .inr (.inr ⟨hm, h1, hw⟩)⟩
  · have := h.right_odd hm
    exact ⟨by omega, .inl this⟩

theorem left_out (h : Moved W f l f' l') (he : f' = f - 1) : W (f - 1) := by
  rcases h.left.2 with h1 | ⟨-, -, hw⟩ | ⟨-, h1, -⟩
  · omega
  · exact hw
  · omega

theorem left_in (h : Moved W f l f' l') (he : f' = f + 1) : ¬ W (f - 1) := by
  rcases h.left.2 with h1 | ⟨-, h1, -⟩ | ⟨-, -, hw⟩
  · omega
  · omega
  · exact hw

theorem right_out (h : Moved W f l f' l') (he : l' = l + 1) : W (l + 1) := by
  rcases h.right.2 with h1 | ⟨-, -, hw⟩ | ⟨-, h1, -⟩
  · omega
  · exact hw
  · omega

theorem right_in (h : Moved W f l f' l') (he : l' = l - 1) : ¬ W (l + 1) := by
  rcases h.right.2 with h1 | ⟨-, h1, -⟩ | ⟨-, -, hw⟩
  · omega
  · omega
  · exact hw

theorem next (hm : Moved W f l f' l') (h : Level W W' f l) (j : Nat) :
    (f' / 2 ≤ j ∧ j ≤ l' / 2) ↔ (W' (2 * j) ∧ W' (2 * j + 1)) ∧
      ((f ≤ 2 * j ∧ 2 * j ≤ l) ∨ (f ≤ 2 * j + 1 ∧ 2 * j + 1 ≤ l)) := by
  have hle := h.le
  obtain ⟨hf2, hf⟩ := hm.left
  obtain ⟨hl2, hl⟩ := hm.right
  rw [h.iff, h.iff]
  constructor
  · intro hj
    refine ⟨⟨?_, ?_⟩, by omega⟩
    · by_cases hin : f ≤ 2 * j ∧ 2 * j ≤ l
      · exact .inr hin
      · rw [show 2 * j = f - 1 by omega]
        exact .inl (hm.left_out (by omega))
    · by_cases hin : f ≤ 2 * j + 1 ∧ 2 * j + 1 ≤ l
      · exact .inr hin
      · rw [show 2 * j + 1 = l + 1 by omega]
        exact .inl (hm.right_out (by omega))
  · -- a border moves in only past a chunk whose sibling is not whole
    rintro ⟨⟨h1, h2⟩, h3⟩
    constructor
    · by_contra hc
      have hw := hm.left_in (by omega)
      rw [show 2 * j = f - 1 by omega] at h1
      exact h1.elim hw (by omega)
    · by_contra hc
      have hw := hm.right_in (by omega)
      rw [show 2 * j + 1 = l + 1 by omega] at h2
      exact h2.elim hw (by omega)

/-- The same, for the chunks of points `[lo, hi]` that became whole. -/
theorem next_grown {lo hi : Nat} (hm : Moved (Whole F o) f l f' l')
    (h : Level (Whole F o) (Whole F' o) f l)
    (hr : ∀ k, f ≤ k ∧ k ≤ l ↔ Whole F' o k ∧ Touched lo hi o k) (j : Nat) :
    (f' / 2 ≤ j ∧ j ≤ l' / 2) ↔ Whole F' (o + 1) j ∧ Touched lo hi (o + 1) j := by
  rw [hm.next h, whole_succ, touched_succ, hr, hr]
  constructor
  · exact fun hc => ⟨hc.1, hc.2.imp And.right And.right⟩
  · exact fun hc => ⟨hc.1, hc.2.imp (fun ht => ⟨hc.1.1, ht⟩) fun ht => ⟨hc.1.2, ht⟩⟩

/-- Without a next order, the chunks between the moved borders and those
the borders left behind are all that became whole. -/
theorem top_iff (hm : Moved W f l f' l') (h : Level W W' f l) :
    ((W k ∧ ¬ (f % 2 = 1 ∧ k = f - 1) ∧ ¬ (l % 2 = 0 ∧ k = l + 1)) ∨
      (f % 2 = 1 ∧ k = f ∧ ¬ W (f - 1)) ∨ (l % 2 = 0 ∧ k = l ∧ ¬ W (l + 1))) ∨
      (f' ≤ k ∧ k ≤ l') ↔ W' k := by
  have hle := h.le
  obtain ⟨hf2, hf⟩ := hm.left
  obtain ⟨hl2, hl⟩ := hm.right
  rw [h.iff]
  constructor
  · rintro ((⟨h1, -⟩ | ⟨h1, h2, -⟩ | ⟨h1, h2, -⟩) | hk)
    · exact .inl h1
    · exact .inr (by omega)
    · exact .inr (by omega)
    · rcases Nat.lt_or_ge k f with hlt | hge
      · rw [show k = f - 1 by omega]
        exact .inl (hm.left_out (by omega))
      rcases Nat.lt_or_ge l k with hlt | hle
      · rw [show k = l + 1 by omega]
        exact .inl (hm.right_out (by omega))
      · exact .inr ⟨hge, hle⟩
  · intro hk
    by_cases hb : f' ≤ k ∧ k ≤ l'
    · exact .inr hb
    refine .inl ?_
    rcases hk with hw | hin
    · refine .inl ⟨hw, fun hc => ?_, fun hc => ?_⟩
      · exact hm.left_in (by omega) (hc.2 ▸ hw)
      · exact hm.right_in (by omega) (hc.2 ▸ hw)
    · by_cases hkf : f' = f + 1 ∧ k = f
      · exact .inr (.inl ⟨by omega, hkf.2, hm.left_in hkf.1⟩)
      · exact .inr (.inr ⟨by omega, by omega, hm.right_in (by omega)⟩)

theorem between (hm : Moved W f l f' l') (h : Level W W' f l) (hk : f' ≤ k ∧ k ≤ l') :
    ¬ ((W k ∧ ¬ (f % 2 = 1 ∧ k = f - 1) ∧ ¬ (l % 2 = 0 ∧ k = l + 1)) ∨
      (f % 2 = 1 ∧ k = f ∧ ¬ W (f - 1)) ∨ (l % 2 = 0 ∧ k = l ∧ ¬ W (l + 1))) := by
  have hle := h.le
  obtain ⟨hf2, hf⟩ := hm.left
  obtain ⟨hl2, hl⟩ := hm.right
  rintro (⟨h1, h2, h3⟩ | ⟨h1, h2, h3⟩ | ⟨h1, h2, h3⟩)
  · have hout : ¬ (f ≤ k ∧ k ≤ l) := fun hin => h.disjoint k hin h1
    omega
  · exact h3 (hm.left_out (by omega))
  · exact h3 (hm.right_out (by omega))

end Moved

/-! ## Laying out a run from the left -/

/-- No whole chunk reaches over the border in front of `q`. -/
def Cut (F : Nat → Prop) (top q : Nat) : Prop :=
  ∀ o, o ≤ top → 0 < q → (q - 1) / 2 ^ o = q / 2 ^ o → ¬ Whole F o (q / 2 ^ o)

/-- The maximal chunks in front of `q`. -/
def Below (F : Nat → Prop) (top q o i : Nat) : Prop :=
  Max F top o i ∧ ∀ b, b / 2 ^ o = i → b < q

variable {q : Nat}

/-- The chunk that begins at `q`. -/
theorem mem_chunk_at (hdvd : 2 ^ o ∣ q) : b / 2 ^ o = q / 2 ^ o ↔ q ≤ b ∧ b < q + 2 ^ o := by
  rw [mem_chunk, Nat.div_mul_cancel hdvd, Nat.add_mul, Nat.div_mul_cancel hdvd, Nat.one_mul]

theorem Cut.of_gap (h : ¬ F (q - 1)) : Cut F top q :=
  fun _ _ _ heq hw => h (hw _ heq)

theorem Cut.zero : Cut F top 0 := fun _ _ h => absurd h (Nat.lt_irrefl 0)

/-- The longest aligned chunk that fits the rest of a run is maximal. -/
theorem Cut.max {q len : Nat} (h : Cut F top q) (hrun : ∀ b, q ≤ b → b < q + len → F b)
    (hend : ¬ F (q + len)) (hdvd : 2 ^ o ∣ q) (hle : 2 ^ o ≤ len)
    (hlong : o = top ∨ ¬ 2 ^ (o + 1) ∣ q ∨ len < 2 ^ (o + 1)) : Max F top o (q / 2 ^ o) := by
  constructor
  · intro b hb
    obtain ⟨h1, h2⟩ := (mem_chunk_at hdvd).mp hb
    exact hrun b h1 (by omega)
  · intro ho hw
    rw [← div_pow_succ] at hw
    by_cases hd : 2 ^ (o + 1) ∣ q
    · refine hend (hw _ ((mem_chunk_at hd).mpr ?_))
      omega
    · have hq : 0 < q := Nat.pos_of_ne_zero fun h0 => hd (h0 ▸ Nat.dvd_zero _)
      refine h (o + 1) ho hq ?_ hw
      have hdiv := Nat.div_add_mod q (2 ^ (o + 1))
      rw [mem_chunk, Nat.add_mul, Nat.one_mul, Nat.mul_comm]
      omega

theorem Cut.behind (hm : Max F top o (q / 2 ^ o)) (hdvd : 2 ^ o ∣ q) : Cut F top (q + 2 ^ o) := by
  intro o' ho' _ heq hw
  rcases Nat.lt_or_ge o o' with hlt | hge
  · have hin : (q + 2 ^ o - 1) / 2 ^ o = q / 2 ^ o := (mem_chunk_at hdvd).mpr (by omega)
    refine hm.2 (by omega) ?_
    obtain ⟨n, rfl⟩ : ∃ n, o' = o + 1 + n := ⟨o' - (o + 1), by omega⟩
    rw [← heq] at hw
    have := hw.sub
    rwa [div_pow_succ, hin] at this
  · have hd : 2 ^ o' ∣ q + 2 ^ o :=
      Nat.dvd_add (Nat.dvd_trans (Nat.pow_dvd_pow 2 hge) hdvd) (Nat.pow_dvd_pow 2 hge)
    have := ((mem_chunk_at hd).mp heq).1
    omega

theorem below_add (hm : Max F top o (q / 2 ^ o)) (hdvd : 2 ^ o ∣ q) (ho : o ≤ top) {o' : Nat}
    (ho' : o' ≤ top) :
    Below F top (q + 2 ^ o) o' i ↔ Below F top q o' i ∨ (o' = o ∧ i = q / 2 ^ o) := by
  constructor
  · rintro ⟨hm', hb⟩
    by_cases hq : ∀ b, b / 2 ^ o' = i → b < q
    · exact .inl ⟨hm', hq⟩
    · push Not at hq
      obtain ⟨b, rfl, hbq⟩ := hq
      have hin : b / 2 ^ o = q / 2 ^ o := (mem_chunk_at hdvd).mpr ⟨hbq, hb b rfl⟩
      obtain rfl := hm'.unique (hin.symm ▸ hm) ho' ho
      exact .inr ⟨rfl, hin⟩
  · rintro (⟨hm', hb⟩ | ⟨rfl, rfl⟩)
    · exact ⟨hm', fun b h => Nat.lt_add_right _ (hb b h)⟩
    · exact ⟨hm, fun b h => ((mem_chunk_at hdvd).mp h).2⟩

theorem not_below : ¬ Below F top q o (q / 2 ^ o) :=
  fun h => Nat.lt_irrefl q (h.2 q rfl)

theorem below_gap {q q' : Nat} (hle : q ≤ q') (hgap : ∀ b, q ≤ b → b < q' → ¬ F b) :
    Below F top q' o i ↔ Below F top q o i := by
  refine and_congr_right fun hm => ⟨fun h b hb => ?_, fun h b hb => ?_⟩
  · by_contra hq
    exact hgap b (by omega) (h b hb) (hm.1 b hb)
  · exact Nat.lt_of_lt_of_le (h b hb) hle

theorem below_zero : ¬ Below F top 0 o i := fun h => absurd (h.2 _ (start_div o i))
    (Nat.not_lt_zero _)

theorem below_iff_max {n : Nat} (hF : ∀ b, F b → b < n) : Below F top n o i ↔ Max F top o i :=
  and_iff_left_of_imp fun hm b hb => hF b (hm.1 b hb)

end Dyadic
