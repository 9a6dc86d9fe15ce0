import Mathlib.Data.Nat.Init

/-!
# Partial maps that keep clusters together

Blocks on both sides of a partial map come in clusters of `r`. The map
respects them if a block keeps its offset in its cluster, and if two blocks
are in one cluster exactly where their images are. A run of new blocks can be
placed in two ways: inside a cluster that has an image already, or in clusters
that have none, onto clusters that nothing is mapped to.
-/

namespace ClusterMap

variable {r : Nat} {m : Nat → Option Nat}

/-! ## Cluster starts -/

theorem start_eq (s r : Nat) : s - s % r = r * (s / r) := by
  have := Nat.div_add_mod s r
  omega

variable {b q s x : Nat}

theorem lt_start (h : b / r < s / r) : b < s - s % r := by
  rw [start_eq]
  have hr : 0 < r := Nat.pos_of_ne_zero fun h0 => by simp [h0] at h
  calc b < r * (b / r + 1) := Nat.lt_mul_div_succ b hr
    _ ≤ r * (s / r) := Nat.mul_le_mul_left r h

theorem div_lt_of_lt_start (h : x < s - s % r) : x / r < s / r := by
  rw [start_eq] at h
  exact Nat.div_lt_of_lt_mul h

theorem add_div_eq (hr : 0 < r) (a d : Nat) : (a + d) / r = a / r + (a % r + d) / r := by
  have hsplit : a + d = r * (a / r) + (a % r + d) := by
    have := Nat.div_add_mod a r
    omega
  rw [hsplit, Nat.mul_add_div hr]

/-- A block outside of `n` clusters is in none of them. -/
theorem div_ne_of_outside (hr : 0 < r) {base n d : Nat} (hbase : base % r = 0)
    (hq : q < base ∨ base + n * r ≤ q) (hd : d < n * r) : q / r ≠ (base + d) / r := by
  obtain ⟨k, rfl⟩ := Nat.dvd_of_mod_eq_zero hbase
  rw [Nat.mul_add_div hr]
  rcases hq with hlt | hge
  · exact Nat.ne_of_lt (Nat.lt_of_lt_of_le (Nat.div_lt_of_lt_mul hlt) (Nat.le_add_right k _))
  · have h1 : k + n ≤ q / r := by
      rw [Nat.le_div_iff_mul_le hr, Nat.add_mul, Nat.mul_comm k]
      exact hge
    have h2 : d / r < n := Nat.div_lt_of_lt_mul (Nat.mul_comm n r ▸ hd)
    exact Nat.ne_of_gt (Nat.lt_of_lt_of_le (Nat.add_lt_add_left h2 k) h1)

/-! ## Maps -/

/-- A map that keeps offsets and clusters. -/
structure Respects (r : Nat) (m : Nat → Option Nat) : Prop where
  offset : ∀ b q, m b = some q → q % r = b % r
  together : ∀ b q b' q', m b = some q → m b' = some q' → (b / r = b' / r ↔ q / r = q' / r)

/-- `len` blocks from `lo` on are mapped to those from `p` on. -/
def place (m : Nat → Option Nat) (lo len p : Nat) : Nat → Option Nat :=
  fun x => if lo ≤ x ∧ x < lo + len then some (p + (x - lo)) else m x

variable {lo len p : Nat}

theorem place_eq_some (h : place m lo len p x = some q) :
    (∃ d < len, x = lo + d ∧ q = p + d) ∨ m x = some q := by
  rw [place] at h
  split at h
  · exact .inl ⟨x - lo, by omega, by omega, (Option.some.inj h).symm⟩
  · exact .inr h

/-- Two numbers with one remainder go through the clusters in step. -/
theorem div_eq_div_iff (hp : p % r = lo % r) (d e : Nat) :
    (lo + d) / r = (lo + e) / r ↔ (p + d) / r = (p + e) / r := by
  rcases Nat.eq_zero_or_pos r with rfl | hr
  · simp
  rw [add_div_eq hr lo, add_div_eq hr lo, add_div_eq hr p, add_div_eq hr p, hp]
  omega

theorem Respects.place (h : Respects r m) (hp : p % r = lo % r)
    (hnew : ∀ b q, m b = some q → ∀ d < len, (b / r = (lo + d) / r ↔ q / r = (p + d) / r)) :
    Respects r (place m lo len p) := by
  constructor
  · intro b q hb
    rcases place_eq_some hb with ⟨d, -, rfl, rfl⟩ | hb
    · rw [Nat.add_mod, hp, ← Nat.add_mod]
    · exact h.offset b q hb
  · intro b q b' q' hb hb'
    rcases place_eq_some hb with ⟨d, hd, rfl, rfl⟩ | hb <;>
      rcases place_eq_some hb' with ⟨d', hd', rfl, rfl⟩ | hb'
    · exact div_eq_div_iff hp d d'
    · rw [eq_comm, hnew b' q' hb' d hd, eq_comm]
    · exact hnew b q hb d' hd'
    · exact h.together b q b' q' hb hb'

theorem Respects.place_shared (h : Respects r m) (hb : m b = some q) (hsame : b / r = lo / r)
    (hfit : lo % r + len ≤ r) : Respects r (ClusterMap.place m lo len (q - q % r + lo % r)) := by
  rcases Nat.eq_zero_or_pos r with rfl | hr
  · obtain rfl : len = 0 := by omega
    have : ClusterMap.place m lo 0 (q - q % 0 + lo % 0) = m := by
      funext x
      exact if_neg (by omega)
    rwa [this]
  rw [start_eq]
  refine h.place ?_ fun b' q' hb' d hd => ?_
  · rw [Nat.mul_add_mod, Nat.mod_mod]
  · have hzero : (lo % r + d) / r = 0 := Nat.div_eq_of_lt (by omega)
    rw [add_div_eq hr, hzero, Nat.add_zero, Nat.add_assoc, Nat.mul_add_div hr, hzero, Nat.add_zero,
      ← hsame]
    exact h.together b' q' b q hb' hb

/-- A run in clusters without mapped blocks, onto clusters without images. -/
theorem Respects.place_fresh (h : Respects r m) (hp : p % r = lo % r)
    (hlog : ∀ b q, m b = some q → ∀ d < len, b / r ≠ (lo + d) / r)
    (hphys : ∀ b q, m b = some q → ∀ d < len, q / r ≠ (p + d) / r) :
    Respects r (ClusterMap.place m lo len p) :=
  h.place hp fun b q hb d hd =>
    ⟨fun heq => absurd heq (hlog b q hb d hd), fun heq => absurd heq (hphys b q hb d hd)⟩

end ClusterMap
