import Mathlib.Data.List.Pairwise
import Mathlib.Data.List.Basic

/-!
# Sequences of segments read as partial maps

A segment occupies the points `[lo, hi)` and gives each of them a value.
A sequence of segments that follow one another without overlap is a
partial map from points to values; editing the sequence edits the map.
Nothing here depends on what a segment is.
-/

namespace Segments

/-- How to read an element as a segment. -/
structure View (α β : Type*) where
  lo : α → Nat
  hi : α → Nat
  val : α → Nat → β

namespace View

variable {α β : Type*} (V : View α β)

/-- The points of a segment. -/
def Covers (e : α) (b : Nat) : Prop := V.lo e ≤ b ∧ b < V.hi e

instance (e : α) (b : Nat) : Decidable (V.Covers e b) :=
  inferInstanceAs (Decidable (_ ∧ _))

/-- The value at a point: that of the first segment which covers it. -/
def get (l : List α) (b : Nat) : Option β :=
  (l.find? (fun e => decide (V.Covers e b))).map (fun e => V.val e b)

/-- Segments in order, none reaching into the next. -/
def Separated (l : List α) : Prop := l.Pairwise (fun x y => V.hi x ≤ V.lo y)

@[simp] theorem get_nil (b : Nat) : V.get [] b = none := rfl

theorem get_cons (e : α) (l : List α) (b : Nat) :
    V.get (e :: l) b = if V.Covers e b then some (V.val e b) else V.get l b := by
  by_cases h : V.Covers e b <;> simp [get, h]

theorem get_append (l1 l2 : List α) (b : Nat) :
    V.get (l1 ++ l2) b = (V.get l1 b).or (V.get l2 b) := by
  induction l1 with
  | nil => simp
  | cons e l1 ih =>
    rw [List.cons_append, get_cons, get_cons, ih]
    split <;> simp

variable {l : List α} {b : Nat}

theorem get_eq_none_iff : V.get l b = none ↔ ∀ e ∈ l, ¬ V.Covers e b := by
  simp [get]

theorem get_eq_some_mem {v : β} (h : V.get l b = some v) :
    ∃ e ∈ l, V.Covers e b ∧ V.val e b = v := by
  rw [get, Option.map_eq_some_iff] at h
  obtain ⟨e, he, hv⟩ := h
  exact ⟨e, List.mem_of_find?_eq_some he, by simpa using List.find?_some he, hv⟩

/-- In a separated sequence the covering segment decides the value. -/
theorem Separated.get_mem (hs : V.Separated l) {e : α} (he : e ∈ l) (hc : V.Covers e b) :
    V.get l b = some (V.val e b) := by
  induction l with
  | nil => simp at he
  | cons x l ih =>
    rw [Separated, List.pairwise_cons] at hs
    rw [get_cons]
    rcases List.mem_cons.mp he with rfl | he
    · rw [if_pos hc]
    · have hx : ¬ V.Covers x b := by
        have h1 := hs.1 e he
        intro h2
        simp only [Covers] at hc h2
        omega
      rw [if_neg hx]
      exact ih hs.2 he

theorem Separated.eq_of_covers (hs : V.Separated l) {e e' : α} (he : e ∈ l) (he' : e' ∈ l)
    (hc : V.Covers e b) (hc' : V.Covers e' b) : e = e' := by
  simp only [Covers] at hc hc'
  induction l with
  | nil => nomatch he
  | cons x l ih =>
    obtain ⟨hx, hl⟩ := List.pairwise_cons.mp hs
    rcases List.mem_cons.mp he with rfl | hmem
    · rcases List.mem_cons.mp he' with rfl | hmem'
      · rfl
      · have := hx e' hmem'
        omega
    · rcases List.mem_cons.mp he' with rfl | hmem'
      · have := hx e hmem
        omega
      · exact ih hl hmem hmem'

/-- Below the first segment of a separated sequence nothing is covered. -/
theorem get_eq_none_of_lt (h : ∀ e ∈ l, b < V.lo e) : V.get l b = none := by
  rw [get_eq_none_iff]
  intro e he hc
  have := h e he
  simp only [Covers] at hc
  omega

theorem get_eq_none_of_ge (h : ∀ e ∈ l, V.hi e ≤ b) : V.get l b = none := by
  rw [get_eq_none_iff]
  intro e he hc
  have := h e he
  simp only [Covers] at hc
  omega

end View

end Segments
