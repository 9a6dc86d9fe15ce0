import Mathlib.Data.List.Nodup
import Mathlib.Logic.Function.Basic

/-!
# Chains of cells

A singly linked chain given by a function `next` from cells to cells and a
cell `stop` that ends it. A chain that ends is a list without repetition,
and there is only one; the lemmas say what pushing, cutting and overwriting
links does to it.
-/

namespace Chain

variable {α : Type}

/-- From `a` the links lead through the cells of the list to `stop`. -/
def Path (next : α → α) (stop : α) : α → List α → Prop
  | a, [] => a = stop
  | a, b :: l => a = b ∧ b ≠ stop ∧ Path next stop (next b) l

variable {next : α → α} {stop a b i : α} {l l1 l2 : List α}

theorem Path.cons (hb : b ≠ stop) (h : Path next stop (next b) l) :
    Path next stop b (b :: l) := ⟨rfl, hb, h⟩

theorem Path.unique {l' : List α} (h : Path next stop a l) (h' : Path next stop a l') : l = l' := by
  induction l generalizing a l' with
  | nil =>
    cases l' with
    | nil => rfl
    | cons b l' =>
      obtain ⟨rfl, hb, -⟩ := h'
      exact absurd h hb
  | cons b l ih =>
    obtain ⟨rfl, hb, h⟩ := h
    cases l' with
    | nil => exact absurd h' hb
    | cons b' l' =>
      obtain ⟨rfl, -, h'⟩ := h'
      rw [ih h h']

theorem Path.stop_not_mem (h : Path next stop a l) : stop ∉ l := by
  induction l generalizing a with
  | nil => exact List.not_mem_nil
  | cons b l ih =>
    obtain ⟨rfl, hb, h⟩ := h
    rw [List.mem_cons, not_or]
    exact ⟨hb.symm, ih h⟩

theorem Path.drop (h : Path next stop a (l1 ++ b :: l2)) : Path next stop b (b :: l2) := by
  induction l1 generalizing a with
  | nil =>
    obtain ⟨rfl, hb, h⟩ := h
    exact .cons hb h
  | cons c l1 ih => exact ih h.2.2

theorem Path.nodup (h : Path next stop a l) : l.Nodup := by
  induction l generalizing a with
  | nil => exact List.nodup_nil
  | cons b l ih =>
    obtain ⟨rfl, hb, hl⟩ := h
    refine List.nodup_cons.mpr ⟨fun hmem => ?_, ih hl⟩
    -- the rest from the second visit would be the whole chain
    obtain ⟨l1, l2, rfl⟩ := List.append_of_mem hmem
    have := Path.unique hl.drop (.cons hb hl)
    have hlen := congrArg List.length this
    rw [List.length_cons, List.length_cons, List.length_append, List.length_cons] at hlen
    omega

theorem Path.congr {next' : α → α} (h : Path next stop a l) (hsame : ∀ b ∈ l, next' b = next b) :
    Path next' stop a l := by
  induction l generalizing a with
  | nil => exact h
  | cons b l ih =>
    obtain ⟨rfl, hb, h⟩ := h
    refine .cons hb ?_
    rw [hsame _ (List.mem_cons_self ..)]
    exact ih h fun c hc => hsame c (List.mem_cons_of_mem _ hc)

variable [DecidableEq α]

theorem Path.update {v : α} (h : Path next stop a l) (hi : i ∉ l) :
    Path (Function.update next i v) stop a l :=
  h.congr fun b hb => Function.update_of_ne (show b ≠ i from fun heq => hi (heq ▸ hb)) _ _

theorem Path.push (h : Path next stop a l) (hi : i ∉ l) (hstop : i ≠ stop) :
    Path (Function.update next i a) stop i (i :: l) := by
  refine .cons hstop ?_
  rw [Function.update_self]
  exact h.update hi

theorem Path.not_push {l l' : List α} (h : Path next stop a l) (hi : i ∈ l) :
    ¬ Path (Function.update next i a) stop i l' := by
  intro h'
  obtain ⟨l1, l2, rfl⟩ := List.append_of_mem hi
  have hnd := h.nodup
  -- up to the cell the new links are the old ones
  have hback : ∀ {l1 : List α} {b : α}, Path next stop b (l1 ++ i :: l2) → i ∉ l1 →
      Path (Function.update next i a) stop b (l1 ++ l') := by
    intro l1
    induction l1 with
    | nil =>
      intro b hb _
      obtain ⟨rfl, -, -⟩ := hb
      exact h'
    | cons c l1 ih =>
      intro b hb hni
      obtain ⟨rfl, hstop, hb⟩ := hb
      rw [List.mem_cons, not_or] at hni
      refine .cons hstop ?_
      rw [Function.update_of_ne (Ne.symm hni.1)]
      exact ih hb hni.2
  have hni : i ∉ l1 := fun hmem =>
    (List.nodup_append.mp hnd).2.2 i hmem i (List.mem_cons_self ..) rfl
  cases l' with
  | nil =>
    have := h.stop_not_mem
    rw [show i = stop from h'] at this
    exact this (List.mem_append_right _ (List.mem_cons_self ..))
  | cons c l' =>
    obtain ⟨rfl, hb, htail⟩ := h'
    rw [Function.update_self] at htail
    have hlen := congrArg List.length (htail.unique (hback h hni))
    rw [List.length_append, List.length_cons] at hlen
    omega

/-- The cells between `p` and `i` are cut out with `i`. -/
theorem Path.cut {l3 : List α} {p : α} (h : Path next stop a (l1 ++ p :: (l2 ++ i :: l3))) :
    Path (Function.update next p (next i)) stop a (l1 ++ p :: l3) := by
  induction l1 generalizing a with
  | nil =>
    have hnd := h.nodup
    obtain ⟨rfl, hp, h⟩ := h
    refine .cons hp ?_
    rw [Function.update_self]
    have hi := h.drop
    refine Path.update hi.2.2 fun hmem => ?_
    refine (List.nodup_cons.mp hnd).1 (List.mem_append_right _ (List.mem_cons_of_mem _ hmem))
  | cons c l1 ih =>
    have hnd := h.nodup
    obtain ⟨rfl, hc, h⟩ := h
    refine .cons hc ?_
    rw [Function.update_of_ne]
    · exact ih h
    · rw [List.cons_append, List.nodup_cons] at hnd
      exact fun h => hnd.1 (h ▸ by simp)

end Chain
