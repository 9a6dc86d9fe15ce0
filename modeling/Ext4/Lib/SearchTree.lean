import Mathlib.Data.List.Pairwise
import Mathlib.Data.List.Basic

/-!
# Search trees as descents over a sequence

A binary search tree is used by its clients through two things: the
in-order sequence it stores, and the DESCENT from the root that goes
left or right at each node until it stops. How the tree is balanced is
the business of its library. This module describes one descent with the
context it leaves behind, so a client can be proved for every shape.
-/

namespace SearchTree

/-- The shape of a binary tree; balance information is left out. -/
inductive BinTree (α : Type*) where
  | nil
  | node (l : BinTree α) (x : α) (r : BinTree α)

namespace BinTree

variable {α : Type*}

/-- The in-order sequence. -/
def inorder : BinTree α → List α
  | nil => []
  | node l x r => inorder l ++ x :: inorder r

/-- The right spine over a sequence: the shape an unbalanced tree takes
when it is filled in order. -/
def spine : List α → BinTree α
  | [] => nil
  | x :: xs => node nil x (spine xs)

@[simp] theorem inorder_spine (l : List α) : (spine l).inorder = l := by
  induction l with
  | nil => rfl
  | cons x xs ih => simp [spine, inorder, ih]

end BinTree

/-- A tree for every sequence: how the library balances. -/
structure Shape (α : Type*) where
  tree : List α → BinTree α
  inorder : ∀ l, (tree l).inorder = l

/-- The unbalanced choice. -/
def Shape.spine (α : Type*) : Shape α := ⟨BinTree.spine, BinTree.inorder_spine⟩

/-- A node of the sequence together with what stands before and after it. -/
structure Zip (α : Type*) where
  before : List α
  cur : α
  after : List α

namespace Zip

variable {α : Type*}

/-- The sequence a zipper was taken from. -/
def toList (z : Zip α) : List α := z.before ++ z.cur :: z.after

/-- The successor of a node, with its context. -/
def next (z : Zip α) : Option (Zip α) :=
  match z.after with
  | [] => none
  | y :: ys => some ⟨z.before ++ [z.cur], y, ys⟩

/-- The predecessor of a node, with its context. -/
def prev (z : Zip α) : Option (Zip α) :=
  match z.before.getLast? with
  | none => none
  | some y => some ⟨z.before.dropLast, y, z.cur :: z.after⟩

theorem cur_mem (z : Zip α) : z.cur ∈ z.toList := by simp [toList]

variable {n z : Zip α}

theorem next_eq_some (h : z.next = some n) :
    z.after = n.cur :: n.after ∧ n.before = z.before ++ [z.cur] := by
  unfold next at h
  split at h
  · cases h
  · cases h
    exact ⟨by assumption, rfl⟩

theorem next_eq_none (h : z.next = none) : z.after = [] := by
  unfold next at h
  split at h
  · assumption
  · cases h

theorem next_toList (h : z.next = some n) : n.toList = z.toList := by
  obtain ⟨h1, h2⟩ := next_eq_some h
  simp [toList, h1, h2]

theorem prev_eq_some {p : Zip α} (h : z.prev = some p) :
    z.before = p.before ++ [p.cur] ∧ p.after = z.cur :: z.after := by
  unfold prev at h
  split at h
  · cases h
  · rename_i y hy
    cases h
    exact ⟨(List.dropLast_append_getLast? y hy).symm, rfl⟩

theorem prev_eq_none (h : z.prev = none) : z.before = [] := by
  unfold prev at h
  split at h
  · rename_i hz
    exact List.getLast?_eq_none_iff.mp hz
  · cases h

end Zip

section Walk

variable {α : Type*}

/-- One descent: `dir x` is `.lt` to go left at `x`, `.gt` to go right and
`.eq` to stop. The result is the LAST node visited, with its context;
`none` only for the empty tree. -/
def walk (dir : α → Ordering) :
    BinTree α → List α → List α → Option (Zip α) → Option (Zip α)
  | .nil, _, _, last => last
  | .node l x r, b, a, _ =>
      let here : Zip α := ⟨b ++ l.inorder, x, r.inorder ++ a⟩
      match dir x with
      | .lt => walk dir l b (x :: (r.inorder ++ a)) (some here)
      | .gt => walk dir r (b ++ l.inorder ++ [x]) a (some here)
      | .eq => some here

/-- The descent from the root of a tree. -/
def descend (dir : α → Ordering) (t : BinTree α) : Option (Zip α) :=
  walk dir t [] [] none

/-- The directions along a sequence: once left, always left; before right,
always right. A stop may stand anywhere in between. -/
def Directed (dir : α → Ordering) (l : List α) : Prop :=
  l.Pairwise (fun x y => (dir x = .lt → dir y = .lt) ∧ (dir y = .gt → dir x = .gt))

/-- Where a descent can end: at a stop, or at a node beside the gap it was
looking for. -/
def Ends (dir : α → Ordering) (z : Zip α) : Prop :=
  dir z.cur = .eq ∨
  (dir z.cur = .lt ∧ (∀ x ∈ z.before, dir x = .gt) ∧ ∀ x ∈ z.after, dir x = .lt) ∨
  (dir z.cur = .gt ∧ (∀ x ∈ z.before, dir x = .gt) ∧ ∀ x ∈ z.after, dir x = .lt)

variable {dir : α → Ordering} {t : BinTree α} {a b : List α} {last : Option (Zip α)} {z : Zip α}

theorem walk_toList (hlast : ∀ z', last = some z' → z'.toList = b ++ t.inorder ++ a)
    (h : walk dir t b a last = some z) : z.toList = b ++ t.inorder ++ a := by
  induction t generalizing b a last with
  | nil => exact hlast z h
  | node l x r ihl ihr =>
    have hhere : ∀ z', some (Zip.mk (b ++ l.inorder) x (r.inorder ++ a)) = some z' →
        z'.toList = b ++ (BinTree.node l x r).inorder ++ a := by
      rintro _ ⟨⟩
      simp [Zip.toList, BinTree.inorder]
    simp only [BinTree.inorder] at hhere ⊢
    rw [walk] at h
    split at h
    · simpa using ihl (by simpa using hhere) h
    · simpa using ihr (by simpa using hhere) h
    · exact hhere z h

theorem walk_ends (hd : Directed dir (b ++ t.inorder ++ a)) (hb : ∀ x ∈ b, dir x = .gt)
    (ha : ∀ x ∈ a, dir x = .lt) (hlast : ∀ z', last = some z' → t = .nil → Ends dir z')
    (h : walk dir t b a last = some z) : Ends dir z := by
  induction t generalizing b a last with
  | nil => exact hlast z h rfl
  | node l x r ihl ihr =>
    replace hd : Directed dir ((b ++ l.inorder) ++ x :: (r.inorder ++ a)) := by
      simpa [BinTree.inorder] using hd
    obtain ⟨-, hcur, hbefore⟩ := List.pairwise_append.mp hd
    simp only [walk] at h
    split at h
    · rename_i hx
      -- going left: everything right of `x` is to the right as well
      have hright : ∀ y ∈ x :: (r.inorder ++ a), dir y = .lt :=
        List.forall_mem_cons.mpr ⟨hx, fun y hy => ((List.pairwise_cons.mp hcur).1 y hy).1 hx⟩
      refine ihl hd hb hright ?_ h
      rintro z' ⟨⟩ hnil
      subst hnil
      refine .inr (.inl ⟨hx, ?_, fun y hy => hright y (List.mem_cons_of_mem x hy)⟩)
      simpa [BinTree.inorder] using hb
    · rename_i hx
      have hleft : ∀ y ∈ b ++ l.inorder ++ [x], dir y = .gt :=
        List.forall_mem_append.mpr
          ⟨fun y hy => (hbefore y hy x (List.mem_cons_self ..)).2 hx, by simpa using hx⟩
      refine ihr (by simpa using hd) hleft ha ?_ h
      rintro z' ⟨⟩ hnil
      subst hnil
      refine .inr (.inr ⟨hx, fun y hy => hleft y (List.mem_append_left _ hy), ?_⟩)
      simpa [BinTree.inorder] using ha
    · rename_i hx
      cases h
      exact .inl hx

theorem Ends.sides (h : Ends dir z) (hne : dir z.cur ≠ .eq) :
    (∀ x ∈ z.before, dir x = .gt) ∧ ∀ x ∈ z.after, dir x = .lt :=
  (h.resolve_left hne).elim And.right And.right

theorem walk_isSome (h : last.isSome ∨ t ≠ .nil) : (walk dir t b a last).isSome := by
  induction t generalizing b a last with
  | nil => exact h.resolve_right (· rfl)
  | node l x r ihl ihr =>
    rw [walk]
    split
    · exact ihl (.inl rfl)
    · exact ihr (.inl rfl)
    · rfl

variable {sh : Shape α} {l : List α}

/-- The context of the node a descent ends at is the whole sequence. -/
theorem descend_toList (h : descend dir (sh.tree l) = some z) : z.toList = l := by
  simpa [sh.inorder] using walk_toList (by simp) h

/-- A descent over a directed sequence ends at a stop or beside the gap. -/
theorem descend_ends (hd : Directed dir l) (h : descend dir (sh.tree l) = some z) : Ends dir z :=
  walk_ends (by simpa [sh.inorder] using hd) (by simp) (by simp) (by simp) h

theorem descend_eq_none (h : descend dir (sh.tree l) = none) : l = [] := by
  rw [← sh.inorder l]
  by_contra hne
  have hs : (descend dir (sh.tree l)).isSome :=
    walk_isSome (.inr fun hnil => hne (by rw [hnil]; rfl))
  rw [h] at hs
  nomatch hs

end Walk

end SearchTree
