import Ext4.Lib.BinarySearch
import Mathlib.Data.List.Infix

/-!
# Index trees

A tree of uniform depth over a key: the leaves are sequences of elements,
an inner node is a sequence of entries, each with a key, a pointer and a
subtree. What the tree stores is the concatenation of its leaves (`flat`).

An edit goes through a PATH: a cut of one leaf and, level by level, the
entry it hangs below with the entries on both sides. Editing the leaf of a
path leaves the rest in place; what remains is to bring the keys above it
up to date (`rekey`).
-/

namespace IndexTree

open SearchTree BinarySearch

/-- An entry of an inner node. -/
structure Entry (β : Type) where
  key : Nat
  ptr : Nat
  child : β
deriving DecidableEq, Repr

/-- A node with `d` levels below it. -/
@[reducible] def Node (α : Type) : Nat → Type
  | 0 => List α
  | d + 1 => List (Entry (Node α d))

/-- A leaf, cut in front of the element the path points at. -/
structure Cut (α : Type) where
  before : List α
  after : List α
deriving DecidableEq, Repr

/-- The elements of the leaf. -/
def Cut.toList {α : Type} (c : Cut α) : List α := c.before ++ c.after

/-- An inner node with one of its subtrees opened. -/
structure Level (β γ : Type) where
  before : List (Entry β)
  key : Nat
  ptr : Nat
  down : γ
  after : List (Entry β)

/-- A path down to a leaf. -/
@[reducible] def Path (α : Type) : Nat → Type
  | 0 => Cut α
  | d + 1 => Level (Node α d) (Path α d)

variable {α : Type}

/-- The elements of a tree, in order. -/
def flat : (d : Nat) → Node α d → List α
  | 0, es => es
  | d + 1, xs => List.flatMap (fun x => flat d x.child) xs

/-- The number of entries of the topmost node. -/
def width : (d : Nat) → Node α d → Nat
  | 0, es => List.length es
  | _ + 1, xs => List.length xs

/-- The tree a path was taken from. -/
def close : (d : Nat) → Path α d → Node α d
  | 0, c => c.toList
  | d + 1, p => p.before ++ ⟨p.key, p.ptr, close d p.down⟩ :: p.after

/-- The leaf at the end of a path. -/
def leaf : (d : Nat) → Path α d → Cut α
  | 0, c => c
  | d + 1, p => leaf d p.down

/-- The path with another leaf at its end. -/
def setLeaf : (d : Nat) → Path α d → Cut α → Path α d
  | 0, _, c => c
  | d + 1, p, c => { p with down := setLeaf d p.down c }

/-- What the tree stores in front of the leaf. -/
def left : (d : Nat) → Path α d → List α
  | 0, _ => []
  | d + 1, p => p.before.flatMap (fun x => flat d x.child) ++ left d p.down

/-- What the tree stores behind the leaf. -/
def right : (d : Nat) → Path α d → List α
  | 0, _ => []
  | d + 1, p => right d p.down ++ p.after.flatMap fun x => flat d x.child

theorem flat_append (d : Nat) (xs ys : List (Entry (Node α d))) :
    flat (d + 1) (xs ++ ys) = flat (d + 1) xs ++ flat (d + 1) ys :=
  List.flatMap_append

theorem flat_cons (d : Nat) (x : Entry (Node α d)) (xs : List (Entry (Node α d))) :
    flat (d + 1) (x :: xs) = flat d x.child ++ flat (d + 1) xs :=
  List.flatMap_cons

section

variable (d : Nat) (p : Path α d)
include d p

theorem flat_close : flat d (close d p) = left d p ++ (leaf d p).toList ++ right d p := by
  induction d with
  | zero =>
    show Cut.toList p = [] ++ Cut.toList p ++ []
    rw [List.append_nil, List.nil_append]
  | succ d ih =>
    rw [close, flat_append, flat_cons]
    show flat (d + 1) p.before ++ (flat d (close d p.down) ++ flat (d + 1) p.after) = _
    rw [ih p.down]
    show _ = (flat (d + 1) p.before ++ left d p.down) ++ (leaf d p.down).toList
      ++ (right d p.down ++ flat (d + 1) p.after)
    simp only [List.append_assoc]

@[simp] theorem leaf_setLeaf (c : Cut α) : leaf d (setLeaf d p c) = c := by
  induction d with
  | zero => rfl
  | succ d ih => exact ih p.down

@[simp] theorem left_setLeaf (c : Cut α) : left d (setLeaf d p c) = left d p := by
  induction d with
  | zero => rfl
  | succ d ih => exact congrArg (_ ++ ·) (ih p.down)

@[simp] theorem right_setLeaf (c : Cut α) : right d (setLeaf d p c) = right d p := by
  induction d with
  | zero => rfl
  | succ d ih => exact congrArg (· ++ _) (ih p.down)

end

/-! ## Searching -/

section Search

variable (key : α → Nat)

/-- The path to the last element whose key is not above `b`, by a search in
the entries of each level. An inner node without entries has no way down. -/
def find : (d : Nat) → Node α d → Nat → Option (Path α d)
  | 0, es, b =>
      match seek key b es with
      | none => some ⟨[], []⟩
      | some z => some ⟨z.before, z.cur :: z.after⟩
  | d + 1, xs, b =>
      match seek Entry.key b xs with
      | none => none
      | some z => (find d z.cur.child b).map fun q =>
          ⟨z.before, z.cur.key, z.cur.ptr, q, z.after⟩

/-- A position of a sequence of keys that a search for `b` ends at. -/
structure Routed (before : List Nat) (cur b : Nat) (after : List Nat) : Prop where
  sorted : (before ++ cur :: after).Pairwise (· ≤ ·)
  low : before ≠ [] → cur ≤ b
  high : ∀ y ∈ after, b < y

/-- The path is the one a search for `b` takes. -/
def Routes (b : Nat) : (d : Nat) → Path α d → Prop
  | 0, c =>
      match c.after with
      | [] => c.before = []
      | e :: after => Routed (c.before.map key) (key e) b (after.map key)
  | d + 1, p => Routed (p.before.map Entry.key) p.key b (p.after.map Entry.key)
      ∧ Routes b d p.down

theorem seek_of_routed {β : Type} {f : β → Nat} {before after : List β} {x : β} {b : Nat}
    (h : Routed (before.map f) (f x) b (after.map f)) :
    seek f b (before ++ x :: after) = some ⟨before, x, after⟩ := by
  have hs : (before ++ x :: after).Pairwise fun y z => f y ≤ f z := by
    have := h.sorted
    rwa [← List.map_cons, ← List.map_append, List.pairwise_map] at this
  obtain ⟨z, hz, hl, hhigh, hlow⟩ := seek_spec b (by simp) hs
  rw [hz]
  rcases List.append_eq_append_iff.mp hl with ⟨as, h1, h2⟩ | ⟨as, h1, h2⟩
  · cases as with
    | nil =>
      injection h2 with h3 h4
      rw [List.append_nil] at h1
      rw [h1, ← h3, ← h4]
    | cons y as =>
      -- the found position would lie in front of `x`
      injection h2 with h3 h4
      have hx : x ∈ z.after := by rw [h4]; simp
      have hlo := h.low (by rw [h1]; simp)
      exact absurd (hhigh x hx) (Nat.not_lt.mpr hlo)
  · cases as with
    | nil =>
      injection h2 with h3 h4
      rw [List.append_nil] at h1
      rw [← h1, h3, h4]
    | cons y as =>
      injection h2 with h3 h4
      have hc : z.cur ∈ after := by rw [h4]; simp
      have hhi := h.high (f z.cur) (List.mem_map_of_mem hc)
      exact absurd hhi (Nat.not_lt.mpr (hlow (by rw [h1]; simp)))

variable {key}

theorem find_close {b : Nat} (d : Nat) (p : Path α d) (h : Routes key b d p) :
    find key d (close d p) b = some p := by
  induction d with
  | zero =>
    obtain ⟨before, after⟩ := p
    cases after with
    | nil =>
      have hnil : before = [] := h
      rw [hnil]
      rfl
    | cons e after =>
      show (match seek key b (before ++ e :: after) with
        | none => some (⟨[], []⟩ : Cut α)
        | some z => some ⟨z.before, z.cur :: z.after⟩) = _
      rw [seek_of_routed h]
  | succ d ih =>
    have hseek := seek_of_routed (f := Entry.key) (x := ⟨p.key, p.ptr, close d p.down⟩) h.1
    show (match seek Entry.key b (p.before ++ ⟨p.key, p.ptr, close d p.down⟩ :: p.after) with
      | none => none
      | some z => (find key d z.cur.child b).map fun q =>
        ⟨z.before, z.cur.key, z.cur.ptr, q, z.after⟩) = some p
    rw [hseek]
    show (find key d (close d p.down) b).map _ = some p
    rw [ih p.down h.2]
    rfl

end Search

/-! ## Keys -/

section Keys

variable (key : α → Nat) (cap : Nat)

/-- The key of the first element. -/
def firstKey (d : Nat) (n : Node α d) : Option Nat := (flat d n).head?.map key

/-- An entry whose subtree satisfies `P`, fits into its block and begins at
the key of the entry. -/
structure Fits (d : Nat) (P : Node α d → Prop) (x : Entry (Node α d)) : Prop where
  inner : P x.child
  width_le : width d x.child ≤ cap
  first : firstKey key d x.child = some x.key

/-- Every inner node has an entry, and every entry fits. -/
def Keyed : (d : Nat) → Node α d → Prop
  | 0, _ => True
  | d + 1, (xs : List (Entry (Node α d))) =>
      xs ≠ [] ∧ ∀ x ∈ xs, Fits key cap d (Keyed d) x

/-- The keys along a path, brought up to date from the leaf upwards. -/
def rekey : (d : Nat) → Path α d → Path α d
  | 0, c => c
  | d + 1, p =>
      { p with
        down := rekey d p.down
        key := (firstKey key d (close d (rekey d p.down))).getD p.key }

variable {key cap} {d : Nat} {p : Path α d} {P : Node α d → Prop} {x : Entry (Node α d)} {b : Nat}
  {f : Option Nat}

variable {xs : List (Entry (Node α d))}

theorem firstKey_cons (h : Fits key cap d P x) : firstKey key (d + 1) (x :: xs) = some x.key := by
  have hf := h.first
  rw [firstKey] at hf ⊢
  rw [flat_cons]
  cases hc : flat d x.child with
  | nil => rw [hc] at hf; nomatch hf
  | cons e es => rw [hc] at hf; exact hf

theorem flat_ne_nil (h : Fits key cap d P x) : flat d x.child ≠ [] := by
  intro hnil
  have hf := h.first
  rw [firstKey, hnil] at hf
  nomatch hf

/-- The entries of a node are ordered as the elements below them. -/
theorem Keyed.keys_lt (h : Keyed key cap (d + 1) xs)
    (hs : (flat (d + 1) xs).Pairwise fun x y => key x < key y) :
    xs.Pairwise fun x y => x.key < y.key := by
  refine List.Pairwise.imp_of_mem (fun {x y} hx hy hxy => ?_) (List.pairwise_flatMap.mp hs).2
  have first_mem : ∀ z ∈ xs, ∃ e ∈ flat d z.child, key e = z.key := by
    intro z hz
    obtain ⟨e, he, hek⟩ := Option.map_eq_some_iff.mp (h.2 z hz).first
    exact ⟨e, List.mem_of_mem_head? he, hek⟩
  obtain ⟨e, he, hek⟩ := first_mem x hx
  obtain ⟨f, hf, hfk⟩ := first_mem y hy
  rw [← hek, ← hfk]
  exact hxy e he f hf

theorem keyed_succ {before after : List (Entry (Node α d))} :
    Keyed key cap (d + 1) (before ++ x :: after)
      ↔ (∀ y ∈ before, Fits key cap d (Keyed key cap d) y) ∧ Fits key cap d (Keyed key cap d) x
        ∧ ∀ y ∈ after, Fits key cap d (Keyed key cap d) y := by
  constructor
  · rintro ⟨-, h⟩
    exact ⟨fun y hy => h y (by simp [hy]), h x (by simp), fun y hy => h y (by simp [hy])⟩
  · rintro ⟨h1, h2, h3⟩
    exact ⟨by simp, List.forall_mem_append.mpr ⟨h1, List.forall_mem_cons.mpr ⟨h2, h3⟩⟩⟩

section

variable (d p)

@[simp] theorem leaf_rekey : leaf d (rekey key d p) = leaf d p := by
  induction d with
  | zero => rfl
  | succ d ih => exact ih p.down

@[simp] theorem left_rekey : left d (rekey key d p) = left d p := by
  induction d with
  | zero => rfl
  | succ d ih => exact congrArg (_ ++ ·) (ih p.down)

@[simp] theorem right_rekey : right d (rekey key d p) = right d p := by
  induction d with
  | zero => rfl
  | succ d ih => exact congrArg (· ++ _) (ih p.down)

theorem flat_close_rekey : flat d (close d (rekey key d p)) = flat d (close d p) := by
  rw [flat_close, flat_close, leaf_rekey, left_rekey, right_rekey]

theorem firstKey_close_rekey :
    firstKey key d (close d (rekey key d p)) = firstKey key d (close d p) := by
  rw [firstKey, flat_close_rekey, firstKey]

theorem width_close_rekey : width d (close d (rekey key d p)) = width d (close d p) := by
  cases d with
  | zero => rfl
  | succ d =>
    show (p.before ++ _ :: p.after).length = (p.before ++ _ :: p.after).length
    simp

end

theorem width_close_setLeaf (hd : d ≠ 0) (p : Path α d) (c : Cut α) :
    width d (close d (setLeaf d p c)) = width d (close d p) := by
  cases d with
  | zero => exact absurd rfl hd
  | succ d =>
    show (p.before ++ _ :: p.after).length = (p.before ++ _ :: p.after).length
    simp

variable (key cap) in
/-- Everything beside the path is as it should be. Nothing is said about the
leaf, nor about the keys on the way to it. -/
def Beside : (d : Nat) → Path α d → Prop
  | 0, _ => True
  | d + 1, p => (∀ x ∈ p.before, Fits key cap d (Keyed key cap d) x)
      ∧ (∀ x ∈ p.after, Fits key cap d (Keyed key cap d) x)
      ∧ (d ≠ 0 → width d (close d p.down) ≤ cap) ∧ Beside d p.down

variable (key) in
/-- The keys on the way down are right for a leaf that begins at `f`. With
`f = none` this is asked only where the node below has an entry in front of
the path. -/
def Spine (f : Option Nat) : (d : Nat) → Path α d → Prop
  | 0, _ => True
  | d + 1, p => Spine f d p.down
      ∧ ∀ k, ((left d p.down).head?.map key).or f = some k → p.key = k

theorem Beside.setLeaf (h : Beside key cap d p) (c : Cut α) : Beside key cap d (setLeaf d p c) := by
  induction d with
  | zero => trivial
  | succ d ih =>
    obtain ⟨h1, h2, h3, h4⟩ := h
    exact ⟨h1, h2, fun hd => (width_close_setLeaf hd p.down c).symm ▸ h3 hd, ih h4⟩

theorem Spine.setLeaf (h : Spine key f d p) (c : Cut α) : Spine key f d (setLeaf d p c) := by
  induction d with
  | zero => trivial
  | succ d ih =>
    refine ⟨ih h.1, fun k hk => h.2 k ?_⟩
    rwa [show (IndexTree.setLeaf (d + 1) p c).down = IndexTree.setLeaf d p.down c from rfl,
      left_setLeaf] at hk

theorem Spine.weaken (h : Spine key f d p) : Spine key none d p := by
  induction d with
  | zero => trivial
  | succ d ih =>
    refine ⟨ih h.1, fun k hk => h.2 k ?_⟩
    rw [Option.or_none] at hk
    rw [hk]
    rfl

variable (key) in
theorem firstKey_close (d : Nat) (p : Path α d) (hne : (leaf d p).toList ≠ []) :
    firstKey key d (close d p)
      = ((left d p).head?.map key).or ((leaf d p).toList.head?.map key) := by
  rw [firstKey, flat_close, List.append_assoc, List.head?_append, List.head?_append, Option.map_or]
  cases hl : (leaf d p).toList with
  | nil => exact absurd hl hne
  | cons e es => rfl

theorem Keyed.leaf_ne_nil {p : Path α (d + 1)}
    (h : Keyed key cap (d + 1) (close (d + 1) p)) : (leaf (d + 1) p).toList ≠ [] := by
  induction d with
  | zero =>
    intro hnil
    exact flat_ne_nil (keyed_succ.mp h).2.1 hnil
  | succ d ih => exact ih (keyed_succ.mp h).2.1.inner

theorem Keyed.leaf_length_le {p : Path α (d + 1)}
    (h : Keyed key cap (d + 1) (close (d + 1) p)) : (leaf (d + 1) p).toList.length ≤ cap := by
  induction d with
  | zero => exact (keyed_succ.mp h).2.1.width_le
  | succ d ih => exact ih (keyed_succ.mp h).2.1.inner

theorem Keyed.beside (h : Keyed key cap d (close d p)) : Beside key cap d p := by
  induction d with
  | zero => trivial
  | succ d ih =>
    obtain ⟨h1, h2, h3⟩ := keyed_succ.mp h
    exact ⟨h1, h3, fun _ => h2.width_le, ih h2.inner⟩

theorem Keyed.spine (h : Keyed key cap d (close d p)) :
    Spine key ((leaf d p).toList.head?.map key) d p := by
  induction d with
  | zero => trivial
  | succ d ih =>
    have hne := h.leaf_ne_nil
    obtain ⟨-, h2, -⟩ := keyed_succ.mp h
    refine ⟨ih h2.inner, fun k hk => Option.some.inj (h2.first.symm.trans ?_)⟩
    exact (firstKey_close key d p.down hne).trans hk

theorem keyed_rekey (h : Beside key cap d p)
    (hne : d ≠ 0 → (leaf d p).toList ≠ []) (hcap : d ≠ 0 → (leaf d p).toList.length ≤ cap) :
    Keyed key cap d (close d (rekey key d p)) := by
  induction d with
  | zero => trivial
  | succ d ih =>
    obtain ⟨h1, h2, h3, h4⟩ := h
    have hne' : (leaf d p.down).toList ≠ [] := hne (Nat.succ_ne_zero d)
    have hcap' : (leaf d p.down).toList.length ≤ cap := hcap (Nat.succ_ne_zero d)
    refine keyed_succ.mpr ⟨h1, ⟨ih h4 (fun _ => hne') (fun _ => hcap'), ?_, ?_⟩, h2⟩
    · show width d (close d (rekey key d p.down)) ≤ cap
      rw [width_close_rekey]
      cases d with
      | zero => exact hcap'
      | succ d => exact h3 (Nat.succ_ne_zero d)
    · show firstKey key d (close d (rekey key d p.down))
        = some ((firstKey key d (close d (rekey key d p.down))).getD p.key)
      rw [firstKey_close_rekey, firstKey_close key d p.down hne']
      cases hl : (leaf d p.down).toList with
      | nil => exact absurd hl hne'
      | cons e es => cases (left d p.down).head? <;> rfl

theorem rekey_of_spine (hne : (leaf d p).toList ≠ [])
    (h : Spine key ((leaf d p).toList.head?.map key) d p) : rekey key d p = p := by
  induction d with
  | zero => rfl
  | succ d ih =>
    have hne' : (leaf d p.down).toList ≠ [] := hne
    have hkey := h.2
    rw [show leaf (d + 1) p = leaf d p.down from rfl, ← firstKey_close key d p.down hne'] at hkey
    rw [rekey, ih hne' h.1]
    cases hf : firstKey key d (close d p.down) with
    | none => rfl
    | some k => rw [← hkey k hf]; rfl

theorem keyed_of_spine (h : Beside key cap d p)
    (hs : Spine key ((leaf d p).toList.head?.map key) d p) (hne : (leaf d p).toList ≠ [])
    (hcap : d ≠ 0 → (leaf d p).toList.length ≤ cap) : Keyed key cap d (close d p) := by
  have := keyed_rekey h (fun _ => hne) hcap
  rwa [rekey_of_spine hne hs] at this

theorem Fits.key_le (h : Fits key cap d P x)
    (hs : (flat d x.child).Pairwise fun y z => key y < key z) {e : α}
    (he : e ∈ flat d x.child) : x.key ≤ key e := by
  obtain ⟨f, hf, hfk⟩ := Option.map_eq_some_iff.mp h.first
  rw [← hfk]
  cases hc : flat d x.child with
  | nil => rw [hc] at hf; nomatch hf
  | cons g gs =>
    rw [hc] at hf hs he
    injection hf with hf
    rw [← hf]
    rcases List.mem_cons.mp he with rfl | he
    · exact Nat.le_refl _
    · exact Nat.le_of_lt (List.rel_of_pairwise_cons hs he)

theorem pairwise_down {R : α → α → Prop} {p : Path α (d + 1)}
    (hs : (flat (d + 1) (close (d + 1) p)).Pairwise R) : (flat d (close d p.down)).Pairwise R := by
  rw [close, flat_append, flat_cons] at hs
  exact (List.pairwise_append.mp (List.pairwise_append.mp hs).2.1).1

theorem routed_of_seek {β : Type} {f : β → Nat} {xs : List β} {z : Zip β} {b : Nat}
    (hs : xs.Pairwise fun x y => f x ≤ f y) (hl : z.toList = xs)
    (hhigh : ∀ y ∈ z.after, b < f y) (hlow : z.before ≠ [] → f z.cur ≤ b) :
    Routed (z.before.map f) (f z.cur) b (z.after.map f) where
  sorted := by
    rw [← List.map_cons, ← List.map_append, List.pairwise_map]
    exact (congrArg (List.Pairwise fun x y => f x ≤ f y) hl).mpr hs
  low h := hlow fun hnil => h (by rw [hnil]; rfl)
  high y hy := by
    obtain ⟨x, hx, rfl⟩ := List.mem_map.mp hy
    exact hhigh x hx

theorem exists_routes {t : Node α d} (h : Keyed key cap d t)
    (hs : (flat d t).Pairwise fun x y => key x < key y) (b : Nat) :
    ∃ p, close d p = t ∧ Routes key b d p := by
  induction d with
  | zero =>
    cases t with
    | nil => exact ⟨⟨[], []⟩, rfl, rfl⟩
    | cons e es =>
      have hs' : (e :: es).Pairwise fun x y => key x ≤ key y := hs.imp Nat.le_of_lt
      obtain ⟨z, -, hl, hhigh, hlow⟩ := seek_spec b (by simp) hs'
      exact ⟨⟨z.before, z.cur :: z.after⟩, hl, routed_of_seek hs' hl hhigh hlow⟩
  | succ d ih =>
    have hs' : List.Pairwise (fun x y => x.key ≤ y.key) t := (h.keys_lt hs).imp Nat.le_of_lt
    obtain ⟨z, -, hl, hhigh, hlow⟩ := seek_spec b h.1 hs'
    have hmem : z.cur ∈ t := hl ▸ z.cur_mem
    obtain ⟨q, hq, hqr⟩ := ih (h.2 _ hmem).inner ((List.pairwise_flatMap.mp hs).1 _ hmem)
    refine ⟨⟨z.before, z.cur.key, z.cur.ptr, q, z.after⟩, ?_,
      routed_of_seek hs' hl hhigh hlow, hqr⟩
    rw [close, hq]
    exact hl

/-- Where a path stands in the sequence of elements: everything behind the
element it points at is above `b`, and that element is not above `b` unless
it is the first of all. -/
structure Located (key : α → Nat) (b d : Nat) (p : Path α d) : Prop where
  high : ∀ y ∈ (leaf d p).after.tail ++ right d p, b < key y
  low : ∀ e ∈ (leaf d p).after.head?, b < key e → left d p ++ (leaf d p).before = []
  empty : (leaf d p).after = [] → flat d (close d p) = []

theorem Routes.located (h : Routes key b d p) (hk : Keyed key cap d (close d p))
    (hs : (flat d (close d p)).Pairwise fun x y => key x < key y) : Located key b d p := by
  induction d with
  | zero =>
    obtain ⟨before, after⟩ := p
    cases after with
    | nil =>
      have hnil : before = [] := h
      subst hnil
      exact ⟨nofun, nofun, fun _ => rfl⟩
    | cons e after =>
      have hr : Routed (before.map key) (key e) b (after.map key) := h
      refine ⟨fun y hy => ?_, fun f hf hb => ?_, nofun⟩
      · have hy' : y ∈ after := by simpa [leaf, right] using hy
        exact hr.high _ (List.mem_map_of_mem hy')
      · injection hf with hf
        subst hf
        by_contra hne
        exact absurd hb (Nat.not_lt.mpr (hr.low fun hnil => hne (List.map_eq_nil_iff.mp hnil)))
  | succ d ih =>
    obtain ⟨hr, hdown⟩ := h
    obtain ⟨-, hcur, hafter⟩ := keyed_succ.mp hk
    have hs' := pairwise_down hs
    obtain ⟨h1, h2, h3⟩ := ih hdown hcur.inner hs'
    refine ⟨fun y hy => ?_, fun e he hb => ?_, fun hnil => absurd (h3 hnil) (flat_ne_nil hcur)⟩
    · show b < key y
      have hy' : y ∈ (leaf d p.down).after.tail ++ right d p.down
          ∨ y ∈ p.after.flatMap fun x => flat d x.child := by
        simpa [leaf, right, or_assoc] using hy
      rcases hy' with hy' | hy'
      · exact h1 y hy'
      · obtain ⟨x, hx, hyx⟩ := List.mem_flatMap.mp hy'
        have hsx : (flat d x.child).Pairwise fun y z => key y < key z := by
          refine (List.pairwise_flatMap.mp hs).1 x ?_
          rw [close]
          simp [hx]
        exact Nat.lt_of_lt_of_le (hr.high _ (List.mem_map_of_mem hx))
          ((hafter x hx).key_le hsx hyx)
    · -- the element is the first below its entry, so the entry is above `b` as well
      have hnil := h2 e he hb
      have hfirst : firstKey key d (close d p.down) = some (key e) := by
        rw [firstKey, flat_close, Cut.toList, ← List.append_assoc, hnil, List.nil_append]
        have he' : (leaf d p.down).after.head? = some e := he
        cases hla : (leaf d p.down).after with
        | nil => rw [hla] at he'; nomatch he'
        | cons f fs => rw [hla] at he'; injection he' with he'; rw [he']; rfl
      have hkey : p.key = key e := Option.some.inj (hcur.first.symm.trans hfirst)
      have hbefore : p.before = [] := by
        by_contra hne
        have := hr.low fun hnil => hne (List.map_eq_nil_iff.mp hnil)
        omega
      show p.before.flatMap (fun x => flat d x.child) ++ left d p.down ++ (leaf d p.down).before
        = []
      rw [hbefore, List.flatMap_nil, List.nil_append, hnil]

/-- A path that stands where the search for `b` ends is the one the search
takes. -/
theorem Located.routes (h : Located key b d p) (hk : Keyed key cap d (close d p))
    (hs : (flat d (close d p)).Pairwise fun x y => key x < key y) : Routes key b d p := by
  induction d with
  | zero =>
    obtain ⟨before, after⟩ := p
    cases after with
    | nil => exact (List.append_eq_nil_iff.mp (h.empty rfl)).1
    | cons e after =>
      have hs' : (before ++ e :: after).Pairwise fun x y => key x ≤ key y := hs.imp Nat.le_of_lt
      refine ⟨?_, fun hne => ?_, fun y hy => ?_⟩
      · rw [← List.map_cons, ← List.map_append, List.pairwise_map]
        exact hs'
      · by_contra hlt
        refine hne ?_
        have hnil := h.low e rfl (Nat.lt_of_not_le hlt)
        have hbefore : before = [] := hnil
        rw [hbefore]
        rfl
      · obtain ⟨f, hf, rfl⟩ := List.mem_map.mp hy
        exact h.high f (List.mem_append.mpr (.inl hf))
  | succ d ih =>
    obtain ⟨hbef, hcur, hafter⟩ := keyed_succ.mp hk
    have hs' := pairwise_down hs
    have hdown : Located key b d p.down := by
      refine ⟨fun y hy => h.high y ?_, fun e he hb => ?_, fun hnil => ?_⟩
      · show y ∈ (leaf d p.down).after.tail ++ (right d p.down ++ _)
        rw [← List.append_assoc]
        exact List.mem_append.mpr (.inl hy)
      · have hnil := h.low e he hb
        rw [left, List.append_assoc] at hnil
        exact (List.append_eq_nil_iff.mp hnil).2
      · have hall := h.empty hnil
        rw [close, flat_append, flat_cons] at hall
        exact absurd (List.append_eq_nil_iff.mp (List.append_eq_nil_iff.mp hall).2).1
          (flat_ne_nil hcur)
    refine ⟨⟨?_, fun hne => ?_, fun k hk' => ?_⟩, ih hdown hcur.inner hs'⟩
    · have hkeys : (p.before ++ ⟨p.key, p.ptr, close d p.down⟩ :: p.after).Pairwise
          fun x y => x.key < y.key := Keyed.keys_lt hk hs
      have := hkeys.imp Nat.le_of_lt
      rwa [← List.pairwise_map, List.map_append, List.map_cons] at this
    · -- an entry in front of the path: the extent of the path is not above `b`
      by_contra hlt
      cases hla : (leaf d p.down).after with
      | nil => exact flat_ne_nil hcur (hdown.empty hla)
      | cons e es =>
        have he : e ∈ flat d (close d p.down) := by
          rw [flat_close, Cut.toList, hla]
          simp
        have hle : p.key ≤ key e := hcur.key_le hs' he
        have hnil := h.low e (by show e ∈ (leaf d p.down).after.head?; rw [hla]; rfl) (by omega)
        rw [left, List.append_assoc] at hnil
        have hbefore := (List.append_eq_nil_iff.mp hnil).1
        cases hb : p.before with
        | nil => exact hne (by rw [hb]; rfl)
        | cons x xs =>
          rw [hb, List.flatMap_cons] at hbefore
          exact flat_ne_nil (hbef x (by simp [hb])) (List.append_eq_nil_iff.mp hbefore).1
    · obtain ⟨x, hx, rfl⟩ := List.mem_map.mp hk'
      obtain ⟨e, he, hek⟩ := Option.map_eq_some_iff.mp (hafter x hx).first
      rw [← hek]
      refine h.high e ?_
      refine List.mem_append.mpr (.inr (List.mem_append.mpr (.inr ?_)))
      exact List.mem_flatMap.mpr ⟨x, hx, List.mem_of_mem_head? he⟩

end Keys

end IndexTree
