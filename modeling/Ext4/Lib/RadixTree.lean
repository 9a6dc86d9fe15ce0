import Mathlib.Algebra.BigOperators.Group.Finset.Basic
import Mathlib.Algebra.BigOperators.Intervals
import Mathlib.Algebra.Order.Group.Multiset

/-!
# Radix trees

A tree whose nodes have numbers and children at the indices of a fixed
radix. A path is the sequence of indices on the way down; the leaves of a
tree of height `h` are the nodes at the end of the paths of length `h`, and
the paths in their order are the numbers below `P ^ h`.
-/

namespace Radix

inductive Tree where
  | hole
  | node (nr : Nat) (kids : Nat → Tree)

abbrev Path := Nat → Nat

/-- The path behind its first step. -/
def rest (xs : Path) : Path := fun m => xs (m + 1)

/-- Two paths agree for `n` steps. -/
def Agree (n : Nat) (xs ys : Path) : Prop := ∀ m < n, xs m = ys m

/-- A path is in front of another one: it is at the first step where they
differ. -/
def Before (n : Nat) (xs ys : Path) : Prop := ∃ m < n, Agree m xs ys ∧ xs m < ys m

section Paths

variable {n m : Nat} {xs ys zs : Path}

theorem Agree.symm (h : Agree n xs ys) : Agree n ys xs := fun m hm => (h m hm).symm

theorem Agree.trans (h : Agree n xs ys) (h' : Agree n ys zs) : Agree n xs zs := fun m hm =>
  (h m hm).trans (h' m hm)

theorem Agree.mono (h : Agree n xs ys) (hm : m ≤ n) : Agree m xs ys := fun k hk =>
  h k (Nat.lt_of_lt_of_le hk hm)

theorem agree_succ : Agree (n + 1) xs ys ↔ Agree n xs ys ∧ xs n = ys n := by
  constructor
  · exact fun h => ⟨h.mono (Nat.le_succ n), h n (Nat.lt_succ_self n)⟩
  · rintro ⟨h, hn⟩ m hm
    rcases Nat.lt_succ_iff_lt_or_eq.mp hm with hlt | rfl
    · exact h m hlt
    · exact hn

theorem agree_rest : Agree (n + 1) xs ys ↔ xs 0 = ys 0 ∧ Agree n (rest xs) (rest ys) := by
  constructor
  · exact fun h => ⟨h 0 (Nat.succ_pos n), fun m hm => h (m + 1) (Nat.succ_lt_succ hm)⟩
  · rintro ⟨h0, h⟩ m hm
    cases m with
    | zero => exact h0
    | succ m => exact h m (Nat.lt_of_succ_lt_succ hm)

theorem exists_first_ne (h : ¬ Agree n xs ys) : ∃ m < n, Agree m xs ys ∧ xs m ≠ ys m := by
  induction n with
  | zero => exact absurd (fun _ hm => absurd hm (Nat.not_lt_zero _)) h
  | succ n ih =>
    by_cases hn : Agree n xs ys
    · exact ⟨n, Nat.lt_succ_self n, hn, fun heq => h (agree_succ.mpr ⟨hn, heq⟩)⟩
    · obtain ⟨m, hm, hag, hne⟩ := ih hn
      exact ⟨m, Nat.lt_succ_of_lt hm, hag, hne⟩

theorem before_rest : Before (n + 1) xs ys ↔
    xs 0 < ys 0 ∨ xs 0 = ys 0 ∧ Before n (rest xs) (rest ys) := by
  constructor
  · rintro ⟨m, hm, hag, hlt⟩
    cases m with
    | zero => exact .inl hlt
    | succ m =>
      obtain ⟨h0, hag⟩ := agree_rest.mp hag
      exact .inr ⟨h0, m, Nat.lt_of_succ_lt_succ hm, hag, hlt⟩
  · rintro (h0 | ⟨h0, m, hm, hag, hlt⟩)
    · exact ⟨0, Nat.succ_pos n, fun _ hm => absurd hm (Nat.not_lt_zero _), h0⟩
    · exact ⟨m + 1, Nat.succ_lt_succ hm, agree_rest.mpr ⟨h0, hag⟩, hlt⟩

theorem Before.asymm (h : Before n xs ys) : ¬ Before n ys xs := by
  rintro ⟨m', -, hag', hlt'⟩
  obtain ⟨m, -, hag, hlt⟩ := h
  rcases Nat.lt_trichotomy m m' with hmm | rfl | hmm
  · have := hag' m hmm
    omega
  · omega
  · have := hag m' hmm
    omega

theorem before_congr_right (h : Agree n ys zs) : Before n xs ys ↔ Before n xs zs := by
  have key : ∀ {ys zs : Path}, Agree n ys zs → Before n xs ys → Before n xs zs := by
    rintro ys zs h ⟨m, hm, hag, hlt⟩
    exact ⟨m, hm, hag.trans (h.mono (Nat.le_of_lt hm)), h m hm ▸ hlt⟩
  exact ⟨key h, key h.symm⟩

end Paths

/-! ## Numbers as paths -/

/-- The digits of a number below `P ^ h`, the highest one first. -/
def digits (P : Nat) : Nat → Nat → Path
  | 0, _ => fun _ => 0
  | h + 1, x => fun m =>
      match m with
      | 0 => x / P ^ h
      | m + 1 => digits P h (x % P ^ h) m

variable {ds : List Nat} {h hi lo nr x : Nat} {kids : Nat → Tree} {t : Tree} {M : Type}

section Digits

variable {P : Nat}

theorem rest_digits (h x : Nat) : rest (digits P (h + 1) x) = digits P h (x % P ^ h) := rfl

theorem digits_lt (hP : 0 < P) {m : Nat} (hx : x < P ^ h) (hm : m < h) : digits P h x m < P := by
  induction h generalizing x m with
  | zero => exact absurd hm (Nat.not_lt_zero m)
  | succ h ih =>
    cases m with
    | zero =>
      rw [Nat.pow_succ] at hx
      exact Nat.div_lt_of_lt_mul hx
    | succ m => exact ih (Nat.mod_lt x (Nat.pow_pos hP)) (Nat.lt_of_succ_lt_succ hm)

theorem lt_iff_before (hP : 0 < P) {y : Nat} (hx : x < P ^ h) (hy : y < P ^ h) :
    x < y ↔ Before h (digits P h x) (digits P h y) := by
  induction h generalizing x y with
  | zero =>
    rw [Nat.pow_zero] at hx hy
    refine iff_of_false (by omega) ?_
    rintro ⟨m, hm, -⟩
    exact absurd hm (Nat.not_lt_zero m)
  | succ h ih =>
    have hpos : 0 < P ^ h := Nat.pow_pos hP
    rw [before_rest, rest_digits, rest_digits,
      ← ih (Nat.mod_lt x hpos) (Nat.mod_lt y hpos)]
    show x < y ↔ x / P ^ h < y / P ^ h ∨ x / P ^ h = y / P ^ h ∧ x % P ^ h < y % P ^ h
    have hx := Nat.div_add_mod x (P ^ h)
    have hy := Nat.div_add_mod y (P ^ h)
    constructor
    · intro hlt
      rcases Nat.lt_or_ge (x / P ^ h) (y / P ^ h) with hd | hd
      · exact .inl hd
      · have hle := Nat.div_le_div_right (c := P ^ h) (Nat.le_of_lt hlt)
        have heq := Nat.le_antisymm hle hd
        rw [heq] at hx
        exact .inr ⟨heq, by omega⟩
    · rintro (hd | ⟨hd, hm⟩)
      · by_contra hge
        exact absurd (Nat.div_le_div_right (c := P ^ h) (Nat.le_of_not_lt hge)) (Nat.not_le.mpr hd)
      · rw [hd] at hx
        omega

/-- The steps of a path as a list. -/
def steps : Nat → Path → List Nat
  | 0, _ => []
  | n + 1, xs => xs 0 :: steps n (rest xs)

/-- The number with the given digits. -/
def ofSteps (P : Nat) : List Nat → Nat
  | [] => 0
  | d :: ds => d * P ^ ds.length + ofSteps P ds

@[simp] theorem length_steps (n : Nat) (xs : Path) : (steps n xs).length = n := by
  induction n generalizing xs with
  | zero => rfl
  | succ n ih => rw [steps, List.length_cons, ih]

variable {n : Nat} {xs ys : Path}

theorem steps_congr (h : Agree n xs ys) : steps n xs = steps n ys := by
  induction n generalizing xs ys with
  | zero => rfl
  | succ n ih =>
    obtain ⟨h0, h⟩ := agree_rest.mp h
    rw [steps, steps, h0, ih h]

theorem steps_append (n : Nat) (xs : Path) : steps (n + 1) xs = steps n xs ++ [xs n] := by
  induction n generalizing xs with
  | zero => rfl
  | succ n ih => rw [steps, ih, steps, List.cons_append, rest]

theorem steps_lt (h : Before n xs ys) : steps n xs < steps n ys := by
  induction n generalizing xs ys with
  | zero => exact absurd h.choose_spec.1 (Nat.not_lt_zero _)
  | succ n ih =>
    rw [steps, steps, List.cons_lt_cons_iff]
    exact (before_rest.mp h).imp_right fun ⟨h0, h⟩ => ⟨h0, ih h⟩

theorem mem_steps_lt (hP : 0 < P) (hx : x < P ^ h) : ∀ d ∈ steps h (digits P h x), d < P := by
  induction h generalizing x with
  | zero => nofun
  | succ h ih =>
    intro d hd
    rw [steps, rest_digits, List.mem_cons] at hd
    rcases hd with rfl | hd
    · exact digits_lt hP hx (Nat.succ_pos h)
    · exact ih (Nat.mod_lt x (Nat.pow_pos hP)) d hd

theorem ofSteps_lt (hds : ∀ d ∈ ds, d < P) : ofSteps P ds < P ^ ds.length := by
  induction ds with
  | nil => exact Nat.one_pos
  | cons d ds ih =>
    have hd : (d + 1) * P ^ ds.length ≤ P * P ^ ds.length :=
      Nat.mul_le_mul_right _ (hds d List.mem_cons_self)
    have := ih fun d' hd' => hds d' (List.mem_cons_of_mem d hd')
    rw [ofSteps, List.length_cons, Nat.pow_succ']
    rw [Nat.succ_mul] at hd
    omega

theorem ofSteps_digits (hP : 0 < P) (h x : Nat) (hx : x < P ^ h) :
    ofSteps P (steps h (digits P h x)) = x := by
  induction h generalizing x with
  | zero =>
    rw [Nat.pow_zero] at hx
    exact (Nat.lt_one_iff.mp hx).symm
  | succ h ih =>
    rw [steps, ofSteps, rest_digits, length_steps, ih _ (Nat.mod_lt x (Nat.pow_pos hP))]
    exact Nat.div_add_mod' x (P ^ h)

theorem steps_ofSteps (hds : ∀ d ∈ ds, d < P) :
    steps ds.length (digits P ds.length (ofSteps P ds)) = ds := by
  induction ds with
  | nil => rfl
  | cons d ds ih =>
    have hds' : ∀ d ∈ ds, d < P := fun d' hd' => hds d' (List.mem_cons_of_mem d hd')
    have hlt := ofSteps_lt hds'
    rw [List.length_cons, steps, rest_digits, ofSteps, Nat.mul_add_mod_self_right,
      Nat.mod_eq_of_lt hlt, ih hds']
    congr 1
    exact Nat.div_eq_of_lt_le (Nat.le_add_right _ _) (by rw [Nat.succ_mul]; omega)

theorem digits_last (hx : x < P ^ (h + 1)) : digits P (h + 1) x h = x % P := by
  induction h generalizing x with
  | zero =>
    rw [Nat.pow_one] at hx
    exact (Nat.div_one x).trans (Nat.mod_eq_of_lt hx).symm
  | succ h ih =>
    have hpos : 0 < P ^ (h + 1) := by
      by_contra h0
      rw [Nat.pow_succ, Nat.eq_zero_of_not_pos h0, Nat.zero_mul] at hx
      exact absurd hx (Nat.not_lt_zero x)
    show digits P (h + 1) (x % P ^ (h + 1)) h = x % P
    rw [ih (Nat.mod_lt x hpos), Nat.pow_succ', Nat.mod_mul_right_mod]

end Digits

/-! ## Nodes along a path -/

namespace Tree

def kid : Tree → Nat → Tree
  | hole, _ => hole
  | node _ kids, i => kids i

def nr? : Tree → Option Nat
  | hole => none
  | node nr _ => some nr

def isHole : Tree → Bool
  | hole => true
  | node .. => false

/-- The node at the end of `n` steps. -/
def walk : Tree → Path → Nat → Tree
  | t, _, 0 => t
  | t, xs, n + 1 => (t.kid (xs 0)).walk (rest xs) n

/-- The number of the leaf `x`. -/
def get (P h : Nat) (t : Tree) (x : Nat) : Option Nat := (t.walk (digits P h x) h).nr?

theorem walk_hole (xs : Path) (n : Nat) : hole.walk xs n = hole := by
  induction n generalizing xs with
  | zero => rfl
  | succ n ih => exact ih (rest xs)

theorem walk_succ (t : Tree) (xs : Path) (n : Nat) :
    t.walk xs (n + 1) = (t.walk xs n).kid (xs n) := by
  induction n generalizing t xs with
  | zero => rfl
  | succ n ih => exact ih (t.kid (xs 0)) (rest xs)

variable {n : Nat} {xs : Path}

theorem walk_congr {ys : Path} (h : Agree n xs ys) (t : Tree) : t.walk xs n = t.walk ys n := by
  induction n with
  | zero => rfl
  | succ n ih =>
    obtain ⟨hn, hlast⟩ := agree_succ.mp h
    rw [walk_succ, walk_succ, ih hn, hlast]

theorem eq_hole (h : t.isHole = true) : t = hole := by
  cases t with
  | hole => rfl
  | node nr kids => cases h

theorem walk_eq_hole {m : Nat} (h : t.walk xs n = hole) (hm : n ≤ m) : t.walk xs m = hole := by
  induction m, hm using Nat.le_induction with
  | base => exact h
  | succ m _ ih => rw [walk_succ, ih, kid]

/-! ## Clearing -/

/-- The children with an index in `[lo, hi)` go. -/
def clear (lo hi : Nat) : Tree → Tree
  | hole => hole
  | node nr kids => node nr fun i => if lo ≤ i ∧ i < hi then hole else kids i

/-- The same at the node at the end of `j` steps. -/
def clearAt : Path → Nat → Nat → Nat → Tree → Tree
  | _, 0, lo, hi, t => t.clear lo hi
  | _, _ + 1, _, _, hole => hole
  | ds, j + 1, lo, hi, node nr kids =>
      node nr (Function.update kids (ds 0) (clearAt (rest ds) j lo hi (kids (ds 0))))

theorem kid_clear (t : Tree) (lo hi i : Nat) :
    (t.clear lo hi).kid i = if lo ≤ i ∧ i < hi then hole else t.kid i := by
  cases t with
  | hole => rw [clear, kid, ite_self]
  | node nr kids => rfl

open Classical in
theorem walk_clearAt (t : Tree) (ds xs : Path) (j lo hi : Nat) (hn : j < n) :
    (t.clearAt ds j lo hi).walk xs n
      = if Agree j xs ds ∧ lo ≤ xs j ∧ xs j < hi then hole else t.walk xs n := by
  induction j generalizing t ds xs n with
  | zero =>
    obtain ⟨n, rfl⟩ : ∃ k, n = k + 1 := ⟨n - 1, by omega⟩
    rw [clearAt, walk, kid_clear, walk]
    by_cases hin : lo ≤ xs 0 ∧ xs 0 < hi
    · rw [if_pos hin, if_pos ⟨fun m hm => absurd hm (Nat.not_lt_zero m), hin⟩, walk_hole]
    · rw [if_neg hin, if_neg fun hc => hin hc.2]
  | succ j ih =>
    obtain ⟨n, rfl⟩ : ∃ k, n = k + 1 := ⟨n - 1, by omega⟩
    cases t with
    | hole => rw [clearAt, walk_hole, ite_self]
    | node nr kids =>
      rw [clearAt, walk, walk]
      show Tree.walk (Function.update kids (ds 0) _ (xs 0)) (rest xs) n = _
      by_cases h0 : xs 0 = ds 0
      · rw [h0, Function.update_self,
          ih (kids (ds 0)) (rest ds) (rest xs) (Nat.lt_of_succ_lt_succ hn)]
        refine if_congr ?_ rfl ?_
        · rw [agree_rest, and_iff_right h0]
          rfl
        · rfl
      · rw [Function.update_of_ne h0, if_neg]
        · rfl
        · exact fun hc => h0 (agree_rest.mp hc.1).1

end Tree

/-! ## Counting nodes -/

/-- A leaf or an inner node, by its number. -/
inductive Block where
  | data (nr : Nat)
  | index (nr : Nat)
deriving DecidableEq, Repr

namespace Tree

variable (P : Nat)

/-- The nodes of a tree of height `h`. -/
def blocks : Nat → Tree → Multiset Block
  | _, hole => 0
  | 0, node nr _ => {.data nr}
  | h + 1, node nr kids => {.index nr} + ∑ i ∈ Finset.range P, blocks h (kids i)

/-- The nodes below the children in `[lo, hi)`, which have height `h`. -/
def kidBlocks (h : Nat) (t : Tree) (lo hi : Nat) : Multiset Block :=
  ∑ i ∈ Finset.Ico lo hi, blocks P h (t.kid i)

variable {P}

theorem blocks_hole (h : Nat) : blocks P h hole = 0 := by cases h <;> rfl

theorem kidBlocks_hole (h lo hi : Nat) : kidBlocks P h hole lo hi = 0 := by
  refine Finset.sum_eq_zero fun i _ => ?_
  rw [kid, blocks_hole]

theorem sum_Ico_eq_sum_ite [AddCommMonoid M] (f : Nat → M) {n : Nat} (hhi : hi ≤ n) :
    ∑ i ∈ Finset.Ico lo hi, f i = ∑ i ∈ Finset.range n, if lo ≤ i ∧ i < hi then f i else 0 := by
  have hsub : Finset.Ico lo hi ⊆ Finset.range n := fun i hi =>
    Finset.mem_range.mpr ((Finset.mem_Ico.mp hi).2.trans_le hhi)
  rw [← Finset.sum_subset hsub fun i _ hi' => if_neg fun hc => hi' (Finset.mem_Ico.mpr hc)]
  exact Finset.sum_congr rfl fun i hi' => (if_pos (Finset.mem_Ico.mp hi')).symm

theorem blocks_clear (h : Nat) (t : Tree) (hhi : hi ≤ P) :
    blocks P (h + 1) (t.clear lo hi) + kidBlocks P h t lo hi = blocks P (h + 1) t := by
  cases t with
  | hole => rw [clear, kidBlocks_hole, Multiset.add_zero]
  | node nr kids =>
    rw [clear, blocks, blocks, kidBlocks, Multiset.add_assoc]
    congr 1
    show _ + ∑ i ∈ Finset.Ico lo hi, blocks P h (kids i) = _
    rw [sum_Ico_eq_sum_ite _ hhi, ← Finset.sum_add_distrib]
    refine Finset.sum_congr rfl fun i _ => ?_
    split
    · rw [blocks_hole, Multiset.zero_add]
    · rw [Multiset.add_zero]

theorem blocks_clearAt (t : Tree) (ds : Path) {j : Nat} (hds : ∀ m < j, ds m < P) (hhi : hi ≤ P) :
    blocks P (h + 1 + j) (t.clearAt ds j lo hi) + kidBlocks P h (t.walk ds j) lo hi
      = blocks P (h + 1 + j) t := by
  induction j generalizing t ds with
  | zero => exact blocks_clear h t hhi
  | succ j ih =>
    cases t with
    | hole => rw [clearAt, walk_hole, kidBlocks_hole, Multiset.add_zero]
    | node nr kids =>
      have hmem : ds 0 ∈ Finset.range P := Finset.mem_range.mpr (hds 0 (Nat.succ_pos j))
      have hkid := ih (kids (ds 0)) (rest ds) fun m hm => hds (m + 1) (Nat.succ_lt_succ hm)
      rw [clearAt, walk, ← Nat.add_assoc, blocks, blocks, Multiset.add_assoc]
      congr 1
      have hrest : ∀ f : Nat → Tree, (∀ i, i ≠ ds 0 → f i = kids i) →
          ∑ i ∈ (Finset.range P).erase (ds 0), blocks P (h + 1 + j) (f i)
            = ∑ i ∈ (Finset.range P).erase (ds 0), blocks P (h + 1 + j) (kids i) := fun f hf =>
        Finset.sum_congr rfl fun i hi => by rw [hf i (Finset.ne_of_mem_erase hi)]
      rw [← Finset.add_sum_erase _ _ hmem,
        ← Finset.add_sum_erase _ (fun i => blocks P (h + 1 + j) (kids i)) hmem,
        hrest _ fun i hi => Function.update_of_ne hi _ _, Function.update_self, ← hkid]
      exact add_right_comm _ _ _

end Tree

/-! ## Leaves -/

def Block.isData : Block → Bool
  | .data _ => true
  | .index _ => false

/-- The block of a leaf, if there is one. -/
def leafBlock : Option Nat → Multiset Block
  | none => 0
  | some nr => {.data nr}

theorem filter_sum {ι : Type} (s : Finset ι) (f : ι → Multiset Block) :
    (∑ i ∈ s, f i).filter (fun b => b.isData = true)
      = ∑ i ∈ s, (f i).filter (fun b => b.isData = true) := by
  classical
  induction s using Finset.induction_on with
  | empty => rfl
  | insert a s ha ih => rw [Finset.sum_insert ha, Finset.sum_insert ha, Multiset.filter_add, ih]

theorem sum_range_mul [AddCommMonoid M] (f : Nat → M) (n k : Nat) :
    ∑ x ∈ Finset.range (n * k), f x = ∑ i ∈ Finset.range n, ∑ r ∈ Finset.range k,
      f (i * k + r) := by
  induction n with
  | zero => rw [Nat.zero_mul, Finset.sum_range_zero, Finset.sum_range_zero]
  | succ n ih => rw [Nat.succ_mul, Finset.sum_range_add, ih, Finset.sum_range_succ]

namespace Tree

variable {P : Nat}

theorem get_hole (h x : Nat) : hole.get P h x = none := by
  rw [get, walk_hole]
  rfl

theorem get_node (hP : 0 < P) (h nr : Nat) (kids : Nat → Tree) {i r : Nat} (hr : r < P ^ h) :
    (node nr kids).get P (h + 1) (i * P ^ h + r) = (kids i).get P h r := by
  have hpos : 0 < P ^ h := Nat.pow_pos hP
  have hdiv : (i * P ^ h + r) / P ^ h = i := by
    rw [Nat.mul_comm, Nat.mul_add_div hpos, Nat.div_eq_of_lt hr, Nat.add_zero]
  have hmod : (i * P ^ h + r) % P ^ h = r := by
    rw [Nat.mul_comm, Nat.mul_add_mod, Nat.mod_eq_of_lt hr]
  rw [get, walk, rest_digits, hmod]
  show ((kids ((i * P ^ h + r) / P ^ h)).walk _ h).nr? = _
  rw [hdiv, get]

theorem filter_blocks (hP : 0 < P) (h : Nat) (t : Tree) :
    (blocks P h t).filter (fun b => b.isData = true)
      = ∑ x ∈ Finset.range (P ^ h), leafBlock (t.get P h x) := by
  induction h generalizing t with
  | zero =>
    rw [Nat.pow_zero, Finset.sum_range_one]
    cases t with
    | hole => rfl
    | node nr kids => rfl
  | succ h ih =>
    cases t with
    | hole =>
      refine (Finset.sum_eq_zero fun x _ => ?_).symm
      rw [get_hole]
      rfl
    | node nr kids =>
      rw [blocks, Multiset.filter_add, filter_sum, Nat.pow_succ, Nat.mul_comm, sum_range_mul]
      rw [show Multiset.filter (fun b => b.isData = true) {Block.index nr} = 0 from rfl,
        Multiset.zero_add]
      refine Finset.sum_congr rfl fun i _ => ?_
      rw [ih]
      refine Finset.sum_congr rfl fun r hr => ?_
      rw [get_node hP h nr kids (Finset.mem_range.mp hr)]

/-! ## Trees without shared nodes -/

theorem mem_blocks {xs : Path} {n : Nat} (hw : t.walk xs n = node nr kids) (hn : n < h)
    (hxs : ∀ m < n, xs m < P) : .index nr ∈ blocks P h t := by
  induction n generalizing t xs h with
  | zero =>
    obtain ⟨h, rfl⟩ : ∃ k, h = k + 1 := ⟨h - 1, by omega⟩
    rw [walk] at hw
    rw [hw, blocks]
    exact Multiset.mem_add.mpr (.inl (Multiset.mem_singleton_self _))
  | succ n ih =>
    obtain ⟨h, rfl⟩ : ∃ k, h = k + 1 := ⟨h - 1, by omega⟩
    cases t with
    | hole => rw [walk_hole] at hw; cases hw
    | node nr' kids' =>
      rw [blocks]
      refine Multiset.mem_add.mpr (.inr (Multiset.mem_sum.mpr ⟨xs 0, ?_, ?_⟩))
      · exact Finset.mem_range.mpr (hxs 0 (Nat.succ_pos n))
      · exact ih hw (Nat.lt_of_succ_lt_succ hn) fun m hm => hxs (m + 1) (Nat.succ_lt_succ hm)

/-- In a tree without shared nodes a number is found in one place. -/
theorem walk_inj {xs ys : Path} {a b : Nat} {kids' : Nat → Tree} (hnd : (blocks P h t).Nodup)
    (hx : t.walk xs a = node nr kids) (hy : t.walk ys b = node nr kids') (ha : a < h) (hb : b < h)
    (hxs : ∀ m < a, xs m < P) (hys : ∀ m < b, ys m < P) : a = b ∧ Agree a xs ys := by
  induction h generalizing t xs ys a b with
  | zero => exact absurd ha (Nat.not_lt_zero a)
  | succ h ih =>
    cases t with
    | hole => rw [walk_hole] at hx; cases hx
    | node nr0 kids0 =>
      rw [blocks] at hnd
      obtain ⟨-, hsum, hdis⟩ := Multiset.nodup_add.mp hnd
      -- the root occurs below itself if only one of the paths ends there
      have hroot : ∀ {zs : Path} {c : Nat} {k : Nat → Tree}, (node nr0 kids0).walk zs (c + 1)
        = node nr0 k →
          c + 1 < h + 1 → (∀ m < c + 1, zs m < P) → False := by
        intro zs c k hw hc hzs
        refine Multiset.disjoint_left.mp hdis (Multiset.mem_singleton_self _)
          (Multiset.mem_sum.mpr ⟨zs 0, Finset.mem_range.mpr (hzs 0 (Nat.succ_pos c)), ?_⟩)
        exact mem_blocks hw (Nat.lt_of_succ_lt_succ hc) fun m hm => hzs (m + 1)
          (Nat.succ_lt_succ hm)
      cases a with
      | zero =>
        cases b with
        | zero => exact ⟨rfl, fun m hm => absurd hm (Nat.not_lt_zero m)⟩
        | succ b =>
          cases hx
          exact (hroot hy hb hys).elim
      | succ a =>
        cases b with
        | zero =>
          cases hy
          exact (hroot hx ha hxs).elim
        | succ b =>
          have hmx := Finset.mem_range.mpr (hxs 0 (Nat.succ_pos a))
          have hmy := Finset.mem_range.mpr (hys 0 (Nat.succ_pos b))
          have hax := Nat.lt_of_succ_lt_succ ha
          have hby := Nat.lt_of_succ_lt_succ hb
          by_cases h0 : xs 0 = ys 0
          · rw [← Finset.add_sum_erase _ _ hmx] at hsum
            have hkid := (Multiset.nodup_add.mp hsum).1
            rw [walk, ← h0] at hy
            obtain ⟨rfl, hag⟩ := ih hkid hx hy hax hby
              (fun m hm => hxs (m + 1) (Nat.succ_lt_succ hm))
              fun m hm => hys (m + 1) (Nat.succ_lt_succ hm)
            exact ⟨rfl, agree_rest.mpr ⟨h0, hag⟩⟩
          · rw [← Finset.add_sum_erase _ _ hmx] at hsum
            obtain ⟨-, -, hdis'⟩ := Multiset.nodup_add.mp hsum
            refine (Multiset.disjoint_left.mp hdis'
              (mem_blocks hx hax fun m hm => hxs (m + 1) (Nat.succ_lt_succ hm)) ?_).elim
            refine Multiset.mem_sum.mpr ⟨ys 0, Finset.mem_erase.mpr ⟨fun hc => h0 hc.symm, hmy⟩, ?_⟩
            exact mem_blocks hy hby fun m hm => hys (m + 1) (Nat.succ_lt_succ hm)

end Tree

end Radix
