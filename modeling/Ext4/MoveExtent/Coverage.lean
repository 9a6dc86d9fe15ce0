import Ext4.Extents.Lookup
import Mathlib.Data.Fintype.Pigeonhole
import Mathlib.Logic.Function.Iterate

/-!
# Online defragmentation — the check of a range

`mext_check_coverage` (move_extent.c) asks whether a range of a file is all
written or all unwritten. It looks the extent at its position up and goes on by
the whole length of that extent, which leads to its end only from its
beginning. In a hole the lookup ends at a neighbour, whose state and length are
taken for those of the hole.
-/

namespace Ext4.MoveExtent

open Ext4.Extents IndexTree
open Ext4.ExtentsStatus (extMaxBlocks)

/-- Errors of a lookup; `tree` is one of the extent code. -/
inductive MextErr where
  | enodata
  | tree (e : Errno)
deriving DecidableEq, Repr

/-- `get_ext_path`, with the extent of the path. -/
def getExtPath (readErr : Option Errno) (t : ExtTree) (lblk : Nat) :
    Except MextErr (ExtPath × Extent) :=
  match findExtent readErr t lblk with
  | .error e => .error (.tree e)
  | .ok p =>
      match (leaf p.depth p.path).after with
      | [] => .error .enodata
      | ex :: _ => .ok (p, ex)

/-- The loop of `mext_check_coverage`, in 32 bits. A turn depends on `block`
alone, so a loop with more turns than there are blocks never ends. -/
def coverageLoop (read : Nat → Option Errno) (t : ExtTree) (unwritten : Bool) (last : Nat) :
    (fuel : Nat) → (block : Nat) → Except MextErr Bool
  | 0, _ => .error (.tree .bug)
  | fuel + 1, block =>
      if last ≤ block then .ok true
      else
        match getExtPath (read block) t block with
        | .error e => .error e
        | .ok (_, ex) =>
            if unwritten ≠ ext4ExtIsUnwritten ex then .ok false
            else
              coverageLoop read t unwritten last fuel ((block + ext4ExtGetActualLen ex) % 2 ^ 32)

/-- `mext_check_coverage`. -/
def mextCheckCoverage (read : Nat → Option Errno) (t : ExtTree) (unwritten : Bool)
    (block count : Nat) : Except MextErr Bool :=
  coverageLoop read t unwritten ((block + count) % 2 ^ 32) (2 ^ 32 + 1) block

/-! ## What the loop looks at -/

/-- The extent a lookup ends at: the one that has the block, in a hole the last
one in front of it, or else the first one of the file. -/
def nearest (t : ExtTree) (b : Nat) : Option Extent :=
  (t.extents.filter fun ex => ex.eeBlock ≤ b).getLast?.or t.extents.head?

/-- The state a turn of the loop finds, if the lookup ends at an extent. -/
def seen (read : Nat → Option Errno) (t : ExtTree) (b : Nat) : Option Bool :=
  if (read b).isSome then none else (nearest t b).map ext4ExtIsUnwritten

/-- The block a turn goes on at. -/
def goesOn (t : ExtTree) (b : Nat) : Nat :=
  (b + ((nearest t b).map ext4ExtGetActualLen).getD 0) % 2 ^ 32

/-- The state of a block. -/
def state (m : Nat → Option (Nat × Bool)) (x : Nat) : Option Bool := (m x).map Prod.snd

section Turns

variable {blocksize : Nat} {t : ExtTree} {read : Nat → Option Errno} {unwritten : Bool}
  {b last : Nat}

theorem nearest_of_found {p : ExtPath} (h : Found t b p) :
    nearest t b = (leaf p.depth p.path).after.head? := by
  cases hafter : (leaf p.depth p.path).after with
  | nil =>
    have hnil : t.extents = [] := by
      rw [← h.tree_eq]
      exact h.located.empty hafter
    rw [nearest, hnil]
    rfl
  | cons ex rest =>
    have hext := h.extents_eq hafter
    -- what is behind the extent found begins behind the block
    have hbehind : (rest ++ right p.depth p.path).filter (fun y => decide (y.eeBlock ≤ b))
        = [] := by
      refine List.filter_eq_nil_iff.mpr fun y hy => ?_
      rw [decide_eq_true_eq]
      exact Nat.not_le.mpr (h.located.high y (by rw [hafter]; exact hy))
    rw [nearest, hext, List.filter_append, List.filter_cons, hbehind]
    by_cases hle : ex.eeBlock ≤ b
    · rw [if_pos (decide_eq_true hle), List.getLast?_append]
      rfl
    · have hnil := h.located.low ex (by rw [hafter]; rfl) (Nat.lt_of_not_le hle)
      rw [hnil, if_neg (by rw [decide_eq_true_eq]; exact hle)]
      rfl

/-- A turn of the loop, in terms of the extents of the file. -/
theorem coverageLoop_turn (ht : t.Ok blocksize) (hd : t.depth ≤ ext4MaxExtentDepth) (fuel : Nat) :
    coverageLoop read t unwritten last (fuel + 1) b = .ok true
      ↔ last ≤ b ∨ seen read t b = some unwritten
        ∧ coverageLoop read t unwritten last fuel (goesOn t b) = .ok true := by
  rw [coverageLoop]
  by_cases hle : last ≤ b
  · rw [if_pos hle]
    exact iff_of_true rfl (.inl hle)
  rw [if_neg hle, or_iff_right hle, seen, getExtPath]
  cases read b with
  | some e => exact iff_of_false (by simp [findExtent]) (by simp)
  | none =>
    rw [findExtent]
    obtain ⟨p, hp, -, -⟩ := ext4FindExtent_spec ht hd b
    have hnear := nearest_of_found (found_of_find ht hp)
    rw [goesOn, hnear, hp]
    dsimp only
    cases (leaf t.depth p).after with
    | nil => exact iff_of_false (by simp) (by simp)
    | cons ex rest =>
      by_cases hu : unwritten = ext4ExtIsUnwritten ex
      · simp [hu]
      · simp [hu, Ne.symm hu]

/-- The loop returns 1 if it leaves the range and has seen the expected state
at each of its positions. -/
theorem coverageLoop_iff (ht : t.Ok blocksize) (hd : t.depth ≤ ext4MaxExtentDepth) (fuel : Nat) :
    ∀ b, coverageLoop read t unwritten last fuel b = .ok true
      ↔ ∃ k < fuel, last ≤ (goesOn t)^[k] b
        ∧ ∀ j < k, seen read t ((goesOn t)^[j] b) = some unwritten := by
  induction fuel with
  | zero => exact fun b => iff_of_false (by simp [coverageLoop]) (by simp)
  | succ fuel ih =>
    intro b
    rw [coverageLoop_turn ht hd, ih]
    constructor
    · rintro (hle | ⟨hb, k, hk, hle, hall⟩)
      · exact ⟨0, Nat.succ_pos _, hle, by simp⟩
      · refine ⟨k + 1, Nat.succ_lt_succ hk, hle, fun j hj => ?_⟩
        cases j with
        | zero => exact hb
        | succ j => exact hall j (Nat.lt_of_succ_lt_succ hj)
    · rintro ⟨k, hk, hle, hall⟩
      cases k with
      | zero => exact .inl hle
      | succ k =>
        exact .inr ⟨hall 0 (Nat.succ_pos _), k, Nat.lt_of_succ_lt_succ hk, hle,
          fun j hj => hall (j + 1) (Nat.succ_lt_succ hj)⟩

/-- A walk over numbers below `n` that leaves them does so within `n` steps:
up to then no number comes twice. -/
theorem exists_iterate_le {f : Nat → Nat} {n b : Nat} (h : ∃ k, n ≤ f^[k] b) :
    ∃ k ≤ n, n ≤ f^[k] b ∧ ∀ j, n ≤ f^[j] b → k ≤ j := by
  refine ⟨Nat.find h, Nat.le_of_not_lt fun hlt => ?_, Nat.find_spec h,
    fun j hj => Nat.find_min' h hj⟩
  obtain ⟨i, j, hne, heq⟩ := Fintype.exists_ne_map_eq_of_card_lt
    (fun k : Fin (n + 1) => (⟨f^[k] b, Nat.lt_of_not_le (Nat.find_min h (by omega))⟩ : Fin n))
    (by simp)
  have hskip : ∀ i j : Fin (n + 1), i < j → f^[i] b = f^[j] b → False := by
    intro i j hij heq
    -- without the way from one to the other the walk would be shorter
    have hshort : n ≤ f^[Nat.find h - j + i] b := by
      rw [Function.iterate_add_apply, heq, ← Function.iterate_add_apply,
        Nat.sub_add_cancel (by omega)]
      exact Nat.find_spec h
    have := Nat.find_min' h hshort
    omega
  rcases Nat.lt_or_gt_of_ne (fun h => hne (Fin.ext h)) with hij | hij
  · exact hskip i j hij (Fin.mk.inj heq)
  · exact hskip j i hij (Fin.mk.inj heq).symm

end Turns

/-! ## When the answer is right -/

/-- What the answer for the blocks of `[block, last)` depends on: the loop must
come to an extent in the other state if a block is in it or in no extent at
all, and otherwise see the expected state alone until it leaves the range. -/
structure Judged (read : Nat → Option Errno) (t : ExtTree) (unwritten : Bool) (block last : Nat) :
    Prop where
  notices : ∀ b, block ≤ b → b < last → state t.mapping b ≠ some unwritten →
    ∀ k, last ≤ (goesOn t)^[k] block → ∃ j < k, seen read t ((goesOn t)^[j] block) ≠ some unwritten
  leaves : (∀ b, block ≤ b → b < last → state t.mapping b = some unwritten) →
    ∃ k, last ≤ (goesOn t)^[k] block
      ∧ ∀ j < k, seen read t ((goesOn t)^[j] block) = some unwritten

/-- Two written extents. -/
def writtenRoot : ExtTree := ⟨0, [⟨0, 4, 100⟩, ⟨4, 4, 200⟩]⟩

/-- Blocks 0 to 3 are unwritten, block 4 is written. -/
def mixedRoot : ExtTree := ⟨0, [⟨0, 4 + 2 ^ 15, 100⟩, ⟨4, 1, 200⟩]⟩

end Ext4.MoveExtent
