import Ext4.Indirect.File
import Mathlib.Data.Set.Card

/-!
# Paths of logical blocks — `ext4_block_to_path`

A path is the list of offsets from the pointer in the inode on. The logical
blocks in their order are the paths in theirs, first by depth and then
lexicographically. A logical block has 32 bits: with blocks of 8 KiB and more
the tree has paths that no logical block has.
-/

namespace Ext4.Indirect

open Radix

/-- The offsets that `ext4_block_to_path` stores. -/
def pathOf (sb : IndSb) (iBlock : Nat) : List Nat :=
  steps (ext4BlockToPath sb iBlock).1 (ext4BlockToPath sb iBlock).2

/-- `*boundary` of `ext4_block_to_path`: the variables `final` and `i_block`
as the branches leave them. -/
def pathBoundary (sb : IndSb) (iBlock : Nat) : Int :=
  let ptrs := sb.addrPerBlock
  let vars : Nat × Nat :=
    if iBlock < EXT4_NDIR_BLOCKS then (EXT4_NDIR_BLOCKS, iBlock)
    else if iBlock - EXT4_NDIR_BLOCKS < ptrs then (ptrs, iBlock - EXT4_NDIR_BLOCKS)
    else if iBlock - EXT4_NDIR_BLOCKS - ptrs < ptrs ^ 2 then
      (ptrs, iBlock - EXT4_NDIR_BLOCKS - ptrs)
    else if (iBlock - EXT4_NDIR_BLOCKS - ptrs - ptrs ^ 2) / ptrs ^ 2 < ptrs then
      (ptrs, iBlock - EXT4_NDIR_BLOCKS - ptrs - ptrs ^ 2)
    else (0, iBlock - EXT4_NDIR_BLOCKS - ptrs - ptrs ^ 2)
  vars.1 - 1 - (vars.2 % ptrs : Nat)

/-- The paths of depth one to four: each slot of the inode has its depth, and
the other offsets are those of pointers in a block. -/
def ValidPath (sb : IndSb) : List Nat → Prop
  | [] => False
  | [i] => i < EXT4_NDIR_BLOCKS
  | slot :: d :: ds => ds.length ≤ 2 ∧ slot = EXT4_IND_BLOCK + ds.length
      ∧ ∀ e ∈ d :: ds, e < sb.addrPerBlock

/-- The order of the paths: by depth, then lexicographic. -/
def PathLt (l l' : List Nat) : Prop := l.length < l'.length ∨ l.length = l'.length ∧ l < l'

/-- The number of paths in front of a path. -/
def pathNumber (sb : IndSb) : List Nat → Nat
  | [] => 0
  | [i] => i
  | _ :: d :: ds => regionStart sb (ds.length + 1) + ofSteps sb.addrPerBlock (d :: ds)

variable {sb : IndSb}

variable {b : Nat}

theorem pathOf_direct (hb : b < EXT4_NDIR_BLOCKS) : pathOf sb b = [b] := by
  rw [pathOf, blockToPath_direct hb]
  rfl

variable {d h x : Nat}

theorem pathOf_region (h3 : h + 1 ≤ 3) (hx : x < sb.addrPerBlock ^ (h + 1)) :
    pathOf sb (regionStart sb (h + 1) + x)
      = (EXT4_IND_BLOCK + h) :: steps (h + 1) (digits sb.addrPerBlock (h + 1) x) := by
  obtain ⟨offsets, heq, h0, hag⟩ := blockToPath_region (Nat.le_add_left 1 h) h3 hx
  rw [pathOf, heq]
  show offsets 0 :: steps (h + 1) (rest offsets) = _
  rw [h0, steps_congr hag, EXT4_IND_BLOCK]
  congr 1
  omega

/-- Every block is direct or in a tree, as `exists_region` says it. -/
theorem exists_tree (hb : b < sb.capacity) : b < EXT4_NDIR_BLOCKS
    ∨ ∃ h x, h + 1 ≤ 3 ∧ x < sb.addrPerBlock ^ (h + 1) ∧ b = regionStart sb (h + 1) + x := by
  refine (exists_region hb).imp_right fun ⟨h, x, h1, h3, hx, heq⟩ => ?_
  obtain ⟨h, rfl⟩ : ∃ k, h = k + 1 := ⟨h - 1, by omega⟩
  exact ⟨h, x, h3, hx, heq⟩

theorem pathOf_valid (hb : b < sb.capacity) : ValidPath sb (pathOf sb b) := by
  rcases exists_tree hb with hdir | ⟨h, x, h3, hx, rfl⟩
  · rw [pathOf_direct hdir]
    exact hdir
  · have hlt := mem_steps_lt (addrPerBlock_pos sb) hx
    rw [pathOf_region h3 hx]
    rw [steps] at hlt ⊢
    refine ⟨?_, ?_, hlt⟩ <;> rw [length_steps]
    omega

theorem pathNumber_pathOf (hb : b < sb.capacity) : pathNumber sb (pathOf sb b) = b := by
  rcases exists_tree hb with hdir | ⟨h, x, h3, hx, rfl⟩
  · rw [pathOf_direct hdir, pathNumber]
  · have hof := ofSteps_digits (addrPerBlock_pos sb) (h + 1) x hx
    rw [pathOf_region h3 hx]
    rw [steps] at hof ⊢
    rw [pathNumber, hof, length_steps]

theorem pathOf_pathNumber {l : List Nat} (hl : ValidPath sb l) :
    pathNumber sb l < sb.capacity ∧ pathOf sb (pathNumber sb l) = l := by
  match l, hl with
  | [i], hi =>
    have := ndir_le_regionStart sb (show 1 ≤ 4 by decide)
    rw [capacity_eq, pathNumber, pathOf_direct hi]
    exact ⟨Nat.lt_of_lt_of_le hi this, rfl⟩
  | slot :: d :: ds, ⟨hlen, hslot, hds⟩ =>
    have hlt := ofSteps_lt hds
    rw [capacity_eq, pathNumber, pathOf_region (by omega) hlt]
    refine ⟨region_lt (Nat.succ_pos _) (by omega) hlt, ?_⟩
    exact congrArg₂ _ hslot.symm (steps_ofSteps hds)

theorem pathOf_lt {b b' : Nat} (hlt : b < b') (hb' : b' < sb.capacity) :
    PathLt (pathOf sb b) (pathOf sb b') := by
  have hP := addrPerBlock_pos sb
  rcases exists_tree (hlt.trans hb') with hdir | ⟨h, x, h3, hx, rfl⟩
  · rw [pathOf_direct hdir]
    rcases exists_tree hb' with hdir' | ⟨h', x', h3', hx', rfl⟩
    · rw [pathOf_direct hdir']
      exact .inr ⟨rfl, List.cons_lt_cons_iff.mpr (.inl hlt)⟩
    · rw [pathOf_region h3' hx']
      exact .inl (by simp)
  · rw [pathOf_region h3 hx]
    rcases exists_tree hb' with hdir' | ⟨h', x', h3', hx', rfl⟩
    · have := ndir_le_regionStart sb (Nat.le_add_left 1 h)
      omega
    · rw [pathOf_region h3' hx']
      rcases Nat.lt_trichotomy h h' with hh | rfl | hh
      · exact .inl (by simpa using hh)
      · refine .inr ⟨by simp, List.cons_lt_cons_iff.mpr (.inr ⟨rfl, steps_lt ?_⟩)⟩
        exact (lt_iff_before hP hx hx').mp (by omega)
      · have := region_lt (Nat.le_add_left 1 h') (show h' + 1 < h + 1 by omega) hx'
        omega

/-! ## The boundary -/

theorem pathBoundary_region (h3 : h + 1 ≤ 3) (hx : x < sb.addrPerBlock ^ (h + 1)) :
    pathBoundary sb (regionStart sb (h + 1) + x)
      = sb.addrPerBlock - 1 - (x % sb.addrPerBlock : Nat) := by
  have hnd := ndir_le_regionStart sb (Nat.le_add_left 1 h)
  rw [pathBoundary, if_neg (by omega)]
  obtain rfl | rfl | rfl : h = 0 ∨ h = 1 ∨ h = 2 := by omega
  · rw [Nat.pow_one] at hx
    rw [regionStart, Nat.add_sub_cancel_left, if_pos hx]
  · have hb : regionStart sb 2 + x = EXT4_NDIR_BLOCKS + (sb.addrPerBlock + x) := by
      show EXT4_NDIR_BLOCKS + sb.addrPerBlock ^ 1 + x = _
      rw [Nat.pow_one]
      omega
    rw [hb, Nat.add_sub_cancel_left, if_neg (by omega), Nat.add_sub_cancel_left, if_pos hx]
  · have hdiv : x / sb.addrPerBlock ^ 2 < sb.addrPerBlock := by
      rw [Nat.pow_succ] at hx
      exact Nat.div_lt_of_lt_mul hx
    have hb : regionStart sb 3 + x
        = EXT4_NDIR_BLOCKS + (sb.addrPerBlock + (sb.addrPerBlock ^ 2 + x)) := by
      show EXT4_NDIR_BLOCKS + sb.addrPerBlock ^ 1 + sb.addrPerBlock ^ 2 + x = _
      rw [Nat.pow_one]
      omega
    rw [hb, Nat.add_sub_cancel_left, if_neg (by omega), Nat.add_sub_cancel_left, if_neg (by omega),
      Nat.add_sub_cancel_left, if_pos hdiv]

/-- The pointers behind the one at `d`, where a block has `n`. -/
theorem ncard_further {n : Nat} {V : Nat → Prop} (hV : ∀ i, V i ↔ i < n) :
    {i | d < i ∧ V i}.ncard = n - 1 - d := by
  have : {i | d < i ∧ V i} = ↑(Finset.Ioo d n) := by
    ext i
    simp [hV]
  rw [this, Set.ncard_coe_finset, Nat.card_Ioo, Nat.sub_right_comm]

/-- The last offset of a path through an indirect block can be any other one. -/
theorem validPath_last {slot : Nat} {ds : List Nat} (h : ValidPath sb ((slot :: ds) ++ [d]))
    (i : Nat) : ValidPath sb ((slot :: ds) ++ [i]) ↔ i < sb.addrPerBlock := by
  cases ds with
  | nil =>
    obtain ⟨hlen, hslot, -⟩ := h
    exact ⟨fun h => h.2.2 i List.mem_cons_self, fun hi => ⟨hlen, hslot, by simpa using hi⟩⟩
  | cons e ds =>
    obtain ⟨hlen, hslot, hall⟩ := h
    constructor
    · exact fun h => h.2.2 i (by simp)
    · refine fun hi => ⟨?_, ?_, fun e' he' => ?_⟩
      · simpa using hlen
      · simpa using hslot
      · simp only [List.mem_cons, List.append_eq, List.mem_append, List.not_mem_nil,
          or_false] at he' hall
        rcases he' with he' | he' | rfl
        · exact hall e' (.inl he')
        · exact hall e' (.inr (.inl he'))
        · exact hi

/-- The boundary counts the pointers behind that of the block, in the block
that has its pointer. -/
theorem pathBoundary_spec (hb : b < sb.capacity) :
    ∃ p d, pathOf sb b = p ++ [d]
      ∧ pathBoundary sb b = ({i | d < i ∧ ValidPath sb (p ++ [i])}.ncard : Int) := by
  have hP := addrPerBlock_pos sb
  have h256 : 2 ^ 8 ≤ sb.addrPerBlock :=
    Nat.pow_le_pow_right (by decide) (Nat.le_sub_of_add_le sb.blocksizeBits_ge)
  have hvalid := pathOf_valid hb
  rcases exists_tree hb with hdir | ⟨h, x, h3, hx, rfl⟩
  · refine ⟨[], b, pathOf_direct hdir, ?_⟩
    rw [ncard_further (n := EXT4_NDIR_BLOCKS) fun i => by rfl, pathBoundary, if_pos hdir]
    rw [EXT4_NDIR_BLOCKS] at hdir ⊢
    rw [Nat.mod_eq_of_lt (by omega)]
    omega
  · have hpath : pathOf sb (regionStart sb (h + 1) + x)
        = ((EXT4_IND_BLOCK + h) :: steps h (digits sb.addrPerBlock (h + 1) x))
          ++ [x % sb.addrPerBlock] := by
      rw [pathOf_region h3 hx, steps_append, digits_last hx, List.cons_append]
    refine ⟨_, _, hpath, ?_⟩
    rw [ncard_further (validPath_last (hpath ▸ hvalid)), pathBoundary_region h3 hx]
    have := Nat.mod_lt x hP
    omega

/-! ## All paths -/

theorem capacity_le (hbits : sb.blocksizeBits ≤ 12) : sb.capacity ≤ 2 ^ 32 := by
  have h1 : sb.addrPerBlock ≤ 2 ^ 10 := Nat.pow_le_pow_right (by decide) (by omega)
  have h2 := Nat.pow_le_pow_left h1 2
  have h3 := Nat.pow_le_pow_left h1 3
  rw [IndSb.capacity, EXT4_NDIR_BLOCKS]
  omega

/-- `ext4_block_to_path` as a map from the 32-bit blocks that the tree has a
place for. -/
theorem blockToPath_bijection (sb : IndSb) :
    Set.BijOn (pathOf sb) {b | b < 2 ^ 32 ∧ b < sb.capacity}
      {l | ValidPath sb l ∧ pathNumber sb l < 2 ^ 32}
    ∧ (sb.blocksizeBits ≤ 12 → ∀ l, ValidPath sb l → pathNumber sb l < 2 ^ 32)
    ∧ (∀ b b', b < b' → b' < 2 ^ 32 → b' < sb.capacity → PathLt (pathOf sb b) (pathOf sb b'))
    ∧ ∀ b < 2 ^ 32, b < sb.capacity → ∃ p d, pathOf sb b = p ++ [d]
      ∧ pathBoundary sb b = ({i | d < i ∧ ValidPath sb (p ++ [i])}.ncard : Int) := by
  have hinv : Set.InvOn (pathNumber sb) (pathOf sb) {b | b < 2 ^ 32 ∧ b < sb.capacity}
      {l | ValidPath sb l ∧ pathNumber sb l < 2 ^ 32} :=
    ⟨fun b hb => pathNumber_pathOf hb.2, fun l hl => (pathOf_pathNumber hl.1).2⟩
  refine ⟨hinv.bijOn ?_ ?_, ?_, ?_, ?_⟩
  · exact fun b hb => ⟨pathOf_valid hb.2, (pathNumber_pathOf hb.2).symm ▸ hb.1⟩
  · exact fun l hl => ⟨hl.2, (pathOf_pathNumber hl.1).1⟩
  · exact fun hbits l hl => Nat.lt_of_lt_of_le (pathOf_pathNumber hl).1 (capacity_le hbits)
  · exact fun b b' hlt _ hb' => pathOf_lt hlt hb'
  · exact fun b _ hb => pathBoundary_spec hb

/-- With blocks of 8 KiB the last path is that of no 32-bit block. -/
theorem blockToPath_missed : ValidPath sb8k [14, 2047, 2047, 2047]
    ∧ ∀ b < 2 ^ 32, b < sb8k.capacity → pathOf sb8k b ≠ [14, 2047, 2047, 2047] := by
  refine ⟨⟨by decide, by decide, by decide⟩, fun b hb hcap hpath => ?_⟩
  have hnum := pathNumber_pathOf hcap
  rw [hpath, show pathNumber sb8k [14, 2047, 2047, 2047] = 8594130955 by decide +kernel] at hnum
  omega

end Ext4.Indirect
