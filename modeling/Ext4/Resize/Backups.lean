import Mathlib.Algebra.Order.Ring.Nat
import Mathlib.Data.Nat.Prime.Basic
import Mathlib.Tactic.Common

/-!
# Resizing — the backups of the superblock and the descriptors

After a resize `update_backups` (resize.c) copies the superblock and the
changed descriptor blocks to other groups. Which groups keep such a copy, and
in which block, is decided by `ext4_bg_has_super` and `ext4_bg_num_gdb`
(balloc.c); `update_backups` finds them on its own, with `ext4_list_backups`
or from the position of a meta block group.

`ext4_list_backups` does not know `sparse_super2`, its counters are 32 bits
wide, and `ext4_flex_group_add` takes every descriptor block of a file system
with `meta_bg` for one of a meta block group, also those in front of
`s_first_meta_bg`.
-/

namespace Ext4.Resize

/-- The superblock, as far as the copies depend on it. -/
structure ResizeSb where
  sparseSuper : Bool
  sparseSuper2 : Bool
  metaBg : Bool
  sBackupBgs : Nat × Nat
  sFirstMetaBg : Nat
  sDescPerBlock : Nat
  blocksPerGroup : Nat
  blocksize : Nat
  sFirstDataBlock : Nat
  /-- `s_sbh->b_blocknr` -/
  sbhBlocknr : Nat
  sGroupsCount : Nat
  sGdbCount : Nat
deriving DecidableEq, Repr

/-! ## Where the copies are -/

def testRootLoop (b : Nat) : Nat → Nat → Bool
  | 0, _ => false
  | fuel + 1, a =>
      if a < b then false
      else if a = b then true
      else if a % b ≠ 0 then false
      else testRootLoop b fuel (a / b)

/-- `test_root`. Every turn makes `a` smaller. -/
def testRoot (a b : Nat) : Bool := testRootLoop b (a + 1) a

def ext4BgHasSuper (sb : ResizeSb) (group : Nat) : Nat :=
  if group = 0 then 1
  else if sb.sparseSuper2 then
    if group = sb.sBackupBgs.1 ∨ group = sb.sBackupBgs.2 then 1 else 0
  else if group ≤ 1 ∨ !sb.sparseSuper then 1
  else if group % 2 = 0 then 0
  else if testRoot group 3 ∨ testRoot group 5 ∨ testRoot group 7 then 1
  else 0

def ext4BgNumGdbMeta (sb : ResizeSb) (group : Nat) : Nat :=
  let metagroup := group / sb.sDescPerBlock
  let first := metagroup * sb.sDescPerBlock
  let last := first + sb.sDescPerBlock - 1
  if group = first ∨ group = first + 1 ∨ group = last then 1 else 0

def ext4BgNumGdbNometa (sb : ResizeSb) (group : Nat) : Nat :=
  if ext4BgHasSuper sb group = 0 then 0
  else if sb.metaBg then sb.sFirstMetaBg
  else sb.sGdbCount

def ext4BgNumGdb (sb : ResizeSb) (group : Nat) : Nat :=
  let metagroup := group / sb.sDescPerBlock
  if !sb.metaBg ∨ metagroup < sb.sFirstMetaBg then ext4BgNumGdbNometa sb group
  else ext4BgNumGdbMeta sb group

def ext4GroupFirstBlockNo (sb : ResizeSb) (group : Nat) : Nat :=
  group * sb.blocksPerGroup + sb.sFirstDataBlock

/-- `descriptor_loc` (super.c). -/
def descriptorLoc (sb : ResizeSb) (nr : Nat) : Nat :=
  if !sb.metaBg ∨ nr < sb.sFirstMetaBg then sb.sbhBlocknr + nr + 1
  else
    let bg := sb.sDescPerBlock * nr
    let hasSuper := if ext4BgHasSuper sb bg = 0 then 0 else 1
    let hasSuper :=
      if sb.blocksize = 1024 ∧ nr = 0 ∧ sb.sFirstDataBlock = 0 then hasSuper + 1 else hasSuper
    hasSuper + ext4GroupFirstBlockNo sb bg

/-- What is copied: the superblock, or a block of descriptors. -/
inductive Copy where
  | super
  | desc (nr : Nat)
deriving DecidableEq, Repr

/-- The descriptor block that is the `i`-th one of a group. -/
def gdbOf (sb : ResizeSb) (group i : Nat) : Nat :=
  if !sb.metaBg ∨ group / sb.sDescPerBlock < sb.sFirstMetaBg then i
  else group / sb.sDescPerBlock + i

/-- The block is the one that the group keeps for the copy. A group begins with
`ext4_bg_has_super` blocks for the superblock and then has `ext4_bg_num_gdb`
blocks for descriptors. -/
def Reserved (sb : ResizeSb) (group : Nat) (block : Nat) : Copy → Prop
  | .super => ext4BgHasSuper sb group = 1 ∧ block = ext4GroupFirstBlockNo sb group
  | .desc nr => ∃ i, i < ext4BgNumGdb sb group ∧ nr = gdbOf sb group i
      ∧ block = ext4GroupFirstBlockNo sb group + ext4BgHasSuper sb group + i

/-! ## Where the copies are written -/

/-- The variables of the callers of `ext4_list_backups`, unsigned and of 32
bits. -/
structure Counters where
  three : Nat
  five : Nat
  seven : Nat
deriving DecidableEq, Repr

def Counters.init : Counters := ⟨1, 5, 7⟩

/-- `ext4_list_backups`. -/
def ext4ListBackups (sb : ResizeSb) (c : Counters) : Nat × Counters :=
  if !sb.sparseSuper then (c.three, { c with three := (c.three + 1) % 2 ^ 32 })
  else if c.five < c.three then
    if c.seven < c.five then (c.seven, { c with seven := c.seven * 7 % 2 ^ 32 })
    else (c.five, { c with five := c.five * 5 % 2 ^ 32 })
  else if c.seven < c.three then (c.seven, { c with seven := c.seven * 7 % 2 ^ 32 })
  else (c.three, { c with three := c.three * 3 % 2 ^ 32 })

/-- The groups that calls of `ext4_list_backups` return, from `group` on, as
long as they are below the group count. -/
def listedBackups (sb : ResizeSb) : Nat → Nat → Counters → Option (List Nat)
  | 0, _, _ => none
  | fuel + 1, group, c =>
      if group < sb.sGroupsCount then
        match listedBackups sb fuel (ext4ListBackups sb c).1 (ext4ListBackups sb c).2 with
        | none => none
        | some groups => some (group :: groups)
      else some []

/-- All of them. -/
def backupGroups (sb : ResizeSb) : Option (List Nat) :=
  listedBackups sb (sb.sGroupsCount + 1) (ext4ListBackups sb .init).1 (ext4ListBackups sb .init).2

/-- The loop of `update_backups`: the blocks it overwrites. `abort` says at
which turn the journal or the memory fails. -/
def updateLoop (sb : ResizeSb) (abort : Nat → Bool) (blkOff : Nat) (metaBg : Bool) (last : Nat) :
    Nat → Nat → Nat → Counters → Option (List Nat)
  | 0, _, _, _ => none
  | fuel + 1, turn, group, c =>
      if group < sb.sGroupsCount then
        if abort turn then some []
        else
          let backupBlock :=
            if metaBg then ext4GroupFirstBlockNo sb group + ext4BgHasSuper sb group
            else group * sb.blocksPerGroup + blkOff
          let rest :=
            if !metaBg then
              updateLoop sb abort blkOff metaBg last fuel (turn + 1) (ext4ListBackups sb c).1
                (ext4ListBackups sb c).2
            else if group = last then some []
            else updateLoop sb abort blkOff metaBg last fuel (turn + 1) last c
          match rest with
          | none => none
          | some blocks => some (backupBlock :: blocks)
      else some []

def updateBackups (sb : ResizeSb) (abort : Nat → Bool) (blkOff : Nat) (metaBg : Bool) :
    Option (List Nat) :=
  if !metaBg then
    updateLoop sb abort blkOff metaBg sb.sGroupsCount (sb.sGroupsCount + 1) 0
      (ext4ListBackups sb .init).1 (ext4ListBackups sb .init).2
  else
    let group := (blkOff - sb.sFirstDataBlock) / sb.blocksPerGroup + 1
    let last := (group + sb.sDescPerBlock - 2) % 2 ^ 32
    updateLoop sb abort blkOff metaBg last (sb.sGroupsCount + 1) 0 group .init

/-- The loop of `ext4_flex_group_add` over `n` descriptor blocks. -/
def gdbBackups (sb : ResizeSb) (abort : Nat → Nat → Bool) :
    Nat → Nat → Nat → Option (List (Copy × Nat))
  | 0, _, _ => some []
  | n + 1, gdbNum, oldGdb =>
      let blocknr := descriptorLoc sb gdbNum
      if oldGdb = blocknr then gdbBackups sb abort n (gdbNum + 1) oldGdb
      else
        match updateBackups sb (abort (gdbNum + 1)) blocknr sb.metaBg,
            gdbBackups sb abort n (gdbNum + 1) blocknr with
        | some blocks, some rest => some (blocks.map (fun b => (.desc gdbNum, b)) ++ rest)
        | _, _ => none

/-- The end of `ext4_flex_group_add`, which has added `count` groups from
`group` on: what it writes to which blocks. -/
def flexGroupBackups (sb : ResizeSb) (abort : Nat → Nat → Bool) (group count : Nat) :
    Option (List (Copy × Nat)) :=
  let gdbNum := group / sb.sDescPerBlock
  let gdbNumEnd := (group + count - 1) / sb.sDescPerBlock
  match updateBackups sb (abort 0) sb.sbhBlocknr false,
      gdbBackups sb abort (gdbNumEnd + 1 - gdbNum) gdbNum 0 with
  | some blocks, some rest => some (blocks.map (fun b => (.super, b)) ++ rest)
  | _, _ => none

/-! ## Powers -/

variable {a fuel g group nr : Nat}

theorem testRootLoop_iff {b : Nat} (hb : 2 ≤ b) (hfuel : a < fuel) :
    testRootLoop b fuel a = true ↔ ∃ i, a = b ^ (i + 1) := by
  induction fuel generalizing a with
  | zero => omega
  | succ fuel ih =>
    have hpow : ∀ i, b ≤ b ^ (i + 1) := fun i => Nat.le_self_pow (Nat.succ_ne_zero i) b
    rw [testRootLoop]
    split
    · rename_i hlt
      refine iff_of_false Bool.false_ne_true ?_
      rintro ⟨i, rfl⟩
      have := hpow i
      omega
    · split
      · rename_i heq
        exact ⟨fun _ => ⟨0, by rw [heq, Nat.zero_add, Nat.pow_one]⟩, fun _ => rfl⟩
      · rename_i hlt hne
        split
        · rename_i hmod
          refine ⟨nofun, fun ⟨i, hi⟩ => absurd ?_ hmod⟩
          rw [hi, Nat.pow_succ, Nat.mul_mod_left]
        · rename_i hmod
          have hdiv : b * (a / b) = a :=
            Nat.mul_div_cancel' (Nat.dvd_of_mod_eq_zero (Decidable.not_not.mp hmod))
          rw [ih (by have := Nat.div_lt_self (show 0 < a by omega) hb; omega)]
          constructor
          · rintro ⟨i, hi⟩
            exact ⟨i + 1, by rw [← hdiv, hi, Nat.mul_comm, ← pow_succ]⟩
          · rintro ⟨i, hi⟩
            cases i with
            | zero => exact absurd (hi.trans (by rw [Nat.zero_add, Nat.pow_one])) hne
            | succ i =>
              refine ⟨i, Nat.eq_of_mul_eq_mul_left (show 0 < b by omega) ?_⟩
              rw [hdiv, hi, Nat.pow_succ _ (i + 1), Nat.mul_comm]

theorem testRoot_iff {b : Nat} (hb : 2 ≤ b) : testRoot a b = true ↔ ∃ i, a = b ^ (i + 1) :=
  testRootLoop_iff hb (Nat.lt_succ_self a)

/-- A power of `b`. -/
def IsPow (b g : Nat) : Prop := ∃ i, g = b ^ i

theorem isPow_iff_testRoot {b : Nat} (hb : 2 ≤ b) (hg : 1 < g) :
    IsPow b g ↔ testRoot g b = true := by
  rw [testRoot_iff hb]
  constructor
  · rintro ⟨i, rfl⟩
    cases i with
    | zero => exact absurd hg (Nat.lt_irrefl 1)
    | succ i => exact ⟨i, rfl⟩
  · rintro ⟨i, hi⟩
    exact ⟨i + 1, hi⟩

theorem IsPow.odd {b : Nat} (h : IsPow b g) (hb : b % 2 = 1) : g % 2 = 1 := by
  obtain ⟨i, rfl⟩ := h
  rw [Nat.pow_mod, hb, Nat.one_pow]

theorem IsPow.eq_one {b : Nat} (hab : Nat.Coprime a b) (ha : IsPow a g) (hb : IsPow b g) :
    g = 1 := by
  obtain ⟨i, rfl⟩ := ha
  obtain ⟨j, hj⟩ := hb
  have hcop : Nat.Coprime (a ^ i) (b ^ j) := Nat.Coprime.pow i j hab
  rw [← hj] at hcop
  exact (Nat.coprime_self _).mp hcop

variable {sb : ResizeSb}

theorem hasSuper_sparse (h2 : sb.sparseSuper2 = false) (h : sb.sparseSuper = true)
    (hg : 1 ≤ group) :
    ext4BgHasSuper sb group = 1 ↔ IsPow 3 group ∨ IsPow 5 group ∨ IsPow 7 group := by
  rw [ext4BgHasSuper, if_neg (by omega), h2, if_neg (by decide), h]
  by_cases h1 : group ≤ 1
  · rw [if_pos (.inl h1)]
    exact ⟨fun _ => .inl ⟨0, by omega⟩, fun _ => rfl⟩
  rw [if_neg (by simp [h1])]
  by_cases heven : group % 2 = 0
  · -- an even number is no power of an odd one
    rw [if_pos heven]
    refine ⟨nofun, fun hpow => ?_⟩
    have hodd : group % 2 = 1 := by
      rcases hpow with hpow | hpow | hpow
      all_goals exact hpow.odd rfl
    omega
  · rw [isPow_iff_testRoot (b := 3) (by decide) (by omega),
      isPow_iff_testRoot (b := 5) (by decide) (by omega),
      isPow_iff_testRoot (b := 7) (by decide) (by omega)]
    rw [if_neg heven]
    split
    · rename_i hroot
      exact iff_of_true rfl hroot
    · rename_i hroot
      exact iff_of_false Nat.zero_ne_one hroot

theorem hasSuper_all (h2 : sb.sparseSuper2 = false) (h : sb.sparseSuper = false) (group : Nat) :
    ext4BgHasSuper sb group = 1 := by
  rw [ext4BgHasSuper, h2, h]
  simp

theorem hasSuper_sparse2 (h2 : sb.sparseSuper2 = true) (hg : group ≠ 0) :
    ext4BgHasSuper sb group = 1 ↔ group = sb.sBackupBgs.1 ∨ group = sb.sBackupBgs.2 := by
  rw [ext4BgHasSuper, if_neg hg, h2, if_pos rfl]
  split
  · rename_i h
    exact iff_of_true rfl h
  · rename_i h
    exact iff_of_false (by decide) h

theorem hasSuper_le_one (sb : ResizeSb) (group : Nat) : ext4BgHasSuper sb group ≤ 1 := by
  rw [ext4BgHasSuper]
  repeat' split
  all_goals decide

/-! ## The counters -/

/-- A counter for the powers of `b` below `n`. -/
def Counts (b n p : Nat) : Prop := IsPow b p ∨ n ≤ p

/-- The powers a counter has still to return. -/
def Due (b p g : Nat) : Prop := p ≤ g ∧ IsPow b g

/-- The product of a counter below `n` is not cut, or it is cut to a number that
is not below `n`. -/
def NoWrap (b n : Nat) : Prop := ∀ i, b ^ i < n → b ^ (i + 1) < 2 ^ 32 ∨ n ≤ b ^ (i + 1) % 2 ^ 32

section Counter

variable {b n p : Nat} (hp : Counts b n p) (hlt : p < n)

include hp hlt

theorem Counts.due : Due b p p := ⟨Nat.le_refl p, hp.resolve_right (Nat.not_le_of_lt hlt)⟩

theorem due_and_ne {b' p' : Nat} (hb : Nat.Coprime b b') (hone : 1 < p' ∨ 1 < p) :
    Due b' p' g ∧ g ≠ p ↔ Due b' p' g := by
  refine and_iff_left_of_imp ?_
  rintro ⟨hle, hpow⟩ rfl
  have := (hp.due hlt).2.eq_one hb hpow
  omega

variable (hw : NoWrap b n)

include hw

theorem counts_next : Counts b n (p * b % 2 ^ 32) := by
  rcases hp with ⟨i, rfl⟩ | hp
  · rcases hw i hlt with h | h
    · exact .inl ⟨i + 1, by rw [← pow_succ, Nat.mod_eq_of_lt h]⟩
    · exact .inr (by rw [← pow_succ]; exact h)
  · omega

/-- A counter that was taken no longer stands for its value, and for all the
others it stood for. -/
theorem due_next (hb : 2 ≤ b) (hn : n < 2 ^ 32) (hg : g < n) :
    Due b (p * b % 2 ^ 32) g ↔ Due b p g ∧ g ≠ p := by
  rcases hp with ⟨i, rfl⟩ | hp
  · rw [← pow_succ]
    -- the next power
    have hnext : ∀ j, b ^ i ≤ b ^ j ∧ b ^ j ≠ b ^ i ↔ b ^ (i + 1) ≤ b ^ j := by
      intro j
      rw [Nat.pow_le_pow_iff_right hb, Nat.pow_le_pow_iff_right hb, Ne, Nat.pow_right_inj hb]
      omega
    constructor
    · rintro ⟨hle, j, rfl⟩
      have hle' : b ^ (i + 1) ≤ b ^ j := by
        rcases hw i hlt with h | h
        · rwa [Nat.mod_eq_of_lt h] at hle
        · omega
      have := (hnext j).mpr hle'
      exact ⟨⟨this.1, j, rfl⟩, this.2⟩
    · rintro ⟨⟨hle, j, rfl⟩, hne⟩
      have := (hnext j).mp ⟨hle, hne⟩
      exact ⟨by rw [Nat.mod_eq_of_lt (by omega)]; exact this, j, rfl⟩
  · omega

theorem lt_next (hb : 2 ≤ b) (hn : n < 2 ^ 32) : p < p * b % 2 ^ 32 := by
  by_contra hle
  have hmod : p * b % 2 ^ 32 < n := by omega
  have := (due_next hp hlt hw hb hn hmod).mp ((counts_next hp hlt hw).due hmod)
  have := this.1.1
  omega

end Counter

/-- Up to here no counter is cut to a number of a group. -/
def maxSparseGroups : Nat := 1808548329

theorem noWrap_of_le {b k n : Nat} (hb : 2 ≤ b) (hn : n ≤ maxSparseGroups)
    (hk : maxSparseGroups ≤ b ^ (k + 1))
    (hwrap : b ^ (k + 1) < 2 ^ 32 ∨ b ^ k < 2 ^ 32 ∧ maxSparseGroups ≤ b ^ (k + 1) % 2 ^ 32) :
    NoWrap b n := by
  intro i hi
  have hik : i < k + 1 := by
    by_contra hge
    have := Nat.pow_le_pow_right (show 0 < b by omega) (Nat.le_of_not_lt hge)
    omega
  rcases hwrap with h | ⟨h1, h2⟩
  · refine .inl (Nat.lt_of_le_of_lt (Nat.pow_le_pow_right (by omega) ?_) h)
    omega
  · rcases Nat.eq_or_lt_of_le (Nat.le_of_lt_succ hik) with rfl | hlt
    · exact .inr (Nat.le_trans hn h2)
    · exact .inl (Nat.lt_of_le_of_lt (Nat.pow_le_pow_right (by omega) hlt) h1)

variable {n : Nat}

theorem noWrap_three (hn : n ≤ maxSparseGroups) : NoWrap 3 n :=
  noWrap_of_le (k := 19) (by decide) hn (by decide) (.inl (by decide))

theorem noWrap_five (hn : n ≤ maxSparseGroups) : NoWrap 5 n :=
  noWrap_of_le (k := 13) (by decide) hn (by decide) (.inr (by decide))

theorem noWrap_seven (hn : n ≤ maxSparseGroups) : NoWrap 7 n :=
  noWrap_of_le (k := 10) (by decide) hn (by decide) (.inl (by decide))

/-! ## The enumeration -/

/-- `ext4_list_backups` returns the numbers of `D` below the group count in
ascending order, from counters with `I` on. -/
structure Enumerates (sb : ResizeSb) (I : Counters → Prop) (D : Counters → Nat → Prop) : Prop where
  due : ∀ c, I c → (ext4ListBackups sb c).1 < sb.sGroupsCount → D c (ext4ListBackups sb c).1
  least : ∀ c, I c → ∀ g, g < sb.sGroupsCount → D c g → (ext4ListBackups sb c).1 ≤ g
  keeps : ∀ c, I c → (ext4ListBackups sb c).1 < sb.sGroupsCount → I (ext4ListBackups sb c).2
  next : ∀ c, I c → (ext4ListBackups sb c).1 < sb.sGroupsCount → ∀ g, g < sb.sGroupsCount →
    (D (ext4ListBackups sb c).2 g ↔ D c g ∧ g ≠ (ext4ListBackups sb c).1)

theorem Enumerates.listed {I : Counters → Prop} {D : Counters → Nat → Prop} (h : Enumerates sb I D)
    (fuel : Nat) : ∀ c, I c → 0 < fuel →
      sb.sGroupsCount < fuel + (ext4ListBackups sb c).1 →
      ∃ groups, listedBackups sb fuel (ext4ListBackups sb c).1 (ext4ListBackups sb c).2
        = some groups
        ∧ groups.Pairwise (· < ·) ∧ ∀ g, g ∈ groups ↔ g < sb.sGroupsCount ∧ D c g := by
  induction fuel with
  | zero => omega
  | succ fuel ih =>
    intro c hI _ hfuel
    rw [listedBackups]
    by_cases hlt : (ext4ListBackups sb c).1 < sb.sGroupsCount
    · rw [if_pos hlt]
      have hnext := h.next c hI hlt
      have hI' := h.keeps c hI hlt
      have hgt : (ext4ListBackups sb c).1 < (ext4ListBackups sb (ext4ListBackups sb c).2).1 := by
        by_contra hle
        have hlt' : (ext4ListBackups sb (ext4ListBackups sb c).2).1 < sb.sGroupsCount := by omega
        have hdue := (hnext _ hlt').mp (h.due _ hI' hlt')
        have := h.least c hI _ hlt' hdue.1
        exact hdue.2 (by omega)
      obtain ⟨groups, heq, hsorted, hmem⟩ := ih _ hI' (by omega) (by omega)
      rw [heq]
      refine ⟨_, rfl, List.pairwise_cons.mpr ⟨fun g hg => ?_, hsorted⟩, fun g => ?_⟩
      · obtain ⟨hglt, hgdue⟩ := (hmem g).mp hg
        have := h.least _ hI' g hglt hgdue
        omega
      · rw [List.mem_cons, hmem g]
        constructor
        · rintro (rfl | ⟨h1, h2⟩)
          · exact ⟨hlt, h.due c hI hlt⟩
          · exact ⟨h1, ((hnext g h1).mp h2).1⟩
        · rintro ⟨h1, h2⟩
          by_cases hg : g = (ext4ListBackups sb c).1
          · exact .inl hg
          · exact .inr ⟨h1, (hnext g h1).mpr ⟨h2, hg⟩⟩
    · rw [if_neg hlt]
      refine ⟨[], rfl, List.Pairwise.nil, fun g => ⟨nofun, fun ⟨h1, h2⟩ => ?_⟩⟩
      have := h.least c hI g h1 h2
      omega

/-- Every group, without `sparse_super`. -/
theorem enumerates_all (h : sb.sparseSuper = false) (hn : sb.sGroupsCount < 2 ^ 32) :
    Enumerates sb (fun _ => True) (fun c g => c.three ≤ g) := by
  have heq : ∀ c, ext4ListBackups sb c = (c.three, { c with three := (c.three + 1) % 2 ^ 32 }) := by
    intro c
    rw [ext4ListBackups, h]
    rfl
  refine ⟨fun c _ _ => ?_, fun c _ g _ hg => ?_, fun _ _ _ => trivial, fun c _ hlt g _ => ?_⟩
  · rw [heq]
  · rw [heq]
    exact hg
  · rw [heq] at hlt ⊢
    dsimp only at hlt ⊢
    rw [Nat.mod_eq_of_lt (by omega)]
    omega

/-- The counters of a sparse file system with `n` groups. -/
structure SparseCounters (n : Nat) (c : Counters) : Prop where
  three : Counts 3 n c.three
  five : Counts 5 n c.five
  seven : Counts 7 n c.seven
  five_lt : 1 < c.five
  seven_lt : 1 < c.seven

/-- The powers the counters have still to return. -/
def SparseDue (c : Counters) (g : Nat) : Prop := Due 3 c.three g ∨ Due 5 c.five g ∨ Due 7 c.seven g

/-- The powers of 3, 5 and 7, with `sparse_super`. -/
theorem enumerates_sparse (h : sb.sparseSuper = true) (hn : sb.sGroupsCount ≤ maxSparseGroups) :
    Enumerates sb (SparseCounters sb.sGroupsCount) SparseDue := by
  have hn' : sb.sGroupsCount < 2 ^ 32 := Nat.lt_of_le_of_lt hn (by decide)
  have h3 := noWrap_three hn
  have h5 := noWrap_five hn
  have h7 := noWrap_seven hn
  -- the branch taken and the counter it takes
  have hcases : ∀ c,
      (c.five < c.three ∧ c.seven < c.five ∨ ¬ c.five < c.three ∧ c.seven < c.three)
        ∧ ext4ListBackups sb c = (c.seven, { c with seven := c.seven * 7 % 2 ^ 32 })
      ∨ (c.five < c.three ∧ ¬ c.seven < c.five)
        ∧ ext4ListBackups sb c = (c.five, { c with five := c.five * 5 % 2 ^ 32 })
      ∨ (¬ c.five < c.three ∧ ¬ c.seven < c.three)
        ∧ ext4ListBackups sb c = (c.three, { c with three := c.three * 3 % 2 ^ 32 }) := by
    intro c
    rw [ext4ListBackups, h]
    by_cases h1 : c.five < c.three
    · rw [if_neg (show ¬ (!true) = true by decide), if_pos h1]
      by_cases h2 : c.seven < c.five
      · rw [if_pos h2]
        exact .inl ⟨.inl ⟨h1, h2⟩, rfl⟩
      · rw [if_neg h2]
        exact .inr (.inl ⟨⟨h1, h2⟩, rfl⟩)
    · rw [if_neg (show ¬ (!true) = true by decide), if_neg h1]
      by_cases h2 : c.seven < c.three
      · rw [if_pos h2]
        exact .inl ⟨.inr ⟨h1, h2⟩, rfl⟩
      · rw [if_neg h2]
        exact .inr (.inr ⟨⟨h1, h2⟩, rfl⟩)
  refine ⟨fun c hc hlt => ?_, fun c hc g hg hdue => ?_, fun c hc hlt => ?_, fun c hc hlt g hg => ?_⟩
  · rcases hcases c with ⟨-, heq⟩ | ⟨-, heq⟩ | ⟨-, heq⟩
    all_goals rw [heq] at hlt ⊢
    · exact .inr (.inr (hc.seven.due hlt))
    · exact .inr (.inl (hc.five.due hlt))
    · exact .inl (hc.three.due hlt)
  · have hle : c.three ≤ g ∨ c.five ≤ g ∨ c.seven ≤ g :=
      hdue.imp And.left (Or.imp And.left And.left)
    rcases hcases c with ⟨hlt, heq⟩ | ⟨hlt, heq⟩ | ⟨hlt, heq⟩
    all_goals
      rw [heq]
      dsimp only
      omega
  · rcases hcases c with ⟨-, heq⟩ | ⟨-, heq⟩ | ⟨-, heq⟩
    all_goals rw [heq] at hlt ⊢
    · exact ⟨hc.three, hc.five, counts_next hc.seven hlt h7, hc.five_lt,
        Nat.lt_trans hc.seven_lt (lt_next hc.seven hlt h7 (by decide) hn')⟩
    · exact ⟨hc.three, counts_next hc.five hlt h5, hc.seven,
        Nat.lt_trans hc.five_lt (lt_next hc.five hlt h5 (by decide) hn'), hc.seven_lt⟩
    · exact ⟨counts_next hc.three hlt h3, hc.five, hc.seven, hc.five_lt, hc.seven_lt⟩
  · rcases hcases c with ⟨-, heq⟩ | ⟨-, heq⟩ | ⟨-, heq⟩
    all_goals
      rw [heq] at hlt ⊢
      dsimp only at hlt ⊢
    · rw [SparseDue, SparseDue, due_next hc.seven hlt h7 (by decide) hn' hg, or_and_right,
        or_and_right, due_and_ne hc.seven hlt (by decide : Nat.Coprime 7 3) (.inr hc.seven_lt),
        due_and_ne hc.seven hlt (by decide : Nat.Coprime 7 5) (.inl hc.five_lt)]
    · rw [SparseDue, SparseDue, due_next hc.five hlt h5 (by decide) hn' hg, or_and_right,
        or_and_right, due_and_ne hc.five hlt (by decide : Nat.Coprime 5 3) (.inr hc.five_lt),
        due_and_ne hc.five hlt (by decide : Nat.Coprime 5 7) (.inl hc.seven_lt)]
    · rw [SparseDue, SparseDue, due_next hc.three hlt h3 (by decide) hn' hg, or_and_right,
        or_and_right, due_and_ne hc.three hlt (by decide : Nat.Coprime 3 5) (.inl hc.five_lt),
        due_and_ne hc.three hlt (by decide : Nat.Coprime 3 7) (.inl hc.seven_lt)]

/-- A file system that `ext4_resize_begin` lets pass: the superblock in use is
the one in block `s_first_data_block`, at byte 1024. The descriptors of all
groups are in memory, the number of groups was checked at mount, and the
descriptor blocks in front of `s_first_meta_bg` fit into a group. -/
structure ResizeOk (sb : ResizeSb) : Prop where
  primary : sb.sbhBlocknr = sb.sFirstDataBlock
  offset : sb.sbhBlocknr = 1024 / sb.blocksize
  groups_lt : sb.sGroupsCount + sb.sDescPerBlock ≤ 2 ^ 32
  desc_le : 2 ≤ sb.sDescPerBlock
  blocks_le : 2 ≤ sb.blocksPerGroup
  gdb_count : sb.sGroupsCount ≤ sb.sGdbCount * sb.sDescPerBlock
  head_lt : sb.sFirstMetaBg < sb.blocksPerGroup

/-- Ten groups of 8192 blocks of 1 KiB. -/
def smallResizeSb : ResizeSb where
  sparseSuper := true
  sparseSuper2 := false
  metaBg := false
  sBackupBgs := (0, 0)
  sFirstMetaBg := 0
  sDescPerBlock := 16
  blocksPerGroup := 8192
  blocksize := 1024
  sFirstDataBlock := 1
  sbhBlocknr := 1
  sGroupsCount := 10
  sGdbCount := 1

/-! ## The writes -/

section Writes

variable {sb : ResizeSb} (abort : Nat → Bool) (blkOff last : Nat)

/-- The loop goes through the listed groups, or a first part of them. -/
theorem updateLoop_listed (turn : Nat) {c : Counters} {groups : List Nat}
    (h : listedBackups sb fuel group c = some groups) :
    ∃ blocks, updateLoop sb abort blkOff false last fuel turn group c = some blocks
      ∧ ∀ b ∈ blocks, ∃ g ∈ groups, b = g * sb.blocksPerGroup + blkOff := by
  induction fuel generalizing turn group c groups with
  | zero => nomatch h
  | succ fuel ih =>
    rw [listedBackups] at h
    rw [updateLoop]
    by_cases hlt : group < sb.sGroupsCount
    · rw [if_pos hlt] at h ⊢
      split at h
      · nomatch h
      · rename_i rest hrest
        injection h with h
        subst h
        by_cases habort : abort turn = true
        · rw [if_pos habort]
          exact ⟨[], rfl, fun b hb => absurd hb List.not_mem_nil⟩
        · rw [if_neg habort]
          obtain ⟨blocks, heq, hblocks⟩ := ih (turn + 1) hrest
          refine ⟨_, by simp only [Bool.not_false, if_true]; rw [heq], fun b hb => ?_⟩
          rcases List.mem_cons.mp hb with rfl | hb
          · exact ⟨group, List.mem_cons_self, rfl⟩
          · obtain ⟨g, hg, hbg⟩ := hblocks b hb
            exact ⟨g, List.mem_cons_of_mem _ hg, hbg⟩
    · rw [if_neg hlt]
      exact ⟨[], rfl, fun b hb => absurd hb List.not_mem_nil⟩

/-- For a meta block group the loop writes to the first group and then to the last. -/
theorem updateLoop_meta (group : Nat) (c : Counters) :
    ∃ blocks, updateLoop sb abort blkOff true last (sb.sGroupsCount + 1) 0 group c = some blocks
      ∧ (∀ b ∈ blocks, ∃ g, (g = group ∨ g = last) ∧ g < sb.sGroupsCount
        ∧ b = ext4GroupFirstBlockNo sb g + ext4BgHasSuper sb g)
      ∧ ((∀ turn, abort turn = false) → group < sb.sGroupsCount →
        ∀ g, (g = group ∨ g = last) → g < sb.sGroupsCount →
          ext4GroupFirstBlockNo sb g + ext4BgHasSuper sb g ∈ blocks) := by
  rw [updateLoop]
  by_cases hlt : group < sb.sGroupsCount
  · obtain ⟨n, hn⟩ : ∃ n, sb.sGroupsCount = n + 1 := ⟨sb.sGroupsCount - 1, by omega⟩
    rw [if_pos hlt]
    by_cases habort : abort 0 = true
    · rw [if_pos habort]
      exact ⟨[], rfl, nofun, fun h => by rw [h] at habort; cases habort⟩
    rw [if_neg habort]
    dsimp only
    by_cases hlast : group = last
    · simp only [Bool.not_true, Bool.false_eq_true, if_false, if_pos hlast, if_true]
      refine ⟨_, rfl, fun b hb => ⟨group, .inl rfl, hlt, List.mem_singleton.mp hb⟩, ?_⟩
      rintro - - g hg -
      rw [show g = group by omega]
      exact List.mem_singleton_self _
    · simp only [Bool.not_true, Bool.false_eq_true, if_false, if_neg hlast, if_true]
      have hrest : ∃ blocks, updateLoop sb abort blkOff true last sb.sGroupsCount (0 + 1) last c
          = some blocks
          ∧ (∀ b ∈ blocks, last < sb.sGroupsCount
            ∧ b = ext4GroupFirstBlockNo sb last + ext4BgHasSuper sb last)
          ∧ ((∀ turn, abort turn = false) → last < sb.sGroupsCount →
            ext4GroupFirstBlockNo sb last + ext4BgHasSuper sb last ∈ blocks) := by
        rw [hn, updateLoop]
        split
        · rename_i hltlast
          split
          · rename_i habort'
            exact ⟨[], rfl, nofun, fun h => by rw [h] at habort'; cases habort'⟩
          · refine ⟨[ext4GroupFirstBlockNo sb last + ext4BgHasSuper sb last], by simp,
              fun b hb => ?_, fun _ _ => List.mem_singleton_self _⟩
            exact ⟨by omega, List.mem_singleton.mp hb⟩
        · exact ⟨[], rfl, nofun, fun _ h => by omega⟩
      obtain ⟨blocks, heq, hblocks, hall⟩ := hrest
      rw [heq]
      refine ⟨_, rfl, fun b hb => ?_, fun habort _ g hg hglt => ?_⟩
      · rcases List.mem_cons.mp hb with rfl | hb
        · exact ⟨group, .inl rfl, hlt, rfl⟩
        · exact ⟨last, .inr rfl, hblocks b hb⟩
      · rcases hg with rfl | rfl
        · exact List.mem_cons_self
        · exact List.mem_cons_of_mem _ (hall habort hglt)
  · rw [if_neg hlt]
    exact ⟨[], rfl, nofun, fun _ h => absurd h hlt⟩

end Writes

section Calls

variable {sb : ResizeSb}

/-- A copy was written to a block that a group keeps for it. -/
def Backup (sb : ResizeSb) (c : Copy) (block : Nat) : Prop :=
  ∃ g, 1 ≤ g ∧ g < sb.sGroupsCount ∧ Reserved sb g block c

/-- The groups are listed exactly: in ascending order, those with a superblock. -/
def ListsSupers (sb : ResizeSb) : Prop :=
  ∃ groups, backupGroups sb = some groups ∧ groups.Pairwise (· < ·)
    ∧ ∀ g, g ∈ groups ↔ (1 ≤ g ∧ g < sb.sGroupsCount) ∧ ext4BgHasSuper sb g = 1

section

variable (h : ResizeOk sb) (hn : sb.sparseSuper = true → sb.sGroupsCount ≤ maxSparseGroups)

include h hn

/-- As long as the counters are wide enough, the enumeration is that of a file
system without `sparse_super2`. -/
theorem backupGroups_spec :
    ∃ groups, backupGroups sb = some groups ∧ groups.Pairwise (· < ·)
      ∧ ∀ g, g ∈ groups ↔ (1 ≤ g ∧ g < sb.sGroupsCount)
        ∧ ext4BgHasSuper { sb with sparseSuper2 := false } g = 1 := by
  have hlt := h.groups_lt
  have hdesc := h.desc_le
  have hone : (ext4ListBackups sb .init).1 = 1 := by
    rw [ext4ListBackups]
    split <;> rfl
  rcases Bool.eq_false_or_eq_true sb.sparseSuper with hs | hs
  · obtain ⟨groups, heq, hsorted, hmem⟩ := (enumerates_sparse hs (hn hs)).listed
      (sb.sGroupsCount + 1) .init
      ⟨.inl ⟨0, rfl⟩, .inl ⟨1, rfl⟩, .inl ⟨1, rfl⟩, by decide, by decide⟩
      (Nat.succ_pos _) (by omega)
    refine ⟨groups, heq, hsorted, fun g => ?_⟩
    rw [hmem g]
    have hdue : SparseDue .init g ↔ 1 ≤ g ∧ (IsPow 3 g ∨ IsPow 5 g ∨ IsPow 7 g) := by
      have hpow : ∀ b, 2 ≤ b → IsPow b g → g = 1 ∨ b ≤ g := by
        rintro b hb ⟨i, rfl⟩
        cases i with
        | zero => exact .inl rfl
        | succ i => exact .inr (Nat.le_self_pow (Nat.succ_ne_zero i) b)
      have h5 := hpow 5 (by decide)
      have h7 := hpow 7 (by decide)
      constructor
      · rintro (⟨hle, hp⟩ | ⟨hle, hp⟩ | ⟨hle, hp⟩)
        · exact ⟨hle, .inl hp⟩
        · exact ⟨Nat.le_trans (by decide) hle, .inr (.inl hp)⟩
        · exact ⟨Nat.le_trans (by decide) hle, .inr (.inr hp)⟩
      · rintro ⟨hle, hp | hp | hp⟩
        · exact .inl ⟨hle, hp⟩
        · rcases h5 hp with rfl | h5
          · exact .inl ⟨hle, 0, rfl⟩
          · exact .inr (.inl ⟨h5, hp⟩)
        · rcases h7 hp with rfl | h7
          · exact .inl ⟨hle, 0, rfl⟩
          · exact .inr (.inr ⟨h7, hp⟩)
    have hsuper := @hasSuper_sparse g { sb with sparseSuper2 := false } rfl hs
    rw [hdue]
    constructor
    · rintro ⟨hlt, h1, hpow⟩
      exact ⟨⟨h1, hlt⟩, (hsuper h1).mpr hpow⟩
    · rintro ⟨⟨h1, hlt⟩, hpow⟩
      exact ⟨hlt, h1, (hsuper h1).mp hpow⟩
  · obtain ⟨groups, heq, hsorted, hmem⟩ := (enumerates_all hs (by omega)).listed
      (sb.sGroupsCount + 1) .init trivial (Nat.succ_pos _) (by omega)
    refine ⟨groups, heq, hsorted, fun g => ?_⟩
    have hall := @hasSuper_all { sb with sparseSuper2 := false } rfl hs g
    have hinit : Counters.init.three = 1 := rfl
    rw [hmem g, hinit, and_iff_left hall, and_comm]

end

/-- The number of the `k`-th call of `ext4_list_backups`. -/
def nthBackup (sb : ResizeSb) (c : Counters) : Nat → Nat
  | 0 => (ext4ListBackups sb c).1
  | k + 1 => nthBackup sb (ext4ListBackups sb c).2 k

theorem nthBackup_mem {k : Nat} {c : Counters} {groups : List Nat}
    (h : listedBackups sb fuel (ext4ListBackups sb c).1 (ext4ListBackups sb c).2 = some groups)
    (hlt : ∀ j ≤ k, nthBackup sb c j < sb.sGroupsCount) : nthBackup sb c k ∈ groups := by
  induction k generalizing fuel c groups with
  | zero =>
    cases fuel with
    | zero => cases h
    | succ fuel =>
      have h0 : (ext4ListBackups sb c).1 < sb.sGroupsCount := hlt 0 (Nat.le_refl 0)
      rw [listedBackups, if_pos h0] at h
      split at h
      · cases h
      · injection h with h
        exact h ▸ List.mem_cons_self
  | succ k ih =>
    cases fuel with
    | zero => cases h
    | succ fuel =>
      have h0 : (ext4ListBackups sb c).1 < sb.sGroupsCount := hlt 0 (Nat.zero_le _)
      rw [listedBackups, if_pos h0] at h
      split at h
      · cases h
      · rename_i rest hrest
        injection h with h
        exact h ▸ List.mem_cons_of_mem _
          (ih hrest fun j hj => hlt (j + 1) (Nat.succ_le_succ hj))

theorem nthBackup_congr {sb' : ResizeSb} (h : sb.sparseSuper = sb'.sparseSuper) (c : Counters)
    (k : Nat) : nthBackup sb c k = nthBackup sb' c k := by
  have hlist : ∀ c, ext4ListBackups sb c = ext4ListBackups sb' c := fun c => by
    rw [ext4ListBackups, ext4ListBackups, h]
  induction k generalizing c with
  | zero => rw [nthBackup, nthBackup, hlist]
  | succ k ih => rw [nthBackup, nthBackup, hlist, ih]

/-- The group numbers of a sparse file system up to the first one that is none. -/
theorem nthBackup_small : (∀ j ≤ 43, nthBackup smallResizeSb .init j ≤ maxSparseGroups)
    ∧ nthBackup smallResizeSb .init 0 = 1 ∧ nthBackup smallResizeSb .init 1 = 3
    ∧ nthBackup smallResizeSb .init 2 = 5
    ∧ nthBackup smallResizeSb .init 43 = maxSparseGroups := by
  decide +kernel

/-- The superblocks that `ext4_list_backups` takes for granted. -/
structure ListOk (sb : ResizeSb) : Prop where
  few : sb.sparseSuper = true → sb.sGroupsCount ≤ maxSparseGroups
  sparse2 : sb.sparseSuper2 = true → ∀ g, 1 ≤ g → g < sb.sGroupsCount →
    (ext4BgHasSuper sb g = 1 ↔ ext4BgHasSuper { sb with sparseSuper2 := false } g = 1)

theorem listsSupers_iff (h : ResizeOk sb) : ListsSupers sb ↔ ListOk sb := by
  constructor
  · rintro ⟨groups, heq, -, hmem⟩
    have hfew : sb.sparseSuper = true → sb.sGroupsCount ≤ maxSparseGroups := by
      intro hs
      by_contra hgt
      have hnth := @nthBackup_congr sb smallResizeSb hs .init
      obtain ⟨hle, h1, h3, h5, hmax⟩ := nthBackup_small
      have hin : ∀ k ≤ 43, nthBackup smallResizeSb .init k ∈ groups := fun k hk => by
        rw [← hnth]
        refine nthBackup_mem heq fun j hj => ?_
        rw [hnth]
        have := hle j (by omega)
        omega
      have hsuper : ∀ k ≤ 43, ext4BgHasSuper sb (nthBackup smallResizeSb .init k) = 1 :=
        fun k hk => ((hmem _).mp (hin k hk)).2
      cases h2 : sb.sparseSuper2 with
      | false =>
        -- the cut power of 5 has no superblock
        have hpow := hsuper 43 (by decide)
        rw [hmax, hasSuper_sparse h2 hs (by decide),
          isPow_iff_testRoot (b := 3) (by decide) (by decide),
          isPow_iff_testRoot (b := 5) (by decide) (by decide),
          isPow_iff_testRoot (b := 7) (by decide) (by decide)] at hpow
        exact absurd hpow (by decide +kernel)
      | true =>
        -- three groups are listed, and two have a copy
        have h1' := hsuper 0 (by decide)
        have h3' := hsuper 1 (by decide)
        have h5' := hsuper 2 (by decide)
        rw [h1, hasSuper_sparse2 h2 (by decide)] at h1'
        rw [h3, hasSuper_sparse2 h2 (by decide)] at h3'
        rw [h5, hasSuper_sparse2 h2 (by decide)] at h5'
        omega
    refine ⟨hfew, fun _ g h1 hlt => ?_⟩
    obtain ⟨groups', heq', -, hmem'⟩ := backupGroups_spec h hfew
    obtain rfl : groups' = groups := Option.some.inj (heq'.symm.trans heq)
    have := (hmem g).symm.trans (hmem' g)
    rwa [and_iff_right ⟨h1, hlt⟩, and_iff_right ⟨h1, hlt⟩] at this
  · rintro ⟨hfew, h2⟩
    obtain ⟨groups, heq, hsorted, hmem⟩ := backupGroups_spec h hfew
    refine ⟨groups, heq, hsorted, fun g => (hmem g).trans (and_congr_right fun hg => ?_)⟩
    cases hs : sb.sparseSuper2 with
    | true => exact (h2 hs g hg.1 hg.2).symm
    | false => rw [show { sb with sparseSuper2 := false } = sb by rw [← hs]]

section

variable (h : ResizeOk sb) (hl : ListOk sb)

include h hl

theorem updateBackups_listed (abort : Nat → Bool) (blkOff : Nat) {c : Copy}
    (hc : ∀ g, ext4BgHasSuper sb g = 1 → Reserved sb g (g * sb.blocksPerGroup + blkOff) c) :
    ∃ blocks, updateBackups sb abort blkOff false = some blocks ∧ ∀ b ∈ blocks, Backup sb c b := by
  obtain ⟨groups, heq, -, hmem⟩ := (listsSupers_iff h).mpr hl
  obtain ⟨blocks, heq', hblocks⟩ := updateLoop_listed abort blkOff sb.sGroupsCount 0 heq
  refine ⟨blocks, heq', fun b hb => ?_⟩
  obtain ⟨g, hg, rfl⟩ := hblocks b hb
  obtain ⟨⟨h1, h2⟩, h3⟩ := (hmem g).mp hg
  exact ⟨g, h1, h2, hc g h3⟩

theorem updateBackups_super (abort : Nat → Bool) :
    ∃ blocks, updateBackups sb abort sb.sbhBlocknr false = some blocks
      ∧ ∀ b ∈ blocks, Backup sb .super b := by
  refine updateBackups_listed h hl abort _ fun g hg => ⟨hg, ?_⟩
  rw [ext4GroupFirstBlockNo, h.primary]

/-- The copies of a descriptor block, without `meta_bg`. -/
theorem updateBackups_desc (hm : sb.metaBg = false) (hnr : nr < sb.sGdbCount) (abort : Nat → Bool) :
    ∃ blocks, updateBackups sb abort (descriptorLoc sb nr) false = some blocks
      ∧ ∀ b ∈ blocks, Backup sb (.desc nr) b := by
  refine updateBackups_listed h hl abort _ fun g h3 => ⟨nr, ?_, ?_, ?_⟩
  · rw [ext4BgNumGdb, hm, Bool.not_false, if_pos (.inl rfl), ext4BgNumGdbNometa, h3,
      if_neg (by decide), hm, if_neg (by decide)]
    exact hnr
  · rw [gdbOf, hm, Bool.not_false, if_pos (.inl rfl)]
  · rw [descriptorLoc, hm, Bool.not_false, if_pos (.inl rfl), ext4GroupFirstBlockNo, h.primary, h3]
    omega

end

/-- The descriptor blocks that a file system with `meta_bg` copies to the right
place: those of meta block groups, and block 0 if it goes to groups with a superblock. -/
def MetaOk (sb : ResizeSb) (nr : Nat) : Prop :=
  sb.sFirstMetaBg ≤ nr
    ∨ nr = 0 ∧ ∀ g, g = 1 ∨ g = sb.sDescPerBlock - 1 → g < sb.sGroupsCount →
      ext4BgHasSuper sb g = 1

section

variable (h : ResizeOk sb) (hm : sb.metaBg = true)

include h hm

/-- The groups that `update_backups` takes for the second and the last one of the
meta block group. For a block in front of `s_first_meta_bg` they are counted from
its place in group 0. -/
theorem updateBackups_metaGroups (hnr : nr * sb.sDescPerBlock < sb.sGroupsCount)
    (abort : Nat → Bool) : ∃ group,
    (if sb.sFirstMetaBg ≤ nr then group = nr * sb.sDescPerBlock + 1
      else group = (nr + 1) / sb.blocksPerGroup + 1)
    ∧ ∃ blocks, updateBackups sb abort (descriptorLoc sb nr) true = some blocks
      ∧ (∀ b ∈ blocks, ∃ g, (g = group ∨ g = group + sb.sDescPerBlock - 2) ∧ g < sb.sGroupsCount
        ∧ b = ext4GroupFirstBlockNo sb g + ext4BgHasSuper sb g)
      ∧ ((∀ turn, abort turn = false) → group < sb.sGroupsCount →
        ∀ g, (g = group ∨ g = group + sb.sDescPerBlock - 2) → g < sb.sGroupsCount →
          ext4GroupFirstBlockNo sb g + ext4BgHasSuper sb g ∈ blocks) := by
  have hdesc := h.desc_le
  have hcount := h.groups_lt
  have hblocks := h.blocks_le
  have hgroup : ∃ group, (descriptorLoc sb nr - sb.sFirstDataBlock) / sb.blocksPerGroup + 1 = group
      ∧ (if sb.sFirstMetaBg ≤ nr then group = nr * sb.sDescPerBlock + 1
        else group = (nr + 1) / sb.blocksPerGroup + 1) ∧ group ≤ sb.sGroupsCount := by
    refine ⟨_, rfl, ?_⟩
    split
    · rename_i hfirst
      -- the primary block is in the first group
      have hfdb : ¬ (sb.blocksize = 1024 ∧ nr = 0 ∧ sb.sFirstDataBlock = 0) := by
        rintro ⟨h1, -, h3⟩
        have := h.offset
        rw [h.primary, h3, h1] at this
        cases this
      have hzero : (if ext4BgHasSuper sb (sb.sDescPerBlock * nr) = 0 then 0 else 1)
          / sb.blocksPerGroup = 0 := Nat.div_eq_of_lt (by split <;> omega)
      rw [descriptorLoc, hm, if_neg (by simp [hfirst])]
      dsimp only
      rw [if_neg hfdb, ext4GroupFirstBlockNo, ← Nat.add_assoc, Nat.add_sub_cancel,
        Nat.add_mul_div_right _ _ (by omega), hzero, Nat.zero_add, Nat.mul_comm nr]
      exact ⟨rfl, by rw [Nat.mul_comm]; omega⟩
    · rename_i hfirst
      rw [descriptorLoc, if_pos (.inr (by omega)), h.primary, Nat.add_assoc,
        Nat.add_sub_cancel_left]
      refine ⟨rfl, ?_⟩
      have := Nat.div_le_div_left hblocks (show 0 < 2 by decide) (a := nr + 1)
      have := Nat.mul_le_mul_left nr hdesc
      omega
  obtain ⟨group, heq, hcase, hle⟩ := hgroup
  have hlast : (group + sb.sDescPerBlock - 2) % 2 ^ 32 = group + sb.sDescPerBlock - 2 :=
    Nat.mod_eq_of_lt (by omega)
  refine ⟨group, hcase, ?_⟩
  rw [updateBackups, if_neg (by decide)]
  dsimp only
  rw [heq, hlast]
  exact updateLoop_meta abort _ _ group .init

theorem reserved_meta {g : Nat} (hg : g / sb.sDescPerBlock = nr) (hfirst : sb.sFirstMetaBg ≤ nr)
    (hin : g = nr * sb.sDescPerBlock + 1 ∨ g = nr * sb.sDescPerBlock + 1 + sb.sDescPerBlock - 2) :
    Reserved sb g (ext4GroupFirstBlockNo sb g + ext4BgHasSuper sb g) (.desc nr) := by
  have hmeta : ¬ ((!sb.metaBg) = true ∨ g / sb.sDescPerBlock < sb.sFirstMetaBg) := by
    rw [hm, hg]
    simp [hfirst]
  refine ⟨0, ?_, by rw [gdbOf, if_neg hmeta, hg, Nat.add_zero], rfl⟩
  rw [ext4BgNumGdb, if_neg hmeta, ext4BgNumGdbMeta, hg, if_pos (by have := h.desc_le; omega)]
  exact Nat.one_pos

omit h in
/-- The first descriptor block of a group in front of `s_first_meta_bg` is a copy of block 0. -/
theorem reserved_first {g : Nat} (hg : g / sb.sDescPerBlock < sb.sFirstMetaBg)
    (hs : ext4BgHasSuper sb g = 1) :
    Reserved sb g (ext4GroupFirstBlockNo sb g + ext4BgHasSuper sb g) (.desc 0) := by
  refine ⟨0, ?_, by rw [gdbOf, if_pos (.inr hg)], rfl⟩
  rw [ext4BgNumGdb, if_pos (.inr hg), ext4BgNumGdbNometa, hs, if_neg (by decide), if_pos hm]
  exact Nat.lt_of_le_of_lt (Nat.zero_le _) hg

theorem updateBackups_meta (hnr : nr * sb.sDescPerBlock < sb.sGroupsCount) (hok : MetaOk sb nr)
    (abort : Nat → Bool) :
    ∃ blocks, updateBackups sb abort (descriptorLoc sb nr) true = some blocks
      ∧ ∀ b ∈ blocks, Backup sb (.desc nr) b := by
  have hdesc := h.desc_le
  have hbpg := h.blocks_le
  obtain ⟨group, hgroup, blocks, heq, hblocks, -⟩ := updateBackups_metaGroups h hm hnr abort
  refine ⟨blocks, heq, fun b hb => ?_⟩
  obtain ⟨g, hg, hlt, rfl⟩ := hblocks b hb
  by_cases hfirst : sb.sFirstMetaBg ≤ nr
  · rw [if_pos hfirst] at hgroup
    subst hgroup
    have hdiv : g / sb.sDescPerBlock = nr := by
      refine Nat.div_eq_of_lt_le (by omega) ?_
      rw [Nat.succ_mul]
      omega
    exact ⟨g, by omega, hlt, reserved_meta h hm hdiv hfirst hg⟩
  · obtain ⟨rfl, hsuper⟩ := hok.resolve_left hfirst
    rw [if_neg hfirst, Nat.div_eq_of_lt (show 0 + 1 < sb.blocksPerGroup by omega)] at hgroup
    subst hgroup
    have hdiv : g / sb.sDescPerBlock = 0 := Nat.div_eq_of_lt (by omega)
    exact ⟨g, by omega, hlt, reserved_first hm (by omega) (hsuper g (by omega) hlt)⟩

/-- A block is kept for one copy only, in one group. -/
theorem metaOk_of_backup (hfirst : nr < sb.sFirstMetaBg) {g : Nat}
    (hb : Backup sb (.desc nr) (ext4GroupFirstBlockNo sb g + ext4BgHasSuper sb g)) :
    nr = 0 ∧ ext4BgHasSuper sb g = 1 := by
  have hle := hasSuper_le_one sb g
  have hhead := h.head_lt
  obtain ⟨g', -, -, i, hi, hnr, hblock⟩ := hb
  rw [gdbOf] at hnr
  split at hnr
  · rename_i hmeta
    rw [ext4BgNumGdb, if_pos hmeta, ext4BgNumGdbNometa, if_pos hm] at hi
    split at hi
    · cases hi
    · rename_i hs
      have hone : ext4BgHasSuper sb g' = 1 := by
        have := hasSuper_le_one sb g'
        omega
      rw [ext4GroupFirstBlockNo, ext4GroupFirstBlockNo, hone] at hblock
      obtain rfl : g = g' := by
        rcases Nat.lt_trichotomy g g' with hlt | heq | hlt
        · have := Nat.mul_le_mul_right sb.blocksPerGroup hlt
          rw [Nat.succ_mul] at this
          omega
        · exact heq
        · have := Nat.mul_le_mul_right sb.blocksPerGroup hlt
          rw [Nat.succ_mul] at this
          omega
      exact ⟨by omega, hone⟩
  · rename_i hmeta
    rw [hm] at hmeta
    simp at hmeta
    omega

/-- Of a block in front of `s_first_meta_bg` other than block 0 the first copy is
written over another one. -/
theorem metaOk_of_updateBackups (hnr : nr * sb.sDescPerBlock < sb.sGroupsCount) {blocks : List Nat}
    (heq : updateBackups sb (fun _ => false) (descriptorLoc sb nr) true = some blocks)
    (hblocks : ∀ b ∈ blocks, Backup sb (.desc nr) b) : MetaOk sb nr := by
  have hdesc := h.desc_le
  have hbpg := h.blocks_le
  refine or_iff_not_imp_left.mpr fun hfirst => ?_
  obtain ⟨group, hgroup, blocks', heq', -, hall⟩ :=
    updateBackups_metaGroups h hm hnr fun _ => false
  obtain rfl := Option.some.inj (heq.symm.trans heq')
  rw [if_neg hfirst] at hgroup
  have hok : group < sb.sGroupsCount → ∀ g, g = group ∨ g = group + sb.sDescPerBlock - 2 →
      g < sb.sGroupsCount → nr = 0 ∧ ext4BgHasSuper sb g = 1 := fun hlt g hg hglt =>
    metaOk_of_backup h hm (Nat.lt_of_not_le hfirst)
      (hblocks _ (hall (fun _ => rfl) hlt g hg hglt))
  obtain rfl : nr = 0 := by
    by_contra hne
    have := Nat.div_le_div_left hbpg (show 0 < 2 by decide) (a := nr + 1)
    have := Nat.mul_le_mul_left nr hdesc
    exact hne (hok (by omega) group (.inl rfl) (by omega)).1
  rw [Nat.div_eq_of_lt (show 0 + 1 < sb.blocksPerGroup by omega)] at hgroup
  subst hgroup
  refine ⟨rfl, fun g hg hlt => (hok (by omega) g (by omega) hlt).2⟩

omit h in
/-- A meta block group keeps its descriptors at the beginning of its first group. -/
theorem descriptorLoc_meta (hfirst : sb.sFirstMetaBg ≤ nr) :
    ∃ s ≤ 2, descriptorLoc sb nr
      = nr * (sb.sDescPerBlock * sb.blocksPerGroup) + sb.sFirstDataBlock + s := by
  rw [descriptorLoc, hm, if_neg (by simp [hfirst])]
  dsimp only
  rw [ext4GroupFirstBlockNo, Nat.mul_comm sb.sDescPerBlock nr, Nat.mul_assoc, Nat.add_comm]
  refine ⟨_, ?_, rfl⟩
  repeat' split
  all_goals decide

theorem descriptorLoc_lt (nr : Nat) : descriptorLoc sb nr < descriptorLoc sb (nr + 1) := by
  have hblocks := Nat.mul_le_mul h.desc_le h.blocks_le
  have hle := Nat.mul_le_mul_left (nr + 1) hblocks
  have hprimary := h.primary
  by_cases hlt : nr + 1 < sb.sFirstMetaBg
  · rw [descriptorLoc, if_pos (.inr (by omega)), descriptorLoc, if_pos (.inr hlt)]
    omega
  · obtain ⟨s, hs, heq⟩ := descriptorLoc_meta hm (Nat.le_of_not_lt hlt)
    rw [heq]
    by_cases hlt' : nr < sb.sFirstMetaBg
    · rw [descriptorLoc, if_pos (.inr hlt')]
      omega
    · obtain ⟨s', hs', heq'⟩ := descriptorLoc_meta hm (Nat.le_of_not_lt hlt')
      rw [heq', Nat.add_one_mul]
      omega

theorem descriptorLoc_pos (nr : Nat) : 0 < descriptorLoc sb nr := by
  cases nr with
  | zero =>
    rw [descriptorLoc]
    split
    · omega
    · dsimp only
      rw [Nat.mul_zero, show ext4BgHasSuper sb 0 = 1 from rfl, if_neg Nat.one_ne_zero]
      split <;> omega
  | succ nr => exact Nat.lt_of_le_of_lt (Nat.zero_le _) (descriptorLoc_lt h hm nr)

end

/-- The descriptor blocks of `ext4_flex_group_add`, one after the other. -/
theorem gdbBackups_spec (abort : Nat → Nat → Bool) : ∀ (gdbNum oldGdb : Nat),
    (∀ nr, gdbNum ≤ nr → nr < gdbNum + n → ∀ abort,
      ∃ blocks, updateBackups sb abort (descriptorLoc sb nr) sb.metaBg = some blocks
        ∧ ∀ b ∈ blocks, Backup sb (.desc nr) b) →
    ∃ writes, gdbBackups sb abort n gdbNum oldGdb = some writes
      ∧ ∀ w ∈ writes, Backup sb w.1 w.2 := by
  induction n with
  | zero =>
    intro gdbNum oldGdb _
    exact ⟨[], rfl, nofun⟩
  | succ n ih =>
    intro gdbNum oldGdb h
    have hrest := fun old => ih (gdbNum + 1) old fun nr h1 h2 => h nr (by omega) (by omega)
    rw [gdbBackups]
    split
    · exact hrest oldGdb
    · obtain ⟨blocks, heq, hblocks⟩ := h gdbNum (Nat.le_refl _) (by omega) (abort (gdbNum + 1))
      obtain ⟨writes, heq', hwrites⟩ := hrest (descriptorLoc sb gdbNum)
      rw [heq, heq']
      exact ⟨_, rfl, List.forall_mem_append.mpr ⟨List.forall_mem_map.mpr hblocks, hwrites⟩⟩

/-- None of the descriptor blocks is left out. -/
theorem gdbBackups_mem (h : ResizeOk sb) (hm : sb.metaBg = true) (abort : Nat → Nat → Bool)
    {writes : List (Copy × Nat)} {gdbNum oldGdb : Nat} (hold : oldGdb < descriptorLoc sb gdbNum)
    (heq : gdbBackups sb abort n gdbNum oldGdb = some writes) (hge : gdbNum ≤ nr)
    (hlt : nr < gdbNum + n) :
    ∃ blocks, updateBackups sb (abort (nr + 1)) (descriptorLoc sb nr) true = some blocks
      ∧ ∀ b ∈ blocks, (.desc nr, b) ∈ writes := by
  induction n generalizing writes gdbNum oldGdb with
  | zero => omega
  | succ n ih =>
    rw [gdbBackups, if_neg (Nat.ne_of_lt hold), hm] at heq
    split at heq
    · rename_i blocks rest hblocks hrest
      injection heq with heq
      subst heq
      rcases Nat.eq_or_lt_of_le hge with rfl | hgt
      · refine ⟨blocks, hblocks, fun b hb => List.mem_append_left _ ?_⟩
        exact List.mem_map_of_mem hb
      · obtain ⟨blocks', heq', hmem⟩ := ih (descriptorLoc_lt h hm gdbNum) hrest hgt (by omega)
        exact ⟨blocks', heq', fun b hb => List.mem_append_right _ (hmem b hb)⟩
    · cases heq

end Calls

/-- The groups are listed exactly, and every block that is overwritten is the one
its group keeps for the copy: by the update of the superblock alone, and after
`count` groups were added from `group` on. -/
def BackupsReserved (sb : ResizeSb) (group count : Nat) : Prop :=
  ListsSupers sb
    ∧ (∀ abort, ∃ blocks, updateBackups sb abort sb.sbhBlocknr false = some blocks
      ∧ ∀ b ∈ blocks, Backup sb .super b)
    ∧ ∀ abort, ∃ writes, flexGroupBackups sb abort group count = some writes
      ∧ ∀ w ∈ writes, Backup sb w.1 w.2

end Ext4.Resize
