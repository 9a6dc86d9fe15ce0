import Ext4.Lib.SearchTree
import Mathlib.Algebra.Group.Nat.Defs

/-!
# Block validity — system zones

The blocks that files must not use are kept in a red-black tree of zones
(block_validity.c). `add_system_zone` puts a range into the tree and
`ext4_data_block_valid` asks whether a range meets one. Both walk down from
the root, and how the tree is balanced is left open: every call comes with a
shape for the sequence of zones it finds.

A zone is added by looking at its first block only. If the new range reaches
from a block that is not in any zone over one that is, the tree holds zones
that overlap, and a later query can walk past the wrong one.
-/

namespace Ext4.BlockValidity

open SearchTree

/-- `struct ext4_system_zone`: `startBlk` has 64 bits, `count` 32. -/
structure SystemZone where
  startBlk : Nat
  count : Nat
deriving DecidableEq, Repr

/-- `start_blk + count`. -/
def SystemZone.endBlk (z : SystemZone) : Nat := (z.startBlk + z.count) % 2 ^ 64

def canMerge (entry1 entry2 : SystemZone) : Bool := entry1.endBlk == entry2.startBlk

/-- The way `add_system_zone` takes at an entry. -/
def addDir (start : Nat) (entry : SystemZone) : Ordering :=
  if start < entry.startBlk then .lt
  else if entry.endBlk ≤ start then .gt
  else .eq

/-- The entry that holds the first block of the new range, extended to its
end. -/
def extend (start count : Nat) (entry : SystemZone) : SystemZone :=
  if entry.endBlk < (start + count) % 2 ^ 64 then
    { entry with count := (start + count - entry.startBlk) % 2 ^ 32 }
  else entry

def mergeLeft (z : Zip SystemZone) : Zip SystemZone :=
  match z.before.getLast? with
  | none => z
  | some entry =>
      if canMerge entry z.cur then
        ⟨z.before.dropLast, ⟨entry.startBlk, (z.cur.count + entry.count) % 2 ^ 32⟩, z.after⟩
      else z

def mergeRight (z : Zip SystemZone) : Zip SystemZone :=
  match z.after with
  | [] => z
  | entry :: after =>
      if canMerge z.cur entry then
        ⟨z.before, { z.cur with count := (z.cur.count + entry.count) % 2 ^ 32 }, after⟩
      else z

/-- Where `new_entry` is before the merging: an entry that was extended, or a
new node. `none` is `-ENOMEM`. -/
def newEntry (shape : Shape SystemZone) (allocOk : Bool) (zones : List SystemZone)
    (start count : Nat) : Option (Zip SystemZone) :=
  match descend (addDir start) (shape.tree zones) with
  | none => if allocOk then some ⟨[], ⟨start, count⟩, []⟩ else none
  | some z =>
      match addDir start z.cur with
      | .eq => some ⟨z.before, extend start count z.cur, z.after⟩
      | .lt => if allocOk then some ⟨z.before, ⟨start, count⟩, z.cur :: z.after⟩ else none
      | .gt => if allocOk then some ⟨z.before ++ [z.cur], ⟨start, count⟩, z.after⟩ else none

def addSystemZone (shape : Shape SystemZone) (allocOk : Bool) (zones : List SystemZone)
    (start count : Nat) : Option (List SystemZone) :=
  (newEntry shape allocOk zones start count).map fun z => (mergeRight (mergeLeft z)).toList

/-- The way `ext4_data_block_valid` takes at an entry. -/
def validDir (start count : Nat) (entry : SystemZone) : Ordering :=
  if (start + count + (2 ^ 64 - 1)) % 2 ^ 64 < entry.startBlk then .lt
  else if entry.endBlk ≤ start then .gt
  else .eq

/-- The fields of the superblock the check reads. -/
structure SuperBlock where
  sFirstDataBlock : Nat
  blocksCount : Nat

def ext4DataBlockValid (es : SuperBlock) (shape : Shape SystemZone) (zones : List SystemZone)
    (start count : Nat) : Bool :=
  if start ≤ es.sFirstDataBlock ∨ (start + count) % 2 ^ 64 < start
      ∨ es.blocksCount < (start + count) % 2 ^ 64 then false
  else
    match descend (validDir start count) (shape.tree zones) with
    | none => true
    | some z => validDir start count z.cur != .eq

/-- One call of `add_system_zone`, with the shape of the tree it finds and
whether its allocation succeeds. -/
structure Call where
  shape : Shape SystemZone
  allocOk : Bool
  startBlk : Nat
  count : Nat

/-- The zones after a sequence of calls, none of which fails. -/
def addAll (zones : List SystemZone) : List Call → Option (List SystemZone)
  | [] => some zones
  | c :: cs =>
      match addSystemZone c.shape c.allocOk zones c.startBlk c.count with
      | none => none
      | some zones => addAll zones cs

/-! ## Zones that keep apart -/

/-- The block is in one of the zones. -/
def Covered (zones : List SystemZone) (b : Nat) : Prop :=
  ∃ z ∈ zones, z.startBlk ≤ b ∧ b < z.startBlk + z.count

/-- Zones in order with a gap between any two, none empty, none past the end
of the numbers. -/
structure Apart (zones : List SystemZone) : Prop where
  gaps : zones.Pairwise fun x y => x.startBlk + x.count < y.startBlk
  pos : ∀ z ∈ zones, 0 < z.count
  fits : ∀ z ∈ zones, z.startBlk + z.count < 2 ^ 64

variable {l zones' : List SystemZone} {b : Nat} {z : SystemZone}

theorem endBlk_eq (h : z.startBlk + z.count < 2 ^ 64) : z.endBlk = z.startBlk + z.count :=
  Nat.mod_eq_of_lt h

theorem covered_nil : ¬ Covered [] b := fun ⟨_, hz, _⟩ => nomatch hz

theorem covered_append {r : List SystemZone} : Covered (l ++ r) b ↔ Covered l b ∨ Covered r b := by
  simp only [Covered, List.mem_append, or_and_right, exists_or]

theorem covered_cons :
    Covered (z :: l) b ↔ (z.startBlk ≤ b ∧ b < z.startBlk + z.count) ∨ Covered l b := by
  simp only [Covered, List.mem_cons, exists_eq_or_imp]

theorem Apart.directed {zones : List SystemZone} (h : Apart zones) {dir : SystemZone → Ordering}
    {lo hi : Nat} (hlt : ∀ z ∈ zones, dir z = .lt ↔ hi < z.startBlk)
    (hgt : ∀ z ∈ zones, dir z = .gt ↔ ¬ hi < z.startBlk ∧ z.startBlk + z.count ≤ lo)
    (hle : lo ≤ hi) : Directed dir zones := by
  refine List.Pairwise.imp_of_mem (fun {x y} hx hy hxy => ⟨fun h1 => ?_, fun h1 => ?_⟩) h.gaps
  · rw [hlt x hx] at h1
    rw [hlt y hy]
    omega
  · rw [hgt y hy] at h1
    rw [hgt x hx]
    have := h.pos y hy
    omega

theorem dataBlockValid_iff {es : SuperBlock} {zones : List SystemZone} (h : Apart zones)
    (shape : Shape SystemZone) {start count : Nat} (hes : es.blocksCount < 2 ^ 64)
    (hstart : start < 2 ^ 64) (hcount : 0 < count) (hcount' : count < 2 ^ 32) :
    ext4DataBlockValid es shape zones start count = true
      ↔ es.sFirstDataBlock < start ∧ start + count ≤ es.blocksCount
        ∧ ∀ b, start ≤ b → b < start + count → ¬ Covered zones b := by
  rw [ext4DataBlockValid]
  split
  · rename_i hbad
    refine iff_of_false Bool.false_ne_true fun hc => ?_
    obtain ⟨h1, h2, -⟩ := hc
    rw [Nat.mod_eq_of_lt (by omega)] at hbad
    omega
  · rename_i hgood
    by_cases hfit : start + count < 2 ^ 64
    · rw [Nat.mod_eq_of_lt hfit] at hgood
      have hlast : (start + count + (2 ^ 64 - 1)) % 2 ^ 64 = start + count - 1 := by omega
      have hlt : ∀ z ∈ zones, validDir start count z = .lt ↔ start + count - 1 < z.startBlk := by
        intro z hz
        rw [validDir, hlast]
        split
        · simp_all
        · split <;> simp_all
      have hgt : ∀ z ∈ zones, validDir start count z = .gt
          ↔ ¬ start + count - 1 < z.startBlk ∧ z.startBlk + z.count ≤ start := by
        intro z hz
        rw [validDir, hlast, endBlk_eq (h.fits z hz)]
        split
        · simp_all
        · split <;> simp_all
      have hdir := h.directed hlt hgt (by omega)
      -- an entry is passed exactly if it has no block of the range
      have hmiss : ∀ z ∈ zones, validDir start count z ≠ .eq →
          ∀ b, start ≤ b → b < start + count → ¬ (z.startBlk ≤ b ∧ b < z.startBlk + z.count) := by
        intro z hz hne b h1 h2 hb
        cases hv : validDir start count z with
        | lt => rw [hlt z hz] at hv; omega
        | gt => rw [hgt z hz] at hv; omega
        | eq => exact hne hv
      cases hd : descend (validDir start count) (shape.tree zones) with
      | none =>
        obtain rfl := descend_eq_none hd
        exact ⟨fun _ => ⟨by omega, by omega, fun b _ _ => covered_nil⟩, fun _ => rfl⟩
      | some z =>
        have htoList := descend_toList hd
        have hmem : z.cur ∈ zones := htoList ▸ z.cur_mem
        rw [bne_iff_ne]
        constructor
        · intro hne
          refine ⟨by omega, by omega, fun b h1 h2 hc => ?_⟩
          obtain ⟨y, hy, hyb⟩ := hc
          have hpass : validDir start count y ≠ .eq := by
            obtain ⟨hbefore, hafter⟩ := (descend_ends hdir hd).sides hne
            rw [← htoList, Zip.toList, List.mem_append, List.mem_cons] at hy
            rcases hy with hy | rfl | hy
            · rw [hbefore y hy]; decide
            · exact hne
            · rw [hafter y hy]; decide
          exact hmiss y hy hpass b h1 h2 hyb
        · rintro ⟨-, -, hfree⟩ heq
          rw [validDir, hlast, endBlk_eq (h.fits z.cur hmem)] at heq
          have hpos := h.pos z.cur hmem
          split at heq
          · cases heq
          · split at heq
            · cases heq
            · exact hfree (max start z.cur.startBlk) (by omega) (by omega)
                ⟨z.cur, hmem, by omega, by omega⟩
    · -- the sum wraps around, so it is below its first part
      omega

/-! ## Adding a zone -/

/-- A new entry in its place: the other zones keep apart, and the entry meets
none of them. It may still touch one. -/
structure Placed (z : Zip SystemZone) : Prop where
  rest : Apart (z.before ++ z.after)
  pos : 0 < z.cur.count
  fits : z.cur.startBlk + z.cur.count < 2 ^ 64
  below : ∀ x ∈ z.before, x.startBlk + x.count ≤ z.cur.startBlk
  above : ∀ y ∈ z.after, z.cur.startBlk + z.cur.count ≤ y.startBlk

/-- No run of covered blocks is too long for the field `count`. -/
def ShortRuns (covered : Nat → Prop) : Prop :=
  ∀ a n, (∀ b, a ≤ b → b < a + n → covered b) → n < 2 ^ 32

theorem Apart.sublist {l' : List SystemZone} (h : Apart l') (hs : l.Sublist l') : Apart l :=
  ⟨h.gaps.sublist hs, fun z hz => h.pos z (hs.subset hz), fun z hz => h.fits z (hs.subset hz)⟩

theorem mergeLeft_spec {z : Zip SystemZone} (h : Placed z) (hruns : ShortRuns (Covered z.toList)) :
    Placed (mergeLeft z)
      ∧ (∀ x ∈ (mergeLeft z).before, x.startBlk + x.count < (mergeLeft z).cur.startBlk)
      ∧ ∀ b, Covered (mergeLeft z).toList b ↔ Covered z.toList b := by
  rw [mergeLeft]
  cases hlast : z.before.getLast? with
  | none =>
    refine ⟨h, fun x hx => ?_, fun b => Iff.rfl⟩
    cases (List.getLast?_eq_none_iff.mp hlast ▸ hx : x ∈ ([] : List SystemZone))
  | some e =>
    obtain ⟨ys, hys⟩ := List.getLast?_eq_some_iff.mp hlast
    have hrest := h.rest
    rw [hys] at hrest
    have hgap : ∀ x ∈ ys, x.startBlk + x.count < e.startBlk := fun x hx =>
      (List.pairwise_append.mp (List.pairwise_append.mp hrest.gaps).1).2.2 x hx e (by simp)
    have hefits := hrest.fits e (by simp)
    have hepos := hrest.pos e (by simp)
    have hebelow := h.below e (by rw [hys]; simp)
    have hpos := h.pos
    have hfits := h.fits
    dsimp only
    split
    · rename_i hcan
      rw [canMerge, beq_iff_eq, endBlk_eq hefits] at hcan
      have hlen : z.cur.count + e.count < 2 ^ 32 := by
        refine hruns e.startBlk _ fun b h1 h2 => ?_
        rw [Zip.toList, covered_append, covered_cons, hys, covered_append, covered_cons]
        omega
      have hcur : z.before.dropLast = ys := by rw [hys, List.dropLast_concat]
      rw [Nat.mod_eq_of_lt hlen, hcur]
      refine ⟨⟨hrest.sublist ?_, by simp; omega, by simp; omega, ?_, fun y hy => ?_⟩, hgap,
        fun b => ?_⟩
      · simp
      · exact fun x hx => Nat.le_of_lt (hgap x hx)
      · have := h.above y hy
        show e.startBlk + (z.cur.count + e.count) ≤ y.startBlk
        omega
      · have hunion : (e.startBlk ≤ b ∧ b < e.startBlk + (z.cur.count + e.count))
            ↔ (e.startBlk ≤ b ∧ b < e.startBlk + e.count)
              ∨ z.cur.startBlk ≤ b ∧ b < z.cur.startBlk + z.cur.count := by omega
        simp only [Zip.toList, hys, covered_append, covered_cons, covered_nil, or_false, hunion,
          or_assoc]
    · rename_i hcan
      rw [canMerge, beq_iff_eq, endBlk_eq hefits] at hcan
      refine ⟨h, fun x hx => ?_, fun b => Iff.rfl⟩
      rw [hys, List.mem_append, List.mem_singleton] at hx
      rcases hx with hx | rfl
      · have := hgap x hx
        omega
      · omega

theorem mergeRight_spec {z : Zip SystemZone} (h : Placed z)
    (hbelow : ∀ x ∈ z.before, x.startBlk + x.count < z.cur.startBlk)
    (hruns : ShortRuns (Covered z.toList)) :
    Apart (mergeRight z).toList ∧ ∀ b, Covered (mergeRight z).toList b ↔ Covered z.toList b := by
  have hrest := h.rest
  have hpos := h.pos
  have hfits := h.fits
  -- an entry that touches nothing completes the zones
  have happart : ∀ (cur : SystemZone) (after : List SystemZone), after.Sublist z.after →
      cur.startBlk = z.cur.startBlk → 0 < cur.count → cur.startBlk + cur.count < 2 ^ 64 →
      (∀ y ∈ after, cur.startBlk + cur.count < y.startBlk) →
      Apart (z.before ++ cur :: after) := by
    intro cur after hsub hstart hpos' hfits' habove
    have hrest' : Apart (z.before ++ after) :=
      hrest.sublist (List.Sublist.append_left hsub z.before)
    obtain ⟨h1, h2, h3⟩ := List.pairwise_append.mp hrest'.gaps
    obtain ⟨hp1, hp2⟩ := List.forall_mem_append.mp hrest'.pos
    obtain ⟨hf1, hf2⟩ := List.forall_mem_append.mp hrest'.fits
    refine ⟨List.pairwise_append.mpr ⟨h1, List.pairwise_cons.mpr ⟨habove, h2⟩, ?_⟩,
      List.forall_mem_append.mpr ⟨hp1, List.forall_mem_cons.mpr ⟨hpos', hp2⟩⟩,
      List.forall_mem_append.mpr ⟨hf1, List.forall_mem_cons.mpr ⟨hfits', hf2⟩⟩⟩
    intro x hx y hy
    rcases List.mem_cons.mp hy with rfl | hy
    · rw [hstart]
      exact hbelow x hx
    · exact h3 x hx y hy
  rw [mergeRight]
  cases hafter : z.after with
  | nil =>
    refine ⟨?_, fun b => Iff.rfl⟩
    exact happart z.cur z.after (List.Sublist.refl _) rfl hpos hfits (by rw [hafter]; simp)
  | cons e after =>
    have hemem : e ∈ z.before ++ z.after := by rw [hafter]; simp
    have hefits := hrest.fits e hemem
    have hepos := hrest.pos e hemem
    have heabove := h.above e (by rw [hafter]; simp)
    have hgap : ∀ y ∈ after, e.startBlk + e.count < y.startBlk := by
      have := (List.pairwise_append.mp hrest.gaps).2.1
      rw [hafter] at this
      exact fun y hy => List.rel_of_pairwise_cons this hy
    dsimp only
    split
    · rename_i hcan
      rw [canMerge, beq_iff_eq, endBlk_eq hfits] at hcan
      have hlen : z.cur.count + e.count < 2 ^ 32 := by
        refine hruns z.cur.startBlk _ fun b h1 h2 => ?_
        rw [Zip.toList, covered_append, covered_cons, hafter, covered_cons]
        omega
      rw [Nat.mod_eq_of_lt hlen]
      refine ⟨?_, fun b => ?_⟩
      · refine happart ⟨z.cur.startBlk, z.cur.count + e.count⟩ after ?_ rfl (by simp; omega)
          (by simp; omega) fun y hy => ?_
        · rw [hafter]
          exact List.sublist_cons_self e after
        · have := hgap y hy
          show z.cur.startBlk + (z.cur.count + e.count) < y.startBlk
          omega
      · have hunion : (z.cur.startBlk ≤ b ∧ b < z.cur.startBlk + (z.cur.count + e.count))
            ↔ (z.cur.startBlk ≤ b ∧ b < z.cur.startBlk + z.cur.count)
              ∨ e.startBlk ≤ b ∧ b < e.startBlk + e.count := by omega
        simp only [Zip.toList, hafter, covered_append, covered_cons, hunion]
        rw [or_assoc]
    · rename_i hcan
      rw [canMerge, beq_iff_eq, endBlk_eq hfits] at hcan
      refine ⟨happart z.cur z.after (List.Sublist.refl _) rfl hpos hfits fun y hy => ?_,
        fun b => Iff.rfl⟩
      rw [hafter] at hy
      rcases List.mem_cons.mp hy with rfl | hy
      · omega
      · have := hgap y hy
        omega

section Place

variable {shape : Shape SystemZone} {allocOk : Bool} {zones : List SystemZone} {start count : Nat}

theorem addDir_lt : addDir start z = .lt ↔ start < z.startBlk := by
  rw [addDir]
  split
  · rename_i hlt
    exact iff_of_true rfl hlt
  · rename_i hge
    refine iff_of_false (fun h => ?_) hge
    split at h <;> cases h

theorem addDir_gt (hz : z.startBlk + z.count < 2 ^ 64) :
    addDir start z = .gt ↔ ¬ start < z.startBlk ∧ z.startBlk + z.count ≤ start := by
  rw [addDir, endBlk_eq hz]
  split
  · rename_i hlt
    exact ⟨nofun, fun h => absurd hlt h.1⟩
  · rename_i hge
    split
    · rename_i hle
      exact iff_of_true rfl ⟨hge, hle⟩
    · rename_i hgt
      refine iff_of_false (fun h => ?_) fun h => hgt h.2
      cases h

/-- The blocks of the range that are in a zone come first. -/
def FrontFirst (zones : List SystemZone) (start count : Nat) : Prop :=
  ∀ x y, start ≤ x → x < y → y < start + count → ¬ Covered zones x → ¬ Covered zones y

/-- A zone behind a block that is in no zone is behind the whole range. -/
theorem behind (hz : Apart zones) (horder : FrontFirst zones start count) {x : Nat} (hx : start ≤ x)
    (hfresh : ¬ Covered zones x) {y : SystemZone} (hy : y ∈ zones)
    (hxy : x < y.startBlk) : start + count ≤ y.startBlk := by
  by_contra hlt
  refine horder x y.startBlk hx hxy (Nat.lt_of_not_le hlt) hfresh ⟨y, hy, Nat.le_refl _, ?_⟩
  exact Nat.lt_add_of_pos_right (hz.pos y hy)

section

variable (hcount : 0 < count) (hfits : start + count < 2 ^ 64)

include hcount hfits

/-- A new node between the zones in front of the range and those behind it. -/
theorem placed_new (before after : List SystemZone) (hz : Apart (before ++ after))
    (horder : FrontFirst (before ++ after) start count)
    (hbefore : ∀ x ∈ before, addDir start x = .gt) (hafter : ∀ y ∈ after, addDir start y = .lt) :
    Placed ⟨before, ⟨start, count⟩, after⟩ ∧ ∀ b, Covered (before ++ ⟨start, count⟩ :: after) b
      ↔ Covered (before ++ after) b ∨ start ≤ b ∧ b < start + count := by
  have hbelow : ∀ x ∈ before, x.startBlk + x.count ≤ start := fun x hx =>
    ((addDir_gt (hz.fits x (by simp [hx]))).mp (hbefore x hx)).2
  have hlt : ∀ y ∈ after, start < y.startBlk := fun y hy => addDir_lt.mp (hafter y hy)
  have hfresh : ¬ Covered (before ++ after) start := by
    rintro ⟨w, hw, h1, h2⟩
    rcases List.mem_append.mp hw with hw | hw
    · have := hbelow w hw
      omega
    · have := hlt w hw
      omega
  refine ⟨⟨hz, hcount, hfits, hbelow, fun y hy => ?_⟩, fun b => ?_⟩
  · exact behind hz horder (Nat.le_refl _) hfresh (List.mem_append_right _ hy) (hlt y hy)
  · rw [covered_append, covered_append, covered_cons]
    rw [or_assoc]
    exact or_congr_right or_comm

/-- The zone that holds the first block of the range, extended to its end. -/
theorem placed_extend {before after : List SystemZone} {cur : SystemZone}
    (hz : Apart (before ++ cur :: after))
    (hruns : ShortRuns fun b => Covered (before ++ cur :: after) b ∨ start ≤ b ∧ b < start + count)
    (horder : FrontFirst (before ++ cur :: after) start count) (hdir : addDir start cur = .eq) :
    Placed ⟨before, extend start count cur, after⟩
      ∧ ∀ b, Covered (before ++ extend start count cur :: after) b
        ↔ Covered (before ++ cur :: after) b ∨ start ≤ b ∧ b < start + count := by
  have hcfits := hz.fits cur (by simp)
  have hcpos := hz.pos cur (by simp)
  obtain ⟨-, hgaps, hcross⟩ := List.pairwise_append.mp hz.gaps
  have hbelow : ∀ x ∈ before, x.startBlk + x.count < cur.startBlk := fun x hx =>
    hcross x hx cur (by simp)
  have habove : ∀ y ∈ after, cur.startBlk + cur.count < y.startBlk := fun y hy =>
    List.rel_of_pairwise_cons hgaps hy
  have hrest : Apart (before ++ after) :=
    hz.sublist (List.Sublist.append_left (List.sublist_cons_self cur after) before)
  have hin : cur.startBlk ≤ start ∧ start < cur.startBlk + cur.count := by
    rw [addDir, endBlk_eq hcfits] at hdir
    split at hdir
    · cases hdir
    split at hdir
    · cases hdir
    exact ⟨by omega, by omega⟩
  rw [extend, endBlk_eq hcfits, Nat.mod_eq_of_lt hfits]
  split
  · have hlen : start + count - cur.startBlk < 2 ^ 32 := by
      refine hruns cur.startBlk _ fun b h1 h2 => ?_
      show Covered (before ++ cur :: after) b ∨ start ≤ b ∧ b < start + count
      rw [covered_append, covered_cons]
      omega
    rw [Nat.mod_eq_of_lt hlen]
    -- the first block behind the zone is in no other one
    have hfresh : ¬ Covered (before ++ cur :: after) (cur.startBlk + cur.count) := by
      rintro ⟨w, hw, h1, h2⟩
      rcases List.mem_append.mp hw with hw | hw
      · have := hbelow w hw
        omega
      · rcases List.mem_cons.mp hw with rfl | hw
        · omega
        · have := habove w hw
          omega
    refine ⟨⟨hrest, by simp; omega, by simp; omega, fun x hx => Nat.le_of_lt (hbelow x hx),
      fun y hy => ?_⟩, fun b => ?_⟩
    · have := behind hz horder (by omega) hfresh (by simp [hy]) (habove y hy)
      show cur.startBlk + (start + count - cur.startBlk) ≤ y.startBlk
      omega
    · have hunion : (cur.startBlk ≤ b ∧ b < cur.startBlk + (start + count - cur.startBlk))
          ↔ (cur.startBlk ≤ b ∧ b < cur.startBlk + cur.count)
            ∨ start ≤ b ∧ b < start + count := by omega
      simp only [covered_append, covered_cons, hunion, or_assoc]
      exact or_congr_right (or_congr_right or_comm)
  · refine ⟨⟨hrest, hcpos, hcfits, fun x hx => Nat.le_of_lt (hbelow x hx),
      fun y hy => Nat.le_of_lt (habove y hy)⟩, fun b => ?_⟩
    have himp : start ≤ b ∧ b < start + count →
        cur.startBlk ≤ b ∧ b < cur.startBlk + cur.count := by
      omega
    rw [covered_append, covered_cons]
    exact (or_iff_left_of_imp fun hr => .inr (.inl (himp hr))).symm

/-- The entry goes to its place if no block of the range that is in a zone
comes behind one that is not. -/
theorem newEntry_spec {z : Zip SystemZone}
    (h : newEntry shape allocOk zones start count = some z) (hz : Apart zones)
    (hruns : ShortRuns fun b => Covered zones b ∨ start ≤ b ∧ b < start + count)
    (horder : FrontFirst zones start count) :
    Placed z ∧ ∀ b, Covered z.toList b ↔ Covered zones b ∨ start ≤ b ∧ b < start + count := by
  have hdirected : Directed (addDir start) zones :=
    hz.directed (fun w _ => addDir_lt) (fun w hw => addDir_gt (hz.fits w hw)) (Nat.le_refl start)
  rw [newEntry] at h
  cases hd : descend (addDir start) (shape.tree zones) with
  | none =>
    obtain rfl := descend_eq_none hd
    rw [hd] at h
    dsimp only at h
    split at h
    · injection h with h
      subst h
      exact placed_new hcount hfits [] [] hz horder (by simp) (by simp)
    · cases h
  | some w =>
    have htoList := descend_toList hd
    rw [Zip.toList] at htoList
    have hends := descend_ends hdirected hd
    subst htoList
    rw [hd] at h
    dsimp only at h
    cases hdir : addDir start w.cur with
    | eq =>
      rw [hdir] at h
      injection h with h
      subst h
      exact placed_extend hcount hfits hz hruns horder hdir
    | lt =>
      rw [hdir] at h
      dsimp only at h
      split at h
      · injection h with h
        subst h
        obtain ⟨hbefore, hafter⟩ := hends.sides (by rw [hdir]; simp)
        exact placed_new hcount hfits _ _ hz horder hbefore
          (List.forall_mem_cons.mpr ⟨hdir, hafter⟩)
      · cases h
    | gt =>
      rw [hdir] at h
      dsimp only at h
      split at h
      · injection h with h
        subst h
        obtain ⟨hbefore, hafter⟩ := hends.sides (by rw [hdir]; simp)
        rw [List.append_cons w.before w.cur w.after] at hz hruns horder ⊢
        exact placed_new hcount hfits _ _ hz horder
          (List.forall_mem_append.mpr ⟨hbefore, by simpa using hdir⟩) hafter
      · cases h

/-- `add_system_zone` adds the blocks of its range, and the zones keep apart. -/
theorem addSystemZone_spec (h : addSystemZone shape allocOk zones start count = some zones')
    (hz : Apart zones) (hruns : ShortRuns fun b => Covered zones b ∨ start ≤ b ∧ b < start + count)
    (horder : FrontFirst zones start count) :
    Apart zones' ∧ ∀ b, Covered zones' b ↔ Covered zones b ∨ start ≤ b ∧ b < start + count := by
  rw [addSystemZone] at h
  obtain ⟨z, hnew, rfl⟩ := Option.map_eq_some_iff.mp h
  obtain ⟨hplaced, hcov⟩ := newEntry_spec hcount hfits hnew hz hruns horder
  have hruns1 : ShortRuns (Covered z.toList) := fun a n ha =>
    hruns a n fun b h1 h2 => (hcov b).mp (ha b h1 h2)
  obtain ⟨hplaced2, hbelow, hcov2⟩ := mergeLeft_spec hplaced hruns1
  have hruns2 : ShortRuns (Covered (mergeLeft z).toList) := fun a n ha =>
    hruns1 a n fun b h1 h2 => (hcov2 b).mp (ha b h1 h2)
  obtain ⟨hapart, hcov3⟩ := mergeRight_spec hplaced2 hbelow hruns2
  exact ⟨hapart, fun b => ((hcov3 b).trans (hcov2 b)).trans (hcov b)⟩

end

end Place

/-! ## Sequences of calls -/

/-- The block is in one of the ranges that were passed. -/
def Added (calls : List Call) (b : Nat) : Prop :=
  ∃ c ∈ calls, c.startBlk ≤ b ∧ b < c.startBlk + c.count

/-- Ranges that are not empty and whose numbers fit, such that no call adds a
block in front of one of its blocks that was there before. -/
structure InOrder (calls : List Call) : Prop where
  pos : ∀ c ∈ calls, 0 < c.count
  fits : ∀ c ∈ calls, c.startBlk + c.count < 2 ^ 64
  runs : ShortRuns (Added calls)
  order : ∀ done c rest, calls = done ++ c :: rest → ∀ x y, c.startBlk ≤ x → x < y →
    y < c.startBlk + c.count → ¬ Added done x → ¬ Added done y

theorem added_concat {done : List Call} {c : Call} :
    Added (done ++ [c]) b ↔ Added done b ∨ c.startBlk ≤ b ∧ b < c.startBlk + c.count := by
  simp only [Added, List.mem_append, List.mem_singleton, or_and_right, exists_or, exists_eq_left]

/-- After any number of the calls the zones keep apart and cover the ranges
passed so far. -/
theorem addAll_spec (done : List Call) {calls : List Call} {zones : List SystemZone}
    (h : InOrder (done ++ calls)) (hz : Apart zones) (hcov : ∀ b, Covered zones b ↔ Added done b)
    (hadd : addAll zones calls = some zones') :
    Apart zones' ∧ ∀ b, Covered zones' b ↔ Added (done ++ calls) b := by
  induction calls generalizing done zones with
  | nil =>
    injection hadd with hadd
    rw [List.append_nil, ← hadd]
    exact ⟨hz, hcov⟩
  | cons c cs ih =>
    rw [addAll] at hadd
    cases hone : addSystemZone c.shape c.allocOk zones c.startBlk c.count with
    | none => rw [hone] at hadd; nomatch hadd
    | some zones1 =>
      rw [hone] at hadd
      have hmem : c ∈ done ++ c :: cs := by simp
      have hruns : ShortRuns fun b =>
          Covered zones b ∨ c.startBlk ≤ b ∧ b < c.startBlk + c.count := by
        refine fun a n ha => h.runs a n fun b h1 h2 => ?_
        rcases ha b h1 h2 with hb | hb
        · obtain ⟨d, hd, hdb⟩ := (hcov b).mp hb
          exact ⟨d, by simp [hd], hdb⟩
        · exact ⟨c, hmem, hb⟩
      have horder : FrontFirst zones c.startBlk c.count := by
        intro x y h1 h2 h3
        rw [hcov x, hcov y]
        exact h.order done c cs rfl x y h1 h2 h3
      obtain ⟨hz1, hcov1⟩ := addSystemZone_spec (h.pos c hmem) (h.fits c hmem) hone hz hruns horder
      rw [List.append_cons] at h ⊢
      refine ih _ h hz1 (fun b => ?_) hadd
      rw [hcov1 b, hcov b, added_concat]

/-- The check is exact after calls that add their ranges in order: a
non-empty range passes if and only if it is above the first data block, inside
the file system, and has no block of an added range. -/
theorem dataBlockValid_addAll {calls : List Call} {zones : List SystemZone}
    (h : InOrder calls) (hadd : addAll [] calls = some zones) (es : SuperBlock)
    (hes : es.blocksCount < 2 ^ 64) (shape : Shape SystemZone) {b n : Nat} (hb : b < 2 ^ 64)
    (hn : 0 < n) (hn' : n < 2 ^ 32) :
    ext4DataBlockValid es shape zones b n = true
      ↔ es.sFirstDataBlock < b ∧ b + n ≤ es.blocksCount
        ∧ ∀ x, b ≤ x → x < b + n → ∀ c ∈ calls, ¬ (c.startBlk ≤ x ∧ x < c.startBlk + c.count) := by
  have hempty : Apart [] :=
    ⟨List.Pairwise.nil, nofun, nofun⟩
  obtain ⟨hz, hcov⟩ := addAll_spec [] h hempty
    (fun x => ⟨fun hx => absurd hx covered_nil, fun ⟨_, hc, _⟩ => (nomatch hc)⟩) hadd
  rw [dataBlockValid_iff hz shape hes hb hn hn']
  refine and_congr_right fun _ => and_congr_right fun _ => forall_congr' fun x => ?_
  refine forall_congr' fun _ => forall_congr' fun _ => ?_
  rw [hcov x, List.nil_append, Added, not_exists]
  exact forall_congr' fun c => not_and

/-- A range that begins in another one and reaches past it. -/
theorem dataBlockValid_addAll_extended :
    ext4DataBlockValid ⟨0, 100⟩ (Shape.spine _) [⟨10, 10⟩] 20 5 = true := by
  have hcalls : InOrder [⟨Shape.spine _, true, 10, 5⟩, ⟨Shape.spine _, true, 12, 8⟩] := by
    refine ⟨by simp, by simp, fun a n ha => ?_, fun done c rest hsplit => ?_⟩
    · rcases Nat.eq_zero_or_pos n with rfl | hn
      · decide
      · obtain ⟨c, hc, h1, h2⟩ := ha (a + n - 1) (by omega) (by omega)
        simp only [List.mem_cons, List.not_mem_nil, or_false] at hc
        rcases hc with rfl | rfl <;> (simp only at h1 h2; omega)
    · match done, hsplit with
      | [], _ => exact fun x y _ _ _ _ ⟨_, hc, _⟩ => nomatch hc
      | [d], hsplit =>
        injection hsplit with hd hsplit
        injection hsplit with hc
        subst hd hc
        rintro x y h1 h2 - hx ⟨e, he, -, h4⟩
        rw [List.mem_singleton.mp he] at h4
        dsimp only at h1 h4
        exact hx ⟨_, List.mem_singleton_self _, by dsimp only; omega, by dsimp only; omega⟩
      | _ :: _ :: done, hsplit =>
        injection hsplit with _ hsplit
        injection hsplit with _ hsplit
        exact absurd hsplit (by simp)
  refine (dataBlockValid_addAll hcalls (by decide) ⟨0, 100⟩ (by decide) (Shape.spine _)
    (by decide) (by decide) (by decide)).mpr ⟨by decide, by decide, fun x hx _ c hc => ?_⟩
  simp only [List.mem_cons, List.not_mem_nil, or_false] at hc
  rcases hc with rfl | rfl <;> (simp only; omega)

/-- Two zones, the second of which is the root: the tree after an insertion to
the left. -/
def leftShape : Shape SystemZone where
  tree
    | [x, y] => .node (.node .nil x .nil) y .nil
    | l => .spine l
  inorder l := by
    match l with
    | [] => rfl
    | [x] => rfl
    | [x, y] => rfl
    | x :: y :: z :: l => exact BinTree.inorder_spine _

/-- Adding `[10, 15)` and then `[5, 25)` leaves two overlapping zones. The
check of block 20 passes the root, finds nothing to its right, and accepts a
block of the second range. -/
theorem dataBlockValid_accepts_added :
    addAll [] [⟨Shape.spine _, true, 10, 5⟩, ⟨Shape.spine _, true, 5, 20⟩]
        = some [⟨5, 20⟩, ⟨10, 5⟩]
      ∧ ext4DataBlockValid ⟨0, 100⟩ leftShape [⟨5, 20⟩, ⟨10, 5⟩] 20 1 = true := by
  decide

end Ext4.BlockValidity
