import Ext4.Lib.Bitmap
import Ext4.Resize.Backups
import Mathlib.Data.Finset.Card

/-!
# Block allocation — groups without a bitmap on disk

The bitmap of a group that was never written is built from the group
descriptor (`ext4_init_block_bitmap`), and its free clusters are counted
without it (`ext4_free_clusters_after_init`). The counting keeps one number
for the clusters in front and three clusters that stand alone. Of the inode
table only the last lone cluster is remembered, which is enough because the
table ascends; the two bitmaps are not compared with each other.
-/

namespace Ext4.Balloc

open Bitmap Resize

/-- What the layout of a group depends on. -/
structure InitSb extends ResizeSb where
  sReservedGdtBlocks : Nat
  sClusterBits : Nat
  blocksCount : Nat
  sItbPerGroup : Nat

structure GroupDesc where
  blockBitmap : Nat
  inodeBitmap : Nat
  inodeTable : Nat

section Model

variable (sb : InitSb) (group : Nat) (gdp : GroupDesc)

/-- `EXT4_NUM_B2C`. -/
def numB2c (blks : Nat) : Nat := (blks + 2 ^ sb.sClusterBits - 1) >>> sb.sClusterBits

def ext4NumBaseMetaClusters : Nat :=
  let num := ext4BgHasSuper sb.toResizeSb group
  let num :=
    if !sb.metaBg ∨ group < sb.sFirstMetaBg * sb.sDescPerBlock then
      if num ≠ 0 then num + ext4BgNumGdb sb.toResizeSb group + sb.sReservedGdtBlocks else num
    else num + ext4BgNumGdb sb.toResizeSb group
  numB2c sb num

def ext4BlockInGroup (block : Nat) : Bool :=
  (block - sb.sFirstDataBlock) / sb.blocksPerGroup = group

/-- The cluster of a block, from the start of the group, if it is one of the
group's. -/
def clusterInGroup (block : Nat) : Option Nat :=
  if ext4BlockInGroup sb group block then
    some ((block - ext4GroupFirstBlockNo sb.toResizeSb group) >>> sb.sClusterBits)
  else none

/-- The clusters of the inode table, block by block. -/
def itblClusters : List Nat :=
  (List.range sb.sItbPerGroup).filterMap fun i => clusterInGroup sb group (gdp.inodeTable + i)

/-- The check of a bitmap in `ext4_num_overhead_clusters`: its cluster is
counted already, or the next one, or it has to be remembered. -/
def noteCluster (numClusters : Nat) : Option Nat → Nat × Option Nat
  | none => (numClusters, none)
  | some c =>
      if c < numClusters then (numClusters, none)
      else if c = numClusters then (numClusters + 1, none)
      else (numClusters, some c)

/-- A turn of the loop over the inode table, on the number of clusters and
`itbl_cluster`. -/
def itblStep (blockCluster inodeCluster : Option Nat) (st : Nat × Option Nat) (c : Nat) :
    Nat × Option Nat :=
  if c < st.1 ∨ some c = inodeCluster ∨ some c = blockCluster ∨ some c = st.2 then st
  else if c = st.1 then (st.1 + 1, st.2)
  else (st.1 + 1, some c)

def ext4NumOverheadClusters : Nat :=
  let b := noteCluster (ext4NumBaseMetaClusters sb group) (clusterInGroup sb group gdp.blockBitmap)
  let i := noteCluster b.1 (clusterInGroup sb group gdp.inodeBitmap)
  let t := (itblClusters sb group gdp).foldl (itblStep b.2 i.2) (i.1, none)
  t.1 + (if b.2.isSome then 1 else 0) + (if i.2.isSome then 1 else 0)

/-- The blocks of the group, of which the last group may have fewer. -/
def blocksInGroup : Nat :=
  if group = sb.sGroupsCount - 1
  then sb.blocksCount - ext4GroupFirstBlockNo sb.toResizeSb group else sb.blocksPerGroup

def numClustersInGroup : Nat := numB2c sb (blocksInGroup sb group)

def ext4FreeClustersAfterInit : Nat :=
  (((numClustersInGroup sb group : Int) - ext4NumOverheadClusters sb group gdp) % 2 ^ 32).toNat

/-- `ext4_set_bit` for each of a list of bits. -/
def setBits (m : Bits) (cs : List Nat) : Bits := cs.foldl (fun m c => put m c true) m

/-- `ext4_init_block_bitmap`, when the checksum of the descriptor is right;
`none` is `-EFSCORRUPTED`. -/
def ext4InitBlockBitmap : Option Bits :=
  let bitMax := ext4NumBaseMetaClusters sb group
  if sb.blocksize ≤ bitMax >>> 3 then none
  else
    let m := setBits (fun _ => false) (List.range bitMax)
    let m := setBits m (clusterInGroup sb group gdp.blockBitmap).toList
    let m := setBits m (clusterInGroup sb group gdp.inodeBitmap).toList
    let m := setBits m (itblClusters sb group gdp)
    let start := numClustersInGroup sb group
    some (fill m start (sb.blocksize * 8 - start) true)

/-- The checks of `ext4_fill_super` and `ext4_check_descriptors`: groups of
whole clusters that fit into one bitmap block, the number of groups from the
number of blocks, and the blocks of the descriptor inside the file system. -/
structure Accepted : Prop where
  blocksize_le : sb.blocksize ≤ 65536
  whole : ∃ n, 0 < n ∧ n ≤ sb.blocksize * 8 ∧ sb.blocksPerGroup = n * 2 ^ sb.sClusterBits
  group_lt : group < sb.sGroupsCount
  last : ext4GroupFirstBlockNo sb.toResizeSb (sb.sGroupsCount - 1) < sb.blocksCount
  count : sb.blocksCount ≤ ext4GroupFirstBlockNo sb.toResizeSb sb.sGroupsCount
  blockBitmap : sb.sFirstDataBlock ≤ gdp.blockBitmap ∧ gdp.blockBitmap < sb.blocksCount
  inodeBitmap : sb.sFirstDataBlock ≤ gdp.inodeBitmap ∧ gdp.inodeBitmap < sb.blocksCount
  inodeTable : sb.sFirstDataBlock ≤ gdp.inodeTable ∧
    gdp.inodeTable + sb.sItbPerGroup ≤ sb.blocksCount

end Model

/-! ## The loop over the inode table -/

variable {sb : InitSb} {group : Nat} {gdp : GroupDesc} {b i : Option Nat}

/-- `S` is counted, and the clusters of the two bitmaps are not in it. Only
clusters from `prev` on will come. -/
structure Counting (b i : Option Nat) (S : Finset Nat) (st : Nat × Option Nat) (prev : Nat) :
    Prop where
  card : S.card = st.1
  low : ∀ x, prev ≤ x → x < st.1 → x ∈ S ∨ some x = i ∨ some x = b
  seen : ∀ x ∈ S, x < st.1 ∨ x ≤ prev
  last : prev ∈ S → prev < st.1 ∨ some prev = st.2
  itbl : ∀ c, some c = st.2 → c ∈ S

theorem Counting.skipped {S : Finset Nat} {st : Nat × Option Nat} {prev c : Nat}
    (h : Counting b i S st prev) (hc : prev ≤ c) (hs : c ∈ S) : c < st.1 ∨ some c = st.2 := by
  rcases h.seen c hs with hlt | hle
  · exact .inl hlt
  · obtain rfl := Nat.le_antisymm hle hc
    exact h.last hs

/-- A turn counts its cluster exactly if it is new. -/
theorem Counting.step {S : Finset Nat} {st : Nat × Option Nat} {prev c : Nat}
    (h : Counting b i S st prev) (hc : prev ≤ c) :
    ∃ S', Counting b i S' (itblStep b i st c) c ∧
      ∀ x, x ∈ S' ↔ x ∈ S ∨ (x = c ∧ some x ≠ i ∧ some x ≠ b) := by
  obtain ⟨num, itbl⟩ := st
  have hskip : (c < num ∨ some c = i ∨ some c = b ∨ some c = itbl) ↔
      c ∈ S ∨ some c = i ∨ some c = b := by
    constructor
    · rintro (hlt | hi | hb | hitbl)
      · exact h.low c hc hlt
      · exact .inr (.inl hi)
      · exact .inr (.inr hb)
      · exact .inl (h.itbl c hitbl)
    · rintro (hs | hi | hb)
      · exact (h.skipped hc hs).imp_right fun hitbl => .inr (.inr hitbl)
      · exact .inr (.inl hi)
      · exact .inr (.inr (.inl hb))
  rw [itblStep]
  split
  · rename_i hold
    refine ⟨S, ⟨h.card, fun x hx => h.low x (by omega), fun x hx => ?_, h.skipped hc, h.itbl⟩,
      fun x => ⟨.inl, ?_⟩⟩
    · have := h.seen x hx
      omega
    · rintro (hs | ⟨rfl, hi, hb⟩)
      · exact hs
      · exact (hskip.mp hold).resolve_right (not_or.mpr ⟨hi, hb⟩)
  · rename_i hnew
    have hcS : c ∉ S := fun hs => hnew (hskip.mpr (.inl hs))
    have hcard : (insert c S).card = num + 1 := by rw [Finset.card_insert_of_notMem hcS, h.card]
    have hle : num ≤ c := Nat.le_of_not_lt fun hlt => hnew (.inl hlt)
    have hseen : ∀ x ∈ insert c S, x < num + 1 ∨ x ≤ c := by
      intro x hx
      rcases Finset.mem_insert.mp hx with rfl | hx
      · exact .inr (Nat.le_refl x)
      · have := h.seen x hx
        omega
    have hlow : ∀ x, c ≤ x → x < num + 1 → x ∈ insert c S ∨ some x = i ∨ some x = b := by
      intro x hx hlt
      obtain rfl : x = c := by omega
      exact .inl (Finset.mem_insert_self x S)
    refine ⟨insert c S, ?_, fun x => ?_⟩
    · split
      · rename_i heq
        exact ⟨hcard, hlow, hseen, fun _ => .inl (heq ▸ Nat.lt_succ_self _),
          fun x hx => Finset.mem_insert_of_mem (h.itbl x hx)⟩
      · refine ⟨hcard, hlow, hseen, fun _ => .inr rfl, fun x hx => ?_⟩
        rw [Option.some.inj hx]
        exact Finset.mem_insert_self c S
    · rw [Finset.mem_insert]
      constructor
      · rintro (rfl | hs)
        · exact .inr ⟨rfl, fun hi => hnew (.inr (.inl hi)), fun hb => hnew (.inr (.inr (.inl hb)))⟩
        · exact .inl hs
      · rintro (hs | ⟨rfl, -, -⟩)
        · exact .inr hs
        · exact .inl rfl

theorem Counting.run (cs : List Nat) : ∀ {S : Finset Nat} {st : Nat × Option Nat} {prev : Nat},
    Counting b i S st prev → (prev :: cs).Pairwise (· ≤ ·) →
    ∃ S' : Finset Nat, S'.card = (cs.foldl (itblStep b i) st).1 ∧
      ∀ x, x ∈ S' ↔ x ∈ S ∨ (x ∈ cs ∧ some x ≠ i ∧ some x ≠ b) := by
  induction cs with
  | nil => exact fun h _ => ⟨_, h.card, by simp⟩
  | cons c cs ih =>
    intro S st prev h hsorted
    obtain ⟨hprev, hsorted⟩ := List.pairwise_cons.mp hsorted
    obtain ⟨S₁, h1, hmem1⟩ := h.step (hprev c List.mem_cons_self)
    obtain ⟨S', hcard, hmem⟩ := ih h1 hsorted
    refine ⟨S', hcard, fun x => ?_⟩
    rw [hmem, hmem1, or_assoc, ← or_and_right, List.mem_cons]

theorem noteCluster_spec (n : Nat) (o : Option Nat) :
    n ≤ (noteCluster n o).1 ∧ (∀ c, (noteCluster n o).2 = some c → (noteCluster n o).1 < c) ∧
      (∀ x, (x < (noteCluster n o).1 ∨ (noteCluster n o).2 = some x) ↔ (x < n ∨ o = some x)) ∧
      (noteCluster n o).1 ≤ n + 1 := by
  cases o with
  | none => simp [noteCluster]
  | some c =>
    rw [noteCluster]
    split
    · refine ⟨Nat.le_refl n, fun _ h => (by cases h), fun x => ?_, Nat.le_succ n⟩
      simp only [reduceCtorEq, or_false, Option.some.injEq]
      omega
    split
    · refine ⟨Nat.le_succ n, fun _ h => (by cases h), fun x => ?_, Nat.le_refl _⟩
      simp only [reduceCtorEq, or_false, Option.some.injEq]
      omega
    · refine ⟨Nat.le_refl n, fun x hx => ?_, fun x => Iff.rfl, Nat.le_succ n⟩
      obtain rfl := Option.some.inj hx
      omega

/-! ## The set of clusters in use -/

variable (sb group gdp) in
/-- What both functions are about: the clusters in front, the two bitmaps
and the inode table. -/
def Used (x : Nat) : Prop :=
  x < ext4NumBaseMetaClusters sb group ∨ clusterInGroup sb group gdp.blockBitmap = some x ∨
    clusterInGroup sb group gdp.inodeBitmap = some x ∨ x ∈ itblClusters sb group gdp

theorem itblClusters_sorted : (itblClusters sb group gdp).Pairwise (· ≤ ·) := by
  refine List.pairwise_filterMap.mpr (List.pairwise_lt_range.imp fun {j k} hjk c hc d hd => ?_)
  unfold clusterInGroup at hc hd
  split at hc <;> split at hd <;> cases hc <;> cases hd
  rw [Nat.shiftRight_eq_div_pow, Nat.shiftRight_eq_div_pow]
  exact Nat.div_le_div_right (by omega)

variable (sb group gdp) in
/-- The two bitmaps are in different clusters, or in one that is counted with
those in front. -/
def BitmapsApart : Prop :=
  ∀ c, clusterInGroup sb group gdp.blockBitmap = some c →
    clusterInGroup sb group gdp.inodeBitmap = some c → c ≤ ext4NumBaseMetaClusters sb group

variable (sb group gdp) in
/-- The clusters are counted once each, but the one that the two bitmaps share
is counted twice if it stands alone. -/
theorem overhead_card : ∃ T : Finset Nat, (∀ x, x ∈ T ↔ Used sb group gdp x) ∧
    ((BitmapsApart sb group gdp ∧ ext4NumOverheadClusters sb group gdp = T.card) ∨
      ¬ BitmapsApart sb group gdp ∧ ext4NumOverheadClusters sb group gdp = T.card + 1) := by
  unfold ext4NumOverheadClusters Used BitmapsApart
  dsimp only
  generalize ext4NumBaseMetaClusters sb group = n at *
  generalize clusterInGroup sb group gdp.blockBitmap = ob at *
  generalize clusterInGroup sb group gdp.inodeBitmap = oi at *
  obtain ⟨hb1, hb2, hb3, hb4⟩ := noteCluster_spec n ob
  generalize noteCluster n ob = b at *
  obtain ⟨hi1, hi2, hi3, hi4⟩ := noteCluster_spec b.1 oi
  generalize noteCluster b.1 oi = i at *
  have hstart : Counting b.2 i.2 (Finset.range i.1) (i.1, none) 0 :=
    ⟨Finset.card_range _, fun x _ hx => .inl (Finset.mem_range.mpr hx),
      fun x hx => .inl (Finset.mem_range.mp hx), fun hx => .inl (Finset.mem_range.mp hx), nofun⟩
  obtain ⟨S, hcard, hmem⟩ := hstart.run (itblClusters sb group gdp)
    (List.pairwise_cons.mpr ⟨fun _ _ => Nat.zero_le _, itblClusters_sorted⟩)
  rw [← hcard]
  -- the lone clusters of the bitmaps are not in `S`, but they may be the same
  obtain ⟨nb, tb⟩ := b
  obtain ⟨ni, ti⟩ := i
  have hfinal : ∀ x, (x ∈ S ∨ tb = some x ∨ ti = some x) ↔
      (x < n ∨ ob = some x ∨ oi = some x ∨ x ∈ itblClusters sb group gdp) := by
    intro x
    have h1 := hb3 x
    have h2 := hi3 x
    have h3 := hmem x
    rw [Finset.mem_range] at h3
    constructor
    · have hfront : x < ni ∨ ti = some x →
          x < n ∨ ob = some x ∨ oi = some x ∨ x ∈ itblClusters sb group gdp := fun h =>
        (h2.mp h).elim (fun h => (h1.mp (.inl h)).imp_right .inl) fun h => .inr (.inr (.inl h))
      rintro (hs | ht | ht)
      · rcases h3.mp hs with hlt | ⟨hx, -, -⟩
        · exact hfront (.inl hlt)
        · exact .inr (.inr (.inr hx))
      · exact (h1.mp (.inr ht)).imp_right .inl
      · exact hfront (.inr ht)
    · have hlow : x < ni ∨ ti = some x → x ∈ S ∨ tb = some x ∨ ti = some x := fun h =>
        h.elim (fun h => .inl (h3.mpr (.inl h))) fun h => .inr (.inr h)
      have hback : x < nb ∨ tb = some x → x ∈ S ∨ tb = some x ∨ ti = some x := fun h =>
        h.elim (fun h => hlow (h2.mpr (.inl h))) fun h => .inr (.inl h)
      rintro (hlt | hob | hoi | hx)
      · exact hback (h1.mpr (.inl hlt))
      · exact hback (h1.mpr (.inr hob))
      · exact hlow (h2.mpr (.inr hoi))
      · by_cases hti : ti = some x
        · exact .inr (.inr hti)
        by_cases htb : tb = some x
        · exact .inr (.inl htb)
        exact .inl (h3.mpr (.inr ⟨hx, fun h => hti h.symm, fun h => htb h.symm⟩))
  have hnot : ∀ c, tb = some c ∨ ti = some c → c ∉ S := by
    intro c hc hs
    rcases (hmem c).mp hs with hlt | ⟨-, hi, hb⟩
    · rw [Finset.mem_range] at hlt
      rcases hc with hc | hc
      · have := hb2 c hc
        omega
      · have := hi2 c hc
        omega
    · exact hc.elim (fun hc => hb hc.symm) fun hc => hi hc.symm
  have hapart : (∀ c, ob = some c → oi = some c → c ≤ n) ↔ ∀ c, tb = some c → ti ≠ some c := by
    constructor
    · intro h c hb hi
      have hlt := hb2 c hb
      have hob : ob = some c := ((hb3 c).mp (.inr hb)).resolve_left (by omega)
      have hoi : oi = some c := ((hi3 c).mp (.inr hi)).resolve_left (by omega)
      have := h c hob hoi
      omega
    · intro h c hb hi
      by_contra hgt
      have htb : tb = some c := ((hb3 c).mpr (.inr hb)).resolve_left (by omega)
      have hlt := hb2 c htb
      exact h c htb (((hi3 c).mpr (.inr hi)).resolve_left (by omega))
  have hins : ∀ (c : Nat) (A : Finset Nat) x, x ∈ insert c A ↔ x ∈ A ∨ some c = some x := by
    intro c A x
    rw [Finset.mem_insert, or_comm, Option.some.injEq, eq_comm]
  rw [hapart]
  cases tb with
  | none =>
    cases ti with
    | none => exact ⟨S, fun x => by rw [← hfinal]; simp, .inl (by simp)⟩
    | some c => exact ⟨insert c S, fun x => by rw [← hfinal, hins]; simp, .inl (by simp [hnot c])⟩
  | some d =>
    have hd := Finset.card_insert_of_notMem (hnot d (.inl rfl))
    cases ti with
    | none => exact ⟨insert d S, fun x => by rw [← hfinal, hins]; simp, .inl (by simp [hd])⟩
    | some c =>
      by_cases hcd : c = d
      · subst hcd
        exact ⟨insert c S, fun x => by rw [← hfinal, hins, or_self], .inr (by simp [hd])⟩
      · refine ⟨insert c (insert d S), fun x => by rw [← hfinal, hins, hins, or_assoc],
          .inl ⟨?_, ?_⟩⟩
        · rintro _ ⟨⟩ ⟨⟩
          exact hcd rfl
        · rw [Finset.card_insert_of_notMem (by simp [hcd, hnot c]), hd]
          simp

theorem setBits_eq (cs : List Nat) : ∀ (m : Bits) (x : Nat),
    setBits m cs x = true ↔ m x = true ∨ x ∈ cs := by
  induction cs with
  | nil => simp [setBits]
  | cons c cs ih =>
    intro m x
    have := ih (put m c true) x
    rw [setBits, List.foldl_cons, ← setBits, this, put, Function.update_apply,
      List.mem_cons]
    split
    · rename_i hx
      exact iff_of_true (.inl rfl) (.inr (.inl hx))
    · rename_i hx
      rw [or_iff_right hx]

theorem initBlockBitmap_spec {m : Bits} (h : ext4InitBlockBitmap sb group gdp = some m) {x : Nat}
    (hx : x < numClustersInGroup sb group) : m x = true ↔ Used sb group gdp x := by
  unfold ext4InitBlockBitmap at h
  dsimp only at h
  split at h
  · nomatch h
  · cases h
    rw [fill_out (by omega), setBits_eq, setBits_eq, setBits_eq, setBits_eq, Used]
    simp [or_assoc]

theorem initBlockBitmap_front {m : Bits} (h : ext4InitBlockBitmap sb group gdp = some m) :
    ext4NumBaseMetaClusters sb group < sb.blocksize * 8 := by
  unfold ext4InitBlockBitmap at h
  dsimp only at h
  split at h
  · cases h
  · rename_i hlt
    rw [Nat.shiftRight_eq_div_pow] at hlt
    omega

/-! ## The size of the group -/

theorem clusterInGroup_lt (h : Accepted sb group gdp) {blk c : Nat}
    (hlo : sb.sFirstDataBlock ≤ blk) (hhi : blk < sb.blocksCount)
    (hc : clusterInGroup sb group blk = some c) : c < numClustersInGroup sb group := by
  obtain ⟨n, hn, -, hbpg⟩ := h.whole
  have hpos : 0 < sb.blocksPerGroup := hbpg ▸ Nat.mul_pos hn (Nat.two_pow_pos _)
  unfold clusterInGroup at hc
  split at hc <;> cases hc
  rename_i hin
  have hgroup : (blk - sb.sFirstDataBlock) / sb.blocksPerGroup = group := by
    simpa [ext4BlockInGroup] using hin
  have hfirst := Nat.div_mul_le_self (blk - sb.sFirstDataBlock) sb.blocksPerGroup
  have hend := Nat.lt_mul_div_succ (blk - sb.sFirstDataBlock) hpos
  have hblk : blk - ext4GroupFirstBlockNo sb.toResizeSb group < blocksInGroup sb group := by
    rw [hgroup] at hfirst hend
    rw [Nat.mul_add, Nat.mul_one, Nat.mul_comm] at hend
    unfold blocksInGroup ext4GroupFirstBlockNo
    split <;> omega
  rw [numClustersInGroup, numB2c, Nat.shiftRight_eq_div_pow,
    Nat.shiftRight_eq_div_pow, ← Nat.add_one_le_iff, ← Nat.add_div_right _ (Nat.two_pow_pos _)]
  exact Nat.div_le_div_right (by omega)

theorem numClustersInGroup_le (h : Accepted sb group gdp) :
    numClustersInGroup sb group ≤ sb.blocksize * 8 := by
  obtain ⟨n, hn, hle, hbpg⟩ := h.whole
  have hblocks : blocksInGroup sb group ≤ n * 2 ^ sb.sClusterBits := by
    have hcount := h.count
    have hlt := h.group_lt
    unfold blocksInGroup ext4GroupFirstBlockNo at *
    obtain ⟨k, hk⟩ : ∃ k, sb.sGroupsCount = k + 1 := ⟨sb.sGroupsCount - 1, by omega⟩
    rw [hk, Nat.add_mul] at hcount
    split
    · obtain rfl : group = k := by omega
      omega
    · exact hbpg.le
  have hpos := Nat.two_pow_pos sb.sClusterBits
  refine le_trans ?_ hle
  rw [numClustersInGroup, numB2c, Nat.shiftRight_eq_div_pow, ← Nat.lt_add_one_iff,
    Nat.div_lt_iff_lt_mul hpos, Nat.add_mul]
  omega

theorem Used.lt (h : Accepted sb group gdp) {x : Nat} (hx : Used sb group gdp x) :
    x < ext4NumBaseMetaClusters sb group ∨ x < numClustersInGroup sb group := by
  rcases hx with hx | hx | hx | hx
  · exact .inl hx
  · exact .inr (clusterInGroup_lt h h.blockBitmap.1 h.blockBitmap.2 hx)
  · exact .inr (clusterInGroup_lt h h.inodeBitmap.1 h.inodeBitmap.2 hx)
  · obtain ⟨j, hj, hx⟩ := List.mem_filterMap.mp hx
    have htable := h.inodeTable
    rw [List.mem_range] at hj
    exact .inr (clusterInGroup_lt h (by omega) (by omega) hx)

/-- **The count agrees with the bitmap** exactly if the clusters in front fit
into the group and the two bitmaps do not share a cluster behind the next
one. -/
theorem freeClustersAfterInit_eq_iff (sb : InitSb) (group : Nat) (gdp : GroupDesc)
    (h : Accepted sb group gdp) {m : Bits} (hm : ext4InitBlockBitmap sb group gdp = some m) :
    ext4FreeClustersAfterInit sb group gdp
        = ((Finset.range (numClustersInGroup sb group)).filter fun x => m x = false).card ↔
      ext4NumBaseMetaClusters sb group ≤ numClustersInGroup sb group ∧
        BitmapsApart sb group gdp := by
  obtain ⟨T, hmem, hcount⟩ := overhead_card sb group gdp
  have hclear : ((Finset.range (numClustersInGroup sb group)).filter fun x => m x = false)
      = Finset.range (numClustersInGroup sb group) \ T := by
    ext x
    rw [Finset.mem_filter, Finset.mem_sdiff, hmem]
    refine and_congr_right fun hx => ?_
    rw [← initBlockBitmap_spec hm (Finset.mem_range.mp hx), Bool.not_eq_true]
  have hbits := numClustersInGroup_le h
  have hsize := h.blocksize_le
  have hfront := initBlockBitmap_front hm
  rw [hclear, ext4FreeClustersAfterInit]
  by_cases hbase : ext4NumBaseMetaClusters sb group ≤ numClustersInGroup sb group
  · -- everything in use is in the group
    have hsub : T ⊆ Finset.range (numClustersInGroup sb group) := fun x hx =>
      Finset.mem_range.mpr ((((hmem x).mp hx).lt h).elim (fun hlt => by omega) id)
    have hle := Finset.card_le_card hsub
    rw [Finset.card_sdiff_of_subset hsub, Finset.card_range] at *
    rcases hcount with ⟨hapart, hO⟩ | ⟨hshared, hO⟩
    · refine iff_of_true ?_ ⟨hbase, hapart⟩
      omega
    · refine iff_of_false ?_ fun hc => hshared hc.2
      omega
  · -- the clusters in front are more than the group has
    have hT : T = Finset.range (ext4NumBaseMetaClusters sb group) := by
      ext x
      rw [hmem, Finset.mem_range]
      exact ⟨fun hx => (hx.lt h).elim id fun hlt => by omega, fun hx => .inl hx⟩
    have hnone : Finset.range (numClustersInGroup sb group) \ T = ∅ := by
      rw [hT, Finset.sdiff_eq_empty_iff_subset]
      exact Finset.range_subset_range.mpr (by omega)
    have hcard : T.card = ext4NumBaseMetaClusters sb group := by rw [hT, Finset.card_range]
    rw [hnone, Finset.card_empty]
    refine iff_of_false ?_ fun hc => hbase hc.1
    omega

/-- Blocks of 1 KiB in clusters of 16, groups of 8 clusters. The third of
four groups has no superblock. -/
def bigalloc : InitSb where
  toResizeSb := { smallResizeSb with
    blocksPerGroup := 128, sFirstDataBlock := 0, sGroupsCount := 4 }
  sReservedGdtBlocks := 0
  sClusterBits := 4
  blocksCount := 512
  sItbPerGroup := 4

theorem bigalloc_accepts (bb ib it : Nat) (h : bb < 512 ∧ ib < 512 ∧ it ≤ 508) :
    Accepted bigalloc 2 ⟨bb, ib, it⟩ :=
  ⟨by decide, ⟨8, by decide⟩, by decide, by decide, by decide, ⟨Nat.zero_le _, h.1⟩,
    ⟨Nat.zero_le _, h.2.1⟩, ⟨Nat.zero_le _, by have := h.2.2; show it + 4 ≤ 512; omega⟩⟩

/-- The bitmaps are in the clusters 1 and 3, the inode table in 4. -/
theorem freeClustersAfterInit_eq_apart :
    ∃ m, ext4InitBlockBitmap bigalloc 2 ⟨272, 304, 320⟩ = some m ∧
      ext4FreeClustersAfterInit bigalloc 2 ⟨272, 304, 320⟩
        = ((Finset.range (numClustersInGroup bigalloc 2)).filter fun x => m x = false).card := by
  have hapart : BitmapsApart bigalloc 2 ⟨272, 304, 320⟩ := by
    rintro c ⟨⟩ h
    exact absurd h (by decide)
  exact ⟨_, rfl, (freeClustersAfterInit_eq_iff _ _ _ (bigalloc_accepts _ _ _ (by decide)) rfl).mpr
    ⟨by decide, hapart⟩⟩

/-- Both bitmaps are in the cluster 1, side by side:
the bitmap shows seven free clusters, and six are counted. -/
theorem freeClustersAfterInit_shared :
    Accepted bigalloc 2 ⟨272, 273, 274⟩ ∧
      ext4FreeClustersAfterInit bigalloc 2 ⟨272, 273, 274⟩ = 6 ∧
      ∃ m, ext4InitBlockBitmap bigalloc 2 ⟨272, 273, 274⟩ = some m ∧
        ((Finset.range (numClustersInGroup bigalloc 2)).filter fun x => m x = false).card = 7 :=
  ⟨bigalloc_accepts _ _ _ (by decide), by decide, _, rfl, by decide⟩

end Ext4.Balloc
