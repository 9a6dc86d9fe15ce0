import Ext4.Indirect.TrimRange

/-!
# Removing a range from an indirect map — the file

The logical blocks of a file lie in four regions: the direct pointers and
the trees of heights one, two and three. `ext4_ind_remove_space` clears the
rest of the region of the start, the beginning of the region of the end and
what is between them.
-/

namespace Ext4.Indirect

open Radix

variable {sb : IndSb}

/-! ## Regions -/

/-- The first logical block of the tree of height `h`. -/
def regionStart (sb : IndSb) : Nat → Nat
  | 0 => 0
  | 1 => EXT4_NDIR_BLOCKS
  | h + 2 => regionStart sb (h + 1) + sb.addrPerBlock ^ (h + 1)

variable {h : Nat}

theorem regionStart_succ (h1 : 1 ≤ h) :
    regionStart sb (h + 1) = regionStart sb h + sb.addrPerBlock ^ h := by
  obtain ⟨h, rfl⟩ : ∃ k, h = k + 1 := ⟨h - 1, by omega⟩
  rfl

variable {b n2 start stop : Nat} {ds : Path}

theorem regionStart_mono (sb : IndSb) {a : Nat}
    (h : a ≤ b) : regionStart sb a ≤ regionStart sb b := by
  induction b, h using Nat.le_induction with
  | base => exact Nat.le_refl _
  | succ b _ ih =>
    rcases Nat.eq_zero_or_pos b with rfl | hb
    · exact Nat.le_trans ih (Nat.zero_le _)
    · rw [regionStart_succ hb]
      exact Nat.le_add_right_of_le ih

theorem capacity_eq (sb : IndSb) : sb.capacity = regionStart sb 4 := by
  rw [IndSb.capacity]
  show _ = EXT4_NDIR_BLOCKS + sb.addrPerBlock ^ 1 + sb.addrPerBlock ^ 2 + sb.addrPerBlock ^ 3
  rw [Nat.pow_one]

/-- A logical block is a direct one or it is in one of the trees. -/
theorem exists_region (hb : b < sb.capacity) :
    b < EXT4_NDIR_BLOCKS ∨ ∃ h x, 1 ≤ h ∧ h ≤ 3 ∧ x < sb.addrPerBlock ^ h
      ∧ b = regionStart sb h + x := by
  rw [capacity_eq] at hb
  have key : ∀ n, b < regionStart sb (n + 1) → b < EXT4_NDIR_BLOCKS
      ∨ ∃ h x, 1 ≤ h ∧ h ≤ n ∧ x < sb.addrPerBlock ^ h ∧ b = regionStart sb h + x := by
    intro n
    induction n with
    | zero => exact .inl
    | succ n ih =>
      intro hlt
      rcases Nat.lt_or_ge b (regionStart sb (n + 1)) with hlo | hge
      · rcases ih hlo with hdir | ⟨h, x, h1, hn, hx, rfl⟩
        · exact .inl hdir
        · exact .inr ⟨h, x, h1, Nat.le_succ_of_le hn, hx, rfl⟩
      · rw [regionStart_succ (Nat.le_add_left 1 n)] at hlt
        exact .inr ⟨n + 1, b - regionStart sb (n + 1), Nat.le_add_left 1 n, Nat.le_refl _,
          by omega, by omega⟩
  exact key 3 hb

/-- Logical blocks of different trees are ordered as the trees are. -/
theorem region_lt {h h' x : Nat} (h1 : 1 ≤ h) (hlt : h < h') (hx : x < sb.addrPerBlock ^ h) :
    regionStart sb h + x < regionStart sb h' := by
  have hmono : regionStart sb (h + 1) ≤ regionStart sb h' := regionStart_mono sb hlt
  rw [regionStart_succ h1] at hmono
  omega

theorem ndir_le_regionStart (sb : IndSb) (h1 : 1 ≤ h) : EXT4_NDIR_BLOCKS ≤ regionStart sb h :=
  regionStart_mono sb h1

theorem blockToPath_direct (hb : b < EXT4_NDIR_BLOCKS) :
    ext4BlockToPath sb b = (1, offsetsOf [b]) := by
  rw [ext4BlockToPath, if_pos hb]

theorem blockToPath_region {h x : Nat} (h1 : 1 ≤ h) (h3 : h ≤ 3) (hx : x < sb.addrPerBlock ^ h) :
    ∃ offsets, ext4BlockToPath sb (regionStart sb h + x) = (h + 1, offsets)
      ∧ offsets 0 = 11 + h ∧ Agree h (rest offsets) (digits sb.addrPerBlock h x) := by
  have hP := addrPerBlock_pos sb
  have hnd : ¬ regionStart sb h + x < EXT4_NDIR_BLOCKS := by
    have := ndir_le_regionStart sb h1
    omega
  rw [ext4BlockToPath]
  rw [if_neg hnd]
  obtain rfl | rfl | rfl : h = 1 ∨ h = 2 ∨ h = 3 := by omega
  · rw [Nat.pow_one] at hx
    have hb : regionStart sb 1 + x - EXT4_NDIR_BLOCKS = x := Nat.add_sub_cancel_left _ _
    rw [hb, if_pos hx]
    refine ⟨_, rfl, rfl, agree_rest.mpr ⟨?_, fun m hm => absurd hm (Nat.not_lt_zero m)⟩⟩
    exact (Nat.div_one x).symm
  · have hb : regionStart sb 2 + x - EXT4_NDIR_BLOCKS = sb.addrPerBlock + x := by
      rw [regionStart, regionStart, Nat.pow_one]
      omega
    rw [hb, if_neg (by omega), Nat.add_sub_cancel_left, if_pos hx]
    refine ⟨_, rfl, rfl, agree_rest.mpr ⟨?_, agree_rest.mpr
      ⟨?_, fun m hm => absurd hm (Nat.not_lt_zero m)⟩⟩⟩
    · show x / sb.addrPerBlock = x / sb.addrPerBlock ^ 1
      rw [Nat.pow_one]
    · show x % sb.addrPerBlock = x % sb.addrPerBlock ^ 1 / sb.addrPerBlock ^ 0
      rw [Nat.pow_one, Nat.pow_zero, Nat.div_one]
  · have hb : regionStart sb 3 + x - EXT4_NDIR_BLOCKS
        = sb.addrPerBlock + (sb.addrPerBlock ^ 2 + x) := by
      show EXT4_NDIR_BLOCKS + sb.addrPerBlock ^ 1 + sb.addrPerBlock ^ 2 + x - EXT4_NDIR_BLOCKS = _
      rw [Nat.pow_one]
      omega
    have hdiv : x / sb.addrPerBlock ^ 2 < sb.addrPerBlock := by
      rw [Nat.pow_succ] at hx
      exact Nat.div_lt_of_lt_mul hx
    rw [hb, if_neg (by omega), Nat.add_sub_cancel_left, if_neg (by omega), Nat.add_sub_cancel_left,
      if_pos hdiv]
    refine ⟨_, rfl, rfl, agree_rest.mpr ⟨rfl, agree_rest.mpr ⟨?_, agree_rest.mpr
      ⟨?_, fun m hm => absurd hm (Nat.not_lt_zero m)⟩⟩⟩⟩
    · show x / sb.addrPerBlock % sb.addrPerBlock
        = x % sb.addrPerBlock ^ 2 / sb.addrPerBlock ^ 1
      rw [Nat.pow_one, Nat.pow_two, Nat.mod_mul_right_div_self]
    · show x % sb.addrPerBlock
        = x % sb.addrPerBlock ^ 2 % sb.addrPerBlock ^ 1 / sb.addrPerBlock ^ 0
      rw [Nat.pow_one, Nat.pow_zero, Nat.div_one, Nat.pow_two, Nat.mod_mul_right_mod]

theorem blockToPath_capacity (sb : IndSb) : (ext4BlockToPath sb sb.capacity).1 = 0 := by
  have hP := addrPerBlock_pos sb
  have hP2 : 0 < sb.addrPerBlock ^ 2 := Nat.pow_pos hP
  have hb : sb.capacity - EXT4_NDIR_BLOCKS
      = sb.addrPerBlock + (sb.addrPerBlock ^ 2 + sb.addrPerBlock ^ 3) := by
    rw [IndSb.capacity]
    omega
  have hdiv : sb.addrPerBlock ^ 3 / sb.addrPerBlock ^ 2 = sb.addrPerBlock := by
    rw [Nat.pow_succ _ 2, Nat.mul_div_cancel_left _ hP2]
  rw [ext4BlockToPath]
  rw [if_neg (by rw [IndSb.capacity]; omega), hb, if_neg (by omega), Nat.add_sub_cancel_left,
    if_neg (by omega), Nat.add_sub_cancel_left, hdiv, if_neg (Nat.lt_irrefl _)]

theorem mapped_direct (iData : Nat → Tree) (hb : b < EXT4_NDIR_BLOCKS) :
    mapped sb iData b = (iData b).nr? := by
  rw [mapped, blockToPath_direct hb]
  rfl

theorem mapped_region (iData : Nat → Tree) {h x : Nat} (h1 : 1 ≤ h) (h3 : h ≤ 3)
    (hx : x < sb.addrPerBlock ^ h) :
    mapped sb iData (regionStart sb h + x) = (iData (11 + h)).get sb.addrPerBlock h x := by
  obtain ⟨offsets, heq, h0, hag⟩ := blockToPath_region h1 h3 hx
  rw [mapped, heq, Radix.Tree.get]
  dsimp only
  rw [if_neg (Nat.succ_ne_zero h), h0, Nat.add_sub_cancel, Tree.walk_congr hag]

/-! ## The blocks of a file -/

/-- All blocks of a file: the pointers of the inode have trees of heights
`0, ..., 0, 1, 2, 3`. -/
def fileBlocks (sb : IndSb) (iData : Nat → Tree) : Multiset Block :=
  ∑ s ∈ Finset.range 15, Tree.blocks sb.addrPerBlock (s - 11) (iData s)

/-- The logical blocks `D` are not mapped any more, and the blocks that are
gone have been freed. -/
structure Removes (sb : IndSb) (D : Nat → Prop) (st st' : IndState) : Prop where
  gone : ∀ b < sb.capacity, D b → mapped sb st'.iData b = none
  kept : ∀ b < sb.capacity, ¬ D b → mapped sb st'.iData b = mapped sb st.iData b
  freed : ∃ log, st'.freed = st.freed ++ log ∧
    fileBlocks sb st'.iData + (log : Multiset Block) = fileBlocks sb st.iData

section Removes

variable {D D' : Nat → Prop} {st st₁ st₂ : IndState}

theorem Removes.refl (sb : IndSb) (hD : ∀ b < sb.capacity, ¬ D b) (st : IndState) :
    Removes sb D st st :=
  ⟨fun b hb hd => absurd hd (hD b hb), fun _ _ _ => rfl, [], (List.append_nil _).symm,
    Multiset.add_zero _⟩

theorem Removes.trans (h1 : Removes sb D st st₁) (h2 : Removes sb D' st₁ st₂) :
    Removes sb (fun b => D b ∨ D' b) st st₂ where
  gone := fun b hb hd => by
    by_cases hd' : D' b
    · exact h2.gone b hb hd'
    · rw [h2.kept b hb hd', h1.gone b hb (hd.resolve_right hd')]
  kept := fun b hb hd => by
    rw [h2.kept b hb fun hd' => hd (.inr hd'), h1.kept b hb fun hd' => hd (.inl hd')]
  freed := freed_trans h1.freed h2.freed

theorem Removes.congr (hr : Removes sb D st st₁) (hD : ∀ b < sb.capacity, D' b ↔ D b) :
    Removes sb D' st st₁ where
  gone := fun b hb hd => hr.gone b hb ((hD b hb).mp hd)
  kept := fun b hb hd => hr.kept b hb fun hd' => hd ((hD b hb).mpr hd')
  freed := hr.freed

theorem Clears.removes {C : Path → Prop} (h1 : 1 ≤ h) (h3 : h ≤ 3)
    (hcl : Clears sb (11 + h) h C st st₁)
    (hin : ∀ x < sb.addrPerBlock ^ h, D (regionStart sb h + x) ↔ C (digits sb.addrPerBlock h x))
    (hout : ∀ b, D b → regionStart sb h ≤ b ∧ b < regionStart sb (h + 1)) :
    Removes sb D st st₁ := by
  have hP := addrPerBlock_pos sb
  have hother : ∀ b < sb.capacity, (b < regionStart sb h ∨ regionStart sb (h + 1) ≤ b) →
      mapped sb st₁.iData b = mapped sb st.iData b := by
    intro b hb hcase
    rcases exists_region hb with hdir | ⟨h', x, h1', h3', hx, rfl⟩
    · rw [mapped_direct _ hdir, mapped_direct _ hdir, hcl.other b fun hc => ?_]
      rw [EXT4_NDIR_BLOCKS] at hdir
      omega
    · have hne : h' ≠ h := by
        rintro rfl
        rw [regionStart_succ h1] at hcase
        omega
      rw [mapped_region _ h1' h3' hx, mapped_region _ h1' h3' hx, hcl.other _ (by omega)]
  refine ⟨fun b hb hd => ?_, fun b hb hd => ?_, ?_⟩
  · obtain ⟨hlo, hhi⟩ := hout b hd
    rw [regionStart_succ h1] at hhi
    obtain ⟨x, rfl⟩ := Nat.exists_eq_add_of_le hlo
    have hx : x < sb.addrPerBlock ^ h := by omega
    rw [mapped_region _ h1 h3 hx, Radix.Tree.get,
      hcl.gone _ (fun m hm => digits_lt hP hx hm) ((hin x hx).mp hd)]
    rfl
  · by_cases hcase : b < regionStart sb h ∨ regionStart sb (h + 1) ≤ b
    · exact hother b hb hcase
    · rw [regionStart_succ h1] at hcase
      obtain ⟨x, rfl⟩ := Nat.exists_eq_add_of_le (show regionStart sb h ≤ b by omega)
      have hx : x < sb.addrPerBlock ^ h := by omega
      rw [mapped_region _ h1 h3 hx, mapped_region _ h1 h3 hx, Radix.Tree.get,
        hcl.kept _ (fun m hm => digits_lt hP hx hm) fun hc => hd ((hin x hx).mpr hc)]
      rfl
  · obtain ⟨log, hlog, hblocks⟩ := hcl.freed
    refine ⟨log, hlog, ?_⟩
    have hmem : 11 + h ∈ Finset.range 15 := Finset.mem_range.mpr (by omega)
    have hrest : ∑ s ∈ (Finset.range 15).erase (11 + h),
          Tree.blocks sb.addrPerBlock (s - 11) (st₁.iData s)
        = ∑ s ∈ (Finset.range 15).erase (11 + h),
          Tree.blocks sb.addrPerBlock (s - 11) (st.iData s) :=
      Finset.sum_congr rfl fun s hs => by rw [hcl.other s (Finset.ne_of_mem_erase hs)]
    rw [fileBlocks, fileBlocks, ← Finset.add_sum_erase _ _ hmem,
      ← Finset.add_sum_erase _ (fun s => Tree.blocks sb.addrPerBlock (s - 11) (st.iData s)) hmem,
      hrest, Nat.add_sub_cancel_left, ← hblocks]
    exact add_right_comm _ _ _

theorem removes_freeDirect {first last : Nat} (hlast : last ≤ EXT4_NDIR_BLOCKS) (st : IndState) :
    Removes sb (fun b => first ≤ b ∧ b < last) st (freeDirect first last st) := by
  have hslot : ∀ h, 1 ≤ h → (freeDirect first last st).iData (11 + h) = st.iData (11 + h) := by
    intro h h1
    refine if_neg ?_
    rw [EXT4_NDIR_BLOCKS] at hlast
    omega
  refine ⟨?_, ?_, _, rfl, ?_⟩
  · rintro b - hd
    rw [mapped_direct _ (Nat.lt_of_lt_of_le hd.2 hlast), freeDirect]
    dsimp only
    rw [if_pos hd]
    rfl
  · intro b hb hd
    rcases exists_region hb with hdir | ⟨h, x, h1, h3, hx, rfl⟩
    · rw [mapped_direct _ hdir, mapped_direct _ hdir, freeDirect]
      dsimp only
      rw [if_neg hd]
    · rw [mapped_region _ h1 h3 hx, mapped_region _ h1 h3 hx, hslot h h1]
  · have hlast15 : last ≤ 15 := Nat.le_trans hlast (by decide)
    rw [ext4FreeData_eq, coe_flatMap_range', Tree.sum_Ico_eq_sum_ite _ hlast15, fileBlocks,
      fileBlocks, ← Finset.sum_add_distrib]
    refine Finset.sum_congr rfl fun s _ => ?_
    rw [freeDirect]
    dsimp only
    by_cases hd : first ≤ s ∧ s < last
    · have h0 : s - 11 = 0 := by
        have := Nat.lt_of_lt_of_le hd.2 hlast
        rw [EXT4_NDIR_BLOCKS] at this
        omega
      rw [if_pos hd, if_pos hd, h0, Tree.blocks_hole, Multiset.zero_add]
      cases st.iData s with
      | hole => rfl
      | node nr kids => rfl
    · rw [if_neg hd, if_neg hd, Multiset.add_zero]

theorem removes_killTree (h1 : 1 ≤ h) (h3 : h ≤ 3) (st : IndState) :
    Removes sb (fun b => regionStart sb h ≤ b ∧ b < regionStart sb (h + 1)) st
      (killTree sb (11 + h) h st) := by
  have hcl : Clears sb (11 + h) h (fun _ => True) st (killTree sb (11 + h) h st) := by
    rw [killTree]
    split
    · rename_i hhole
      refine .of_hole fun xs _ _ => ?_
      rw [Tree.eq_hole hhole, Tree.walk_hole]
    · exact clears_all st
  refine hcl.removes h1 h3 (fun x hx => iff_of_true ?_ trivial) fun b hb => hb
  rw [regionStart_succ h1]
  omega

theorem removes_killDind (hn2 : n2 ≤ 4) (st : IndState) :
    Removes sb (fun b => regionStart sb 2 ≤ b ∧ b < regionStart sb (n2 - 1)) st
      (killDind sb 2 n2 st) := by
  rw [killDind]
  split
  · refine Removes.refl sb (fun b _ hd => ?_) st
    have := regionStart_mono sb (show n2 - 1 ≤ 2 by omega)
    omega
  · obtain rfl : n2 = 4 := by omega
    rw [killTind, if_pos (by decide)]
    exact removes_killTree (by decide) (by decide) st

theorem removes_killInd (hn2 : n2 ≤ 4) (st : IndState) :
    Removes sb (fun b => regionStart sb 1 ≤ b ∧ b < regionStart sb (n2 - 1)) st
      (killInd sb 1 n2 st) := by
  rw [killInd]
  split
  · refine Removes.refl sb (fun b _ hd => ?_) st
    have := regionStart_mono sb (show n2 - 1 ≤ 1 by omega)
    omega
  · refine ((removes_killTree (h := 1) (by decide) (by decide) st).trans
      (removes_killDind hn2 _)).congr fun b _ => ?_
    have h12 := regionStart_mono sb (show 1 ≤ 2 by decide)
    have h2n := regionStart_mono sb (show 2 ≤ n2 - 1 by omega)
    show _ ↔ regionStart sb 1 ≤ b ∧ b < regionStart sb 2 ∨ _
    omega

theorem removes_doIndirects {slot h : Nat} (hslot : h = 0 ∧ slot < EXT4_NDIR_BLOCKS
      ∨ 1 ≤ h ∧ slot = 11 + h) (hn : h + 1 < n2) (hn2 : n2 ≤ 4) (st : IndState) :
    Removes sb (fun b => regionStart sb (h + 1) ≤ b ∧ b < regionStart sb (n2 - 1)) st
      (doIndirects sb slot (h + 1) n2 st) := by
  rw [doIndirects, EXT4_TIND_BLOCK, EXT4_DIND_BLOCK, EXT4_IND_BLOCK]
  obtain rfl | rfl | rfl : h = 0 ∨ h = 1 ∨ h = 2 := by omega
  · have hlt : slot < 12 := by
      rcases hslot with ⟨-, hlt⟩ | ⟨h1, -⟩
      · exact hlt
      · omega
    rw [if_neg (by omega), if_neg (by omega), if_neg (by omega)]
    exact removes_killInd hn2 st
  · obtain rfl : slot = 12 := by omega
    rw [if_neg (by decide), if_neg (by decide), if_pos rfl]
    exact removes_killDind hn2 st
  · obtain rfl : slot = 13 := by omega
    obtain rfl : n2 = 4 := by omega
    rw [if_neg (by decide), if_pos rfl, killTind, if_pos (by decide)]
    exact Removes.refl sb (fun b _ hd => Nat.not_lt_of_le hd.1 hd.2) st

/-! ### Parts of a tree -/

theorem proper_of_agree {h x : Nat} (hx : x < sb.addrPerBlock ^ h)
    (hag : Agree h ds (digits sb.addrPerBlock h x)) : Proper sb h ds := by
  intro m hm
  rw [hag m hm]
  exact digits_lt (addrPerBlock_pos sb) hx hm

theorem before_iff_lt {h x y : Nat} (hx : x < sb.addrPerBlock ^ h) (hy : y < sb.addrPerBlock ^ h)
    (hag : Agree h ds (digits sb.addrPerBlock h y)) :
    Before h (digits sb.addrPerBlock h x) ds ↔ x < y := by
  rw [before_congr_right hag, lt_iff_before (addrPerBlock_pos sb) hx hy]

section Parts

variable {h x y : Nat} {offsets offsets2 : Path} (h1 : 1 ≤ h) (h3 : h ≤ 3)
  (hx : x < sb.addrPerBlock ^ h) (hag : Agree h (rest offsets) (digits sb.addrPerBlock h x))

include h1 h3 hx hag

theorem removes_trimStart (st : IndState) :
    Removes sb (fun b => regionStart sb h + x ≤ b ∧ b < regionStart sb (h + 1)) st
      (trimStart sb (11 + h) h offsets st) := by
  refine (clears_trimStart (proper_of_agree hx hag) st).removes h1 h3 (fun z hz => ?_)
    fun b hb => ?_
  · rw [before_iff_lt hz hx hag, regionStart_succ h1]
    omega
  · omega

theorem removes_trimEnd (st : IndState) :
    Removes sb (fun b => regionStart sb h ≤ b ∧ b < regionStart sb h + x) st
      (trimEnd sb (11 + h) h offsets st) := by
  refine (clears_trimEnd (proper_of_agree hx hag) st).removes h1 h3 (fun z hz => ?_) fun b hb => ?_
  · rw [before_iff_lt hz hx hag]
    omega
  · rw [regionStart_succ h1]
    omega

theorem removes_trimRange (h0 : offsets 0 = offsets2 0) (hy : y < sb.addrPerBlock ^ h)
    (hag2 : Agree h (rest offsets2) (digits sb.addrPerBlock h y)) (hxy : x < y) (st : IndState)
    (hnd : (fileBlocks sb st.iData).Nodup) :
    Removes sb (fun b => regionStart sb h + x ≤ b ∧ b < regionStart sb h + y) st
      (trimRange sb (11 + h) h offsets offsets2 st) := by
  have hmem : 11 + h ∈ Finset.range 15 := Finset.mem_range.mpr (by omega)
  rw [fileBlocks, ← Finset.add_sum_erase _ _ hmem, Nat.add_sub_cancel_left] at hnd
  have hb : Before h (rest offsets) (rest offsets2) := by
    obtain ⟨m, hm, hagm, hlt⟩ := (before_iff_lt hx hy hag2).mpr hxy
    exact ⟨m, hm, (hag.mono (Nat.le_of_lt hm)).trans hagm, hag m hm ▸ hlt⟩
  refine (clears_trimRange (Multiset.nodup_add.mp hnd).1 (proper_of_agree hx hag)
    (proper_of_agree hy hag2) h0 hb).removes h1 h3 (fun z hz => ?_) fun b hb => ?_
  · rw [before_iff_lt hz hx hag, before_iff_lt hz hy hag2]
    omega
  · rw [regionStart_succ h1]
    omega

end Parts

/-! ### The range -/

theorem removes_ext4IndRemoveSpace (st : IndState) (hlt : start < stop) (hcap : stop < sb.capacity)
    (hmax : stop ≤ sb.maxBlock) (hnd : (fileBlocks sb st.iData).Nodup) :
    ∃ st', ext4IndRemoveSpace sb start stop st = some st'
      ∧ Removes sb (fun b => start ≤ b ∧ b < stop) st st' := by
  have hstop : (if sb.maxBlock ≤ stop then sb.maxBlock else stop) = stop := by
    split <;> omega
  rw [ext4IndRemoveSpace, hstop, if_neg (by omega)]
  rcases exists_region hcap with hdir2 | ⟨h2, y, h1', h3', hy, rfl⟩
  · rw [blockToPath_direct (Nat.lt_trans hlt hdir2), blockToPath_direct hdir2]
    exact ⟨_, rfl, removes_freeDirect (Nat.le_of_lt hdir2) st⟩
  · obtain ⟨offsets2, heq2, h02, hag2⟩ := blockToPath_region h1' h3' hy
    rw [heq2]
    rcases exists_region (Nat.lt_trans hlt hcap) with hdir | ⟨h, x, h1, h3, hx, rfl⟩
    · rw [blockToPath_direct hdir]
      dsimp only
      rw [if_neg (by omega), if_neg (by omega), if_pos (by omega), if_pos rfl, h02]
      refine ⟨_, rfl, ?_⟩
      refine (((removes_freeDirect (Nat.le_refl _) st).trans
        (removes_trimEnd h1' h3' hy hag2 _)).trans
        (removes_doIndirects (.inl ⟨rfl, hdir⟩) (by omega) (by omega) _)).congr fun b _ => ?_
      have hmono := regionStart_mono sb h1'
      show _ ↔ ((start ≤ b ∧ b < EXT4_NDIR_BLOCKS) ∨ _) ∨ EXT4_NDIR_BLOCKS ≤ b ∧ _
      rw [Nat.add_sub_cancel]
      change EXT4_NDIR_BLOCKS ≤ _ at hmono
      omega
    · obtain ⟨offsets, heq, h0, hag⟩ := blockToPath_region h1 h3 hx
      rw [heq]
      dsimp only
      rcases Nat.lt_trichotomy h h2 with hh | rfl | hh
      · rw [if_neg (by omega), if_neg (by omega), if_pos (by omega), if_neg (by omega), h0, h02,
          Nat.add_sub_cancel, Nat.add_sub_cancel]
        refine ⟨_, rfl, ?_⟩
        refine (((removes_trimStart h1 h3 hx hag st).trans
          (removes_trimEnd h1' h3' hy hag2 _)).trans
          (removes_doIndirects (.inr ⟨h1, rfl⟩) (by omega) (by omega) _)).congr fun b _ => ?_
        have hmono : regionStart sb (h + 1) ≤ regionStart sb h2 := regionStart_mono sb hh
        have hstart : regionStart sb h + x < regionStart sb (h + 1) :=
          region_lt h1 (Nat.lt_succ_self h) hx
        rw [Nat.add_sub_cancel]
        omega
      · rw [if_neg (by omega), if_neg (by omega), if_neg (by omega), h0, Nat.add_sub_cancel]
        exact ⟨_, rfl, removes_trimRange h1 h3 hx hag (h0.trans h02.symm) hy hag2 (by omega) st hnd⟩
      · have := region_lt h1' hh hy
        omega

theorem ext4IndRemoveSpace_capacity (st : IndState) (hlt : start < sb.capacity)
    (hmax : sb.capacity ≤ sb.maxBlock) : ext4IndRemoveSpace sb start sb.capacity st = none := by
  have hstop : (if sb.maxBlock ≤ sb.capacity then sb.maxBlock else sb.capacity) = sb.capacity := by
    split <;> omega
  have hn2 := blockToPath_capacity sb
  have hn : 0 < (ext4BlockToPath sb start).1 := by
    rcases exists_region hlt with hdir | ⟨h, x, h1, h3, hx, rfl⟩
    · rw [blockToPath_direct hdir]
      exact Nat.one_pos
    · obtain ⟨_, heq, -⟩ := blockToPath_region h1 h3 hx
      rw [heq]
      exact Nat.succ_pos h
  rw [ext4IndRemoveSpace, hstop, if_neg (by omega)]
  generalize ext4BlockToPath sb sb.capacity = path2 at hn2 ⊢
  generalize ext4BlockToPath sb start = path at hn ⊢
  exact if_pos (hn2 ▸ hn)

end Removes

/-! ## What is freed -/

theorem sum_range_regionStart (sb : IndSb) {M : Type} [AddCommMonoid M] (f : Nat → M) :
    ∑ b ∈ Finset.range sb.capacity, f b
      = ∑ b ∈ Finset.range EXT4_NDIR_BLOCKS, f b
        + ∑ h ∈ Finset.Ico 1 4, ∑ x ∈ Finset.range (sb.addrPerBlock ^ h),
          f (regionStart sb h + x) := by
  rw [capacity_eq]
  have key : ∀ n, ∑ b ∈ Finset.range (regionStart sb (n + 1)), f b
      = ∑ b ∈ Finset.range EXT4_NDIR_BLOCKS, f b
        + ∑ h ∈ Finset.Ico 1 (n + 1), ∑ x ∈ Finset.range (sb.addrPerBlock ^ h),
            f (regionStart sb h + x) := by
    intro n
    induction n with
    | zero => exact (add_zero _).symm
    | succ n ih =>
      rw [regionStart_succ (Nat.le_add_left 1 n), Finset.sum_range_add, ih,
        Finset.sum_Ico_succ_top (Nat.le_add_left 1 n), add_assoc]
  exact key 3

theorem filter_fileBlocks (iData : Nat → Tree) :
    (fileBlocks sb iData).filter (fun b => b.isData = true)
      = ∑ b ∈ Finset.range sb.capacity, leafBlock (mapped sb iData b) := by
  have hP := addrPerBlock_pos sb
  rw [fileBlocks, filter_sum, sum_range_regionStart, show 15 = EXT4_NDIR_BLOCKS + 3 from rfl,
    Finset.sum_range_add, Finset.sum_Ico_eq_sum_range]
  congr 1
  · refine Finset.sum_congr rfl fun s hs => ?_
    have hs := Finset.mem_range.mp hs
    have h0 : s - 11 = 0 := by
      rw [EXT4_NDIR_BLOCKS] at hs
      omega
    rw [mapped_direct _ hs, h0]
    cases iData s with
    | hole => rfl
    | node nr kids => rfl
  · refine Finset.sum_congr rfl fun i hi => ?_
    have hi := Finset.mem_range.mp hi
    have hslot : EXT4_NDIR_BLOCKS + i = 11 + (1 + i) := by
      rw [EXT4_NDIR_BLOCKS]
      omega
    rw [hslot, Nat.add_sub_cancel_left, Tree.filter_blocks hP]
    refine Finset.sum_congr rfl fun x hx => ?_
    rw [mapped_region _ (Nat.le_add_right 1 i) (by omega) (Finset.mem_range.mp hx)]

theorem Removes.filter_log {st st' : IndState} {log : List Block}
    (hr : Removes sb (fun b => start ≤ b ∧ b < stop) st st') (hstop : stop ≤ sb.capacity)
    (hlog : fileBlocks sb st'.iData + (log : Multiset Block) = fileBlocks sb st.iData) :
    (log : Multiset Block).filter (fun b => b.isData = true)
      = ∑ b ∈ Finset.Ico start stop, leafBlock (mapped sb st.iData b) := by
  have hsplit : ∑ b ∈ Finset.range sb.capacity, leafBlock (mapped sb st'.iData b)
        + ∑ b ∈ Finset.Ico start stop, leafBlock (mapped sb st.iData b)
      = ∑ b ∈ Finset.range sb.capacity, leafBlock (mapped sb st.iData b) := by
    rw [Tree.sum_Ico_eq_sum_ite _ hstop, ← Finset.sum_add_distrib]
    refine Finset.sum_congr rfl fun b hb => ?_
    have hb := Finset.mem_range.mp hb
    by_cases hd : start ≤ b ∧ b < stop
    · rw [if_pos hd, hr.gone b hb hd]
      exact Multiset.zero_add _
    · rw [if_neg hd, hr.kept b hb hd, add_zero]
  have hdata := congrArg (Multiset.filter fun b => b.isData = true) hlog
  rw [Multiset.filter_add, filter_fileBlocks, filter_fileBlocks, ← hsplit] at hdata
  exact Multiset.add_right_inj.mp hdata

/-! ## Exact removal -/

/-- A file with an indirect map: no block is in it twice. -/
structure IndInode (sb : IndSb) where
  iData : Nat → Tree
  nodup : (fileBlocks sb iData).Nodup

/-- The indirect blocks of a file. -/
def indexBlocks (sb : IndSb) (iData : Nat → Tree) : Multiset Block :=
  (fileBlocks sb iData).filter fun b => ¬ b.isData = true

/-- What a call leaves: the range is gone from the map and the rest of it
stands, and the blocks freed are the data blocks of the range and the
indirect blocks that left the tree, each once. -/
structure RemovedExactly (sb : IndSb) (iData : Nat → Tree) (freed : List Block) (start stop : Nat)
    (st' : IndState) : Prop where
  gone : ∀ b, start ≤ b → b < stop → mapped sb st'.iData b = none
  kept : ∀ b < sb.capacity, ¬ (start ≤ b ∧ b < stop) → mapped sb st'.iData b = mapped sb iData b
  freed : ∃ log : List Block, st'.freed = freed ++ log ∧ log.Nodup
    ∧ (log : Multiset Block).filter (fun b => b.isData = true)
        = ∑ b ∈ Finset.Ico start stop, leafBlock (mapped sb iData b)
    ∧ (log : Multiset Block).filter (fun b => ¬ b.isData = true)
        = indexBlocks sb iData - indexBlocks sb st'.iData
    ∧ indexBlocks sb st'.iData ≤ indexBlocks sb iData

section Exact

variable (inode : IndInode sb) {freed : List Block} {start stop : Nat} {st' : IndState}

theorem Removes.removedExactly
    (hr : Removes sb (fun b => start ≤ b ∧ b < stop) ⟨inode.iData, freed⟩ st')
    (hcap : stop ≤ sb.capacity) : RemovedExactly sb inode.iData freed start stop st' := by
  obtain ⟨log, hfreed, hlog⟩ := hr.freed
  have hindex := congrArg (Multiset.filter fun b => ¬ b.isData = true) hlog
  rw [Multiset.filter_add] at hindex
  refine ⟨fun b hlo hhi => hr.gone b (Nat.lt_of_lt_of_le hhi hcap) ⟨hlo, hhi⟩, hr.kept,
    log, hfreed, ?_, hr.filter_log hcap hlog, ?_, ?_⟩
  · exact Multiset.coe_nodup.mp (Multiset.nodup_add.mp (hlog ▸ inode.nodup)).2.1
  · rw [indexBlocks, indexBlocks, ← hindex, add_tsub_cancel_left]
  · rw [indexBlocks, indexBlocks, ← hindex]
    exact Multiset.le_add_right _ _

/-- Holes may be added to what is removed. -/
theorem Removes.widen {D D' : Nat → Prop} {st : IndState} (hr : Removes sb D st st')
    (hsub : ∀ b, D b → D' b) (hhole : ∀ b, D' b → ¬ D b → mapped sb st.iData b = none) :
    Removes sb D' st st' where
  gone := fun b hb hd' => by
    by_cases hd : D b
    · exact hr.gone b hb hd
    · rw [hr.kept b hb hd, hhole b hd' hd]
  kept := fun b hb hd' => hr.kept b hb fun hd => hd' (hsub b hd)
  freed := hr.freed

/-- Behind `max_block` the range is cut off there. -/
theorem removes_cut (freed : List Block) (start : Nat) (hcap : stop ≤ sb.capacity)
    (hmax : sb.maxBlock < stop) :
    ∃ st', ext4IndRemoveSpace sb start stop ⟨inode.iData, freed⟩ = some st'
      ∧ Removes sb (fun b => start ≤ b ∧ b < sb.maxBlock) ⟨inode.iData, freed⟩ st' := by
  have hcut : ext4IndRemoveSpace sb start stop
      = ext4IndRemoveSpace sb start sb.maxBlock := by
    funext st
    rw [ext4IndRemoveSpace, ext4IndRemoveSpace, if_pos (Nat.le_of_lt hmax), if_pos (Nat.le_refl _)]
  rw [hcut]
  rcases Nat.lt_or_ge start sb.maxBlock with hlt | hge
  · exact removes_ext4IndRemoveSpace _ hlt (Nat.lt_of_lt_of_le hmax hcap) (Nat.le_refl _)
      inode.nodup
  · refine ⟨_, ?_, Removes.refl sb (fun b _ => by omega) _⟩
    rw [ext4IndRemoveSpace, if_pos (Nat.le_refl _), if_pos (.inl hge)]

/-- A call fails only at the very end of the map, and a call that returns
has removed its range exactly if `max_block`, in the 32 bits it has, does
not cut off a mapped block. -/
theorem remove_space_exact (freed : List Block) (hlt : start < stop) (hcap : stop ≤ sb.capacity) :
    (ext4IndRemoveSpace sb start stop ⟨inode.iData, freed⟩ = none
        ↔ stop = sb.capacity ∧ stop ≤ sb.maxBlock)
    ∧ ((∀ st', ext4IndRemoveSpace sb start stop ⟨inode.iData, freed⟩ = some st' →
          RemovedExactly sb inode.iData freed start stop st')
        ↔ stop ≤ sb.maxBlock
          ∨ ∀ b, start ≤ b → sb.maxBlock ≤ b → b < stop → mapped sb inode.iData b = none) := by
  rcases Nat.lt_or_ge sb.maxBlock stop with hcut | hmax
  · obtain ⟨st₁, heq, hr⟩ := removes_cut inode freed start hcap hcut
    rw [heq]
    refine ⟨iff_of_false (Option.some_ne_none st₁) (by omega),
      fun h => .inr fun b hlo hmax hhi => ?_, ?_⟩
    · rw [← hr.kept b (Nat.lt_of_lt_of_le hhi hcap) (by omega), (h st₁ rfl).gone b hlo hhi]
    · intro h st' hst'
      cases hst'
      have hhole := h.resolve_left (by omega)
      exact (hr.widen (fun b hb => ⟨hb.1, Nat.lt_trans hb.2 hcut⟩) fun b hd hn =>
        hhole b hd.1 (by omega) hd.2).removedExactly inode hcap
  · rcases Nat.lt_or_eq_of_le hcap with hlt' | rfl
    · obtain ⟨st₁, heq, hr⟩ :=
        removes_ext4IndRemoveSpace ⟨inode.iData, freed⟩ hlt hlt' hmax inode.nodup
      rw [heq]
      refine ⟨iff_of_false (Option.some_ne_none st₁) (by omega), iff_of_true ?_ (.inl hmax)⟩
      intro st' hst'
      cases hst'
      exact hr.removedExactly inode hcap
    · rw [ext4IndRemoveSpace_capacity _ hlt hmax]
      refine ⟨iff_of_true rfl ⟨rfl, hmax⟩, iff_of_true (fun st' h => ?_) (.inl hmax)⟩
      exact absurd h.symm (Option.some_ne_none st')

end Exact

/-- An indirect block with one pointer. -/
def lone (nr k : Nat) (t : Tree) : Tree := .node nr fun i => if i = k then t else .hole

theorem blocks_lone {P h nr k : Nat} {t : Tree} (hk : k < P) :
    Tree.blocks P (h + 1) (lone nr k t) = {.index nr} + Tree.blocks P h t := by
  rw [lone, Tree.blocks]
  congr 1
  rw [Finset.sum_eq_single_of_mem k (Finset.mem_range.mpr hk) fun i _ hi => ?_, if_pos rfl]
  rw [if_neg hi, Tree.blocks_hole]

/-- A file whose only data block is at the end of the longest path. -/
def loneFile (sb : IndSb) (ds : Path) (hds : ∀ m, ds m < sb.addrPerBlock) : IndInode sb where
  iData := fun s =>
    if s = EXT4_TIND_BLOCK then
      lone 100 (ds 0) (lone 101 (ds 1) (lone 102 (ds 2) (.node 103 fun _ => .hole)))
    else .hole
  nodup := by
    rw [fileBlocks, Finset.sum_eq_single_of_mem 14 (by decide) fun s _ hs => ?_]
    · rw [if_pos (by decide), blocks_lone (hds 0), blocks_lone (hds 1), blocks_lone (hds 2),
        Tree.blocks]
      decide
    · rw [if_neg (show ¬ s = EXT4_TIND_BLOCK from hs), Tree.blocks_hole]

def sb1k : IndSb := ⟨10, false, by decide⟩

/-- A file with block `66000` only. -/
def file1k : IndInode sb1k := loneFile sb1k (fun m => if m = 2 then 196 else 0) fun m => by
  split <;> decide

/-- The range crosses a hole and the one block of the file. -/
theorem remove_space_exact_small :
    66001 ≤ sb1k.capacity ∧ 66001 ≤ sb1k.maxBlock ∧ mapped sb1k file1k.iData 66000 = some 103
      ∧ ∀ st', ext4IndRemoveSpace sb1k 10 66001 ⟨file1k.iData, []⟩ = some st' →
        mapped sb1k st'.iData 66000 = none := by
  refine ⟨by decide, by decide, by decide, fun st' hst' => ?_⟩
  have hexact := (@remove_space_exact sb1k file1k 10 66001 [] (by decide) (by decide)).2.mpr
    (.inl (by decide)) st' hst'
  exact hexact.gone 66000 (by decide) (by decide)

def sb8k : IndSb := ⟨13, true, by decide⟩

/-- A file with block `5000000` only. -/
def file8k : IndInode sb8k :=
  loneFile sb8k (fun m => if m = 1 then 392 else if m = 2 then 820 else 0) fun m => by
    split
    · decide
    · split <;> decide

/-- With blocks of 8 KiB `max_block` does not fit into 32 bits, and a mapped
block behind what is left of it stays. -/
theorem large_block_not_removed :
    5000001 ≤ sb8k.capacity ∧ 5000001 ≤ sb8k.maxBlocks
      ∧ mapped sb8k file8k.iData 5000000 = some 103
      ∧ ext4IndRemoveSpace sb8k 5000000 5000001 ⟨file8k.iData, []⟩ = some ⟨file8k.iData, []⟩ := by
  refine ⟨by decide, by decide, by decide, ?_⟩
  rw [ext4IndRemoveSpace, if_pos (by decide)]

end Ext4.Indirect
