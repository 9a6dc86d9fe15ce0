import Ext4.Indirect.RemoveSpace

/-!
# Removing a range from an indirect map — one tree

Every call of `ext4_free_branches` clears a set of paths of one tree. The
sets that the two chains clear are those in front of a path and behind it,
up to paths that lead to nothing: this is what `ext4_find_shared` looks for.
-/

namespace Ext4.Indirect

open Radix

variable {sb : IndSb}

theorem addrPerBlock_pos (sb : IndSb) : 0 < sb.addrPerBlock := Nat.pow_pos (by decide)

/-! ## What is freed -/

theorem freeDataRuns_spec (ptr : Nat → Option Nat) (n p block count : Nat) :
    (freeDataRuns ptr n p block count).flatMap (fun r => (List.range' r.1 r.2).map Block.data)
      = (List.range' block count).map .data
        ++ (List.range' p n).flatMap fun i => (ptr i).toList.map Block.data := by
  induction n generalizing p block count with
  | zero =>
    rw [freeDataRuns]
    split
    · simp
    · rw [show count = 0 by omega]
      rfl
  | succ n ih =>
    rw [freeDataRuns, List.range'_succ, List.flatMap_cons]
    cases hp : ptr p with
    | none => exact ih (p + 1) block count
    | some nr =>
      dsimp only
      split
      · rename_i h0
        rw [ih, h0]
        rfl
      · split
        · rename_i hnr
          rw [ih, List.range'_1_concat, List.map_append, hnr, List.append_assoc]
          rfl
        · rw [List.flatMap_cons, ih]
          rfl

theorem ext4FreeData_eq (ptr : Nat → Option Nat) (first last : Nat) :
    ext4FreeData ptr first last
      = (List.range' first (last - first)).flatMap fun i => (ptr i).toList.map Block.data := by
  rw [ext4FreeData, freeDataRuns_spec]
  rfl

theorem coe_flatMap_range' (f : Nat → List Block) (first last : Nat) :
    (((List.range' first (last - first)).flatMap f : List Block) : Multiset Block)
      = ∑ i ∈ Finset.Ico first last, (f i : Multiset Block) := by
  rw [Finset.sum_Ico_eq_sum_range]
  generalize last - first = n
  induction n with
  | zero => rfl
  | succ n ih =>
    rw [List.range'_1_concat, List.flatMap_append, List.flatMap_singleton, ← Multiset.coe_add, ih,
      Finset.sum_range_succ]

/-- `ext4_free_branches` frees all blocks below the pointers, each once. -/
theorem coe_ext4FreeBranches (ptrs depth : Nat) (bh : Tree) (first last : Nat) :
    ((ext4FreeBranches ptrs depth bh first last : List Block) : Multiset Block)
      = Tree.kidBlocks ptrs depth bh first last := by
  induction depth generalizing bh first last with
  | zero =>
    rw [ext4FreeBranches, ext4FreeData_eq, coe_flatMap_range']
    refine Finset.sum_congr rfl fun i _ => ?_
    cases bh.kid i with
    | hole => rfl
    | node nr kids => rfl
  | succ depth ih =>
    rw [ext4FreeBranches, Multiset.coe_eq_coe.mpr ((List.reverse_perm _).flatMap_right _),
      coe_flatMap_range']
    refine Finset.sum_congr rfl fun i _ => ?_
    cases bh.kid i with
    | hole => rfl
    | node nr kids =>
      rw [← Multiset.coe_add, ih, Tree.blocks, Tree.kidBlocks, Finset.range_eq_Ico]
      exact Multiset.add_comm _ _

/-! ## Clearing paths -/

/-- A path with offsets that exist. -/
def Proper (sb : IndSb) (h : Nat) (xs : Path) : Prop := ∀ m < h, xs m < sb.addrPerBlock

theorem freed_trans {f0 f1 f2 : List Block} {m0 m1 m2 : Multiset Block}
    (h1 : ∃ log, f1 = f0 ++ log ∧ m1 + (log : Multiset Block) = m0)
    (h2 : ∃ log, f2 = f1 ++ log ∧ m2 + (log : Multiset Block) = m1) :
    ∃ log, f2 = f0 ++ log ∧ m2 + (log : Multiset Block) = m0 := by
  obtain ⟨log1, rfl, rfl⟩ := h1
  obtain ⟨log2, rfl, rfl⟩ := h2
  refine ⟨log1 ++ log2, List.append_assoc .., ?_⟩
  rw [← Multiset.coe_add, Multiset.add_comm (log1 : Multiset Block), Multiset.add_assoc]

/-- The paths `C` of the tree in `slot`, which has height `h`, now lead to
nothing, and the blocks that are gone have been freed. -/
structure Clears (sb : IndSb) (slot h : Nat) (C : Path → Prop) (st st' : IndState) : Prop where
  other : ∀ s, s ≠ slot → st'.iData s = st.iData s
  gone : ∀ xs, Proper sb h xs → C xs → (st'.iData slot).walk xs h = .hole
  kept : ∀ xs, Proper sb h xs → ¬ C xs → (st'.iData slot).walk xs h = (st.iData slot).walk xs h
  freed : ∃ log, st'.freed = st.freed ++ log ∧
    Tree.blocks sb.addrPerBlock h (st'.iData slot) + (log : Multiset Block)
      = Tree.blocks sb.addrPerBlock h (st.iData slot)

section Clears

variable {slot h : Nat} {C C' : Path → Prop} {st st₁ st₂ : IndState}

theorem Clears.of_hole (hC : ∀ xs, Proper sb h xs → C xs → (st.iData slot).walk xs h = .hole) :
    Clears sb slot h C st st :=
  ⟨fun _ _ => rfl, hC, fun _ _ _ => rfl, [], (List.append_nil _).symm, Multiset.add_zero _⟩

theorem Clears.trans (h1 : Clears sb slot h C st st₁) (h2 : Clears sb slot h C' st₁ st₂) :
    Clears sb slot h (fun xs => C xs ∨ C' xs) st st₂ where
  other := fun s hs => (h2.other s hs).trans (h1.other s hs)
  gone := fun xs hxs hc => by
    by_cases hc' : C' xs
    · exact h2.gone xs hxs hc'
    · rw [h2.kept xs hxs hc', h1.gone xs hxs (hc.resolve_right hc')]
  kept := fun xs hxs hc => by
    rw [h2.kept xs hxs fun hc' => hc (.inr hc'), h1.kept xs hxs fun hc' => hc (.inl hc')]
  freed := freed_trans h1.freed h2.freed

/-- What is cleared may be described up to paths that led to nothing. -/
theorem Clears.congr (hcl : Clears sb slot h C st st₁)
    (h1 : ∀ xs, Proper sb h xs → C xs → C' xs ∨ (st.iData slot).walk xs h = .hole)
    (h2 : ∀ xs, Proper sb h xs → C' xs → C xs ∨ (st.iData slot).walk xs h = .hole) :
    Clears sb slot h C' st st₁ where
  other := hcl.other
  gone := fun xs hxs hc' => by
    by_cases hc : C xs
    · exact hcl.gone xs hxs hc
    · rw [hcl.kept xs hxs hc]
      exact (h2 xs hxs hc').resolve_left hc
  kept := fun xs hxs hc' => by
    by_cases hc : C xs
    · rw [hcl.gone xs hxs hc, (h1 xs hxs hc).resolve_left hc']
    · exact hcl.kept xs hxs hc
  freed := hcl.freed

theorem clears_freeAt {offsets : Path} {j first last : Nat} (hj : j < h)
    (hds : Proper sb h (rest offsets)) (hlast : last ≤ sb.addrPerBlock) (st : IndState) :
    Clears sb slot h (fun xs => Agree j xs (rest offsets) ∧ first ≤ xs j ∧ xs j < last) st
      (freeAt sb slot h offsets j first last st) where
  other := fun s hs => Function.update_of_ne hs _ _
  gone := fun xs _ hc => by
    rw [freeAt]
    dsimp only
    rw [Function.update_self, Tree.walk_clearAt _ _ _ _ _ _ hj, if_pos hc]
  kept := fun xs _ hc => by
    rw [freeAt]
    dsimp only
    rw [Function.update_self, Tree.walk_clearAt _ _ _ _ _ _ hj, if_neg hc]
  freed := by
    refine ⟨_, rfl, ?_⟩
    rw [freeAt]
    dsimp only
    have hh : h = h - (j + 1) + 1 + j := by omega
    have hclear : Tree.blocks sb.addrPerBlock (h - (j + 1) + 1 + j)
          ((st.iData slot).clearAt (rest offsets) j first last)
        + Tree.kidBlocks sb.addrPerBlock (h - (j + 1)) ((st.iData slot).walk (rest offsets) j)
          first last
        = Tree.blocks sb.addrPerBlock (h - (j + 1) + 1 + j) (st.iData slot) :=
      Tree.blocks_clearAt _ _ (fun m hm => hds m (Nat.lt_trans hm hj)) hlast
    rw [← hh] at hclear
    rw [Function.update_self, coe_ext4FreeBranches, hclear]

theorem blocks_single (ptrs depth : Nat) (t : Tree) :
    Tree.kidBlocks ptrs depth (single t) 0 1 = Tree.blocks ptrs depth t := by
  rw [Tree.kidBlocks, ← Finset.range_eq_Ico, Finset.sum_range_one]
  rfl

theorem clears_all {depth : Nat} (st : IndState) :
    Clears sb slot depth (fun _ => True) st
      { iData := Function.update st.iData slot .hole
        freed := st.freed
          ++ ext4FreeBranches sb.addrPerBlock depth (single (st.iData slot)) 0 1 } where
  other := fun s hs => Function.update_of_ne hs _ _
  gone := fun xs _ _ => by
    dsimp only
    rw [Function.update_self, Tree.walk_hole]
  kept := fun _ _ hc => absurd trivial hc
  freed := by
    refine ⟨_, rfl, ?_⟩
    dsimp only
    rw [Function.update_self, coe_ext4FreeBranches, blocks_single, Tree.blocks_hole,
      Multiset.zero_add]

end Clears

/-! ## The branch that is shared -/

/-- The number of steps without those at the end that have `P`. -/
theorem trailing_spec {P : Nat → Prop} [DecidablePred P] {f : Nat → Nat} (h0 : f 0 = 0)
    (hsucc : ∀ j, f (j + 1) = if P j then f j else j + 1) (n : Nat) :
    f n ≤ n ∧ (∀ m, f n ≤ m → m < n → P m) ∧ ∀ q, f n = q + 1 → ¬ P q := by
  induction n with
  | zero =>
    refine ⟨Nat.le_of_eq h0, fun m _ hm => absurd hm (Nat.not_lt_zero m), fun q hq => ?_⟩
    cases h0.symm.trans hq
  | succ n ih =>
    rw [hsucc]
    split
    · rename_i hp
      refine ⟨Nat.le_succ_of_le ih.1, fun m hm hlt => ?_, ih.2.2⟩
      rcases Nat.lt_succ_iff_lt_or_eq.mp hlt with hlt | rfl
      · exact ih.2.1 m hm hlt
      · exact hp
    · rename_i hp
      refine ⟨Nat.le_refl _, fun m hm hlt => by omega, fun q hq => ?_⟩
      cases hq
      exact hp

variable {k m n q : Nat}

theorem getBranch_le (ds : Path) (k : Nat) (t : Tree) : getBranch ds k t ≤ k := by
  induction k generalizing ds t with
  | zero => exact Nat.le_refl 0
  | succ k ih =>
    rw [getBranch]
    split
    · exact Nat.zero_le _
    · exact Nat.succ_le_succ (ih _ _)

variable {t : Tree}

theorem isHole_eq_false : t.isHole = false ↔ t ≠ .hole := by
  cases t with
  | hole => exact iff_of_false nofun fun hne => hne rfl
  | node nr kids => exact iff_of_true rfl nofun

variable {ds : Path}

/-- The chain has a block at every level in front of the last one. -/
theorem walk_ne_hole_of_lt_getBranch (hm : m < getBranch ds k t) : t.walk ds m ≠ .hole := by
  induction k generalizing ds t m with
  | zero => exact absurd hm (Nat.not_lt_zero m)
  | succ k ih =>
    rw [getBranch] at hm
    split at hm
    · exact absurd hm (Nat.not_lt_zero m)
    · rename_i ht
      cases m with
      | zero => exact isHole_eq_false.mp (Bool.eq_false_iff.mpr ht)
      | succ m =>
        have hw := ih (Nat.lt_of_succ_lt_succ hm)
        exact hw

theorem lt_getBranch (hm : m < k) (hw : t.walk ds m ≠ .hole) : m < getBranch ds k t := by
  induction k generalizing ds t m with
  | zero => exact absurd hm (Nat.not_lt_zero m)
  | succ k ih =>
    rw [getBranch]
    have ht : ¬ t.isHole = true := fun hc => by
      rw [Tree.eq_hole hc, Tree.walk_hole] at hw
      exact hw rfl
    rw [if_neg ht]
    cases m with
    | zero => exact Nat.succ_pos _
    | succ m => exact Nat.succ_lt_succ (ih (Nat.lt_of_succ_lt_succ hm) hw)

theorem allZeroes_iff {bh : Tree} {i : Nat} :
    allZeroes bh i = true ↔ ∀ m < i, bh.kid m = .hole := by
  rw [allZeroes, List.all_eq_true]
  constructor
  · exact fun hall m hm => Tree.eq_hole (hall m (List.mem_range.mpr hm))
  · intro hall m hm
    rw [hall m (List.mem_range.mp hm)]
    rfl

/-- What is known of the result of `ext4_find_shared`. Nothing is lost when
the subtree at its level is taken as a whole: what is in front of the path
there is empty. -/
structure IsShared (t : Tree) (h : Nat) (offsets : Path) (sh : Shared) : Prop where
  le : sh.level ≤ h
  chain : ∀ m < sh.level, t.walk (rest offsets) m ≠ .hole
  needed : ∀ j, sh.level = j + 1 →
    ∃ i < offsets sh.level, (t.walk (rest offsets) j).kid i ≠ .hole
  zeroes : ∀ j, sh.level ≤ j → j < h → ∀ i < offsets (j + 1),
    (t.walk (rest offsets) j).kid i = .hole
  cases : (sh.p = offsets sh.level ∧ sh.top = t.walk (rest offsets) sh.level)
    ∨ (sh.top = .hole ∧ 0 < sh.level ∧ sh.p + 1 = offsets sh.level
        ∧ ∀ m, sh.level ≤ m → m < h → offsets (m + 1) = 0)

theorem isShared_ext4FindShared (t : Tree) (h : Nat) (offsets : Path) :
    IsShared t h offsets (ext4FindShared t h offsets) := by
  obtain ⟨hk, hzero, -⟩ := trailing_spec (P := (rest offsets · = 0))
    (f := significant (rest offsets)) rfl (fun _ => rfl) h
  have hL := getBranch_le (rest offsets) (significant (rest offsets) h) t
  have hbranch : ∀ m < significant (rest offsets) h, t.walk (rest offsets) m ≠ .hole →
      m < getBranch (rest offsets) (significant (rest offsets) h) t := fun _ => lt_getBranch
  have hchain : ∀ m < getBranch (rest offsets) (significant (rest offsets) h) t,
      t.walk (rest offsets) m ≠ .hole := fun _ => walk_ne_hole_of_lt_getBranch
  obtain ⟨hq, hall, hnot⟩ := trailing_spec
    (P := fun m => allZeroes (t.walk (rest offsets) m) (rest offsets m) = true)
    (f := scanUp t (rest offsets)) rfl (fun _ => rfl)
    (getBranch (rest offsets) (significant (rest offsets) h) t)
  rw [ext4FindShared]
  generalize significant (rest offsets) h = k at *
  generalize getBranch (rest offsets) k t = L at *
  generalize scanUp t (rest offsets) L = q at *
  have hneeded : ∀ j, q = j + 1 → ∃ i < offsets q, (t.walk (rest offsets) j).kid i ≠ .hole := by
    rintro j rfl
    by_contra hno
    refine hnot j rfl (allZeroes_iff.mpr fun i hi => ?_)
    by_contra hne
    exact hno ⟨i, hi, hne⟩
  have hzeroes : ∀ j, q ≤ j → j < h → ∀ i < offsets (j + 1),
      (t.walk (rest offsets) j).kid i = .hole := by
    intro j hj hjh i hi
    by_cases hw : t.walk (rest offsets) j = .hole
    · rw [hw]
      rfl
    · -- an offset behind the significant ones has nothing in front of it
      have hjk : j < k := by
        by_contra hge
        have : offsets (j + 1) = 0 := hzero j (Nat.le_of_not_lt hge) hjh
        omega
      exact allZeroes_iff.mp (hall j hj (hbranch j hjk hw)) i hi
  have hwalk : ∀ m < q, t.walk (rest offsets) m ≠ .hole := fun m hm =>
    hchain m (Nat.lt_of_lt_of_le hm hq)
  have hle : q ≤ h := by omega
  split
  · rename_i hc
    obtain ⟨rfl, hpos⟩ := hc
    obtain ⟨i, hi, -⟩ := hneeded (q - 1) (by omega)
    exact ⟨hle, hwalk, hneeded, hzeroes, .inr ⟨rfl, hpos, Nat.sub_add_cancel (by omega), hzero⟩⟩
  · exact ⟨hle, hwalk, hneeded, hzeroes, .inl ⟨rfl, rfl⟩⟩

section Shared

variable {t : Tree} {h j : Nat} {offsets xs : Path} {sh : Shared}

theorem IsShared.walk_before (hs : IsShared t h offsets sh) (hag : Agree sh.level xs (rest offsets))
    (hb : Before h xs (rest offsets)) : t.walk xs h = .hole := by
  obtain ⟨m, hm, hagm, hlt⟩ := hb
  have hle : sh.level ≤ m := by
    by_contra hc
    exact Nat.ne_of_lt hlt (hag m (Nat.lt_of_not_le hc))
  refine Tree.walk_eq_hole (n := m + 1) ?_ hm
  rw [Tree.walk_succ, Tree.walk_congr hagm]
  exact hs.zeroes m hle hm _ hlt

theorem Shared.ptr_of_ne (hj : j ≠ sh.level) : sh.ptr offsets j = offsets j := if_neg hj

theorem Shared.ptr_level : sh.ptr offsets sh.level = sh.p := if_pos rfl

theorem Shared.next_level : sh.next.level = sh.level := by
  rw [Shared.next]
  split <;> rfl

theorem Shared.next_p : sh.next.p = if sh.top.isHole then sh.p + 1 else sh.p := by
  rw [Shared.next]
  split <;> rfl

theorem Shared.next_ptr_of_ne (hj : j ≠ sh.level) : sh.next.ptr offsets j = offsets j := by
  rw [Shared.ptr, Shared.next_level, if_neg hj]

theorem Shared.next_ptr_level :
    sh.next.ptr offsets sh.level = if sh.top.isHole then sh.p + 1 else sh.p := by
  rw [Shared.ptr, Shared.next_level, if_pos rfl, Shared.next_p]

section

variable (hs : IsShared t h offsets sh)

include hs

theorem IsShared.p_le : sh.p ≤ offsets sh.level := by
  rcases hs.cases with ⟨hp, -⟩ | ⟨-, -, hp, -⟩ <;> omega

theorem IsShared.ptr_le (j : Nat) : sh.ptr offsets j ≤ offsets j := by
  by_cases hj : j = sh.level
  · rw [hj, Shared.ptr_level]
    exact hs.p_le
  · rw [Shared.ptr_of_ne hj]

theorem IsShared.not_before_of_agree (hag : Agree sh.level xs (rest offsets)) :
    ¬ Before h xs (rest offsets) ∨ t.walk xs h = .hole :=
  Classical.or_iff_not_imp_left.mpr fun hb => hs.walk_before hag (not_not.mp hb)

/-- The pointer of the chain is the one of the path, except that the last
one can be the one in front of it. -/
theorem IsShared.not_before_of_ptr_lt (hag : Agree j xs (rest offsets))
    (hlt : sh.ptr offsets (j + 1) < xs j) (hjh : j < h) :
    ¬ Before h xs (rest offsets) ∨ t.walk xs h = .hole := by
  by_cases hgt : offsets (j + 1) < xs j
  · exact .inl (Before.asymm ⟨j, hjh, hag.symm, hgt⟩)
  · have hj : j + 1 = sh.level := by
      by_contra hne
      rw [Shared.ptr_of_ne hne] at hlt
      exact hgt hlt
    have heq : xs j = offsets (j + 1) := by
      rw [hj, Shared.ptr_level] at hlt
      rw [hj] at hgt ⊢
      rcases hs.cases with ⟨hp, -⟩ | ⟨-, -, hp, -⟩ <;> omega
    exact hs.not_before_of_agree (hj ▸ agree_succ.mpr ⟨hag, heq⟩)

theorem IsShared.le_next_ptr (j : Nat) : offsets j ≤ sh.next.ptr offsets j := by
  by_cases hj : j = sh.level
  · rw [hj, Shared.next_ptr_level]
    rcases hs.cases with ⟨hp, -⟩ | ⟨htop, -, hp, -⟩
    · split <;> omega
    · rw [htop, if_pos (by rfl)]
      omega
  · rw [Shared.next_ptr_of_ne hj]

theorem IsShared.next_ptr_le (j : Nat) : sh.next.ptr offsets j ≤ offsets j + 1 := by
  by_cases hj : j = sh.level
  · rw [hj, Shared.next_ptr_level]
    have := hs.p_le
    split <;> omega
  · rw [Shared.next_ptr_of_ne hj]
    exact Nat.le_succ _

/-- Behind the last pointer that is kept there is the one of the path, or
the one behind it if that is a hole. -/
theorem IsShared.before_of_lt_next_ptr (hag : Agree j xs (rest offsets))
    (hlt : xs j < sh.next.ptr offsets (j + 1)) (hjh : j < h) :
    Before h xs (rest offsets) ∨ t.walk xs h = .hole := by
  by_cases hlt' : xs j < offsets (j + 1)
  · exact .inl ⟨j, hjh, hag, hlt'⟩
  · have hj : j + 1 = sh.level := by
      by_contra hne
      rw [Shared.next_ptr_of_ne hne] at hlt
      exact hlt' hlt
    have hle := hs.next_ptr_le (j + 1)
    have hagl := agree_succ.mpr ⟨hag, show xs j = offsets (j + 1) by omega⟩
    rw [hj, Shared.next_ptr_level] at hlt
    rw [hj] at hlt' hle hagl
    rcases hs.cases with ⟨hp, htop⟩ | ⟨htop, -, hp, -⟩
    · rw [hp] at hlt
      split at hlt
      · rename_i hhole
        refine .inr (Tree.walk_eq_hole (n := sh.level) ?_ (hj ▸ hjh))
        rw [Tree.walk_congr hagl, ← htop, Tree.eq_hole hhole]
      · exact absurd hlt hlt'
    · rw [htop, if_pos (by rfl), hp] at hlt
      exact absurd hlt hlt'

/-- What the path leads to at the level is the top, or it is freed with the
tail of its block, or it is empty. -/
theorem IsShared.of_agree (hag : Agree sh.level xs (rest offsets)) :
    sh.top ≠ .hole
      ∨ (∃ j, j + 1 = sh.level ∧ Agree j xs (rest offsets) ∧ sh.ptr offsets (j + 1) < xs j)
      ∨ t.walk xs h = .hole := by
  rcases hs.cases with ⟨hp, htop⟩ | ⟨htop, hpos, hp, -⟩
  · by_cases hw : sh.top = .hole
    · refine .inr (.inr (Tree.walk_eq_hole (n := sh.level) ?_ hs.le))
      rw [Tree.walk_congr hag, ← htop, hw]
    · exact .inl hw
  · obtain ⟨j, hj⟩ : ∃ j, j + 1 = sh.level := ⟨sh.level - 1, by omega⟩
    obtain ⟨hagj, hxj⟩ := agree_succ.mp (hj ▸ hag)
    refine .inr (.inl ⟨j, hj, hagj, ?_⟩)
    rw [hj, Shared.ptr_level, hxj]
    show sh.p < offsets (j + 1)
    rw [hj]
    omega

end

end Shared

/-! ## The two ends -/

section Ends

variable {slot h : Nat} {offsets : Path} {sh : Shared}

theorem clears_freeTop {st : IndState} (hds : Proper sb h (rest offsets))
    (hs : IsShared (st.iData slot) h offsets sh) :
    Clears sb slot h (fun xs => sh.top ≠ .hole ∧ Agree sh.level xs (rest offsets)) st
      (freeTop sb slot h offsets sh st) := by
  rw [freeTop]
  by_cases hhole : sh.top.isHole = true
  · rw [if_pos hhole]
    exact .of_hole fun _ _ hc => absurd (Tree.eq_hole hhole) hc.1
  · rw [if_neg hhole]
    have htop : sh.top ≠ .hole := isHole_eq_false.mp (Bool.eq_false_iff.mpr hhole)
    obtain ⟨hp, hw⟩ := hs.cases.resolve_right fun hc => htop hc.1
    cases hl : sh.level with
    | zero =>
      rw [hl] at hw
      rw [hw]
      exact (clears_all st).congr
        (fun _ _ _ => .inl ⟨hw ▸ htop, fun m hm => absurd hm (Nat.not_lt_zero m)⟩)
        fun _ _ _ => .inl trivial
    | succ j =>
      have hle := hs.le
      rw [hl] at hle hp
      have hoff : offsets (j + 1) < sb.addrPerBlock := hds j hle
      refine (clears_freeAt hle hds (hp ▸ hoff) st).congr ?_ ?_
      · rintro xs - ⟨hag, hlo, hhi⟩
        exact .inl ⟨htop, agree_succ.mpr ⟨hag, show xs j = offsets (j + 1) by omega⟩⟩
      · rintro xs - ⟨-, hag⟩
        obtain ⟨hag, hxj⟩ := agree_succ.mp hag
        have hxj : xs j = offsets (j + 1) := hxj
        exact .inl ⟨hag, by omega, by omega⟩

/-- A range is freed below every node that two paths have in common, from the
lowest one upwards. -/
theorem clears_levels {lo hi : Nat → Nat} {free : Nat → IndState → IndState}
    (hds : Proper sb h (rest offsets)) (hn : n ≤ h) (hhi : ∀ j < h, hi j ≤ sb.addrPerBlock)
    (h0 : ∀ st, free 0 st = st)
    (hsucc : ∀ j st, free (j + 1) st = free j (freeAt sb slot h offsets j (lo j) (hi j) st))
    (st : IndState) :
    Clears sb slot h (fun xs => ∃ j < n, Agree j xs (rest offsets) ∧ lo j ≤ xs j ∧ xs j < hi j) st
      (free n st) := by
  induction n generalizing st with
  | zero =>
    rw [h0]
    refine .of_hole ?_
    rintro xs - ⟨j, hj, -⟩
    exact absurd hj (Nat.not_lt_zero j)
  | succ n ih =>
    rw [hsucc]
    refine ((clears_freeAt hn hds (hhi n hn) st).trans (ih (Nat.le_of_succ_le hn) _)).congr ?_ ?_
    · rintro xs - (hc | ⟨j, hj, hc⟩)
      · exact .inl ⟨n, Nat.lt_succ_self n, hc⟩
      · exact .inl ⟨j, Nat.lt_succ_of_lt hj, hc⟩
    · rintro xs - ⟨j, hj, hc⟩
      rcases Nat.lt_succ_iff_lt_or_eq.mp hj with hjn | rfl
      · exact .inl (.inr ⟨j, hjn, hc⟩)
      · exact .inl (.inl hc)

theorem not_before_split {xs ys : Path} (hq : q ≤ h) (hb : ¬ Before h xs ys) :
    (∃ j < q, Agree j xs ys ∧ ys j < xs j) ∨ Agree q xs ys := by
  by_cases hag : Agree q xs ys
  · exact .inr hag
  · obtain ⟨m, hm, hagm, hne⟩ := exists_first_ne hag
    refine .inl ⟨m, hm, hagm, (Nat.lt_or_gt_of_ne hne).resolve_left fun hlt => ?_⟩
    exact hb ⟨m, Nat.lt_of_lt_of_le hm hq, hagm, hlt⟩

theorem clears_trimStart (hds : Proper sb h (rest offsets)) (st : IndState) :
    Clears sb slot h (fun xs => ¬ Before h xs (rest offsets)) st
      (trimStart sb slot h offsets st) := by
  have hs := isShared_ext4FindShared (st.iData slot) h offsets
  refine ((clears_freeTop hds hs).trans (clears_levels hds hs.le (fun _ _ => Nat.le_refl _)
    (fun _ => rfl) (fun _ _ => rfl) _)).congr ?_ ?_
  · rintro xs - (⟨-, hag⟩ | ⟨j, hj, hag, hlt, -⟩)
    · exact hs.not_before_of_agree hag
    · exact hs.not_before_of_ptr_lt hag hlt (Nat.lt_of_lt_of_le hj hs.le)
  · intro xs hxs hc
    rcases not_before_split hs.le hc with ⟨j, hj, hag, hlt⟩ | hag
    · exact .inl (.inr ⟨j, hj, hag, Nat.lt_of_le_of_lt (hs.ptr_le _) hlt,
        hxs j (Nat.lt_of_lt_of_le hj hs.le)⟩)
    · have hle := hs.le
      rcases hs.of_agree hag with htop | ⟨j, hj, hagj, hlt⟩ | hw
      · exact .inl (.inl ⟨htop, hag⟩)
      · exact .inl (.inr ⟨j, by omega, hagj, hlt, hxs j (by omega)⟩)
      · exact .inr hw

theorem IsShared.next_ptr_bound (hs : IsShared t h offsets sh) (hds : Proper sb h (rest offsets)) :
    ∀ j < h, sh.next.ptr offsets (j + 1) ≤ sb.addrPerBlock := by
  intro j hj
  have : offsets (j + 1) < sb.addrPerBlock := hds j hj
  exact Nat.le_trans (hs.next_ptr_le (j + 1)) this

/-- A path in front of another one is so above the level, or it agrees with
it up to there. -/
theorem before_split {xs ys : Path} (hb : Before h xs ys) :
    (∃ j < q, Agree j xs ys ∧ xs j < ys j) ∨ Agree q xs ys := by
  obtain ⟨m, -, hag, hlt⟩ := hb
  by_cases hq : m < q
  · exact .inl ⟨m, hq, hag, hlt⟩
  · exact .inr (hag.mono (Nat.le_of_not_lt hq))

theorem clears_trimEnd (hds : Proper sb h (rest offsets)) (st : IndState) :
    Clears sb slot h (fun xs => Before h xs (rest offsets)) st
      (trimEnd sb slot h offsets st) := by
  have hs := isShared_ext4FindShared (st.iData slot) h offsets
  rw [trimEnd]
  split
  · rename_i h0
    have hl : (ext4FindShared (st.iData slot) h offsets).level = 0 := by
      rw [Bool.and_eq_true, decide_eq_true_eq] at h0
      exact h0.2
    refine .of_hole fun xs _ hb => ?_
    exact hs.walk_before (fun m hm => absurd (hl ▸ hm) (Nat.not_lt_zero m)) hb
  · refine (clears_levels hds hs.le (hs.next_ptr_bound hds) (fun _ => rfl) (fun _ _ => rfl)
      st).congr
      ?_ ?_
    · rintro xs - ⟨j, hj, hag, -, hlt⟩
      exact hs.before_of_lt_next_ptr hag hlt (Nat.lt_of_lt_of_le hj hs.le)
    · intro xs _ hb
      rcases before_split hb with ⟨j, hj, hag, hlt⟩ | hag
      · exact .inl ⟨j, hj, hag, Nat.zero_le _, Nat.lt_of_lt_of_le hlt (hs.le_next_ptr (j + 1))⟩
      · exact .inr (hs.walk_before hag hb)

end Ends

end Ext4.Indirect
