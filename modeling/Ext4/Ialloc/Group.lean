import Ext4.Ialloc.Inodes

/-!
# Inode allocation — one group

Between the section that takes a bit and the one that changes the
descriptor an inode is pending: its bit is set, but it is still counted as
free and the table need not reach it. The invariant of a group is stated
with the inodes in use and the pending ones, and each section keeps it.
-/

namespace Ext4.Ialloc

open Bitmap

variable {sb : IaSb}

/-- The invariant of a group with the inodes `use` in use and the inodes
`pend` pending. -/
structure GroupInv (sb : IaSb) (group : Nat) (desc : GroupDesc sb) (use : Nat → Option Bool)
    (pend : Nat → Prop) : Prop where
  used : ∀ b d, use b = some d → b < sb.inodesPerGroup ∧ desc.bitmap b = true ∧ ¬ pend b ∧
    (b < sb.inodesPerGroup - desc.itableUnused ∨ desc.zeroed = true)
  pending : ∀ b, pend b → b < sb.inodesPerGroup ∧ desc.bitmap b = true ∧
    sb.firstIno ≤ sb.ino group b
  fresh : sb.groupDescCsum = true → desc.uninit = true → ∀ b < sb.inodesPerGroup,
    desc.bitmap b = true → pend b
  reserved : group ≠ 0 → ∀ b < sb.inodesPerGroup, sb.ino group b < sb.firstIno →
    desc.bitmap b = true
  free : (desc.freeInodes : Int) = cnt sb.inodesPerGroup fun b => desc.bitmap b = false ∨ pend b
  dirs : (desc.usedDirs : Int) = cnt sb.inodesPerGroup fun b => use b = some true
  noCsum : sb.groupDescCsum = false → desc.itableUnused = 0 ∨ desc.zeroed = true

section Group

variable {group : Nat} {desc desc' : GroupDesc sb} {use : Nat → Option Bool} {pend : Nat → Prop}

theorem GroupInv.congr (h : GroupInv sb group desc use pend) {pend' : Nat → Prop}
    (hp : ∀ b, pend' b ↔ pend b) : GroupInv sb group desc use pend' := by
  obtain rfl : pend' = pend := funext fun b => propext (hp b)
  exact h

/-- Only the state of the buffer and flags that do not matter change. -/
theorem GroupInv.same (h : GroupInv sb group desc use pend)
    (hbits : ∀ b < sb.inodesPerGroup, desc'.bitmap b = desc.bitmap b)
    (huninit : desc'.uninit = desc.uninit) (hzeroed : desc.zeroed = true → desc'.zeroed = true)
    (hunused : desc'.itableUnused = desc.itableUnused) (hfree : desc'.freeInodes = desc.freeInodes)
    (hdirs : desc'.usedDirs = desc.usedDirs) : GroupInv sb group desc' use pend where
  used := fun b d hb => by
    obtain ⟨h1, h2, h3, h4⟩ := h.used b d hb
    rw [hbits b h1, hunused]
    exact ⟨h1, h2, h3, h4.imp_right hzeroed⟩
  pending := fun b hb => by
    obtain ⟨h1, h2, h3⟩ := h.pending b hb
    rw [hbits b h1]
    exact ⟨h1, h2, h3⟩
  fresh := fun hc hu b hb hbit => h.fresh hc (huninit ▸ hu) b hb (hbits b hb ▸ hbit)
  reserved := fun hg b hb hr => (hbits b hb).trans (h.reserved hg b hb hr)
  free := by
    rw [hfree, h.free]
    exact cnt_congr fun b hb => by rw [hbits b hb]
  dirs := by rw [hdirs, h.dirs]
  noCsum := fun hc => by
    rw [hunused]
    exact (h.noCsum hc).imp_right hzeroed

theorem bitmap_of_uptodate (h : desc.uptodate = true) : desc.bitmap = desc.bits := by
  rw [GroupDesc.bitmap, h]
  rfl

theorem readInodeBitmap_spec (h : desc.readInodeBitmap group = some desc') :
    desc'.uptodate = true ∧ desc'.bitmap = desc.bitmap ∧ desc'.uninit = desc.uninit ∧
      desc'.zeroed = desc.zeroed ∧ desc'.itableUnused = desc.itableUnused ∧
      desc'.freeInodes = desc.freeInodes ∧ desc'.usedDirs = desc.usedDirs ∧
      desc'.corrupt = desc.corrupt := by
  unfold GroupDesc.readInodeBitmap at h
  split at h
  · rename_i hup
    cases h
    exact ⟨hup, rfl, rfl, rfl, rfl, rfl, rfl, rfl⟩
  · rename_i hup
    split at h
    · rename_i hun
      split at h
      · cases h
      · cases h
        refine ⟨rfl, (bitmap_of_uptodate rfl).trans ?_, rfl, rfl, rfl, rfl, rfl, rfl⟩
        rw [GroupDesc.bitmap, Bool.and_assoc, hun, Bool.eq_false_iff.mpr hup]
        rfl
    · rename_i hun
      cases h
      refine ⟨rfl, (bitmap_of_uptodate rfl).trans ?_, rfl, rfl, rfl, rfl, rfl, rfl⟩
      rw [GroupDesc.bitmap, Bool.and_assoc, Bool.eq_false_iff.mpr hun, Bool.and_false]
      rfl

theorem GroupInv.read (h : GroupInv sb group desc use pend)
    (hr : desc.readInodeBitmap group = some desc') : GroupInv sb group desc' use pend := by
  obtain ⟨-, hbits, hun, hz, hunused, hfree, hdirs, -⟩ := readInodeBitmap_spec hr
  exact h.same (fun b _ => congrFun hbits b) hun (fun hc => hz ▸ hc) hunused hfree hdirs

theorem succCount_eq {n : Nat} (h : n < sb.inodesPerGroup) : GroupDesc.succCount sb n = n + 1 :=
  Nat.mod_eq_of_lt (Nat.lt_of_le_of_lt h sb.inodesPerGroup_lt)

theorem predCount_eq {n : Nat} (hpos : 0 < n) (h : n ≤ sb.inodesPerGroup) :
    GroupDesc.predCount sb n = n - 1 := by
  have hlt := sb.inodesPerGroup_lt
  have : n + (2 ^ sb.countBits - 1) = (n - 1) + 2 ^ sb.countBits := by omega
  rw [GroupDesc.predCount, this, Nat.add_mod_right, Nat.mod_eq_of_lt (by omega)]

variable {b : Nat}

theorem GroupInv.claim (h : GroupInv sb group desc use pend) (hup : desc.uptodate = true)
    (hb : b < sb.inodesPerGroup) (hclear : desc.bits b = false)
    (hres : group = 0 → sb.firstIno ≤ b + 1) :
    GroupInv sb group { desc with bits := put desc.bits b true } use (fun k => pend k ∨ k = b) := by
  have hbm := bitmap_of_uptodate hup
  have hbm' : ({ desc with bits := put desc.bits b true } : GroupDesc sb).bitmap
      = put desc.bits b true := bitmap_of_uptodate hup
  have hgrow : ∀ k, desc.bitmap k = true → put desc.bits b true k = true := by
    intro k hk
    by_cases hkb : k = b
    · rw [hkb, put_self]
    · rw [put_ne _ _ hkb, ← hbm, hk]
  refine ⟨fun k d hk => ?_, fun k hk => ?_, fun hc hu k hk hbit => ?_, fun hg k hk hr => ?_, ?_,
    h.dirs, h.noCsum⟩
  · obtain ⟨h1, h2, h3, h4⟩ := h.used k d hk
    refine ⟨h1, (congrFun hbm' k).trans (hgrow k h2), ?_, h4⟩
    rintro (hp | rfl)
    · exact h3 hp
    · rw [hbm, hclear] at h2
      cases h2
  · rcases hk with hk | rfl
    · obtain ⟨h1, h2, h3⟩ := h.pending k hk
      exact ⟨h1, (congrFun hbm' k).trans (hgrow k h2), h3⟩
    · refine ⟨hb, by rw [hbm', put_self], ?_⟩
      by_cases hg : group = 0
      · rw [IaSb.ino, hg, Nat.zero_mul]
        exact hres hg
      · -- in the other groups the bits of reserved inodes are set
        by_contra hlt
        have := h.reserved hg k hb (Nat.lt_of_not_le hlt)
        rw [hbm, hclear] at this
        cases this
  · by_cases hkb : k = b
    · exact .inr hkb
    · rw [hbm', put_ne _ _ hkb, ← hbm] at hbit
      exact .inl (h.fresh hc hu k hk hbit)
  · exact (congrFun hbm' k).trans (hgrow k (h.reserved hg k hk hr))
  · refine h.free.trans (cnt_congr fun k hk => ?_)
    rw [hbm', hbm]
    by_cases hkb : k = b
    · exact iff_of_true (.inl (hkb ▸ hclear)) (.inr (.inr hkb))
    · rw [put_ne _ _ hkb, or_iff_left hkb]

theorem takeInode_bitmap (hup : desc.uptodate = true) (isDir : Bool) (ino : Nat) :
    (desc.takeInode isDir ino).bitmap = desc.bits := by
  unfold GroupDesc.takeInode
  dsimp only
  split
  · split <;> exact bitmap_of_uptodate hup
  · exact bitmap_of_uptodate hup

theorem takeInode_counts (desc : GroupDesc sb) (isDir : Bool) (ino : Nat) :
    (desc.takeInode isDir ino).freeInodes = GroupDesc.predCount sb desc.freeInodes ∧
      (desc.takeInode isDir ino).usedDirs
        = (if isDir then GroupDesc.succCount sb desc.usedDirs else desc.usedDirs) ∧
      (desc.takeInode isDir ino).zeroed = desc.zeroed ∧
      (desc.takeInode isDir ino).uptodate = desc.uptodate ∧
      (sb.groupDescCsum = true → (desc.takeInode isDir ino).uninit = false) := by
  unfold GroupDesc.takeInode
  dsimp only
  split
  · split <;> exact ⟨rfl, rfl, rfl, rfl, fun _ => rfl⟩
  · rename_i hc
    exact ⟨rfl, rfl, rfl, rfl, fun h => absurd h hc⟩

/-- The table reaches the inode, and what it reached before unless it was
not initialised. -/
theorem takeInode_table (desc : GroupDesc sb) (isDir : Bool) {ino : Nat} (hpos : 0 < ino)
    (hle : ino ≤ sb.inodesPerGroup) :
    (sb.groupDescCsum = true →
      ino ≤ sb.inodesPerGroup - (desc.takeInode isDir ino).itableUnused) ∧
      (sb.groupDescCsum = true → desc.uninit = false →
        sb.inodesPerGroup - desc.itableUnused
          ≤ sb.inodesPerGroup - (desc.takeInode isDir ino).itableUnused) ∧
      (sb.groupDescCsum = false → (desc.takeInode isDir ino).itableUnused = desc.itableUnused) := by
  unfold GroupDesc.takeInode
  dsimp only
  split
  · rename_i hc
    by_cases hlt : desc.usedTable < ino
    · rw [if_pos hlt]
      dsimp only
      refine ⟨fun _ => by omega, fun _ hu => ?_, fun h => ?_⟩
      · rw [GroupDesc.usedTable, hu, if_neg Bool.false_ne_true] at hlt
        omega
      · cases hc.symm.trans h
    · rw [if_neg hlt]
      refine ⟨fun _ => ?_, fun _ _ => Nat.le_refl _, fun _ => rfl⟩
      rw [GroupDesc.usedTable] at hlt
      split at hlt
      · omega
      · exact Nat.le_of_not_lt hlt
  · rename_i hc
    exact ⟨fun h => absurd h hc, fun h => absurd h hc, fun _ => rfl⟩

section

variable (h : GroupInv sb group desc use pend)

include h

theorem GroupInv.take (hup : desc.uptodate = true) (hb : pend b) (isDir : Bool) :
    GroupInv sb group (desc.takeInode isDir (b + 1)) (Function.update use b (some isDir))
      (fun k => pend k ∧ k ≠ b) := by
  have hbm := bitmap_of_uptodate hup
  have hbm' := takeInode_bitmap hup isDir (b + 1)
  obtain ⟨hfree, hdirs, hzeroed, -, hinit⟩ := takeInode_counts desc isDir (b + 1)
  obtain ⟨hlt, hbit, -⟩ := h.pending b hb
  obtain ⟨htab, hold, hnoc⟩ := takeInode_table desc isDir (Nat.succ_pos b) hlt
  have hnone : use b = none := by
    cases hu : use b with
    | none => rfl
    | some d => exact absurd hb (h.used b d hu).2.2.1
  refine ⟨fun k d hk => ?_, fun k hk => ?_, fun hc hu => ?_, fun hg k hk hr => ?_, ?_, ?_,
    fun hc => ?_⟩
  · rw [Function.update_apply] at hk
    split at hk
    · rename_i hkb
      subst hkb
      refine ⟨hlt, by rw [hbm', ← hbm, hbit], fun hc => hc.2 rfl, ?_⟩
      cases hc : sb.groupDescCsum with
      | true => exact .inl (htab hc)
      | false =>
        rw [hnoc hc, hzeroed]
        exact (h.noCsum hc).imp_left fun h0 => by omega
    · obtain ⟨h1, h2, h3, h4⟩ := h.used k d hk
      refine ⟨h1, by rw [hbm', ← hbm, h2], fun hc => h3 hc.1, ?_⟩
      rw [hzeroed]
      cases hc : sb.groupDescCsum with
      | true =>
        have hu : desc.uninit = false := by
          cases hu : desc.uninit with
          | false => rfl
          | true => exact absurd (h.fresh hc hu k h1 h2) h3
        exact h4.imp_left fun hlt => Nat.lt_of_lt_of_le hlt (hold hc hu)
      | false =>
        rw [hnoc hc]
        exact h4
  · obtain ⟨h1, h2, h3⟩ := h.pending k hk.1
    exact ⟨h1, by rw [hbm', ← hbm, h2], h3⟩
  · exact Bool.noConfusion ((hinit hc).symm.trans hu)
  · rw [hbm', ← hbm]
    exact h.reserved hg k hk hr
  · have hcnt : cnt sb.inodesPerGroup (fun k => desc.bitmap k = false ∨ pend k)
        = cnt sb.inodesPerGroup (fun k => desc.bitmap k = false ∨ pend k ∧ k ≠ b) + 1 := by
      refine cnt_add_one hlt (.inr hb) ?_ fun k _ hk => by rw [and_iff_left hk]
      rintro (hc | hc)
      · rw [hbit] at hc
        cases hc
      · exact hc.2 rfl
    have hle := cnt_le sb.inodesPerGroup fun k => desc.bitmap k = false ∨ pend k
    have hnn := cnt_nonneg sb.inodesPerGroup fun k => desc.bitmap k = false ∨ pend k ∧ k ≠ b
    have := h.free
    rw [hfree, predCount_eq (by omega) (by omega), hbm', ← hbm]
    omega
  · rw [hdirs]
    cases isDir with
    | true =>
      have hcnt : cnt sb.inodesPerGroup (fun k => Function.update use b (some true) k = some true)
          = cnt sb.inodesPerGroup (fun k => use k = some true) + 1 := by
        refine cnt_add_one hlt (Function.update_self ..) (by rw [hnone]; nofun) fun k _ hk => ?_
        rw [Function.update_of_ne hk]
      have hno := cnt_lt (p := fun k => use k = some true) hlt (by rw [hnone]; nofun)
      have := h.dirs
      rw [if_pos rfl, succCount_eq (by omega), hcnt]
      omega
    | false =>
      rw [if_neg Bool.false_ne_true, h.dirs]
      refine cnt_congr fun k _ => ?_
      rw [Function.update_apply]
      split
      · rename_i hk
        rw [hk, hnone]
        decide
      · rfl
  · rw [hnoc hc, hzeroed]
    exact h.noCsum hc

theorem GroupInv.clear (hup : desc.uptodate = true) {isDir : Bool} (hb : use b = some isDir)
    (hres : sb.firstIno ≤ sb.ino group b) :
    GroupInv sb group (desc.freeInode isDir b) (Function.update use b none) pend := by
  have hbm := bitmap_of_uptodate hup
  obtain ⟨hlt, hbit, hnp, -⟩ := h.used b isDir hb
  have hset : desc.bits b = true := hbm ▸ hbit
  rw [GroupDesc.freeInode, if_pos hset]
  generalize hd : ({ desc with
      bits := put desc.bits b false
      freeInodes := GroupDesc.succCount sb desc.freeInodes
      usedDirs := if isDir = true then GroupDesc.predCount sb desc.usedDirs else desc.usedDirs } :
      GroupDesc sb) = desc'
  have hbm' : desc'.bitmap = put desc.bits b false := by
    rw [← hd]
    exact bitmap_of_uptodate hup
  have hsame : ∀ k, k ≠ b → desc'.bitmap k = desc.bitmap k := by
    intro k hk
    rw [hbm', put_ne _ _ hk, hbm]
  have hclear : desc'.bitmap b = false := by rw [hbm', put_self]
  have hne : ∀ k, pend k → k ≠ b := by
    rintro k hk rfl
    exact hnp hk
  obtain ⟨hun, hz, huu⟩ : desc'.uninit = desc.uninit ∧ desc'.zeroed = desc.zeroed ∧
      desc'.itableUnused = desc.itableUnused := by
    rw [← hd]
    exact ⟨rfl, rfl, rfl⟩
  refine ⟨fun k d hk => ?_, fun k hk => ?_, fun hc hu k hk hkb => ?_, fun hg k hk hr => ?_, ?_, ?_,
    fun hc => ?_⟩
  · rw [Function.update_apply] at hk
    split at hk
    · cases hk
    · rename_i hkb
      rw [hsame k hkb, hz, huu]
      exact h.used k d hk
  · rw [hsame k (hne k hk)]
    exact h.pending k hk
  · by_cases hkeq : k = b
    · rw [hkeq, hclear] at hkb
      cases hkb
    · rw [hsame k hkeq] at hkb
      exact h.fresh hc (hun ▸ hu) k hk hkb
  · rw [hsame k]
    · exact h.reserved hg k hk hr
    · rintro rfl
      exact absurd hr (Nat.not_lt.mpr hres)
  · have hused : ¬ (desc.bitmap b = false ∨ pend b) := by
      rintro (hc | hc)
      · rw [hbit] at hc
        cases hc
      · exact hnp hc
    have hcnt : cnt sb.inodesPerGroup (fun k => desc'.bitmap k = false ∨ pend k)
        = cnt sb.inodesPerGroup (fun k => desc.bitmap k = false ∨ pend k) + 1 := by
      exact cnt_add_one hlt (.inl hclear) hused fun k _ hk => by rw [hsame k hk]
    have hno := cnt_lt (p := fun k => desc.bitmap k = false ∨ pend k) hlt hused
    have := h.free
    rw [hcnt, show desc'.freeInodes = GroupDesc.succCount sb desc.freeInodes by rw [← hd],
      succCount_eq (by omega)]
    omega
  · rw [show desc'.usedDirs
      = (if isDir = true then GroupDesc.predCount sb desc.usedDirs else desc.usedDirs) by rw [← hd]]
    cases isDir with
    | true =>
      have hcnt : cnt sb.inodesPerGroup (fun k => use k = some true)
          = cnt sb.inodesPerGroup (fun k => Function.update use b none k = some true) + 1 := by
        refine cnt_add_one hlt hb (by rw [Function.update_self]; nofun) fun k _ hk => ?_
        rw [Function.update_of_ne hk]
      have hle := cnt_le sb.inodesPerGroup fun k => use k = some true
      have hnn := cnt_nonneg sb.inodesPerGroup fun k => Function.update use b none k = some true
      have := h.dirs
      rw [if_pos rfl, predCount_eq (by omega) (by omega)]
      omega
    | false =>
      rw [if_neg Bool.false_ne_true, h.dirs]
      refine cnt_congr fun k _ => ?_
      rw [Function.update_apply]
      split
      · rename_i hk
        rw [hk, hb]
        decide
      · rfl
  · rw [hz, huu]
    exact h.noCsum hc

theorem GroupInv.reclaim (hp : ∀ b, ¬ pend b) :
    GroupInv sb group { desc with uptodate := false } use pend := by
  refine h.same (fun b hb => ?_) rfl id rfl rfl rfl
  rw [GroupDesc.bitmap]
  split
  · rename_i hc
    simp only [Bool.not_false, Bool.true_and, Bool.and_eq_true] at hc
    cases hbit : desc.bitmap b with
    | false => rfl
    | true => exact absurd (h.fresh hc.1 hc.2 b hb hbit) (hp b)
  · rename_i hc
    rw [GroupDesc.bitmap, if_neg]
    intro hc'
    simp only [Bool.not_false, Bool.true_and, Bool.and_eq_true] at hc hc'
    exact hc ⟨hc'.1.2, hc'.2⟩

theorem GroupInv.initInodeTable : GroupInv sb group (desc.initInodeTable group) use pend := by
  unfold GroupDesc.initInodeTable
  split
  · exact h
  · exact h.same (fun _ _ => rfl) rfl (fun _ => rfl) rfl rfl rfl

theorem GroupInv.zeroRange (hc : sb.groupDescCsum = true) {d : Bool} (hb : use b = some d) :
    ¬ ((desc.zeroRange group).1 ≤ b / sb.inodesPerBlock ∧
      b / sb.inodesPerBlock < (desc.zeroRange group).1 + (desc.zeroRange group).2) := by
  obtain ⟨hlt, hbit, hnp, htab⟩ := h.used b d hb
  unfold GroupDesc.zeroRange
  split
  · simp
  · rename_i hz
    simp only [Bool.or_eq_true, not_or, Bool.not_eq_true] at hz
    have htab := htab.resolve_right (by rw [hz.1]; exact Bool.false_ne_true)
    rintro ⟨hge, -⟩
    have hu : desc.uninit = false := by
      cases hu : desc.uninit with
      | false => rfl
      | true => exact absurd (h.fresh hc hu b hlt hbit) hnp
    rw [GroupDesc.usedBlks, hu, if_neg Bool.false_ne_true] at hge
    -- `b` lies in the last of the blocks in use or in front of it
    have hpos := sb.inodesPerBlock_pos
    have : b / sb.inodesPerBlock + 1
        ≤ (sb.inodesPerGroup - desc.itableUnused + sb.inodesPerBlock - 1) / sb.inodesPerBlock := by
      rw [Nat.le_div_iff_mul_le hpos, Nat.add_mul, Nat.one_mul]
      have := Nat.div_mul_le_self b sb.inodesPerBlock
      omega
    omega

end

end Group

end Ext4.Ialloc
