import Ext4.Namei.Orphan

/-!
# The orphan list — what the chain on disk says

After a crash only the chain is left, so it has to end and to lead to every
inode of the list in memory. An inode that has left the list but not the
chain can break this when it is added again: the last inode of the chain
looks as if it were not on it, and one that was cut out looks as if it
were. These are the only ways.
-/

namespace Ext4.Namei

open Chain

variable {sb : OrphanSb} {st : OrphanState}

/-- The chain ends and has the inodes of the list in their order. -/
def OnDisk (st : OrphanState) : Prop :=
  ∃ c, Path st.nextOrphan 0 st.sLastOrphan c ∧ st.sOrphan.Sublist c

/-- The chain is the list. -/
def InStep (st : OrphanState) : Prop := Path st.nextOrphan 0 st.sLastOrphan st.sOrphan

/-- An inode that enters the list is not on the chain if its field says so,
and otherwise it is on the chain in front of the whole list. -/
def OrphanOp.Sound (st : OrphanState) : OrphanOp sb → Prop
  | .add env inode => sb.sJournal = true → inode.isBadInode = false → inode.iIno ∉ st.sOrphan →
      env.getWriteAccess = 0 → env.reserveInodeWrite = 0 →
      ∀ c, Path st.nextOrphan 0 st.sLastOrphan c →
        if st.offDisk sb inode.iIno then inode.iIno ∉ c
        else (inode.iIno :: st.sOrphan).Sublist c
  | .del .. => True

/-! ## Lists -/

variable {i : Nat}

variable {l1 l2 t : List Nat} {p : Nat} {r : OrphanState × Int}

theorem exists_split_of_cons_sublist {c : List Nat} (h : (i :: t).Sublist c) :
    ∃ s r, c = s ++ i :: r ∧ t.Sublist r := by
  obtain ⟨r1, r2, rfl, hi, ht⟩ := List.cons_sublist_iff.mp h
  obtain ⟨s, r, rfl⟩ := List.append_of_mem hi
  refine ⟨s, r ++ r2, ?_, ht.trans (List.sublist_append_right _ _)⟩
  rw [List.append_assoc, List.cons_append]

variable {l : List Nat}

theorem prevOrphan_eq_none (h : i ∉ l) : ∀ a, prevOrphan i (a :: l) = none := by
  induction l with
  | nil => exact fun _ => rfl
  | cons b l ih =>
    intro a
    rw [List.mem_cons, not_or] at h
    rw [prevOrphan, if_neg, ih h.2]
    rw [List.head?_cons, Option.some_inj]
    exact fun hb => h.1 hb.symm

theorem prevOrphan_spec (hi : i ∈ l) (hnd : l.Nodup) :
    (prevOrphan i l = none ∧ ∃ t, l = i :: t) ∨
      ∃ p l1 l2, prevOrphan i l = some p ∧ l = l1 ++ p :: i :: l2 := by
  induction l with
  | nil => exact absurd hi List.not_mem_nil
  | cons a l ih =>
    obtain ⟨ha, hnd⟩ := List.nodup_cons.mp hnd
    rw [prevOrphan]
    split
    · rename_i hhead
      obtain ⟨l2, rfl⟩ := List.head?_eq_some_iff.mp hhead
      exact .inr ⟨a, [], l2, rfl, rfl⟩
    · rename_i hhead
      rcases List.mem_cons.mp hi with rfl | hi
      · exact .inl ⟨(if_neg hhead).symm.trans (prevOrphan_eq_none ha i), l, rfl⟩
      · rcases ih hi hnd with ⟨-, t, rfl⟩ | ⟨p, l1, l2, hp, rfl⟩
        · exact absurd rfl hhead
        · exact .inr ⟨p, a :: l1, l2, hp, rfl⟩

theorem erase_of_place {i : Nat} (hnd : (l1 ++ p :: i :: l2).Nodup) :
    (l1 ++ p :: i :: l2).erase i = l1 ++ p :: l2 := by
  rw [List.append_cons] at hnd ⊢
  have hi : i ∉ l1 ++ [p] := fun h => List.disjoint_of_nodup_append hnd h List.mem_cons_self
  rw [List.erase_append_right _ hi, List.erase_cons_head, ← List.append_cons]

/-! ## Deletion -/

/-- The chain ends, has the list in memory, and not the inode. -/
def Without (st : OrphanState) (i : Nat) : Prop :=
  ∃ c, Path st.nextOrphan 0 st.sLastOrphan c ∧ st.sOrphan.Sublist c ∧ i ∉ c

theorem OnDisk.erase (h : OnDisk st) (i : Nat) :
    OnDisk { st with sOrphan := st.sOrphan.erase i } := by
  obtain ⟨c, hpath, hsub⟩ := h
  exact ⟨c, hpath, List.erase_sublist.trans hsub⟩

theorem Without.onDisk (h : Without st i) : OnDisk st := by
  obtain ⟨c, hpath, hsub, -⟩ := h
  exact ⟨c, hpath, hsub⟩

theorem Without.clear (h : Without st i) :
    OnDisk { st with nextOrphan := Function.update st.nextOrphan i 0 } := by
  obtain ⟨c, hpath, hsub, hi⟩ := h
  exact ⟨c, hpath.update hi, hsub⟩

section

variable (h : OnDisk st)
include h

/-- The superblock is set to what follows the first inode of the list. -/
theorem OnDisk.unlink_first (hl : st.sOrphan = i :: t) :
    Without { st with sOrphan := t, sLastOrphan := st.nextOrphan i } i := by
  obtain ⟨c, hpath, hsub⟩ := h
  rw [hl] at hsub
  obtain ⟨s, r, rfl, hr⟩ := exists_split_of_cons_sublist hsub
  have hdrop := hpath.drop
  exact ⟨r, hdrop.2.2, hr, (List.nodup_cons.mp hdrop.nodup).1⟩

/-- The inode in front of it in the list is set to what follows the inode
on disk. -/
theorem OnDisk.unlink_next {i : Nat} (hl : st.sOrphan = l1 ++ p :: i :: l2) :
    Without { st with
      sOrphan := l1 ++ p :: l2
      nextOrphan := Function.update st.nextOrphan p (st.nextOrphan i) } i := by
  obtain ⟨c, hpath, hsub⟩ := h
  rw [hl] at hsub
  obtain ⟨r1, r2, rfl, h1, h2⟩ := List.append_sublist_iff.mp hsub
  obtain ⟨s, r, rfl, h3⟩ := exists_split_of_cons_sublist h2
  obtain ⟨m, r', rfl, h4⟩ := exists_split_of_cons_sublist h3
  have hnd := hpath.nodup
  rw [← List.append_assoc] at hpath hnd
  refine ⟨(r1 ++ s) ++ p :: r', hpath.cut, ?_, fun hmem => ?_⟩
  · exact (h1.trans (List.sublist_append_left _ _)).append (h4.cons_cons p)
  · rw [← List.cons_append, ← List.append_assoc, List.nodup_middle, List.nodup_cons] at hnd
    refine hnd.1 ?_
    simp only [List.mem_append, List.mem_cons] at hmem ⊢
    tauto

theorem OnDisk.relink (env : DelEnv) (hi : i ∈ st.sOrphan) :
    let st' := { st with sOrphan := st.sOrphan.erase i }
    let r := relinkOrphan env (prevOrphan i st.sOrphan) (st.nextOrphan i) st'
    (r.1 = st' ∧ r.2 ≠ 0) ∨ Without r.1 i := by
  have hnd : st.sOrphan.Nodup := by
    obtain ⟨c, hpath, hsub⟩ := h
    exact hsub.nodup hpath.nodup
  dsimp only
  rcases prevOrphan_spec hi hnd with ⟨hprev, t, hl⟩ | ⟨p, l1, l2, hprev, hl⟩
  · rw [hprev, relinkOrphan]
    dsimp only
    split
    · rename_i herr
      exact .inl ⟨rfl, herr⟩
    · right
      rw [hl, List.erase_cons_head]
      exact h.unlink_first hl
  · rw [hprev, relinkOrphan]
    dsimp only
    split
    · rename_i herr
      exact .inl ⟨rfl, herr⟩
    · right
      rw [hl] at hnd ⊢
      rw [erase_of_place hnd]
      exact h.unlink_next hl

/-- **A deletion keeps the chain**, whatever fails. -/
theorem OnDisk.del (env : DelEnv) (handle : Bool) (inode : Inode sb) :
    OnDisk (ext4OrphanDel env handle inode st).1 := by
  unfold ext4OrphanDel
  split
  · exact h
  split
  · exact h
  rename_i hmem
  dsimp only
  split
  · exact h.erase _
  split
  · exact h.erase _
  rcases h.relink env (not_not.mp hmem) with ⟨hsame, herr⟩ | hout
  · rw [if_pos herr, hsame]
    exact h.erase _
  · split
    · exact hout.onDisk
    · exact hout.clear

/-! ## Insertion -/

/-- Writing the inode in front of the chain is right exactly if it is not
on the chain. -/
theorem OnDisk.push_iff (hi : i ≠ 0) (hl : l = st.sOrphan ∨ l = i :: st.sOrphan) :
    OnDisk { sOrphan := l, sLastOrphan := i,
             nextOrphan := Function.update st.nextOrphan i st.sLastOrphan } ↔
      ∀ c, Path st.nextOrphan 0 st.sLastOrphan c → i ∉ c := by
  obtain ⟨c, hpath, hsub⟩ := h
  constructor
  · rintro ⟨c', hpath', -⟩ c1 hc1 hmem
    exact hc1.not_push hmem hpath'
  · intro hni
    refine ⟨i :: c, hpath.push (hni c hpath) hi, ?_⟩
    rcases hl with rfl | rfl
    · exact hsub.cons i
    · exact hsub.cons_cons i

/-- **An insertion keeps the chain exactly if it is sound.** -/
theorem OnDisk.add_iff {env : AddEnv} {inode : Inode sb}
    (hr : ext4OrphanAdd env inode st = some r) :
    OnDisk r.1 ↔ (OrphanOp.add env inode).Sound st := by
  have hne : inode.iIno ≠ 0 := Nat.ne_of_gt inode.ino_pos
  unfold ext4OrphanAdd at hr
  split at hr
  · rename_i hoff
    cases hr
    refine iff_of_true h fun hj hb => ?_
    simp [hj, hb] at hoff
  rename_i hon
  simp only [Bool.or_eq_true, Bool.not_eq_true', not_or, Bool.not_eq_false,
    Bool.not_eq_true] at hon
  split at hr
  · rename_i hmem
    cases hr
    exact iff_of_true h fun _ _ hni => absurd hmem hni
  rename_i hmem
  split at hr
  · cases hr
  split at hr
  · rename_i herr
    cases hr
    exact iff_of_true h fun _ _ _ hz => absurd hz herr
  rename_i hacc
  split at hr
  · rename_i herr
    cases hr
    exact iff_of_true h fun _ _ _ _ hz => absurd hz herr
  rename_i hres
  -- from here on the condition is about the chain
  have hsound : (OrphanOp.add env inode).Sound st ↔ ∀ c, Path st.nextOrphan 0 st.sLastOrphan c →
      if st.offDisk sb inode.iIno then inode.iIno ∉ c
      else (inode.iIno :: st.sOrphan).Sublist c :=
    ⟨fun hs => hs hon.1 hon.2 hmem (not_not.mp hacc) (not_not.mp hres), fun hs _ _ _ _ _ => hs⟩
  rw [hsound]
  split at hr
  · rename_i hoff
    simp only [hoff, if_true]
    dsimp only at hr
    generalize (if env.dirtySuper ≠ 0 then env.dirtySuper else env.markIlocDirty) = err at hr
    split at hr
    · cases hr
      exact h.push_iff hne (.inl (List.erase_cons_head ..))
    · cases hr
      exact h.push_iff hne (.inr rfl)
  · rename_i hoff
    cases hr
    simp only [hoff, if_false]
    obtain ⟨c, hpath, -⟩ := h
    constructor
    · rintro ⟨c1, hc1, hsub⟩ c2 hc2
      rw [← hc1.unique hc2]
      exact hsub
    · exact fun hs => ⟨c, hpath, hs c hpath⟩

/-! ## Runs -/

theorem OnDisk.step_iff {op : OrphanOp sb} {st' : OrphanState}
    (hst' : orphanStep op st = some st') : OnDisk st' ↔ op.Sound st := by
  cases op with
  | add env inode =>
    obtain ⟨r, hr, rfl⟩ := Option.map_eq_some_iff.mp hst'
    exact h.add_iff hr
  | del env handle inode =>
    cases hst'
    exact iff_of_true (h.del env handle inode) trivial

end

theorem OnDisk.run_iff (ops : List (OrphanOp sb)) : ∀ st, OnDisk st →
    (Throughout OnDisk ops st ↔ EveryCall OrphanOp.Sound ops st) := by
  induction ops with
  | nil => exact fun st h => iff_of_true h trivial
  | cons op ops ih =>
    intro st h
    rw [Throughout, EveryCall, and_iff_right h]
    refine forall_congr' fun st' => forall_congr' fun hst' => ?_
    constructor
    · intro hall
      have h' : OnDisk st' := by
        cases ops with
        | nil => exact hall
        | cons op' ops' => exact hall.1
      exact ⟨(h.step_iff hst').mp h', (ih st' h').mp hall⟩
    · rintro ⟨hs, hall⟩
      exact (ih st' ((h.step_iff hst').mpr hs)).mpr hall

/-- In step, and the fields of the other inodes say so. -/
structure Exact (sb : OrphanSb) (st : OrphanState) : Prop where
  inStep : InStep st
  off : ∀ i, i ∉ st.sOrphan → st.offDisk sb i

theorem offDisk_update {i v j : Nat} (hj : j ≠ i) :
    ({ st with nextOrphan := Function.update st.nextOrphan i v } : OrphanState).offDisk sb j ↔
      st.offDisk sb j := by
  simp only [OrphanState.offDisk, Function.update_of_ne hj]

theorem Exact.add (h : Exact sb st) (inode : Inode sb)
    (hr : ext4OrphanAdd ⟨0, 0, 0, 0⟩ inode st = some r) : Exact sb r.1 := by
  unfold ext4OrphanAdd at hr
  split at hr
  · cases hr
    exact h
  split at hr
  · cases hr
    exact h
  rename_i hmem
  split at hr
  · cases hr
  rw [if_neg (by simp), if_neg (by simp), if_pos (h.off _ hmem)] at hr
  cases hr
  refine ⟨h.inStep.push hmem (Nat.ne_of_gt inode.ino_pos), fun j hj => ?_⟩
  rw [List.mem_cons, not_or] at hj
  exact (offDisk_update hj.1).mpr (h.off j hj.2)

theorem Exact.del (h : Exact sb st) (inode : Inode sb) :
    Exact sb (ext4OrphanDel ⟨0, 0, 0, 0, 0, 0⟩ true inode st).1 := by
  unfold ext4OrphanDel
  split
  · exact h
  split
  · exact h
  rename_i hmem
  rw [if_neg (by simp), if_neg (by simp)]
  have hi : inode.iIno ∈ st.sOrphan := not_not.mp hmem
  have hnd := h.inStep.nodup
  dsimp only
  -- the links first, then the field of the inode
  obtain ⟨r, hr, hzero, hpath, hother⟩ : ∃ r,
      relinkOrphan ⟨0, 0, 0, 0, 0, 0⟩ (prevOrphan inode.iIno st.sOrphan)
        (st.nextOrphan inode.iIno) { st with sOrphan := st.sOrphan.erase inode.iIno } = r ∧
      r.2 = 0 ∧ (InStep r.1 ∧ r.1.sOrphan = st.sOrphan.erase inode.iIno) ∧
      ∀ j, j ∉ st.sOrphan → r.1.nextOrphan j = st.nextOrphan j := by
    rcases prevOrphan_spec hi hnd with ⟨hprev, t, hl⟩ | ⟨p, l1, l2, hprev, hl⟩
    · rw [hprev, relinkOrphan]
      refine ⟨_, rfl, rfl, ⟨?_, rfl⟩, fun _ _ => rfl⟩
      have hstep := h.inStep
      rw [InStep, hl] at hstep
      simp only [ne_eq, not_true_eq_false, if_false, InStep, hl, List.erase_cons_head]
      exact hstep.2.2
    · rw [hprev, relinkOrphan]
      refine ⟨_, rfl, rfl, ⟨?_, rfl⟩, fun j hj => Function.update_of_ne ?_ _ _⟩
      · have hstep : Path st.nextOrphan 0 st.sLastOrphan (l1 ++ p :: ([] ++ inode.iIno :: l2)) := by
          rw [List.nil_append, ← hl]
          exact h.inStep
        rw [hl] at hnd
        simp only [ne_eq, not_true_eq_false, if_false, InStep, hl, erase_of_place hnd]
        exact hstep.cut
      · rintro rfl
        exact hj (by simp [hl])
  rw [hr, if_neg (not_not.mpr hzero)]
  have hout : inode.iIno ∉ r.1.sOrphan := by
    rw [hpath.2]
    exact hnd.not_mem_erase
  refine ⟨hpath.1.update hout, fun j hj => ?_⟩
  by_cases hji : j = inode.iIno
  · rw [hji]
    exact .inl (Function.update_self ..)
  · have hj' : j ∉ st.sOrphan := fun hc => hj (by
      rw [hpath.2]
      exact (List.mem_erase_of_ne hji).mpr hc)
    refine (offDisk_update hji).mpr ?_
    unfold OrphanState.offDisk
    rw [hother j hj']
    exact h.off j hj'

theorem Exact.run (ops : List (OrphanOp sb)) (hclean : ∀ op ∈ ops, op.Clean) : ∀ st, Exact sb st →
    ∀ st', orphanRun ops st = some st' → Exact sb st' := by
  induction ops with
  | nil =>
    intro st h st' hst'
    cases hst'
    exact h
  | cons op ops ih =>
    intro st h st' hst'
    obtain ⟨st1, hstep, hrest⟩ := Option.bind_eq_some_iff.mp hst'
    refine ih (fun op' hop' => hclean op' (List.mem_cons_of_mem _ hop')) st1 ?_ st' hrest
    have hop := hclean op (List.mem_cons_self ..)
    cases op with
    | add env inode =>
      obtain ⟨r, hr, rfl⟩ := Option.map_eq_some_iff.mp hstep
      rw [show env = _ from hop] at hr
      exact h.add inode hr
    | del env handle inode =>
      obtain ⟨rfl, rfl⟩ := hop
      cases hstep
      exact h.del inode

theorem NoOrphans.exact (h : NoOrphans sb st) : Exact sb st := by
  refine ⟨?_, fun i _ => h.times i⟩
  rw [InStep, h.memory, h.chain]
  exact rfl

/-- **The chain on disk.** From a filesystem without orphans, the chain
ends and leads to the inodes of the list in their order throughout a run
exactly if every insertion is sound; and it is the list itself if no
journal call fails and every deletion has a handle. -/
theorem run_keeps_orphan_chain (sb : OrphanSb) (st : OrphanState) (hst : NoOrphans sb st)
    (ops : List (OrphanOp sb)) :
    (Throughout OnDisk ops st ↔ EveryCall OrphanOp.Sound ops st) ∧
      ((∀ op ∈ ops, op.Clean) → ∀ st', orphanRun ops st = some st' → InStep st') := by
  refine ⟨OnDisk.run_iff ops st ⟨[], hst.chain, ?_⟩, fun hclean st' hst' => ?_⟩
  · rw [hst.memory]
  · exact (Exact.run ops hclean st hst.exact st' hst').inStep

/-- A journalled filesystem with 100 inodes. -/
def OrphanSb.small : OrphanSb := ⟨true, false, 100⟩

def OrphanState.fresh : OrphanState := ⟨[], 0, fun _ => 0⟩

theorem noOrphans_fresh : NoOrphans .small .fresh := ⟨rfl, rfl, fun _ => .inl rfl⟩

/-- A regular file with one link. -/
def Inode.file (n : Nat) (h : 0 < n ∧ n ≤ OrphanSb.small.sInodesCount) : Inode .small :=
  ⟨n, false, .reg, 1, h.1, h.2⟩

/-- Two inodes are added, the first one is deleted. -/
theorem run_keeps_orphan_chain_small :
    let ops : List (OrphanOp .small) :=
      [.add ⟨0, 0, 0, 0⟩ (.file 12 (by decide)), .add ⟨0, 0, 0, 0⟩ (.file 13 (by decide)),
        .del ⟨0, 0, 0, 0, 0, 0⟩ true (.file 12 (by decide))]
    Throughout OnDisk ops .fresh ∧
      ∃ st', orphanRun ops .fresh = some st' ∧ st'.sOrphan = [13] ∧ InStep st' := by
  intro ops
  have h := run_keeps_orphan_chain .small .fresh noOrphans_fresh ops
  refine ⟨h.1.mpr ?_, _, rfl, rfl, h.2 ?_ _ rfl⟩
  · intro st hst
    cases hst
    refine ⟨fun _ _ _ _ _ c hc => ?_, fun st hst => ?_⟩
    · rw [← Path.unique (show Path _ 0 0 [] from rfl) hc, if_pos (.inl rfl)]
      exact List.not_mem_nil
    · cases hst
      refine ⟨fun _ _ _ _ _ c hc => ?_, fun st hst => ⟨trivial, trivial⟩⟩
      have hchain : Path (Function.update (fun _ => 0) 12 0) 0 12 [12] := ⟨rfl, by decide, rfl⟩
      rw [← hchain.unique hc, if_pos (.inl rfl)]
      exact List.not_mem_cons_of_ne_of_not_mem (by decide) List.not_mem_nil
  · intro op hop
    simp only [ops, List.mem_cons, List.not_mem_nil, or_false] at hop
    rcases hop with rfl | rfl | rfl
    · rfl
    · rfl
    · exact ⟨rfl, rfl⟩

/-- An inode leaves the list without a handle while it is the last one of
the chain. Its field is zero, so the next insertion puts it in front of the
chain again: it points to itself. -/
theorem orphan_points_to_itself : ∃ st',
    orphanRun ([.add ⟨0, 0, 0, 0⟩ (.file 12 (by decide)),
      .del ⟨0, 0, 0, 0, 0, 0⟩ false (.file 12 (by decide)),
      .add ⟨0, 0, 0, 0⟩ (.file 12 (by decide))] : List (OrphanOp .small)) .fresh = some st' ∧
    st'.sOrphan = [12] ∧ st'.sLastOrphan = 12 ∧ st'.nextOrphan 12 = 12 ∧ ¬ OnDisk st' := by
  refine ⟨_, rfl, rfl, rfl, rfl, ?_⟩
  rintro ⟨c, hc, -⟩
  -- the chain it is pushed on is the inode itself
  have hchain : Path (Function.update (fun _ => 0) 12 0) 0 12 [12] := ⟨rfl, by decide, rfl⟩
  exact hchain.not_push (List.mem_singleton_self 12) hc

/-! ## Recovery -/

section Recovery

variable {firstIno : Nat} (hfirst : 0 < firstIno) (disk : Nat → OrphanInfo)

/-- The inode can be cleaned up. -/
structure Recoverable (sb : OrphanSb) (firstIno : Nat) (disk : Nat → OrphanInfo) (ino : Nat) :
    Prop where
  first : firstIno ≤ ino
  le : ino ≤ sb.sInodesCount
  bit : (disk ino).bit = true
  iget : (disk ino).igetOk = true
  truncate : (disk ino).iNlink ≠ 0 → (disk ino).canTruncate = true
  good : (disk ino).isBadInode = false

/-- The clean-up of an inode succeeds. -/
def CleanupStep.Clean (s : CleanupStep) : Prop :=
  s.errorFs = false ∧ s.env = ⟨0, 0, 0, 0, 0, 0⟩ ∧ s.handle = true

variable {disk}

theorem Recoverable.get {ino : Nat} (h : Recoverable sb firstIno disk ino)
    (hnext : st.nextOrphan ino ≤ sb.sInodesCount) :
    ∃ inode, ext4OrphanGet sb hfirst disk st ino = some inode ∧ inode.iIno = ino := by
  unfold ext4OrphanGet
  rw [dif_pos ⟨h.first, h.le⟩]
  dsimp only
  rw [if_neg (by simp [h.bit, h.iget]), if_neg, if_neg (Nat.not_lt.mpr hnext)]
  · exact ⟨_, rfl, rfl⟩
  · rw [h.good, Bool.or_false, Bool.and_eq_true, decide_eq_true_iff, Bool.not_eq_true']
    rintro ⟨hlink, htrunc⟩
    exact Bool.noConfusion (htrunc.symm.trans (h.truncate hlink))

/-- The first inode of the chain is put on the empty list and deleted. -/
theorem del_first (hon : sb.sJournal = true ∨ sb.orphanFs = true) (inode : Inode sb)
    (hl : st.sOrphan = []) :
    (ext4OrphanDel ⟨0, 0, 0, 0, 0, 0⟩ true inode
      { st with sOrphan := inode.iIno :: st.sOrphan }).1
      = ⟨[], st.nextOrphan inode.iIno, Function.update st.nextOrphan inode.iIno 0⟩ := by
  rcases hon with h | h <;> simp [ext4OrphanDel, prevOrphan, relinkOrphan, hl, h]

/-- **Recovery visits the chain.** -/
theorem ext4OrphanCleanup_spec (hon : sb.sJournal = true ∨ sb.orphanFs = true) (c : List Nat) :
    ∀ (steps : List CleanupStep) (st : OrphanState), (∀ s ∈ steps, s.Clean) →
      c.length < steps.length → st.sOrphan = [] → Path st.nextOrphan 0 st.sLastOrphan c →
      (∀ i ∈ c, Recoverable sb firstIno disk i) →
      ∃ st', ext4OrphanCleanup sb hfirst disk steps st = some (c, st') ∧ st'.sOrphan = [] ∧
        st'.sLastOrphan = 0 := by
  induction c with
  | nil =>
    intro steps st _ hlen hl hpath _
    obtain ⟨s, steps, rfl⟩ := List.exists_cons_of_length_pos hlen
    exact ⟨st, by rw [ext4OrphanCleanup, if_pos (by exact hpath)], hl, hpath⟩
  | cons i c ih =>
    intro steps st hclean hlen hl hpath hrec
    obtain ⟨s, steps, rfl⟩ :=
      List.exists_cons_of_length_pos (Nat.lt_of_le_of_lt (Nat.zero_le _) hlen)
    obtain ⟨herr, henv, hhandle⟩ := hclean s (List.mem_cons_self ..)
    have hnd := hpath.nodup
    obtain ⟨rfl, hi, htail⟩ := hpath
    -- the field of an inode of the chain is the number of the next one
    have hnext : st.nextOrphan st.sLastOrphan ≤ sb.sInodesCount := by
      cases c with
      | nil => rw [show st.nextOrphan st.sLastOrphan = 0 from htail]; exact Nat.zero_le _
      | cons j c =>
        rw [htail.1]
        exact (hrec j (by simp)).le
    obtain ⟨inode, hget, hino⟩ := (hrec _ (List.mem_cons_self ..)).get hfirst hnext
    rw [ext4OrphanCleanup, if_neg hi, herr, if_neg Bool.false_ne_true, hget]
    dsimp only
    rw [henv, hhandle, del_first hon inode hl, hino]
    have hni : st.sLastOrphan ∉ c := (List.nodup_cons.mp hnd).1
    generalize hst : (if inode.iNlink = 0 then _ else _ : OrphanState) = st1
    have hst1 : st1.sOrphan = [] ∧ Path st1.nextOrphan 0 st1.sLastOrphan c := by
      rw [← hst]
      split
      · exact ⟨rfl, (htail.update hni).update hni⟩
      · exact ⟨rfl, htail.update hni⟩
    obtain ⟨st', heq, h1, h2⟩ := ih steps st1 (fun s hs => hclean s (List.mem_cons_of_mem _ hs))
      (Nat.lt_of_succ_lt_succ hlen) hst1.1 hst1.2 fun j hj => hrec j (List.mem_cons_of_mem _ hj)
    exact ⟨st', by rw [heq]; rfl, h1, h2⟩

/-- After a crash the list in memory is gone; recovery finds its inodes in
the chain, in their order. -/
theorem OnDisk.recovered (h : OnDisk st) (hon : sb.sJournal = true ∨ sb.orphanFs = true)
    (hrec : ∀ c, Path st.nextOrphan 0 st.sLastOrphan c →
      ∀ i ∈ c, Recoverable sb firstIno disk i) :
    ∃ c, st.sOrphan.Sublist c ∧ ∀ steps : List CleanupStep, (∀ s ∈ steps, s.Clean) →
      c.length < steps.length → ∃ st',
        ext4OrphanCleanup sb hfirst disk steps { st with sOrphan := [] } = some (c, st') ∧
        st'.sLastOrphan = 0 := by
  obtain ⟨c, hpath, hsub⟩ := h
  refine ⟨c, hsub, fun steps hclean hlen => ?_⟩
  obtain ⟨st', heq, -, hlast⟩ := ext4OrphanCleanup_spec hfirst hon c steps
    { st with sOrphan := [] } hclean hlen rfl hpath (hrec c hpath)
  exact ⟨st', heq, hlast⟩

end Recovery

end Ext4.Namei
