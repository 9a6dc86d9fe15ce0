import Ext4.Namei.LinkCounts

/-!
# Link counts — names made and removed

Making and removing one name, and the inode with it, keeps the links in
agreement with the entries.
-/

namespace Ext4.Namei

variable {Name : Type} [DecidableEq Name] {sb : NsSb} {st st' : NsState Name}

/-! ## `ext4_add_entry` -/

variable {early : Int} {K : Nat → Nat} {C M : Nat → Prop} {n : NsInode} {r : NsState Name × Int}

section AddEntry

variable (sb : NsSb) (env : AddEntryEnv) (dir : Nat) (name : Name) (ino : Nat)

theorem ext4AddEntry_spec (st : NsState Name) : let r := ext4AddEntry sb env dir name ino st
    (r.1.inodes = st.inodes ∨ r.1.inodes = (st.modify dir NsInode.setIndex).inodes) ∧
      (r.2 = 0 ∧ r.1.entries = ⟨dir, name, ino⟩ :: st.entries ∨
        r.2 ≠ 0 ∧ r.1.entries = st.entries) := by
  unfold ext4AddEntry
  dsimp only
  generalize hst1 : (if (env.index && sb.dirIndex) = true then st.modify dir NsInode.setIndex
    else st) = st1
  have hin : st1.inodes = st.inodes ∨ st1.inodes = (st.modify dir NsInode.setIndex).inodes := by
    rw [← hst1]
    split
    · exact .inr rfl
    · exact .inl rfl
  have hent : st1.entries = st.entries := by
    rw [← hst1]
    split <;> rfl
  split
  · exact ⟨hin, .inr ⟨show EEXIST ≠ 0 by decide, hent⟩⟩
  · split
    · rename_i herr
      exact ⟨hin, .inr ⟨herr, hent⟩⟩
    · exact ⟨hin, .inl ⟨rfl, congrArg (List.cons _) hent⟩⟩

theorem ext4AddEntry_ok {st : NsState Name} (hfind : ext4FindEntry st dir name = none)
    (herr : env.err = 0) : (ext4AddEntry sb env dir name ino st).2 = 0 := by
  unfold ext4AddEntry
  dsimp only
  generalize hst1 : (if (env.index && sb.dirIndex) = true then st.modify dir NsInode.setIndex
    else st) = st1
  have hent : ext4FindEntry st1 dir name = none := by
    rw [← hst1]
    split
    · exact hfind
    · exact hfind
  rw [hent, if_neg (by simp), if_neg (not_not.mpr herr)]

theorem EvolveAll.addEntry {a : Nat → Option NsInode} (h : EvolveAll a st.inodes C M)
    (hdir : LiveDir st dir) : EvolveAll a (ext4AddEntry sb env dir name ino st).1.inodes C M := by
  rcases (ext4AddEntry_spec sb env dir name ino st).1 with heq | heq
  · rw [heq]
    exact h
  · rw [heq]
    refine h.modify dir _ fun n hn => evolves_setIndex ?_
    rw [← isDir_eq hn]
    exact hdir.isDir

theorem Counted.addEntry (h : Counted sb st.inodes K) :
    Counted sb (ext4AddEntry sb env dir name ino st).1.inodes K := by
  rcases (ext4AddEntry_spec sb env dir name ino st).1 with heq | heq
  · rw [heq]
    exact h
  · rw [heq]
    exact h.setIndex dir

end AddEntry

/-! ## New files, links and unlinks -/

variable {ino : Nat}

omit [DecidableEq Name] in
theorem Consistent.tmpfile (h : Consistent sb st) (hfree : st.inodes ino = none) :
    Consistent sb (ext4Tmpfile ino st) := by
  obtain ⟨hs, hlink, hz, -⟩ := h.fresh hfree false
  have hfile := hasType_newInode st ino false
  have hev : EvolveAll (st.newInode ino false).inodes (ext4Tmpfile ino st).inodes Never Never :=
    (EvolveAll.refl _ _ _).dropNlink hfile
  obtain ⟨hs', hlink'⟩ := hs.same hev rfl
  refine hs'.consistent ((h.counted.newFile hz).drop (fun n hn => hfile.eq hn) |>.congr fun i => ?_)
  rw [hlink', hlink, Nat.add_sub_cancel]

variable {dir ino : Nat} {name : Name}

/-- An entry for a file whose new link was counted before. -/
theorem Shape.addEntry (h : Shape sb st) (env : AddEntryEnv) (name : Name)
    (hev : EvolveAll st.inodes st'.inodes Never Never) (he : st'.entries = st.entries)
    (hdir : LiveDir st dir) (hfile : HasType st ino false)
    (hcount : Counted sb st'.inodes (fun i => linkCount st i + if i = ino then 1 else 0)) :
    let r := ext4AddEntry sb env dir name ino st'
    (r.2 = 0 → Consistent sb r.1)
      ∧ (r.2 ≠ 0 → Consistent sb (r.1.modify ino NsInode.dropNlink)) := by
  obtain ⟨-, hres⟩ := ext4AddEntry_spec sb env dir name ino st'
  have hev' := hev.addEntry sb env dir name ino (hev.live hdir id)
  have hcount' := hcount.addEntry sb env dir name ino
  rw [he] at hres
  generalize ext4AddEntry sb env dir name ino st' = r at hev' hres hcount'
  refine ⟨fun hok => ?_, fun herr => ?_⟩
  · obtain ⟨hs', hlink'⟩ := h.addFile hev' (hres.resolve_right fun hc => hc.1 hok).2 hdir hfile
    exact hs'.consistent (hcount'.congr fun i => (hlink' i).symm)
  · have hfile' := hfile.evolve hev'
    obtain ⟨hs', hlink'⟩ := h.same (hev'.dropNlink hfile') (hres.resolve_left fun hc => herr hc.1).2
    refine hs'.consistent (hcount'.drop (fun n hn => hfile'.eq hn) |>.congr fun i => ?_)
    rw [hlink', Nat.add_sub_cancel]

theorem Consistent.create (h : Consistent sb st) {env : CreateEnv} (hdir : LiveDir st dir)
    (hfree : st.inodes ino = none) : Consistent sb (ext4Create sb env dir name ino st).1 := by
  unfold ext4Create
  split
  · exact h
  split
  · exact h
  dsimp only
  obtain ⟨hs, hlink, hz, -⟩ := h.fresh hfree false
  obtain ⟨hok, herr⟩ := hs.addEntry env.add name (.refl _ _ _) rfl
    (hdir.newInode hfree false) (hasType_newInode st ino false)
    ((h.counted.newFile hz).congr fun i => by rw [hlink])
  split
  · rename_i hne
    exact herr hne
  · rename_i hne
    exact hok (not_not.mp hne)

theorem Consistent.link (h : Consistent sb st) {env : LinkEnv} {ino dir : Nat}
    (hdir : LiveDir st dir) (hfile : HasType st ino false)
    (hr : ext4Link sb env ino dir name st = some r) : Consistent sb r.1 := by
  obtain ⟨n, hn, rfl⟩ := Option.map_eq_some_iff.mp hr
  split
  · exact h
  split
  · exact h
  dsimp only
  have hev1 : EvolveAll st.inodes (st.modify ino (NsInode.incCount sb)).inodes Never Never :=
    (EvolveAll.refl _ _ _).incCount sb ino
  have hcount : Counted sb (st.modify ino (NsInode.incCount sb)).inodes
      (fun i => linkCount st i + if i = ino then 1 else 0) := by
    refine h.counted.inc (fun n' hn' hd => ?_) fun n' hn' hf => ?_
    · exact Bool.noConfusion ((hfile.eq hn').symm.trans hd)
    · rw [NsInode.isDx, h.plain ino n' hn' hf, Bool.and_false]
  obtain ⟨hok, herr⟩ := h.toShape.addEntry env.add name hev1 rfl hdir hfile hcount
  split
  · rename_i hne
    exact herr hne
  · rename_i hne
    exact hok (not_not.mp hne)

/-! ## Entries that go -/

section

variable {dir x : Nat} (hfind : ext4FindEntry st dir name = some x)
  (he : st'.entries = removeIn dir name st.entries)

include hfind he

theorem refs_remove (i : Nat) : refs st' i + (if x = i then 1 else 0) = refs st i := by
  have := countP_removeIn hfind fun e => decide (e.inode = i)
  rw [refs, he, refs, ← this]
  simp only [decide_eq_true_eq]

theorem linkCount_remove (hev : EvolveAll st.inodes st'.inodes C M) (i : Nat) :
    linkCount st' i + (if i = st.counted ⟨dir, name, x⟩ then 1 else 0) = linkCount st i := by
  have := countP_removeIn hfind fun e => decide (st.counted e = i)
  rw [linkCount_of_evolve hev, he, linkCount, ← this]
  simp only [decide_eq_true_eq, eq_comm (a := i)]

/-- An entry of a file is removed, or one of a directory that lives on. -/
theorem Shape.remove (h : Shape sb st) (hev : EvolveAll st.inodes st'.inodes Never Never) :
    Shape sb st' := by
  have hsub : ∀ e ∈ st'.entries, e ∈ st.entries := fun e hmem => mem_of_mem_removeIn (he ▸ hmem)
  refine h.step hev (fun e hmem => .inl (hsub e hmem)) (fun i _ => .inl ?_) (fun _ hc => hc.elim)
    fun e hmem hnew => (hnew.elim id fun hc => hc (hsub e hmem)).elim
  rw [← refs_remove hfind he i]
  exact Nat.le_add_right _ _

end

omit [DecidableEq Name] in
theorem ext4EmptyDir_iff {i : Nat} : ext4EmptyDir st i = true ↔ ∀ e ∈ st.entries, e.dir ≠ i := by
  simp only [ext4EmptyDir, List.all_eq_true, decide_eq_true_eq]

theorem Consistent.unlink (h : Consistent sb st) (hfile : HasType st ino false) :
    Consistent sb (ext4Unlink sb early dir name ino st).1 := by
  unfold ext4Unlink
  split
  · exact h
  split
  · exact h
  rename_i i hfind
  split
  · exact h
  rename_i hi
  obtain rfl : i = ino := not_not.mp hi
  have hmem : ⟨dir, name, i⟩ ∈ st.entries := mem_of_findIn hfind
  have hcounted : st.counted ⟨dir, name, i⟩ = i := by
    rw [NsState.counted, hfile.isDir, if_neg Bool.false_ne_true]
  dsimp only
  -- an inode that is found has a link
  have hone : ∀ n, st.inodes i = some n → n.iNlink ≠ 0 := by
    intro n hn
    rw [h.files i n hn (hfile.eq hn)]
    refine Nat.pos_iff_ne_zero.mp (List.countP_pos_iff.mpr ⟨_, hmem, ?_⟩)
    exact decide_eq_true rfl
  have hev1 :
    EvolveAll st.inodes (st.modify i fun n => if n.iNlink = 0 then n.setNlink 1 else n).inodes
      Never Never := by
    refine (EvolveAll.refl _ _ _).modify i _ fun n hn => ?_
    rw [if_neg (hone n hn)]
    exact .refl _ _ n
  have hcount1 : Counted sb (st.modify i fun n => if n.iNlink = 0 then n.setNlink 1 else n).inodes
      (linkCount st) := by
    refine h.counted.modify i _ (fun _ _ => rfl) fun n hn => ?_
    rw [if_neg (hone n hn)]
    exact h.counted i n hn
  generalize hst1 : (st.modify i fun n => if n.iNlink = 0 then n.setNlink 1 else n) = st1
    at hev1 hcount1
  have hent : st1.entries = st.entries := by rw [← hst1]; rfl
  have hev2 : EvolveAll st.inodes (ext4DeleteEntry dir name st1).inodes Never Never := hev1
  have hev3 := hev2.updateDxFlag sb dir
  have hfile' := hfile.evolve hev3
  have hev := hev3.dropNlink hfile'
  have hcount2 : Counted sb (ext4DeleteEntry dir name st1).inodes (linkCount st) := hcount1
  have hent' : (((ext4DeleteEntry dir name st1).modify dir (NsInode.updateDxFlag sb)).modify i
      NsInode.dropNlink).entries = removeIn dir name st.entries := by
    rw [← hent]
    rfl
  refine (h.toShape.remove hfind hent' hev).consistent
    (((hcount2.updateDxFlag dir).drop fun n hn => hfile'.eq hn).congr fun k => ?_)
  rw [← linkCount_remove hfind hent' hev k, hcounted, Nat.add_sub_cancel]

theorem Consistent.rmdir (h : Consistent sb st) (hdir : HasType st ino true) :
    Consistent sb (ext4Rmdir sb early dir name ino st).1 := by
  unfold ext4Rmdir
  split
  · exact h
  split
  · exact h
  rename_i i hfind
  split
  · exact h
  rename_i hi
  obtain rfl : i = ino := not_not.mp hi
  split
  · exact h
  rename_i hempty
  have hmem : ⟨dir, name, i⟩ ∈ st.entries := mem_of_findIn hfind
  have hno : ∀ e ∈ st.entries, e.dir ≠ i := ext4EmptyDir_iff.mp (by simpa using hempty)
  have hcounted : st.counted ⟨dir, name, i⟩ = dir := by
    rw [NsState.counted, hdir.isDir, if_pos rfl]
  dsimp only
  have hev1 : EvolveAll st.inodes (ext4DeleteEntry dir name st).inodes (· = i) Never :=
    .refl _ _ _
  have hev := ((hev1.clear rfl).decCount dir).updateDxFlag sb dir
  have hcount1 : Counted sb (ext4DeleteEntry dir name st).inodes (linkCount st) := h.counted
  have hcount := ((hcount1.clear fun n hn => hdir.eq hn).dec dir).updateDxFlag dir
  have hrefs : ∀ k, refs (ext4DeleteEntry dir name st) k + (if i = k then 1 else 0) = refs st k :=
    refs_remove hfind rfl
  refine Shape.consistent (h.toShape.step hev (fun e he => .inl (mem_of_mem_removeIn he))
    (fun k _ => .inl ?_) ?_ fun e he hnew => ?_) (hcount.congr fun k => ?_)
  · have : refs (ext4DeleteEntry dir name st) k ≤ refs st k := by
      rw [← hrefs k]
      exact Nat.le_add_right _ _
    exact this
  · rintro k rfl
    obtain ⟨n, hn, ht⟩ := hdir
    have hone := (h.once k n hn ht).1
    have := hrefs k
    rw [if_pos rfl] at this
    refine ⟨?_, ?_, fun e he => hno e (mem_of_mem_removeIn he)⟩
    · rintro rfl
      have := h.root.2
      omega
    have hzero : refs (ext4DeleteEntry dir name st) k = 0 := by omega
    exact hzero
  · exact (hnew.elim id fun hc => hc (mem_of_mem_removeIn he)).elim
  · rw [← linkCount_remove hfind rfl hev k, hcounted, Nat.add_sub_cancel]

/-! ## New directories -/

section

omit [DecidableEq Name]

theorem Counted.newDir (h : Counted sb st.inodes K) (hz : K ino = 0) (hd : n.isDir = true)
    (hn : n.iNlink = 2 ∨ n.iNlink = 0)
    (hst : st'.inodes = Function.update st.inodes ino (some n)) : Counted sb st'.inodes K := by
  rw [hst]
  refine h.change ino (fun j hj => Function.update_of_ne hj _ _) (fun _ _ => rfl) fun n' hn' => ?_
  rw [Function.update_self] at hn'
  cases hn'
  refine ⟨fun _ hnz => .inl ?_, fun hf => Bool.noConfusion (hf.symm.trans hd)⟩
  rw [hz, hn.resolve_right hnz]

theorem newInode_modify (st : NsState Name) (ino : Nat) (t : Bool) (f : NsInode → NsInode) :
    ((st.newInode ino t).modify ino f).inodes
      = Function.update st.inodes ino (some (f ⟨t, 1, false, 0, false⟩)) := by
  show Function.update (Function.update st.inodes ino _) ino _ = _
  rw [Function.update_idem]
  congr 1
  rw [show (st.newInode ino t).inodes ino = _ from Function.update_self ..]
  rfl

theorem modify_modify (st : NsState Name) (i : Nat) (f g : NsInode → NsInode) :
    (st.modify i f).modify i g = st.modify i (g ∘ f) := by
  unfold NsState.modify
  dsimp only
  rw [Function.update_idem, Function.update_self, Option.map_map]

theorem Shape.giveUp (h : Shape sb st) (hroot : ino ≠ sb.root) (hname : refs st ino = 0)
    (hempty : ∀ e ∈ st.entries, e.dir ≠ ino)
    (hev : EvolveAll st.inodes st'.inodes (· = ino) (· = ino)) (he : st'.entries = st.entries) :
    Shape sb st' := by
  refine h.step hev (fun e hmem => .inl (he ▸ hmem)) (fun i _ => .inl ?_) ?_
    fun e hmem hnew => ?_
  · rw [refs, he]
    exact Nat.le_refl _
  · rintro i rfl
    rw [refs, he]
    exact ⟨hroot, hname, hempty⟩
  · rw [he] at hmem
    rcases hnew with hnew | hnew
    · exact absurd (decide_eq_true hnew) (List.countP_eq_zero.mp hname e hmem)
    · exact absurd hmem hnew

theorem Shape.addDir (h : Shape sb st) (hroot : ino ≠ sb.root) (hname : refs st ino = 0)
    (hdir : LiveDir st dir) (hino : HasType st ino true)
    (hev : EvolveAll st.inodes st'.inodes Never (· = ino))
    (he : st'.entries = ⟨dir, name, ino⟩ :: st.entries)
    (hset : ∀ n, st'.inodes ino = some n → n.iNlink ≠ 0 ∧ n.dotdot = dir) : Shape sb st' := by
  obtain ⟨n, hn, -⟩ := hino
  refine h.step hev (fun e hmem => ?_) (fun i _ => ?_) (fun _ hc => hc.elim)
    fun e hmem hnew _ n' hn' => ?_
  · rw [he] at hmem
    rcases List.mem_cons.mp hmem with rfl | hmem
    · exact .inr ⟨⟨n, hn⟩, hdir⟩
    · exact .inl hmem
  · rw [refs_cons st he]
    by_cases hi : ino = i
    · subst hi
      rw [hname, if_pos rfl]
      exact .inr ⟨Nat.le_refl _, hroot, fun n' hn' => (hset n' hn').1⟩
    · rw [if_neg hi]
      exact .inl (Nat.le_refl _)
  · rw [he] at hmem
    rcases List.mem_cons.mp hmem with rfl | hmem
    · exact (hset n' hn').2
    · rcases hnew with hnew | hnew
      · exact absurd (decide_eq_true hnew) (List.countP_eq_zero.mp hname e hmem)
      · exact absurd hmem hnew

end

theorem Consistent.mkdir (h : Consistent sb st) {env : MkdirEnv} (hdir : LiveDir st dir)
    (hfree : st.inodes ino = none)
    (hr : ext4Mkdir sb env dir name ino st = some r) : Consistent sb r.1 := by
  obtain ⟨d, hd, rfl⟩ := Option.map_eq_some_iff.mp hr
  split
  · exact h
  split
  · exact h
  split
  · exact h
  dsimp only
  obtain ⟨hs, hlink, hz, hrefs⟩ := h.fresh hfree true
  have hnew := hasType_newInode st ino true
  have hroot : ino ≠ sb.root := by
    rintro rfl
    obtain ⟨n, hn, -⟩ := h.root.1
    exact nomatch hfree.symm.trans hn
  have hempty : ∀ e ∈ (st.newInode ino true).entries, e.dir ≠ ino := by
    rintro e he rfl
    obtain ⟨n, hn, -⟩ := h.within e he
    exact nomatch hfree.symm.trans hn
  have hrefl := EvolveAll.refl (st.newInode ino true).inodes
  split
  · -- the blocks of the directory could not be had
    have hev := (hrefl (· = ino) (· = ino)).clear rfl
    refine (hs.giveUp hroot hrefs hempty hev rfl).consistent ?_
    refine Counted.congr (h.counted.newDir hz rfl (.inr rfl) (newInode_modify st ino true _))
      fun i => ?_
    rw [linkCount_of_evolve hev]
    exact (hlink i).symm
  · generalize hst2 : ((st.newInode ino true).modify ino (NsInode.setDotdot dir)).modify ino
      (NsInode.setNlink 2) = st2
    have hin2 : st2.inodes = Function.update st.inodes ino (some ⟨true, 2, false, dir, false⟩) := by
      rw [← hst2, modify_modify, newInode_modify]
      rfl
    have hent2 : st2.entries = st.entries := by
      rw [← hst2]
      rfl
    have hev2 : EvolveAll (st.newInode ino true).inodes st2.inodes Never (· = ino) := by
      rw [← hst2]
      refine ((hrefl Never (· = ino)).setDotdot rfl dir).modify ino _ fun n _ =>
        ⟨rfl, fun _ _ _ => Nat.succ_ne_zero 1, fun _ => rfl, fun _ h => h⟩
    have hcount2 : Counted sb st2.inodes (linkCount st) :=
      h.counted.newDir hz rfl (.inl rfl) hin2
    have hdir2 : LiveDir st2 dir := hev2.live (hdir.newInode hfree true) id
    have hev3 := hev2.addEntry sb env.add dir name ino hdir2
    have hset3 := (EvolveAll.refl st2.inodes Never Never).addEntry sb env.add dir name ino hdir2
    have hcount3 := hcount2.addEntry sb env.add dir name ino
    obtain ⟨-, hres⟩ := ext4AddEntry_spec sb env.add dir name ino st2
    generalize ext4AddEntry sb env.add dir name ino st2 = r at hev3 hset3 hcount3 hres
    rcases hres with ⟨hok, he⟩ | ⟨herr, he⟩
    · rw [if_neg (not_not.mpr hok)]
      have hlive := hev3.live (hdir.newInode hfree true) id
      have hev := (hev3.incCount sb dir).updateDxFlag sb dir
      have hset := (hset3.incCount sb dir).updateDxFlag sb dir
      refine (hs.addDir hroot hrefs (hdir.newInode hfree true) hnew hev
        (he.trans (by rw [hent2]; rfl))
        fun n hn => ?_).consistent (((hcount3.incDir hlive).updateDxFlag dir).congr fun i => ?_)
      · obtain ⟨n2, h1, hevn⟩ := hset.prev hn
        rw [hin2, Function.update_self] at h1
        cases h1
        exact ⟨hevn.live rfl (Nat.succ_ne_zero 1) id, hevn.dotdot id⟩
      · rw [linkCount_cons hev (he.trans (by rw [hent2]; rfl)), hlink, NsState.counted, hnew.isDir,
          if_pos rfl]
    · rw [if_pos herr]
      have hev : EvolveAll (st.newInode ino true).inodes
          (r.1.modify ino (NsInode.setNlink 0)).inodes (· = ino) (· = ino) :=
        (hev3.mono (fun _ hc => hc.elim) fun _ => id).clear rfl
      refine (hs.giveUp hroot hrefs hempty hev (he.trans hent2)).consistent
        ((hcount3.clear fun n hn => ?_).congr fun i => ?_)
      · exact (hnew.evolve hev3).eq hn
      · rw [linkCount_of_evolve hev, ← hlink i]
        show _ = List.countP _ r.1.entries
        rw [he, hent2]
        rfl

/-! ## Inodes that go -/

omit [DecidableEq Name] in
theorem Consistent.evict (h : Consistent sb st) (hn : st.inodes ino = some n) (hz : n.iNlink = 0) :
    Consistent sb { st with inodes := Function.update st.inodes ino none } := by
  have hrefs : refs st ino = 0 := by
    cases ht : n.isDir with
    | false => rw [← h.files ino n hn ht, hz]
    | true => exact (h.once ino n hn ht).2 hz
  have hname : ∀ e ∈ st.entries, e.inode ≠ ino := fun e he heq =>
    List.countP_eq_zero.mp hrefs e he (decide_eq_true heq)
  have hlive : ∀ d, LiveDir st d →
      LiveDir { st with inodes := Function.update st.inodes ino none } d := by
    rintro d ⟨n', hn', hd, hz'⟩
    refine ⟨n', (Function.update_of_ne ?_ _ _).trans hn', hd, hz'⟩
    rintro rfl
    cases hn.symm.trans hn'
    exact hz' hz
  have hold : ∀ i n', Function.update st.inodes ino none i = some n' → st.inodes i = some n' := by
    intro i n' hi
    by_cases heq : i = ino
    · rw [heq, Function.update_self] at hi
      cases hi
    · rwa [Function.update_of_ne heq] at hi
  refine ⟨⟨⟨hlive _ h.root.1, h.root.2⟩, fun e he => ?_, fun e he => hlive _ (h.within e he),
    fun i n' hn' => h.once i n' (hold i n' hn'), fun e he n' hn' => h.dotdot e he n'
      (hold _ n' hn'),
    fun i n' hn' => h.plain i n' (hold i n' hn')⟩, fun i n' hn' => h.files i n' (hold i n' hn'),
    fun i n' hn' hd hz' => ?_⟩
  · obtain ⟨n', hn'⟩ := h.named e he
    exact ⟨n', (Function.update_of_ne (hname e he) _ _).trans hn'⟩
  · have hsub : subdirs { st with inodes := Function.update st.inodes ino none } i
        = subdirs st i := by
      refine List.countP_congr fun e he => ?_
      rw [NsState.isDir, NsState.isDir]
      dsimp only
      rw [Function.update_of_ne (hname e he)]
    rw [hsub]
    exact h.dirs i n' (hold i n' hn') hd hz'

end Ext4.Namei
