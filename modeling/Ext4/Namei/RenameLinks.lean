import Ext4.Namei.LinkSteps

/-!
# Link counts — rename

A rename is one change of the entries, whether it replaces an inode or not
and whether it leaves a whiteout or not, and so is an exchange. The counts of
both directories follow.
-/

namespace Ext4.Namei

variable {Name : Type} [DecidableEq Name] {sb : NsSb} {st : NsState Name}

/-! ## Exchange -/

theorem countP_exchange {l : List (Dirent Name)} {d1 d2 i1 i2 : Nat} {n1 n2 : Name}
    (h₁ : findIn d1 n1 l = some i1) (h₂ : findIn d2 n2 l = some i2)
    (hne : ¬ (d2 = d1 ∧ n2 = n1)) (p : Dirent Name → Bool) :
    (setIn d1 n1 i2 (setIn d2 n2 i1 l)).countP p + (if p ⟨d1, n1, i1⟩ then 1 else 0)
        + (if p ⟨d2, n2, i2⟩ then 1 else 0)
      = l.countP p + (if p ⟨d2, n2, i1⟩ then 1 else 0) + (if p ⟨d1, n1, i2⟩ then 1 else 0) := by
  have h1 := countP_setIn h₂ p i1
  have h2 := countP_setIn (show findIn d1 n1 (setIn d2 n2 i1 l) = some i1 from
    (findIn_setIn hne).trans h₁) p i2
  omega

variable {nt : Bool} {e : Dirent Name} {K : Nat → Nat} {st2 st₁ : NsState Name}
  {r : NsState Name × Int}

section Parts

omit [DecidableEq Name]

variable {C M : Nat → Prop} {a : Nat → Option NsInode}

theorem EvolveAll.renameDirFinish (h : EvolveAll a st.inodes C M) {i : Nat} {isDir : Bool}
    (hM : isDir = true → M i) (dir : Nat) :
    EvolveAll a (renameDirFinish i isDir dir st).inodes C M := by
  unfold Ext4.Namei.renameDirFinish
  split
  · rename_i hd
    exact h.setDotdot (hM hd) dir
  · exact h

theorem dotdot_renameDirFinish (i dir : Nat) (st : NsState Name) :
    ∀ n, (renameDirFinish i true dir st).inodes i = some n → n.dotdot = dir := by
  intro n hn
  rw [show (renameDirFinish i true dir st).inodes i = (st.inodes i).map (NsInode.setDotdot dir) from
    Function.update_self ..] at hn
  obtain ⟨n0, -, rfl⟩ := Option.map_eq_some_iff.mp hn
  rfl

theorem Counted.renameDirFinish (h : Counted sb st.inodes K) (i : Nat) (isDir : Bool)
    (dir : Nat) : Counted sb (renameDirFinish i isDir dir st).inodes K := by
  unfold Ext4.Namei.renameDirFinish
  split
  · exact h.setDotdot i dir
  · exact h

theorem entries_renameDirFinish (i : Nat) (isDir : Bool) (dir : Nat) (st : NsState Name) :
    (renameDirFinish i isDir dir st).entries = st.entries := by
  unfold renameDirFinish
  split <;> rfl

theorem EvolveAll.updateDirCount (h : EvolveAll a st.inodes C M) (dir : Nat) (delta : Int) :
    EvolveAll a (ext4UpdateDirCount sb dir delta st).inodes C M := by
  unfold ext4UpdateDirCount
  split
  · exact h
  split
  · exact h.decCount dir
  · exact h.incCount sb dir

theorem entries_updateDirCount (dir : Nat) (delta : Int) (st : NsState Name) :
    (ext4UpdateDirCount sb dir delta st).entries = st.entries := by
  unfold ext4UpdateDirCount
  split
  · rfl
  split <;> rfl

theorem Counted.exchange {K' : Nat → Nat} (h : Counted sb st.inodes K) {oldDir newDir : Nat}
    (hold : LiveDir st oldDir) (hnew : LiveDir st newDir) {ot : Bool}
    (hK : ∀ i, K' i + (if ot ∧ i = oldDir then 1 else 0) + (if nt ∧ i = newDir then 1 else 0)
      = K i + (if ot ∧ i = newDir then 1 else 0) + (if nt ∧ i = oldDir then 1 else 0)) :
    Counted sb (ext4UpdateDirCount sb newDir (-exchangeDelta oldDir newDir ot nt)
      (ext4UpdateDirCount sb oldDir (exchangeDelta oldDir newDir ot nt) st)).inodes K' := by
  unfold exchangeDelta
  split
  · rename_i hne
    obtain ⟨hne, ht⟩ := hne
    cases ot with
    | true =>
      obtain rfl : nt = false := by simpa using ht.symm
      have hlive : LiveDir (st.modify oldDir NsInode.decCount) newDir :=
        ((EvolveAll.refl st.inodes Never Never).decCount oldDir).live hnew id
      refine ((h.dec oldDir).incDir hlive).congr fun i => ?_
      have := hK i
      simp only [true_and, Bool.false_eq_true, false_and, if_false] at this
      split_ifs at this ⊢ <;> omega
    | false =>
      obtain rfl : nt = true := by simpa using ht.symm
      refine ((h.incDir hold).dec newDir).congr fun i => ?_
      have := hK i
      simp only [true_and, Bool.false_eq_true, false_and, if_false] at this
      split_ifs at this ⊢ <;> omega
  · rename_i hsame
    refine Counted.congr h fun i => ?_
    have := hK i
    by_cases hne : oldDir = newDir
    · subst hne
      omega
    · obtain rfl : ot = nt := by
        by_contra ht
        exact hsame ⟨hne, ht⟩
      omega

end Parts

variable {oldName newName : Name}

section Exchange

variable (h : Consistent sb st) {oldDir old newDir new : Nat} (hold : LiveDir st oldDir)
  (hnew : LiveDir st newDir) (hne : old ≠ new)

include h hold hnew hne

theorem Consistent.exchange {ot : Bool} (ho : HasType st old ot) (hn : HasType st new nt)
    (hf1 : ext4FindEntry st oldDir oldName = some old)
    (hf2 : ext4FindEntry st newDir newName = some new) :
    Consistent sb (ext4UpdateDirCount sb newDir (-exchangeDelta oldDir newDir ot nt)
      (ext4UpdateDirCount sb oldDir (exchangeDelta oldDir newDir ot nt)
        (renameDirFinish new nt oldDir (renameDirFinish old ot newDir
          (ext4Setent oldDir oldName new (ext4Setent newDir newName old st)))))) := by
  have hkey : ¬ (newDir = oldDir ∧ newName = oldName) := by
    rintro ⟨rfl, rfl⟩
    exact hne (Option.some.inj (hf1.symm.trans hf2))
  have hcount := countP_exchange hf1 hf2 hkey
  generalize hst1 : ext4Setent oldDir oldName new (ext4Setent newDir newName old st) = st₁
  have hin1 : st₁.inodes = st.inodes := by rw [← hst1]; rfl
  have hent1 : st₁.entries = setIn oldDir oldName new (setIn newDir newName old st.entries) := by
    rw [← hst1]; rfl
  have hmem1 : ⟨newDir, newName, old⟩ ∈ st₁.entries := by
    rw [hent1]
    exact mem_setIn_of_mem (mem_setIn_self hf2) hkey
  have hmem2 : ⟨oldDir, oldName, new⟩ ∈ st₁.entries := by
    rw [hent1]
    exact mem_setIn_self ((findIn_setIn hkey).trans hf1)
  -- the directories among the two are moved
  let M : Nat → Prop := fun i => i = old ∧ ot = true ∨ i = new ∧ nt = true
  have hev1 : EvolveAll st.inodes st₁.inodes Never M := by
    rw [hin1]
    exact .refl _ _ _
  have hev2 := hev1.renameDirFinish (fun ht => .inl ⟨rfl, ht⟩ : ot = true → M old) newDir
  have hev3 := hev2.renameDirFinish (fun ht => .inr ⟨rfl, ht⟩ : nt = true → M new) oldDir
  have hcount1 : Counted sb st₁.inodes (linkCount st) := hin1.symm ▸ h.counted
  have hcount3 := (hcount1.renameDirFinish old ot newDir).renameDirFinish new nt oldDir
  have hent3 : (renameDirFinish new nt oldDir (renameDirFinish old ot newDir st₁)).entries
      = st₁.entries := by
    rw [entries_renameDirFinish, entries_renameDirFinish]
  have hdot1 : ot = true → ∀ n,
      (renameDirFinish new nt oldDir (renameDirFinish old ot newDir st₁)).inodes old = some n →
        n.dotdot = newDir := by
    rintro rfl
    have hrefl := EvolveAll.refl (renameDirFinish old true newDir st₁).inodes Never (· = new)
    have hev := hrefl.renameDirFinish (fun _ => rfl : nt = true → new = new) oldDir
    exact hev.dotdot hne (dotdot_renameDirFinish old newDir st₁)
  have hdot2 : nt = true → ∀ n,
      (renameDirFinish new nt oldDir (renameDirFinish old ot newDir st₁)).inodes new = some n →
        n.dotdot = oldDir := by
    rintro rfl
    exact dotdot_renameDirFinish new oldDir _
  generalize renameDirFinish new nt oldDir (renameDirFinish old ot newDir st₁) = st3
    at hev3 hcount3 hent3 hdot1 hdot2
  have hlive : ∀ d, LiveDir st d → LiveDir st3 d := fun d hd => hev3.live hd id
  generalize hδ : exchangeDelta oldDir newDir ot nt = δ
  have hev : EvolveAll st.inodes (ext4UpdateDirCount sb newDir (-δ)
      (ext4UpdateDirCount sb oldDir δ st3)).inodes Never M :=
    (hev3.updateDirCount oldDir δ).updateDirCount newDir (-δ)
  have hrest : EvolveAll st3.inodes (ext4UpdateDirCount sb newDir (-δ)
      (ext4UpdateDirCount sb oldDir δ st3)).inodes Never Never :=
    ((EvolveAll.refl _ _ _).updateDirCount oldDir δ).updateDirCount newDir (-δ)
  have hent : (ext4UpdateDirCount sb newDir (-δ) (ext4UpdateDirCount sb oldDir δ st3)).entries
      = st₁.entries := by
    rw [entries_updateDirCount, entries_updateDirCount, hent3]
  refine Shape.consistent (h.toShape.move hev (fun e he => ?_) ?_ (fun i _ => ?_)
    (fun _ hc => hc.elim)) ?_
  · rw [hent, hent1] at he
    rcases mem_setIn he with rfl | he
    · exact .inr ⟨hn.inUse, hold, fun hd => .inr ⟨rfl, hn.isDir.symm.trans hd⟩⟩
    rcases mem_setIn he with rfl | he
    · exact .inr ⟨ho.inUse, hnew, fun hd => .inl ⟨rfl, ho.isDir.symm.trans hd⟩⟩
    · exact .inl he
  · rintro i (⟨rfl, ht⟩ | ⟨rfl, ht⟩)
    · exact ⟨_, hent ▸ hmem1, rfl, hrest.dotdot id (hdot1 ht)⟩
    · exact ⟨_, hent ▸ hmem2, rfl, hrest.dotdot id (hdot2 ht)⟩
  · have hsum := hcount fun e => e.inode = i
    simp only [decide_eq_true_eq] at hsum
    rw [refs, refs, hent, hent1]
    omega
  · subst hδ
    refine hcount3.exchange (hlive _ hold) (hlive _ hnew) fun i => ?_
    rw [linkCount_of_evolve hev, hent, hent1, linkCount]
    have := hcount fun e => st.counted e = i
    simp only [decide_eq_true_eq, ho.counted, hn.counted] at this
    cases ot <;> cases nt <;>
      simp only [if_true, if_false, Bool.false_eq_true, true_and, false_and, @eq_comm _ old i,
        @eq_comm _ new i, @eq_comm _ oldDir i, @eq_comm _ newDir i] at this ⊢ <;> omega

theorem Consistent.crossRename {early : Int}
    (hr : ext4CrossRename sb early oldDir oldName old newDir newName new st = some r) :
    Consistent sb r.1 := by
  obtain ⟨o, ho, hr⟩ := Option.bind_eq_some_iff.mp hr
  obtain ⟨n, hn, hr⟩ := Option.bind_eq_some_iff.mp hr
  obtain ⟨od, -, hr⟩ := Option.bind_eq_some_iff.mp hr
  obtain ⟨nd, -, rfl⟩ := Option.map_eq_some_iff.mp hr
  split
  · exact h
  split
  · exact h
  split
  · exact h
  rename_i hf1 hf2
  split
  · exact h
  split
  · exact h
  dsimp only
  split
  · exact h
  · exact h.exchange hold hnew hne ⟨o, ho, rfl⟩ ⟨n, hn, rfl⟩ (not_not.mp hf1) (not_not.mp hf2)

end Exchange

/-! ## Rename -/

section Renamed

variable (oldDir : Nat) (oldName : Name) (old newDir : Nat) (newName : Name)
  (new whiteout : Option Nat)

/-- The entries with the whiteout in the place of the old name. -/
def whitedOut (l : List (Dirent Name)) : List (Dirent Name) :=
  match whiteout with
  | none => l
  | some w => setIn oldDir oldName w l

/-- The entries with the new name. -/
def newlyNamed (l : List (Dirent Name)) : List (Dirent Name) :=
  match new with
  | none => ⟨newDir, newName, old⟩ :: l
  | some _ => setIn newDir newName old l

/-- The entries after a rename. -/
def renamed (l : List (Dirent Name)) : List (Dirent Name) :=
  let l₁ := newlyNamed old newDir newName new (whitedOut oldDir oldName whiteout l)
  if whiteout = none then removeIn oldDir oldName l₁ else l₁

variable {oldDir oldName old newDir newName new whiteout} {l : List (Dirent Name)}

theorem findIn_cons_ne {dir : Nat} {name : Name}
    (hne : ¬ (e.dir = dir ∧ e.name = name)) : findIn dir name (e :: l) = findIn dir name l := by
  rw [findIn, if_neg hne]

theorem countP_renamed (whiteout : Option Nat) (hf1 : findIn oldDir oldName l = some old)
    (hf2 : findIn newDir newName l = new) (hkey : ¬ (newDir = oldDir ∧ newName = oldName))
    (p : Dirent Name → Bool) :
    (renamed oldDir oldName old newDir newName new whiteout l).countP p
        + (if p ⟨oldDir, oldName, old⟩ then 1 else 0)
        + new.elim 0 (fun j => if p ⟨newDir, newName, j⟩ then 1 else 0)
      = l.countP p + (if p ⟨newDir, newName, old⟩ then 1 else 0)
        + whiteout.elim 0 (fun w => if p ⟨oldDir, oldName, w⟩ then 1 else 0) := by
  have hkey' : ¬ (oldDir = newDir ∧ oldName = newName) := fun hc => hkey ⟨hc.1.symm, hc.2.symm⟩
  unfold renamed newlyNamed whitedOut
  cases whiteout with
  | none =>
    rw [if_pos rfl, Option.elim_none]
    cases new with
    | none =>
      have hold := countP_removeIn (l := ⟨newDir, newName, old⟩ :: l)
        ((findIn_cons_ne hkey).trans hf1) p
      rw [List.countP_cons] at hold
      rw [Option.elim_none]
      dsimp only
      omega
    | some j =>
      have hset := countP_setIn hf2 p old
      have hold := countP_removeIn (l := setIn newDir newName old l) ((findIn_setIn hkey).trans hf1)
        p
      rw [Option.elim_some]
      dsimp only
      omega
  | some w =>
    have hold := countP_setIn hf1 p w
    dsimp only
    rw [if_neg (Option.some_ne_none w), Option.elim_some]
    cases new with
    | none =>
      rw [Option.elim_none, List.countP_cons]
      omega
    | some j =>
      have hset := countP_setIn (l := setIn oldDir oldName w l) ((findIn_setIn hkey').trans hf2)
        p old
      rw [Option.elim_some]
      dsimp only
      omega

theorem mem_renamed (he : e ∈ renamed oldDir oldName old newDir newName new whiteout l) :
    e ∈ l ∨ e = ⟨newDir, newName, old⟩ ∨ ∃ w, whiteout = some w ∧ e = ⟨oldDir, oldName, w⟩ := by
  unfold renamed newlyNamed whitedOut at he
  cases whiteout with
  | none =>
    have he' := mem_of_mem_removeIn he
    cases new with
    | none =>
      rcases List.mem_cons.mp he' with rfl | he'
      · exact .inr (.inl rfl)
      · exact .inl he'
    | some j => exact (mem_setIn he').elim (fun h => .inr (.inl h)) .inl
  | some w =>
    have hold : ∀ a ∈ setIn oldDir oldName w l, a ∈ l ∨ ∃ w', some w = some w'
        ∧ a = ⟨oldDir, oldName, w'⟩ :=
      fun a ha => (mem_setIn ha).elim (fun h => .inr ⟨w, rfl, h⟩) .inl
    dsimp only at he
    rw [if_neg (Option.some_ne_none w)] at he
    cases new with
    | none =>
      rcases List.mem_cons.mp he with rfl | he
      · exact .inr (.inl rfl)
      · exact (hold e he).imp_right .inr
    | some j =>
      rcases mem_setIn he with rfl | he
      · exact .inr (.inl rfl)
      · exact (hold e he).imp_right .inr

theorem mem_renamed_self (hf2 : findIn newDir newName l = new)
    (hkey : ¬ (newDir = oldDir ∧ newName = oldName)) :
    ⟨newDir, newName, old⟩ ∈ renamed oldDir oldName old newDir newName new whiteout l := by
  have hkey' : ¬ (oldDir = newDir ∧ oldName = newName) := fun hc => hkey ⟨hc.1.symm, hc.2.symm⟩
  unfold renamed newlyNamed whitedOut
  cases whiteout with
  | none =>
    refine mem_removeIn_of_mem ?_ hkey
    cases new with
    | none => exact List.mem_cons_self
    | some j => exact mem_setIn_self hf2
  | some w =>
    dsimp only
    rw [if_neg (Option.some_ne_none w)]
    cases new with
    | none => exact List.mem_cons_self
    | some j => exact mem_setIn_self ((findIn_setIn hkey').trans hf2)

end Renamed

section Whiteout

omit [DecidableEq Name]

/-- The link a whiteout has. -/
def whiteoutLink (whiteout : Option Nat) (i : Nat) : Nat := if whiteout = some i then 1 else 0

/-- What there is after `makeWhiteout`. -/
structure WithWhiteout (sb : NsSb) (st : NsState Name) (whiteout : Option Nat)
    (st₁ : NsState Name) : Prop where
  shape : Shape sb st₁
  entries : st₁.entries = st.entries
  links : ∀ i, linkCount st₁ i = linkCount st i
  counted : Counted sb st₁.inodes (fun i => linkCount st i + whiteoutLink whiteout i)
  live : ∀ d, LiveDir st d → LiveDir st₁ d
  old : ∀ i t, HasType st i t → HasType st₁ i t ∧ whiteout ≠ some i
  new : ∀ w, whiteout = some w → HasType st₁ w false

variable {whiteout : Option Nat}

theorem Consistent.withWhiteout (h : Consistent sb st)
    (hfree : ∀ w, whiteout = some w → st.inodes w = none) :
    WithWhiteout sb st whiteout (makeWhiteout whiteout st) := by
  cases whiteout with
  | none =>
    exact ⟨h.toShape, rfl, fun _ => rfl, h.counted, fun _ hd => hd, fun i t ht => ⟨ht, nofun⟩,
      nofun⟩
  | some w =>
    have hw := hfree w rfl
    obtain ⟨hs, hlink, hz, -⟩ := h.fresh hw false
    refine ⟨hs, rfl, hlink, (h.counted.newFile hz).congr fun i => ?_,
      fun d hd => hd.newInode hw false, fun i t ht => ?_, fun w' hw' => ?_⟩
    · rw [whiteoutLink]
      simp only [Option.some.injEq, eq_comm]
    · obtain ⟨n, hn, htn⟩ := ht
      have hne : i ≠ w := by
        rintro rfl
        rw [hw] at hn
        cases hn
      exact ⟨⟨n, (Function.update_of_ne hne _ _).trans hn, htn⟩,
        fun hc => hne (Option.some.inj hc).symm⟩
    · cases hw'
      exact hasType_newInode st w false

theorem WithWhiteout.fails (h : WithWhiteout sb st whiteout st₁)
    (hev : EvolveAll st₁.inodes st2.inodes Never Never) (he : st2.entries = st₁.entries)
    (hcount : Counted sb st2.inodes (fun i => linkCount st i + whiteoutLink whiteout i))
    (err : Int) : Consistent sb (renameFails whiteout st2 err).1 := by
  cases whiteout with
  | none =>
    obtain ⟨hs, hlink⟩ := h.shape.same hev he
    refine hs.consistent (hcount.congr fun i => ?_)
    rw [hlink, h.links]
    rfl
  | some w =>
    have hfile := (h.new w rfl).evolve hev
    have hev' := hev.dropNlink hfile
    obtain ⟨hs, hlink⟩ := h.shape.same hev' he
    refine hs.consistent ((hcount.drop fun n hn => hfile.eq hn).congr fun i => ?_)
    rw [hlink, h.links, whiteoutLink]
    simp only [Option.some.injEq, @eq_comm _ w i, Nat.add_sub_cancel]

end Whiteout

section RenameCounts

omit [DecidableEq Name]

variable {oldDir old newDir : Nat} {ot : Bool} {new : Option Nat}

theorem EvolveAll.renameCounts {a : Nat → Option NsInode} {C M : Nat → Prop}
    (h : EvolveAll a st.inodes C M) (hC : ot = true → ∀ j, new = some j → C j)
    (hM : ot = true → M old) :
    EvolveAll a (renameCounts sb oldDir old ot newDir new st).inodes C M := by
  unfold Ext4.Namei.renameCounts
  cases new with
  | none =>
    have h1 := h.updateDxFlag sb oldDir
    cases ot with
    | false => exact h1
    | true =>
      exact (((h1.setDotdot (hM rfl) newDir).decCount oldDir).incCount sb newDir).updateDxFlag sb
        newDir
  | some j =>
    have h1 := (h.decCount j).updateDxFlag sb oldDir
    cases ot with
    | false => exact h1
    | true => exact ((h1.setDotdot (hM rfl) newDir).decCount oldDir).clear (hC rfl j rfl)

theorem entries_renameCounts :
    (renameCounts sb oldDir old ot newDir new st).entries = st.entries := by
  unfold renameCounts
  cases new <;> cases ot <;> rfl

theorem dotdot_renameCounts :
    ∀ n, (renameCounts sb oldDir old true newDir new st).inodes old = some n →
      n.dotdot = newDir := by
  unfold renameCounts
  dsimp only
  generalize NsState.modify _ oldDir (NsInode.updateDxFlag sb) = st₁
  have hset := dotdot_renameDirFinish old newDir st₁
  have hrest := (EvolveAll.refl (renameDirFinish old true newDir st₁).inodes (new = some ·)
    Never).decCount oldDir
  rw [if_pos rfl]
  cases new with
  | none => exact ((hrest.incCount sb newDir).updateDxFlag sb newDir).dotdot id hset
  | some j => exact (hrest.clear rfl).dotdot id hset

theorem Counted.renameCounts (h : Counted sb st.inodes K) (hnewDir : LiveDir st newDir)
    (hnew : ∀ j, new = some j → HasType st j ot) :
    Counted sb (renameCounts sb oldDir old ot newDir new st).inodes (fun i =>
      K i - new.elim 0 (fun j => if i = j then 1 else 0) - (if ot ∧ i = oldDir then 1 else 0)
        + if ot ∧ new = none ∧ i = newDir then 1 else 0) := by
  unfold Ext4.Namei.renameCounts
  cases new with
  | none =>
    have h1 := h.updateDxFlag oldDir
    cases ot with
    | false => exact Counted.congr h1 fun i => by simp
    | true =>
      have h2 := (h1.setDotdot old newDir).dec oldDir
      have hev := (((EvolveAll.refl st.inodes Never (· = old)).updateDxFlag sb oldDir).setDotdot rfl
        newDir).decCount oldDir
      refine Counted.congr ((h2.incDir (hev.live hnewDir id)).updateDxFlag newDir) fun i => ?_
      simp
  | some j =>
    have h1 := (h.dec j).updateDxFlag oldDir
    cases ot with
    | false => exact Counted.congr h1 fun i => by simp
    | true =>
      have h2 := (h1.setDotdot old newDir).dec oldDir
      have hev :=
        ((((EvolveAll.refl st.inodes Never (· = old)).decCount j).updateDxFlag sb oldDir).setDotdot
        rfl newDir).decCount oldDir
      refine Counted.congr (h2.clear fun n hn => ((hnew j rfl).evolve hev).eq hn) fun i => ?_
      simp

end RenameCounts

theorem WithWhiteout.succeeds {whiteout new : Option Nat} {oldDir old newDir : Nat} {ot : Bool}
    {st3 : NsState Name} (h : Consistent sb st) (hw : WithWhiteout sb st whiteout st₁)
    (hold : LiveDir st oldDir) (hnewDir : LiveDir st newDir) (ho : HasType st old ot)
    (hf1 : ext4FindEntry st oldDir oldName = some old) (hf2 : ext4FindEntry st newDir newName = new)
    (hj : ∀ j, new = some j → j ≠ old ∧ HasType st j ot ∧ (ot = true → ∀ e ∈ st.entries, e.dir ≠ j))
    (hev3 : EvolveAll st₁.inodes st3.inodes Never Never)
    (hcount3 : Counted sb st3.inodes (fun i => linkCount st i + whiteoutLink whiteout i))
    (he : st3.entries = renamed oldDir oldName old newDir newName new whiteout st.entries) :
    Consistent sb (renameCounts sb oldDir old ot newDir new st3) := by
  have hkey : ¬ (newDir = oldDir ∧ newName = oldName) := by
    rintro ⟨rfl, rfl⟩
    exact (hj old (hf2.symm.trans hf1)).1 rfl
  have hcount := countP_renamed whiteout hf1 hf2 hkey
  have hev : EvolveAll st₁.inodes (renameCounts sb oldDir old ot newDir new st3).inodes
      (fun i => ot = true ∧ new = some i) (fun i => ot = true ∧ i = old) :=
    (hev3.mono (fun _ hc => hc.elim) fun _ hc => hc.elim).renameCounts
      (fun ht j hj => ⟨ht, hj⟩) fun ht => ⟨ht, rfl⟩
  have hent : (renameCounts sb oldDir old ot newDir new st3).entries
      = renamed oldDir oldName old newDir newName new whiteout st.entries :=
    entries_renameCounts.trans he
  have ho1 := (hw.old old ot ho).1
  refine Shape.consistent (hw.shape.move hev (fun e hmem => ?_) ?_ (fun i hi => ?_) ?_)
    ((hcount3.renameCounts (hev3.live (hw.live _ hnewDir) id)
      fun j hnew => ((hw.old j ot (hj j hnew).2.1).1).evolve hev3).congr fun i => ?_)
  · rw [hent] at hmem
    rcases mem_renamed hmem with hmem | rfl | ⟨w, hwh, rfl⟩
    · exact .inl (hw.entries ▸ hmem)
    · exact .inr ⟨ho1.inUse, hw.live _ hnewDir, fun hd => ⟨ho1.isDir.symm.trans hd, rfl⟩⟩
    · have hfile := hw.new w hwh
      exact .inr ⟨hfile.inUse, hw.live _ hold,
        fun hd => Bool.noConfusion (hfile.isDir.symm.trans hd)⟩
  · rintro i ⟨rfl, rfl⟩
    exact ⟨_, hent ▸ mem_renamed_self hf2 hkey, rfl, dotdot_renameCounts⟩
  · have hle := hcount fun e => e.inode = i
    have hwh : whiteout.elim 0 (fun w => if w = i then 1 else 0) = 0 := by
      cases whiteout with
      | none => rfl
      | some w =>
        refine if_neg ?_
        rintro rfl
        exact Bool.noConfusion ((hw.new w rfl).isDir.symm.trans hi)
    simp only [decide_eq_true_eq] at hle
    rw [refs, hent, refs, hw.entries]
    omega
  · -- the directory that is replaced
    rintro j ⟨rfl, rfl⟩
    obtain ⟨hne, hjt, hempty⟩ := hj j rfl
    have hmem : ⟨newDir, newName, j⟩ ∈ st.entries := mem_of_findIn hf2
    have hone : 1 ≤ refs st j := List.countP_pos_iff.mpr ⟨_, hmem, decide_eq_true rfl⟩
    refine ⟨?_, ?_, fun e he => ?_⟩
    · rintro rfl
      have := h.root.2
      omega
    · obtain ⟨n, hn, ht⟩ := hjt
      have hle := (h.once j n hn ht).1
      have hsum := hcount fun e => e.inode = j
      have hwh : whiteout.elim 0 (fun w => if w = j then 1 else 0) = 0 := by
        cases whiteout with
        | none => rfl
        | some w => exact if_neg fun hc => (hw.old j true ⟨n, hn, ht⟩).2 (congrArg some hc)
      simp only [decide_eq_true_eq, Option.elim_some, if_true, if_neg hne.symm] at hsum
      rw [refs] at hle hone
      rw [refs, hent]
      omega
    · rw [hent] at he
      rcases mem_renamed he with he | rfl | ⟨w, -, rfl⟩
      · exact hempty rfl e he
      · exact hempty rfl ⟨newDir, newName, j⟩ hmem
      · have := hempty rfl _ (mem_of_findIn hf1)
        exact this
  · have hsum := hcount fun e => st₁.counted e = i
    have hlink : List.countP (fun e => decide (st₁.counted e = i)) st.entries = linkCount st i := by
      rw [← hw.links i, linkCount, hw.entries]
    have hwh : whiteout.elim 0 (fun w => if st₁.counted ⟨oldDir, oldName, w⟩ = i then 1 else 0)
        = whiteoutLink whiteout i := by
      cases whiteout with
      | none => rfl
      | some w =>
        rw [Option.elim_some, (hw.new w rfl).counted, if_neg Bool.false_ne_true, whiteoutLink]
        simp only [Option.some.injEq]
    simp only [decide_eq_true_eq] at hsum
    rw [linkCount_of_evolve hev, hent]
    rw [hlink, hwh, ho1.counted, ho1.counted] at hsum
    -- the old entry counted
    have hone : (if i = (if ot = true then oldDir else old) then 1 else 0) ≤ linkCount st i := by
      by_cases hi : i = if ot = true then oldDir else old
      · rw [if_pos hi, linkCount]
        refine List.countP_pos_iff.mpr ⟨⟨oldDir, oldName, old⟩, mem_of_findIn hf1, ?_⟩
        rw [decide_eq_true_iff, ho.counted, hi]
      · rw [if_neg hi]
        exact Nat.zero_le _
    cases new with
    | none =>
      simp only [Option.elim_none, true_and] at hsum hone ⊢
      cases ot with
      | false =>
        simp only [Bool.false_eq_true, if_false, false_and, @eq_comm _ old i] at hsum hone ⊢
        omega
      | true =>
        simp only [if_true, true_and, @eq_comm _ oldDir i, @eq_comm _ newDir i] at hsum hone ⊢
        omega
    | some j =>
      obtain ⟨hne, hjt, hempty⟩ := hj j rfl
      have hjw : whiteoutLink whiteout j = 0 := if_neg (hw.old j ot hjt).2
      rw [Option.elim_some, ((hw.old j ot hjt).1).counted] at hsum
      cases ot with
      | false =>
        simp only [Bool.false_eq_true, if_false, false_and, Option.elim_some,
          @eq_comm _ j i] at hsum ⊢
        omega
      | true =>
        have hjz : linkCount st j = 0 := by
          rw [linkCount_dir hjt.isDir, subdirs, List.countP_eq_zero]
          intro e he
          simp [hempty rfl e he]
        have hjo : j ≠ oldDir := fun hc => hempty rfl _ (mem_of_findIn hf1) hc.symm
        have hjs : ∀ k, k = j → linkCount st k + whiteoutLink whiteout k = 0 := by
          rintro k rfl
          rw [hjz, hjw]
        have := hjs i
        simp only [if_true, true_and, Option.elim_some, reduceCtorEq, false_and, if_false,
          @eq_comm _ oldDir i, @eq_comm _ newDir i] at hsum hone ⊢
        split_ifs at hsum hone ⊢ <;> omega

omit [DecidableEq Name] in
theorem renameDirCheck_empty {oldDir newDir j : Nat} {o d : NsInode} {new : Option Nat}
    (h : renameDirCheck sb oldDir o newDir d new st = 0) (hd : o.isDir = true)
    (hnew : new = some j) : ∀ e ∈ st.entries, e.dir ≠ j := by
  subst hnew
  rw [renameDirCheck, hd, if_neg (by simp)] at h
  split at h
  · exact absurd h (by decide)
  · rename_i hempty
    exact ext4EmptyDir_iff.mp (by simpa using hempty)

/-- What `renameNewEntry` does to the inodes and to the entries. -/
theorem renameNewEntry_spec (env : RenameEnv) {newDir : Nat} (newName : Name) (old : Nat)
    (new : Option Nat) (hdir : LiveDir st₁ newDir) (hin : st2.inodes = st₁.inodes)
    (hcount : Counted sb st₁.inodes K) : let r := renameNewEntry sb env newDir newName old new st2
    EvolveAll st₁.inodes r.1.inodes Never Never ∧ Counted sb r.1.inodes K ∧
      (r.2 = 0 ∧ r.1.entries = newlyNamed old newDir newName new st2.entries ∨
      r.2 ≠ 0 ∧ new = none ∧ r.1.entries = st2.entries) := by
  have hrefl : EvolveAll st₁.inodes st2.inodes Never Never := hin ▸ .refl _ _ _
  have hcount2 : Counted sb st2.inodes K := hin ▸ hcount
  cases new with
  | none =>
    refine ⟨hrefl.addEntry sb env.add newDir newName old (hrefl.live hdir id),
      hcount2.addEntry sb env.add newDir newName old, ?_⟩
    rcases (ext4AddEntry_spec sb env.add newDir newName old st2).2 with hres | hres
    · exact .inl hres
    · exact .inr ⟨hres.1, rfl, hres.2⟩
  | some j => exact ⟨hrefl, hcount2, .inl ⟨rfl, rfl⟩⟩

theorem Consistent.rename (h : Consistent sb st) {env : RenameEnv} {oldDir old newDir : Nat}
    {new whiteout : Option Nat} (hold : LiveDir st oldDir) (hnewDir : LiveDir st newDir)
    (hf2 : ext4FindEntry st newDir newName = new)
    (hj : ∀ j, new = some j → j ≠ old ∧ ∀ t, HasType st old t → HasType st j t)
    (hfree : ∀ w, whiteout = some w → st.inodes w = none)
    (hfits : new = none → whiteout ≠ none → env.add.err = 0)
    (hr : ext4Rename sb env oldDir oldName old newDir newName new whiteout st = some r) :
    Consistent sb r.1 := by
  obtain ⟨o, ho, hr⟩ := Option.bind_eq_some_iff.mp hr
  obtain ⟨d, -, rfl⟩ := Option.map_eq_some_iff.mp hr
  have hot : HasType st old o.isDir := ⟨o, ho, rfl⟩
  split
  · exact h
  split
  · exact h
  rename_i hf1
  have hf1 : ext4FindEntry st oldDir oldName = some old := not_not.mp hf1
  have hfound : (if new.isSome then ext4FindEntry st newDir newName else none) = new := by
    rw [hf2]
    cases new <;> rfl
  have hkey : ¬ (oldDir = newDir ∧ oldName = newName) := by
    rintro ⟨rfl, rfl⟩
    exact (hj old (hf2.symm.trans hf1)).1 rfl
  dsimp only
  rw [hfound]
  have hw := h.withWhiteout hfree
  generalize hst1 : makeWhiteout whiteout st = st₁ at hw
  split
  · exact hw.fails (.refl _ _ _) rfl hw.counted _
  rename_i hcheck
  -- the old entry now names the whiteout
  generalize hst2 : setWhiteout oldDir oldName whiteout st₁ = st2
  have hin2 : st2.inodes = st₁.inodes := by
    rw [← hst2]
    cases whiteout <;> rfl
  have hent2 : st2.entries = whitedOut oldDir oldName whiteout st.entries := by
    rw [← hst2]
    cases whiteout with
    | none => exact hw.entries
    | some w =>
      show setIn oldDir oldName w st₁.entries = _
      rw [hw.entries]
      rfl
  have hfail : new = none → whiteout ≠ none →
      (renameNewEntry sb env newDir newName old new st2).2 = 0 := by
    rintro rfl hne
    refine ext4AddEntry_ok sb env.add newDir newName old ?_ (hfits rfl hne)
    rw [ext4FindEntry, hent2]
    cases whiteout with
    | none => exact absurd rfl hne
    | some w => exact (findIn_setIn hkey).trans hf2
  have hspec := renameNewEntry_spec env newName old new (hw.live _ hnewDir) hin2 hw.counted
  generalize renameNewEntry sb env newDir newName old new st2 = r at hspec hfail
  obtain ⟨hev, hcount, hres⟩ := hspec
  rcases hres with ⟨hok, he⟩ | ⟨herr, hnone, he⟩
  · rw [if_neg (not_not.mpr hok)]
    refine hw.succeeds h hold hnewDir hot hf1 hf2 (fun j hnew => ?_) ?_ ?_ ?_
    · obtain ⟨hne, htype⟩ := hj j hnew
      refine ⟨hne, htype _ hot, fun hd e hmem => ?_⟩
      exact renameDirCheck_empty (not_not.mp hcheck) hd hnew e (hw.entries ▸ hmem)
    · split
      · exact hev
      · exact hev
    · split
      · exact hcount
      · exact hcount
    · cases whiteout with
      | none =>
        rw [if_pos rfl]
        show removeIn oldDir oldName r.1.entries = _
        rw [he, hent2]
        rfl
      | some w =>
        rw [if_neg (by simp), he, hent2]
        rfl
  · rw [if_pos herr]
    cases whiteout with
    | none => exact hw.fails hev (he.trans (hent2.trans hw.entries.symm)) hcount _
    | some w => exact absurd (hfail hnone (by simp)) herr

end Ext4.Namei
