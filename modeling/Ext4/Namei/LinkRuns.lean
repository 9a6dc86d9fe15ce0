import Ext4.Namei.RenameLinks

/-!
# Link counts — every run

Every operation keeps the links in agreement with the entries, and so does
every run, with one exception: a rename with a whiteout whose new name does
not fit.
-/

namespace Ext4.Namei

variable {Name : Type} [DecidableEq Name] {sb : NsSb} {st st' : NsState Name}

/-! ## Steps and runs -/

/-- **Every operation keeps the links in agreement with the entries.** -/
theorem Consistent.step (h : Consistent sb st) {op : NsOp Name} (hlegal : op.Legal st)
    (hfits : op.WhiteoutFits) (hstep : nsStep sb op st = some st') : Consistent sb st' := by
  cases op with
  | mkdir env dir name ino =>
    obtain ⟨r, hr, rfl⟩ := Option.map_eq_some_iff.mp hstep
    exact h.mkdir hlegal.1 hlegal.2 hr
  | create env dir name ino =>
    cases hstep
    exact h.create hlegal.1 hlegal.2
  | tmpfile ino =>
    cases hstep
    exact h.tmpfile hlegal
  | rmdir early dir name ino =>
    cases hstep
    exact h.rmdir hlegal.2
  | unlink early dir name ino =>
    cases hstep
    exact h.unlink hlegal.2
  | link env ino dir name =>
    obtain ⟨r, hr, rfl⟩ := Option.map_eq_some_iff.mp hstep
    exact h.link hlegal.1 hlegal.2 hr
  | rename env oldDir oldName old newDir newName new whiteout =>
    obtain ⟨r, hr, rfl⟩ := Option.map_eq_some_iff.mp hstep
    obtain ⟨hold, hnew, hfind, hj, hfree⟩ := hlegal
    exact h.rename hold hnew hfind hj hfree hfits hr
  | crossRename early oldDir oldName old newDir newName new =>
    obtain ⟨r, hr, rfl⟩ := Option.map_eq_some_iff.mp hstep
    exact h.crossRename hlegal.1 hlegal.2.1 hlegal.2.2 hr
  | evict ino =>
    cases hstep
    obtain ⟨n, hn, hz⟩ := hlegal
    exact h.evict hn hz

theorem Consistent.run (h : Consistent sb st) {ops : List (NsOp Name)}
    (hops : NsRunMeets sb (fun st op => op.Legal st ∧ op.WhiteoutFits) ops st)
    (hrun : nsRun sb ops st = some st') : Consistent sb st' := by
  induction ops generalizing st with
  | nil =>
    cases hrun
    exact h
  | cons op ops ih =>
    obtain ⟨st1, hstep, hrun⟩ := Option.bind_eq_some_iff.mp hrun
    exact ih (h.step hops.1.1 hops.1.2 hstep) (hops.2 st1 hstep) hrun

/-- A filesystem with an empty root directory. -/
def rootOnly (sb : NsSb) : NsState Name :=
  ⟨Function.update (fun _ => none) sb.root (some ⟨true, 2, false, sb.root, false⟩), []⟩

omit [DecidableEq Name] in
theorem consistent_rootOnly : Consistent sb (rootOnly sb : NsState Name) := by
  have hin : ∀ i n, (rootOnly sb : NsState Name).inodes i = some n →
      n = ⟨true, 2, false, sb.root, false⟩ := by
    intro i n hn
    rw [rootOnly] at hn
    dsimp only at hn
    rw [Function.update_apply] at hn
    split at hn
    · exact (Option.some.inj hn).symm
    · cases hn
  have hroot : (rootOnly sb : NsState Name).inodes sb.root
      = some ⟨true, 2, false, sb.root, false⟩ := by
    unfold rootOnly
    dsimp only
    rw [Function.update_self]
  refine ⟨⟨⟨⟨_, hroot, rfl, Nat.succ_ne_zero 1⟩, rfl⟩, nofun, nofun,
    fun i n _ _ => ⟨Nat.zero_le 1, fun _ => rfl⟩, nofun, fun i n hn hd => ?_⟩,
    fun i n hn hd => ?_, fun i n hn _ _ => .inl ?_⟩
  · cases hin i n hn
    cases hd
  · cases hin i n hn
    cases hd
  · cases hin i n hn
    rfl

def NsSb.small : NsSb := ⟨true, true, 2⟩

/-- In every run the links agree with the entries and `..` with the place of
its directory, if the new names of renames with a whiteout fit. -/
theorem run_keeps_link_counts {ops : List (NsOp Name)} (hst : Consistent sb st)
    (hops : NsRunMeets sb (fun st op => op.Legal st ∧ op.WhiteoutFits) ops st)
    (hrun : nsRun sb ops st = some st') : Consistent sb st' :=
  hst.run hops hrun

/-- A directory, a file in it, and the file moved up with a whiteout. -/
theorem run_keeps_link_counts_small :
    let ops : List (NsOp Nat) :=
      [.mkdir ⟨0, 0, 0, ⟨0, true⟩⟩ 2 0 11, .create ⟨0, 0, ⟨0, false⟩⟩ 11 1 12,
        .rename ⟨0, ⟨0, false⟩⟩ 11 1 12 2 2 none (some 13)]
    ∃ st', nsRun .small ops (rootOnly .small) = some st' ∧
      st'.entries = [⟨2, 2, 12⟩, ⟨11, 1, 13⟩, ⟨2, 0, 11⟩] ∧ Consistent .small st' := by
  intro ops
  refine ⟨_, rfl, rfl, run_keeps_link_counts consistent_rootOnly (?_ : NsRunMeets _ _ ops _) rfl⟩
  refine ⟨⟨⟨⟨_, rfl, rfl, by decide⟩, rfl⟩, trivial⟩, ?_⟩
  rintro _ ⟨⟩
  refine ⟨⟨⟨⟨_, rfl, rfl, by decide⟩, rfl⟩, trivial⟩, ?_⟩
  rintro _ ⟨⟩
  refine ⟨⟨⟨⟨_, rfl, rfl, by decide⟩, ⟨_, rfl, rfl, by decide⟩, rfl, nofun, ?_⟩, fun _ _ => rfl⟩,
    fun _ _ => trivial⟩
  rintro _ ⟨⟩
  rfl

/-- A file is renamed with a whiteout and its new name does not fit. The old
entry names the whiteout by then; the whiteout loses its link, and the file
keeps the link of a name that it no longer has. -/
theorem whiteout_takes_last_name :
    let ops : List (NsOp Nat) :=
      [.create ⟨0, 0, ⟨0, false⟩⟩ 2 0 11, .rename ⟨0, ⟨-28, false⟩⟩ 2 0 11 2 1 none (some 12)]
    NsRunMeets .small (fun st op => op.Legal st) ops (rootOnly .small) ∧
      ∃ st', nsRun .small ops (rootOnly .small) = some st' ∧ st'.entries = [⟨2, 0, 12⟩] ∧
        (st'.inodes 11).map NsInode.iNlink = some 1 ∧
        (st'.inodes 12).map NsInode.iNlink = some 0 ∧ ¬ Consistent .small st' := by
  intro ops
  refine ⟨⟨⟨⟨_, rfl, rfl, by decide⟩, rfl⟩, ?_⟩, _, rfl, rfl, rfl, rfl, fun h => ?_⟩
  · rintro _ ⟨⟩
    refine ⟨⟨⟨_, rfl, rfl, by decide⟩, ⟨_, rfl, rfl, by decide⟩, rfl, nofun, ?_⟩,
      fun _ _ => trivial⟩
    rintro _ ⟨⟩
    rfl
  · exact absurd (h.files 11 _ rfl rfl) (by decide)

end Ext4.Namei
