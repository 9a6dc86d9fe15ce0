import Ext4.Ialloc.Group

/-!
# Inode allocation — interleavings

The calls in progress say which inodes are pending; that every section keeps
the invariant of its group does the rest.
-/

namespace Ext4.Ialloc

open Bitmap

variable {sb : IaSb} {st st' : IaState sb}

/-- A call has taken the bit and has not yet changed the descriptor. -/
def Pending (st : IaState sb) (group bit : Nat) : Prop :=
  ∃ t isDir, st.calls t = some (.got isDir group bit)

/-- What a call knows about the inode it deals with. -/
def Call.Ok (sb : IaSb) : Call → Prop
  | .found _ _ group ino => group = 0 → sb.firstIno ≤ ino + 1
  | .free _ group bit => sb.firstIno ≤ sb.ino group bit
  | _ => True

structure IaInv (st : IaState sb) : Prop where
  groups : ∀ g, GroupInv sb g (st.groups g) (st.inUse g) (Pending st g)
  held : ∀ t c g, st.calls t = some c → c.Holds g → (st.groups g).uptodate = true
  ok : ∀ t c, st.calls t = some c → c.Ok sb
  gotOnce : ∀ t t' d d' g b, st.calls t = some (.got d g b) → st.calls t' = some (.got d' g b) →
    t = t'
  freeing : ∀ t d g b, st.calls t = some (.free d g b) → st.inUse g b = some d
  freeOnce : ∀ t t' d d' g b, st.calls t = some (.free d g b) →
    st.calls t' = some (.free d' g b) → t = t'

/-- Another call than that of `t` has taken the bit. -/
def PendingOther (st : IaState sb) (t group bit : Nat) : Prop :=
  ∃ t' isDir, t' ≠ t ∧ st.calls t' = some (.got isDir group bit)

variable {op : IaOp} {ops : List IaOp} {b g : Nat} {c' : Option Call}

theorem pendingOther_iff {t : Nat} (h : ∀ d, st.calls t ≠ some (.got d g b)) :
    PendingOther st t g b ↔ Pending st g b := by
  constructor
  · rintro ⟨t', d, -, hc⟩
    exact ⟨t', d, hc⟩
  · rintro ⟨t', d, hc⟩
    refine ⟨t', d, ?_, hc⟩
    rintro rfl
    exact h d hc

variable {desc' : GroupDesc sb}

/-- **What a step of a call has to show**: that its section keeps the
invariant of the group, and that its new place in the code is one where it
may be. -/
theorem IaInv.callStep (h : IaInv st) {t : Nat} {use' : Nat → Option Bool}
    (hgroups : st'.groups = Function.update st.groups g desc')
    (hinUse : st'.inUse = Function.update st.inUse g use')
    (hcalls : st'.calls = Function.update st.calls t c')
    (hold : ∀ d g' b, st.calls t = some (.got d g' b) → g' = g)
    (hnew : ∀ d g' b, c' = some (.got d g' b) → g' = g ∧ ¬ PendingOther st t g b)
    (hgroup : GroupInv sb g desc' use' (fun b => PendingOther st t g b ∨ ∃ d, c' = some (.got d g
      b))) (hup : (st.groups g).uptodate = true → desc'.uptodate = true)
    (hok : ∀ c, c' = some c → c.Ok sb ∧ ∀ g', c.Holds g' → g' = g ∧ desc'.uptodate = true)
    (hfree : ∀ d g' b, c' = some (.free d g' b) → use' b = some d ∧ ∀ t' d', st.calls t' ≠ some
      (.free d' g' b))
    (huse : ∀ t' d b, t' ≠ t → st.calls t' = some (.free d g b) → use' b = some d) : IaInv st' := by
  have hcall : ∀ t' c, st'.calls t' = some c →
      t' = t ∧ c' = some c ∨ t' ≠ t ∧ st.calls t' = some c := by
    intro t' c hc
    rw [hcalls, Function.update_apply] at hc
    split at hc
    · rename_i heq
      exact .inl ⟨heq, hc⟩
    · rename_i hne
      exact .inr ⟨hne, hc⟩
  have hpend : ∀ g' b, Pending st' g' b ↔ PendingOther st t g' b
      ∨ ∃ d, c' = some (.got d g' b) := by
    intro g' b
    constructor
    · rintro ⟨t', d, hc⟩
      rcases hcall t' _ hc with ⟨-, hc⟩ | ⟨hne, hc⟩
      · exact .inr ⟨d, hc⟩
      · exact .inl ⟨t', d, hne, hc⟩
    · rintro (⟨t', d, hne, hc⟩ | ⟨d, hc⟩)
      · exact ⟨t', d, by rw [hcalls, Function.update_of_ne hne, hc]⟩
      · exact ⟨t, d, by rw [hcalls, Function.update_self, hc]⟩
  have hother : ∀ g', g' ≠ g → ∀ b, Pending st' g' b ↔ Pending st g' b := by
    intro g' hg b
    rw [hpend, pendingOther_iff fun d hd => hg (hold d g' b hd), or_iff_left]
    rintro ⟨d, hd⟩
    exact hg (hnew d g' b hd).1
  refine ⟨fun g' => ?_, fun t' c g' hc hh => ?_, fun t' c hc => ?_,
    fun t1 t2 d1 d2 g' b h1 h2 => ?_, fun t' d g' b hc => ?_, fun t1 t2 d1 d2 g' b h1 h2 => ?_⟩
  · by_cases hg : g' = g
    · subst hg
      rw [hgroups, hinUse, Function.update_self, Function.update_self]
      exact hgroup.congr (hpend g')
    · rw [hgroups, hinUse, Function.update_of_ne hg, Function.update_of_ne hg]
      exact (h.groups g').congr (hother g' hg)
  · rcases hcall t' c hc with ⟨-, hc⟩ | ⟨-, hc⟩
    · obtain ⟨rfl, hu⟩ := (hok c hc).2 g' hh
      rw [hgroups, Function.update_self, hu]
    · rw [hgroups, Function.update_apply]
      have := h.held t' c g' hc hh
      split
      · rename_i hg
        exact hup (hg ▸ this)
      · exact this
  · rcases hcall t' c hc with ⟨-, hc⟩ | ⟨-, hc⟩
    · exact (hok c hc).1
    · exact h.ok t' c hc
  · rcases hcall t1 _ h1 with ⟨rfl, h1⟩ | ⟨hne1, h1⟩ <;>
      rcases hcall t2 _ h2 with ⟨rfl, h2⟩ | ⟨hne2, h2⟩
    · rfl
    · obtain ⟨rfl, hno⟩ := hnew d1 g' b h1
      exact absurd ⟨t2, d2, hne2, h2⟩ hno
    · obtain ⟨rfl, hno⟩ := hnew d2 g' b h2
      exact absurd ⟨t1, d1, hne1, h1⟩ hno
    · exact h.gotOnce t1 t2 d1 d2 g' b h1 h2
  · rw [hinUse, Function.update_apply]
    rcases hcall t' _ hc with ⟨rfl, hc⟩ | ⟨hne, hc⟩
    · rw [if_pos ((hok _ hc).2 g' rfl).1]
      exact (hfree d g' b hc).1
    · split
      · rename_i hg
        exact huse t' d b hne (hg ▸ hc)
      · exact h.freeing t' d g' b hc
  · rcases hcall t1 _ h1 with ⟨rfl, h1⟩ | ⟨hne1, h1⟩ <;>
      rcases hcall t2 _ h2 with ⟨rfl, h2⟩ | ⟨hne2, h2⟩
    · rfl
    · exact absurd h2 ((hfree d1 g' b h1).2 t2 d2)
    · exact absurd h1 ((hfree d2 g' b h2).2 t1 d1)
    · exact h.freeOnce t1 t2 d1 d2 g' b h1 h2

theorem IaInv.moveCall (h : IaInv st) {t : Nat} (hold : ∀ d g b, st.calls t ≠ some (.got d g b))
    (hnew : ∀ c, c' = some c → c.Ok sb ∧ ∀ g', c.Holds g' → g' = g ∧ desc'.uptodate = true)
    (hgot : ∀ d g b, c' ≠ some (.got d g b))
    (hfree : ∀ d g' b, c' = some (.free d g' b) → st.inUse g b = some d
      ∧ ∀ t' d', st.calls t' ≠ some (.free d' g' b))
    (hgroup : GroupInv sb g desc' (st.inUse g) (Pending st g))
    (hup : (st.groups g).uptodate = true → desc'.uptodate = true) :
    IaInv ((st.setGroup g desc').setCall t c') := by
  refine h.callStep (g := g) rfl (Function.update_eq_self g st.inUse).symm rfl
    (fun d g' b hc => absurd hc (hold d g' b)) (fun d g' b hc => absurd hc (hgot d g' b))
      ?_ hup hnew
    hfree fun t' d b _ hc => h.freeing t' d g b hc
  refine hgroup.congr fun b => ?_
  rw [pendingOther_iff fun d => hold d g b, or_iff_left]
  rintro ⟨d, hc⟩
  exact hgot d g b hc

theorem nextGroup_plain (sb : IaSb) (isDir : Bool) (i group : Nat) :
    (∀ c, nextGroup sb isDir i group = some c → c.Ok sb ∧ ∀ g, ¬ c.Holds g) ∧
      (∀ d g b, nextGroup sb isDir i group ≠ some (.got d g b)) ∧
      ∀ d g b, nextGroup sb isDir i group ≠ some (.free d g b) := by
  unfold nextGroup
  split
  · refine ⟨fun c hc => ?_, nofun, nofun⟩
    cases hc
    exact ⟨trivial, fun _ => id⟩
  · exact ⟨nofun, nofun, nofun⟩

theorem setGroup_self (st : IaState sb) (g : Nat) : st.setGroup g (st.groups g) = st := by
  rw [IaState.setGroup, Function.update_eq_self]

theorem IaInv.nextGroup (h : IaInv st) {t : Nat} (hold : ∀ d g b, st.calls t ≠ some (.got d g b))
    (isDir : Bool) (i : Nat) (hgroup : GroupInv sb g desc' (st.inUse g) (Pending st g))
    (hup : (st.groups g).uptodate = true → desc'.uptodate = true) :
    IaInv ((st.setGroup g desc').setCall t (nextGroup sb isDir i g)) := by
  obtain ⟨h1, h2, h3⟩ := nextGroup_plain sb isDir i g
  exact h.moveCall hold (fun c hc => ⟨(h1 c hc).1, fun g' hh => absurd hh ((h1 c hc).2 g')⟩) h2
    (fun d g' b hc => absurd hc (h3 d g' b)) hgroup hup

/-! ## Steps -/

section Steps

variable {t i group ino bit : Nat} {isDir : Bool}

theorem not_got {c : Option Call} (hc : st.calls t = c) (hne : ∀ d g b, c ≠ some (.got d g b)) :
    ∀ d g b, st.calls t ≠ some (.got d g b) := hc ▸ hne

/-- The bit is at or behind the one that was found, and it is clear. -/
theorem claim_bit (desc : GroupDesc sb) {ino bit : Nat}
    (hbit : bit = if desc.bits ino = true then findInodeBit sb desc.bits ino else ino)
    (hlt : bit < sb.inodesPerGroup) : ino ≤ bit ∧ desc.bits bit = false := by
  split at hbit
  · subst hbit
    have hle : ino ≤ sb.inodesPerGroup := by
      by_contra hgt
      rw [findInodeBit, findNext, Nat.sub_eq_zero_of_le (by omega)] at hlt
      exact absurd hlt (Nat.not_lt.mpr (Nat.le_of_not_le hgt))
    obtain ⟨h1, -, -, h4⟩ := findNext_spec desc.bits false hle
    exact ⟨h1, h4 hlt⟩
  · rename_i hclear
    subst hbit
    exact ⟨Nat.le_refl _, Bool.eq_false_iff.mpr hclear⟩

variable (h : IaInv st)

include h

theorem IaInv.nextGroup_same (hold : ∀ d g b, st.calls t ≠ some (.got d g b))
    (isDir : Bool) (i group : Nat) : IaInv (st.setCall t (Ialloc.nextGroup sb isDir i group)) := by
  rw [← setGroup_self st group]
  exact h.nextGroup hold isDir i (h.groups group) id

theorem IaInv.scanGroup (hc : st.calls t = some (.scan isDir i group ino)) :
    IaInv (scanGroup t isDir i group ino st) := by
  have hold := not_got hc nofun
  unfold Ialloc.scanGroup
  dsimp only
  split
  · exact h.nextGroup_same hold isDir i group
  · split
    · exact h.nextGroup_same hold isDir i group
    · rename_i desc hread
      have hup := (readInodeBitmap_spec hread).1
      refine h.moveCall hold (fun c hc => ?_) nofun nofun ((h.groups group).read hread) fun _ => hup
      cases hc
      exact ⟨trivial, fun g' hg => ⟨hg.symm, hup⟩⟩

theorem IaInv.searchGroup (hc : st.calls t = some (.search isDir i group ino))
    (seen : Bits) : IaInv (searchGroup t isDir i group ino seen st) := by
  have hold := not_got hc (by simp)
  have hup := h.held t _ group hc rfl
  unfold Ialloc.searchGroup
  dsimp only
  split
  · exact h.nextGroup_same hold isDir i group
  · split
    · exact h.nextGroup hold isDir i
        ((h.groups group).same (fun _ _ => rfl) rfl id rfl rfl rfl) id
    · rename_i hres
      rw [← setGroup_self st group]
      refine h.moveCall hold (fun c hc => ?_) (by simp) (by simp) (h.groups group) id
      cases hc
      refine ⟨fun hg => ?_, fun g' hg => ⟨hg.symm, hup⟩⟩
      by_contra hlt
      exact hres ⟨hg, Nat.lt_of_not_le hlt⟩

theorem IaInv.claimBit (hc : st.calls t = some (.found isDir i group ino)) :
    IaInv (claimBit t isDir i group ino st) := by
  have hold := not_got hc (by simp)
  have hup := h.held t _ group hc rfl
  unfold Ialloc.claimBit
  dsimp only
  generalize hbit : (if (st.groups group).bits ino = true then
    findInodeBit sb (st.groups group).bits ino else ino) = bit
  split
  · rename_i hlt
    obtain ⟨hge, hclear⟩ := claim_bit (st.groups group) hbit.symm hlt
    have hok : group = 0 → sb.firstIno ≤ ino + 1 := h.ok t _ hc
    -- nobody else has the bit, since it is clear
    have hno : ¬ PendingOther st t group bit := by
      rintro ⟨t', d, -, hc'⟩
      have := ((h.groups group).pending bit ⟨t', d, hc'⟩).2.1
      rw [bitmap_of_uptodate hup, hclear] at this
      cases this
    refine h.callStep (g := group) rfl (Function.update_eq_self group st.inUse).symm rfl
      (fun d g' b hc' => absurd hc' (hold d g' b)) (fun d g' b hc' => ?_) ?_ (fun _ => hup)
      (fun c hc' => ?_) (by simp) fun t' d b _ hc' => h.freeing t' d group b hc'
    · cases hc'
      exact ⟨rfl, hno⟩
    · refine ((h.groups group).claim hup hlt hclear fun hg => ?_).congr fun b => ?_
      · exact Nat.le_trans (hok hg) (Nat.succ_le_succ hge)
      · rw [pendingOther_iff fun d => hold d group b]
        refine or_congr_right ?_
        constructor
        · rintro ⟨d, hd⟩
          cases hd
          rfl
        · rintro rfl
          exact ⟨isDir, rfl⟩
    · cases hc'
      exact ⟨trivial, fun g' hg => ⟨hg.symm, hup⟩⟩
  · split
    · omega
    · exact h.nextGroup_same hold isDir i group

theorem IaInv.handOut (hc : st.calls t = some (.got isDir group bit)) :
    IaInv (handOut t isDir group bit st) := by
  have hup := h.held t _ group hc rfl
  have hpend : Pending st group bit := ⟨t, isDir, hc⟩
  have hnone : st.inUse group bit = none := by
    cases hu : st.inUse group bit with
    | none => rfl
    | some d => exact absurd hpend ((h.groups group).used bit d hu).2.2.1
  refine h.callStep (g := group) rfl rfl rfl (fun d g' b hc' => ?_) nofun ?_ (fun _ => ?_) nofun
    nofun fun t' d b _ hc' => ?_
  · cases hc.symm.trans hc'
    rfl
  · refine ((h.groups group).take hup hpend isDir).congr fun b => ?_
    rw [or_iff_left (by rintro ⟨d, hc'⟩; cases hc')]
    constructor
    · rintro ⟨t', d, hne, hc'⟩
      refine ⟨⟨t', d, hc'⟩, ?_⟩
      rintro rfl
      exact hne (h.gotOnce t' t d isDir group b hc' hc)
    · rintro ⟨⟨t', d, hc'⟩, hne⟩
      refine ⟨t', d, ?_, hc'⟩
      rintro rfl
      cases hc.symm.trans hc'
      exact hne rfl
  · rw [(takeInode_counts (st.groups group) isDir (bit + 1)).2.2.2.1, hup]
  · have huse := h.freeing t' d group b hc'
    refine (Function.update_of_ne ?_ _ _).trans huse
    rintro rfl
    exact nomatch hnone.symm.trans huse

theorem IaInv.beginFree (hc : st.calls t = none) (huse : st.inUse group bit = some isDir)
    (honce : ∀ t' d, st.calls t' ≠ some (.free d group bit)) :
    IaInv (beginFree t isDir group bit st) := by
  have hold := not_got hc nofun
  unfold Ialloc.beginFree
  split
  · exact h
  rename_i hres
  split
  · exact h
  rename_i desc hread
  have hup := (readInodeBitmap_spec hread).1
  have hgroup := (h.groups group).read hread
  split
  · have hcall : st.setGroup group desc = (st.setGroup group desc).setCall t (st.calls t) := by
      rw [IaState.setCall]
      show _ = (⟨_, _, Function.update st.calls t (st.calls t)⟩ : IaState sb)
      rw [Function.update_eq_self]
      rfl
    rw [hcall, hc]
    exact h.moveCall hold nofun nofun nofun hgroup fun _ => hup
  · refine h.moveCall hold (fun c hc' => ?_) nofun (fun d g' b hc' => ?_) hgroup fun _ => hup
    · cases hc'
      exact ⟨Nat.le_of_not_lt fun hlt => hres (.inl hlt), fun g' hg => ⟨hg.symm, hup⟩⟩
    · cases hc'
      exact ⟨huse, honce⟩

theorem IaInv.endFree (hc : st.calls t = some (.free isDir group bit)) :
    IaInv (endFree t isDir group bit st) := by
  have hold := not_got hc nofun
  have hup := h.held t _ group hc rfl
  have huse := h.freeing t isDir group bit hc
  refine h.callStep (g := group) rfl rfl rfl (fun d g' b hc' => absurd hc' (hold d g' b)) nofun ?_
    (fun _ => ?_) nofun nofun fun t' d b hne hc' => ?_
  · refine ((h.groups group).clear hup huse (h.ok t _ hc)).congr fun b => ?_
    rw [pendingOther_iff fun d => hold d group b, or_iff_left]
    rintro ⟨d, hc'⟩
    cases hc'
  · rw [GroupDesc.freeInode]
    split <;> exact hup
  · refine (Function.update_of_ne ?_ _ _).trans (h.freeing t' d group b hc')
    rintro rfl
    exact hne (h.freeOnce t' t d isDir group b hc' hc)

theorem IaInv.setGroup (hgroup : GroupInv sb group desc' (st.inUse group) (Pending st group))
    (hup : (st.groups group).uptodate = true → desc'.uptodate = true ∨ ∀ t c, st.calls t = some c →
      ¬ c.Holds group) : IaInv (st.setGroup group desc') := by
  refine ⟨fun g => ?_, fun t c g hc hh => ?_, h.ok, h.gotOnce, h.freeing, h.freeOnce⟩
  · rw [show (st.setGroup group desc').groups g = _ from Function.update_apply ..]
    split
    · rename_i hg
      rw [hg]
      exact hgroup
    · exact h.groups g
  · rw [show (st.setGroup group desc').groups g = _ from Function.update_apply ..]
    have hheld := h.held t c g hc hh
    split
    · rename_i hg
      rw [hg] at hheld hh
      exact (hup hheld).resolve_right fun hno => hno t c hc hh
    · exact hheld

/-- **Every step keeps the invariant.** -/
theorem IaInv.step (hlegal : op.Legal st) (hstep : iaStep op st = some st') : IaInv st' := by
  cases op with
  | newInode t isDir group ino =>
    cases hstep
    rw [← setGroup_self st group]
    refine h.moveCall (fun d g b => ?_) (fun c hc => ?_) nofun nofun (h.groups group) id
    · rw [hlegal.1]
      nofun
    · cases hc
      exact ⟨trivial, fun _ hf => hf.elim⟩
  | scan t =>
    rw [iaStep] at hstep
    split at hstep <;> cases hstep
    exact h.scanGroup ‹_›
  | search t seen =>
    rw [iaStep] at hstep
    split at hstep <;> cases hstep
    exact h.searchGroup ‹_› seen
  | claim t =>
    rw [iaStep] at hstep
    split at hstep <;> cases hstep
    exact h.claimBit ‹_›
  | handOut t =>
    rw [iaStep] at hstep
    split at hstep <;> cases hstep
    exact h.handOut ‹_›
  | freeInode t group bit =>
    obtain ⟨isDir, huse, rfl⟩ := Option.map_eq_some_iff.mp hstep
    exact h.beginFree hlegal.1 huse hlegal.2
  | endFree t =>
    rw [iaStep] at hstep
    split at hstep <;> cases hstep
    exact h.endFree ‹_›
  | initInodeTable group =>
    cases hstep
    refine h.setGroup (h.groups group).initInodeTable fun hup => .inl ?_
    unfold GroupDesc.initInodeTable
    split
    · exact hup
    · exact hup
  | reclaim group =>
    cases hstep
    refine h.setGroup ((h.groups group).reclaim ?_) fun _ => .inr hlegal
    rintro b ⟨t, d, hc⟩
    exact hlegal t _ hc rfl

theorem IaInv.run (hops : IaRunLegal ops st) (hrun : iaRun ops st = some st') : IaInv st' := by
  induction ops generalizing st with
  | nil =>
    cases hrun
    exact h
  | cons op ops ih =>
    obtain ⟨st1, hstep, hrun⟩ := Option.bind_eq_some_iff.mp hrun
    exact ih (h.step hops.1 hstep) (hops.2 st1 hstep) hrun

end Steps

/-! ## What the invariant says -/

/-- A filesystem before the first call. The bitmaps, counts and tables agree
with the inodes in use; nothing is pending. -/
def Mounted (st : IaState sb) : Prop :=
  (∀ t, st.calls t = none) ∧ ∀ g, GroupInv sb g (st.groups g) (st.inUse g) fun _ => False

theorem Mounted.inv (h : Mounted st) : IaInv st := by
  have hno : ∀ t c, st.calls t ≠ some c := by
    intro t c
    rw [h.1 t]
    nofun
  refine ⟨fun g => (h.2 g).congr fun b => iff_of_false ?_ id, fun t c _ hc => absurd hc (hno t c),
    fun t c hc => absurd hc (hno t c), fun t _ _ _ _ _ hc => absurd hc (hno t _),
    fun t _ _ _ hc => absurd hc (hno t _), fun t _ _ _ _ _ hc => absurd hc (hno t _)⟩
  rintro ⟨t, d, hc⟩
  exact hno t _ hc

/-- An inode table block that `ext4_init_inode_table` would zero now. -/
def Zeroes (st : IaState sb) (group blk : Nat) : Prop :=
  ((st.groups group).zeroRange group).1 ≤ blk ∧
    blk < ((st.groups group).zeroRange group).1 + ((st.groups group).zeroRange group).2

/-- A number that a call has taken is not reserved, is that of no inode in
use, and no other call has taken it; inodes in use are marked in the bitmap
and lie in the part of the table that has been initialised, which will not
be zeroed; and the counts are exact when no call is in progress. -/
structure Sound (st : IaState sb) : Prop where
  taken : ∀ t d g b, st.calls t = some (.got d g b) → sb.firstIno ≤ sb.ino g b ∧
    (∀ g' b' d', st.inUse g' b' = some d' → sb.ino g' b' ≠ sb.ino g b) ∧
    ∀ t' d' g' b', st.calls t' = some (.got d' g' b') → sb.ino g' b' = sb.ino g b → t' = t
  marked : ∀ g b d, st.inUse g b = some d → b < sb.inodesPerGroup ∧ (st.groups g).bitmap b = true
  counts : (∀ t, st.calls t = none) → ∀ g,
    ((st.groups g).freeInodes : Int)
        = cnt sb.inodesPerGroup (fun b => (st.groups g).bitmap b = false) ∧
      ((st.groups g).usedDirs : Int) = cnt sb.inodesPerGroup (fun b => st.inUse g b = some true)
  table : ∀ g b d, st.inUse g b = some d →
    b < sb.inodesPerGroup - (st.groups g).itableUnused ∨ (st.groups g).zeroed = true
  kept : sb.groupDescCsum = true → ∀ g b d, st.inUse g b = some d →
    ¬ Zeroes st g (b / sb.inodesPerBlock)

theorem ino_inj {g' b' : Nat} (hb : b < sb.inodesPerGroup) (hb' : b' < sb.inodesPerGroup)
    (h : sb.ino g' b' = sb.ino g b) : g' = g ∧ b' = b := by
  have hpos : 0 < sb.inodesPerGroup := Nat.lt_of_le_of_lt (Nat.zero_le b) hb
  have h : b' + sb.inodesPerGroup * g' = b + sb.inodesPerGroup * g := by
    rw [IaSb.ino, IaSb.ino, Nat.mul_comm, Nat.mul_comm g] at h
    omega
  have hdiv := congrArg (· / sb.inodesPerGroup) h
  have hmod := congrArg (· % sb.inodesPerGroup) h
  simp only [Nat.add_mul_div_left _ _ hpos, Nat.div_eq_of_lt hb, Nat.div_eq_of_lt hb',
    Nat.zero_add] at hdiv
  simp only [Nat.add_mul_mod_self_left, Nat.mod_eq_of_lt hb, Nat.mod_eq_of_lt hb'] at hmod
  exact ⟨hdiv, hmod⟩

theorem IaInv.sound (h : IaInv st) : Sound st where
  taken := fun t d g b hc => by
    obtain ⟨hlt, -, hres⟩ := (h.groups g).pending b ⟨t, d, hc⟩
    refine ⟨hres, fun g' b' d' hu heq => ?_, fun t' d' g' b' hc' heq => ?_⟩
    · obtain ⟨hlt', -, hnp, -⟩ := (h.groups g').used b' d' hu
      obtain ⟨rfl, rfl⟩ := ino_inj hlt hlt' heq
      exact hnp ⟨t, d, hc⟩
    · obtain ⟨hlt', -⟩ := (h.groups g').pending b' ⟨t', d', hc'⟩
      obtain ⟨rfl, rfl⟩ := ino_inj hlt hlt' heq
      exact h.gotOnce t' t d' d g' b' hc' hc
  marked := fun g b d hu => by
    obtain ⟨h1, h2, -⟩ := (h.groups g).used b d hu
    exact ⟨h1, h2⟩
  counts := fun hno g => by
    refine ⟨(h.groups g).free.trans (cnt_congr fun b _ => ?_), (h.groups g).dirs⟩
    refine or_iff_left ?_
    rintro ⟨t, d, hc⟩
    exact nomatch (hno t).symm.trans hc
  table := fun g b d hu => ((h.groups g).used b d hu).2.2.2
  kept := fun hc g _ _ hu => (h.groups g).zeroRange hc hu

theorem IaRunLegal.cons {st1 : IaState sb} (hlegal : op.Legal st) (hstep : iaStep op st = some st1)
    (h : IaRunLegal ops st1) : IaRunLegal (op :: ops) st := by
  refine ⟨hlegal, fun st' hst' => ?_⟩
  obtain rfl : st1 = st' := Option.some.inj (hstep.symm.trans hst')
  exact h

/-- Two groups of eight inodes, of which the first two are reserved. -/
def IaSb.small : IaSb := ⟨8, 4, 2, 3, true, 16, by decide, by decide⟩

/-- The root directory is in use; only its group has been initialised. -/
def IaState.small : IaState .small where
  groups := fun g =>
    if g = 0 then ⟨fun b => b < 2, true, false, true, 6, 6, 1, false, by decide⟩
    else ⟨fun _ => true, false, true, false, 8, 8, 0, false, by decide⟩
  inUse := fun g b => if g = 0 ∧ b = 1 then some true else none
  calls := fun _ => none

theorem mounted_small : Mounted IaState.small := by
  refine ⟨fun _ => rfl, fun g => ?_⟩
  by_cases hg : g = 0
  · subst hg
    refine ⟨fun b d hb => ?_, fun _ hp => hp.elim, fun _ hu => Bool.noConfusion hu,
      fun hg => absurd rfl hg, ?_, ?_, fun hc => Bool.noConfusion hc⟩
    · have hb : b = 1 := by
        by_contra hne
        simp [IaState.small, hne] at hb
      subst hb
      exact ⟨by decide, by decide, id, .inl (by decide)⟩
    · simp [IaState.small, IaSb.small, GroupDesc.bitmap, cnt]
    · simp [IaState.small, IaSb.small, cnt]
  · refine ⟨fun b d hb => ?_, fun _ hp => hp.elim, fun _ _ b _ hb => ?_, fun _ b _ hr => ?_, ?_, ?_,
      fun hc => Bool.noConfusion hc⟩
    · simp [IaState.small, hg] at hb
    · simp [IaState.small, hg, GroupDesc.bitmap, IaSb.small] at hb
    · have : g * 8 + b + 1 < 3 := by
        have : b + 1 + g * 8 < 3 := hr
        omega
      omega
    · simp [IaState.small, hg, IaSb.small, GroupDesc.bitmap, cnt]
    · simp [IaState.small, hg, IaSb.small, cnt]

/-- In every interleaving of allocations, frees and the initialisation of
tables the inode numbers handed out are new ones, the counts are right and
no inode in use is zeroed. -/
theorem run_allocates_soundly {ops : List IaOp} (hst : Mounted st) (hops : IaRunLegal ops st)
    (hrun : iaRun ops st = some st') : Sound st' :=
  (hst.inv.run hops hrun).sound

/-- Two calls find the same bit of a group that has not been initialised;
the second one to lock the group gets the next bit. Its table is zeroed
before one of them changes the descriptor. -/
theorem run_allocates_soundly_small :
    let ops : List IaOp :=
      [.newInode 0 true 1 0, .newInode 1 false 1 0, .scan 0, .scan 1, .search 0 (fun _ => false),
        .search 1 (fun _ => false), .claim 0, .claim 1, .handOut 1, .initInodeTable 1, .handOut 0]
    ∃ st', iaRun ops IaState.small = some st' ∧ (st'.groups 1).freeInodes = 6 ∧
      st'.inUse 1 0 = some true ∧ st'.inUse 1 1 = some false ∧ Sound st' := by
  intro ops
  refine ⟨_, rfl, rfl, rfl, rfl, run_allocates_soundly mounted_small (?_ : IaRunLegal ops _) rfl⟩
  refine .cons ⟨rfl, by decide⟩ rfl (.cons ⟨rfl, by decide⟩ rfl ?_)
  refine .cons trivial rfl (.cons trivial rfl (.cons trivial rfl (.cons trivial rfl ?_)))
  refine .cons trivial rfl (.cons trivial rfl (.cons trivial rfl ?_))
  exact .cons ⟨rfl, by decide⟩ rfl (.cons trivial rfl trivial)

end Ext4.Ialloc
