import Mathlib.Data.List.Basic
import Mathlib.Data.List.Perm.Basic

/-!
# Indirect blocks — allocating and splicing a branch

`ext4_alloc_branch` allocates the missing blocks from the top and links them
with each other; `ext4_splice_branch` sets the one pointer that makes them
part of the file. An error in either frees what was allocated. After the
pointer is set this is too late, and the source does it nevertheless.
-/

namespace Ext4.Indirect

/-- The pointers, by the block they are in (`none` is the inode) and their
place in it. -/
abbrev Pointers := Option Nat → Nat → Nat

/-- The outcomes of the calls; `newBlock` is the result of each allocation,
and `len` the length of the last one. -/
structure BranchEnv where
  newBlock : Nat → Option Nat
  len : Nat
  getblk : Nat → Bool
  createAccess : Nat → Bool
  dirty : Nat → Bool
  writeAccess : Bool
  spliceDirty : Bool

structure BranchState where
  newBlocks : List Nat
  mem : Pointers
  freed : List (Nat × Nat)

/-- Pointers to consecutive blocks from `b` on. -/
def writeRun (mem : Pointers) (bh : Option Nat) (p b len : Nat) : Pointers :=
  fun o k => if o = bh ∧ p ≤ k ∧ k < p + len then b + (k - p) else mem o k

variable (env : BranchEnv) (indirectBlks : Nat) (offsets : Nat → Nat)

/-- The allocation with number `i`, block and length. -/
def allocation (newBlocks : List Nat) (i : Nat) : Nat × Nat :=
  (newBlocks.getD i 0, if i = indirectBlks then env.len else 1)

/-- The loop at `failed`, from the index below the given one. -/
def undoLoop (newBlocks : List Nat) : Nat → List (Nat × Nat)
  | 0 => []
  | i + 1 => allocation env indirectBlks newBlocks i :: undoLoop newBlocks i

/-- The loop of `ext4_alloc_branch`; `false` is an error. -/
def allocLoop : Nat → Nat → BranchState → BranchState × Bool
  | 0, _, st => (st, true)
  | fuel + 1, i, st =>
      match env.newBlock i with
      | none => ({ st with freed := undoLoop env indirectBlks st.newBlocks i }, false)
      | some b =>
          let st := { st with newBlocks := st.newBlocks ++ [b] }
          let failed := undoLoop env indirectBlks st.newBlocks (i + 1)
          if i = 0 then allocLoop fuel (i + 1) st
          else if !env.getblk i || !env.createAccess i then ({ st with freed := failed }, false)
          else
            let bh := some (st.newBlocks.getD (i - 1) 0)
            let len := if i = indirectBlks then env.len else 1
            let zeroed : Pointers := fun o k => if o = bh then 0 else st.mem o k
            let st := { st with mem := writeRun zeroed bh (offsets i) b len }
            if !env.dirty i then ({ st with freed := failed }, false)
            else allocLoop fuel (i + 1) st

def ext4AllocBranch (mem : Pointers) : BranchState × Bool :=
  allocLoop env indirectBlks offsets (indirectBlks + 1) 0 ⟨[], mem, []⟩

/-- `ext4_splice_branch` at the pointer `p` in `bh`. -/
def ext4SpliceBranch (bh : Option Nat) (p : Nat) (st : BranchState) : BranchState × Bool :=
  let errOut := (List.range indirectBlks).map (fun i => (st.newBlocks.getD i 0, 1)) ++
    [(st.newBlocks.getD indirectBlks 0, env.len)]
  if bh.isSome && !env.writeAccess then ({ st with freed := errOut }, false)
  else
    let len := if indirectBlks = 0 then max 1 env.len else 1
    let st := { st with mem := writeRun st.mem bh p (st.newBlocks.getD 0 0) len }
    if bh.isSome && !env.spliceDirty then ({ st with freed := errOut }, false) else (st, true)

/-- The two calls of `ext4_ind_map_blocks`. -/
def allocAndSplice (bh : Option Nat) (p : Nat) (mem : Pointers) : BranchState × Bool :=
  let r := ext4AllocBranch env indirectBlks offsets mem
  if r.2 then ext4SpliceBranch env indirectBlks bh p r.1 else r

/-- The calls of turn `i` of `ext4_alloc_branch` succeed. -/
def TurnWorks (i : Nat) : Prop :=
  (env.newBlock i).isSome ∧
    (0 < i → env.getblk i = true ∧ env.createAccess i = true ∧ env.dirty i = true)

/-- Nothing changed but what is inside the new blocks. -/
def TreeKept (mem : Pointers) (st : BranchState) : Prop :=
  ∀ o k, (∀ b ∈ st.newBlocks, o ≠ some b) → st.mem o k = mem o k

/-- Every allocation is freed once. -/
def FreedOnce (st : BranchState) : Prop :=
  st.freed.Perm ((List.range st.newBlocks.length).map (allocation env indirectBlks st.newBlocks))

variable {env indirectBlks offsets} {mem : Pointers}

theorem undoLoop_eq (l : List Nat) (n : Nat) : undoLoop env indirectBlks l n
    = ((List.range n).map (allocation env indirectBlks l)).reverse := by
  induction n with
  | zero => rfl
  | succ n ih => rw [undoLoop, ih, List.range_succ, List.map_append, List.reverse_append]; rfl

theorem undo_all {st : BranchState} {n : Nat} (hlen : st.newBlocks.length = n)
    (hfreed : st.freed = undoLoop env indirectBlks st.newBlocks n) :
    FreedOnce env indirectBlks st := by
  rw [FreedOnce, hfreed, undoLoop_eq, hlen]
  exact List.reverse_perm _

/-- The label `err_out` of `ext4_splice_branch` frees the other way round. -/
theorem errOut_all {st : BranchState} (hlen : st.newBlocks.length = indirectBlks + 1)
    (hfreed : st.freed = (List.range indirectBlks).map (fun i => (st.newBlocks.getD i 0, 1)) ++
      [(st.newBlocks.getD indirectBlks 0, env.len)]) : FreedOnce env indirectBlks st := by
  rw [FreedOnce, hfreed, hlen, List.range_succ, List.map_append]
  refine .of_eq (congrArg₂ _ (List.map_congr_left fun i hi => ?_) ?_)
  · rw [allocation, if_neg (Nat.ne_of_lt (List.mem_range.mp hi))]
  · simp [allocation]

/-- The loop from any turn on: it fails with everything freed, or has made
all the allocations, which it does if every call succeeds. -/
theorem allocLoop_spec (env : BranchEnv) (indirectBlks : Nat) (offsets : Nat → Nat)
    (mem : Pointers) (fuel : Nat) : ∀ i st, st.newBlocks.length = i → TreeKept mem st →
    ∃ st' ok, allocLoop env indirectBlks offsets fuel i st = (st', ok) ∧ TreeKept mem st' ∧
      (∀ b ∈ st'.newBlocks, b ∈ st.newBlocks ∨ ∃ j, env.newBlock j = some b) ∧
      (ok = true ↔ ∀ j, i ≤ j → j < i + fuel → TurnWorks env j) ∧
      (ok = true → st'.newBlocks.length = i + fuel) ∧
      (ok = false → FreedOnce env indirectBlks st') := by
  induction fuel with
  | zero =>
    exact fun i st hlen hkept => ⟨st, true, rfl, hkept, fun _ => .inl,
      iff_of_true rfl fun j h1 h2 => absurd h2 (Nat.not_lt.mpr h1), fun _ => hlen, nofun⟩
  | succ fuel ih =>
    intro i st hlen hkept
    rw [allocLoop]
    have hstop : ¬ TurnWorks env i →
        (false = true ↔ ∀ j, i ≤ j → j < i + (fuel + 1) → TurnWorks env j) :=
      fun hno => iff_of_false Bool.false_ne_true fun h => hno (h i (Nat.le_refl i) (by omega))
    -- a turn that works leaves the rest to the next one
    have hgo : ∀ st', st'.newBlocks.length = i + 1 → TreeKept mem st' → TurnWorks env i →
        (∀ b ∈ st'.newBlocks, b ∈ st.newBlocks ∨ ∃ j, env.newBlock j = some b) →
        ∃ st'' ok, allocLoop env indirectBlks offsets fuel (i + 1) st' = (st'', ok) ∧
          TreeKept mem st'' ∧
          (∀ b ∈ st''.newBlocks, b ∈ st.newBlocks ∨ ∃ j, env.newBlock j = some b) ∧
          (ok = true ↔ ∀ j, i ≤ j → j < i + (fuel + 1) → TurnWorks env j) ∧
          (ok = true → st''.newBlocks.length = i + (fuel + 1)) ∧
          (ok = false → FreedOnce env indirectBlks st'') := by
      intro st' hlen' hkept' hworks hsrc
      obtain ⟨st'', ok, heq, hk, hfrom, hok, hl, hf⟩ := ih _ _ hlen' hkept'
      refine ⟨st'', ok, heq, hk, fun b hb => (hfrom b hb).elim (hsrc b) .inr, hok.trans ?_,
        fun h => by rw [hl h]; omega, hf⟩
      refine ⟨fun h j h1 h2 => ?_, fun h j h1 h2 => h j (by omega) (by omega)⟩
      by_cases hj : j = i
      · exact hj ▸ hworks
      · exact h j (by omega) (by omega)
    cases hb : env.newBlock i with
    | none =>
      exact ⟨_, false, rfl, hkept, fun _ => .inl,
        hstop fun h => by simp [TurnWorks, hb] at h, nofun,
        fun _ => undo_all hlen rfl⟩
    | some b =>
      have hsrc : ∀ c ∈ st.newBlocks ++ [b], c ∈ st.newBlocks ∨ ∃ j, env.newBlock j = some c := by
        intro c hc
        rcases List.mem_append.mp hc with hc | hc
        · exact .inl hc
        · exact .inr ⟨i, by rw [hb, List.mem_singleton.mp hc]⟩
      have hlen' : (st.newBlocks ++ [b]).length = i + 1 := by simp [hlen]
      have hkept' : TreeKept mem { st with newBlocks := st.newBlocks ++ [b] } :=
        fun o k ho => hkept o k fun c hc => ho c (List.mem_append_left _ hc)
      dsimp only
      split
      · exact hgo _ hlen' hkept' ⟨by simp [hb], fun hi => by omega⟩ hsrc
      rename_i hi
      split
      · rename_i hfail
        refine ⟨_, false, rfl, hkept', hsrc, hstop fun h => ?_, nofun, fun _ => undo_all hlen' rfl⟩
        simp [h.2 (Nat.pos_of_ne_zero hi)] at hfail
      rename_i haccess
      -- the block written is the one allocated in the turn before
      have hwritten : ∀ bh p len, bh ∈ (st.newBlocks ++ [b]).map some →
          TreeKept mem ⟨st.newBlocks ++ [b], writeRun (fun o k => if o = bh then 0
            else st.mem o k) bh p b len, st.freed⟩ := by
        intro bh p len hbh o k ho
        obtain ⟨c, hc, rfl⟩ := List.mem_map.mp hbh
        have hne := ho c hc
        simpa [writeRun, hne] using hkept' o k ho
      have hmem : some ((st.newBlocks ++ [b]).getD (i - 1) 0) ∈ (st.newBlocks ++ [b]).map some := by
        rw [List.getD_eq_getElem?_getD, List.getElem?_eq_getElem (by omega), Option.getD_some]
        exact List.mem_map_of_mem (List.getElem_mem _)
      split
      · rename_i hfail
        refine ⟨_, false, rfl, hwritten _ _ _ hmem, hsrc, hstop fun h => ?_, nofun,
          fun _ => undo_all hlen' rfl⟩
        simp [h.2 (Nat.pos_of_ne_zero hi)] at hfail
      · rename_i hdirty
        exact hgo _ hlen' (hwritten _ _ _ hmem)
          ⟨by simp [hb], fun _ => by simpa [and_assoc] using And.intro haccess hdirty⟩ hsrc

/-- An error leaves the tree as it was, with every allocation freed. -/
def TakesBack (env : BranchEnv) (indirectBlks : Nat) (offsets : Nat → Nat) (bh : Option Nat)
    (p : Nat) (mem : Pointers) : Prop :=
  (allocAndSplice env indirectBlks offsets bh p mem).2 = false →
    TreeKept mem (allocAndSplice env indirectBlks offsets bh p mem).1 ∧
      FreedOnce env indirectBlks (allocAndSplice env indirectBlks offsets bh p mem).1

/-- **An error takes everything back**, wherever it occurs, exactly unless it
is the last one: the indirect block in which the pointer was set cannot be
marked dirty. The pointer was not set before, and the allocator hands out
neither block 0 nor a block of the file. -/
theorem allocAndSplice_error (env : BranchEnv) (indirectBlks : Nat) (offsets : Nat → Nat)
    (bh : Option Nat) (p : Nat) (mem : Pointers) (hlink : mem bh p = 0)
    (hnew : ∀ i b, env.newBlock i = some b → b ≠ 0 ∧ bh ≠ some b) :
    TakesBack env indirectBlks offsets bh p mem ↔
      bh = none ∨ env.spliceDirty = true ∨ env.writeAccess = false ∨
        ∃ i ≤ indirectBlks, ¬ TurnWorks env i := by
  obtain ⟨st, ok, heq, hkept, hsrc, hok, hlen, hfreed⟩ := allocLoop_spec env indirectBlks offsets
    mem (indirectBlks + 1) 0 ⟨[], mem, []⟩ rfl fun _ _ _ => rfl
  have hall : (∃ i ≤ indirectBlks, ¬ TurnWorks env i) ↔ ok = false := by
    rw [← Bool.not_eq_true, hok]
    simp only [not_forall, exists_prop]
    exact exists_congr fun i => ⟨fun h => ⟨i.zero_le, by omega, h.2⟩, fun h => ⟨by omega, h.2.2⟩⟩
  rw [TakesBack, hall, allocAndSplice, ext4AllocBranch, heq]
  cases ok with
  | false => exact iff_of_true (fun _ => ⟨hkept, hfreed rfl⟩) (by simp)
  | true =>
    rw [if_pos rfl, ext4SpliceBranch]
    cases bh with
    | none => exact iff_of_true (fun h => by cases h) (.inl rfl)
    | some blk =>
      cases hw : env.writeAccess with
      | false =>
        exact iff_of_true (fun _ => ⟨hkept, errOut_all ((hlen rfl).trans (Nat.zero_add _)) rfl⟩)
          (by simp)
      | true =>
        cases hd : env.spliceDirty with
        | true => exact iff_of_true (fun h => by cases h) (by simp)
        | false =>
          refine iff_of_false (fun h => ?_) (by simp)
          -- the pointer is that to the first of the new blocks
          have hfrom : ∀ b ∈ st.newBlocks, b ≠ 0 ∧ some blk ≠ some b := by
            intro b hb
            obtain ⟨j, hj⟩ := (hsrc b hb).resolve_left List.not_mem_nil
            exact hnew j b hj
          have hfirst : st.newBlocks.getD 0 0 ∈ st.newBlocks := by
            cases hl : st.newBlocks with
            | nil => simp [hl] at hlen
            | cons b l => exact List.mem_cons_self
          have hpos : 0 < if indirectBlks = 0 then max 1 env.len else 1 := by
            split <;> omega
          have hsame := (h rfl).1 (some blk) p fun b hb => (hfrom b hb).2
          refine (hfrom _ hfirst).1 ?_
          rw [hlink] at hsame
          simpa [writeRun, hw, hd, hpos] using hsame

/-- Calls that succeed but for those named, with an indirect block 21 and
the data blocks 31 and 32. -/
def branchEnv (dirty spliceDirty : Bool) : BranchEnv :=
  ⟨fun i => some (21 + 10 * i), 2, fun _ => true, fun _ => true, fun _ => dirty, true, spliceDirty⟩

/-- The new indirect block cannot be marked dirty. -/
theorem allocAndSplice_error_dirty :
    let st := (allocAndSplice (branchEnv false true) 1 (fun _ => 5) (some 9) 3 fun _ _ => 0).1
    st.mem (some 9) 3 = 0 ∧ FreedOnce (branchEnv false true) 1 st := by
  obtain ⟨hkept, hfreed⟩ := (allocAndSplice_error (branchEnv false true) 1 (fun _ => 5) (some 9) 3
    (fun _ _ => 0) rfl (by rintro i b ⟨⟩; simp; omega)).mpr (.inr (.inl rfl)) rfl
  exact ⟨hkept (some 9) 3 (by decide), hfreed⟩

/-- The block in which the pointer was set cannot be marked dirty: the
pointer stays, and the blocks behind it are freed. -/
theorem allocAndSplice_dangling :
    let r := allocAndSplice (branchEnv true false) 1 (fun _ => 5) (some 9) 3 fun _ _ => 0
    r.2 = false ∧ r.1.mem (some 9) 3 = 21 ∧ r.1.freed = [(21, 1), (31, 2)] := by
  decide

end Ext4.Indirect
