import Ext4.ExtentsStatus.Interface

/-!
# Extent status — whole runs

Any sequence of calls, on any inodes, with any outcomes of the node
allocations and of the `write_trylock`s, and any balance of the red-black
trees. A run carries a ghost: the value last inserted for every block.

Two results hold in every state a run can reach: the invariant of the
trees, and the refinement of a cache — a partial map that knows nothing
but the values last inserted and forgets none of the delayed ones.
-/

namespace Ext4.ExtentsStatus

open SearchTree Ext4SbInfo PartialMap

/-- The calls. `shrink` is the scan of `ext4_es_scan`; `setPrecached` sets
or clears `EXT4_STATE_EXT_PRECACHED`. -/
inductive EsOp where
  | insert (i : Nat) (lblk len : BitVec 32) (pblk : Fsblk) (status : BitVec 32)
  | cache (i : Nat) (lblk len : BitVec 32) (pblk : Fsblk) (status : BitVec 32)
  | remove (i : Nat) (lblk len : BitVec 32)
  | lookup (i : Nat) (lblk : BitVec 32)
  | findDelayed (i : Nat) (lblk last : BitVec 32)
  | reclaim (i nrToScan : Nat)
  | shrink (nrToScan : Nat)
  | setPrecached (i : Nat) (on : Bool)

/-- What a call returns. -/
inductive EsRes where
  | code (err : Option Errno)
  | extent (es : Option ExtentStatus)
  | count (n : Nat)
  | void
deriving DecidableEq

/-- What a call meets: the shape of the trees, and the outcomes of its
allocations and of its attempts to lock other inodes. -/
structure EsEnv where
  rb : RbShape
  allocs : List Bool
  tryLocks : List Bool

/-- Trees that have grown into spines, and every other inode unlocked. -/
def EsEnv.unbalanced (allocs : List Bool) : EsEnv :=
    ⟨⟨BinTree.spine, BinTree.inorder_spine⟩, allocs, []⟩

/-- Set or clear `EXT4_STATE_EXT_PRECACHED`. -/
def Ext4SbInfo.setPrecached (sb : Ext4SbInfo) (i : Nat) (on : Bool) : Ext4SbInfo :=
  sb.setInode i { sb.inodes i with extPrecached := on }

/-- One call; `none` is a `BUG_ON`. -/
def step (env : EsEnv) (op : EsOp) (sb₀ : Ext4SbInfo) : Option (EsRes × Ext4SbInfo) :=
  let sb := { sb₀ with tryLocks := env.tryLocks }
  match op with
  | .insert i lblk len pblk status =>
      (ext4EsInsertExtent env.rb env.allocs sb i lblk len pblk status).map
        fun r => (.code r.1, r.2)
  | .cache i lblk len pblk status =>
      (ext4EsCacheExtent env.rb env.allocs sb i lblk len pblk status).map fun r => (.void, r)
  | .remove i lblk len =>
      (ext4EsRemoveExtent env.rb env.allocs sb i lblk len).map fun r => (.code r.1, r.2)
  | .lookup i lblk =>
      let r := ext4EsLookupExtent env.rb sb i lblk
      some (.extent r.1, r.2)
  | .findDelayed i lblk last =>
      (ext4EsFindDelayedExtentRange env.rb sb i lblk last).map fun r => (.extent r.1, r.2)
  | .reclaim i nrToScan =>
      let r := esReclaimExtents env.rb sb i nrToScan
      some (.count r.1, r.2.2)
  | .shrink nrToScan =>
      let r := esShrink env.rb sb nrToScan none
      some (.count r.1, r.2)
  | .setPrecached i on => some (.void, sb.setPrecached i on)

/-- What callers promise. -/
def EsOp.Ok : EsOp → Prop
  | .insert _ lblk len pblk status => ArgsOk lblk len pblk status
  | .cache _ lblk len pblk status => ArgsOk lblk len pblk status
  | _ => True

/-- The arguments a function stops the kernel on. -/
def EsOp.Bug : EsOp → Prop
  | .remove _ lblk len => len ≠ 0#32 ∧ lblk + len - 1#32 < lblk
  | .findDelayed _ lblk last => last < lblk
  | _ => False

/-- What each call may do to the map, by its result. `failed` says that a
node allocation failed during the call. -/
def EsOp.Meets (m m' : Family Nat EsVal) (failed : Prop) : EsOp → EsRes → Prop
  | .insert i lblk len pblk status, .code err =>
      InsertSpec m m' i lblk.toNat (lblk.toNat + len.toNat)
        (esView.val (mkEs lblk.toNat len.toNat pblk status)) failed err
  | .cache i lblk len pblk status, .void =>
      CacheSpec m m' i lblk.toNat (lblk.toNat + len.toNat)
        (esView.val (mkEs lblk.toNat len.toNat pblk status)) failed
  | .remove i lblk len, .code err =>
      RemoveSpec m m' i lblk.toNat (lblk.toNat + len.toNat) failed err
  | .lookup i lblk, .extent es => m' = m ∧ LookupSpec m i lblk.toNat es
  | .findDelayed _ _ _, .extent _ => m' = m
  | .reclaim _ _, .count _ => Kept valDelayed True everywhere m m'
  | .shrink _, .count _ => Kept valDelayed True everywhere m m'
  | .setPrecached _ _, .void => m' = m
  | _, _ => False

variable {sb : Ext4SbInfo}

theorem EsInv.setTryLocks (h : EsInv sb) (t : List Bool) : EsInv { sb with tryLocks := t } :=
  (Shrunk.reorder h (List.Perm.refl _) t).inv

theorem EsInv.setPrecached (h : EsInv sb) (i : Nat) (on : Bool) :
    EsInv (sb.setPrecached i on) ∧ esMap (sb.setPrecached i on) = esMap sb := by
  have hroot : ∀ j, (sb.setPrecached i on).root j = sb.root j := fun j =>
    setInode_congr sb i j (fun ei => ei.iEsTree.root) rfl
  have hcache : (sb.setPrecached i on).cacheOf i = sb.cacheOf i :=
    setInode_congr sb i i (fun ei => ei.iEsTree.cacheEs) rfl
  refine ⟨h.edit (fun j hj => (inodes_setInode ..).trans (if_neg hj))
    (h.acct.setInode (h.acct.all i) (h.acct.shk i) rfl) (hroot i ▸ h.tree i) (hroot i ▸ h.fresh i)
    (Nat.le_refl _) ?_, ?_⟩
  · rw [CacheOk, hcache, hroot]
    exact h.cache i
  · funext j b
    rw [esMap, esMap, hroot]

variable {op : EsOp} {last m m' : Family Nat EsVal} {failed : Prop}

/-- **One call** keeps the invariant and does to the map what it should. -/
theorem step_spec (env : EsEnv) (h : EsInv sb) (hop : op.Ok) :
    (step env op sb = none ∧ op.Bug) ∨
    ∃ res sb', step env op sb = some (res, sb') ∧ EsInv sb' ∧
      op.Meets (esMap sb) (esMap sb') (false ∈ env.allocs) res := by
  have h0 := h.setTryLocks env.tryLocks
  cases op with
  | insert i lblk len pblk status =>
    right
    obtain ⟨err, sb', heq, hinv, hspec⟩ := ext4EsInsertExtent_spec env.rb env.allocs i h0 hop
    exact ⟨.code err, sb', by simp only [step, heq, Option.map_some], hinv, hspec⟩
  | cache i lblk len pblk status =>
    right
    obtain ⟨sb', heq, hinv, hspec⟩ := ext4EsCacheExtent_spec env.rb env.allocs i h0 hop
    exact ⟨.void, sb', by simp only [step, heq, Option.map_some], hinv, hspec⟩
  | remove i lblk len =>
    by_cases hb : len = 0#32 ∨ ¬ lblk + len - 1#32 < lblk
    · right
      obtain ⟨err, sb', heq, hinv, hspec⟩ := ext4EsRemoveExtent_spec env.rb env.allocs i h0 hb
      exact ⟨.code err, sb', by simp only [step, heq, Option.map_some], hinv, hspec⟩
    · left
      rw [not_or, not_not] at hb
      refine ⟨?_, hb⟩
      simp [step, ext4EsRemoveExtent, if_neg hb.1, if_pos hb.2]
  | lookup i lblk =>
    right
    obtain ⟨hinv, hmap, hspec⟩ := ext4EsLookupExtent_spec env.rb i h0 lblk
    exact ⟨_, _, rfl, hinv, hmap, hspec⟩
  | findDelayed i lblk last =>
    by_cases hb : last < lblk
    · left
      refine ⟨?_, hb⟩
      simp [step, ext4EsFindDelayedExtentRange, if_pos hb]
    · right
      obtain ⟨res, sb', heq, hinv, hmap, -⟩ := ext4EsFindDelayedExtentRange_spec env.rb i h0 hb
      exact ⟨.extent res, sb', by simp only [step, heq, Option.map_some], hinv, hmap⟩
  | reclaim i nrToScan =>
    right
    have hS := esReclaimExtents_spec h0 env.rb i nrToScan
    have hK := hS.kept h0
    exact ⟨_, _, rfl, hS.inv, hK⟩
  | shrink nrToScan =>
    right
    have hS := esShrink_spec h0 env.rb nrToScan none
    have hK := hS.kept h0
    exact ⟨_, _, rfl, hS.inv, hK⟩
  | setPrecached i on =>
    right
    obtain ⟨hinv, hmap⟩ := h0.setPrecached i on
    exact ⟨_, _, rfl, hinv, hmap⟩

/-! ## Runs -/

/-- The trees, and the value last inserted for every block. -/
structure EsState where
  sb : Ext4SbInfo
  last : Family Nat EsVal

/-- No inode has cached anything (`ext4_es_init_tree`). -/
def EsState.init : EsState where
  sb := ⟨fun _ => ⟨⟨[], none⟩, 0, 0, 0, false⟩, [], 0, 0, []⟩
  last := fun _ _ => none

/-- The ghost: an insertion that returns 0 counts, and so does a call of
`ext4_es_cache_extent` that found its range empty and filled it. -/
def record (m m' last : Family Nat EsVal) : EsOp → EsRes → Family Nat EsVal
  | .insert i lblk len pblk status, .code none =>
      override last i lblk.toNat (lblk.toNat + len.toNat)
        (esView.val (mkEs lblk.toNat len.toNat pblk status))
  | .cache i lblk len pblk status, _ =>
      if (m i lblk.toNat).isNone && (m' i lblk.toNat).isSome then
        override last i lblk.toNat (lblk.toNat + len.toNat)
          (esView.val (mkEs lblk.toNat len.toNat pblk status))
      else last
  | _, _ => last

/-- A sequence of calls. -/
def run : List (EsEnv × EsOp) → EsState → Option EsState
  | [], st => some st
  | (env, op) :: rest, st =>
      match step env op st.sb with
      | none => none
      | some (res, sb') => run rest ⟨sb', record (esMap st.sb) (esMap sb') st.last op res⟩

/-- What holds in every state of a run. -/
structure RunInv (st : EsState) : Prop where
  inv : EsInv st.sb
  agrees : Agrees (esMap st.sb) st.last

theorem runInv_init : RunInv EsState.init := by
  refine ⟨⟨⟨⟨fun _ => rfl, fun _ => rfl, fun _ => ?_, List.nodup_nil, rfl⟩,
    fun _ => ⟨?_, .nil, List.nodup_nil⟩, ?_⟩, ?_⟩, ?_⟩
  · simp [EsState.init]
  · simp [EsState.init, root]
  · simp [EsState.init, root]
  · intro i a ha
    cases ha
  · intro j b v hv
    cases hv

/-- The ghost follows a call of `ext4_es_cache_extent`. -/
theorem agrees_cache {i lo len : Nat} {f : Nat → EsVal} (h : Agrees m last)
    (hm : CacheSpec m m' i lo (lo + len) f failed) :
    Agrees m' (if (m i lo).isNone && (m' i lo).isSome then override last i lo (lo + len) f
      else last) := by
  rcases hm with ⟨-, rfl⟩ | ⟨hnone, rfl | ⟨-, rfl⟩⟩
  · cases hmi : m' i lo <;> simpa [hmi] using h
  · split
    · refine h.override (fun b hb => .inl (override_in ⟨rfl, hb⟩)) fun j b hout => ?_
      exact .inl (override_out hout)
    · -- the call found the range empty and did not fill its first block: it has none
      rename_i hc
      refine h.of_eq_or_none fun j b => .inl (override_out ?_)
      rintro ⟨rfl, hb⟩
      have hlo : lo ≤ lo ∧ lo < lo + len := by omega
      rw [hnone lo hlo, override_in ⟨rfl, hlo⟩] at hc
      exact hc rfl
  · cases hmi : m' i lo <;> simpa [hmi] using h

theorem agrees_record {res : EsRes} (h : Agrees m last) (hm : op.Meets m m' failed res) :
    Agrees m' (record m m' last op res) := by
  cases op with
  | insert i lblk len pblk status =>
    match res, hm with
    | .code none, ⟨hK, hin⟩ =>
      refine h.override (fun b hb => ?_) fun j b hout => hK.eq_or_none hout
      rcases hin with hin | ⟨-, hin⟩
      · exact .inl (hin b hb)
      · exact .inr (hin b hb).1
    | .code (some e), ⟨_, _, hK, hin⟩ =>
      refine h.of_eq_or_none fun j b => ?_
      by_cases hr : j = i ∧ lblk.toNat ≤ b ∧ b < lblk.toNat + len.toNat
      · rw [hr.1]
        exact hin b hr.2
      · exact hK.eq_or_none hr
  | cache i lblk len pblk status =>
    match res, hm with
    | .void, hm => exact agrees_cache h hm
  | remove i lblk len =>
    match res, hm with
    | .code none, ⟨hK, hin⟩ =>
      refine h.of_eq_or_none fun j b => ?_
      by_cases hr : j = i ∧ lblk.toNat ≤ b ∧ b < lblk.toNat + len.toNat
      · rw [hr.1]
        exact .inr (hin b hr.2)
      · exact hK.eq_or_none hr
    | .code (some e), ⟨_, _, hK⟩ => exact h.of_eq_or_none fun j b => hK.eq_or_none trivial
  | lookup i lblk =>
    match res, hm with
    | .extent es, hm => exact hm.1 ▸ h
  | findDelayed i lblk last =>
    match res, hm with
    | .extent es, hm => exact hm ▸ h
  | reclaim i n =>
    match res, hm with
    | .count k, hK => exact h.of_eq_or_none fun j b => hK.eq_or_none trivial
  | shrink n =>
    match res, hm with
    | .count k, hK => exact h.of_eq_or_none fun j b => hK.eq_or_none trivial
  | setPrecached i on =>
    match res, hm with
    | .void, hm => exact hm ▸ h

theorem run_spec (steps : List (EsEnv × EsOp)) (hok : ∀ s ∈ steps, s.2.Ok) :
    ∀ st, RunInv st →
      (run steps st = none ∧ ∃ s ∈ steps, s.2.Bug) ∨
      ∃ st', run steps st = some st' ∧ RunInv st' := by
  induction steps with
  | nil => exact fun st h => .inr ⟨st, rfl, h⟩
  | cons s rest ih =>
    obtain ⟨env, op⟩ := s
    intro st h
    rcases step_spec env h.inv (hok (env, op) (by simp)) with ⟨hnone, hbug⟩ | hsome
    · left
      exact ⟨by rw [run, hnone], (env, op), by simp, hbug⟩
    · obtain ⟨res, sb', heq, hinv, hmeets⟩ := hsome
      have hrest := ih (fun s hs => hok s (by simp [hs]))
        ⟨sb', record (esMap st.sb) (esMap sb') st.last op res⟩
        ⟨hinv, agrees_record h.agrees hmeets⟩
      rw [run, heq]
      rcases hrest with ⟨hnone, s, hs, hbug⟩ | hrest
      · exact .inl ⟨hnone, s, by simp [hs], hbug⟩
      · exact .inr hrest

theorem RunInv.of_run {steps : List (EsEnv × EsOp)} {st : EsState} (hok : ∀ s ∈ steps, s.2.Ok)
    (hrun : run steps EsState.init = some st) : RunInv st := by
  rcases run_spec steps hok _ runInv_init with ⟨hnone, -⟩ | ⟨st', heq, h⟩
  · cases hnone.symm.trans hrun
  · cases heq.symm.trans hrun
    exact h

/-! ## The invariant of the trees -/

/-- The extent status tree of inode `i`, as the code relies on it. With
`in_file` the `BUG_ON` of `ext4_es_end` never fires. -/
structure EsTreeInv (sb : Ext4SbInfo) (i : Nat) : Prop where
  nonempty : ∀ e ∈ sb.root i, 0 < e.esLen
  in_file : ∀ e ∈ sb.root i, e.esLblk + e.esLen ≤ extMaxBlocks
  sorted : (sb.root i).Pairwise fun a b => a.esLblk < b.esLblk
  disjoint : (sb.root i).Pairwise fun a b => a.esLblk + a.esLen ≤ b.esLblk
  unmerged : (sb.root i).IsChain fun a b => ext4EsCanBeMerged a b = false
  cache_es : ∀ a, (sb.inodes i).iEsTree.cacheEs = some a → ∃ e ∈ sb.root i, e.addr = a
  all_nr : (sb.inodes i).iEsAllNr = (sb.root i).length
  shk_nr : (sb.inodes i).iEsShkNr = (sb.root i).countP fun e => !ext4EsIsDelayed e
  listed : i ∈ sb.sEsList ↔ 0 < (sb.inodes i).iEsShkNr

theorem EsInv.treeInv (h : EsInv sb) (i : Nat) : EsTreeInv sb i where
  nonempty := fun e he => ((h.tree i).entries e he).pos
  in_file := fun e he => ((h.tree i).entries e he).le_max
  sorted := by
    refine List.Pairwise.imp_of_mem (fun {a b} ha _ hab => ?_) (h.tree i).order
    have h1 := ((h.tree i).entries a ha).pos
    have h2 := hab.stop_le
    simp only [esStop] at h2
    omega
  disjoint := (h.tree i).order.imp fun hab => hab.stop_le
  unmerged := ((h.tree i).order.imp fun hab => hab.apart).isChain
  cache_es := h.cache i
  all_nr := h.acct.all i
  shk_nr := h.acct.shk i
  listed := h.acct.listed i

/-- **Every run keeps every tree in order.** A run ends early only in a
`BUG_ON` on the arguments of a call. -/
theorem run_keeps_trees (steps : List (EsEnv × EsOp)) (hok : ∀ s ∈ steps, s.2.Ok) :
    match run steps EsState.init with
    | none => ∃ s ∈ steps, s.2.Bug
    | some st => ∀ i, EsTreeInv st.sb i := by
  rcases run_spec steps hok _ runInv_init with ⟨hnone, hbug⟩ | ⟨st, heq, h⟩
  · rw [hnone]
    exact hbug
  · rw [heq]
    exact fun i => h.inv.treeInv i

/-- Ten written blocks, a removal from their middle that gets no memory for
the second half, and the same removal once more. -/
theorem run_keeps_trees_of_split :
    match run
      [(.unbalanced [], .insert 0 0#32 10#32 100#64 1#32),
       (.unbalanced [false], .remove 0 3#32 2#32),
       (.unbalanced [], .remove 0 3#32 2#32)] EsState.init with
    | none => False
    | some st => ∀ i, EsTreeInv st.sb i := by
  have h := run_keeps_trees
    [(.unbalanced [], .insert 0 0#32 10#32 100#64 1#32),
     (.unbalanced [false], .remove 0 3#32 2#32),
     (.unbalanced [], .remove 0 3#32 2#32)] (by
      intro s hs
      simp only [List.mem_cons, List.not_mem_nil, or_false] at hs
      rcases hs with rfl | rfl | rfl
      · exact ⟨by decide, by decide⟩
      · trivial
      · trivial)
  exact h

/-! ## The cache that the trees refine -/

/-- An insertion may return 0 and leave nothing behind: with no memory for
a node and nothing to reclaim, an extent that is not delayed is dropped. -/
theorem insert_returns_zero_without_entry :
    ∃ env sb', step env (.insert 0 0#32 1#32 7#64 1#32) EsState.init.sb
      = some (.code none, sb') ∧ esMap sb' 0 0 = none :=
  ⟨.unbalanced [false], _, rfl, rfl⟩

/-- **Every run is a run of a cache.** In any state that can be reached
the trees hold only values last inserted, and the next call — unless its
arguments stop the kernel — does to the map what its specification says;
a lookup reports values last inserted for every block of its extent. -/
theorem run_refines_cache (steps : List (EsEnv × EsOp)) (hok : ∀ s ∈ steps, s.2.Ok)
    (st : EsState) (hrun : run steps EsState.init = some st) (env : EsEnv) (op : EsOp)
    (hop : op.Ok) :
    Agrees (esMap st.sb) st.last ∧
    ((step env op st.sb = none ∧ op.Bug) ∨
      ∃ res sb', step env op st.sb = some (res, sb') ∧
        op.Meets (esMap st.sb) (esMap sb') (false ∈ env.allocs) res ∧
        Agrees (esMap sb') (record (esMap st.sb) (esMap sb') st.last op res) ∧
        ∀ i lblk es, op = .lookup i lblk → res = .extent (some es) →
          esView.Covers es lblk.toNat ∧
          ∀ c, esView.Covers es c → st.last i c = some (esView.val es c)) := by
  have hst := RunInv.of_run hok hrun
  refine ⟨hst.agrees, ?_⟩
  rcases step_spec env hst.inv hop with hbug | ⟨res, sb', heq, hinv, hmeets⟩
  · exact .inl hbug
  · refine .inr ⟨res, sb', heq, hmeets, agrees_record hst.agrees hmeets, ?_⟩
    rintro i lblk es rfl rfl
    obtain ⟨-, hcov, hval⟩ := hmeets
    exact ⟨hcov, fun c hc => hst.agrees i c _ (hval c hc)⟩

/-- A lookup in a tree with one entry. -/
theorem run_refines_cache_lookup :
    ∃ st, run [(.unbalanced [], .insert 0 0#32 10#32 100#64 1#32)]
        EsState.init = some st ∧
      ∃ sb', step (.unbalanced []) (.lookup 0 4#32) st.sb
          = some (.extent (some ⟨0, 0, 10, 0x0800000000000064#64⟩), sb') ∧
        st.last 0 4 = some (1#64, some 104) := by
  refine ⟨_, rfl, _, rfl, ?_⟩
  have h := run_refines_cache
    [(.unbalanced [], .insert 0 0#32 10#32 100#64 1#32)] (by
      intro s hs
      rw [List.mem_singleton.mp hs]
      exact ⟨by decide, by decide⟩) _ rfl (.unbalanced [])
    (.lookup 0 4#32) trivial
  obtain ⟨-, ⟨hnone, -⟩ | ⟨res, sb', heq, -, -, hlook⟩⟩ := h
  · cases hnone
  · cases heq
    exact (hlook 0 4#32 _ rfl rfl).2 4 (by decide)

end Ext4.ExtentsStatus
