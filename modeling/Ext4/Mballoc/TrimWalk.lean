import Ext4.Mballoc.Trim

/-!
# Multiblock allocator — the groups of a FITRIM call

The walk of a group is finished when every free run that is long enough was
discarded; the walk leaves the buddy as it was. The loop over the groups of a
call then sweeps each of them between the ends of the range.
-/

namespace Ext4.Mballoc

open Bitmap

/-! ## The log -/

/-- The log grew by discards. -/
def Grows (log log' : List TrimEvent) : Prop :=
  ∃ evs, log' = evs ++ log ∧ ∀ ev ∈ evs, ∃ g s k, ev = .discarded g s k

theorem Grows.refl (log : List TrimEvent) : Grows log log := ⟨[], rfl, nofun⟩

theorem Grows.trans {l1 l2 l3 : List TrimEvent} (h : Grows l1 l2) (h' : Grows l2 l3) :
    Grows l1 l3 := by
  obtain ⟨e1, rfl, h1⟩ := h
  obtain ⟨e2, rfl, h2⟩ := h'
  exact ⟨e2 ++ e1, (List.append_assoc ..).symm, List.forall_mem_append.mpr ⟨h2, h1⟩⟩

variable {evs : List TrimEvent} {a lo' max next start : Nat}

section Log

variable {g lo len c : Nat} {log log' : List TrimEvent}

theorem DiscardedSince.grows (h : Grows log log') (hd : DiscardedSince g lo len c log) :
    DiscardedSince g lo len c log' := by
  obtain ⟨evs, rfl, hevs⟩ := h
  induction evs with
  | nil => exact hd
  | cons ev evs ih =>
    obtain ⟨g', s, k, rfl⟩ := hevs ev List.mem_cons_self
    exact .inr (ih fun e he => hevs e (List.mem_cons_of_mem _ he))

theorem DiscardedSince.part {len' : Nat} (h1 : lo ≤ lo') (h2 : lo' + len' ≤ lo + len)
    (hd : DiscardedSince g lo len c log) : DiscardedSince g lo' len' c log := by
  induction log with
  | nil => exact hd
  | cons ev log ih =>
    cases ev with
    | discarded g' s k =>
      rcases hd with hd | hd
      · exact .inl hd
      · exact .inr (ih hd)
    | freed g' s k =>
      refine ⟨fun ⟨h3, h4, h5⟩ => hd.1 ⟨h3, ?_, ?_⟩, ih hd.2⟩
      · omega
      · omega

end Log

/-! ## The walk of a group -/

section Walk

variable {geo : Geometry} {env : TrimEnv} {e4b : Ext4Buddy} {log : List TrimEvent}

theorem Canon.free_lt (h : Canon geo e4b) {b : Nat} (hb : Free geo e4b.bdBitmap b) :
    b < geo.clustersPerGroup := by
  by_contra hle
  have := h.padded b (by omega) hb.1
  rw [hb.2] at this
  nomatch this

theorem trimExtent_spec (env : TrimEnv) (log : List TrimEvent) (h : Canon geo e4b)
    (hok : e4b.bdInfo.bbitmapCorrupt = false) {group count : Nat} (hcount : 0 < count)
    (hfree : ∀ b, InRange start count b → Free geo e4b.bdBitmap b) :
    ∃ e4b', ext4TrimExtent geo env group start count e4b log
        = some (env.discard group start count, e4b', .discarded group start count :: log)
      ∧ Canon geo e4b' ∧ e4b'.bdInfo.bbitmapCorrupt = false ∧ e4b'.bdBitmap = e4b.bdBitmap := by
  obtain ⟨ret, e1, heq1, h1, hbm1, hok1⟩ := mbMarkUsed_spec h hcount hfree
  have hle : start + count ≤ geo.clustersPerGroup := by
    have := h.free_lt (hfree (start + count - 1) ⟨by omega, by omega⟩)
    omega
  have hused : ∀ b, InRange start count b → e1.bdBitmap b = true := by
    intro b hb
    rw [hbm1, fill_in hb]
  obtain ⟨e2, heq2, h2, hbm2, hok2⟩ := mbFreeBlocks_used h1 hcount hle (hok1.trans hok) hused
  refine ⟨e2, by rw [ext4TrimExtent, heq1]; dsimp only; rw [heq2], h2, hok2, ?_⟩
  funext b
  rw [hbm2, hbm1]
  by_cases hb : InRange start count b
  · rw [fill_in hb, (hfree b hb).2]
  · rw [fill_out hb, fill_out hb]

theorem cnt_run {m : Bits} {n : Nat} (ha : start ≤ a) (hfree : ∀ b, InRange a n b → Free geo m b) :
    cnt start (Free geo m) + n ≤ cnt (a + n) (Free geo m) := by
  rw [cnt_extend_all n fun i h1 h2 => hfree i ⟨h1, h2⟩]
  exact Int.add_le_add_right (cnt_mono ha) n

theorem Canon.run_le_free (h : Canon geo e4b) {n : Nat} (ha : start ≤ a)
    (hfree : ∀ b, InRange a n b → Free geo e4b.bdBitmap b) (hn : 0 < n) :
    cnt start (Free geo e4b.bdBitmap) + n ≤ e4b.bdInfo.bbFree := by
  have hlt := (hfree (a + n - 1) ⟨by omega, by omega⟩).1
  rw [h.free]
  exact Int.le_trans (cnt_run ha hfree) (cnt_mono (by omega))

/-- What a finished walk from `start` has to discard. -/
def Walked (geo : Geometry) (bitmap : Bits) (group start max minblocks : Nat)
    (evs : List TrimEvent) :
    Prop :=
  ∀ a n, start ≤ a → a + n ≤ max + 1 → 0 < n → minblocks ≤ n →
    (∀ b, InRange a n b → Free geo bitmap b) →
    ∀ c, InRange a n c → ∃ s k, .discarded group s k ∈ evs ∧ InRange s k c

/-- What a walk of a group leaves behind, `evs` being its discards. -/
structure WalkOk (geo : Geometry) (env : TrimEnv) (group start max minblocks : Nat)
    (e4b : Ext4Buddy) (ret : WalkEnd) (e4b' : Ext4Buddy) (evs : List TrimEvent) : Prop where
  canon : Canon geo e4b'
  intact : e4b'.bdInfo.bbitmapCorrupt = false
  bitmap : e4b'.bdBitmap = e4b.bdBitmap
  discards : ∀ ev ∈ evs, ∃ s k, ev = .discarded group s k
  walked : ret = .done → Walked geo e4b.bdBitmap group start max minblocks evs
  signalled : ret = .signalled → ∃ c, env.signal group c = true
  failed : ∀ code, ret = .failed code → ∃ s k, env.discard group s k = .err code

theorem trimmed_spec (env : TrimEnv) (log : List TrimEvent) (group minblocks : Nat)
    (h : Canon geo e4b) (hok : e4b.bdInfo.bbitmapCorrupt = false) (hlt : start < next)
    (hfree : ∀ b, InRange start (next - start) b → Free geo e4b.bdBitmap b) :
    ∃ ret e4b' evs,
      (if minblocks ≤ next - start then ext4TrimExtent geo env group start (next - start) e4b log
        else some (.done, e4b, log)) = some (ret, e4b', evs ++ log)
      ∧ Canon geo e4b' ∧ e4b'.bdInfo.bbitmapCorrupt = false ∧ e4b'.bdBitmap = e4b.bdBitmap
      ∧ (∀ ev ∈ evs, ∃ s k, ev = .discarded group s k)
      ∧ (minblocks ≤ next - start → .discarded group start (next - start) ∈ evs)
      ∧ ∀ code, ret = .err code → ∃ s k, env.discard group s k = .err code := by
  by_cases hmin : minblocks ≤ next - start
  · obtain ⟨e1, heq, h1, hok1, hbm1⟩ :=
      trimExtent_spec env log h hok (Nat.sub_pos_of_lt hlt) hfree
    refine ⟨_, e1, [.discarded group start (next - start)], by rw [if_pos hmin]; exact heq, h1,
      hok1,
      hbm1, fun _ hev => ⟨_, _, List.mem_singleton.mp hev⟩, fun _ => List.mem_singleton_self _,
      fun _ hcode => ⟨_, _, hcode⟩⟩
  · exact ⟨.done, e4b, [], by rw [if_neg hmin]; rfl, h, hok, rfl, nofun,
      fun hle => absurd hle hmin, nofun⟩

/-- A run behind the cursor is the one at the cursor or lies behind that. -/
theorem walked_cons {bitmap : Bits} {group first minblocks : Nat} (evs' : List TrimEvent)
    (hused : ∀ b, start ≤ b → b < first → bitmap b = true) (hnext : next ≤ max → bitmap next = true)
    (hlt : first < next)
    (hmem : minblocks ≤ next - first → .discarded group first (next - first) ∈ evs)
    (hrest : Walked geo bitmap group (next + 1) max minblocks evs') :
    Walked geo bitmap group start max minblocks (evs' ++ evs) := by
  intro a n ha hle hn hmin hfree c hc
  have hfirst : first ≤ a := by
    by_contra hlt
    have := hused a ha (by omega)
    rw [(hfree a ⟨Nat.le_refl a, by omega⟩).2] at this
    nomatch this
  have hnot : ¬ InRange a n next := by
    intro hin
    have := hnext (by have := hin.2; omega)
    rw [(hfree next hin).2] at this
    nomatch this
  rw [InRange] at hnot hc
  rcases Nat.lt_or_ge next a with hbehind | hfront
  · obtain ⟨s, k, hs, hin⟩ := hrest a n hbehind hle hn hmin hfree c hc
    exact ⟨s, k, List.mem_append_left _ hs, hin⟩
  · refine ⟨first, next - first, List.mem_append_right _ (hmem (by omega)), ?_⟩
    rw [InRange]
    omega

/-- The walk returns; the buddy is as before, and if the walk was finished
every run that is long enough was discarded. -/
theorem trimWalk_spec (env : TrimEnv) (group minblocks : Nat) {fuel : Nat} :
    ∀ (start count freeCount : Nat) (e4b : Ext4Buddy) (log : List TrimEvent), Canon geo e4b →
      e4b.bdInfo.bbitmapCorrupt = false → 0 < fuel → max + 1 < fuel + start →
      freeCount ≤ cnt start (Free geo e4b.bdBitmap) → max < geo.clustersPerGroup →
      ∃ ret count' e4b' evs,
        trimWalk geo env group max minblocks fuel start count freeCount e4b log
          = some (ret, count', e4b', evs ++ log)
        ∧ WalkOk geo env group start max minblocks e4b ret e4b' evs := by
  induction fuel with
  | zero => omega
  | succ fuel ih =>
    intro start count freeCount e4b log h hok _ hfuel hcount hmax
    rw [trimWalk]
    by_cases hstart : max < start
    · rw [if_pos hstart]
      exact ⟨.done, count, e4b, [], rfl, h, hok, rfl, by simp,
        fun _ a n ha hle hn => by omega, by simp, by simp⟩
    rw [if_neg hstart]
    dsimp only
    obtain ⟨hf1, hf2, hf3, hf4⟩ := findNext_spec e4b.bdBitmap false (show start ≤ max + 1 by omega)
    generalize findNext e4b.bdBitmap false (max + 1) start = first at *
    have hused : ∀ b, start ≤ b → b < first → e4b.bdBitmap b = true := hf3
    by_cases hfirst : max < first
    · rw [if_pos hfirst]
      refine ⟨.done, count, e4b, [], rfl, h, hok, rfl, by simp, ?_, by simp, by simp⟩
      intro _ a n ha hle hn _ hfree
      have := hused a ha (by omega)
      rw [(hfree a ⟨Nat.le_refl a, by omega⟩).2] at this
      nomatch this
    rw [if_neg hfirst]
    obtain ⟨hn1, hn2, hn3, hn4⟩ := findNext_spec e4b.bdBitmap true (show first ≤ max + 1 by omega)
    have hne : findNext e4b.bdBitmap true (max + 1) first ≠ first := by
      intro he
      rw [he, hf4 (by omega)] at hn4
      cases hn4 (by omega)
    generalize findNext e4b.bdBitmap true (max + 1) first = next at *
    have hlt : first < next := by omega
    have hclusters := clusters_le_maxs geo
    have hfree : ∀ b, InRange first (next - first) b → Free geo e4b.bdBitmap b := by
      intro b hb
      rw [InRange] at hb
      exact ⟨by omega, hn3 b hb.1 (by omega)⟩
    obtain ⟨ret, e1, evs, heq, h1, hok1, hbm1, hevs, hmem, hcode⟩ :=
      trimmed_spec env log group minblocks h hok hlt hfree
    rw [heq]
    have hnextCount : freeCount + (next - first : Nat) ≤ cnt (next + 1) (Free geo e1.bdBitmap) := by
      have hrun := cnt_run hf1 hfree
      have hright : cnt (first + (next - first)) (Free geo e4b.bdBitmap)
          ≤ cnt (next + 1) (Free geo e4b.bdBitmap) := cnt_mono (by omega)
      rw [hbm1]
      omega
    have hnext : next ≤ max → e4b.bdBitmap next = true := fun hle => hn4 (by omega)
    -- the turns behind this extent
    have hgo : ∀ count, ∃ ret count' e4b' evs',
        (if env.signal group (next + 1) then some (WalkEnd.signalled, count, e1, evs ++ log)
          else if e1.bdInfo.bbFree - (freeCount + (next - first) : Nat) < minblocks then
            some (.done, count, e1, evs ++ log)
          else trimWalk geo env group max minblocks fuel (next + 1) count
            (freeCount + (next - first)) e1 (evs ++ log))
          = some (ret, count', e4b', evs' ++ log)
        ∧ WalkOk geo env group start max minblocks e4b ret e4b' evs' := by
      intro count
      split
      · rename_i hsignal
        exact ⟨.signalled, count, e1, evs, rfl, h1, hok1, hbm1, hevs, by simp,
          fun _ => ⟨_, hsignal⟩, by simp⟩
      · split
        · rename_i hfew
          refine ⟨.done, count, e1, evs, rfl, h1, hok1, hbm1, hevs, fun _ => ?_,
            by simp, by simp⟩
          -- the free clusters left in the group are too few for another run
          refine walked_cons [] hused hnext hlt hmem fun a n ha _ hn hmin hrun => ?_
          rw [← hbm1] at hrun
          have := h1.run_le_free ha hrun hn
          push_cast at hfew
          omega
        · obtain ⟨ret', count', e2, evs', heq', hw⟩ := ih (next + 1) count
            (freeCount + (next - first)) e1 (evs ++ log) h1 hok1 (by omega) (by omega)
              (by push_cast; exact hnextCount) hmax
          refine ⟨ret', count', e2, evs' ++ evs, ?_, hw.canon, hw.intact, hw.bitmap.trans hbm1, ?_,
            ?_, hw.signalled, hw.failed⟩
          · rw [heq', List.append_assoc]
          · exact List.forall_mem_append.mpr ⟨hw.discards, hevs⟩
          · intro hret
            have hrest := hw.walked hret
            rw [hbm1] at hrest
            exact walked_cons evs' hused hnext hlt hmem hrest
    cases ret with
    | err code =>
      exact ⟨.failed code, count, e1, evs, rfl, h1, hok1, hbm1, hevs, by simp,
        by simp, fun c hret => by
          injection hret with hret
          exact hret ▸ hcode code rfl⟩
    | done => exact hgo _
    | eopnotsupp => exact hgo _

end Walk

/-! ## The groups of a call -/

/-- Every free run of `[lo, hi)` with at least `minlen` clusters was discarded,
and nothing was freed in the group since. -/
def Swept (geo : Geometry) (st : TrimState) (group lo hi minlen : Nat) : Prop :=
  ∀ a n, lo ≤ a → a + n ≤ hi → 0 < n → minlen ≤ n → FreeRun geo st group a n →
    ∀ c, InRange a n c → DiscardedSince group 0 geo.clustersPerGroup c st.log

/-- The buddies are what their bitmaps say. -/
structure Sane (geo : Geometry) (st : TrimState) : Prop where
  canon : ∀ g, Canon geo (st.groups g).e4b
  intact : ∀ g, (st.groups g).e4b.bdInfo.bbitmapCorrupt = false

/-- What FITRIM leaves alone. -/
structure Passed (geo : Geometry) (st st' : TrimState) : Prop where
  sane : Sane geo st'
  bitmap : ∀ g, (st'.groups g).e4b.bdBitmap = (st.groups g).e4b.bdBitmap
  last : st'.sLastTrimMinblks = st.sLastTrimMinblks
  log : Grows st.log st'.log

/-- A call that meets no error. -/
structure TrimEnv.Quiet (env : TrimEnv) : Prop where
  initGroup : ∀ g, env.initGroup g = none
  loadBuddy : ∀ g, env.loadBuddy g = none
  discard : ∀ g s k code, env.discard g s k ≠ .err code

section Groups

variable {geo : Geometry} {env : TrimEnv} {st st' st'' : TrimState} {group lo hi minlen : Nat}

theorem Passed.refl (h : Sane geo st) : Passed geo st st := ⟨h, fun _ => rfl, rfl, Grows.refl _⟩

theorem Passed.trans (h : Passed geo st st') (h' : Passed geo st' st'') : Passed geo st st'' :=
  ⟨h'.sane, fun g => (h'.bitmap g).trans (h.bitmap g), h'.last.trans h.last, h.log.trans h'.log⟩

theorem Passed.freeRun (h : Passed geo st st') {n : Nat} (hfree : FreeRun geo st' group a n) :
    FreeRun geo st group a n := by
  intro c hc
  rw [← h.bitmap group]
  exact hfree c hc

theorem Swept.passed (h : Passed geo st st') (hswept : Swept geo st group lo hi minlen) :
    Swept geo st' group lo hi minlen :=
  fun a n h1 h2 h3 h4 h5 c hc => (hswept a n h1 h2 h3 h4 (h.freeRun h5) c hc).grows h.log

theorem Swept.le {hi' minlen' : Nat} (hswept : Swept geo st group lo hi minlen) (h1 : lo ≤ lo')
    (h2 : hi' ≤ hi) (h3 : minlen ≤ minlen') : Swept geo st group lo' hi' minlen' :=
  fun a n ha hn hpos hmin =>
    hswept a n (Nat.le_trans h1 ha) (Nat.le_trans hn h2) hpos (Nat.le_trans h3 hmin)

theorem Swept.whole (hs : Sane geo st) (hswept : Swept geo st group 0 geo.clustersPerGroup minlen) :
    Swept geo st group lo hi minlen := by
  intro a n _ _ hpos hmin hfree
  refine hswept a n (Nat.zero_le a) ?_ hpos hmin hfree
  have := (hs.canon group).free_lt (hfree (a + n - 1) ⟨by omega, by omega⟩)
  omega

theorem swept_of_few (hs : Sane geo st) (h : (st.groups group).e4b.bdInfo.bbFree < minlen) :
    Swept geo st group lo hi minlen := by
  intro a n _ _ hpos hmin hfree
  have h1 := (hs.canon group).run_le_free (Nat.le_refl a) hfree hpos
  have h2 := cnt_nonneg a (Free geo (st.groups group).e4b.bdBitmap)
  omega

theorem Sane.update (hs : Sane geo st) {grp : TrimGroup} (hcanon : Canon geo grp.e4b)
    (hintact : grp.e4b.bdInfo.bbitmapCorrupt = false) (last : Nat) (log : List TrimEvent) :
    Sane geo ⟨Function.update st.groups group grp, last, log⟩ :=
  ⟨(Function.forall_update_iff st.groups fun _ grp => Canon geo grp.e4b).mpr
      ⟨hcanon, fun g _ => hs.canon g⟩,
    (Function.forall_update_iff st.groups fun _ grp => grp.e4b.bdInfo.bbitmapCorrupt = false).mpr
      ⟨hintact, fun g _ => hs.intact g⟩⟩

theorem passed_update (hs : Sane geo st) (wasTrimmed : Bool) {e4b : Ext4Buddy}
    (hcanon : Canon geo e4b) (hintact : e4b.bdInfo.bbitmapCorrupt = false)
    (hbitmap : e4b.bdBitmap = (st.groups group).e4b.bdBitmap)
    (hevs : ∀ ev ∈ evs, ∃ s k, ev = .discarded group s k) :
    Passed geo st { st with
      groups := Function.update st.groups group ⟨e4b, wasTrimmed⟩, log := evs ++ st.log } := by
  refine ⟨hs.update hcanon hintact _ _, ?_, rfl, evs, rfl, fun ev hev => ?_⟩
  · exact (Function.forall_update_iff st.groups fun g grp =>
      grp.e4b.bdBitmap = (st.groups g).e4b.bdBitmap).mpr ⟨hbitmap, fun _ _ => rfl⟩
  · exact ⟨group, hevs ev hev⟩

/-- The clusters of a discard are discarded since anything was freed. -/
theorem discardedSince_of_mem {log : List TrimEvent} {s k c lo len : Nat}
    (hevs : ∀ ev ∈ evs, ∃ s k, ev = .discarded group s k) (hmem : .discarded group s k ∈ evs)
    (hc : InRange s k c) : DiscardedSince group lo len c (evs ++ log) := by
  induction evs with
  | nil => nomatch hmem
  | cons ev evs ih =>
    obtain ⟨s', k', rfl⟩ := hevs ev List.mem_cons_self
    rcases List.mem_cons.mp hmem with heq | hmem
    · injection heq with _ hs hk
      exact .inl ⟨rfl, hs ▸ hk ▸ hc⟩
    · exact .inr (ih (fun e he => hevs e (List.mem_cons_of_mem _ he)) hmem)

/-- What a visit of one group comes to. -/
structure Visited (geo : Geometry) (env : TrimEnv) (group start max minblocks : Nat)
    (st : TrimState) (r : Except TrimErr Nat) (st' : TrimState) : Prop where
  passed : Passed geo st st'
  others : ∀ g, g ≠ group → (st'.groups g).wasTrimmed = (st.groups g).wasTrimmed
  swept : ∀ n, r = .ok n → Swept geo st' group start (max + 1) minblocks
  mark : ∀ e, r = .error e → (∀ c, env.signal group c = false) →
    (st'.groups group).wasTrimmed = (st.groups group).wasTrimmed
  quiet : ∀ e, r = .error e → (∀ c, env.signal group c = false) → ¬ env.Quiet

theorem trimAllFree_spec (env : TrimEnv) (start minblocks : Nat) (hs : Sane geo st)
    (hclean : (st.groups group).wasTrimmed = true →
      Swept geo st group 0 geo.clustersPerGroup st.sLastTrimMinblks)
    (hmax : max < geo.clustersPerGroup) :
    ∃ r st', ext4TrimAllFree geo env group start max minblocks st = some (r, st')
      ∧ Visited geo env group start max minblocks st r st' := by
  rw [ext4TrimAllFree]
  cases hload : env.loadBuddy group with
  | some code =>
    refine ⟨_, _, rfl, Passed.refl hs, fun _ _ => rfl, nofun, fun _ _ _ => rfl,
      fun _ _ _ hq => ?_⟩
    have := hq.loadBuddy group
    rw [hload] at this
    nomatch this
  | none =>
    dsimp only
    by_cases hskip : (st.groups group).wasTrimmed = true ∧ st.sLastTrimMinblks ≤ minblocks
    · rw [if_pos hskip]
      refine ⟨_, _, rfl, Passed.refl hs, fun _ _ => rfl, fun _ _ => ?_, nofun,
        nofun⟩
      exact Swept.whole hs ((hclean hskip.1).le (Nat.le_refl _) (Nat.le_refl _) hskip.2)
    rw [if_neg hskip]
    have hcnt := cnt_nonneg (if start < (st.groups group).e4b.bdInfo.bbFirstFree then
      (st.groups group).e4b.bdInfo.bbFirstFree else start) (Free geo (st.groups group).e4b.bdBitmap)
    obtain ⟨ret, count, e4b, evs, heq, hw⟩ := trimWalk_spec env group minblocks _ 0 0 _ st.log
      (hs.canon group) (hs.intact group) (Nat.succ_pos (max + 1)) (by omega) hcnt hmax
    rw [heq]
    have hpassed := fun mark =>
      passed_update hs mark hw.canon hw.intact hw.bitmap hw.discards
    have hothers : ∀ mark g, g ≠ group →
        (Function.update st.groups group ⟨e4b, mark⟩ g).wasTrimmed = (st.groups g).wasTrimmed := by
      intro mark g hg
      rw [Function.update_of_ne hg]
    cases ret with
    | done =>
      refine ⟨_, _, rfl, hpassed true, hothers true, fun _ _ => ?_, nofun,
        nofun⟩
      intro a n ha hle hpos hmin hfree c hc
      have hfree' := (hpassed true).freeRun hfree
      have hfirst : ¬ a < (st.groups group).e4b.bdInfo.bbFirstFree := fun hlt =>
        (hs.canon group).firstFree a hlt (hfree' a ⟨Nat.le_refl a, by omega⟩)
      obtain ⟨s, k, hmem, hin⟩ := hw.walked rfl a n (by split <;> omega) hle hpos hmin hfree' c hc
      exact discardedSince_of_mem hw.discards hmem hin
    | signalled =>
      obtain ⟨c, hc⟩ := hw.signalled rfl
      refine ⟨_, _, rfl, hpassed true, hothers true, nofun, fun _ _ h => ?_,
        fun _ _ h => ?_⟩
      · rw [h c] at hc
        nomatch hc
      · rw [h c] at hc
        nomatch hc
    | failed code =>
      obtain ⟨s, k, hcode⟩ := hw.failed code rfl
      refine ⟨_, _, rfl, hpassed _, hothers _, nofun, fun _ _ _ => ?_,
        fun _ _ _ hq => hq.discard _ _ _ _ hcode⟩
      dsimp only
      rw [Function.update_self]

/-- Where the clusters begin that a call looks at in a group. -/
def lowEnd (first firstCluster g : Nat) : Nat := if g = first then firstCluster else 0

/-- Where they end. -/
def highEnd (geo : Geometry) (lastGroup lastCluster g : Nat) : Nat :=
  if g = lastGroup then lastCluster + 1 else geo.clustersPerGroup

/-- What the loop over `n` groups comes to. -/
structure Looped (geo : Geometry) (env : TrimEnv)
    (lastGroup lastCluster minlen n first firstCluster : Nat)
    (st : TrimState) (r : Except TrimErr Nat) (st' : TrimState) : Prop where
  passed : Passed geo st st'
  others : ∀ g, g < first ∨ first + n ≤ g → (st'.groups g).wasTrimmed = (st.groups g).wasTrimmed
  swept : ∀ k, r = .ok k → ∀ g, first ≤ g → g < first + n →
    Swept geo st' g (lowEnd first firstCluster g) (highEnd geo lastGroup lastCluster g) minlen
  mark : (∀ g c, env.signal g c = false) → ∀ g, first ≤ g → g < first + n →
    (st'.groups g).wasTrimmed = true → (st.groups g).wasTrimmed = true
      ∨ Swept geo st' g (lowEnd first firstCluster g) (highEnd geo lastGroup lastCluster g) minlen
  quiet : ∀ e, r = .error e → (∀ g c, env.signal g c = false) → ¬ env.Quiet

section

variable {lastGroup lastCluster n first firstCluster : Nat} (hpassed : Passed geo st st')
  (hothers : ∀ g, g ≠ first → (st'.groups g).wasTrimmed = (st.groups g).wasTrimmed)

include hpassed hothers

theorem Looped.cons {r : Except TrimErr Nat}
    (hswept : Swept geo st' first firstCluster (highEnd geo lastGroup lastCluster first) minlen)
    (h : Looped geo env lastGroup lastCluster minlen n (first + 1) 0 st' r st'') :
    Looped geo env lastGroup lastCluster minlen (n + 1) first firstCluster st r st'' := by
  have hlow : ∀ g, first + 1 ≤ g → lowEnd first firstCluster g = lowEnd (first + 1) 0 g := by
    intro g hg
    rw [lowEnd, lowEnd, if_neg (by omega), ite_self]
  have hfirst : Swept geo st'' first (lowEnd first firstCluster first)
      (highEnd geo lastGroup lastCluster first) minlen := by
    rw [lowEnd, if_pos rfl]
    exact hswept.passed h.passed
  refine ⟨hpassed.trans h.passed, fun g hg => ?_, fun k hr g h1 h2 => ?_,
    fun hsig g h1 h2 hmark => ?_, h.quiet⟩
  · rw [h.others g (by omega), hothers g (by omega)]
  · rcases Nat.eq_or_lt_of_le h1 with rfl | hlt
    · exact hfirst
    · rw [hlow g hlt]
      exact h.swept k hr g hlt (by omega)
  · rcases Nat.eq_or_lt_of_le h1 with rfl | hlt
    · exact .inr hfirst
    · rw [hlow g hlt, ← hothers g (by omega)]
      exact h.mark hsig g hlt (by omega) hmark

theorem Looped.stop {e : TrimErr}
    (hmark : (∀ g c, env.signal g c = false) → ∀ g,
      (st'.groups g).wasTrimmed = (st.groups g).wasTrimmed)
    (hquiet : (∀ g c, env.signal g c = false) → ¬ env.Quiet) :
    Looped geo env lastGroup lastCluster minlen (n + 1) first firstCluster st (.error e) st' :=
  ⟨hpassed, fun g hg => hothers g (by omega), nofun,
    fun hsig g _ _ h => .inl (hmark hsig g ▸ h), fun _ _ => hquiet⟩

end

theorem trimGroups_spec (env : TrimEnv) (minlen : Nat) {lastGroup lastCluster : Nat}
    (hlast : lastCluster < geo.clustersPerGroup)
    {n : Nat} : ∀ (first firstCluster trimmed : Nat) (st : TrimState), Sane geo st →
      (∀ g, first ≤ g → (st.groups g).wasTrimmed = true →
        Swept geo st g 0 geo.clustersPerGroup st.sLastTrimMinblks) →
      ∃ r st', trimGroups geo env lastGroup lastCluster minlen n first firstCluster trimmed st
          = some (r, st')
        ∧ Looped geo env lastGroup lastCluster minlen n first firstCluster st r st' := by
  induction n with
  | zero =>
    intro first firstCluster trimmed st hs _
    exact ⟨_, _, rfl, Passed.refl hs, fun _ _ => rfl, fun _ _ g h1 h2 => by omega,
      fun _ g h1 h2 => by omega, nofun⟩
  | succ n ih =>
    intro first firstCluster trimmed st hs hclean
    rw [trimGroups]
    cases hinit : env.initGroup first with
    | some code =>
      refine ⟨_, _, rfl, Looped.stop (Passed.refl hs) (fun _ _ => rfl) (fun _ _ => rfl)
        fun _ hq => ?_⟩
      have := hq.initGroup first
      rw [hinit] at this
      nomatch this
    | none =>
      dsimp only
      by_cases hfew : (minlen : Int) ≤ (st.groups first).e4b.bdInfo.bbFree
      · rw [if_pos hfew]
        have hmax : (if first = lastGroup then lastCluster else geo.clustersPerGroup - 1)
            < geo.clustersPerGroup := by
          split <;> omega
        have hhigh : (if first = lastGroup then lastCluster else geo.clustersPerGroup - 1) + 1
            = highEnd geo lastGroup lastCluster first := by
          rw [highEnd]
          split
          · rfl
          · omega
        obtain ⟨r, st1, heq, hv⟩ := trimAllFree_spec env firstCluster minlen hs
          (hclean first (Nat.le_refl first)) hmax
        rw [heq]
        cases r with
        | error e =>
          refine ⟨_, _, rfl, Looped.stop hv.passed hv.others (fun hsig g => ?_)
            fun hsig => hv.quiet e rfl (hsig first)⟩
          by_cases hg : g = first
          · rw [hg]
            exact hv.mark e rfl (hsig first)
          · exact hv.others g hg
        | ok cnt =>
          obtain ⟨r, st2, heq2, h2⟩ := ih (first + 1) 0 (trimmed + cnt) st1 hv.passed.sane
            fun g hg hmark => by
              rw [hv.others g (by omega)] at hmark
              rw [hv.passed.last]
              exact (hclean g (by omega) hmark).passed hv.passed
          have hswept := hv.swept cnt rfl
          rw [hhigh] at hswept
          exact ⟨r, st2, heq2, Looped.cons hv.passed hv.others hswept h2⟩
      · rw [if_neg hfew]
        obtain ⟨r, st2, heq2, h2⟩ := ih (first + 1) 0 trimmed st hs
          fun g hg => hclean g (by omega)
        exact ⟨r, st2, heq2, Looped.cons (Passed.refl hs) (fun _ _ => rfl)
          (swept_of_few hs (by omega)) h2⟩

end Groups

end Ext4.Mballoc
