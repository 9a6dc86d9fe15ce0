import Ext4.Mballoc.Runs
import Ext4.Mballoc.TrimWalk

/-!
# Multiblock allocator — what FITRIM has discarded

The mark of a group stands for "every free run of at least
`s_last_trim_minblks` clusters was discarded, and nothing was freed in the
group since". A call keeps this meaning if it covers the groups it visits as a
whole and does not change the minimum length behind the back of groups that
are marked.
-/

namespace Ext4.Mballoc

open Bitmap

/-! ## Blocks and clusters -/

variable {a b c g last len lo minlen n : Nat}

section Blocks

variable {sb : TrimSb}

theorem TrimSb.blocksPerGroup_eq (sb : TrimSb) :
    sb.blocksPerGroup = sb.geo.clustersPerGroup * 2 ^ sb.sClusterBits := Nat.shiftLeft_eq ..

theorem TrimSb.blocksPerGroup_pos (sb : TrimSb) : 0 < sb.blocksPerGroup := by
  rw [sb.blocksPerGroup_eq]
  exact Nat.mul_pos sb.clusters_pos (Nat.two_pow_pos _)

theorem TrimSb.blockNo_eq (sb : TrimSb) (g c : Nat) :
    sb.blockNo g c = sb.sFirstDataBlock + (g * sb.blocksPerGroup + c * 2 ^ sb.sClusterBits) := by
  rw [TrimSb.blockNo, Nat.shiftLeft_eq, Nat.add_assoc]

theorem groupNoAndOffset_blockNo (hc : c < sb.geo.clustersPerGroup) :
    ext4GetGroupNoAndOffset sb (sb.blockNo g c) = (g, c) := by
  have hlt : c * 2 ^ sb.sClusterBits < sb.blocksPerGroup := by
    rw [sb.blocksPerGroup_eq]
    exact Nat.mul_lt_mul_of_pos_right hc (Nat.two_pow_pos _)
  have hoff : sb.blockNo g c - sb.sFirstDataBlock
      = c * 2 ^ sb.sClusterBits + sb.blocksPerGroup * g := by
    rw [sb.blockNo_eq, Nat.add_sub_cancel_left, Nat.add_comm, Nat.mul_comm g]
  rw [ext4GetGroupNoAndOffset, hoff, Nat.add_mul_div_left _ _ sb.blocksPerGroup_pos,
    Nat.div_eq_of_lt hlt, Nat.zero_add, Nat.add_mul_mod_self_left, Nat.mod_eq_of_lt hlt,
    Nat.shiftRight_eq_div_pow, Nat.mul_div_cancel _ (Nat.two_pow_pos _)]

theorem cluster_lt (sb : TrimSb) (b : Nat) :
    (ext4GetGroupNoAndOffset sb b).2 < sb.geo.clustersPerGroup := by
  show ((b - sb.sFirstDataBlock) % sb.blocksPerGroup) >>> sb.sClusterBits < _
  rw [Nat.shiftRight_eq_div_pow]
  refine Nat.div_lt_of_lt_mul ?_
  rw [Nat.mul_comm, ← sb.blocksPerGroup_eq]
  exact Nat.mod_lt _ sb.blocksPerGroup_pos

/-- Blocks in order are in groups in order, and in clusters in order in one
group. -/
theorem groupNoAndOffset_mono (sb : TrimSb) {b' : Nat} (h : b ≤ b') :
    (ext4GetGroupNoAndOffset sb b).1 ≤ (ext4GetGroupNoAndOffset sb b').1
      ∧ ((ext4GetGroupNoAndOffset sb b).1 = (ext4GetGroupNoAndOffset sb b').1 →
        (ext4GetGroupNoAndOffset sb b).2 ≤ (ext4GetGroupNoAndOffset sb b').2) := by
  have hle : b - sb.sFirstDataBlock ≤ b' - sb.sFirstDataBlock := Nat.sub_le_sub_right h _
  refine ⟨Nat.div_le_div_right hle, fun heq => ?_⟩
  have hdiv : (b - sb.sFirstDataBlock) / sb.blocksPerGroup
      = (b' - sb.sFirstDataBlock) / sb.blocksPerGroup := heq
  have h1 := Nat.div_add_mod (b - sb.sFirstDataBlock) sb.blocksPerGroup
  have h2 := Nat.div_add_mod (b' - sb.sFirstDataBlock) sb.blocksPerGroup
  rw [hdiv] at h1
  show ((b - sb.sFirstDataBlock) % sb.blocksPerGroup) >>> sb.sClusterBits
    ≤ ((b' - sb.sFirstDataBlock) % sb.blocksPerGroup) >>> sb.sClusterBits
  rw [Nat.shiftRight_eq_div_pow, Nat.shiftRight_eq_div_pow]
  exact Nat.div_le_div_right (by omega)

theorem lowEnd_le (hc : c < sb.geo.clustersPerGroup) (h : b ≤ sb.blockNo g c) :
    (ext4GetGroupNoAndOffset sb b).1 ≤ g
      ∧ lowEnd (ext4GetGroupNoAndOffset sb b).1 (ext4GetGroupNoAndOffset sb b).2 g ≤ c := by
  have hmono := groupNoAndOffset_mono sb h
  rw [groupNoAndOffset_blockNo hc] at hmono
  refine ⟨hmono.1, ?_⟩
  rw [lowEnd]
  split
  · rename_i heq
    exact hmono.2 heq.symm
  · exact Nat.zero_le c

theorem lt_highEnd (hc : c < sb.geo.clustersPerGroup) (h : sb.blockNo g c ≤ b) :
    g ≤ (ext4GetGroupNoAndOffset sb b).1
      ∧ c < highEnd sb.geo (ext4GetGroupNoAndOffset sb b).1 (ext4GetGroupNoAndOffset sb b).2 g := by
  have hmono := groupNoAndOffset_mono sb h
  rw [groupNoAndOffset_blockNo hc] at hmono
  refine ⟨hmono.1, ?_⟩
  rw [highEnd]
  split
  · omega
  · exact hc

theorem last_cluster {x : Nat} (h : (x + 1) % sb.blocksPerGroup = 0)
    (hc : c < sb.geo.clustersPerGroup) : c ≤ (x % sb.blocksPerGroup) >>> sb.sClusterBits := by
  have hpos := sb.blocksPerGroup_pos
  have hlt := Nat.mod_lt x hpos
  have hmod : x % sb.blocksPerGroup + 1 = sb.blocksPerGroup := by
    by_contra hne
    rw [Nat.add_mod, Nat.mod_eq_of_lt (show 1 < sb.blocksPerGroup by omega),
      Nat.mod_eq_of_lt (show _ < sb.blocksPerGroup by omega)] at h
    nomatch h
  have hcl := Nat.two_pow_pos sb.sClusterBits
  have hle : (c + 1) * 2 ^ sb.sClusterBits ≤ sb.blocksPerGroup := by
    rw [sb.blocksPerGroup_eq]
    exact Nat.mul_le_mul_right _ hc
  rw [Nat.shiftRight_eq_div_pow, Nat.le_div_iff_mul_le hcl]
  rw [Nat.succ_mul] at hle
  omega

theorem numB2C_le {bytes : Nat} (h : bytes ≤ n <<< sb.sClusterBits <<< sb.sBlocksizeBits) :
    sb.numB2C (bytes >>> sb.sBlocksizeBits) ≤ n := by
  rw [Nat.shiftLeft_eq, Nat.shiftLeft_eq] at h
  have hblk : bytes >>> sb.sBlocksizeBits ≤ n * 2 ^ sb.sClusterBits := by
    rw [Nat.shiftRight_eq_div_pow]
    exact Nat.div_le_of_le_mul (by rw [Nat.mul_comm]; exact h)
  rw [TrimSb.numB2C, Nat.shiftRight_eq_div_pow (_ - 1)]
  refine Nat.le_of_lt_succ (Nat.div_lt_of_lt_mul ?_)
  have hpos := Nat.two_pow_pos sb.sClusterBits
  rw [Nat.mul_succ, Nat.mul_comm]
  omega

end Blocks

/-! ## A call -/

/-- What holds between the calls. -/
structure TrimInv (sb : TrimSb) (st : TrimState) : Prop where
  sane : Sane sb.geo st
  inside : ∀ g c, Free sb.geo (st.groups g).e4b.bdBitmap c → sb.blockNo g c < sb.blocksCount
  superblock : ¬ Free sb.geo (st.groups 0).e4b.bdBitmap 0
  clean : ∀ g, (st.groups g).wasTrimmed = true →
    Swept sb.geo st g 0 sb.geo.clustersPerGroup st.sLastTrimMinblks

/-- The clusters of the run were passed to the discard operation since the
last time one of them was freed. -/
def RunDiscarded (st : TrimState) (group start len : Nat) : Prop :=
  ∀ c, InRange start len c → DiscardedSince group start len c st.log

/-- The run `[start, start + len)` of a group is inside the range, in bytes, and
not shorter than its minimum length. -/
def FstrimRange.Asks (sb : TrimSb) (range : FstrimRange) (group start len : Nat) : Prop :=
  range.start ≤ sb.blockNo group start <<< sb.sBlocksizeBits
    ∧ sb.blockNo group (start + len) <<< sb.sBlocksizeBits ≤ range.start + range.len
    ∧ range.minlen ≤ len <<< sb.sClusterBits <<< sb.sBlocksizeBits

/-- The parts of a block at both ends of the range do not make up a block. -/
def FstrimRange.Aligned (sb : TrimSb) (range : FstrimRange) : Prop :=
  range.start % 2 ^ sb.sBlocksizeBits + range.len % 2 ^ sb.sBlocksizeBits < 2 ^ sb.sBlocksizeBits

/-- The blocks of the range are whole groups, the last one as far as the file
system reaches. -/
def FstrimRange.WholeGroups (sb : TrimSb) (range : FstrimRange) : Prop :=
  let start := range.start >>> sb.sBlocksizeBits
  let fin := start + range.len >>> sb.sBlocksizeBits
  (max sb.sFirstDataBlock start - sb.sFirstDataBlock) % sb.blocksPerGroup = 0
    ∧ (sb.blocksCount ≤ fin ∨ (fin - sb.sFirstDataBlock) % sb.blocksPerGroup = 0)

/-- The blocks of the range are the whole file system. -/
def FstrimRange.WholeFs (sb : TrimSb) (range : FstrimRange) : Prop :=
  range.start >>> sb.sBlocksizeBits ≤ sb.sFirstDataBlock
    ∧ sb.blocksCount ≤ range.start >>> sb.sBlocksizeBits + range.len >>> sb.sBlocksizeBits

/-- A call that leaves the marks their meaning: it is not killed, it visits
whole groups, it does not raise the minimum length and then fail, and it does
not lower the minimum length for a part of the groups. -/
structure SteadyTrim (sb : TrimSb) (st : TrimState) (env : TrimEnv) (range : FstrimRange) :
    Prop where
  signal : ∀ g c, env.signal g c = false
  groups : range.WholeGroups sb
  raises : sb.numB2C (range.minlen >>> sb.sBlocksizeBits) ≤ st.sLastTrimMinblks ∨ env.Quiet
  lowers : st.sLastTrimMinblks ≤ sb.numB2C (range.minlen >>> sb.sBlocksizeBits) ∨ range.WholeFs sb

section Call

variable {sb : TrimSb} {env : TrimEnv} {st st' : TrimState} {range : FstrimRange}

/-- The first and the last cluster of a run that the range asks for. -/
theorem FstrimRange.Asks.blocks (h : range.Asks sb g a n) (hal : range.Aligned sb)
    (hn : 0 < n) : range.start >>> sb.sBlocksizeBits ≤ sb.blockNo g a
      ∧ sb.blockNo g (a + n - 1) + 1
        ≤ range.start >>> sb.sBlocksizeBits + range.len >>> sb.sBlocksizeBits := by
  obtain ⟨h1, h2, -⟩ := h
  have hpos := Nat.two_pow_pos sb.sBlocksizeBits
  rw [Nat.shiftLeft_eq] at h1 h2
  rw [Nat.shiftRight_eq_div_pow, Nat.shiftRight_eq_div_pow]
  refine ⟨Nat.div_le_of_le_mul (by rw [Nat.mul_comm]; exact h1), ?_⟩
  have hlast : sb.blockNo g (a + n - 1) + 1 ≤ sb.blockNo g (a + n) := by
    have hcl := Nat.two_pow_pos sb.sClusterBits
    have hsucc : (a + n) * 2 ^ sb.sClusterBits
        = (a + n - 1) * 2 ^ sb.sClusterBits + 2 ^ sb.sClusterBits := by
      rw [← Nat.succ_mul]
      congr 1
      omega
    rw [sb.blockNo_eq, sb.blockNo_eq, hsucc]
    omega
  have hsum : (range.start + range.len) / 2 ^ sb.sBlocksizeBits
      = range.start / 2 ^ sb.sBlocksizeBits + range.len / 2 ^ sb.sBlocksizeBits := by
    rw [Nat.add_div hpos, if_neg (Nat.not_le_of_lt hal), Nat.add_zero]
  rw [← hsum]
  exact (Nat.le_div_iff_mul_le hpos).mpr (Nat.le_trans (Nat.mul_le_mul_right _ hlast) h2)

theorem FstrimRange.WholeGroups.swept (hw : range.WholeGroups sb) (hs : Sane sb.geo st)
    (hinside : ∀ g c, Free sb.geo (st.groups g).e4b.bdBitmap c → sb.blockNo g c < sb.blocksCount)
    {start last g minlen : Nat}
    (hstart : start = max sb.sFirstDataBlock (range.start >>> sb.sBlocksizeBits))
    (hlast : last + 1
      = min sb.blocksCount (range.start >>> sb.sBlocksizeBits + range.len >>> sb.sBlocksizeBits))
    (hlt : sb.sFirstDataBlock < last)
    (h : Swept sb.geo st g
      (lowEnd (ext4GetGroupNoAndOffset sb start).1 (ext4GetGroupNoAndOffset sb start).2 g)
      (highEnd sb.geo (ext4GetGroupNoAndOffset sb last).1 (ext4GetGroupNoAndOffset sb last).2 g)
      minlen) : Swept sb.geo st g 0 sb.geo.clustersPerGroup minlen := by
  obtain ⟨hw1, hw2⟩ := hw
  have hlow : lowEnd (ext4GetGroupNoAndOffset sb start).1 (ext4GetGroupNoAndOffset sb start).2 g
      = 0 := by
    rw [lowEnd]
    split
    · show ((start - sb.sFirstDataBlock) % sb.blocksPerGroup) >>> sb.sClusterBits = 0
      rw [hstart, hw1, Nat.zero_shiftRight]
    · rfl
  intro a n _ _ hn hmin hfree
  have hend := hfree (a + n - 1) ⟨by omega, by omega⟩
  have hcl := (hs.canon g).free_lt hend
  refine h a n (by omega) ?_ hn hmin hfree
  suffices hlt' : a + n - 1 < highEnd sb.geo (ext4GetGroupNoAndOffset sb last).1
      (ext4GetGroupNoAndOffset sb last).2 g by omega
  by_cases hfs : sb.blocksCount
      ≤ range.start >>> sb.sBlocksizeBits + range.len >>> sb.sBlocksizeBits
  · refine (lt_highEnd hcl ?_).2
    have := hinside g _ hend
    omega
  · rw [highEnd]
    split
    · refine Nat.lt_succ_of_le (last_cluster ?_ hcl)
      rw [show last - sb.sFirstDataBlock + 1
        = range.start >>> sb.sBlocksizeBits + range.len >>> sb.sBlocksizeBits - sb.sFirstDataBlock
        by omega]
      exact hw2.resolve_left hfs
    · exact hcl

theorem Looped.runDiscarded {start k : Nat}
    (h : Looped sb.geo env (ext4GetGroupNoAndOffset sb last).1 (ext4GetGroupNoAndOffset sb last).2
      minlen ((ext4GetGroupNoAndOffset sb last).1 + 1 - (ext4GetGroupNoAndOffset sb start).1)
      (ext4GetGroupNoAndOffset sb start).1 (ext4GetGroupNoAndOffset sb start).2 st (.ok k) st')
    (hn : 0 < n) (hmin : minlen ≤ n) (hfree : FreeRun sb.geo st' g a n)
    (h1 : start ≤ sb.blockNo g a) (h2 : sb.blockNo g (a + n - 1) ≤ last) :
    RunDiscarded st' g a n := by
  have hcl : a + n - 1 < sb.geo.clustersPerGroup :=
    (h.passed.sane.canon g).free_lt (hfree (a + n - 1) ⟨by omega, by omega⟩)
  obtain ⟨hg1, hlow⟩ := lowEnd_le (show a < sb.geo.clustersPerGroup by omega) h1
  obtain ⟨hg2, hhigh⟩ := lt_highEnd hcl h2
  intro c hc
  exact (h.swept k rfl g hg1 (by omega) a n hlow (by omega) hn hmin hfree c hc).part
    (Nat.zero_le a) (by omega)

/-- Groups the call did not visit have no free clusters, if the range is the
whole file system. -/
theorem swept_outside (start last : Nat) (hs : Sane sb.geo st)
    (hinside : ∀ g c, Free sb.geo (st.groups g).e4b.bdBitmap c → sb.blockNo g c < sb.blocksCount)
    {hi : Nat} (hstart : start ≤ sb.sFirstDataBlock) (hlast : sb.blocksCount ≤ last + 1)
    (hg : g < (ext4GetGroupNoAndOffset sb start).1
      ∨ (ext4GetGroupNoAndOffset sb last).1 + 1 ≤ g) : Swept sb.geo st g lo hi minlen := by
  intro a n _ _ hn _ hfree
  have ha := hfree a ⟨Nat.le_refl a, by omega⟩
  have hcl := (hs.canon g).free_lt ha
  have h1 := (lowEnd_le hcl (show start ≤ sb.blockNo g a by rw [sb.blockNo_eq]; omega)).1
  have h2 := (lt_highEnd hcl (show sb.blockNo g a ≤ last by have := hinside g a ha; omega)).1
  omega

theorem clip_last {count start : Nat} (h : start < count) (hlen : 0 < len) :
    (if count ≤ start + len - 1 then count - 1 else start + len - 1) + 1
      = min count (start + len) := by
  split <;> omega

theorem clip_start (first start : Nat) : (if start < first then first else start)
    = max first start := by
  split <;> omega

/-- The call returns. If it succeeds it has discarded what it was asked for,
and a steady call leaves the marks their meaning. -/
theorem trimFs_spec (h : TrimInv sb st) (env : TrimEnv) (range : FstrimRange) :
    ∃ r st', ext4TrimFs sb env range st = some (r, st')
      ∧ (∀ k, r = .ok k → range.Aligned sb → ∀ g a n, 0 < n → FreeRun sb.geo st' g a n →
        range.Asks sb g a n → RunDiscarded st' g a n)
      ∧ (SteadyTrim sb st env range → TrimInv sb st') := by
  rw [ext4TrimFs]
  dsimp only
  split
  · exact ⟨_, _, rfl, nofun, fun _ => h⟩
  rename_i hvalid
  simp only [not_or, Nat.not_le, Nat.not_lt] at hvalid
  obtain ⟨-, hcount, hlen⟩ := hvalid
  have hlenpos : 0 < range.len >>> sb.sBlocksizeBits := by
    rw [Nat.shiftRight_eq_div_pow]
    exact Nat.div_pos hlen (Nat.two_pow_pos _)
  generalize hlast : (if sb.blocksCount
      ≤ range.start >>> sb.sBlocksizeBits + range.len >>> sb.sBlocksizeBits - 1 then
      sb.blocksCount - 1
    else range.start >>> sb.sBlocksizeBits + range.len >>> sb.sBlocksizeBits - 1) = last
  have hlast' : last + 1 = min sb.blocksCount
      (range.start >>> sb.sBlocksizeBits + range.len >>> sb.sBlocksizeBits) := by
    rw [← hlast, clip_last hcount hlenpos]
  -- the last cluster of a run that is asked for
  have hend : ∀ {st' : TrimState} {g a n : Nat}, Passed sb.geo st st' → range.Aligned sb → 0 < n →
      FreeRun sb.geo st' g a n → range.Asks sb g a n → sb.blockNo g (a + n - 1) ≤ last := by
    intro st' g a n hp hal hn hfree hasks
    have h1 := (hasks.blocks hal hn).2
    have h2 := h.inside g _ (hp.freeRun hfree (a + n - 1) ⟨by omega, by omega⟩)
    omega
  split
  · refine ⟨_, _, rfl, fun k _ hal g a n hn hfree hasks => ?_, fun _ => h⟩
    -- nothing but the superblock is in front of the end of the range
    have hle := hend (Passed.refl h.sane) hal hn hfree hasks
    rw [sb.blockNo_eq] at hle
    have hpos := sb.blocksPerGroup_pos
    have hcl := Nat.two_pow_pos sb.sClusterBits
    have hg : g = 0 := by
      by_contra hne
      have := Nat.mul_pos (Nat.pos_of_ne_zero hne) hpos
      omega
    have ha : a = 0 := by
      by_contra hne
      have := Nat.mul_pos (show 0 < a + n - 1 by omega) hcl
      omega
    exact absurd (hfree 0 ⟨by omega, by omega⟩) (hg ▸ h.superblock)
  generalize hstart : (if range.start >>> sb.sBlocksizeBits < sb.sFirstDataBlock then
    sb.sFirstDataBlock else range.start >>> sb.sBlocksizeBits) = start
  have hstart' : start = max sb.sFirstDataBlock (range.start >>> sb.sBlocksizeBits) := by
    rw [← hstart, clip_start]
  have hgroups : (ext4GetGroupNoAndOffset sb start).1 ≤ (ext4GetGroupNoAndOffset sb last).1 :=
    (groupNoAndOffset_mono sb (by omega)).1
  obtain ⟨r, st1, heq, hl⟩ := trimGroups_spec env (sb.numB2C (range.minlen >>> sb.sBlocksizeBits))
    (cluster_lt sb last) (ext4GetGroupNoAndOffset sb start).1 (ext4GetGroupNoAndOffset sb start).2 0
      st
    h.sane (fun g _ => h.clean g)
  rw [heq]
  have hinside : ∀ g c, Free sb.geo (st1.groups g).e4b.bdBitmap c →
      sb.blockNo g c < sb.blocksCount := by
    intro g c hfree
    rw [hl.passed.bitmap g] at hfree
    exact h.inside g c hfree
  have hsuper : ¬ Free sb.geo (st1.groups 0).e4b.bdBitmap 0 := by
    rw [hl.passed.bitmap 0]
    exact h.superblock
  cases r with
  | error e =>
    refine ⟨_, _, rfl, nofun, fun hst => ⟨hl.passed.sane, hinside, hsuper, ?_⟩⟩
    intro g hmark
    rw [hl.passed.last]
    by_cases hg : (ext4GetGroupNoAndOffset sb start).1 ≤ g ∧ g ≤ (ext4GetGroupNoAndOffset sb last).1
    · rcases hl.mark hst.signal g hg.1 (by omega) hmark with hmark | hswept
      · exact (h.clean g hmark).passed hl.passed
      · have hraise := hst.raises.resolve_right (hl.quiet e rfl hst.signal)
        exact (hst.groups.swept hl.passed.sane hinside hstart' hlast' (by omega) hswept).le
          (Nat.le_refl _) (Nat.le_refl _) hraise
    · rw [hl.others g (by omega)] at hmark
      exact (h.clean g hmark).passed hl.passed
  | ok k =>
    refine ⟨_, _, rfl, fun _ _ hal g a n hn hfree hasks => ?_,
      fun hst => ⟨⟨hl.passed.sane.canon, hl.passed.sane.intact⟩, hinside, hsuper, ?_⟩⟩
    · refine hl.runDiscarded hn (numB2C_le hasks.2.2) hfree ?_ (hend hl.passed hal hn hfree hasks)
      have hfirst := (hasks.blocks hal hn).1
      rw [hstart']
      refine Nat.max_le.mpr ⟨?_, hfirst⟩
      rw [sb.blockNo_eq]
      exact Nat.le_add_right ..
    · intro g hmark
      by_cases hg : (ext4GetGroupNoAndOffset sb start).1 ≤ g
        ∧ g ≤ (ext4GetGroupNoAndOffset sb last).1
      · exact hst.groups.swept hl.passed.sane hinside hstart' hlast' (by omega)
          (hl.swept k rfl g hg.1 (by omega))
      · rcases hst.lowers with hle | ⟨hfs1, hfs2⟩
        · have hmark' : (st.groups g).wasTrimmed = true :=
            (hl.others g (by omega)).symm.trans hmark
          exact ((h.clean g hmark').passed hl.passed).le (Nat.le_refl _) (Nat.le_refl _) hle
        · exact swept_outside start last hl.passed.sane hinside (by omega) (by omega) (by omega)

end Call

/-! ## Runs -/

/-- The steps that leave the marks their meaning. -/
def TrimOp.Steady (sb : TrimSb) (st : TrimState) : TrimOp → Prop
  | .alloc _ _ _ => True
  | .free discard group _ _ => discard = true → (st.groups group).wasTrimmed = false
  | .release group _ _ => (st.groups group).wasTrimmed = false
  | .trim env range => SteadyTrim sb st env range

/-- Every step of the run is legal and steady in the state it finds. -/
def SteadyRun (sb : TrimSb) : List TrimOp → TrimState → Prop
  | [], _ => True
  | op :: ops, st => op.Legal sb st ∧ op.Steady sb st
      ∧ ∀ st', trimStep sb op st = some st' → SteadyRun sb ops st'

section Runs

variable {sb : TrimSb} {st : TrimState} {group start count : Nat}

theorem trimStep_alloc (h : TrimInv sb st) (hlegal : TrimOp.Legal sb st (.alloc group start len)) :
    ∃ st', trimStep sb (.alloc group start len) st = some st' ∧ TrimInv sb st' := by
  obtain ⟨ret, e4b, heq, hcanon, hbitmap, hintact⟩ :=
    mbMarkUsed_spec (h.sane.canon group) hlegal.1 hlegal.2
  have hsane : Sane sb.geo { st with
      groups := Function.update st.groups group ⟨e4b, (st.groups group).wasTrimmed⟩ } :=
    h.sane.update hcanon (hintact.trans (h.sane.intact group)) _ _
  -- fewer clusters are free than before
  have hfree : ∀ g c, Free sb.geo (Function.update st.groups group
      ⟨e4b, (st.groups group).wasTrimmed⟩ g).e4b.bdBitmap c
        → Free sb.geo (st.groups g).e4b.bdBitmap c := by
    refine (Function.forall_update_iff st.groups fun g grp => ∀ c, Free sb.geo grp.e4b.bdBitmap c →
      Free sb.geo (st.groups g).e4b.bdBitmap c).mpr ⟨fun c hc => ?_, fun _ _ _ hc => hc⟩
    rw [hbitmap] at hc
    exact (free_fill_true.mp hc).1
  have hmark : ∀ g, (Function.update st.groups group
      ⟨e4b, (st.groups group).wasTrimmed⟩ g).wasTrimmed = (st.groups g).wasTrimmed :=
    (Function.forall_update_iff st.groups fun g grp => grp.wasTrimmed
      = (st.groups g).wasTrimmed).mpr
      ⟨rfl, fun _ _ => rfl⟩
  refine ⟨_, by rw [trimStep, heq], hsane, fun g c hc => h.inside g c (hfree g c hc),
    fun hc => h.superblock (hfree 0 0 hc), fun g hg a n h1 h2 h3 h4 h5 => ?_⟩
  exact h.clean g ((hmark g).symm.trans hg) a n h1 h2 h3 h4 fun c hc => hfree g c (h5 c hc)

theorem discardedSince_other {log evs : List TrimEvent} (hg : g ≠ group)
    (hevs : ∀ ev ∈ evs, ev = .freed group start count ∨ ev = .discarded group start count)
    (h : DiscardedSince g lo len c log) : DiscardedSince g lo len c (evs ++ log) := by
  induction evs with
  | nil => exact h
  | cons ev evs ih =>
    have hrest := ih fun e he => hevs e (List.mem_cons_of_mem _ he)
    rcases hevs ev List.mem_cons_self with rfl | rfl
    · exact ⟨fun hf => hg hf.1.symm, hrest⟩
    · exact .inr hrest

/-- Clusters become free in a group whose mark is cleared, or was not set. -/
theorem freeInBuddy_spec {clear : Bool} {events : List TrimEvent} (h : TrimInv sb st)
    (hlegal : TrimOp.Legal sb st (.release group start count))
    (hmark : clear = false → (st.groups group).wasTrimmed = false)
    (hevents : ∀ ev ∈ events, ev = .freed group start count ∨ ev = .discarded group start count) :
    ∃ st', freeInBuddy sb.geo group start count clear events st = some st' ∧ TrimInv sb st' := by
  obtain ⟨hcount, hle, hused, hzero⟩ := hlegal
  obtain ⟨e4b, heq, hcanon, hbitmap, hintact⟩ := mbFreeBlocks_used (h.sane.canon group) hcount hle
    (h.sane.intact group) fun b hb => (hused b hb).1
  have hle0 : start + count ≤ sb.geo.sMbMaxs 0 := Nat.le_trans hle (clusters_le_maxs sb.geo)
  have hoff : ((st.groups group).wasTrimmed && !clear) = false := by
    cases clear with
    | false => rw [hmark rfl, Bool.false_and]
    | true => exact Bool.and_false _
  refine ⟨_, by rw [freeInBuddy, heq], h.sane.update hcanon hintact _ _, ?_, ?_, ?_⟩
  · refine (Function.forall_update_iff st.groups fun g grp => ∀ c, Free sb.geo grp.e4b.bdBitmap c →
      sb.blockNo g c < sb.blocksCount).mpr ⟨fun c hc => ?_, fun g _ => h.inside g⟩
    rw [hbitmap] at hc
    rcases (free_fill_false hle0).mp hc with hc | hc
    · exact h.inside group c hc
    · exact (hused c hc).2
  · intro hc
    by_cases hg : group = 0
    · subst hg
      dsimp only at hc
      rw [Function.update_self, hbitmap] at hc
      rcases (free_fill_false hle0).mp hc with hc | hc
      · exact h.superblock hc
      · exact hzero ⟨rfl, Nat.le_zero.mp hc.1⟩
    · dsimp only at hc
      rw [Function.update_of_ne (Ne.symm hg)] at hc
      exact h.superblock hc
  · intro g hset a n h1 h2 h3 h4 h5 c hc
    by_cases hg : g = group
    · subst hg
      dsimp only at hset
      rw [Function.update_self, hoff] at hset
      cases hset
    · dsimp only at hset
      rw [Function.update_of_ne hg] at hset
      refine discardedSince_other hg hevents (h.clean g hset a n h1 h2 h3 h4 (fun b hb => ?_) c hc)
      have := h5 b hb
      dsimp only at this
      rwa [Function.update_of_ne hg] at this

theorem trimStep_spec {op : TrimOp} (h : TrimInv sb st) (hlegal : op.Legal sb st)
    (hsteady : op.Steady sb st) : ∃ st', trimStep sb op st = some st' ∧ TrimInv sb st' := by
  cases op with
  | alloc group start len => exact trimStep_alloc h hlegal
  | free discard group start count =>
    refine freeInBuddy_spec h hlegal (fun hd => hsteady (by simpa using hd)) fun ev hev => ?_
    cases discard with
    | true => simpa [or_comm] using hev
    | false => exact .inl (List.mem_singleton.mp hev)
  | release group start count =>
    exact freeInBuddy_spec h hlegal (fun _ => hsteady) fun ev hev =>
      .inl (List.mem_singleton.mp hev)
  | trim env range =>
    obtain ⟨r, st', heq, -, hinv⟩ := trimFs_spec h env range
    exact ⟨st', by rw [trimStep, heq]; rfl, hinv hsteady⟩

theorem trimRun_spec {ops : List TrimOp} (h : TrimInv sb st) (hrun : SteadyRun sb ops st) :
    ∃ st', trimRun sb ops st = some st' ∧ TrimInv sb st' := by
  induction ops generalizing st with
  | nil => exact ⟨st, rfl, h⟩
  | cons op ops ih =>
    obtain ⟨st1, heq, h1⟩ := trimStep_spec h hrun.1 hrun.2.1
    obtain ⟨st2, heq2, h2⟩ := ih h1 (hrun.2.2 st1 heq)
    exact ⟨st2, by rw [trimRun, heq, Option.bind_some, heq2], h2⟩

/-- A file system that was just mounted: no group is marked. -/
structure TrimMounted (sb : TrimSb) (st : TrimState) : Prop where
  sane : Sane sb.geo st
  inside : ∀ g c, Free sb.geo (st.groups g).e4b.bdBitmap c → sb.blockNo g c < sb.blocksCount
  superblock : ¬ Free sb.geo (st.groups 0).e4b.bdBitmap 0
  unmarked : ∀ g, (st.groups g).wasTrimmed = false

theorem TrimMounted.inv (h : TrimMounted sb st) : TrimInv sb st :=
  ⟨h.sane, h.inside, h.superblock, fun g hg => by rw [h.unmarked g] at hg; nomatch hg⟩

/-- **FITRIM discards what it was asked for.** After any run of steady steps
the next call returns, and if it succeeds every free run of a group that lies
in its range and is long enough has been discarded since a cluster of the run
was freed. -/
theorem trim_run_discards (sb : TrimSb) (st : TrimState) (hst : TrimMounted sb st)
    (ops : List TrimOp) (hops : SteadyRun sb ops st) :
    ∃ st₁, trimRun sb ops st = some st₁ ∧ ∀ env range, range.Aligned sb →
      ∃ r st₂, ext4TrimFs sb env range st₁ = some (r, st₂) ∧ ∀ k, r = .ok k →
        ∀ g a n, 0 < n → FreeRun sb.geo st₂ g a n → range.Asks sb g a n
          → RunDiscarded st₂ g a n := by
  obtain ⟨st₁, heq, hinv⟩ := trimRun_spec hst.inv hops
  refine ⟨st₁, heq, fun env range hal => ?_⟩
  obtain ⟨r, st₂, heq2, hdone, -⟩ := trimFs_spec hinv env range
  exact ⟨r, st₂, heq2, fun k hk => hdone k hk hal⟩

end Runs

/-- A file system with one group of eight clusters, of one block each. -/
def smallTrimSb : TrimSb := ⟨⟨1, 8, Nat.one_pos, by decide⟩, by decide, 10, 0, 1, 9⟩

/-- All of them are free but the one with the superblock. -/
def smallTrimState : TrimState where
  groups g :=
    { e4b := ext4MbInitCache smallTrimSb.geo (fun b => decide (g ≠ 0 ∨ b = 0 ∨ 8 ≤ b))
        ⟨if g = 0 then 7 else 0, 0, 0, 0, fun _ => 0, false⟩
      wasTrimmed := false }
  sLastTrimMinblks := 0
  log := []

/-- No error and no signal. -/
def calmTrimEnv : TrimEnv := ⟨fun _ => none, fun _ => none, fun _ _ _ => .done, fun _ _ => false⟩

theorem smallTrim_padded (g : Nat) :
    Padded smallTrimSb.geo fun b => decide (g ≠ 0 ∨ b = 0 ∨ 8 ≤ b) :=
  fun _ hb _ => decide_eq_true (.inr (.inr hb))

theorem smallTrimState_free :
    Free smallTrimSb.geo (smallTrimState.groups g).e4b.bdBitmap c ↔ g = 0 ∧ 0 < c ∧ c < 8 := by
  have hbitmap : (smallTrimState.groups g).e4b.bdBitmap
      = fun b => decide (g ≠ 0 ∨ b = 0 ∨ 8 ≤ b) := (ext4MbInitCache_spec (smallTrim_padded g) _).2.1
  have hmax : smallTrimSb.geo.sMbMaxs 0 = 16 := rfl
  rw [Free, hbitmap, hmax, decide_eq_false_iff_not]
  omega

theorem smallTrimState_mounted : TrimMounted smallTrimSb smallTrimState := by
  refine ⟨⟨fun g => (ext4MbInitCache_spec (smallTrim_padded g) _).1, fun g => ?_⟩, fun g c hc => ?_,
    fun hc => ?_, fun _ => rfl⟩
  · refine (ext4MbInitCache_spec (smallTrim_padded g) _).2.2 ?_
    by_cases hg : g = 0
    · subst hg
      have hnot : ∀ i, ¬ (0 < i ∧ i < 8) →
          ¬ Free smallTrimSb.geo (fun b => decide ((0 : Nat) ≠ 0 ∨ b = 0 ∨ 8 ≤ b)) i := by
        intro i hi hc
        have := of_decide_eq_false hc.2
        omega
      have h1 := cnt_extend_none (n := 0) 1 fun i _ h => hnot i (by omega)
      have h2 := cnt_extend_all (n := 0 + 1) (p := Free smallTrimSb.geo fun b =>
          decide ((0 : Nat) ≠ 0 ∨ b = 0 ∨ 8 ≤ b)) 7 fun i h1 h2 =>
        ⟨Nat.lt_of_lt_of_le h2 (by decide), decide_eq_false (by omega)⟩
      have h3 := cnt_extend_none (n := 0 + 1 + 7) 8 fun i h _ => hnot i (by omega)
      exact (h3.trans (h2.trans (by rw [h1]; rfl))).symm
    · rw [if_neg hg, cnt_false fun i _ hc => ?_]
      have := of_decide_eq_false hc.2
      omega
  · obtain ⟨rfl, h1, h2⟩ := smallTrimState_free.mp hc
    rw [smallTrimSb.blockNo_eq]
    show 1 + (0 * 8 + c * 1) < 9
    omega
  · exact absurd (smallTrimState_free.mp hc).2.1 (Nat.lt_irrefl 0)

/-- Three clusters are allocated, then the file system is trimmed. -/
theorem trim_run_discards_small :
    ∃ st₁, trimRun smallTrimSb [.alloc 0 2 3, .trim calmTrimEnv ⟨0, 9216, 2048⟩] smallTrimState
        = some st₁ ∧
      ∃ r st₂, ext4TrimFs smallTrimSb calmTrimEnv ⟨1024, 6144, 2048⟩ st₁ = some (r, st₂) ∧
        ∀ k, r = .ok k → ∀ g a n, 0 < n → FreeRun smallTrimSb.geo st₂ g a n →
          FstrimRange.Asks smallTrimSb ⟨1024, 6144, 2048⟩ g a n → RunDiscarded st₂ g a n := by
  have hops : SteadyRun smallTrimSb [.alloc 0 2 3, .trim calmTrimEnv ⟨0, 9216, 2048⟩]
      smallTrimState := by
    refine ⟨⟨by decide, fun c hc => ?_⟩, trivial, fun st' _ => ⟨trivial, ?_, fun _ _ => trivial⟩⟩
    · rw [InRange] at hc
      exact smallTrimState_free.mpr ⟨rfl, by omega, by omega⟩
    · exact ⟨fun _ _ => rfl, ⟨rfl, .inl (by decide)⟩,
        .inr ⟨fun _ => rfl, fun _ => rfl, by simp [calmTrimEnv]⟩,
        .inr ⟨by decide, by decide⟩⟩
  obtain ⟨st₁, heq, h⟩ := trim_run_discards smallTrimSb smallTrimState smallTrimState_mounted _ hops
  exact ⟨st₁, heq, h calmTrimEnv ⟨1024, 6144, 2048⟩ (by rw [FstrimRange.Aligned]; decide)⟩

/-- The blocks 1 to 3 are trimmed, then the whole file system. The second call
skips the group: of its free run, clusters 1 to 7, the last five were never
discarded. -/
theorem trim_skips_rest_of_group :
    ∃ k₁ st₁ k₂ st₂,
      ext4TrimFs smallTrimSb calmTrimEnv ⟨1024, 3072, 0⟩ smallTrimState = some (.ok k₁, st₁)
      ∧ ext4TrimFs smallTrimSb calmTrimEnv ⟨0, 9216, 0⟩ st₁ = some (.ok k₂, st₂)
      ∧ FreeRun smallTrimSb.geo st₂ 0 1 7 ∧ (st₂.groups 0).e4b.bdBitmap 0 = true
      ∧ FstrimRange.Asks smallTrimSb ⟨0, 9216, 0⟩ 0 1 7 ∧ ¬ RunDiscarded st₂ 0 1 7 := by
  have hcalls : ((ext4TrimFs smallTrimSb calmTrimEnv ⟨1024, 3072, 0⟩ smallTrimState).bind fun x =>
      (ext4TrimFs smallTrimSb calmTrimEnv ⟨0, 9216, 0⟩ x.2).map fun y =>
        (x.1.toOption, y.1.toOption, y.2.log, (y.2.groups 0).e4b.bdBitmap 0,
          (List.range 7).all fun i => !(y.2.groups 0).e4b.bdBitmap (1 + i)))
      = some (some 2048, some 0, [.discarded 0 1 2], true, true) := by
    decide +kernel
  obtain ⟨⟨r1, st₁⟩, heq1, hcalls⟩ := Option.bind_eq_some_iff.mp hcalls
  obtain ⟨⟨r2, st₂⟩, heq2, hobs⟩ := Option.map_eq_some_iff.mp hcalls
  simp only [Prod.mk.injEq] at hobs
  obtain ⟨hr1, hr2, hlog, hzero, hbits⟩ := hobs
  cases r1 with
  | error e => nomatch hr1
  | ok k₁ =>
    cases r2 with
    | error e => nomatch hr2
    | ok k₂ =>
      refine ⟨k₁, st₁, k₂, st₂, heq1, heq2, fun c hc => ?_, hzero,
        by rw [FstrimRange.Asks]; decide, fun h => ?_⟩
      · obtain ⟨i, rfl⟩ := Nat.exists_eq_add_of_le hc.1
        have hi : i < 7 := Nat.lt_of_add_lt_add_left hc.2
        have hbit := List.all_eq_true.mp hbits i (List.mem_range.mpr hi)
        exact ⟨Nat.lt_of_lt_of_le hc.2 (by decide), by simpa using hbit⟩
      · have h4 := h 4 ⟨by decide, by decide⟩
        rw [hlog] at h4
        rcases h4 with h4 | h4
        · exact absurd h4.2 (by decide)
        · exact h4

end Ext4.Mballoc
