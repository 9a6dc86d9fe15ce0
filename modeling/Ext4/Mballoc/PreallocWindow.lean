import Ext4.Mballoc.FreedRuns
import Ext4.Mballoc.Prealloc

/-!
# The window of an inode preallocation — `ext4_mb_new_inode_pa`

Where less was found than the goal has, the preallocation is moved in front of
the request. The move is the smallest of three distances; the last one aligns
the preallocation to its own length, and the aligned end can lie behind the
goal. The move is subtracted in clusters from a logical block.
-/

namespace Ext4.Mballoc

/-- The request `o` lies in the goal `g`, and `b` was found: more than the
request but no more than the goal, as `ext4_mb_use_best_found` leaves it. -/
structure Normalized (fs : FsLayout) (o g b : Ext4FreeExtent) : Prop where
  start_le : g.feLogical ≤ o.feLogical
  stop_le : o.feLogical + fs.c2b o.feLen ≤ g.feLogical + fs.c2b g.feLen
  logical : b.feLogical = g.feLogical
  pos : 0 < o.feLen
  longer : o.feLen < b.feLen
  le_goal : b.feLen ≤ g.feLen
  aligned : fs.clusterRatio ∣ o.feLogical

/-- The smallest of the three distances, of which the last one counts only if
it is not 0. -/
def FsLayout.windowMove (fs : FsLayout) (o g b : Ext4FreeExtent) : Nat :=
  let win := min (o.feLogical - g.feLogical) (fs.c2b (b.feLen - o.feLen))
  if o.feLogical % fs.c2b b.feLen = 0 then win else min win (o.feLogical % fs.c2b b.feLen)

/-- The goal was found as a whole and begins with a cluster. Or less was found:
then, if a cluster is a block, the alignment does not make the move shorter or
the multiple of the length found that is behind the start of the request is in
the goal; and in larger clusters the move, counted in clusters, is a multiple
of the ratio and as long as what was found sticks out of the goal. -/
def WindowFits (fs : FsLayout) (o g b : Ext4FreeExtent) : Prop :=
  b.feLen = g.feLen ∧ fs.clusterRatio ∣ g.feLogical
    ∨ b.feLen < g.feLen ∧ fs.clusterRatio = 1 ∧ (b.feLen ∣ o.feLogical
      ∨ min (o.feLogical - g.feLogical) (b.feLen - o.feLen) ≤ o.feLogical % b.feLen
      ∨ (o.feLogical / b.feLen + 1) * b.feLen ≤ g.feLogical + g.feLen)
    ∨ b.feLen < g.feLen ∧ 1 < fs.clusterRatio
      ∧ fs.clusterRatio ∣ fs.numB2c (fs.windowMove o g b)
      ∧ o.feLogical + fs.c2b b.feLen
        ≤ g.feLogical + fs.c2b g.feLen + fs.numB2c (fs.windowMove o g b)

/-- A preallocation from `lstart` on begins in the goal and covers the request. -/
structure WindowAt (fs : FsLayout) (o g b : Ext4FreeExtent) (lstart : Nat) : Prop where
  goal_le : g.feLogical ≤ lstart
  le_request : lstart ≤ o.feLogical
  covers : o.feLogical + fs.c2b o.feLen ≤ lstart + fs.c2b b.feLen

variable {fs : FsLayout} {o g b : Ext4FreeExtent}

theorem FsLayout.numB2c_le (fs : FsLayout) (n : Nat) : fs.numB2c n ≤ n := by
  have hpos := fs.ratio_pos
  rw [FsLayout.numB2c]
  refine Nat.le_of_lt_succ ((Nat.div_lt_iff_lt_mul hpos).mpr ?_)
  have := Nat.le_mul_of_pos_right n hpos
  rw [Nat.succ_mul]
  omega

/-- The move keeps the window in front of the request and around it. -/
theorem windowMove_le (h : Normalized fs o g b) :
    fs.windowMove o g b ≤ o.feLogical - g.feLogical ∧
      fs.windowMove o g b + fs.c2b o.feLen ≤ fs.c2b b.feLen := by
  have hlen : fs.c2b (b.feLen - o.feLen) + fs.c2b o.feLen = fs.c2b b.feLen := by
    have := h.longer
    rw [FsLayout.c2b, FsLayout.c2b, ← Nat.add_mul, Nat.sub_add_cancel (by omega), FsLayout.c2b]
  unfold FsLayout.windowMove
  dsimp only
  split <;> omega

/-- If a cluster is a block, only the alignment can be too short a move. -/
theorem windowMove_one (h : Normalized fs o g b) (h1 : fs.clusterRatio = 1) :
    o.feLogical + b.feLen ≤ g.feLogical + g.feLen + fs.windowMove o g b ↔
      b.feLen ∣ o.feLogical
        ∨ min (o.feLogical - g.feLogical) (b.feLen - o.feLen) ≤ o.feLogical % b.feLen
        ∨ (o.feLogical / b.feLen + 1) * b.feLen ≤ g.feLogical + g.feLen := by
  have hone : ∀ x, fs.c2b x = x := fun x => by rw [FsLayout.c2b, h1, Nat.mul_one]
  obtain ⟨hstart, hstop, -, -, hlonger, hgoal, -⟩ := h
  have hdiv := Nat.div_add_mod' o.feLogical b.feLen
  unfold FsLayout.windowMove
  rw [hone, hone] at *
  rw [Nat.dvd_iff_mod_eq_zero, Nat.succ_mul]
  generalize o.feLogical / b.feLen * b.feLen = m at hdiv ⊢
  generalize o.feLogical % b.feLen = r at hdiv ⊢
  dsimp only
  split <;> omega

theorem paWindow_spec {ac : Ext4AllocationContext} (h : Normalized fs ac.acOEx ac.acGEx ac.acBEx) :
    ∃ lstart, paWindow fs ac = some lstart ∧ WindowAt fs ac.acOEx ac.acGEx ac.acBEx lstart ∧
      (lstart + fs.c2b ac.acBEx.feLen ≤ ac.acGEx.feLogical + fs.c2b ac.acGEx.feLen
        ∧ fs.clusterRatio ∣ lstart ↔ WindowFits fs ac.acOEx ac.acGEx ac.acBEx) := by
  rw [paWindow]
  generalize ac.acOEx = o at h ⊢
  generalize ac.acGEx = g at h ⊢
  generalize ac.acBEx = b at h ⊢
  obtain ⟨hstart, hstop, hlogical, -, hlonger, hgoal, haligned⟩ := id h
  split
  · rename_i hless
    rw [if_neg (by omega)]
    dsimp only
    have hmove : (if o.feLogical % fs.c2b b.feLen ≠ 0 ∧ o.feLogical % fs.c2b b.feLen
          < min (o.feLogical - g.feLogical) (fs.c2b (b.feLen - o.feLen))
        then o.feLogical % fs.c2b b.feLen
        else min (o.feLogical - g.feLogical) (fs.c2b (b.feLen - o.feLen)))
        = fs.windowMove o g b := by
      unfold FsLayout.windowMove
      dsimp only
      split <;> split <;> omega
    rw [hmove]
    obtain ⟨hwinl, hwins⟩ := windowMove_le h
    have hle := fs.numB2c_le (fs.windowMove o g b)
    refine ⟨_, rfl, ⟨by omega, Nat.sub_le _ _, by omega⟩, ?_⟩
    have hdvd : fs.clusterRatio ∣ o.feLogical - fs.numB2c (fs.windowMove o g b) ↔
        fs.clusterRatio ∣ fs.numB2c (fs.windowMove o g b) :=
      Nat.dvd_sub_iff_right (by omega) haligned
    have hin : o.feLogical - fs.numB2c (fs.windowMove o g b) + fs.c2b b.feLen
          ≤ g.feLogical + fs.c2b g.feLen ↔ o.feLogical + fs.c2b b.feLen
          ≤ g.feLogical + fs.c2b g.feLen + fs.numB2c (fs.windowMove o g b) := by
      omega
    rw [hdvd, hin, WindowFits]
    rcases Nat.eq_or_lt_of_le (show 1 ≤ fs.clusterRatio from fs.ratio_pos) with h1 | h1
    · have hone : ∀ x, fs.c2b x = x := fun x => by rw [FsLayout.c2b, ← h1, Nat.mul_one]
      have hnum : ∀ x, fs.numB2c x = x := fun x => by
        rw [FsLayout.numB2c, ← h1, Nat.add_sub_cancel, Nat.div_one]
      rw [← windowMove_one h h1.symm, hnum, hone, hone, ← h1]
      simp [hless, hless.ne]
    · simp [hless, hless.ne, h1, h1.ne', and_comm]
  · have heq : b.feLen = g.feLen := by omega
    refine ⟨_, rfl, ⟨hlogical.ge, hlogical ▸ hstart, by rwa [hlogical, heq]⟩, ?_⟩
    rw [hlogical, heq, WindowFits]
    simp [heq]

/-- A preallocation that covers the request serves it as a whole. -/
theorem ext4MbUseInodePa_covered (ac : Ext4AllocationContext) (p : Nat) (pa : Ext4PreallocSpace)
    (hpos : 0 < ac.acOEx.feLen) (hle : pa.paLstart ≤ ac.acOEx.feLogical)
    (hcov : ac.acOEx.feLogical + fs.c2b ac.acOEx.feLen ≤ pa.paLstart + fs.c2b pa.paLen)
    (hfree : (ac.acOEx.feLen : Int) ≤ pa.paFree) :
    ∃ ac' pa', ext4MbUseInodePa fs ac p pa = some (ac', pa')
      ∧ ac'.acBEx.feLen = ac.acOEx.feLen
        ∧ pa' = { pa with paFree := pa.paFree - ac.acOEx.feLen } := by
  have hr : (0 : Int) < fs.clusterRatio := by exact_mod_cast fs.ratio_pos
  have hstop : min ((pa.paPstart : Int) + fs.c2b pa.paLen)
        (pa.paPstart + (ac.acOEx.feLogical - pa.paLstart) + fs.c2b ac.acOEx.feLen)
      = pa.paPstart + (ac.acOEx.feLogical - pa.paLstart) + fs.c2b ac.acOEx.feLen := by
    omega
  have hlen : ((pa.paPstart : Int) + (ac.acOEx.feLogical - pa.paLstart) + fs.c2b ac.acOEx.feLen
      - (pa.paPstart + (ac.acOEx.feLogical - pa.paLstart)) + fs.clusterRatio - 1) / fs.clusterRatio
      = ac.acOEx.feLen := by
    rw [add_sub_cancel_left, FsLayout.c2b, Nat.cast_mul, add_sub_assoc,
      Int.add_comm, Int.add_mul_ediv_right _ _ hr.ne', Int.ediv_eq_zero_of_lt (by omega) (by omega),
      zero_add]
  rw [ext4MbUseInodePa, hstop, hlen, if_neg (by omega)]
  exact ⟨_, _, rfl, rfl, rfl⟩

/-- The preallocation covers what the request gets, lies in the goal and keeps
the offset within a cluster. -/
def PaInGoal (fs : FsLayout) (ac : Ext4AllocationContext) (p : Nat) : Prop :=
  ∃ ac' pa, ext4MbNewInodePa fs ac p = some (ac', pa)
    ∧ pa.paLstart ≤ ac.acOEx.feLogical
    ∧ ac.acOEx.feLogical + fs.c2b ac'.acBEx.feLen ≤ pa.paLstart + fs.c2b pa.paLen
    ∧ ac.acGEx.feLogical ≤ pa.paLstart
    ∧ pa.paLstart + fs.c2b pa.paLen ≤ ac.acGEx.feLogical + fs.c2b ac.acGEx.feLen
    ∧ pa.paLstart % fs.clusterRatio = pa.paPstart % fs.clusterRatio

/-- A context with a request of `len` clusters at `logical`, a goal of
`goalLen` clusters at `goal`, and `found` clusters from the first one on. -/
def foundContext (logical len goal goalLen found : Nat) : Ext4AllocationContext :=
  ⟨12, true, none, ⟨logical, 0, 0, len⟩, ⟨goal, 0, 0, goalLen⟩, ⟨goal, 0, 0, found⟩,
    ⟨goal, 0, 0, found⟩, none, none⟩

/-- Groups of 4096 clusters of `2 ^ bits` blocks. -/
def windowFs (bits : Nat) : FsLayout where
  toGeometry := ⟨12, 4096, by decide, by decide⟩
  clusterBits := bits
  firstDataBlock := 0
  clusters_pos := by decide
  bgBlockBitmap := id
  bgInodeBitmap := id
  bgInodeTable := id
  itbPerGroup := 0
  dataBlockValid := fun _ _ => true

end Ext4.Mballoc
