import Mathlib.Algebra.Group.Nat.Defs
import Mathlib.Tactic.Common

/-!
# Multiple mount protection

Two nodes share a device. A node that mounts runs `ext4_multi_mount_protect`
(mmp.c): it watches the MMP block for a while, writes a random sequence number
and looks whether that number is still there some time later. Then `kmmpd`
writes a new sequence number again and again, until it is stopped by the unmount
or by a remount, or finds the file system read-only. All of these mark the block
clean, and after the last two the node is still mounted.

The steps of both nodes interleave in any way. Reads and writes of the block
are single steps; time is in jiffies and passes between the steps. A sleep
is over when the time has come, or later.
-/

namespace Ext4.Mmp

/-- `EXT4_MMP_SEQ_CLEAN`. -/
def seqClean : Nat := 0xFF4D4D50

/-- `EXT4_MMP_SEQ_FSCK`. -/
def seqFsck : Nat := 0xE24D4D50

/-- `EXT4_MMP_SEQ_MAX`. -/
def seqMax : Nat := 0xE24D4D4F

/-- `EXT4_MMP_CHECK_MULT`. -/
def checkMult : Nat := 2

/-- `EXT4_MMP_MIN_CHECK_INTERVAL`. -/
def minCheckInterval : Nat := 5

/-- `EXT4_MMP_MAX_CHECK_INTERVAL`. -/
def maxCheckInterval : Nat := 300

/-- `struct mmp_struct`, without the fields that are only printed. `valid` stands
for the magic number and the checksum. -/
structure MmpBlock where
  valid : Bool
  mmpSeq : Nat
  mmpCheckInterval : Nat
  mmpNodename : Bool
deriving DecidableEq, Repr

/-- The superblock; `blockOk` says that `s_mmp_block` is a block of the file
system. -/
structure MmpSb where
  sMmpUpdateInterval : Nat
  hz : Nat
  blockOk : Bool
  featureMmp : Bool
deriving DecidableEq, Repr

/-- The variables of `kmmpd`. -/
structure Kmmpd where
  mmp : MmpBlock
  seq : Nat
  mmpCheckInterval : Nat
  lastUpdateTime : Nat
deriving DecidableEq, Repr

/-- Where a node is. -/
inductive MmpNode where
  /-- before the first read -/
  | start
  /-- asleep between the first two reads, until `wake` -/
  | checking (mmp : MmpBlock) (waitTime wake : Nat)
  /-- at `skip:` -/
  | claiming (mmp : MmpBlock) (waitTime : Nat)
  /-- asleep from `since` to `wake`, after the random number was written -/
  | confirming (mmp : MmpBlock) (since wake : Nat)
  /-- mounted, `kmmpd` at the top of its loop -/
  | updating (k : Kmmpd)
  /-- mounted, `kmmpd` behind a write -/
  | napping (k : Kmmpd)
  /-- mounted, `kmmpd` has left through `exit_thread` -/
  | unprotected
  /-- mounted read-only, `kmmpd` has come to its end -/
  | readOnly
  | failed
  | unmounted
deriving DecidableEq, Repr

/-- The node is past a successful `ext4_multi_mount_protect` and not yet
unmounted. -/
def MmpNode.mounted : MmpNode → Bool
  | .updating _ | .napping _ | .unprotected | .readOnly => true
  | _ => false

/-- The node is in `ext4_multi_mount_protect`, behind the first read. -/
def MmpNode.mounting : MmpNode → Bool
  | .checking _ _ _ | .claiming _ _ | .confirming _ _ _ => true
  | _ => false

def MmpNode.kmmpd? : MmpNode → Option Kmmpd
  | .updating k | .napping k => some k
  | _ => none

/-- The node waits for its random number. -/
def MmpNode.confirming? : MmpNode → Bool
  | .confirming _ _ _ => true
  | _ => false

structure MmpState where
  now : Nat
  disk : MmpBlock
  nodes : Bool → MmpNode

/-- The steps. `rdonly` is the exit of `kmmpd` from a file system that an error has
made read-only, `remount` is `ext4_remount` to read-only, `stop` the unmount.
`fail` is an error of a read, a write or the memory, or a signal, in
`ext4_multi_mount_protect`. -/
inductive MmpStep where
  | tick (d : Nat)
  | read (n : Bool)
  | recheck (n : Bool)
  | claim (n : Bool)
  | confirm (n : Bool)
  | update (n : Bool)
  | wake (n : Bool)
  | rdonly (n : Bool)
  | remount (n : Bool)
  | stop (n : Bool)
  | fail (n : Bool)
deriving DecidableEq, Repr

/-- `mmp_check_interval` of `ext4_multi_mount_protect`. -/
def protectInterval (sb : MmpSb) (mmp : MmpBlock) : Nat :=
  let mmpCheckInterval := sb.sMmpUpdateInterval
  let mmpCheckInterval :=
    if mmpCheckInterval < minCheckInterval then minCheckInterval else mmpCheckInterval
  if mmpCheckInterval < mmp.mmpCheckInterval then mmp.mmpCheckInterval else mmpCheckInterval

/-- `wait_time`. -/
def waitTime (interval : Nat) : Nat := min (interval * 2 + 1) (interval + 60)

/-- Up to the first sleep, or to `skip:` with a clean block: then `wait_time` is
still 0. -/
def mmpRead (sb : MmpSb) (now : Nat) (disk : MmpBlock) : MmpNode :=
  if !sb.blockOk ∨ !disk.valid then .failed
  else if disk.mmpSeq = seqClean then .claiming disk 0
  else if disk.mmpSeq = seqFsck then .failed
  else
    let w := waitTime (protectInterval sb disk)
    .checking disk w (now + sb.hz * w)

/-- The second read. -/
def mmpRecheck (mmp : MmpBlock) (w : Nat) (disk : MmpBlock) : MmpNode :=
  if !disk.valid ∨ mmp.mmpSeq ≠ disk.mmpSeq then .failed else .claiming disk w

/-- The third read, and the start of `kmmpd` up to its loop. -/
def mmpConfirm (sb : MmpSb) (n : Bool) (now : Nat) (mmp disk : MmpBlock) : MmpNode :=
  if !disk.valid ∨ mmp.mmpSeq ≠ disk.mmpSeq then .failed
  else
    let interval := max (checkMult * sb.sMmpUpdateInterval) minCheckInterval
    .updating
      { mmp := { disk with mmpCheckInterval := interval % 2 ^ 16, mmpNodename := n }
        seq := 0
        mmpCheckInterval := interval
        lastUpdateTime := now }

/-- `++seq`, with its wrap around. -/
def nextSeq (seq : Nat) : Nat := if seqMax < seq + 1 then 1 else seq + 1

/-- The write of `kmmpd`. -/
def Kmmpd.write (k : Kmmpd) (now : Nat) : Kmmpd :=
  { k with
    mmp := { k.mmp with mmpSeq := nextSeq k.seq }, seq := nextSeq k.seq, lastUpdateTime := now }

/-- `kmmpd` behind its sleep: the check of a late write, and the new interval. -/
def kmmpdWake (sb : MmpSb) (now : Nat) (disk : MmpBlock) (k : Kmmpd) : MmpNode :=
  let diff := now - k.lastUpdateTime
  if k.mmpCheckInterval * sb.hz < diff
      ∧ (!disk.valid ∨ k.mmp.mmpSeq ≠ disk.mmpSeq ∨ k.mmp.mmpNodename ≠ disk.mmpNodename) then
    .unprotected
  else
    let interval := max (min (checkMult * diff / sb.hz) maxCheckInterval) minCheckInterval
    .updating { k with
      mmpCheckInterval := interval, mmp := { k.mmp with mmpCheckInterval := interval % 2 ^ 16 } }

/-- The last write of `kmmpd`. -/
def Kmmpd.clean (k : Kmmpd) : MmpBlock := { k.mmp with mmpSeq := seqClean }

/-- The block after `kthread_stop`, which wakes `kmmpd` up: behind its sleep it
still looks for a late write, and leaves through `exit_thread` if it finds that of
another node. -/
def kmmpdStop (sb : MmpSb) (now : Nat) (disk : MmpBlock) : MmpNode → MmpBlock
  | .updating k => k.clean
  | .napping k =>
      match kmmpdWake sb now disk k with
      | .updating k => k.clean
      | _ => disk
  | _ => disk

def MmpState.put (st : MmpState) (n : Bool) (node : MmpNode) : MmpState :=
  { st with nodes := Function.update st.nodes n node }

/-- One step; `none` if it is not the node's turn for it. `random` are the numbers
`mmp_new_seq` returns to the nodes. -/
def mmpStep (sb : MmpSb) (random : Bool → Nat) (step : MmpStep) (st : MmpState) : Option MmpState :=
  match step with
  | .tick d => some { st with now := st.now + d }
  | .read n =>
      match st.nodes n with
      | .start => some (st.put n (mmpRead sb st.now st.disk))
      | _ => none
  | .recheck n =>
      match st.nodes n with
      | .checking mmp w wake =>
          if wake ≤ st.now then some (st.put n (mmpRecheck mmp w st.disk)) else none
      | _ => none
  | .claim n =>
      match st.nodes n with
      | .claiming mmp w =>
          let mmp := { mmp with mmpSeq := random n }
          some { st.put n (.confirming mmp st.now (st.now + sb.hz * w)) with disk := mmp }
      | _ => none
  | .confirm n =>
      match st.nodes n with
      | .confirming mmp _ wake =>
          if wake ≤ st.now then some (st.put n (mmpConfirm sb n st.now mmp st.disk)) else none
      | _ => none
  | .update n =>
      match st.nodes n with
      | .updating k =>
          let k := k.write st.now
          let node := if sb.featureMmp then .napping k else .unprotected
          some { st.put n node with disk := k.mmp }
      | _ => none
  | .wake n =>
      match st.nodes n with
      | .napping k =>
          if k.lastUpdateTime + sb.sMmpUpdateInterval * sb.hz ≤ st.now then
            some (st.put n (kmmpdWake sb st.now st.disk k))
          else none
      | _ => none
  | .rdonly n =>
      match st.nodes n with
      | .napping k => some { st.put n .readOnly with disk := k.clean }
      | _ => none
  | .remount n =>
      match (st.nodes n).kmmpd? with
      | some _ =>
          some { st.put n .readOnly with disk := kmmpdStop sb st.now st.disk (st.nodes n) }
      | none => none
  | .stop n =>
      if (st.nodes n).mounted then
        some { st.put n .unmounted with disk := kmmpdStop sb st.now st.disk (st.nodes n) }
      else none
  | .fail n =>
      if (st.nodes n).mounted ∨ st.nodes n = .unmounted then none else some (st.put n .failed)

/-- The runs of a system whose steps meet a condition. -/
inductive MmpRun (sb : MmpSb) (random : Bool → Nat) (cond : MmpState → MmpStep → Prop)
    (disk : MmpBlock) : MmpState → Prop
  | init : MmpRun sb random cond disk ⟨0, disk, fun _ => .start⟩
  | step {st st' : MmpState} {s : MmpStep} : MmpRun sb random cond disk st → cond st s →
      mmpStep sb random s st = some st' → MmpRun sb random cond disk st'

/-- Time does not pass a node whose `kmmpd` has to write: each write is on disk
within the check interval. -/
def Punctual (sb : MmpSb) (st : MmpState) : MmpStep → Prop
  | .tick d => ∀ n, ∀ k ∈ (st.nodes n).kmmpd?,
      st.now + d ≤ k.lastUpdateTime + k.mmpCheckInterval * sb.hz
  | _ => True

instance (sb : MmpSb) (st : MmpState) : (s : MmpStep) → Decidable (Punctual sb st s)
  | .tick d => inferInstanceAs (Decidable (∀ n, ∀ k ∈ (st.nodes n).kmmpd?,
      st.now + d ≤ k.lastUpdateTime + k.mmpCheckInterval * sb.hz))
  | .read _ | .recheck _ | .claim _ | .confirm _ | .update _ | .wake _ | .rdonly _ | .remount _
  | .stop _ | .fail _ => inferInstanceAs (Decidable True)

/-! ## Mutual exclusion -/

/-- The shortest time a node waits if it does not find the block clean. -/
def minWait (sb : MmpSb) : Nat := waitTime (max sb.sMmpUpdateInterval minCheckInterval)

/-- What the protection needs besides: no node starts with a clean block,
`kmmpd` writes faster than the other node waits, it does not happen to write the
number the other node waits for, and a node does not become read-only while the
other one is mounting. -/
def Steady (sb : MmpSb) (random : Bool → Nat) (st : MmpState) : MmpStep → Prop
  | .read _ => st.disk.mmpSeq ≠ seqClean
  | .tick d => ∀ n, ∀ k ∈ (st.nodes n).kmmpd?,
      st.now + d < k.lastUpdateTime + sb.hz * minWait sb
  | .update n => (st.nodes (!n)).confirming? = true →
      ∀ k ∈ (st.nodes n).kmmpd?, nextSeq k.seq ≠ random (!n)
  | .rdonly n | .remount n => (st.nodes (!n)).mounting = false
  | _ => True

instance (sb : MmpSb) (random : Bool → Nat) (st : MmpState) :
    (s : MmpStep) → Decidable (Steady sb random st s)
  | .read _ => inferInstanceAs (Decidable (st.disk.mmpSeq ≠ seqClean))
  | .tick d => inferInstanceAs (Decidable (∀ n, ∀ k ∈ (st.nodes n).kmmpd?,
      st.now + d < k.lastUpdateTime + sb.hz * minWait sb))
  | .update n => inferInstanceAs (Decidable ((st.nodes (!n)).confirming? = true →
      ∀ k ∈ (st.nodes n).kmmpd?, nextSeq k.seq ≠ random (!n)))
  | .rdonly n | .remount n => inferInstanceAs (Decidable ((st.nodes (!n)).mounting = false))
  | .recheck _ | .claim _ | .confirm _ | .wake _ | .stop _ | .fail _ =>
      inferInstanceAs (Decidable True)

/-- What holds of one node; `r` is its random number. -/
def NodeOk (sb : MmpSb) (r now : Nat) : MmpNode → Prop
  | .checking _ w _ | .claiming _ w => minWait sb ≤ w
  | .confirming mmp since wake => mmp.mmpSeq = r ∧ since + sb.hz * minWait sb ≤ wake
  | .updating k => k.lastUpdateTime ≤ now ∧ now < k.lastUpdateTime + sb.hz * minWait sb
  | .napping k => k.lastUpdateTime ≤ now ∧ now < k.lastUpdateTime + sb.hz * minWait sb
      ∧ now ≤ k.lastUpdateTime + k.mmpCheckInterval * sb.hz
  | .unprotected => False
  | _ => True

/-- A node that waits while the other one is mounted has lost its number, or the
other one has not written since. -/
def Exposed (r seq : Nat) (a b : MmpNode) : Prop :=
  ∀ mmp since wake k, a = .confirming mmp since wake → b.kmmpd? = some k →
    seq ≠ r ∨ k.lastUpdateTime ≤ since

/-- While a node is read-only the block is clean, and the other one does not mount. -/
def Parked (seq : Nat) (a b : MmpNode) : Prop :=
  a = .readOnly → seq = seqClean ∧ b.mounting = false

structure MmpInv (sb : MmpSb) (random : Bool → Nat) (st : MmpState) : Prop where
  node : ∀ n, NodeOk sb (random n) st.now (st.nodes n)
  exposed : ∀ n, Exposed (random n) st.disk.mmpSeq (st.nodes n) (st.nodes (!n))
  exclusive : ∀ n, (st.nodes n).mounted = true → (st.nodes (!n)).mounted = false
  parked : ∀ n, Parked st.disk.mmpSeq (st.nodes n) (st.nodes (!n))

section Invariant

variable {sb : MmpSb} {random : Bool → Nat} {st st' : MmpState} {n : Bool} {v : MmpNode}
  {disk : MmpBlock}

theorem waitTime_mono {a b : Nat} (h : a ≤ b) : waitTime a ≤ waitTime b := by
  rw [waitTime, waitTime]
  omega

theorem minWait_le (sb : MmpSb) (mmp : MmpBlock) :
    minWait sb ≤ waitTime (protectInterval sb mmp) := by
  refine waitTime_mono ?_
  rw [protectInterval, minCheckInterval]
  split <;> split <;> omega

theorem minWait_pos (sb : MmpSb) : 0 < minWait sb := by
  rw [minWait, waitTime]
  omega

theorem kmmpd_of_mounted {r now : Nat} (h : NodeOk sb r now v) (hm : v.mounted = true) :
    v = .readOnly ∨ ∃ k, v.kmmpd? = some k ∧ k.lastUpdateTime ≤ now
      ∧ now < k.lastUpdateTime + sb.hz * minWait sb := by
  cases v with
  | updating k => exact .inr ⟨k, rfl, h⟩
  | napping k => exact .inr ⟨k, rfl, h.1, h.2.1⟩
  | unprotected => exact absurd h id
  | readOnly => exact .inl rfl
  | start => nomatch hm
  | checking _ _ _ => nomatch hm
  | claiming _ _ => nomatch hm
  | confirming _ _ _ => nomatch hm
  | failed => nomatch hm
  | unmounted => nomatch hm

theorem mounted_of_kmmpd {k : Kmmpd} (h : v.kmmpd? = some k) : v.mounted = true := by
  cases v with
  | updating k => rfl
  | napping k => rfl
  | unprotected => nomatch h
  | readOnly => nomatch h
  | start => nomatch h
  | checking _ _ _ => nomatch h
  | claiming _ _ => nomatch h
  | confirming _ _ _ => nomatch h
  | failed => nomatch h
  | unmounted => nomatch h

theorem MmpInv.put (h : MmpInv sb random st) (hv : NodeOk sb (random n) st.now v)
    (hown : Exposed (random n) disk.mmpSeq v (st.nodes (!n)))
    (hother : Exposed (random (!n)) disk.mmpSeq (st.nodes (!n)) v)
    (hex : v.mounted = true → (st.nodes (!n)).mounted = false)
    (hpark : Parked disk.mmpSeq v (st.nodes (!n)))
    (hpark' : Parked disk.mmpSeq (st.nodes (!n)) v) :
    MmpInv sb random ⟨st.now, disk, Function.update st.nodes n v⟩ := by
  have hne : (!n) ≠ n := by cases n <;> decide
  have hcases : ∀ m, m = n ∨ m = !n := fun m => by
    cases m <;> cases n <;> simp
  refine ⟨fun m => ?_, fun m => ?_, fun m => ?_, fun m => ?_⟩
  · rcases hcases m with rfl | rfl
    · simpa only [Function.update_self] using hv
    · simpa only [Function.update_of_ne hne] using h.node (!n)
  · rcases hcases m with rfl | rfl
    · simpa only [Function.update_self, Function.update_of_ne hne] using hown
    · simpa only [Function.update_self, Function.update_of_ne hne, Bool.not_not] using hother
  · rcases hcases m with rfl | rfl
    · simpa only [Function.update_self, Function.update_of_ne hne] using hex
    · simp only [Function.update_self, Function.update_of_ne hne, Bool.not_not]
      intro hm
      exact eq_false_of_ne_true fun hv => Bool.false_ne_true ((hex hv).symm.trans hm)
  · rcases hcases m with rfl | rfl
    · simpa only [Function.update_self, Function.update_of_ne hne] using hpark
    · simpa only [Function.update_self, Function.update_of_ne hne, Bool.not_not] using hpark'

/-- A step to a state that is neither mounted nor waits for its number. -/
theorem MmpInv.quiet (h : MmpInv sb random st) (hv : NodeOk sb (random n) st.now v)
    (hm : v.mounted = false) (hc : v.confirming? = false)
    (hpark' : Parked disk.mmpSeq (st.nodes (!n)) v) :
    MmpInv sb random ⟨st.now, disk, Function.update st.nodes n v⟩ := by
  refine h.put hv (fun mmp since wake _ heq => ?_) (fun _ _ _ k _ hk => ?_) (fun hm' => ?_)
    (fun heq => ?_) hpark'
  · rw [heq] at hc
    cases hc
  · exact absurd (mounted_of_kmmpd hk) (by rw [hm]; exact Bool.false_ne_true)
  · exact absurd hm' (by rw [hm]; exact Bool.false_ne_true)
  · rw [heq] at hm
    cases hm

theorem MmpInv.failed (h : MmpInv sb random st) : MmpInv sb random (st.put n .failed) :=
  h.quiet trivial rfl rfl fun heq => ⟨(h.parked _ heq).1, rfl⟩

/-- Beside a node that mounts or is mounted the other one is not read-only. -/
theorem MmpInv.not_readOnly (h : MmpInv sb random st)
    (hn : (st.nodes n).mounting = true ∨ (st.nodes n).mounted = true) :
    st.nodes (!n) ≠ .readOnly := by
  intro heq
  rcases hn with hn | hn
  · have hidle := (h.parked _ heq).2
    rw [Bool.not_not, hn] at hidle
    cases hidle
  · have hfree := h.exclusive n hn
    rw [heq] at hfree
    cases hfree

theorem NodeOk.later {r now d : Nat} (h : NodeOk sb r now v)
    (htick : ∀ k, v.kmmpd? = some k → now + d ≤ k.lastUpdateTime + k.mmpCheckInterval * sb.hz
      ∧ now + d < k.lastUpdateTime + sb.hz * minWait sb) : NodeOk sb r (now + d) v := by
  cases v with
  | updating k => exact ⟨Nat.le_trans h.1 (Nat.le_add_right _ _), (htick k rfl).2⟩
  | napping k => exact ⟨Nat.le_trans h.1 (Nat.le_add_right _ _), (htick k rfl).2, (htick k rfl).1⟩
  | unprotected => exact h
  | readOnly => trivial
  | start => trivial
  | checking _ _ _ => exact h
  | claiming _ _ => exact h
  | confirming _ _ _ => exact h
  | failed => trivial
  | unmounted => trivial

theorem MmpInv.read (h : MmpInv sb random st) (hclean : st.disk.mmpSeq ≠ seqClean) :
    MmpInv sb random (st.put n (mmpRead sb st.now st.disk)) := by
  rw [mmpRead, if_neg hclean]
  split
  · exact h.failed
  · split
    · exact h.failed
    · refine h.quiet (v := .checking _ _ _) (minWait_le sb st.disk) rfl rfl fun heq => ?_
      exact absurd (h.parked _ heq).1 hclean

/-- The last read: if the number is still there, the other node is not mounted. -/
theorem MmpInv.confirm (h : MmpInv sb random st) (hhz : 0 < sb.hz)
    (hrandom : random false ≠ random true) {mmp : MmpBlock} {since wake : Nat}
    (hnode : st.nodes n = .confirming mmp since wake) (hwake : wake ≤ st.now) :
    MmpInv sb random (st.put n (mmpConfirm sb n st.now mmp st.disk)) := by
  rw [mmpConfirm]
  split
  · exact h.failed
  rename_i hseq
  have hok := h.node n
  rw [hnode] at hok
  have hseq' : st.disk.mmpSeq = random n := by
    rw [← hok.1]
    by_contra hne
    exact hseq (.inr fun heq => hne heq.symm)
  have hro : st.nodes (!n) ≠ .readOnly := h.not_readOnly (.inl (by rw [hnode]; rfl))
  have hfree : (st.nodes (!n)).mounted = false := by
    by_contra hm
    obtain ⟨k, hk, -, hlt⟩ :=
      (kmmpd_of_mounted (h.node (!n)) (eq_true_of_ne_false hm)).resolve_left hro
    rcases h.exposed n mmp since wake k hnode hk with hlost | hold
    · exact hlost hseq'
    · have := hok.2
      omega
  have hpos : 0 < sb.hz * minWait sb := Nat.mul_pos hhz (minWait_pos sb)
  have hnew : ∀ k : Kmmpd, k.lastUpdateTime = st.now →
      NodeOk sb (random n) st.now (.updating k) := fun k hk =>
    ⟨Nat.le_of_eq hk, by rw [hk]; omega⟩
  refine h.put (hnew _ rfl) (fun _ _ _ _ heq => ?_) (fun _ _ _ _ _ _ => .inl ?_) (fun _ => hfree)
    (fun heq => ?_) fun heq => absurd heq hro
  · cases heq
  · rw [hseq']
    cases n
    · exact hrandom
    · exact hrandom.symm
  · cases heq

theorem MmpInv.claim (h : MmpInv sb random st) {mmp : MmpBlock} {w : Nat}
    (hnode : st.nodes n = .claiming mmp w) :
    MmpInv sb random ⟨st.now, { mmp with mmpSeq := random n },
      Function.update st.nodes n
        (.confirming { mmp with mmpSeq := random n } st.now (st.now + sb.hz * w))⟩ := by
  have hok := h.node n
  rw [hnode] at hok
  have hro : st.nodes (!n) ≠ .readOnly := h.not_readOnly (.inl (by rw [hnode]; rfl))
  have hv : NodeOk sb (random n) st.now
      (.confirming { mmp with mmpSeq := random n } st.now (st.now + sb.hz * w)) :=
    ⟨rfl, Nat.add_le_add_left (Nat.mul_le_mul_left _ hok) _⟩
  refine h.put hv (fun mmp' since wake k heq hk => ?_) (fun _ _ _ _ _ hk => ?_) (fun hm => ?_)
    (fun heq => ?_) fun heq => absurd heq hro
  · -- a mounted node has not written since now
    injection heq with _ hsince _
    obtain ⟨k', hk', hle, -⟩ :=
      (kmmpd_of_mounted (h.node (!n)) (mounted_of_kmmpd hk)).resolve_left hro
    rw [hk] at hk'
    injection hk' with hk'
    exact .inr (hsince ▸ hk' ▸ hle)
  · cases hk
  · cases hm
  · cases heq

theorem MmpInv.update (h : MmpInv sb random st) (hhz : 0 < sb.hz) {k : Kmmpd}
    (hnode : st.nodes n = .updating k)
    (hnum : (st.nodes (!n)).confirming? = true → nextSeq k.seq ≠ random (!n)) :
    MmpInv sb random ⟨st.now, (k.write st.now).mmp,
      Function.update st.nodes n (.napping (k.write st.now))⟩ := by
  have hpos : 0 < sb.hz * minWait sb := Nat.mul_pos hhz (minWait_pos sb)
  have hmounted : (st.nodes n).mounted = true := by rw [hnode]; rfl
  have hv : NodeOk sb (random n) st.now (.napping (k.write st.now)) :=
    ⟨Nat.le_refl _, Nat.lt_add_of_pos_right hpos, Nat.le_add_right _ _⟩
  refine h.put hv (fun _ _ _ _ heq => ?_) (fun _ _ _ _ heq _ => .inl (hnum (by rw [heq]; rfl)))
    (fun _ => h.exclusive n hmounted) (fun heq => ?_)
    fun heq => absurd heq (h.not_readOnly (.inr hmounted))
  · cases heq
  · cases heq

/-- A write in time is not looked for. -/
theorem kmmpdWake_of_le (disk : MmpBlock) {now : Nat} {k : Kmmpd}
    (h : now ≤ k.lastUpdateTime + k.mmpCheckInterval * sb.hz) :
    ∃ k', kmmpdWake sb now disk k = .updating k' ∧ k'.lastUpdateTime = k.lastUpdateTime := by
  rw [kmmpdWake]
  dsimp only
  rw [if_neg (fun hlate => by omega)]
  exact ⟨_, rfl, rfl⟩

theorem MmpInv.wake (h : MmpInv sb random st) {k : Kmmpd} (hnode : st.nodes n = .napping k) :
    MmpInv sb random (st.put n (kmmpdWake sb st.now st.disk k)) := by
  have hok := h.node n
  rw [hnode] at hok
  obtain ⟨h1, h2, h3⟩ := hok
  have hmounted : (st.nodes n).mounted = true := by rw [hnode]; rfl
  obtain ⟨k', heq, hlast⟩ := kmmpdWake_of_le st.disk h3
  have hv : NodeOk sb (random n) st.now (.updating k') := ⟨hlast ▸ h1, hlast ▸ h2⟩
  rw [heq]
  refine h.put hv (fun _ _ _ _ heq => ?_) (fun mmp since wake _ heq hk => ?_)
    (fun _ => h.exclusive n hmounted) (fun heq => ?_)
    fun heq => absurd heq (h.not_readOnly (.inr hmounted))
  · cases heq
  · obtain rfl := Option.some.inj hk
    rw [hlast]
    exact h.exposed (!n) mmp since wake k heq (by rw [Bool.not_not, hnode]; rfl)
  · cases heq

/-- A `kmmpd` that has not been late marks the block clean when it is stopped. -/
theorem kmmpdStop_clean {r : Nat} (hv : NodeOk sb r st.now v) {k : Kmmpd}
    (hk : v.kmmpd? = some k) : (kmmpdStop sb st.now st.disk v).mmpSeq = seqClean := by
  cases v with
  | updating k => rfl
  | napping k =>
    obtain ⟨k', heq, -⟩ := kmmpdWake_of_le st.disk hv.2.2
    rw [kmmpdStop, heq]
    rfl
  | _ => cases hk

/-- `kmmpd` ends with a clean block and leaves the node mounted. -/
theorem MmpInv.readOnly (h : MmpInv sb random st) {k : Kmmpd} (hk : (st.nodes n).kmmpd? = some k)
    (hidle : (st.nodes (!n)).mounting = false) (hclean : disk.mmpSeq = seqClean) :
    MmpInv sb random ⟨st.now, disk, Function.update st.nodes n .readOnly⟩ := by
  have hmounted := mounted_of_kmmpd hk
  refine h.put (v := .readOnly) trivial (fun _ _ _ _ heq => ?_) (fun _ _ _ _ _ hk => ?_)
    (fun _ => h.exclusive n hmounted) (fun _ => ⟨hclean, hidle⟩)
    fun heq => absurd heq (h.not_readOnly (.inr hmounted))
  · cases heq
  · cases hk

theorem MmpInv.step {s : MmpStep} (h : MmpInv sb random st) (hhz : 0 < sb.hz)
    (hfeature : sb.featureMmp = true) (hrandom : random false ≠ random true)
    (hpunctual : Punctual sb st s) (hsteady : Steady sb random st s)
    (hstep : mmpStep sb random s st = some st') : MmpInv sb random st' := by
  cases s with
  | tick d =>
    cases hstep
    exact ⟨fun n => (h.node n).later fun k hk => ⟨hpunctual n k hk, hsteady n k hk⟩,
      h.exposed, h.exclusive, h.parked⟩
  | read n =>
    rw [mmpStep] at hstep
    split at hstep
    · cases hstep
      exact h.read hsteady
    · cases hstep
  | recheck n =>
    rw [mmpStep] at hstep
    split at hstep
    · rename_i mmp w wake hnode
      split at hstep
      · cases hstep
        have hok := h.node n
        rw [hnode] at hok
        rw [mmpRecheck]
        split
        · exact h.failed
        · exact h.quiet (v := .claiming _ _) hok rfl rfl fun heq =>
            absurd heq (h.not_readOnly (.inl (by rw [hnode]; rfl)))
      · cases hstep
    · cases hstep
  | claim n =>
    rw [mmpStep] at hstep
    split at hstep
    · rename_i mmp w hnode
      cases hstep
      exact h.claim hnode
    · cases hstep
  | confirm n =>
    rw [mmpStep] at hstep
    split at hstep
    · rename_i mmp since wake hnode
      split at hstep
      · rename_i hwake
        cases hstep
        exact h.confirm hhz hrandom hnode hwake
      · cases hstep
    · cases hstep
  | update n =>
    rw [mmpStep] at hstep
    split at hstep
    · rename_i k hnode
      cases hstep
      rw [if_pos hfeature]
      exact h.update hhz hnode fun hc => hsteady hc k (by rw [hnode]; rfl)
    · cases hstep
  | wake n =>
    rw [mmpStep] at hstep
    split at hstep
    · rename_i k hnode
      split at hstep
      · cases hstep
        exact h.wake hnode
      · cases hstep
    · cases hstep
  | rdonly n =>
    rw [mmpStep] at hstep
    split at hstep
    · rename_i k hnode
      cases hstep
      exact h.readOnly (k := k) (by rw [hnode]; rfl) hsteady rfl
    · cases hstep
  | remount n =>
    rw [mmpStep] at hstep
    split at hstep
    · rename_i k hk
      cases hstep
      exact h.readOnly hk hsteady (kmmpdStop_clean (h.node n) hk)
    · cases hstep
  | stop n =>
    rw [mmpStep] at hstep
    split at hstep
    · rename_i hmounted
      cases hstep
      exact h.quiet (v := .unmounted) trivial rfl rfl fun heq =>
        absurd heq (h.not_readOnly (.inr hmounted))
    · cases hstep
  | fail n =>
    rw [mmpStep] at hstep
    split at hstep
    · cases hstep
    · cases hstep
      exact h.failed

theorem MmpRun.inv (hhz : 0 < sb.hz) (hfeature : sb.featureMmp = true)
    (hrandom : random false ≠ random true)
    (h : MmpRun sb random (fun st s => Punctual sb st s ∧ Steady sb random st s) disk st) :
    MmpInv sb random st := by
  induction h with
  | init =>
    refine ⟨fun _ => trivial, fun _ _ _ _ _ heq => ?_, fun _ hm => ?_, fun _ heq => ?_⟩
    · cases heq
    · cases hm
    · cases heq
  | step _ hcond hstep ih => exact ih.step hhz hfeature hrandom hcond.1 hcond.2 hstep

end Invariant

/-- **At most one node is mounted**, in every run in which no node starts with a
clean block, `kmmpd` writes within its check interval and faster than the other
node waits, it does not write the number the other node waits for, and no node
becomes read-only while the other one is mounting. -/
theorem mmp_exclusive (sb : MmpSb) (hhz : 0 < sb.hz) (hfeature : sb.featureMmp = true)
    (random : Bool → Nat) (hrandom : random false ≠ random true) (disk : MmpBlock) (st : MmpState)
    (h : MmpRun sb random (fun st s => Punctual sb st s ∧ Steady sb random st s) disk st) :
    ¬ ((st.nodes false).mounted = true ∧ (st.nodes true).mounted = true) := by
  rintro ⟨h1, h2⟩
  have := (h.inv hhz hfeature hrandom).exclusive false h1
  rw [Bool.not_false, h2] at this
  nomatch this

/-- The steps one after the other, as long as they meet the condition. -/
def mmpExec (sb : MmpSb) (random : Bool → Nat) (cond : MmpState → MmpStep → Prop)
    [∀ st s, Decidable (cond st s)] : List MmpStep → MmpState → Option MmpState
  | [], st => some st
  | s :: steps, st =>
      if cond st s then (mmpStep sb random s st).bind (mmpExec sb random cond steps) else none

theorem MmpRun.exec {sb : MmpSb} {random : Bool → Nat} {cond : MmpState → MmpStep → Prop}
    [∀ st s, Decidable (cond st s)] {disk : MmpBlock} {st st' : MmpState}
    (h : MmpRun sb random cond disk st) (steps : List MmpStep)
    (hexec : mmpExec sb random cond steps st = some st') : MmpRun sb random cond disk st' := by
  induction steps generalizing st with
  | nil =>
    injection hexec with hexec
    exact hexec ▸ h
  | cons s steps ih =>
    rw [mmpExec] at hexec
    split at hexec
    · rename_i hcond
      obtain ⟨st1, hstep, hexec⟩ := Option.bind_eq_some_iff.mp hexec
      exact ih (h.step hcond hstep) hexec
    · nomatch hexec

/-- One node mounts; the other one starts in between and does not. -/
theorem mmp_exclusive_two :
    ∃ st, MmpRun ⟨5, 1, true, true⟩ (fun n => if n then 9 else 8)
        (fun st s => Punctual ⟨5, 1, true, true⟩ st s
          ∧ Steady ⟨5, 1, true, true⟩ (fun n => if n then 9 else 8) st s) ⟨true, 7, 0, false⟩ st
      ∧ (st.nodes false).mounted = true ∧ ¬ (st.nodes true).mounted = true := by
  have hexec : ∃ st, mmpExec ⟨5, 1, true, true⟩ (fun n => if n then 9 else 8)
      (fun st s => Punctual ⟨5, 1, true, true⟩ st s
        ∧ Steady ⟨5, 1, true, true⟩ (fun n => if n then 9 else 8) st s)
      [.read false, .tick 11, .recheck false, .claim false, .tick 5, .read true, .tick 6,
        .confirm false, .update false, .tick 5, .recheck true]
      ⟨0, ⟨true, 7, 0, false⟩, fun _ => .start⟩ = some st
      ∧ (st.nodes false).mounted = true := ⟨_, rfl, rfl⟩
  obtain ⟨st, hexec, hmounted⟩ := hexec
  have hrun := MmpRun.init.exec _ hexec
  exact ⟨st, hrun, hmounted, fun h => mmp_exclusive _ (by decide) rfl _ (by decide) _ st hrun
    ⟨hmounted, h⟩⟩

/-- Both nodes get mounted, each write being on disk within the check interval.

* Both find the block clean, so neither waits before it looks for its number.
* With an update interval of 100 s both wait 160 s. The second node writes its
  number when the first one is mounted and finds it 160 s later, while the
  first one may take 200 s for its write.
* The second node draws the number 1, which is the first one `kmmpd` writes.
* The first node becomes read-only, and its `kmmpd` ends, before the second one
  writes its number. -/
theorem mmp_both_mounted :
    (∃ st, MmpRun ⟨5, 1, true, true⟩ (fun n => if n then 9 else 8) (Punctual ⟨5, 1, true, true⟩)
        ⟨true, seqClean, 0, false⟩ st
      ∧ (st.nodes false).mounted = true ∧ (st.nodes true).mounted = true)
    ∧ (∃ st, MmpRun ⟨100, 1, true, true⟩ (fun n => if n then 9 else 8)
        (Punctual ⟨100, 1, true, true⟩) ⟨true, 7, 0, false⟩ st
      ∧ (st.nodes false).mounted = true ∧ (st.nodes true).mounted = true)
    ∧ (∃ st, MmpRun ⟨5, 1, true, true⟩ (fun n => if n then 1 else 8) (Punctual ⟨5, 1, true, true⟩)
        ⟨true, 7, 0, false⟩ st
      ∧ (st.nodes false).mounted = true ∧ (st.nodes true).mounted = true)
    ∧ (∃ st, MmpRun ⟨5, 1, true, true⟩ (fun n => if n then 9 else 8) (Punctual ⟨5, 1, true, true⟩)
        ⟨true, 7, 0, false⟩ st
      ∧ (st.nodes false).mounted = true ∧ (st.nodes true).mounted = true) := by
  refine ⟨?_, ?_, ?_, ?_⟩
  · exact ⟨_, MmpRun.init.exec [.read false, .read true, .claim false, .confirm false,
      .claim true, .confirm true] rfl, rfl, rfl⟩
  · exact ⟨_, MmpRun.init.exec [.read false, .read true, .tick 160, .recheck false,
      .recheck true, .claim false, .tick 160, .confirm false, .claim true, .tick 160,
      .confirm true] rfl, rfl, rfl⟩
  · exact ⟨_, MmpRun.init.exec [.read false, .read true, .tick 11, .recheck false,
      .recheck true, .claim true, .claim false, .tick 11, .confirm false, .update false,
      .confirm true] rfl, rfl, rfl⟩
  · exact ⟨_, MmpRun.init.exec [.read false, .read true, .tick 11, .recheck false,
      .recheck true, .claim false, .tick 11, .confirm false, .update false, .rdonly false,
      .claim true, .tick 11, .confirm true] rfl, rfl, rfl⟩

end Ext4.Mmp
