import Ext4.ExtentsStatus.Runs
import Ext4.Lib.RoundRobin

/-!
# Extent status — the order of reclaim

`es_reclaim_extents` (extents_status.c) scans the tree of an inode from
`i_es_shrink_lblk` to the end and then from the beginning to where it
started, as far as its budget reaches, and leaves `i_es_shrink_lblk` where
the next call is to go on. Read from that position around, the tree is a
queue: a call takes entries from its front, frees those that are neither
delayed nor referenced, and what is left of them is at the back afterwards.

When an entry has grown over the position, by a merge, it is both the first
entry of the scan and the last: the first visit clears its reference mark, and
a budget for more than all entries makes a second visit, which frees it. And a
tree that is left with delayed entries only is not scanned any more.
-/

namespace Ext4.ExtentsStatus

open SearchTree Ext4SbInfo RoundRobin

/-! ## What is examined -/

/-- What a visit leaves of an entry. -/
def survive (e : ExtentStatus) : Option ExtentStatus :=
  if ext4EsIsDelayed e then some e
  else if ext4EsIsReferenced e then some (ext4EsClearReferenced e)
  else none

/-- The entries that the loop of `es_do_reclaim_extents` counts down its
budget for. -/
def examinedFrom (last : Nat) : List ExtentStatus → Nat → List ExtentStatus
  | [], _ => []
  | es :: after, nrToScan =>
      if nrToScan = 0 then []
      else if last < es.esLblk then []
      else es :: examinedFrom last after (nrToScan - 1)

/-- The entries that `es_do_reclaim_extents` examines. -/
def doExamined (rb : RbShape) (sb : Ext4SbInfo) (i last nrToScan : Nat) : List ExtentStatus :=
  match esTreeSearch rb (sb.root i) (sb.inodes i).iEsShrinkLblk with
  | none => []
  | some z => examinedFrom last (z.cur :: z.after) nrToScan

/-- The entries that `es_reclaim_extents` examines, in order. -/
def examined (rb : RbShape) (sb : Ext4SbInfo) (i nrToScan : Nat) : List ExtentStatus :=
  let start := (sb.inodes i).iEsShrinkLblk
  if (sb.inodes i).iEsShkNr = 0 then []
  else
    let r := esDoReclaimExtents rb sb i extMaxBlocks nrToScan 0
    doExamined rb sb i extMaxBlocks nrToScan
      ++ if !r.1 && start != 0 then doExamined rb r.2.2.2 i (start - 1) r.2.1 else []

/-- The position of the next scan. -/
def shrinkLblk (sb : Ext4SbInfo) (i : Nat) : Nat := (sb.inodes i).iEsShrinkLblk

@[simp] theorem shrinkLblk_setShrinkLblk (sb : Ext4SbInfo) (i b : Nat) :
    shrinkLblk (sb.setShrinkLblk i b) i = b := by
  rw [shrinkLblk, setShrinkLblk, inodes_setInode, if_pos rfl]

@[simp] theorem shrinkLblk_setCache (sb : Ext4SbInfo) (i : Nat) (a : Option Nat) :
    shrinkLblk (sb.setCache i a) i = shrinkLblk sb i := by
  rw [shrinkLblk, setCache, inodes_setInode, if_pos rfl]
  rfl

/-! ## One pass -/

/-- Where a pass stops, with `rest` in front of it: at the end of the tree,
with the budget used up, or behind `last`. -/
def StopsAt (last : Nat) (full : Bool) (nrToScan pos : Nat) : List ExtentStatus → Prop
  | [] => full = false ∧ pos = 0
  | x :: _ => full = true ∧ nrToScan = 0 ∧ pos = x.esLblk
      ∨ full = false ∧ last < x.esLblk ∧ pos = (last + 1) % 2 ^ 32

/-- A pass that has examined `seen`, behind `before` and with `rest` in front
of it. -/
structure Pass (i last n m : Nat) (before seen rest : List ExtentStatus)
    (r : Bool × Nat × Nat × Ext4SbInfo) : Prop where
  root : r.2.2.2.root i = before ++ (seen.filterMap survive ++ rest)
  budget : r.2.1 + seen.length = n
  shrunk : r.2.2.1 + (seen.filterMap survive).length = m + seen.length
  stops : StopsAt last r.1 r.2.1 (shrinkLblk r.2.2.2 i) rest
  inside : ∀ e ∈ seen, e.esLblk ≤ last

variable {r : Bool × Nat × Nat × Ext4SbInfo} {es : ExtentStatus}
  {before rest seen : List ExtentStatus} {last m n start : Nat}

theorem Pass.cons {i m' : Nat} {before' : List ExtentStatus}
    (h : Pass i last n m' before' seen rest r) (hbefore : before' = before ++ (survive es).toList)
    (hm : m' + (survive es).toList.length = m + 1) (hle : es.esLblk ≤ last) :
    Pass i last (n + 1) m before (es :: seen) rest r := by
  have hlist : (es :: seen).filterMap survive = (survive es).toList ++ seen.filterMap survive := by
    rw [List.filterMap_cons]
    cases survive es <;> rfl
  refine ⟨?_, ?_, ?_, h.stops, List.forall_mem_cons.mpr ⟨hle, h.inside⟩⟩
  · rw [h.root, hlist, hbefore, List.append_assoc, List.append_assoc]
  · rw [← h.budget, List.length_cons, Nat.add_assoc]
  · have h1 := h.shrunk
    rw [hlist, List.length_append, List.length_cons]
    omega

variable {sb : Ext4SbInfo}

theorem Pass.nil {i : Nat} {full : Bool} (hroot : sb.root i = before ++ rest)
    (hstop : StopsAt last full n (shrinkLblk sb i) rest) :
    Pass i last n m before [] rest (full, n, m, sb) :=
  ⟨hroot, rfl, rfl, hstop, nofun⟩

/-- The pass from some entries on. -/
def PassFrom (i last n m : Nat) (before after : List ExtentStatus)
    (r : Bool × Nat × Nat × Ext4SbInfo) : Prop :=
  ∃ rest, after = examinedFrom last after n ++ rest
    ∧ Pass i last n m before (examinedFrom last after n) rest r

/-- A visit to one entry, before the loop goes on with `next`. -/
theorem visit_pass {i : Nat} {after : List ExtentStatus}
    (next : List ExtentStatus → Ext4SbInfo → Nat → Bool × Nat × Nat × Ext4SbInfo)
    (hnext : ∀ before sb m, sb.root i = before ++ after → PassFrom i last n m before after (next
      before sb m)) (hroot : sb.root i = before ++ es :: after) (hle : es.esLblk ≤ last) :
    PassFrom i last (n + 1) m before (es :: after)
      (if ext4EsIsDelayed es then next (before ++ [es]) sb m
        else if ext4EsIsReferenced es then
          next (before ++ [ext4EsClearReferenced es])
            (sb.setRoot i (before ++ ext4EsClearReferenced es :: after)) m
        else next before (ext4EsFreeExtent (sb.setRoot i (before ++ after)) i es) (m + 1)) := by
  have hseen : examinedFrom last (es :: after) (n + 1) = es :: examinedFrom last after n := by
    rw [examinedFrom, if_neg (Nat.succ_ne_zero n), if_neg (Nat.not_lt.mpr hle), Nat.add_sub_cancel]
  -- what is left of the entry is behind the loop
  have hgo : ∀ before' sb' m', sb'.root i = before' ++ after →
      before' = before ++ (survive es).toList → m' + (survive es).toList.length = m + 1 →
      PassFrom i last (n + 1) m before (es :: after) (next before' sb' m') := by
    intro before' sb' m' hroot' hbefore hm
    obtain ⟨rest, hrest, hpass⟩ := hnext before' sb' m' hroot'
    rw [PassFrom, hseen]
    exact ⟨rest, by rw [List.cons_append, ← hrest], hpass.cons hbefore hm hle⟩
  split
  · rename_i hd
    have hs : survive es = some es := if_pos hd
    exact hgo _ _ _ (by simp [hroot]) (by rw [hs]; rfl) (by rw [hs]; rfl)
  · rename_i hd
    split
    · rename_i hr
      have hs : survive es
        = some (ext4EsClearReferenced es) := by rw [survive, if_neg hd, if_pos hr]
      exact hgo _ _ _ (by simp) (by rw [hs]; rfl) (by rw [hs]; rfl)
    · rename_i hr
      have hs : survive es = none := by rw [survive, if_neg hd, if_neg hr]
      exact hgo _ _ _ (by simp) (by rw [hs]; exact (List.append_nil before).symm) (by rw [hs]; rfl)

variable {i : Nat}

/-- The loop's two tests, before an entry is visited. -/
theorem stop_pass {after : List ExtentStatus} (hroot : sb.root i = before ++ es :: after)
    (hr : ∀ k, n = k + 1 → es.esLblk ≤ last → PassFrom i last n m before (es :: after) r) :
    PassFrom i last n m before (es :: after)
      (if n = 0 then (true, 0, m, sb.setShrinkLblk i es.esLblk)
        else if last < es.esLblk then (false, n, m, sb.setShrinkLblk i ((last + 1) % 2 ^ 32))
        else r) := by
  split
  · rename_i hn
    subst hn
    rw [PassFrom, examinedFrom, if_pos rfl]
    exact ⟨_, rfl, .nil (by simpa using hroot) (.inl ⟨rfl, rfl, by simp⟩)⟩
  · rename_i hn
    split
    · rename_i hlt
      rw [PassFrom, examinedFrom, if_neg hn, if_pos hlt]
      exact ⟨_, rfl, .nil (by simpa using hroot) (.inr ⟨rfl, hlt, by simp⟩)⟩
    · rename_i hlt
      obtain ⟨k, hk⟩ := Nat.exists_eq_succ_of_ne_zero hn
      exact hr k hk (Nat.not_lt.mp hlt)

theorem reclaimLoop_pass (last n m : Nat) {after : List ExtentStatus}
    (hroot : sb.root i = before ++ es :: after) :
    PassFrom i last n m before (es :: after) (reclaimLoop i last before es after sb n m) := by
  induction after generalizing before es sb n m with
  | nil =>
    rw [reclaimLoop]
    refine stop_pass hroot ?_
    rintro n rfl hle
    refine visit_pass (fun _ sb m => (false, n, m, sb.setShrinkLblk i 0)) ?_ hroot hle
    intro before sb m hroot
    exact ⟨[], rfl, .nil (by simpa using hroot) ⟨rfl, by simp⟩⟩
  | cons es' after' ih =>
    rw [reclaimLoop]
    refine stop_pass hroot ?_
    rintro n rfl hle
    exact visit_pass (fun before sb m => reclaimLoop i last before es' after' sb n m)
      (fun before sb m hroot => ih n m hroot) hroot hle

/-- `es_do_reclaim_extents`: the entries in front of the position are passed
over, and the others are scanned. -/
theorem doReclaim_pass (rb : RbShape) (h : TreeOk (sb.root i)) (last n m : Nat) :
    ∃ lo hi rest, sb.root i = lo ++ hi ∧ (∀ e ∈ lo, esStop e ≤ shrinkLblk sb i)
      ∧ (∀ e ∈ hi, shrinkLblk sb i < esStop e)
      ∧ hi = doExamined rb sb i last n ++ rest
      ∧ Pass i last n m lo (doExamined rb sb i last n) rest
        (esDoReclaimExtents rb sb i last n m) := by
  rw [esDoReclaimExtents, doExamined]
  cases hz : esTreeSearch rb (sb.root i) (sb.inodes i).iEsShrinkLblk with
  | none =>
    exact ⟨sb.root i, [], [], (List.append_nil _).symm, esTreeSearch_none h hz,
      nofun, rfl, .nil (by simp) ⟨rfl, by simp⟩⟩
  | some z =>
    obtain ⟨hlist, hbefore, hcur⟩ := esTreeSearch_some h hz
    obtain ⟨rest, hrest, hpass⟩ := reclaimLoop_pass last n m hlist.symm
    have htree : TreeOk z.toList := hlist ▸ h
    refine ⟨z.before, z.cur :: z.after, rest, hlist.symm, hbefore,
      List.forall_mem_cons.mpr ⟨hcur, fun e he => ?_⟩, hrest, hpass⟩
    have h1 := htree.stop_le_after e he
    show (sb.inodes i).iEsShrinkLblk < e.esLblk + e.esLen
    omega

/-! ## The tree as a queue -/

/-- The entries from the position on, and then those in front of it. -/
def queue (l : List ExtentStatus) (p : Nat) : List ExtentStatus :=
  l.filter (fun e => decide (p < esStop e)) ++ l.filter (fun e => decide (esStop e ≤ p))

/-- The position is not inside an entry. -/
structure Between (l : List ExtentStatus) (p : Nat) : Prop where
  lt : p < 2 ^ 32
  outside : ∀ e ∈ l, e.esLblk < p → esStop e ≤ p

section Queue

variable {l lo hi A B : List ExtentStatus} {e e' x : ExtentStatus} {p : Nat}

theorem queue_of_split (hlo : ∀ e ∈ lo, esStop e ≤ p) (hhi : ∀ e ∈ hi, p < esStop e) :
    queue (lo ++ hi) p = hi ++ lo := by
  have h1 : lo.filter (fun e => decide (p < esStop e)) = [] :=
    List.filter_eq_nil_iff.mpr fun e he => by simpa using hlo e he
  have h2 : hi.filter (fun e => decide (p < esStop e)) = hi :=
    List.filter_eq_self.mpr fun e he => by simpa using hhi e he
  have h3 : lo.filter (fun e => decide (esStop e ≤ p)) = lo :=
    List.filter_eq_self.mpr fun e he => by simpa using hlo e he
  have h4 : hi.filter (fun e => decide (esStop e ≤ p)) = [] :=
    List.filter_eq_nil_iff.mpr fun e he => by simpa using hhi e he
  rw [queue, List.filter_append, List.filter_append, h1, h2, h3, h4, List.nil_append,
    List.append_nil]

theorem queue_perm (l : List ExtentStatus) (p : Nat) : (queue l p).Perm l := by
  have hnot : (fun e : ExtentStatus => decide (esStop e ≤ p))
      = fun e => !decide (p < esStop e) := by
    funext e
    rw [← decide_not]
    simp only [Nat.not_lt]
  rw [queue, hnot]
  exact List.filter_append_perm _ _

theorem TreeOk.stop_pos (h : TreeOk l) (he : e ∈ l) : e.esLblk < esStop e := by
  have hpos := (h.entries e he).pos
  rw [esStop]
  omega

theorem TreeOk.queue_zero (h : TreeOk l) : queue l 0 = l ∧ Between l 0 := by
  refine ⟨?_, by decide, fun e _ hlt => absurd hlt (Nat.not_lt_zero _)⟩
  have hq : queue ([] ++ l) 0 = l ++ [] := queue_of_split nofun
    fun e he => Nat.lt_of_le_of_lt (Nat.zero_le _) (h.stop_pos he)
  rwa [List.nil_append, List.append_nil] at hq

theorem TreeOk.queue_at (h : TreeOk (A ++ x :: B)) :
    queue (A ++ x :: B) x.esLblk = x :: B ++ A ∧ Between (A ++ x :: B) x.esLblk := by
  have hx := h.stop_pos (e := x) (by simp)
  have hmax := h.cur.le_max
  have hA : ∀ e ∈ A, esStop e ≤ x.esLblk := fun e he => (h.before_cur e he).stop_le
  have hB := h.start_le_from
  refine ⟨queue_of_split hA fun e he => ?_, ?_, fun e he hlt => ?_⟩
  · exact Nat.lt_of_le_of_lt (hB e he) (h.stop_pos (List.mem_append_right A he))
  · have : extMaxBlocks < 2 ^ 32 := by decide
    omega
  · exact (List.mem_append.mp he).elim (hA e) fun he => absurd (hB e he) (Nat.not_le.mpr hlt)

/-- No entry ends in front of block 1. -/
theorem TreeOk.front_nil (h : TreeOk (lo ++ hi)) (hlo : ∀ e ∈ lo, esStop e ≤ p) (hp : p = 0) :
    lo = [] := by
  refine List.eq_nil_iff_forall_not_mem.mpr fun e he => ?_
  have h1 := hlo e he
  have h2 := h.stop_pos (List.mem_append_left hi he)
  omega

theorem survive_cases (h : survive e = some e') : e' = e ∨ e' = ext4EsClearReferenced e := by
  unfold survive at h
  split at h
  · exact .inl (Option.some.inj h).symm
  · split at h
    · exact .inr (Option.some.inj h).symm
    · nomatch h

theorem survive_range (h : survive e = some e') : e'.esLblk = e.esLblk ∧ esStop e' = esStop e := by
  rcases survive_cases h with rfl | rfl <;> exact ⟨rfl, rfl⟩

end Queue

/-! ## One call -/

/-- The call that examined `seen` and freed `m` entries has taken a turn on
the queue. -/
structure Turned (i n : Nat) (sb sb' : Ext4SbInfo) (seen : List ExtentStatus) (m : Nat) :
    Prop where
  seen_eq : seen = (queue (sb.root i) (shrinkLblk sb i)).take n
  queue_eq : queue (sb'.root i) (shrinkLblk sb' i)
    = turn survive n (queue (sb.root i) (shrinkLblk sb i))
  between : Between (sb'.root i) (shrinkLblk sb' i)
  shrunk : m + (seen.filterMap survive).length = seen.length

variable {sb sb' : Ext4SbInfo}

theorem Turned.of {i : Nat} (hq : queue (sb.root i) (shrinkLblk sb i) = seen ++ rest)
    (hn : seen.length = n ∨ rest = [] ∧ seen.length ≤ n)
    (hq' : queue (sb'.root i) (shrinkLblk sb' i) = rest ++ seen.filterMap survive)
    (hb : Between (sb'.root i) (shrinkLblk sb' i))
    (hm : m + (seen.filterMap survive).length = seen.length) : Turned i n sb sb' seen m := by
  have htake : (seen ++ rest).take n = seen ∧ (seen ++ rest).drop n = rest := by
    rcases hn with rfl | ⟨rfl, hle⟩
    · exact ⟨List.take_left, List.drop_left⟩
    · rw [List.append_nil]
      exact ⟨List.take_of_length_le hle, List.drop_of_length_le hle⟩
  refine ⟨by rw [hq, htake.1], ?_, hb, hm⟩
  rw [hq', hq, turn, htake.1, htake.2]

/-- The second pass, after a first one that reached the end of the tree and
left `kept` of its entries: it examines only entries in front of `start`, if
those are all in front of it or the budget is for no more. -/
theorem second_pass (rb : RbShape) {i : Nat} {lo kept : List ExtentStatus} (h : EsCore sb)
    (hpos : shrinkLblk sb i = 0) (hroot : sb.root i = lo ++ kept)
    (hkept : (∀ e ∈ kept, start ≤ e.esLblk) ∨ n ≤ lo.length) (hstart : 0 < start) (m : Nat) :
    ∃ lo', lo = doExamined rb sb i (start - 1) n ++ lo'
      ∧ Pass i (start - 1) n m [] (doExamined rb sb i (start - 1) n) (lo' ++ kept)
        (esDoReclaimExtents rb sb i (start - 1) n m) := by
  obtain ⟨lo2, hi2, rest, hroot2, hlo2, -, hhi2, hpass⟩ :=
    doReclaim_pass rb (h.tree i) (start - 1) n m
  generalize doExamined rb sb i (start - 1) n = seen at hhi2 hpass ⊢
  obtain rfl := TreeOk.front_nil (hroot2 ▸ h.tree i) hlo2 hpos
  rw [hroot, List.nil_append, hhi2] at hroot2
  -- an entry behind the start is not examined again
  rcases List.append_eq_append_iff.mp hroot2 with ⟨c, hseen, hkept'⟩ | ⟨lo', hlo', hrest⟩
  · cases c with
    | nil =>
      rw [List.append_nil] at hseen
      rw [List.nil_append] at hkept'
      refine ⟨[], by rw [hseen, List.append_nil], ?_⟩
      rwa [List.nil_append, hkept']
    | cons e c =>
      rcases hkept with hkept | hn
      · have h1 := hkept e (by rw [hkept']; simp)
        have h2 := hpass.inside e (by rw [hseen]; simp)
        omega
      · have hbudget := hpass.budget
        rw [hseen, List.length_append, List.length_cons] at hbudget
        omega
  · exact ⟨lo', hlo', hrest ▸ hpass⟩

theorem second_turned {i n1 m1 : Nat} {lo' seen2 : List ExtentStatus}
    (hq : queue (sb.root i) (shrinkLblk sb i) = seen ++ (seen2 ++ lo')) (hlt : start < 2 ^ 32)
    (hstart : 0 < start) (hbudget : n1 + seen.length = n)
    (hshrunk : m1 + (seen.filterMap survive).length = seen.length)
    (hlo : ∀ e ∈ seen2 ++ lo', esStop e ≤ start)
    (hpass : Pass i (start - 1) n1 m1 [] seen2 (lo' ++ seen.filterMap survive) r)
    (hroot' : sb'.root i = r.2.2.2.root i) (hpos' : shrinkLblk sb' i = shrinkLblk r.2.2.2 i)
    (hm : m = r.2.2.1) (htree : TreeOk (sb'.root i)) : Turned i n sb sb' (seen ++ seen2) m := by
  obtain ⟨hroot, hbudget2, hshrunk2, hstops, -⟩ := hpass
  rw [List.nil_append] at hroot
  rw [← hpos'] at hstops
  rw [hroot] at hroot'
  have hsum : m + ((seen ++ seen2).filterMap survive).length = (seen ++ seen2).length := by
    rw [List.filterMap_append, List.length_append, List.length_append]
    omega
  have hlen : (seen ++ seen2).length ≤ n := by
    rw [List.length_append]
    omega
  rw [← List.append_assoc] at hq
  generalize hkeptList : seen.filterMap survive = kept at *
  have hfilter : (seen ++ seen2).filterMap survive = kept ++ seen2.filterMap survive := by
    rw [List.filterMap_append, hkeptList]
  cases hrest : lo' ++ kept with
  | nil =>
    -- all entries have been examined, and those behind the start are gone
    obtain ⟨rfl, rfl⟩ := List.append_eq_nil_iff.mp hrest
    rw [hrest] at hstops
    obtain ⟨hzero, hbet⟩ := htree.queue_zero
    rw [← hstops.2] at hzero hbet
    refine .of hq (.inr ⟨rfl, hlen⟩) ?_ hbet hsum
    rw [hzero, hroot', hfilter]
    simp
  | cons x rest =>
    rw [hrest] at hstops
    rcases hstops with ⟨-, hzero, hpos⟩ | ⟨-, hlast, hpos⟩
    · -- the budget ends in the second pass
      rw [hrest] at hroot'
      rw [hroot'] at htree
      obtain ⟨hat, hbet⟩ := htree.queue_at
      rw [← hpos, ← hroot'] at hat hbet
      refine .of hq (.inl ?_) ?_ hbet hsum
      · rw [List.length_append]
        omega
      · rw [hat, ← hrest, hfilter, List.append_assoc]
    · -- the second pass has come to the start
      have hnil : lo' = [] := by
        cases lo' with
        | nil => rfl
        | cons y ys =>
          have h1 := hlo y (by simp)
          have h2 := htree.stop_pos (e := y) (by rw [hroot']; simp)
          rw [List.cons_append] at hrest
          injection hrest with hyx _
          subst hyx
          omega
      subst hnil
      have hstart' : shrinkLblk sb' i = start := by
        rw [hpos, Nat.sub_add_cancel hstart, Nat.mod_eq_of_lt hlt]
      rw [List.nil_append] at hroot' hrest
      have hkept : ∀ e ∈ kept, start ≤ e.esLblk := by
        rw [hroot', hrest] at htree
        have hx := htree.stop_pos (e := x) (by simp)
        rw [hrest]
        exact fun e he => Nat.le_trans (by omega) (htree.start_le_from e he)
      have hfront : ∀ e ∈ seen2.filterMap survive, esStop e ≤ start := by
        intro e' he'
        obtain ⟨e, he, hs⟩ := List.mem_filterMap.mp he'
        rw [(survive_range hs).2]
        exact hlo e (List.mem_append_left _ he)
      have hback : ∀ e ∈ kept, start < esStop e := fun e he =>
        Nat.lt_of_le_of_lt (hkept e he) (htree.stop_pos (by rw [hroot']; simp [he]))
      refine .of hq (.inr ⟨rfl, hlen⟩) ?_ ⟨by rwa [hstart'], fun e he hbefore => ?_⟩ hsum
      · rw [hstart', hroot', queue_of_split hfront hback, hfilter, List.nil_append]
      · rw [hstart'] at hbefore ⊢
        rw [hroot'] at he
        rcases List.mem_append.mp he with he | he
        · exact hfront e he
        · exact absurd hbefore (Nat.not_lt.mpr (hkept e he))

/-- A budget `n` does not reach an entry twice: nothing is scanned, the budget is
for no more than all entries, or an entry around the position goes at the first
visit. -/
def OneVisit (sb : Ext4SbInfo) (i n : Nat) : Prop :=
  (sb.inodes i).iEsShkNr = 0 ∨ n ≤ (sb.root i).length
    ∨ ∀ e ∈ sb.root i, e.esLblk < shrinkLblk sb i → shrinkLblk sb i < esStop e →
      ext4EsIsDelayed e = false ∧ ext4EsIsReferenced e = false

theorem Between.oneVisit {i : Nat} (h : Between (sb.root i) (shrinkLblk sb i)) (n : Nat) :
    OneVisit sb i n :=
  .inr (.inr fun e he hlt hstop => absurd (h.outside e he hlt) (Nat.not_le.mpr hstop))

/-- **`es_reclaim_extents`** takes a turn on the queue. -/
theorem esReclaimExtents_turned (rb : RbShape) (h : EsInv sb) (hlt32 : shrinkLblk sb i < 2 ^ 32)
    (hshk : (sb.inodes i).iEsShkNr ≠ 0) (hone : OneVisit sb i n) :
    Turned i n sb (esReclaimExtents rb sb i n).2.2 (examined rb sb i n)
      (esReclaimExtents rb sb i n).1 := by
  have htree' := (esReclaimExtents_spec h rb i n).inv.tree i
  obtain ⟨lo, hi, rest, hroot, hlo, hhi, hhi', hpass⟩ :=
    doReclaim_pass rb (h.tree i) extMaxBlocks n 0
  have hcore := (esDoReclaimExtents_spec (i := i) h.toEsCore rb extMaxBlocks n 0).core
  have hq : queue (sb.root i) (shrinkLblk sb i) = hi ++ lo := by
    rw [hroot]
    exact queue_of_split hlo hhi
  rw [esReclaimExtents, if_neg hshk] at htree' ⊢
  rw [examined, if_neg hshk]
  generalize doExamined rb sb i extMaxBlocks n = seen at hhi' hpass ⊢
  generalize esDoReclaimExtents rb sb i extMaxBlocks n 0 = r at hpass hcore htree' ⊢
  obtain ⟨full, n1, m1, sb1⟩ := r
  obtain ⟨hroot1, hbudget, hshrunk, hstops, -⟩ := hpass
  dsimp only at hroot1 hbudget hshrunk hstops hcore htree' ⊢
  rw [Nat.zero_add] at hshrunk
  subst hhi'
  cases rest with
  | cons x rest =>
    rcases hstops with ⟨rfl, hzero, hpos⟩ | ⟨-, hlt, -⟩
    · -- the budget ends in the first pass
      simp only [Bool.not_true, Bool.false_and, Bool.false_eq_true, if_false, root_setCache,
        List.append_nil] at htree' ⊢
      rw [hroot1, ← List.append_assoc] at htree'
      obtain ⟨hat, hbet⟩ := htree'.queue_at
      refine .of (hq.trans (List.append_assoc seen (x :: rest) lo)) (.inl (by omega)) ?_ ?_ hshrunk
      · rw [root_setCache, shrinkLblk_setCache, hpos, hroot1, ← List.append_assoc, hat,
          List.append_assoc]
      · rwa [root_setCache, shrinkLblk_setCache, hpos, hroot1, ← List.append_assoc]
    · have hx : x ∈ sb.root i := by rw [hroot]; simp
      have h1 := (h.tree i).stop_pos hx
      have h2 := ((h.tree i).entries x hx).le_max
      omega
  | nil =>
    obtain ⟨rfl, hpos⟩ := hstops
    rw [List.append_nil] at hhi hq hroot hroot1
    by_cases hstart : (sb.inodes i).iEsShrinkLblk = 0
    · -- a scan of the whole tree, without a second pass
      simp only [hstart, bne_self_eq_false, Bool.and_false, Bool.false_eq_true, if_false,
        root_setCache, List.append_nil] at htree' ⊢
      obtain rfl := TreeOk.front_nil (hroot ▸ h.tree i) hlo hstart
      obtain ⟨hzero, hbet⟩ := htree'.queue_zero
      refine .of hq (.inr ⟨rfl, by omega⟩) ?_ ?_ hshrunk
      · rw [root_setCache, shrinkLblk_setCache, hpos, hzero, hroot1]
      · rwa [root_setCache, shrinkLblk_setCache, hpos]
    · have hne : ((sb.inodes i).iEsShrinkLblk != 0) = true := by simpa using hstart
      simp only [hne, Bool.not_false, Bool.and_true, if_true] at htree' ⊢
      have hkept : (∀ e ∈ seen.filterMap survive, (sb.inodes i).iEsShrinkLblk ≤ e.esLblk)
          ∨ n1 ≤ lo.length := by
        rcases hone with hzero | hle | hgone
        · exact absurd hzero hshk
        · rw [hroot, List.length_append] at hle
          exact .inr (by omega)
        · refine .inl fun e' he' => ?_
          obtain ⟨e, he, hs⟩ := List.mem_filterMap.mp he'
          rw [(survive_range hs).1]
          by_contra hlt
          obtain ⟨hd, hr⟩ := hgone e (by rw [hroot]; exact List.mem_append_right lo he)
            (Nat.not_le.mp hlt) (hhi e he)
          rw [survive, hd, hr] at hs
          cases hs
      obtain ⟨lo', hlo', hpass2⟩ := second_pass rb hcore hpos hroot1 hkept
        (Nat.pos_of_ne_zero hstart) m1
      subst hlo'
      exact second_turned hq hlt32 (Nat.pos_of_ne_zero hstart) hbudget hshrunk hlo hpass2
        (root_setCache _ _ _ _) (shrinkLblk_setCache _ _ _) rfl htree'

/-- What a call is to do: visit no entry twice, free only entries that are
neither delayed nor referenced, change nothing but reference marks, and
return the number of freed entries. -/
structure ScansOnce (i : Nat) (sb sb' : Ext4SbInfo) (seen : List ExtentStatus) (m : Nat) :
    Prop where
  once : (seen.map ExtentStatus.addr).Nodup
  delayed : ∀ e ∈ sb.root i, ext4EsIsDelayed e = true → e ∈ sb'.root i
  referenced : ∀ e ∈ sb.root i, ext4EsIsReferenced e = true →
    e ∈ sb'.root i ∨ ext4EsClearReferenced e ∈ sb'.root i
  origin : ∀ e' ∈ sb'.root i, ∃ e ∈ sb.root i, e' = e ∨ e' = ext4EsClearReferenced e
  counted : m + (sb'.root i).length = (sb.root i).length

theorem Turned.scansOnce {i : Nat} (h : Turned i n sb sb' seen m)
    (htree : TreeOk (sb.root i)) : ScansOnce i sb sb' seen m := by
  obtain ⟨rfl, hqueue, -, hshrunk⟩ := h
  have hperm := queue_perm (sb.root i) (shrinkLblk sb i)
  have hperm' := queue_perm (sb'.root i) (shrinkLblk sb' i)
  rw [hqueue, turn] at hperm'
  generalize queue (sb.root i) (shrinkLblk sb i) = q at hperm hperm' hshrunk ⊢
  -- an entry that a visit spares is still there
  have hkeep : ∀ e ∈ sb.root i, ∀ e', survive e = some e' → e ∈ sb'.root i ∨ e' ∈ sb'.root i := by
    intro e he e' hs
    have hq : e ∈ q.take n ++ q.drop n := by
      rw [List.take_append_drop]
      exact hperm.mem_iff.mpr he
    rcases List.mem_append.mp hq with hq | hq
    · exact .inr (hperm'.mem_iff.mp
        (List.mem_append_right _ (List.mem_filterMap.mpr ⟨e, hq, hs⟩)))
    · exact .inl (hperm'.mem_iff.mp (List.mem_append_left _ hq))
  refine ⟨?_, fun e he hd => ?_, fun e he hr => ?_, fun e' he' => ?_, ?_⟩
  · have hnodup : (q.map ExtentStatus.addr).Nodup :=
      (hperm.map ExtentStatus.addr).nodup_iff.mpr htree.addrs
    exact hnodup.sublist ((List.take_sublist n q).map _)
  · have hs : survive e = some e := if_pos hd
    exact (hkeep e he e hs).elim id id
  · by_cases hd : ext4EsIsDelayed e = true
    · exact .inl ((hkeep e he e (if_pos hd)).elim id id)
    · exact hkeep e he _ (by rw [survive, if_neg hd, if_pos hr])
  · rcases List.mem_append.mp (hperm'.mem_iff.mpr he') with hq | hq
    · exact ⟨e', hperm.mem_iff.mp (List.mem_of_mem_drop hq), .inl rfl⟩
    · obtain ⟨e, he, hs⟩ := List.mem_filterMap.mp hq
      exact ⟨e, hperm.mem_iff.mp (List.mem_of_mem_take he), survive_cases hs⟩
  · have h1 := hperm.length_eq
    have h2 := hperm'.length_eq
    have h3 : (q.take n).length + (q.drop n).length = q.length := by
      rw [← List.length_append, List.take_append_drop]
    rw [List.length_append] at h2
    omega

/-- The first pass with a budget for more than all entries comes to the end. -/
theorem Pass.to_end (h : Pass i extMaxBlocks n m before seen rest r)
    (htree : TreeOk (sb.root i)) (hroot : sb.root i = before ++ (seen ++ rest))
    (hn : (sb.root i).length < n) : rest = [] := by
  obtain ⟨-, hbudget, -, hstops, -⟩ := h
  cases rest with
  | nil => rfl
  | cons x rest =>
    rcases hstops with ⟨-, hzero, -⟩ | ⟨-, hlt, -⟩
    · rw [hroot, List.length_append, List.length_append] at hn
      omega
    · have hx : x ∈ sb.root i := by rw [hroot]; simp
      have h1 := htree.stop_pos hx
      have h2 := (htree.entries x hx).le_max
      omega

/-- The second pass then comes to an entry that begins in front of `start` as well. -/
theorem Pass.again {lo kept : List ExtentStatus} {e' : ExtentStatus}
    (h : Pass i (start - 1) n m [] seen rest r) (hroot : lo ++ e' :: kept = seen ++ rest)
    (hlo : ∀ e ∈ lo, e.esLblk < start) (he' : e'.esLblk < start) (hn : lo.length < n) :
    ∃ c, seen = lo ++ e' :: c := by
  obtain ⟨-, hbudget, -, hstops, -⟩ := h
  rcases List.append_eq_append_iff.mp hroot with ⟨c, hseen, hrest⟩ | ⟨c, hlo', hrest⟩
  · cases c with
    | nil =>
      rw [List.append_nil] at hseen
      rw [List.nil_append] at hrest
      rw [← hrest] at hstops
      rw [hseen] at hbudget
      rcases hstops with ⟨-, hzero, -⟩ | ⟨-, hlt, -⟩ <;> omega
    | cons y c =>
      rw [List.cons_append] at hrest
      injection hrest with hy _
      exact ⟨c, hy ▸ hseen⟩
  · have hlen : seen.length ≤ lo.length := by
      rw [hlo', List.length_append]
      omega
    cases rest with
    | nil => cases c <;> cases hrest
    | cons x rest =>
      have hx : x.esLblk < start := by
        cases c with
        | nil =>
          rw [List.nil_append] at hrest
          injection hrest with hx _
          exact hx ▸ he'
        | cons y c =>
          rw [List.cons_append] at hrest
          injection hrest with hx _
          exact hlo x (by rw [hlo', hx]; simp)
      rcases hstops with ⟨-, hzero, -⟩ | ⟨-, hlt, -⟩ <;> omega

/-- A budget for more than all entries, with an entry around the position that
stays: all are examined, and that one twice. -/
theorem examined_twice (rb : RbShape) (h : EsInv sb) (hone : ¬ OneVisit sb i n) :
    (∀ e ∈ sb.root i, e ∈ examined rb sb i n)
      ∧ ¬ ((examined rb sb i n).map ExtentStatus.addr).Nodup := by
  rw [OneVisit, not_or, not_or, Nat.not_le] at hone
  obtain ⟨hshk, hn, hstays⟩ := hone
  obtain ⟨e, he, hbegin, hstop, hmarked⟩ : ∃ e ∈ sb.root i, e.esLblk < shrinkLblk sb i
      ∧ shrinkLblk sb i < esStop e
      ∧ ¬ (ext4EsIsDelayed e = false ∧ ext4EsIsReferenced e = false) := by
    by_contra hno
    exact hstays fun e he h1 h2 => by_contra fun h3 => hno ⟨e, he, h1, h2, h3⟩
  obtain ⟨e', hs⟩ : ∃ e', survive e = some e' := by
    rw [survive]
    split
    · exact ⟨e, rfl⟩
    · rename_i hd
      rw [if_pos (by simpa [hd] using hmarked)]
      exact ⟨_, rfl⟩
  obtain ⟨lo, hi, rest, hroot, hlo, hhi, hhi', hpass⟩ :=
    doReclaim_pass rb (h.tree i) extMaxBlocks n 0
  have hcore := (esDoReclaimExtents_spec (i := i) h.toEsCore rb extMaxBlocks n 0).core
  rw [hhi'] at hroot
  obtain rfl := hpass.to_end (h.tree i) hroot hn
  rw [List.append_nil] at hroot hhi'
  rw [← hhi'] at hroot
  -- the entry is the first one of the first pass
  obtain ⟨tail, htail⟩ : ∃ tail, hi = e :: tail := by
    have hmem : e ∈ hi := by
      rw [hroot] at he
      refine (List.mem_append.mp he).resolve_left fun hmem => ?_
      have := hlo e hmem
      omega
    obtain ⟨A, B, hAB⟩ := List.append_of_mem hmem
    have hA : A = [] := List.eq_nil_iff_forall_not_mem.mpr fun y hy => by
      have htree := h.tree i
      rw [hroot, hAB, ← List.append_assoc] at htree
      have h1 := (htree.before_cur y (List.mem_append_right lo hy)).stop_le
      have h2 := hhi y (by rw [hAB]; exact List.mem_append_left _ hy)
      omega
    exact ⟨B, by rw [hAB, hA, List.nil_append]⟩
  rw [examined, if_neg hshk]
  rw [← hhi'] at hpass ⊢
  generalize esDoReclaimExtents rb sb i extMaxBlocks n 0 = r at hpass hcore ⊢
  obtain ⟨full, n1, m1, sb1⟩ := r
  obtain ⟨hroot1, hbudget, -, ⟨rfl, hpos⟩, -⟩ := hpass
  dsimp only at hroot1 hbudget hpos hcore ⊢
  have hne : ((sb.inodes i).iEsShrinkLblk != 0) = true := by
    have : (sb.inodes i).iEsShrinkLblk ≠ 0 :=
      Nat.ne_of_gt (Nat.lt_of_le_of_lt (Nat.zero_le _) hbegin)
    simpa using this
  simp only [hne, Bool.not_false, Bool.and_true, if_true]
  obtain ⟨lo2, hi2, rest2, hroot2, hlo2, -, hhi2, hpass2⟩ :=
    doReclaim_pass rb (hcore.tree i) ((sb.inodes i).iEsShrinkLblk - 1) n1 m1
  obtain rfl := TreeOk.front_nil (hroot2 ▸ hcore.tree i) hlo2 hpos
  rw [hroot1, htail, List.filterMap_cons_some hs, List.append_nil, List.nil_append, hhi2] at hroot2
  obtain ⟨c, hagain⟩ := hpass2.again hroot2
    (fun x hx => Nat.lt_of_lt_of_le ((h.tree i).stop_pos (by rw [hroot]; simp [hx])) (hlo x hx))
    ((survive_range hs).1 ▸ hbegin) (by rw [hroot, List.length_append] at hn; omega)
  rw [hagain]
  refine ⟨fun x hx => ?_, fun hnodup => ?_⟩
  · rw [hroot] at hx
    rcases List.mem_append.mp hx with hx | hx
    · exact List.mem_append_right _ (List.mem_append_left _ hx)
    · exact List.mem_append_left _ hx
  · rw [List.map_append, List.nodup_append] at hnodup
    refine hnodup.2.2 e.addr (List.mem_map_of_mem (by rw [htail]; simp)) e'.addr ?_ ?_
    · exact List.mem_map_of_mem (List.mem_append_right _ List.mem_cons_self)
    · rcases survive_cases hs with rfl | rfl <;> rfl

/-! ## Calls in a row -/

/-- The entries that calls examine, each on a tree of some shape and with some budget. -/
def visited (i : Nat) : List (RbShape × Nat) → Ext4SbInfo → List ExtentStatus
  | [], _ => []
  | (rb, n) :: calls, sb => examined rb sb i n ++ visited i calls (esReclaimExtents rb sb i n).2.2

/-- Calls with a budget, as many as there are entries, visit them all. -/
def VisitsAll (i : Nat) (sb : Ext4SbInfo) : Prop :=
  ∀ calls : List (RbShape × Nat), (∀ c ∈ calls, 0 < c.2) → (sb.root i).length ≤ calls.length →
    ∀ e ∈ sb.root i, e ∈ visited i calls sb

/-- Nothing is left that could be freed. -/
def onlyDelayed (q : List ExtentStatus) : Bool := q.all ext4EsIsDelayed

/-- An entry that could be freed stays to the end of the first round: one that is
referenced, or the last one of the queue. -/
def Lively (q : List ExtentStatus) : Prop :=
  (∃ e ∈ q, ext4EsIsDelayed e = false ∧ ext4EsIsReferenced e = true)
    ∨ q.getLast?.any ext4EsIsDelayed = false

theorem shk_zero_iff (h : EsInv sb) (p : Nat) :
    (sb.inodes i).iEsShkNr = 0 ↔ onlyDelayed (queue (sb.root i) p) = true := by
  rw [h.acct.shk i, shkCount, List.countP_eq_zero, onlyDelayed, List.all_eq_true]
  simp only [(queue_perm (sb.root i) p).mem_iff, Bool.not_eq_true', Bool.not_eq_false]

theorem visited_of_shk_zero (hshk : (sb.inodes i).iEsShkNr = 0) (calls : List (RbShape × Nat)) :
    visited i calls sb = [] := by
  induction calls with
  | nil => rfl
  | cons c calls ih =>
    have hcall : (esReclaimExtents c.1 sb i c.2).2.2 = sb := by
      rw [esReclaimExtents, if_pos hshk]
    rw [visited, hcall, ih, examined, if_pos hshk]
    rfl

/-- The calls serve the queue, until only delayed entries are left. -/
theorem visited_eq_served (calls : List (RbShape × Nat)) (h : EsInv sb)
    (hlt : shrinkLblk sb i < 2 ^ 32) (hfirst : ∀ c ∈ calls.head?, OneVisit sb i c.2) :
    visited i calls sb = served survive onlyDelayed (calls.map Prod.snd)
      (queue (sb.root i) (shrinkLblk sb i)) := by
  induction calls generalizing sb with
  | nil => rfl
  | cons c calls ih =>
    obtain ⟨rb, n⟩ := c
    by_cases hshk : (sb.inodes i).iEsShkNr = 0
    · rw [visited_of_shk_zero hshk, served_of_stop _ ((shk_zero_iff h _).mp hshk)]
    · have hturn := esReclaimExtents_turned rb h hlt hshk (hfirst _ rfl)
      rw [visited, ih (esReclaimExtents_spec h rb i n).inv hturn.between.lt
          fun c _ => hturn.between.oneVisit c.2,
        hturn.queue_eq, hturn.seen_eq, List.map_cons, served,
        if_neg fun hstop => hshk ((shk_zero_iff h _).mpr hstop)]

theorem lively_iff {q : List ExtentStatus} :
    (∀ t < q.length, onlyDelayed (turn survive t q) = false) ↔ Lively q := by
  have hall : ∀ l : List ExtentStatus, onlyDelayed l = false ↔ ∃ e ∈ l, ext4EsIsDelayed e = false :=
    fun l => by rw [onlyDelayed, List.all_eq_false]; simp only [Bool.not_eq_true]
  rcases List.eq_nil_or_concat q with rfl | ⟨front, last, rfl⟩
  · exact iff_of_true (fun t ht => absurd ht (Nat.not_lt_zero t)) (.inr rfl)
  rw [List.concat_eq_append, Lively, List.getLast?_concat]
  constructor
  · -- the queue before the last entry is served
    intro hlive
    obtain ⟨e, he, hd⟩ := (hall _).mp (hlive front.length (by simp))
    rw [turn, List.drop_left, List.take_left] at he
    rcases List.mem_append.mp he with he | he
    · rw [List.mem_singleton.mp he] at hd
      exact .inr hd
    · obtain ⟨x, hx, hs⟩ := List.mem_filterMap.mp he
      refine .inl ⟨x, List.mem_append_left _ hx, ?_⟩
      rw [survive] at hs
      split at hs
      · rename_i hxd
        rw [Option.some.inj hs, hd] at hxd
        cases hxd
      · rename_i hxd
        split at hs
        · rename_i hr
          exact ⟨Bool.eq_false_iff.mpr hxd, hr⟩
        · cases hs
  · rintro hlive t ht
    rw [hall, turn]
    rcases hlive with ⟨e, he, hd, hr⟩ | hd
    · rw [← List.take_append_drop t (front ++ [last])] at he
      rcases List.mem_append.mp he with he | he
      · refine ⟨ext4EsClearReferenced e,
          List.mem_append_right _ (List.mem_filterMap.mpr ⟨e, he, ?_⟩),
          (isDelayed_congr (type_clearReferenced e)).trans hd⟩
        rw [survive, hd, if_neg Bool.false_ne_true, if_pos hr]
      · exact ⟨e, List.mem_append_left _ he, hd⟩
    · refine ⟨last, List.mem_append_left _ ?_, hd⟩
      rw [List.length_append, List.length_singleton] at ht
      rw [List.drop_append_of_le_length (Nat.le_of_lt_succ ht)]
      exact List.mem_append_right _ (List.mem_singleton_self last)

theorem visitsAll_iff (h : EsInv sb) (hlt : shrinkLblk sb i < 2 ^ 32) :
    VisitsAll i sb ↔ Lively (queue (sb.root i) (shrinkLblk sb i)) := by
  have hperm := queue_perm (sb.root i) (shrinkLblk sb i)
  rw [← lively_iff]
  constructor
  · intro hall t ht
    by_contra hstop
    obtain ⟨ns, hpos, hlen, hhead, hsub⟩ := served_subset (Bool.eq_true_of_not_eq_false hstop)
    -- an entry behind the first `t` is not visited
    obtain ⟨x, hx⟩ := List.exists_mem_of_length_pos (show 0 < (List.drop t
      (queue (sb.root i) (shrinkLblk sb i))).length by rw [List.length_drop]; omega)
    have hvisited := hall (ns.map fun n => ((EsEnv.unbalanced []).rb, n))
      (fun c hc => by obtain ⟨n, hn, rfl⟩ := List.mem_map.mp hc; exact hpos n hn)
      (by rw [List.length_map, ← hperm.length_eq]; exact hlen) x
      (hperm.mem_iff.mp (List.mem_of_mem_drop hx))
    rw [visited_eq_served _ h hlt, List.map_map, show Prod.snd ∘ (fun n => (_, n)) = id from rfl,
      List.map_id] at hvisited
    · have hnodup : (queue (sb.root i) (shrinkLblk sb i)).Nodup :=
        hperm.nodup_iff.mpr (List.Nodup.of_map _ (h.tree i).addrs)
      exact List.disjoint_take_drop hnodup (Nat.le_refl t) (hsub x hvisited) hx
    · intro c hc
      rw [List.head?_map] at hc
      obtain ⟨n, hn, rfl⟩ := Option.mem_map.mp hc
      refine .inr (.inl ?_)
      rw [← hperm.length_eq]
      rcases hhead n hn with rfl | ⟨rfl, rfl⟩ <;> omega
  · intro hlive calls hpos hlen e he
    cases calls with
    | nil => exact absurd (List.length_pos_of_mem he) (Nat.not_lt.mpr hlen)
    | cons c calls =>
      by_cases hone : OneVisit sb i c.2
      · rw [visited_eq_served _ h hlt fun c' hc' => by rw [← Option.some.inj hc']; exact hone]
        have := @mem_served _ survive onlyDelayed _ 0 ((c :: calls).map Prod.snd) hlive
          (fun n hn => by obtain ⟨c, hc, rfl⟩ := List.mem_map.mp hn; exact hpos c hc)
          (by rw [List.length_map, hperm.length_eq, Nat.zero_add]; exact hlen) e
          (by rw [List.drop_zero]; exact hperm.mem_iff.mpr he)
        rwa [turn_zero] at this
      · exact List.mem_append_left _ ((examined_twice c.1 h hone).1 e he)

/-- **`es_reclaim_extents`**: a call visits no entry twice and frees what it may
exactly if its budget does not bring it back to an entry that stays; calls with
a budget visit every entry, one call for each, exactly if there is something to
free until the end of the first round. -/
theorem reclaim_scans_once {sb : Ext4SbInfo} {i : Nat} (h : EsInv sb)
    (hlt : shrinkLblk sb i < 2 ^ 32) :
    (∀ rb n, ScansOnce i sb (esReclaimExtents rb sb i n).2.2 (examined rb sb i n)
        (esReclaimExtents rb sb i n).1 ↔ OneVisit sb i n)
      ∧ (VisitsAll i sb ↔ Lively (queue (sb.root i) (shrinkLblk sb i))) := by
  refine ⟨fun rb n => ⟨fun hscan => ?_, fun hone => ?_⟩, visitsAll_iff h hlt⟩
  · by_contra hone
    exact (examined_twice rb h hone).2 hscan.once
  · by_cases hshk : (sb.inodes i).iEsShkNr = 0
    · rw [esReclaimExtents, examined, if_pos hshk, if_pos hshk]
      exact ⟨List.nodup_nil, fun e he _ => he, fun e he _ => .inl he,
        fun e he => ⟨e, he, .inl rfl⟩, Nat.zero_add _⟩
    · exact (esReclaimExtents_turned rb h hlt hshk hone).scansOnce (h.tree i)

/-! ## A position inside an entry -/

/-- The scan stands at block 5 when the entry there grows to the left: now it
is the only entry, from block 0 to 10, and referenced. -/
def grownOver : List (EsEnv × EsOp) :=
  [(.unbalanced [], .insert 0 0#32 2#32 100#64 1#32),
    (.unbalanced [], .insert 0 5#32 5#32 105#64 1#32),
    (.unbalanced [], .reclaim 0 1),
    (.unbalanced [], .insert 0 0#32 5#32 100#64 1#32),
    (.unbalanced [], .lookup 0 7#32)]

theorem exists_of_any {α : Type} {o : Option α} {P : α → Prop} [DecidablePred P]
    (h : o.any (fun x => decide (P x)) = true) : ∃ x, o = some x ∧ P x := by
  obtain ⟨x, hx, hP⟩ := (Option.any_eq_true _ _).mp h
  exact ⟨x, hx, of_decide_eq_true hP⟩

/-- One call visits the entry twice and frees it. -/
theorem reclaim_frees_referenced :
    ∃ st, run grownOver EsState.init = some st
      ∧ (st.sb.root 0).map (fun e => (e.addr, ext4EsIsReferenced e)) = [(1, true)]
      ∧ (examined (EsEnv.unbalanced []).rb st.sb 0 2).map ExtentStatus.addr = [1, 1]
      ∧ (esReclaimExtents (EsEnv.unbalanced []).rb st.sb 0 2).1 = 1 := by
  exact exists_of_any (by decide +kernel)

/-- Before that the position was between the entries, of which the last can be freed. -/
theorem reclaim_scans_once_two :
    ∃ st, run (grownOver.take 2) EsState.init = some st
      ∧ ScansOnce 0 st.sb (esReclaimExtents (EsEnv.unbalanced []).rb st.sb 0 3).2.2
        (examined (EsEnv.unbalanced []).rb st.sb 0 3)
        (esReclaimExtents (EsEnv.unbalanced []).rb st.sb 0 3).1
      ∧ VisitsAll 0 st.sb := by
  have hok : ∀ s ∈ grownOver.take 2, s.2.Ok := by
    intro s hs
    simp only [grownOver, List.take_succ_cons, List.take_zero, List.mem_cons, List.not_mem_nil,
      or_false] at hs
    rcases hs with rfl | rfl
    · exact ⟨by decide, by decide⟩
    · exact ⟨by decide, by decide⟩
  obtain ⟨st, hrun, hpos, hlast⟩ : ∃ st, run (grownOver.take 2) EsState.init = some st
      ∧ shrinkLblk st.sb 0 = 0
      ∧ (queue (st.sb.root 0) (shrinkLblk st.sb 0)).getLast?.any ext4EsIsDelayed = false :=
    exists_of_any (by decide +kernel)
  have hst := RunInv.of_run hok hrun
  obtain ⟨hscan, hvisit⟩ := reclaim_scans_once (i := 0) hst.inv (by rw [hpos]; decide)
  refine ⟨st, hrun, (hscan _ 3).mpr (Between.oneVisit ?_ 3), hvisit.mpr (.inr hlast)⟩
  rw [hpos]
  exact (hst.inv.tree 0).queue_zero.2

end Ext4.ExtentsStatus
