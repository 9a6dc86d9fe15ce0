import Ext4.ExtentsStatus.Runs

/-!
# Extent status — looking for delayed extents

`ext4_es_find_delayed_extent_range` starts at `cache_es` or at a search of
the tree and then scans forward. Only the forward scan compares with the end
of the range: if the entry it starts from is delayed already, that entry is
reported, wherever it begins. The answer is stated here by linear scans of
the in-order sequence, and it is the same on every route.
-/

namespace Ext4.ExtentsStatus

open SearchTree Ext4SbInfo

/-- The entry has a block in `lblk .. last`. -/
def Intersects (e : ExtentStatus) (lblk last : Nat) : Prop := e.esLblk ≤ last ∧ lblk < esStop e

instance (e : ExtentStatus) (lblk last : Nat) : Decidable (Intersects e lblk last) :=
  inferInstanceAs (Decidable (_ ∧ _))

/-- The first delayed entry with a block in `lblk .. last`. -/
def firstDelayed (l : List ExtentStatus) (lblk last : Nat) : Option ExtentStatus :=
  l.find? fun e => ext4EsIsDelayed e && decide (Intersects e lblk last)

/-- The first entry that ends behind `lblk`. -/
def firstBehind (l : List ExtentStatus) (lblk : Nat) : Option ExtentStatus :=
  l.find? fun e => decide (lblk < esStop e)

/-- A block that an entry of the tree marks as delayed. -/
def DelayedAt (l : List ExtentStatus) (b : Nat) : Prop :=
  ∃ e ∈ l, ext4EsIsDelayed e = true ∧ e.esLblk ≤ b ∧ b < esStop e

section Scan

variable {l before after : List ExtentStatus} {e : ExtentStatus} {lblk last : Nat}

theorem firstDelayed_append (h : ∀ x ∈ before, esStop x ≤ lblk) :
    firstDelayed (before ++ l) lblk last = firstDelayed l lblk last := by
  rw [firstDelayed, List.find?_append, List.find?_eq_none.mpr, Option.none_or, firstDelayed]
  intro x hx hfound
  rw [Bool.and_eq_true, decide_eq_true_eq] at hfound
  exact absurd hfound.2.2 (Nat.not_lt.mpr (h x hx))

theorem firstBehind_append (h : ∀ x ∈ before, esStop x ≤ lblk) :
    firstBehind (before ++ l) lblk = firstBehind l lblk := by
  rw [firstBehind, List.find?_append, List.find?_eq_none.mpr, Option.none_or, firstBehind]
  exact fun x hx hfound => Nat.not_lt.mpr (h x hx) (of_decide_eq_true hfound)

/-- Behind an entry that begins past the range there is nothing to find. -/
theorem firstDelayed_eq_none (h : TreeOk (e :: after)) (hlast : last < e.esLblk) :
    firstDelayed (e :: after) lblk last = none := by
  rw [firstDelayed, List.find?_eq_none]
  intro x hx hfound
  have hx' := TreeOk.start_le_from (b := []) h x hx
  rw [Bool.and_eq_true, decide_eq_true_eq] at hfound
  exact absurd hfound.2.1 (by omega)

theorem nextDelayed_eq (h : TreeOk l) (hl : ∀ x ∈ l, lblk < esStop x) :
    nextDelayed last l = firstDelayed l lblk last := by
  induction l with
  | nil => rfl
  | cons x rest ih =>
    have hrest : TreeOk rest := h.sublist (List.sublist_cons_self x rest)
    rw [nextDelayed]
    split
    · rename_i hlast
      exact (firstDelayed_eq_none h hlast).symm
    · rename_i hlast
      have hx : Intersects x lblk last := ⟨Nat.le_of_not_lt hlast, hl x (by simp)⟩
      rw [ih hrest fun y hy => hl y (by simp [hy])]
      simp only [firstDelayed, List.find?_cons, hx, decide_true, Bool.and_true]
      cases ext4EsIsDelayed x <;> rfl

theorem findFrom_eq (h : TreeOk (before ++ e :: after)) (hb : ∀ x ∈ before, esStop x ≤ lblk)
    (he : lblk < esStop e) :
    findFrom last ⟨before, e, after⟩
      = (firstDelayed (before ++ e :: after) lblk last).or
          ((firstBehind (before ++ e :: after) lblk).filter ext4EsIsDelayed) := by
  have htail : TreeOk (e :: after) := h.sublist (List.sublist_append_right _ _)
  have hafter : ∀ x ∈ after, lblk < esStop x := by
    intro x hx
    have h1 := (List.pairwise_cons.mp htail.order).1 x hx
    have h2 := h1.stop_le
    have h3 := (htail.entries x (by simp [hx])).pos
    rw [esStop] at *
    omega
  rw [firstDelayed_append hb, firstBehind_append hb]
  have hbehind : firstBehind (e :: after) lblk = some e := by
    rw [firstBehind, List.find?_cons, decide_eq_true he]
  rw [hbehind, findFrom]
  cases hd : ext4EsIsDelayed e with
  | true =>
    -- reported without a look at the end of the range
    rw [if_pos rfl, Option.filter_some, if_pos hd]
    by_cases hlast : last < e.esLblk
    · rw [firstDelayed_eq_none htail hlast, Option.none_or]
    · have hi : Intersects e lblk last := ⟨Nat.le_of_not_lt hlast, he⟩
      simp [firstDelayed, hd, hi]
  | false =>
    have hskip : firstDelayed (e :: after) lblk last = firstDelayed after lblk last := by
      simp [firstDelayed, hd]
    rw [if_neg Bool.false_ne_true, Option.filter_some,
      if_neg (by rw [hd]; exact Bool.false_ne_true),
      Option.or_none, hskip]
    exact nextDelayed_eq (h.sublist ((List.sublist_cons_self e after).trans
      (List.sublist_append_right _ _))) hafter

end Scan

section Query

variable {sb : Ext4SbInfo} (rb : RbShape) (i : Nat)

variable {last : BitVec 32} {e : ExtentStatus} {lblk : Nat}

/-- On both routes the scan starts at the first entry that ends behind
`lblk`. -/
theorem findStart_spec (h : EsInv sb) {z : Zip ExtentStatus}
    (hz : findStart rb sb i lblk = some z) :
    z.toList = sb.root i ∧ (∀ x ∈ z.before, esStop x ≤ lblk) ∧ lblk < esStop z.cur := by
  unfold findStart at hz
  split at hz
  · rename_i w hw
    split at hz
    · rename_i hin
      obtain rfl := Option.some.inj hz
      have hlist := cached_some i hw
      have htree := h.tree i
      rw [← hlist, Zip.toList] at htree
      have hpos := (htree.entries w.cur (by simp)).pos
      simp only [inRange, decide_eq_true_eq] at hin
      refine ⟨hlist, fun x hx => ?_, ?_⟩
      · have h1 := (htree.before_cur x hx).stop_le
        omega
      · rw [esStop]
        omega
    · exact esTreeSearch_some (h.tree i) hz
  · exact esTreeSearch_some (h.tree i) hz

theorem findStart_none (h : EsInv sb) (hz : findStart rb sb i lblk = none) :
    ∀ x ∈ sb.root i, esStop x ≤ lblk := by
  unfold findStart at hz
  split at hz
  · split at hz
    · nomatch hz
    · exact esTreeSearch_none (h.tree i) hz
  · exact esTreeSearch_none (h.tree i) hz

theorem findDelayed_eq (h : EsInv sb) (lblk last : Nat) :
    (findStart rb sb i lblk).bind (findFrom last)
      = (firstDelayed (sb.root i) lblk last).or
          ((firstBehind (sb.root i) lblk).filter ext4EsIsDelayed) := by
  cases hz : findStart rb sb i lblk with
  | none =>
    have hall := findStart_none rb i h hz
    have h1 : firstDelayed (sb.root i ++ []) lblk last = firstDelayed [] lblk last :=
      firstDelayed_append hall
    have h2 := firstBehind_append (l := []) hall
    rw [List.append_nil] at h1 h2
    rw [h1, h2]
    rfl
  | some z =>
    obtain ⟨hlist, hbefore, hcur⟩ := findStart_spec rb i h hz
    have htree := h.tree i
    rw [← hlist] at htree ⊢
    exact findFrom_eq htree hbefore hcur

/-- A query changes no tree, and its answer is that of the linear scans. -/
theorem findDelayed_answer (h : EsInv sb) {lblk : BitVec 32} (hle : lblk ≤ last) :
    ∃ sb', ext4EsFindDelayedExtentRange rb sb i lblk last
        = some ((firstDelayed (sb.root i) lblk.toNat last.toNat).or
            ((firstBehind (sb.root i) lblk.toNat).filter ext4EsIsDelayed), sb')
      ∧ EsInv sb' ∧ ∀ j, sb'.root j = sb.root j := by
  obtain ⟨res, sb', hcall, hinv, -, -⟩ :=
    ext4EsFindDelayedExtentRange_spec rb i h (BitVec.not_lt.mpr hle)
  rw [← findDelayed_eq rb i h]
  rw [ext4EsFindDelayedExtentRange, if_neg (BitVec.not_lt.mpr hle)] at hcall ⊢
  cases hr : (findStart rb sb i lblk.toNat).bind (findFrom last.toNat) with
  | none => exact ⟨sb, rfl, h, fun _ => rfl⟩
  | some e =>
    rw [hr] at hcall
    cases hcall
    exact ⟨_, rfl, hinv, fun j => root_setCache ..⟩

variable {l : List ExtentStatus}

/-- The first delayed entry of a range, if a block of the range is delayed. -/
theorem firstDelayed_isSome {last : Nat} (h : TreeOk l) (hle : lblk ≤ last) :
    (firstDelayed l lblk last).isSome = true ↔ ∃ b, lblk ≤ b ∧ b ≤ last ∧ DelayedAt l b := by
  rw [firstDelayed, List.find?_isSome]
  constructor
  · rintro ⟨e, he, hfound⟩
    rw [Bool.and_eq_true, decide_eq_true_eq] at hfound
    obtain ⟨hd, hlast, hstop⟩ := hfound
    have hpos := (h.entries e he).pos
    refine ⟨max lblk e.esLblk, by omega, by omega, e, he, hd, by omega, ?_⟩
    rw [esStop] at *
    omega
  · rintro ⟨b, hb1, hb2, e, he, hd, hlo, hhi⟩
    refine ⟨e, he, ?_⟩
    rw [Bool.and_eq_true, decide_eq_true_eq]
    exact ⟨hd, by omega, by omega⟩

/-- With no delayed block in the range, a delayed entry behind `lblk` begins
past it. -/
theorem firstBehind_past {last : Nat} (hfirst : firstDelayed l lblk last = none)
    (hb : firstBehind l lblk = some e) (hd : ext4EsIsDelayed e = true) : last < e.esLblk := by
  by_contra hlast
  have hstop := List.find?_some hb
  rw [decide_eq_true_eq] at hstop
  have hnot := List.find?_eq_none.mp hfirst e (List.mem_of_find?_eq_some hb)
  rw [hd, Bool.true_and, decide_eq_true_eq] at hnot
  exact hnot ⟨Nat.le_of_not_lt hlast, hstop⟩

/-- In front of the first entry of some kind no block is delayed, if the kind
takes in the entries of these blocks. -/
theorem not_delayedAt_of_find {p : ExtentStatus → Bool} {b : Nat} (h : TreeOk l)
    (hfind : l.find? p = some e) (hb : b < e.esLblk)
    (hp : ∀ x, ext4EsIsDelayed x = true → x.esLblk ≤ b → b < esStop x → p x = true) :
    ¬ DelayedAt l b := by
  rintro ⟨x, hx, hd, hlo, hhi⟩
  obtain ⟨-, before, after, rfl, hbefore⟩ := List.find?_eq_some_iff_append.mp hfind
  rcases List.mem_append.mp hx with hx | hx
  · have hno := hbefore x hx
    rw [hp x hd hlo hhi] at hno
    cases hno
  · have := h.start_le_from x hx
    omega

/-- What a query says about the blocks from `lblk` on. -/
theorem findDelayed_blocks (h : EsInv sb) {lblk : BitVec 32} (hle : lblk ≤ last) :
    ∃ res sb', ext4EsFindDelayedExtentRange rb sb i lblk last = some (res, sb')
      ∧ EsInv sb' ∧ (∀ j, sb'.root j = sb.root j)
      ∧ match res with
        | none => ∀ b, lblk.toNat ≤ b → b ≤ last.toNat → ¬ DelayedAt (sb.root i) b
        | some e => e ∈ sb.root i ∧ ext4EsIsDelayed e = true ∧ lblk.toNat < esStop e
            ∧ ∀ b, lblk.toNat ≤ b → b < e.esLblk → ¬ DelayedAt (sb.root i) b := by
  obtain ⟨sb', hcall, hinv, hroot⟩ := findDelayed_answer rb i h hle
  refine ⟨_, sb', hcall, hinv, hroot, ?_⟩
  cases hfirst : firstDelayed (sb.root i) lblk.toNat last.toNat with
  | some e =>
    rw [Option.some_or]
    have hfound := List.find?_some hfirst
    rw [Bool.and_eq_true, decide_eq_true_eq] at hfound
    obtain ⟨hd, hlast, hstop⟩ := hfound
    refine ⟨List.mem_of_find?_eq_some hfirst, hd, hstop, fun b hlo hb => ?_⟩
    refine not_delayedAt_of_find (h.tree i) hfirst hb fun x hxd hx1 hx2 => ?_
    rw [Bool.and_eq_true, decide_eq_true_eq]
    exact ⟨hxd, by omega, by omega⟩
  | none =>
    rw [Option.none_or]
    have hnone : ∀ b, lblk.toNat ≤ b → b ≤ last.toNat → ¬ DelayedAt (sb.root i) b := by
      intro b hlo hhi hdel
      have hsome := (firstDelayed_isSome (h.tree i) (BitVec.le_def.mp hle)).mpr ⟨b, hlo, hhi, hdel⟩
      rw [hfirst] at hsome
      nomatch hsome
    cases hbehind : (firstBehind (sb.root i) lblk.toNat).filter ext4EsIsDelayed with
    | none => exact hnone
    | some e =>
      obtain ⟨hb, hd⟩ := Option.filter_eq_some_iff.mp hbehind
      have hstop := List.find?_some hb
      rw [decide_eq_true_eq] at hstop
      refine ⟨List.mem_of_find?_eq_some hb, hd, hstop, fun b hlo hlt => ?_⟩
      refine not_delayedAt_of_find (h.tree i) hb hlt fun x _ _ hx => ?_
      rw [decide_eq_true_eq]
      omega

/-- **`ext4_es_find_delayed_extent_range`** reports the first delayed entry
with a block in the range. If there is none, it reports nothing, or the
first entry of any kind that ends behind `lblk`, if that is delayed; it then
begins past the range. -/
theorem findDelayed_reports_first (h : EsInv sb) {lblk last : BitVec 32} (hle : lblk ≤ last) :
    ∃ res sb', ext4EsFindDelayedExtentRange rb sb i lblk last = some (res, sb')
      ∧ (∀ e, res = some e → 0 < e.esLen)
      ∧ match firstDelayed (sb.root i) lblk.toNat last.toNat with
        | some e => res = some e
        | none => ∀ e, res = some e ↔
            firstBehind (sb.root i) lblk.toNat = some e ∧ ext4EsIsDelayed e = true
              ∧ last.toNat < e.esLblk := by
  obtain ⟨sb', hcall, -, -⟩ := findDelayed_answer rb i h hle
  refine ⟨_, sb', hcall, fun e he => ?_, ?_⟩
  · have hmem : e ∈ sb.root i := by
      rcases Option.or_eq_some_iff.mp he with hf | ⟨-, hf⟩
      · exact List.mem_of_find?_eq_some hf
      · exact List.mem_of_find?_eq_some (Option.filter_eq_some_iff.mp hf).1
    exact ((h.tree i).entries e hmem).pos
  cases hfirst : firstDelayed (sb.root i) lblk.toNat last.toNat with
  | some e => exact Option.some_or
  | none =>
    intro e
    rw [Option.none_or, Option.filter_eq_some_iff]
    exact ⟨fun ⟨hb, hd⟩ => ⟨hb, hd, firstBehind_past hfirst hb hd⟩, fun ⟨hb, hd, _⟩ => ⟨hb, hd⟩⟩

end Query

/-- Ten delayed blocks from 10 on, and nothing else. -/
def delayedAhead : List (EsEnv × EsOp) :=
  [(.unbalanced [], .insert 0 10#32 10#32 0#64 4#32)]

/-- No block of `0 .. 5` is delayed, and yet an extent is reported. -/
theorem findDelayed_past_range :
    ∃ st e sb', run delayedAhead EsState.init = some st
      ∧ firstDelayed (st.sb.root 0) 0 5 = none
      ∧ step (.unbalanced []) (.findDelayed 0 0#32 5#32) st.sb = some (.extent (some e), sb')
      ∧ e.esLblk = 10 :=
  ⟨_, _, _, rfl, rfl, rfl, rfl⟩

/-- A search that passes a written extent on its way to the delayed one. -/
theorem findDelayed_reports_first_behind_written :
    ∃ st, run ((.unbalanced [], .insert 0 0#32 5#32 100#64 1#32) :: delayedAhead)
        EsState.init = some st
      ∧ ∃ res sb' e, ext4EsFindDelayedExtentRange (.spine _) st.sb 0 2#32 12#32 = some (res, sb')
        ∧ res = some e ∧ e.esLblk = 10 := by
  have hok : ∀ s ∈ (EsEnv.unbalanced [], EsOp.insert 0 0#32 5#32 100#64 1#32) :: delayedAhead,
      s.2.Ok := by
    intro s hs
    simp only [delayedAhead, List.mem_cons, List.not_mem_nil, or_false] at hs
    rcases hs with rfl | rfl
    · exact ⟨by decide, by decide⟩
    · exact ⟨by decide, by decide⟩
  obtain ⟨res, sb', hcall, -, hfirst⟩ :=
    findDelayed_reports_first (.spine _) 0 (RunInv.of_run hok rfl).inv (by decide : (2#32) ≤ 12#32)
  exact ⟨_, rfl, res, sb', _, hcall, hfirst, rfl⟩

end Ext4.ExtentsStatus
