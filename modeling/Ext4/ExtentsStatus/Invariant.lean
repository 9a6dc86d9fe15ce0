import Ext4.ExtentsStatus.Accounting

/-!
# Extent status — the tree invariant and the edits that keep it

`EsInv` is what holds of all trees of a superblock whenever `i_es_lock` is
free. The three internal operations — insertion into a gap, removal of a
range, reclaim — are specified here once each: what they keep, whom they
touch, and which blocks say what afterwards. Callers use the
specifications only.
-/

namespace Ext4.ExtentsStatus

open SearchTree Ext4SbInfo

/-- Sorted, disjoint, non-empty entries, no two of them mergeable, each
with its own node. -/
structure TreeOk (l : List ExtentStatus) : Prop where
  entries : ∀ e ∈ l, EntryOk e
  order : l.Pairwise Before
  addrs : (l.map ExtentStatus.addr).Nodup

/-- `cache_es` is NULL or an entry of the tree. -/
def CacheOk (sb : Ext4SbInfo) (i : Nat) : Prop :=
  ∀ a, sb.cacheOf i = some a → ∃ e ∈ sb.root i, e.addr = a

/-- The invariant without `cache_es`, which dangles for a moment inside
`es_reclaim_extents`. -/
structure EsCore (sb : Ext4SbInfo) : Prop where
  acct : Acct sb
  tree : ∀ i, TreeOk (sb.root i)
  fresh : ∀ i, ∀ e ∈ sb.root i, e.addr < sb.nextAddr

/-- The invariant of the extent status trees of a superblock. -/
structure EsInv (sb : Ext4SbInfo) : Prop extends EsCore sb where
  cache : ∀ i, CacheOk sb i

section Others

variable {sb : Ext4SbInfo} {i j : Nat}

@[simp] theorem inodes_setRoot_ne (h : j ≠ i) (l : List ExtentStatus) :
    (sb.setRoot i l).inodes j = sb.inodes j := by
  rw [setRoot, inodes_setInode, if_neg h]

@[simp] theorem inodes_setCache_ne (h : j ≠ i) (a : Option Nat) :
    (sb.setCache i a).inodes j = sb.inodes j := by
  rw [setCache, inodes_setInode, if_neg h]

@[simp] theorem inodes_setShrinkLblk_ne (h : j ≠ i) (b : Nat) :
    (sb.setShrinkLblk i b).inodes j = sb.inodes j := by
  rw [setShrinkLblk, inodes_setInode, if_neg h]

@[simp] theorem inodes_free_ne (h : j ≠ i) (es : ExtentStatus) :
    (ext4EsFreeExtent sb i es).inodes j = sb.inodes j := by
  rw [inodes_free, if_neg h]

@[simp] theorem inodes_alloc_ne (h : j ≠ i) (lblk len : Nat) (pblk : Fsblk) :
    (ext4EsAllocExtent sb i lblk len pblk).2.inodes j = sb.inodes j := by
  rw [inodes_alloc, if_neg h]

end Others

variable {sb sb' : Ext4SbInfo}

theorem CacheOk.congr {j : Nat} (hj : sb'.inodes j = sb.inodes j) (h : CacheOk sb j) :
    CacheOk sb' j := by
  intro a ha
  rw [cacheOf, hj] at ha
  rw [root, hj]
  exact h a ha

section Edit

variable {i : Nat} (hothers : ∀ j, j ≠ i → sb'.inodes j = sb.inodes j) (hacct : Acct sb')
  (htree : TreeOk (sb'.root i)) (hfresh : ∀ e ∈ sb'.root i, e.addr < sb'.nextAddr)
  (hnext : sb.nextAddr ≤ sb'.nextAddr)

include hothers hacct htree hfresh hnext

/-- An edit of one inode keeps the core invariant if it keeps it there. -/
theorem EsCore.edit (h : EsCore sb) : EsCore sb' := by
  have hroot : ∀ j, j ≠ i → sb'.root j = sb.root j := by
    intro j hj
    rw [root, root, hothers j hj]
  refine ⟨hacct, fun j => ?_, fun j => ?_⟩
  · by_cases hj : j = i
    · rw [hj]
      exact htree
    · rw [hroot j hj]
      exact h.tree j
  · by_cases hj : j = i
    · rw [hj]
      exact hfresh
    · rw [hroot j hj]
      exact fun e he => Nat.lt_of_lt_of_le (h.fresh j e he) hnext

/-- An edit of one inode keeps the invariant if it keeps it there. -/
theorem EsInv.edit (h : EsInv sb) (hcache : CacheOk sb' i) : EsInv sb' := by
  refine ⟨h.toEsCore.edit hothers hacct htree hfresh hnext, fun j => ?_⟩
  by_cases hj : j = i
  · rw [hj]
    exact hcache
  · exact (h.cache j).congr (hothers j hj)

end Edit

/-! ## Editing a sequence of entries -/

variable {allocOk : Bool} {v : EsVal} {l' : List ExtentStatus}

namespace TreeOk

variable {l b a : List ExtentStatus} {x z : ExtentStatus}

theorem sublist (h : TreeOk l) (hs : l'.Sublist l) : TreeOk l' :=
  ⟨fun e he => h.entries e (hs.subset he), h.order.sublist hs, h.addrs.sublist (hs.map _)⟩

theorem separated (h : TreeOk l) : esView.Separated l := h.order.imp (fun h => h.stop_le)

theorem cross (h : TreeOk (b ++ a)) : ∀ e ∈ b, ∀ e' ∈ a, Before e e' :=
  (List.pairwise_append.mp h.order).2.2

theorem before_cur (h : TreeOk (b ++ x :: a)) : ∀ e ∈ b, Before e x :=
  fun e he => h.cross e he x (by simp)

theorem cur_before (h : TreeOk (b ++ x :: a)) : ∀ e ∈ a, Before x e :=
  (List.pairwise_cons.mp (List.pairwise_append.mp h.order).2.1).1

theorem cur (h : TreeOk (b ++ x :: a)) : EntryOk x := h.entries x (by simp)

theorem stop_le_after (h : TreeOk (b ++ x :: a)) : ∀ e ∈ a, esStop x ≤ e.esLblk :=
  fun e he => (h.cur_before e he).stop_le

theorem start_le_from (h : TreeOk (b ++ x :: a)) : ∀ e ∈ x :: a, x.esLblk ≤ e.esLblk :=
  List.forall_mem_cons.mpr
    ⟨Nat.le_refl _, fun e he => Nat.le_trans (Nat.le_add_right ..) (h.stop_le_after e he)⟩

theorem drop_cur (h : TreeOk (b ++ x :: a)) : TreeOk (b ++ a) :=
  h.sublist ((List.sublist_cons_self x a).append_left b)

theorem link (h : TreeOk (b ++ a)) (hz : EntryOk z) (hb : ∀ e ∈ b, Before e z)
    (ha : ∀ e ∈ a, Before z e) (haddr : ∀ e ∈ b ++ a, e.addr ≠ z.addr) : TreeOk (b ++ z :: a) := by
  obtain ⟨hent, hord, hadr⟩ := h
  refine ⟨?_, ?_, ?_⟩
  · intro e he
    rw [List.mem_append, List.mem_cons] at he
    rcases he with he | rfl | he
    · exact hent e (List.mem_append_left _ he)
    · exact hz
    · exact hent e (List.mem_append_right _ he)
  · rw [List.pairwise_append] at hord ⊢
    exact ⟨hord.1, List.pairwise_cons.mpr ⟨ha, hord.2.1⟩,
      fun e he => List.forall_mem_cons.mpr ⟨hb e he, hord.2.2 e he⟩⟩
  · rw [List.map_append, List.map_cons, List.nodup_middle, List.nodup_cons, ← List.map_append]
    refine ⟨fun hm => ?_, hadr⟩
    obtain ⟨e, he, heq⟩ := List.mem_map.mp hm
    exact haddr e he heq

theorem replace (h : TreeOk (b ++ x :: a)) (hz : EntryOk z) (hb : ∀ e ∈ b, Before e z)
    (ha : ∀ e ∈ a, Before z e) (haddr : z.addr = x.addr) : TreeOk (b ++ z :: a) := by
  refine h.drop_cur.link hz hb ha fun e he heq => ?_
  have hnd := h.addrs
  rw [List.map_append, List.map_cons, List.nodup_middle, List.nodup_cons, ← List.map_append] at hnd
  exact hnd.1 (haddr ▸ heq ▸ List.mem_map_of_mem he)

theorem before_of_last (h : TreeOk (b ++ [x])) (hz : Before x z) : ∀ e ∈ b ++ [x], Before e z :=
  List.forall_mem_append.mpr ⟨fun e he => (h.before_cur e he).trans h.cur hz,
    List.forall_mem_singleton.mpr hz⟩

/-- Only the first entry of a sequence can touch what precedes it. -/
theorem before_of_first (h : TreeOk (x :: a)) (hz : Before z x) : ∀ e ∈ x :: a, Before z e :=
  List.forall_mem_cons.mpr ⟨hz, fun e he =>
    hz.trans (h.entries x List.mem_cons_self) ((List.pairwise_cons.mp h.order).1 e he)⟩

end TreeOk

theorem holds_append {l1 l2 : List ExtentStatus} {b : Nat} :
    Holds (l1 ++ l2) b v ↔ Holds l1 b v ∨ Holds l2 b v := by
  simp only [Holds, List.mem_append, or_and_right, exists_or]

variable {e : ExtentStatus} {l : List ExtentStatus}

theorem holds_cons {b : Nat} : Holds (e :: l) b v ↔ At e b v ∨ Holds l b v := by
  simp [Holds]

/-! ## Searching -/

variable {lblk : Nat}

theorem searchDir_lt : searchDir lblk e = .lt ↔ lblk < e.esLblk := by
  rw [searchDir]
  split
  · rename_i hlt
    exact iff_of_true rfl hlt
  · rename_i hge
    split
    · exact iff_of_false (by decide) hge
    · exact iff_of_false (by decide) hge

theorem searchDir_gt (h : EntryOk e) : searchDir lblk e = .gt ↔ esStop e ≤ lblk := by
  have hpos := h.pos
  unfold searchDir ext4EsEnd esStop
  split
  · exact iff_of_false (by decide) (by omega)
  · split
    · exact iff_of_true rfl (by omega)
    · exact iff_of_false (by decide) (by omega)

theorem searchDir_eq (h : EntryOk e) :
    searchDir lblk e = .eq ↔ e.esLblk ≤ lblk ∧ lblk < esStop e := by
  have hpos := h.pos
  unfold searchDir ext4EsEnd esStop
  split
  · exact iff_of_false (by decide) (by omega)
  · split
    · exact iff_of_false (by decide) (by omega)
    · exact iff_of_true rfl (by omega)

theorem searchDir_directed (h : TreeOk l) (lblk : Nat) : Directed (searchDir lblk) l := by
  refine List.Pairwise.imp_of_mem ?_ h.order
  intro x y hx hy hxy
  have h1 := hxy.stop_le
  have h2 := (h.entries x hx).pos
  have h3 := (h.entries y hy).pos
  rw [searchDir_lt, searchDir_lt, searchDir_gt (h.entries x hx), searchDir_gt (h.entries y hy)]
  simp only [esStop] at h1 ⊢
  omega

variable {rb : RbShape}

/-- The node a descent ends at splits the tree around `lblk`. -/
theorem search_splits (h : TreeOk l) {w : Zip ExtentStatus}
    (hw : descend (searchDir lblk) (rb.tree l) = some w) :
    w.toList = l ∧ (∀ e ∈ w.before, esStop e ≤ lblk) ∧ ∀ e ∈ w.after, lblk < e.esLblk := by
  have hlist := descend_toList hw
  -- beside the gap it does not matter on which side
  have hends := (descend_ends (searchDir_directed h lblk) hw).imp_right
    (Or.elim · And.right And.right)
  rw [← hlist, Zip.toList] at h
  refine ⟨hlist, fun e he => ?_, fun e he => ?_⟩
  · rcases hends with hc | ⟨hb, -⟩
    · have h1 := (h.before_cur e he).stop_le
      have h2 := (searchDir_eq h.cur).mp hc
      omega
    · exact (searchDir_gt (h.entries e (by simp [he]))).mp (hb e he)
  · rcases hends with hc | ⟨-, ha⟩
    · have h1 := h.stop_le_after e he
      have h2 := (searchDir_eq h.cur).mp hc
      omega
    · exact searchDir_lt.mp (ha e he)

/-- The search comes back with the first entry that ends behind `lblk`. -/
theorem esTreeSearch_some (h : TreeOk l) {z : Zip ExtentStatus}
    (hs : esTreeSearch rb l lblk = some z) :
    z.toList = l ∧ (∀ e ∈ z.before, esStop e ≤ lblk) ∧ lblk < esStop z.cur := by
  unfold esTreeSearch at hs
  split at hs
  · cases hs
  · rename_i w hw
    obtain ⟨hlist, hbefore, hafter⟩ := search_splits h hw
    rw [← hlist, Zip.toList] at h
    have hpos := h.cur.pos
    split at hs
    · rename_i hlt
      obtain ⟨ha, hb⟩ := Zip.next_eq_some hs
      have hz : z.cur ∈ w.after := by simp [ha]
      refine ⟨by rw [Zip.next_toList hs, hlist], ?_, ?_⟩
      · rw [hb]
        exact List.forall_mem_append.mpr
          ⟨hbefore, List.forall_mem_singleton.mpr (Nat.le_of_pred_lt hlt)⟩
      · exact Nat.lt_of_lt_of_le (hafter _ hz) (Nat.le_add_right _ _)
    · rename_i hge
      obtain rfl := Option.some.inj hs
      refine ⟨hlist, hbefore, ?_⟩
      rw [ext4EsEnd] at hge
      rw [esStop]
      omega

theorem esTreeSearch_none (h : TreeOk l) (hs : esTreeSearch rb l lblk = none) :
    ∀ e ∈ l, esStop e ≤ lblk := by
  unfold esTreeSearch at hs
  split at hs
  · rename_i hw
    simp [descend_eq_none hw]
  · rename_i w hw
    obtain ⟨hlist, hbefore, _⟩ := search_splits h hw
    split at hs
    · rename_i hlt
      rw [← hlist, Zip.toList, Zip.next_eq_none hs]
      exact List.forall_mem_append.mpr
        ⟨hbefore, List.forall_mem_singleton.mpr (Nat.le_of_pred_lt hlt)⟩
    · cases hs

/-! ## Inserting into a gap -/

/-- `newes` overlaps no entry of `l`. -/
def Clear (newes : ExtentStatus) (l : List ExtentStatus) : Prop :=
  ∀ e ∈ l, esStop e ≤ newes.esLblk ∨ esStop newes ≤ e.esLblk

/-- What an insertion leaves behind. -/
structure Inserted (sb sb' : Ext4SbInfo) (i : Nat) (newes : ExtentStatus) : Prop where
  inv : EsInv sb'
  others : ∀ j, j ≠ i → sb'.inodes j = sb.inodes j
  holds : ∀ b v, Holds (sb'.root i) b v ↔ Holds (sb.root i) b v ∨ At newes b v

/-- What one pass of the insertion may come to. -/
def InsertRes.Spec (sb : Ext4SbInfo) (i : Nat) (newes : ExtentStatus) (allocOk : Bool) :
    InsertRes → Prop
  | .done sb' used => Inserted sb sb' i newes ∧ (used = true → allocOk = true)
  | .enomem => allocOk = false
  | .einval => False

theorem insertDir_directed (h : TreeOk l) {newes : ExtentStatus} (hclear : Clear newes l) :
    Directed (insertDir newes) l := by
  refine List.Pairwise.imp_of_mem ?_ h.order
  intro x y hx hy hxy
  have h1 := hxy.stop_le
  have h2 := (h.entries x hx).pos
  have h3 := (h.entries y hy).pos
  have hcx := hclear x hx
  have hcy := hclear y hy
  have hmy : ext4EsCanBeMerged newes y = true → esStop newes = y.esLblk :=
    stop_eq_of_canBeMerged
  have hmx : ext4EsCanBeMerged x newes = true → esStop x = newes.esLblk :=
    stop_eq_of_canBeMerged
  unfold insertDir ext4EsEnd
  simp only [esStop] at *
  constructor
  · intro hx
    split at hx
    · rw [if_pos (by omega), if_neg fun hm => by have := hmy hm; omega]
    · split at hx
      · split at hx <;> cases hx
      · cases hx
  · intro hy
    split at hy
    · split at hy <;> cases hy
    · split at hy
      · rw [if_neg (by omega), if_pos (by omega), if_neg fun hm => by have := hmx hm; omega]
      · cases hy

section Insert

variable {sb : Ext4SbInfo} {i : Nat} {newes es : ExtentStatus} {b a : List ExtentStatus}

/-- Linking a new node between two entries it cannot be merged with. -/
theorem linkNew_spec (h : EsInv sb) (hroot : sb.root i = b ++ a) (hnew : EntryOk newes)
    (hb : ∀ e ∈ b, Before e newes) (ha : ∀ e ∈ a, Before newes e) :
    (linkNew sb i newes allocOk b a).Spec sb i newes allocOk := by
  unfold linkNew
  cases allocOk with
  | false => rfl
  | true =>
    simp only [if_true, alloc_fst, InsertRes.Spec, implies_true, and_true]
    set new : ExtentStatus := ⟨sb.nextAddr, newes.esLblk, newes.esLen, newes.esPblk⟩ with hdef
    have htree : TreeOk (b ++ a) := hroot ▸ h.tree i
    have hold : ∀ e ∈ b ++ a, e.addr < sb.nextAddr := fun e he => h.fresh i e (hroot ▸ he)
    have hok : EntryOk new := ⟨hnew.pos, hnew.le_max, hnew.phys⟩
    have htree' : TreeOk (b ++ new :: a) :=
      htree.link hok (fun e he => ⟨(hb e he).1, (hb e he).2⟩)
        (fun e he => ⟨(ha e he).1, (ha e he).2⟩) fun e he => (hold e he).ne
    refine ⟨h.edit (i := i) ?_ ?_ ?_ ?_ ?_ ?_, ?_, ?_⟩
    · intro j hj
      simp [hj]
    · refine Acct.setCache (h.acct.alloc ?_ ?_) _
      · rw [hroot, List.length_append, List.length_append, List.length_cons]
        rfl
      · rw [hroot, shkCount_append, shkCount_append, shkCount_cons, hdef]
        omega
    · simpa using htree'
    · intro e he
      simp only [root_setCache, root_setRoot, if_true, List.mem_append, List.mem_cons] at he
      simp only [nextAddr_setCache, nextAddr_setRoot, nextAddr_alloc]
      rcases or_left_comm.mp he with rfl | he
      · exact Nat.lt_succ_self _
      · exact Nat.lt_succ_of_lt (hold e (List.mem_append.mpr he))
    · simp
    · intro x hx
      simp only [cacheOf_setCache, if_true, Option.some.injEq] at hx
      exact ⟨new, by simp, hx⟩
    · intro j hj
      simp [hj]
    · intro p v
      simp only [root_setCache, root_setRoot, if_true]
      have hat : At new p v ↔ At newes p v := Iff.rfl
      rw [hroot, holds_append, holds_append, holds_cons, hat]
      exact (or_congr_right or_comm).trans or_assoc.symm

/-- An insertion that edits nodes in place and may release some: all that
is left to check is the new sequence. -/
theorem inserted_of_merge (h : EsInv sb) {sb' : Ext4SbInfo} {x : ExtentStatus}
    (hothers : ∀ j, j ≠ i → sb'.inodes j = sb.inodes j) (hacct : Acct sb')
    (hroot' : sb'.root i = l') (htree : TreeOk l') (hx : x ∈ l')
    (haddrs : ∀ e ∈ l', ∃ e' ∈ sb.root i, e.addr = e'.addr) (hnext : sb'.nextAddr = sb.nextAddr)
    (hholds : ∀ b v, Holds l' b v ↔ Holds (sb.root i) b v ∨ At newes b v) :
    Inserted sb (sb'.setCache i (some x.addr)) i newes := by
  refine ⟨h.edit (i := i) ?_ (hacct.setCache _) ?_ ?_ ?_ ?_, ?_, ?_⟩
  · intro j hj
    rw [inodes_setCache_ne hj, hothers j hj]
  · rw [root_setCache, hroot']
    exact htree
  · intro e he
    rw [root_setCache, hroot'] at he
    obtain ⟨e', he', hee⟩ := haddrs e he
    rw [nextAddr_setCache, hnext, hee]
    exact h.fresh i e' he'
  · rw [nextAddr_setCache, hnext]
  · intro y hy
    simp only [cacheOf_setCache, if_true, Option.some.injEq] at hy
    exact ⟨x, by rw [root_setCache, hroot']; exact hx, hy⟩
  · intro j hj
    rw [inodes_setCache_ne hj, hothers j hj]
  · rw [root_setCache, hroot']
    exact hholds

/-- `newes` has become part of its neighbour `es`, which is `es'` now. -/
structure Grown (sb : Ext4SbInfo) (i : Nat) (newes es es' : ExtentStatus)
    (b a : List ExtentStatus) : Prop where
  root : sb.root i = b ++ es :: a
  ok : EntryOk es'
  addr : es'.addr = es.addr
  acct : Acct (sb.setRoot i (b ++ es' :: a))
  at_iff : ∀ p v, At es' p v ↔ At es p v ∨ At newes p v

variable {es' : ExtentStatus}

section

variable (hg : Grown sb i newes es es' b a)
include hg

theorem Grown.map_addr :
    (b ++ es' :: a).map ExtentStatus.addr = (sb.root i).map ExtentStatus.addr := by
  rw [hg.root]
  simp [hg.addr]

theorem Grown.holds (p : Nat) (v : EsVal) :
    Holds (b ++ es' :: a) p v ↔ Holds (sb.root i) p v ∨ At newes p v := by
  rw [hg.root, holds_append, holds_append, holds_cons, holds_cons, hg.at_iff]
  tauto

theorem Grown.keep (h : EsInv sb) (hleft : ∀ e ∈ b, Before e es') (hright : ∀ e ∈ a, Before es' e) :
    Inserted sb ((sb.setRoot i (b ++ es' :: a)).setCache i (some es'.addr)) i newes := by
  have htree : TreeOk (b ++ es :: a) := hg.root ▸ h.tree i
  refine inserted_of_merge h (fun j hj => by simp [hj]) hg.acct (by simp)
    (htree.replace hg.ok hleft hright hg.addr) (by simp) (fun e he => ?_) rfl hg.holds
  have := List.mem_map_of_mem (f := ExtentStatus.addr) he
  rw [hg.map_addr] at this
  obtain ⟨e', he', heq⟩ := List.mem_map.mp this
  exact ⟨e', he', heq.symm⟩

end

/-- Two entries `x` and `y` behind each other become one. -/
theorem Grown.join {es' x y : ExtentStatus} {p n : List ExtentStatus}
    (hg : Grown sb i newes es es' b a) (h : EsInv sb) (hlist : b ++ es' :: a = p ++ x :: y :: n)
    (hm : ext4EsCanBeMerged x y = true) (hx : EntryOk x) (hy : EntryOk y) (hrest : TreeOk (p ++ n))
    (hleft : ∀ e ∈ p, Before e x) (hright : ∀ e ∈ n, Before y e) :
    Inserted sb ((ext4EsFreeExtent ((sb.setRoot i (b ++ es' :: a)).setRoot i
      (p ++ absorb x y :: n)) i y).setCache i (some (absorb x y).addr)) i newes := by
  have hJ := joins_absorb hm
  have haddr : (absorb x y).addr = x.addr := by
    unfold absorb
    simp only
    split <;> rfl
  have hmap := hlist ▸ hg.map_addr
  have hnd := hmap ▸ (h.tree i).addrs
  have hz := hJ.entryOk hx hy
  have htree : TreeOk (p ++ absorb x y :: n) := by
    refine hrest.link hz (fun e he => hJ.before_left hx hz (hleft e he))
      (fun e he => hJ.before_right hy (hrest.entries e (by simp [he])) (hright e he)) fun e he => ?_
    rw [haddr]
    rw [List.map_append, List.map_cons, List.map_cons, List.nodup_middle, List.nodup_cons] at hnd
    refine fun heq => hnd.1 (heq ▸ List.mem_append.mpr ?_)
    rcases List.mem_append.mp he with he | he
    · exact .inl (List.mem_map_of_mem he)
    · exact .inr (List.mem_cons_of_mem _ (List.mem_map_of_mem he))
  refine inserted_of_merge h (fun j hj => by simp [hj]) ?_ (by simp) htree (by simp)
    (fun e he => ?_) (by simp) fun q v => ?_
  · refine hg.acct.free ?_ ?_
    · simp [hlist]
      omega
    · simp only [root_setRoot, if_true, hlist, shkCount_append, shkCount_cons,
        shkOne_congr hJ.type]
      omega
  · have : e.addr ∈ (p ++ x :: y :: n).map ExtentStatus.addr := by
      simp only [List.mem_append, List.mem_cons] at he
      rcases he with he | rfl | he
      · simp [List.mem_map_of_mem he]
      · simp [haddr]
      · simp [List.mem_map_of_mem he]
    rw [hmap] at this
    obtain ⟨e', he', heq⟩ := List.mem_map.mp this
    exact ⟨e', he', heq.symm⟩
  · rw [← hg.holds, hlist, holds_append, holds_append, holds_cons, holds_cons, holds_cons,
      hJ.at_iff hy, or_assoc]

section

variable (h : EsInv sb) (hnew : EntryOk newes) (hclear : Clear newes (sb.root i))

include h hnew hclear

/-- `newes` grows its right neighbour `es`, which may then join its own
left neighbour. -/
theorem mergeLeft_spec (hroot : sb.root i = b ++ es :: a) (hm : ext4EsCanBeMerged newes es = true) :
    let z : Zip ExtentStatus := ⟨b, growLeft newes es, a⟩
    let r := ext4EsTryToMergeLeft (sb.setRoot i z.toList) i z
    Inserted sb (r.2.setCache i (some r.1.addr)) i newes := by
  have hJ := joins_growLeft hm
  have haddr : (growLeft newes es).addr = es.addr := by
    unfold growLeft
    simp only
    split <;> rfl
  generalize growLeft newes es = es' at hJ haddr
  have htree : TreeOk (b ++ es :: a) := hroot ▸ h.tree i
  have hes := htree.cur
  have hright : ∀ e ∈ a, Before es' e := fun e he =>
    hJ.before_right hes (htree.entries e (by simp [he])) (htree.cur_before e he)
  have hstop : ∀ e ∈ b, esStop e ≤ es'.esLblk := by
    intro e he
    have h1 := (htree.before_cur e he).stop_le
    have h2 := stop_eq_of_canBeMerged hm
    have h3 := (htree.entries e (by simp [he])).pos
    rw [hJ.lblk]
    rcases hclear e (by rw [hroot]; simp [he]) with hc | hc
    · exact hc
    · simp only [esStop] at *
      omega
  have hg : Grown sb i newes es es' b a := by
    obtain ⟨ht, _, _⟩ := (canBeMerged_iff (len_add_le hes (stop_eq_of_canBeMerged hm).le)).mp hm
    refine ⟨hroot, hJ.entryOk hnew hes, haddr, h.acct.replace hroot (hJ.type.trans ht),
      fun p v => ?_⟩
    rw [hJ.at_iff hes, or_comm]
  simp only [ext4EsTryToMergeLeft]
  split
  · rename_i hp
    have hnil : b = [] := Zip.prev_eq_none hp
    exact hg.keep h (by simp [hnil]) hright
  · rename_i p hp
    obtain ⟨hb, -⟩ := Zip.prev_eq_some hp
    simp only at hb
    have hpm : p.cur ∈ b := by simp [hb]
    have htb : TreeOk (p.before ++ [p.cur]) := by
      rw [← hb]
      exact htree.sublist (List.sublist_append_left _ _)
    split
    · rename_i hpe
      refine hg.join h (by simp [hb]) hpe (htree.entries _ (by simp [hpm])) hg.ok
        (htree.drop_cur.sublist ?_) htb.before_cur hright
      rw [hb]
      exact (List.sublist_append_left _ _).append_right a
    · rename_i hpe
      refine hg.keep h ?_ hright
      rw [hb]
      exact htb.before_of_last ⟨hstop _ hpm, by simpa using hpe⟩

/-- `newes` grows its left neighbour `es`, which may then take over its
own right neighbour. -/
theorem mergeRight_spec (hroot : sb.root i = b ++ es :: a)
    (hm : ext4EsCanBeMerged es newes = true) :
    let z : Zip ExtentStatus := ⟨b, growRight newes es, a⟩
    let r := ext4EsTryToMergeRight (sb.setRoot i z.toList) i z
    Inserted sb (r.2.setCache i (some r.1.addr)) i newes := by
  have hJ := joins_growRight hm
  have haddr : (growRight newes es).addr = es.addr := rfl
  generalize growRight newes es = es' at hJ haddr
  have htree : TreeOk (b ++ es :: a) := hroot ▸ h.tree i
  have hes := htree.cur
  have hok' : EntryOk es' := hJ.entryOk hes hnew
  have hleft : ∀ e ∈ b, Before e es' := fun e he =>
    hJ.before_left hes hok' (htree.before_cur e he)
  have hstop : ∀ e ∈ a, esStop es' ≤ e.esLblk := by
    intro e he
    have h1 := htree.stop_le_after e he
    have h2 := stop_eq_of_canBeMerged hm
    have h3 := (htree.entries e (by simp [he])).pos
    rw [hJ.stop]
    rcases hclear e (by rw [hroot]; simp [he]) with hc | hc
    · simp only [esStop] at *
      omega
    · exact hc
  have hg : Grown sb i newes es es' b a :=
    ⟨hroot, hok', haddr, h.acct.replace hroot hJ.type, hJ.at_iff hnew⟩
  simp only [ext4EsTryToMergeRight]
  split
  · rename_i hn
    have hnil : a = [] := Zip.next_eq_none hn
    exact hg.keep h hleft (by simp [hnil])
  · rename_i n hn
    obtain ⟨ha, -⟩ := Zip.next_eq_some hn
    simp only at ha
    have hnm : n.cur ∈ a := by simp [ha]
    have hta : TreeOk (n.cur :: n.after) := by
      rw [← ha]
      exact htree.sublist ((List.sublist_cons_self es a).trans (List.sublist_append_right _ _))
    split
    · rename_i hne
      refine hg.join h (by simp [ha]) hne hok' (htree.entries _ (by simp [hnm]))
        (htree.drop_cur.sublist ?_) hleft (List.pairwise_cons.mp hta.order).1
      rw [ha]
      exact (List.sublist_cons_self _ _).append_left b
    · rename_i hne
      refine hg.keep h hleft ?_
      rw [ha]
      exact hta.before_of_first ⟨hstop _ hnm, by simpa using hne⟩

/-- **Insertion into a gap** keeps the invariant and adds exactly the new
blocks. It fails only for want of memory; the overlap branch is dead. -/
theorem esInsertExtent_spec : (esInsertExtent rb sb i newes allocOk).Spec sb i newes allocOk := by
  have htree := h.tree i
  have hdir := insertDir_directed htree hclear
  unfold esInsertExtent
  cases hw : descend (insertDir newes) (rb.tree (sb.root i)) with
  | none =>
    exact linkNew_spec h (by simp [descend_eq_none hw]) hnew (by simp) (by simp)
  | some z =>
    have hroot : sb.root i = z.before ++ z.cur :: z.after := (descend_toList hw).symm
    have hends := descend_ends hdir hw
    have hmem : ∀ e, e ∈ z.before ∨ e = z.cur ∨ e ∈ z.after → e ∈ sb.root i := by
      intro e he
      rw [hroot, List.mem_append, List.mem_cons]
      exact he
    -- where a direction points, the entry is on that side and cannot be merged
    have hgt : ∀ e ∈ sb.root i, insertDir newes e = .gt → Before e newes := by
      intro e he hd
      have hpos := (htree.entries e he).pos
      unfold insertDir at hd
      split_ifs at hd with h1 h2 h3 h4
      refine ⟨?_, by simpa using h4⟩
      simp only [ext4EsEnd] at h3
      simp only [esStop]
      omega
    have hlt : ∀ e ∈ sb.root i, insertDir newes e = .lt → Before newes e := by
      intro e he hd
      have hpos := (htree.entries e he).pos
      unfold insertDir at hd
      split_ifs at hd with h1 h2
      refine ⟨?_, by simpa using h2⟩
      rcases hclear e he with hc | hc
      · rw [esStop] at hc
        omega
      · exact hc
    have hcur := hmem z.cur (.inr (.inl rfl))
    have hcpos := (htree.entries z.cur hcur).pos
    have hclr := hclear z.cur hcur
    simp only
    split
    · rename_i h1
      split
      · rename_i h2
        exact ⟨mergeLeft_spec h hnew hclear hroot h2, by simp⟩
      · rename_i h2
        have hd : insertDir newes z.cur = .lt := by simp [insertDir, h1, h2]
        obtain ⟨hb, ha⟩ := hends.sides (by rw [hd]; simp)
        exact linkNew_spec h hroot hnew (fun e he => hgt e (hmem e (.inl he)) (hb e he))
          (List.forall_mem_cons.mpr
            ⟨hlt _ hcur hd, fun e he => hlt e (hmem e (.inr (.inr he))) (ha e he)⟩)
    · rename_i h1
      split
      · rename_i h2
        split
        · rename_i h3
          exact ⟨mergeRight_spec h hnew hclear hroot h3, by simp⟩
        · rename_i h3
          have hd : insertDir newes z.cur = .gt := by simp [insertDir, h1, h2, h3]
          obtain ⟨hb, ha⟩ := hends.sides (by rw [hd]; simp)
          exact linkNew_spec h (hroot.trans (List.append_cons ..)) hnew (List.forall_mem_append.mpr
              ⟨fun e he => hgt e (hmem e (.inl he)) (hb e he),
                List.forall_mem_singleton.mpr (hgt _ hcur hd)⟩)
            fun e he => hlt e (hmem e (.inr (.inr he))) (ha e he)
      · rename_i h2
        have hnpos := hnew.pos
        simp only [ext4EsEnd] at h2
        simp only [esStop] at hclr
        omega

end

end Insert

end Ext4.ExtentsStatus
