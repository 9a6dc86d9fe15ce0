import Ext4.MapBlocks.Cache

/-!
# Fiemap — reporting the blocks of a file

`ext4_fill_fiemap_extents` (extents.c) reports the extents and the delayed
blocks of a file from a block on. Each round looks the block up in the extent
tree and takes a window of blocks from there: an extent, or the hole in front
of one. In a hole the extent status tree is asked for delayed blocks, and the
window is cut down to what is delayed from its first block on, or to what is
not.

A record is the last one when neither the extent tree nor the extent status
tree has anything behind it. For the first of these the round asks
`ext4_ext_next_allocated_block`, which does not count the extent the lookup
ended at: wrong where the last delayed record lies in front of the file's only
extent.
-/

namespace Ext4.Fiemap

open Ext4.Extents Ext4.MapBlocks IndexTree
open Ext4.ExtentsStatus hiding Errno

/-! ## The model -/

/-- The `FIEMAP_EXTENT_` flags that occur. -/
structure FiemapFlags where
  last : Bool
  unknown : Bool
  delalloc : Bool
  unwritten : Bool
deriving DecidableEq, Repr

/-- What is handed to `fiemap_fill_next_extent`, in bytes. -/
structure FiemapExtent where
  feLogical : Nat
  fePhysical : Nat
  feLength : Nat
  feFlags : FiemapFlags
deriving DecidableEq, Repr

/-- The result of `fiemap_fill_next_extent`: 0, 1 or an error. -/
inductive Fill where
  | more
  | full
  | fault (e : Errno)

/-- The local variable `es`. -/
structure Window where
  esLblk : Nat
  esLen : Nat
  esPblk : Nat
deriving DecidableEq, Repr

/-- The first block behind. -/
def Window.stop (w : Window) : Nat := w.esLblk + w.esLen

/-- A record, in blocks. -/
structure Record extends Window where
  flags : FiemapFlags
deriving DecidableEq, Repr

def Record.toBytes (blksizeBits : Nat) (r : Record) : FiemapExtent :=
  ⟨r.esLblk <<< blksizeBits, r.esPblk <<< blksizeBits, r.esLen <<< blksizeBits, r.flags⟩

section Model

variable (rb : RbShape) (i : Nat)

/-- The last part of `ext4_find_delayed_extent`: the start of the next delayed
extent behind `newes`. -/
def nextDelayedStart (sb : Ext4SbInfo) (newes : Window) : Option (Nat × Window × Ext4SbInfo) :=
  (ext4EsFindDelayedExtentRange rb sb i (BitVec.ofNat 32 newes.stop)
      (BitVec.ofNat 32 extMaxBlocks)).map fun r =>
    match r.1 with
    | none => (extMaxBlocks, newes, r.2)
    | some es => (es.esLblk, newes, r.2)

/-- `ext4_find_delayed_extent`; no result is a `BUG_ON`. -/
def ext4FindDelayedExtent (sb : Ext4SbInfo) (newes : Window) : Option (Nat × Window × Ext4SbInfo) :=
  if newes.esPblk = 0 then
    (ext4EsFindDelayedExtentRange rb sb i (BitVec.ofNat 32 newes.esLblk)
        (BitVec.ofNat 32 (newes.stop - 1))).bind fun r =>
      match r.1 with
      | none => some (0, newes, r.2)
      | some es =>
          if newes.esLblk < es.esLblk then
            some (0, { newes with esLen := min (es.esLblk - newes.esLblk) newes.esLen }, r.2)
          else
            nextDelayedStart rb i r.2 { newes with esLen := es.esLblk + es.esLen - newes.esLblk }
  else nextDelayedStart rb i sb newes

end Model

/-- The part of a hole from `block` to `stop`. -/
def holeWindow (block stop : Nat) : Window := ⟨block, stop - block, 0⟩

/-- The window of a round, whether an extent is there, and whether that is
unwritten. -/
def windowAt (p : ExtPath) (block num : Nat) : Window × Bool × Bool :=
  match p.ext with
  | none => (holeWindow block (block + num), false, false)
  | some ex =>
      if block < ex.eeBlock then
        (holeWindow block (min (block + num) ex.eeBlock), false, false)
      else if ex.eeEnd ≤ block then
        (holeWindow block (min (block + num) (ext4ExtNextAllocatedBlock p)), false, false)
      else (⟨ex.eeBlock, ext4ExtGetActualLen ex, ex.eeStart⟩, true, ext4ExtIsUnwritten ex)

/-- What a round comes to: a record, if there is something to report, and the
next block. -/
structure Reported where
  record : Option Record
  block : Nat

/-- One round of the loop. The test for `es.es_len == 0` is the only one of
the loop's checks for corruption that does not contradict itself. -/
def fiemapRound (env : LookupEnv) (i : Nat) (t : ExtTree) (block last : Nat) (sb : Ext4SbInfo) :
    Option (Except Errno Reported × Ext4SbInfo) :=
  (findExtentCached env i t block sb).bind fun r =>
    match r.1 with
    | .error e => some (.error e, r.2)
    | .ok p =>
        let next := ext4ExtNextAllocatedBlock p
        let w := windowAt p block (last - block)
        -- `BUG_ON(end <= start)`
        if w.1.esLen = 0 then none
        else
          (ext4FindDelayedExtent env.rb i r.2 w.1).map fun d =>
            let nextDel := d.1
            let es := d.2.1
            let delayed := !w.2.1 && decide (nextDel ≠ 0)
            if es.esLen = 0 then (.error .efscorrupted, d.2.2)
            else
              let isLast := decide (next = nextDel ∧ next = extMaxBlocks)
              let flags : FiemapFlags := ⟨isLast, delayed, delayed, w.2.2⟩
              (.ok ⟨if w.2.1 || delayed then some ⟨es, flags⟩ else none, es.stop⟩, d.2.2)

/-- What the surroundings decide about a call. -/
structure FiemapEnv where
  lookup : Nat → LookupEnv
  fill : List FiemapExtent → FiemapExtent → Fill
  blksizeBits : Nat

section Loop

variable (env : FiemapEnv) (i : Nat) (t : ExtTree) (last : Nat)

/-- The loop, with the records reported so far. The first number is the fuel,
the second counts the rounds. -/
def fiemapLoop : Nat → Nat → Nat → Ext4SbInfo → List Record →
    Option (Option Errno × List Record × Ext4SbInfo)
  | 0, _, block, sb, out =>
      if block < last ∧ block ≠ extMaxBlocks then none else some (none, out, sb)
  | fuel + 1, k, block, sb, out =>
      if block < last ∧ block ≠ extMaxBlocks then
        (fiemapRound (env.lookup k) i t block last sb).bind fun r =>
          match r.1 with
          | .error e => some (some e, out, r.2)
          | .ok rep =>
              match rep.record with
              | none => fiemapLoop fuel (k + 1) rep.block r.2 out
              | some rec =>
                  let out' := out ++ [rec]
                  match env.fill (out.map (Record.toBytes env.blksizeBits))
                      (rec.toBytes env.blksizeBits) with
                  | .fault e => some (some e, out', r.2)
                  | .full => some (none, out', r.2)
                  | .more => fiemapLoop fuel (k + 1) rep.block r.2 out'
      else some (none, out, sb)

end Loop

/-- `ext4_fill_fiemap_extents`: the result, the records, and the extent status
trees. -/
def ext4FillFiemapExtents (env : FiemapEnv) (i : Nat) (t : ExtTree) (block num : Nat)
    (sb : Ext4SbInfo) : Option (Option Errno × List FiemapExtent × Ext4SbInfo) :=
  (fiemapLoop env i t ((block + num) % 2 ^ 32) num 0 block sb []).map fun r =>
    (r.1, r.2.1.map (Record.toBytes env.blksizeBits), r.2.2)

/-! ## What a round finds -/

/-- The extent status tree knows which of its delayed blocks the extent tree
has: those that are unwritten as well. -/
def Coherent (t : ExtTree) (i : Nat) (sb : Ext4SbInfo) : Prop :=
  ∀ x v, esMap sb i x = some v → valDelayed v = true →
    ((t.mapping x).isSome ↔ v.1 &&& extentStatusUnwritten ≠ 0#64)

/-- The extents of the tree have blocks of their own. -/
def Placed (t : ExtTree) : Prop := ∀ ex ∈ t.extents, 0 < ex.eeStart ∧ ex.eeStart < 2 ^ 48

/-- No extent goes on across the block. -/
def Edge (t : ExtTree) (b : Nat) : Prop := ∀ ex ∈ t.extents, ¬ (ex.eeBlock < b ∧ b < ex.eeEnd)

/-- A record says what is there. -/
inductive Describes (t : ExtTree) (D : Nat → Prop) (r : Record) : Prop
  | mapped (hlen : 0 < r.esLen) (hdel : r.flags.delalloc = false) (hunk : r.flags.unknown = false)
      (h : ∀ x, r.esLblk ≤ x → x < r.stop →
        t.mapping x = some (r.esPblk + (x - r.esLblk), r.flags.unwritten)) : Describes t D r
  | delayed (hlen : 0 < r.esLen) (hdel : r.flags.delalloc = true) (hunk : r.flags.unknown = true)
      (hunw : r.flags.unwritten = false)
      (h : ∀ x, r.esLblk ≤ x → x < r.stop → t.mapping x = none ∧ D x) : Describes t D r

/-- Nothing is mapped or delayed from `b` on. -/
def NothingFrom (t : ExtTree) (D : Nat → Prop) (b : Nat) : Prop :=
  ∀ x, b ≤ x → t.mapping x = none ∧ ¬ D x

/-- The type that the extent status tree has for a block. -/
def typeAt (sb : Ext4SbInfo) (i x : Nat) : Option (BitVec 64) := (esMap sb i x).map Prod.fst

/-- The block is in the last delayed extent: the delayed blocks behind it follow
it without a gap and without a change of type. -/
def LastRun (sb : Ext4SbInfo) (i b : Nat) : Prop :=
  DelayedAt (sb.root i) b ∧ ∀ x, b ≤ x → DelayedAt (sb.root i) x →
    ∀ y, b ≤ y → y ≤ x → typeAt sb i y = typeAt sb i b

/-- What a round at `block` may come to, with the delayed blocks `D` and those of
the last delayed extent `R`. -/
inductive RoundCase (t : ExtTree) (D R : Nat → Prop) (block : Nat) : Reported → Prop
  | hole {block' : Nat} (hlt : block < block') (hmax : block' ≤ extMaxBlocks)
      (hend : Edge t block')
      (h : ∀ x, block ≤ x → x < block' → t.mapping x = none ∧ ¬ D x) :
      RoundCase t D R block ⟨none, block'⟩
  | found {r : Record} (hlt : block < r.stop) (hmax : r.stop ≤ extMaxBlocks)
      (hend : Edge t r.stop) (hle : r.esLblk ≤ block) (hedge : Edge t block → r.esLblk = block)
      (h : Describes t D r)
      (hlast : r.flags.last = true →
        NothingFrom t D r.stop ∨ ∃ ex, t.extents = [ex] ∧ block < ex.eeBlock ∧ R block)
      (hrun : ∀ ex, t.extents = [ex] → block < ex.eeBlock →
        ∀ b, block ≤ b → b < r.stop → R b → r.flags.last = true) :
      RoundCase t D R block ⟨some r, r.stop⟩

variable {ex : Extent} {b stop x : Nat}

section Round

variable {blocksize i block last : Nat} {t : ExtTree} {sb : Ext4SbInfo} {p : ExtPath}
  {D R : Nat → Prop}

/-- The window of a round, in the extent tree. -/
inductive WindowCase (t : ExtTree) (p : ExtPath) (block last : Nat) : Window × Bool × Bool → Prop
  | hole {stop : Nat} (hlt : block < stop) (hle : stop ≤ last)
      (hfree : ∀ x, block ≤ x → x < stop → t.mapping x = none)
      (hlast : ext4ExtNextAllocatedBlock p = extMaxBlocks →
        (∀ x, block ≤ x → t.mapping x = none) ∨ ∃ ex, t.extents = [ex] ∧ block < ex.eeBlock)
      (hnext : ∀ ex, t.extents = [ex] → block < ex.eeBlock →
        ext4ExtNextAllocatedBlock p = extMaxBlocks) :
      WindowCase t p block last (holeWindow block stop, false, false)
  | extent {ex : Extent} (hex : ex ∈ t.extents) (hlo : ex.eeBlock ≤ block) (hhi : block < ex.eeEnd)
      (hlast : ext4ExtNextAllocatedBlock p = extMaxBlocks →
        ∀ x, ex.eeEnd ≤ x → t.mapping x = none) :
      WindowCase t p block last
        (⟨ex.eeBlock, ext4ExtGetActualLen ex, ex.eeStart⟩, true, ext4ExtIsUnwritten ex)

theorem mapping_eq_none_of_max (ht : t.Ok blocksize) (hx : extMaxBlocks ≤ x) :
    t.mapping x = none := by
  rw [ExtTree.mapping, mapping, blockView.get_eq_none_iff]
  intro ex hex hc
  have h1 := (ht.extents_ok ex hex).end_le
  have h2 : x < ex.eeEnd := hc.2
  omega

theorem mapping_eq_none_of_front (hone : t.extents = [ex]) (hx : x < ex.eeBlock) :
    t.mapping x = none := by
  rw [ExtTree.mapping, hone, mapping, blockView.get_eq_none_iff]
  intro e he hc
  rw [List.mem_singleton.mp he] at hc
  exact absurd hc.1 (Nat.not_le.mpr hx)

/-- Behind the extent of a path nothing is mapped, if no allocated block is
left. -/
theorem none_behind (ht : t.Ok blocksize) (hp : Found t block p) {rest : List Extent}
    (hafter : (leaf p.depth p.path).after = ex :: rest)
    (hnext : ext4ExtNextAllocatedBlock p = extMaxBlocks) :
    ∀ x, ex.eeEnd ≤ x → t.mapping x = none := by
  intro x hx
  by_cases hmax : x < extMaxBlocks
  · exact hp.gap_next ht hafter hx (by rwa [hnext])
  · exact mapping_eq_none_of_max ht (Nat.not_lt.mp hmax)

theorem windowAt_cases (ht : t.Ok blocksize) (hp : Found t block p) (hlt : block < last)
    (hlast : last ≤ extMaxBlocks) :
    WindowCase t p block last (windowAt p block (last - block)) := by
  have hadd : block + (last - block) = last := by omega
  rw [windowAt, ExtPath.ext, hadd]
  cases hafter : (leaf p.depth p.path).after with
  | nil =>
    have hnone : ∀ x, t.mapping x = none := by
      intro x
      rw [ExtTree.mapping, (hp.empty ht hafter).2]
      rfl
    refine .hole hlt (Nat.le_refl _) (fun x _ _ => hnone x) (fun _ => .inl fun x _ => hnone x) ?_
    intro ex hone
    rw [(hp.empty ht hafter).2] at hone
    cases hone
  | cons ex rest =>
    dsimp only [List.head?_cons]
    have hmem := hp.mem hafter
    split
    · rename_i hbefore
      have hext := hp.extents_eq hafter
      rw [hp.located.low ex (by rw [hafter]; rfl) hbefore, List.nil_append] at hext
      have hnext : ext4ExtNextAllocatedBlock p = extMaxBlocks ↔ t.extents = [ex] := by
        rw [ext4ExtNextAllocatedBlock, nextAllocated_eq (hp.keyed ht), hafter, List.tail_cons, hext]
        cases htail : rest ++ right p.depth p.path with
        | nil => exact iff_of_true rfl rfl
        | cons y ys =>
          have hy := ht.extents_ok y (by rw [hext, htail]; simp)
          have h1 := eeBlock_lt_eeEnd hy
          have h2 := hy.end_le
          refine iff_of_false (fun hmax => ?_) (by simp)
          have h3 : y.eeBlock = extMaxBlocks := hmax
          omega
      refine .hole (by omega) (by omega)
        (fun x _ hx => hp.gap_before ht hafter hbefore (by omega))
        (fun hmax => .inr ⟨ex, hnext.mp hmax, hbefore⟩) fun ex' hone _ => hnext.mpr ?_
      rw [hone] at hext ⊢
      rw [(List.cons.inj hext).1]
    · split
      · rename_i hbefore hbehind
        have hnext := hp.lt_next ht (by omega)
        refine .hole (by omega) (by omega)
          (fun x hx hx' => hp.gap_next ht hafter (by omega) (by omega))
          (fun hmax => .inl fun x hx => none_behind ht hp hafter hmax x (by omega)) ?_
        intro ex' hone hlt'
        rw [hone] at hmem
        rw [List.mem_singleton.mp hmem] at hbefore
        omega
      · exact .extent hmem (by omega) (by omega) fun hmax => none_behind ht hp hafter hmax

theorem nextDelayedStart_spec (rb : RbShape) (h : EsInv sb) {w : Window}
    (hw : w.stop ≤ extMaxBlocks) :
    ∃ n sb', nextDelayedStart rb i sb w = some (n, w, sb') ∧ EsInv sb'
      ∧ (∀ j, sb'.root j = sb.root j)
      ∧ (n = extMaxBlocks → ∀ x, w.stop ≤ x → ¬ DelayedAt (sb.root i) x)
      ∧ (n = extMaxBlocks ∨ ∃ e ∈ sb.root i, ext4EsIsDelayed e = true ∧ n = e.esLblk
        ∧ w.stop < esStop e) := by
  have h1 : (BitVec.ofNat 32 w.stop).toNat = w.stop := toNat_ofNat_lblk hw
  have h2 : (BitVec.ofNat 32 extMaxBlocks).toNat = extMaxBlocks := toNat_ofNat_lblk (Nat.le_refl _)
  have hle : BitVec.ofNat 32 w.stop ≤ BitVec.ofNat 32 extMaxBlocks := by
    rw [BitVec.le_def, h1, h2]
    exact hw
  obtain ⟨res, sb', hcall, hinv, hroot, hres⟩ := findDelayed_blocks rb i h hle
  rw [h1, h2] at hres
  rw [nextDelayedStart, hcall]
  cases res with
  | none =>
    refine ⟨_, sb', rfl, hinv, hroot, fun _ x hx hdel => hres x hx ?_ hdel, .inl rfl⟩
    obtain ⟨e, he, -, -, hhi⟩ := hdel
    have hmax := ((h.tree i).entries e he).le_max
    omega
  | some e =>
    obtain ⟨he, hd, hstop, -⟩ := hres
    have hpos := ((h.tree i).entries e he).pos
    have hmax := ((h.tree i).entries e he).le_max
    refine ⟨_, sb', rfl, hinv, hroot, fun heq => ?_, .inr ⟨e, he, hd, rfl, hstop⟩⟩
    rw [esStop] at hmax
    omega

/-- A delayed entry with a block in a hole of the file lies in that hole. -/
theorem Coherent.hole_of_mem (hc : Coherent t i sb) (h : EsInv sb) {e : ExtentStatus}
    (he : e ∈ sb.root i) (hd : ext4EsIsDelayed e = true) (hb : e.esLblk ≤ b ∧ b < esStop e)
    (hhole : t.mapping b = none) (hx : e.esLblk ≤ x ∧ x < esStop e) : t.mapping x = none := by
  have hval : ∀ y, e.esLblk ≤ y ∧ y < esStop e → esMap sb i y = some (esView.val e y) :=
    fun y hy => (get_eq_some_iff (h.tree i)).mpr ⟨e, he, hy, rfl⟩
  -- both blocks have the type of the entry
  have h1 := hc b _ (hval b hb) hd
  have h2 := hc x _ (hval x hx) hd
  rw [hhole] at h1
  rw [← Option.not_isSome_iff_eq_none]
  exact fun hsome => Bool.false_ne_true (h1.mpr (h2.mp hsome))

theorem typeAt_of_mem (h : EsInv sb) {e : ExtentStatus} (he : e ∈ sb.root i)
    (hx : e.esLblk ≤ x ∧ x < esStop e) : typeAt sb i x = some (ext4EsType e) := by
  rw [typeAt, esMap, (get_eq_some_iff (h.tree i)).mpr ⟨e, he, hx, rfl⟩]
  rfl

/-- A delayed entry in a hole is the last one if and only if its blocks are in the
last delayed extent: an entry of its type right behind it would have been merged. -/
theorem lastRun_iff (h : EsInv sb) (hc : Coherent t i sb) {e : ExtentStatus} (he : e ∈ sb.root i)
    (hd : ext4EsIsDelayed e = true) (hb : e.esLblk ≤ b ∧ b < esStop e)
    (hhole : t.mapping b = none) :
    LastRun sb i b ↔ ∀ x, esStop e ≤ x → ¬ DelayedAt (sb.root i) x := by
  have htype := typeAt_of_mem h he hb
  constructor
  · rintro ⟨-, hrun⟩ x hx hdx
    have hnext := hrun x (by omega) hdx (esStop e) (Nat.le_of_lt hb.2) hx
    rw [htype, typeAt, Option.map_eq_some_iff] at hnext
    obtain ⟨v, hv, hvt⟩ := hnext
    obtain ⟨e', he', hcov, rfl⟩ := (get_eq_some_iff (h.tree i)).mp hv
    have htype' : ext4EsType e = ext4EsType e' := hvt.symm
    have hlo : e'.esLblk ≤ esStop e := hcov.1
    have hhi : esStop e < esStop e' := hcov.2
    -- the two entries touch
    have hbefore : Before e e' := by
      obtain ⟨A, B, hAB⟩ := List.append_of_mem he
      have htree := h.tree i
      rw [hAB] at htree he'
      rcases List.mem_append.mp he' with hA | hB
      · have := (htree.before_cur e' hA).stop_le
        omega
      · rcases List.mem_cons.mp hB with rfl | hB
        · omega
        · exact htree.cur_before e' hB
    have hunw : ext4EsIsUnwritten e = false := by
      have := hc b _ ((get_eq_some_iff (h.tree i)).mpr ⟨e, he, hb, rfl⟩) hd
      rw [hhole, Option.isSome_none] at this
      rw [ext4EsIsUnwritten, bne_eq_false_iff_eq]
      exact not_not.mp fun hne => Bool.false_ne_true (this.mpr hne)
    have hmerge := hbefore.apart
    have hstop := hbefore.stop_le
    have hmax := ((h.tree i).entries e' he').le_max
    have hmeet : e.esLblk + e.esLen = e'.esLblk := Nat.le_antisymm hstop hlo
    rw [ext4EsCanBeMerged, if_neg (not_not.mpr htype'), if_neg (by rw [esStop] at hmax; omega),
      if_neg (not_not.mpr hmeet), hd, hunw] at hmerge
    split at hmerge
    · cases hmerge
    · split at hmerge <;> cases hmerge
  · intro hnone
    refine ⟨⟨e, he, hd, hb⟩, fun x hx hdx y hy hyx => ?_⟩
    have hlt : x < esStop e := by
      by_contra hge
      exact hnone x (Nat.le_of_not_lt hge) hdx
    rw [htype, typeAt_of_mem h he ⟨by omega, by omega⟩]

/-- `ext4_find_delayed_extent` for a hole. -/
theorem findDelayed_hole (rb : RbShape) (h : EsInv sb) (hc : Coherent t i sb) (hlt : block < stop)
    (hmax : stop ≤ extMaxBlocks) (hfree : ∀ x, block ≤ x → x < stop → t.mapping x = none) :
    ∃ n w sb', ext4FindDelayedExtent rb i sb (holeWindow block stop) = some (n, w, sb')
      ∧ EsInv sb' ∧ (∀ j, sb'.root j = sb.root j) ∧ w.esLblk = block ∧ block < w.stop
      ∧ w.stop ≤ extMaxBlocks
      ∧ (n = 0 ∧ (∀ x, block ≤ x → x < w.stop → t.mapping x = none ∧ ¬ DelayedAt (sb.root i) x)
        ∨ n ≠ 0 ∧ (∀ x, block ≤ x → x < w.stop → t.mapping x = none ∧ DelayedAt (sb.root i) x)
          ∧ (n = extMaxBlocks → ∀ x, w.stop ≤ x → ¬ DelayedAt (sb.root i) x)
          ∧ (n = extMaxBlocks → LastRun sb i block)
          ∧ ∀ b, block ≤ b → b < w.stop → LastRun sb i b → n = extMaxBlocks) := by
  have hwstop : (holeWindow block stop).stop = stop := by
    show block + (stop - block) = stop
    omega
  have h1 : (BitVec.ofNat 32 block).toNat = block := toNat_ofNat_lblk (by omega)
  have h2 : (BitVec.ofNat 32 (stop - 1)).toNat = stop - 1 := toNat_ofNat_lblk (by omega)
  have hle : BitVec.ofNat 32 block ≤ BitVec.ofNat 32 (stop - 1) := by
    rw [BitVec.le_def, h1, h2]
    omega
  obtain ⟨res, sb1, hcall, hinv, hroot, hres⟩ := findDelayed_blocks rb i h hle
  rw [h1, h2] at hres
  rw [ext4FindDelayedExtent, if_pos (show (holeWindow block stop).esPblk = 0 from rfl), hwstop,
    show (holeWindow block stop).esLblk = block from rfl, hcall, Option.bind_some]
  dsimp only [holeWindow] at hwstop ⊢
  cases res with
  | none =>
    refine ⟨_, _, _, rfl, hinv, hroot, rfl, by rwa [hwstop], by rwa [hwstop], .inl ⟨rfl, ?_⟩⟩
    rw [hwstop]
    exact fun x hlo hhi => ⟨hfree x hlo hhi, hres x hlo (by omega)⟩
  | some e =>
    obtain ⟨he, hd, hstop, hbefore⟩ := hres
    have hmaxe := ((h.tree i).entries e he).le_max
    dsimp only
    split
    · -- the first delayed block comes later
      have hw : ∀ x, x < (Window.mk block (min (e.esLblk - block) (stop - block)) 0).stop →
          x < stop ∧ x < e.esLblk := by
        intro x hx
        rw [Window.stop] at hx
        dsimp only at hx
        omega
      refine ⟨0, _, sb1, rfl, hinv, hroot, rfl, ?_, ?_, .inl ⟨rfl, fun x hlo hhi => ?_⟩⟩
      · show block < block + min (e.esLblk - block) (stop - block)
        omega
      · rw [Window.stop]
        dsimp only
        omega
      · exact ⟨hfree x hlo (hw x hhi).1, hbefore x hlo (hw x hhi).2⟩
    · rename_i hafter
      have hcover : e.esLblk ≤ block ∧ block < esStop e := ⟨Nat.not_lt.mp hafter, hstop⟩
      generalize hw : Window.mk block (e.esLblk + e.esLen - block) 0 = w
      have hwl : w.esLblk = block := by rw [← hw]
      have hws : w.stop = esStop e := by
        rw [← hw]
        show block + (e.esLblk + e.esLen - block) = esStop e
        rw [esStop] at hstop ⊢
        omega
      obtain ⟨n, sb2, hnext, hinv2, hroot2, hnone, hn⟩ :=
        nextDelayedStart_spec (i := i) rb hinv (w := w) (by rw [hws]; exact hmaxe)
      rw [hroot i] at hnone hn
      have hfree' : ∀ x, block ≤ x → x < w.stop → t.mapping x = none := fun x hlo hhi =>
        hc.hole_of_mem h he hd hcover (hfree block (Nat.le_refl _) hlt) ⟨by omega, by omega⟩
      refine ⟨n, w, sb2, hnext, hinv2, fun j => (hroot2 j).trans (hroot j), hwl, by rwa [hws],
        by rwa [hws], .inr ⟨?_, fun x hlo hhi => ⟨hfree' x hlo hhi, e, he, hd, by omega, by omega⟩,
          hnone, fun hmax => ?_, fun b hlo hhi hrun => ?_⟩⟩
      · rcases hn with rfl | ⟨e', he', -, rfl, hstop'⟩
        · decide
        · -- the entry behind begins behind this one
          intro hzero
          have hcover' : e'.esLblk ≤ block ∧ block < esStop e' := by omega
          have heq : e = e' := (h.tree i).separated.eq_of_covers _ he he' hcover hcover'
          subst heq
          omega
      · rw [hws] at hnone
        exact (lastRun_iff h hc he hd hcover (hfree block (Nat.le_refl _) hlt)).mpr (hnone hmax)
      · have hlast := (lastRun_iff h hc he hd ⟨by omega, by omega⟩ (hfree' b hlo hhi)).mp hrun
        refine hn.resolve_right ?_
        rintro ⟨e', he', hd', -, hstop'⟩
        have hpos := ((h.tree i).entries e' he').pos
        have hend : esStop e' = e'.esLblk + e'.esLen := rfl
        exact hlast (esStop e' - 1) (by omega) ⟨e', he', hd', by omega, by omega⟩

theorem edge_of_free (ht : t.Ok blocksize) (hb : 0 < b)
    (hnone : t.mapping (b - 1) = none) : Edge t b := by
  intro ex hex hin
  rw [mapping_of_mem ht hex ⟨by omega, by omega⟩] at hnone
  nomatch hnone

theorem edge_eeEnd (ht : t.Ok blocksize) (hex : ex ∈ t.extents) : Edge t ex.eeEnd := by
  intro y hy hin
  have hpos := eeBlock_lt_eeEnd (ht.extents_ok ex hex)
  have hcx : ex.eeBlock ≤ ex.eeEnd - 1 ∧ ex.eeEnd - 1 < ex.eeEnd := ⟨by omega, by omega⟩
  have hcy : y.eeBlock ≤ ex.eeEnd - 1 ∧ ex.eeEnd - 1 < y.eeEnd := ⟨by omega, by omega⟩
  have heq := ht.separated.eq_of_covers _ hex hy hcx hcy
  subst heq
  omega

theorem Coherent.of_same {sb' : Ext4SbInfo} (hc : Coherent t i sb) (hs : SameDelayed i sb sb') :
    Coherent t i sb' := fun x v hv hd => hc x v ((hs x v hd).mp hv) hd

theorem lastRun_of_same {sb' : Ext4SbInfo} (hs : SameDelayed i sb sb') (h : EsInv sb)
    (h' : EsInv sb') : LastRun sb' i b ↔ LastRun sb i b := by
  have hdel : ∀ x, DelayedAt (sb'.root i) x ↔ DelayedAt (sb.root i) x := fun x => hs.delayedAt h h'
  have hsome : ∀ x ty, ty &&& extentStatusDelayed ≠ 0#64 →
      (typeAt sb' i x = some ty ↔ typeAt sb i x = some ty) := by
    intro x ty hty
    simp only [typeAt, Option.map_eq_some_iff]
    refine exists_congr fun v => and_congr_left fun hv => hs x v ?_
    rw [valDelayed, hv]
    exact bne_iff_ne.mpr hty
  rw [LastRun, LastRun, hdel]
  refine and_congr_right fun hb => ?_
  obtain ⟨v, hd, hv⟩ := (delayedAt_iff h).mp hb
  have hty : v.1 &&& extentStatusDelayed ≠ 0#64 := bne_iff_ne.mp hd
  have hb1 : typeAt sb i b = some v.1 := by rw [typeAt, hv]; rfl
  simp only [hdel, hb1, (hsome b v.1 hty).mpr hb1, hsome _ v.1 hty]

theorem fiemapRound_cases (env : LookupEnv) (ht : t.Ok blocksize) (hphys : Placed t) (h : EsInv sb)
    (hc : Coherent t i sb) (hD : ∀ x, DelayedAt (sb.root i) x ↔ D x) (hlt : block < last)
    (hR : ∀ x, LastRun sb i x ↔ R x) (hlast : last ≤ extMaxBlocks) :
    ∃ res sb', fiemapRound env i t block last sb = some (res, sb') ∧ EsInv sb'
      ∧ SameDelayed i sb sb'
      ∧ (env.readErr = none → t.depth ≤ ext4MaxExtentDepth → ∃ rep, res = .ok rep)
      ∧ ∀ rep, res = .ok rep → t.depth ≤ ext4MaxExtentDepth ∧ RoundCase t D R block rep := by
  obtain ⟨sb1, hfind, hinv1, hkeeps⟩ :=
    findExtentCached_spec env (i := i) ht (fun ex hex => (hphys ex hex).2) h block
  have hsame1 := hkeeps i
  rw [fiemapRound, hfind, Option.bind_some]
  cases hf : findExtent env.readErr t block with
  | error e =>
    refine ⟨.error e, sb1, rfl, hinv1, hsame1, fun hread hdepth => ?_, nofun⟩
    obtain ⟨p, hp, -⟩ := ext4FindExtent_spec ht hdepth block
    rw [hread] at hf
    cases hp.symm.trans hf
  | ok p =>
    have hp := findExtent_found ht hf
    have hdepth : t.depth ≤ ext4MaxExtentDepth := hp.tree_eq ▸ hp.depth_le
    have hD1 : ∀ x, DelayedAt (sb1.root i) x ↔ D x :=
      fun x => (hsame1.delayedAt h hinv1).trans (hD x)
    have hR1 : ∀ x, LastRun sb1 i x ↔ R x := fun x => (lastRun_of_same hsame1 h hinv1).trans (hR x)
    have hc1 := hc.of_same hsame1
    have hw := windowAt_cases ht hp hlt hlast
    dsimp only
    generalize windowAt p block (last - block) = w at hw
    cases hw with
    | @hole stop hstop hle hfree hnext hone =>
      obtain ⟨n, w, sb2, hdel, hinv2, hroot2, hwl, hws, hwmax, hcase⟩ :=
        findDelayed_hole env.rb hinv1 hc1 hstop (Nat.le_trans hle hlast) hfree
      have hsame2 : SameDelayed i sb sb2 := hsame1.trans (.of_root (hroot2 i))
      have hlen : w.esLen ≠ 0 := by
        rw [Window.stop] at hws
        omega
      have hlen0 : (holeWindow block stop).esLen ≠ 0 := by
        show stop - block ≠ 0
        omega
      rw [if_neg hlen0, hdel, Option.map_some]
      dsimp only
      rw [if_neg hlen]
      refine ⟨_, sb2, rfl, hinv2, hsame2, fun _ _ => ⟨_, rfl⟩, fun rep hrep => ?_⟩
      obtain rfl := Except.ok.inj hrep
      refine ⟨hdepth, ?_⟩
      rcases hcase with ⟨rfl, hfree'⟩ | ⟨hn, hdelayed, hnone, hrun, hmax⟩
      · refine .hole hws hwmax (edge_of_free ht (by omega) (hfree' _ (by omega) (by omega)).1) ?_
        exact fun x hlo hhi =>
          ⟨(hfree' x hlo hhi).1, fun hx => (hfree' x hlo hhi).2 ((hD1 x).mpr hx)⟩
      · have hend : Edge t w.stop :=
          edge_of_free ht (by omega) (hdelayed (w.stop - 1) (by omega) (by omega)).1
        rw [decide_eq_true hn]
        refine .found hws hwmax hend (Nat.le_of_eq hwl) (fun _ => hwl)
          (.delayed (Nat.pos_of_ne_zero hlen) rfl rfl rfl fun x hlo hhi => ?_) ?_ ?_
        · obtain ⟨hx, hdx⟩ := hdelayed x (hwl ▸ hlo) hhi
          exact ⟨hx, (hD1 x).mp hdx⟩
        · intro hlast'
          obtain ⟨heq, hmax'⟩ := of_decide_eq_true hlast'
          rcases hnext hmax' with hnone' | ⟨ex, hsingle, hbefore⟩
          · exact .inl fun x hx => ⟨hnone' x (Nat.le_trans (Nat.le_of_lt hws) hx),
              fun hdx => hnone (heq ▸ hmax') x hx ((hD1 x).mpr hdx)⟩
          · exact .inr ⟨ex, hsingle, hbefore, (hR1 block).mp (hrun (heq ▸ hmax'))⟩
        · intro ex hsingle hbefore b hlo hhi hb
          have h1 := hone ex hsingle hbefore
          have h2 := hmax b hlo hhi ((hR1 b).mpr hb)
          exact decide_eq_true ⟨h1.trans h2.symm, h1⟩
    | @extent ex hex hlo hhi hnext =>
      have hok := ht.extents_ok ex hex
      have hstart := (hphys ex hex).1
      obtain ⟨n, sb2, hdel, hinv2, hroot2, hnone, -⟩ :=
        nextDelayedStart_spec (i := i) env.rb hinv1
          (w := ⟨ex.eeBlock, ext4ExtGetActualLen ex, ex.eeStart⟩) hok.end_le
      have hsame2 : SameDelayed i sb sb2 := hsame1.trans (.of_root (hroot2 i))
      have hlen : ext4ExtGetActualLen ex ≠ 0 := Nat.ne_of_gt hok.len_pos
      rw [if_neg hlen, ext4FindDelayedExtent, if_neg (Nat.ne_of_gt hstart), hdel, Option.map_some]
      dsimp only
      rw [if_neg hlen]
      refine ⟨_, sb2, rfl, hinv2, hsame2, fun _ _ => ⟨_, rfl⟩, fun rep hrep => ?_⟩
      obtain rfl := Except.ok.inj hrep
      refine ⟨hdepth, ?_⟩
      refine .found hhi hok.end_le (edge_eeEnd ht hex) hlo (fun hedge => ?_)
        (.mapped hok.len_pos rfl rfl fun x hx hx' => mapping_of_mem ht hex ⟨hx, hx'⟩) ?_ ?_
      · by_contra hne
        exact hedge ex hex ⟨Nat.lt_of_le_of_ne hlo hne, hhi⟩
      · intro hlast'
        obtain ⟨heq, hmax⟩ := of_decide_eq_true hlast'
        exact .inl fun x hx =>
          ⟨hnext hmax x hx, fun hdx => hnone (heq ▸ hmax) x hx ((hD1 x).mpr hdx)⟩
      · intro ex' hsingle hbefore
        rw [hsingle] at hex
        rw [List.mem_singleton.mp hex] at hlo
        omega

end Round

/-! ## What the loop reports -/

/-- Every mapped or delayed block of `[first, stop)` is in a record. -/
def Covered (t : ExtTree) (D : Nat → Prop) (first stop : Nat) (rs : List Record) : Prop :=
  ∀ x, first ≤ x → x < stop → (t.mapping x).isSome ∨ D x → ∃ r ∈ rs, r.esLblk ≤ x ∧ x < r.stop

/-- Records of the range `[first, last)`: in order and apart, each with a block
of the range, each true, and none marked as the last before the last. -/
structure Reports (t : ExtTree) (D : Nat → Prop) (first last : Nat) (rs : List Record) : Prop where
  sorted : rs.Pairwise fun r r' => r.stop ≤ r'.esLblk
  touches : ∀ r ∈ rs, ∃ x, (first ≤ x ∧ x < last) ∧ r.esLblk ≤ x ∧ x < r.stop
  describes : ∀ r ∈ rs, Describes t D r
  last : ∀ r ∈ rs, r.flags.last = true → NothingFrom t D r.stop

/-- What holds between two rounds, `block` being the next to look at. -/
structure FiemapInv (t : ExtTree) (D : Nat → Prop) (first last block : Nat) (out : List Record) :
    Prop extends Reports t D first last out where
  below : ∀ r ∈ out, r.stop ≤ block
  edge : out = [] ∨ Edge t block
  covered : Covered t D first block out

section Loop

variable {blocksize i first last block : Nat} {t : ExtTree} {sb : Ext4SbInfo} {D R : Nat → Prop}
  {out : List Record}

theorem Describes.there {r : Record} (h : Describes t D r) (hlo : r.esLblk ≤ x)
    (hhi : x < r.stop) : (t.mapping x).isSome ∨ D x := by
  cases h with
  | mapped _ _ _ h => exact .inl (by rw [h x hlo hhi]; rfl)
  | delayed _ _ _ _ h => exact .inr (h x hlo hhi).2

theorem FiemapInv.init : FiemapInv t D first last first [] where
  sorted := .nil
  touches := nofun
  describes := nofun
  last := nofun
  below := nofun
  edge := .inl rfl
  covered := fun _ hlo hhi => absurd hlo (Nat.not_le_of_lt hhi)

theorem Covered.append {rs : List Record} (h : Covered t D first block out)
    (hrest : Covered t D block stop rs) : Covered t D first stop (out ++ rs) := by
  intro x hlo hhi hx
  rcases Nat.lt_or_ge x block with hlt | hge
  · obtain ⟨r, hr, hin⟩ := h x hlo hlt hx
    exact ⟨r, List.mem_append_left _ hr, hin⟩
  · obtain ⟨r, hr, hin⟩ := hrest x hge hhi hx
    exact ⟨r, List.mem_append_right _ hr, hin⟩

theorem FiemapInv.step {rep : Reported} (h : FiemapInv t D first last block out)
    (hfirst : first ≤ block) (hlt : block < last) (hr : RoundCase t D R block rep)
    (hfront : ∀ ex, t.extents = [ex] → block < ex.eeBlock → ¬ R block) :
    FiemapInv t D first last rep.block (out ++ rep.record.toList) := by
  cases hr with
  | @hole block' hlt' hmax hend hfree =>
    show FiemapInv t D first last block' (out ++ [])
    have hcovered : Covered t D first block' (out ++ []) := by
      refine h.covered.append fun x hlo hhi hx => ?_
      obtain ⟨hnone, hnd⟩ := hfree x hlo hhi
      rw [hnone] at hx
      exact hx.elim nofun (absurd · hnd)
    rw [List.append_nil] at hcovered ⊢
    exact { h with
      below := fun r hr => Nat.le_trans (h.below r hr) (Nat.le_of_lt hlt')
      edge := .inr hend
      covered := hcovered }
  | @found r hlt' hmax hend hle hedge hdesc hlast =>
    have hlast : r.flags.last = true → NothingFrom t D r.stop := fun h => (hlast h).resolve_right
      fun ⟨ex, hone, hbefore, hR⟩ => hfront ex hone hbefore hR
    show FiemapInv t D first last r.stop (out ++ [r])
    -- behind a record the next one starts at `block`; the first may start earlier
    have hafter : ∀ r' ∈ out, r'.stop ≤ r.esLblk := by
      intro r' hr'
      have hne : out ≠ [] := List.ne_nil_of_mem hr'
      rw [hedge (h.edge.resolve_left hne)]
      exact h.below r' hr'
    have hnew {P : Record → Prop} (hold : ∀ r' ∈ out, P r') (hr : P r) : ∀ r' ∈ out ++ [r], P r' :=
      List.forall_mem_append.mpr ⟨hold, List.forall_mem_singleton.mpr hr⟩
    exact
      { sorted := List.pairwise_append.mpr ⟨h.sorted, List.pairwise_singleton _ _,
          fun r' hr' y hy => List.mem_singleton.mp hy ▸ hafter r' hr'⟩
        touches := hnew h.touches ⟨block, ⟨hfirst, hlt⟩, hle, hlt'⟩
        describes := hnew h.describes hdesc
        last := hnew h.last hlast
        below := hnew (fun r' hr' => Nat.le_trans (h.below r' hr') (Nat.le_of_lt hlt'))
          (Nat.le_refl _)
        edge := .inr hend
        covered := h.covered.append fun x hlo hhi _ =>
          ⟨r, List.mem_singleton_self r, Nat.le_trans hle hlo, hhi⟩ }

/-- How the loop ends: at the end of the range, or because the caller wants no
more. -/
def Stopped (env : FiemapEnv) (last block : Nat) (out : List Record) : Prop :=
  last ≤ block ∨ ∃ out' r, out = out' ++ [r] ∧ block = r.stop
    ∧ env.fill (out'.map (Record.toBytes env.blksizeBits)) (r.toBytes env.blksizeBits) = .full

/-- The whole loop. The fuel is the number of blocks left, since each round
goes on by one block at least. -/
theorem fiemapLoop_spec (env : FiemapEnv) (ht : t.Ok blocksize) (hphys : Placed t)
    (hlast : last ≤ extMaxBlocks)
    (hfront : t.depth ≤ ext4MaxExtentDepth → ∀ ex b, t.extents = [ex] → first ≤ b → b < last →
      b < ex.eeBlock → ¬ R b)
    (fuel k : Nat) (hfuel : last - block ≤ fuel) (hfirst : first ≤ block) (h : EsInv sb)
    (hc : Coherent t i sb) (hD : ∀ x, DelayedAt (sb.root i) x ↔ D x)
    (hR : ∀ x, LastRun sb i x ↔ R x) (hinv : FiemapInv t D first last block out) :
    ∃ err out' sb' block', fiemapLoop env i t last fuel k block sb out = some (err, out', sb')
      ∧ EsInv sb' ∧ SameDelayed i sb sb' ∧ FiemapInv t D first last block' out'
      ∧ (err = none → Stopped env last block' out') := by
  induction fuel generalizing k block sb out with
  | zero =>
    have hdone : ¬ (block < last ∧ block ≠ extMaxBlocks) := by omega
    exact ⟨none, out, sb, block, if_neg hdone, h, .refl i sb, hinv, fun _ => .inl (by omega)⟩
  | succ fuel ih =>
    rw [fiemapLoop]
    by_cases hmore : block < last ∧ block ≠ extMaxBlocks
    · obtain ⟨res, sb1, hround, hinv1, hsame1, -, hcase⟩ :=
        fiemapRound_cases (env.lookup k) ht hphys h hc hD hmore.1 hR hlast
      rw [if_pos hmore, hround, Option.bind_some]
      cases res with
      | error e => exact ⟨some e, out, sb1, block, rfl, hinv1, hsame1, hinv, nofun⟩
      | ok rep =>
        obtain ⟨hdepth, hr⟩ := hcase rep rfl
        have hstep := hinv.step hfirst hmore.1 hr
          fun ex hone => hfront hdepth ex block hone hfirst hmore.1
        have hgrow : block < rep.block := by
          cases hr with
          | hole hlt => exact hlt
          | found hlt => exact hlt
        obtain ⟨err, out', sb', block', hloop, hinv', hsame', hfin, hstop⟩ :=
          ih (k + 1) (by omega) (by omega) hinv1 (hc.of_same hsame1)
            (fun x => (hsame1.delayedAt h hinv1).trans (hD x))
            (fun x => (lastRun_of_same hsame1 h hinv1).trans (hR x)) hstep
        obtain ⟨record, next⟩ := rep
        cases record with
        | none =>
          rw [Option.toList_none, List.append_nil] at hloop
          exact ⟨err, out', sb', block', hloop, hinv', hsame1.trans hsame', hfin, hstop⟩
        | some r =>
          dsimp only
          cases hfill : env.fill (out.map (Record.toBytes env.blksizeBits))
              (r.toBytes env.blksizeBits) with
          | fault e => exact ⟨some e, _, sb1, _, rfl, hinv1, hsame1, hstep, nofun⟩
          | full =>
            have hnext : next = r.stop := by
              cases hr
              rfl
            exact ⟨none, _, sb1, _, rfl, hinv1, hsame1, hstep,
              fun _ => .inr ⟨out, r, rfl, hnext, hfill⟩⟩
          | more => exact ⟨err, out', sb', block', hloop, hinv', hsame1.trans hsame', hfin, hstop⟩
    · have hle : last ≤ block := by omega
      exact ⟨none, out, sb, block, if_neg hmore, h, .refl i sb, hinv, fun _ => .inl hle⟩

/-- A caller with room for everything; it stops at the last record. -/
def roomy : FiemapEnv :=
  ⟨fun _ => ⟨none, false, .spine _, []⟩,
    fun _ fe => if fe.feFlags.last then .full else .more, 12⟩

/-- For such a caller the loop comes to the last delayed extent. In front of the
file's only extent its record is marked as the last. -/
theorem fiemapLoop_front (ht : t.Ok blocksize) (hphys : Placed t) (hlast : last ≤ extMaxBlocks)
    (hdepth : t.depth ≤ ext4MaxExtentDepth) (hone : t.extents = [ex]) (hbefore : b < ex.eeBlock)
    (hblast : b < last) (hb : R b) (fuel k : Nat) (out : List Record)
    (hfuel : last - block ≤ fuel) (hle : block ≤ b) (h : EsInv sb) (hc : Coherent t i sb)
    (hR : ∀ x, LastRun sb i x ↔ R x) :
    ∃ out' sb', fiemapLoop roomy i t last fuel k block sb out = some (none, out', sb')
      ∧ ∃ r ∈ out', r.flags.last = true ∧ r.stop ≤ ex.eeBlock := by
  induction fuel generalizing k block sb out with
  | zero => omega
  | succ fuel ih =>
    obtain ⟨res, sb1, hround, hinv1, hsame1, hok, hcase⟩ :=
      fiemapRound_cases (roomy.lookup k) ht hphys h hc (fun _ => Iff.rfl)
        (Nat.lt_of_le_of_lt hle hblast) hR hlast
    obtain ⟨rep, rfl⟩ := hok rfl hdepth
    rw [fiemapLoop, if_pos (by omega), hround, Option.bind_some]
    have hrest := fun block' out (hgrow : block < block') (hle' : block' ≤ b) =>
      ih (k + 1) out (by omega) hle' hinv1 (hc.of_same hsame1)
        fun x => (lastRun_of_same hsame1 h hinv1).trans (hR x)
    cases (hcase rep rfl).2 with
    | @hole block' hlt hmax hend hnone =>
      refine hrest block' out hlt (Nat.le_of_not_lt fun hgt => ?_)
      exact (hnone b hle hgt).2 ((hR b).mpr hb).1
    | @found r hlt hmax hend hlo hedge hdesc hflag hrun =>
      have hfill : roomy.fill (out.map (Record.toBytes roomy.blksizeBits))
          (r.toBytes roomy.blksizeBits) = if r.flags.last then .full else .more := rfl
      dsimp only
      rw [hfill]
      by_cases hmark : r.flags.last = true
      · rw [if_pos hmark]
        refine ⟨_, _, rfl, r, List.mem_append_right _ (List.mem_singleton_self r), hmark, ?_⟩
        -- a block that is mapped is not in front of the extent
        cases hdesc with
        | mapped _ _ _ hmap =>
          have := hmap block hlo hlt
          rw [mapping_eq_none_of_front hone (by omega)] at this
          cases this
        | delayed _ _ _ _ hdel =>
          by_contra hgt
          have := (hdel ex.eeBlock (by omega) (Nat.lt_of_not_le hgt)).1
          rw [mapping_of_mem ht (hone ▸ List.mem_singleton_self ex)
            ⟨Nat.le_refl _,
              eeBlock_lt_eeEnd (ht.extents_ok ex (hone ▸ List.mem_singleton_self ex))⟩]
            at this
          cases this
      · rw [if_neg hmark]
        refine hrest r.stop _ hlt (Nat.le_of_not_lt fun hgt => ?_)
        exact hmark (hrun ex hone (by omega) b hle hgt hb)

end Loop

/-! ## The whole report -/

/-- The blocks of `[first, stop)` that are in a record are those that are
mapped or delayed. -/
def Exact (t : ExtTree) (D : Nat → Prop) (first stop : Nat) (rs : List Record) : Prop :=
  ∀ x, first ≤ x → x < stop →
    ((∃ r ∈ rs, r.esLblk ≤ x ∧ x < r.stop) ↔ (t.mapping x).isSome ∨ D x)

/-- The caller had enough after a record that is not the last: up to there
the report is exact. -/
def CutShort (env : FiemapEnv) (t : ExtTree) (D : Nat → Prop) (first : Nat) (rs : List Record) :
    Prop :=
  ∃ before r, rs = before ++ [r] ∧ r.flags.last = false ∧ Exact t D first r.stop rs
    ∧ env.fill (before.map (Record.toBytes env.blksizeBits)) (r.toBytes env.blksizeBits) = .full

/-- The call comes back, and what it has reported is right. -/
def ReportsFile (env : FiemapEnv) (i : Nat) (t : ExtTree) (block num : Nat) (sb : Ext4SbInfo) :
    Prop :=
  ∃ err rs sb', ext4FillFiemapExtents env i t block num sb
      = some (err, rs.map (Record.toBytes env.blksizeBits), sb')
    ∧ Reports t (DelayedAt (sb.root i)) block (block + num) rs
    ∧ (err = none → Exact t (DelayedAt (sb.root i)) block (block + num) rs
        ∨ CutShort env t (DelayedAt (sb.root i)) block rs)

section Report

variable {blocksize i block num first last : Nat} {t : ExtTree} {sb : Ext4SbInfo} {D : Nat → Prop}
  {out : List Record}

theorem Covered.exact (h : Covered t D first stop out)
    (hd : ∀ r ∈ out, Describes t D r) : Exact t D first stop out := by
  intro x hlo hhi
  refine ⟨?_, h x hlo hhi⟩
  rintro ⟨r, hr, hx, hx'⟩
  exact (hd r hr).there hx hx'

theorem Covered.of_nothing {stop' : Nat} (h : Covered t D first stop out)
    (hn : NothingFrom t D stop) : Covered t D first stop' out := by
  intro x hlo _ hx
  by_cases hlt : x < stop
  · exact h x hlo hlt hx
  · obtain ⟨hnone, hnd⟩ := hn x (Nat.le_of_not_lt hlt)
    rw [hnone] at hx
    exact hx.elim nofun (absurd · hnd)

theorem FiemapInv.complete {env : FiemapEnv} (h : FiemapInv t D first last block out)
    (hstop : Stopped env last block out) :
    Exact t D first last out ∨ CutShort env t D first out := by
  rcases hstop with hle | ⟨before, r, rfl, rfl, hfull⟩
  · exact .inl fun x hlo hhi => h.covered.exact h.describes x hlo (Nat.lt_of_lt_of_le hhi hle)
  · cases hlast : r.flags.last with
    | true =>
      have hr : r ∈ before ++ [r] := List.mem_append_right _ (List.mem_singleton_self r)
      exact .inl ((h.covered.of_nothing (h.last r hr hlast)).exact h.describes)
    | false => exact .inr ⟨before, r, rfl, hlast, h.covered.exact h.describes, hfull⟩

/-- The last delayed extent has a block of `[first, last)` and lies in front of the
file's only extent. -/
def LastInFront (t : ExtTree) (i : Nat) (sb : Ext4SbInfo) (first last : Nat) : Prop :=
  t.depth ≤ ext4MaxExtentDepth ∧ ∃ ex b, t.extents = [ex] ∧ first ≤ b ∧ b < last ∧ b < ex.eeBlock
    ∧ LastRun sb i b

theorem Record.eq_of_toBytes {k : Nat} {r r' : Record} (h : r.toBytes k = r'.toBytes k) :
    r.stop = r'.stop ∧ r.flags = r'.flags := by
  have hlblk : r.esLblk <<< k = r'.esLblk <<< k := congrArg FiemapExtent.feLogical h
  have hlen : r.esLen <<< k = r'.esLen <<< k := congrArg FiemapExtent.feLength h
  rw [Nat.shiftLeft_eq, Nat.shiftLeft_eq] at hlblk hlen
  rw [Window.stop, Window.stop, Nat.eq_of_mul_eq_mul_right (Nat.two_pow_pos k) hlblk,
    Nat.eq_of_mul_eq_mul_right (Nat.two_pow_pos k) hlen]
  exact ⟨rfl, congrArg FiemapExtent.feFlags h⟩

/-- **The report is right**, whatever fails around it, exactly if the last delayed
extent is not one of the range in front of the file's only extent. -/
theorem fillFiemapExtents_reports (ht : t.Ok blocksize) (hphys : Placed t) (h : EsInv sb)
    (hc : Coherent t i sb) (hrange : block + num ≤ extMaxBlocks) :
    (∀ env, ReportsFile env i t block num sb) ↔ ¬ LastInFront t i sb block (block + num) := by
  have hmod : (block + num) % 2 ^ 32 = block + num := by
    rw [extMaxBlocks] at hrange
    omega
  constructor
  · rintro hall ⟨hdepth, ex, b, hone, hfirst, hlast, hbefore, hrun⟩
    obtain ⟨err, rs, sb', hcall, hrep, -⟩ := hall roomy
    obtain ⟨out, sb'', hloop, r, hr, hmark, hstop⟩ := fiemapLoop_front ht hphys hrange hdepth hone
      hbefore hlast hrun num 0 [] (by omega) hfirst h hc (fun _ => Iff.rfl)
    rw [ext4FillFiemapExtents, hmod, hloop, Option.map_some] at hcall
    -- the marked record is among those reported
    have hmem : r.toBytes roomy.blksizeBits ∈ rs.map (Record.toBytes roomy.blksizeBits) := by
      have hrs : out.map (Record.toBytes roomy.blksizeBits)
          = rs.map (Record.toBytes roomy.blksizeBits) :=
        congrArg (fun x => x.2.1) (Option.some.inj hcall)
      rw [← hrs]
      exact List.mem_map_of_mem hr
    obtain ⟨r', hr', heq⟩ := List.mem_map.mp hmem
    obtain ⟨hstop', hflags⟩ := Record.eq_of_toBytes heq
    have hnone := (hrep.last r' hr' (hflags ▸ hmark) ex.eeBlock (hstop' ▸ hstop)).1
    have hex : ex ∈ t.extents := hone ▸ List.mem_singleton_self ex
    rw [mapping_of_mem ht hex ⟨Nat.le_refl _, eeBlock_lt_eeEnd (ht.extents_ok ex hex)⟩] at hnone
    cases hnone
  · intro hfront env
    obtain ⟨err, rs, sb', block', hloop, -, -, hinv, hstop⟩ :=
      fiemapLoop_spec env ht hphys hrange
        (fun hdepth ex b hone h1 h2 h3 hrun => hfront ⟨hdepth, ex, b, hone, h1, h2, h3, hrun⟩)
        num 0 (by omega) (Nat.le_refl block) h hc (fun _ => Iff.rfl) (fun _ => Iff.rfl)
        FiemapInv.init
    refine ⟨err, rs, sb', ?_, hinv.toReports, fun herr => hinv.complete (hstop herr)⟩
    rw [ext4FillFiemapExtents, hmod, hloop]
    rfl

end Report

/-- Three delayed blocks at the start of a file. -/
def delayedFront : List (EsEnv × EsOp) := [(.unbalanced [], .insert 0 0#32 3#32 0#64 4#32)]

theorem delayedFront_state :
    ∃ st, run delayedFront EsState.init = some st ∧ EsInv st.sb
      ∧ st.sb.root 0 = [mkEs 0 3 0#64 4#32] := by
  have hok : ∀ s ∈ delayedFront, s.2.Ok := List.forall_mem_singleton.mpr ⟨by decide, by decide⟩
  exact ⟨_, rfl, (RunInv.of_run hok rfl).inv, rfl⟩

theorem coherent_of_root {sb : Ext4SbInfo} {t : ExtTree} (h : EsInv sb)
    (hroot : sb.root 0 = [mkEs 0 3 0#64 4#32]) (hfree : ∀ x < 3, t.mapping x = none) :
    Coherent t 0 sb := by
  intro x v hv _
  obtain ⟨e, he, hx, rfl⟩ := (get_eq_some_iff (h.tree 0)).mp hv
  rw [hroot, List.mem_singleton] at he
  subst he
  have hlt : x < 3 := hx.2
  rw [hfree x hlt]
  interval_cases x <;> decide

/-- The delayed blocks in front of the file's only extent are said to be the
last, and the extent is not reported. -/
theorem fillFiemapExtents_last_before_extent :
    ∃ st, run delayedFront EsState.init = some st
      ∧ (oneExtent 5 3 100).Ok 4096 ∧ Placed (oneExtent 5 3 100) ∧ EsInv st.sb
      ∧ Coherent (oneExtent 5 3 100) 0 st.sb
      ∧ ¬ ReportsFile roomy 0 (oneExtent 5 3 100) 0 10 st.sb := by
  obtain ⟨st, hrun, hinv, hroot⟩ := delayedFront_state
  refine ⟨st, hrun, oneExtent_ok _ (by decide) (by decide) (by decide), by unfold Placed; decide,
    hinv, coherent_of_root hinv hroot (by decide), ?_⟩
  rintro ⟨err, rs, sb', hcall, hrep, -⟩
  have hout : (ext4FillFiemapExtents roomy 0 (oneExtent 5 3 100) 0 10 st.sb).map (·.2.1)
      = some [⟨0, 0, 3 * 4096, ⟨true, true, true, false⟩⟩] := by
    cases hrun
    decide +kernel
  rw [hcall, Option.map_some] at hout
  obtain ⟨r, rfl, hr⟩ := List.map_eq_singleton_iff.mp (Option.some.inj hout)
  have hlast : r.flags.last = true := by rw [show r.flags = _ from congrArg FiemapExtent.feFlags hr]
  have hstop : r.stop ≤ 5 := by
    have hlo : r.esLblk <<< 12 = 0 := congrArg FiemapExtent.feLogical hr
    have hlen : r.esLen <<< 12 = 3 * 4096 := congrArg FiemapExtent.feLength hr
    rw [Nat.shiftLeft_eq] at hlo hlen
    rw [Window.stop]
    omega
  have hnone := (hrep.last r (List.mem_singleton_self r) hlast 5 hstop).1
  exact absurd hnone (by decide)

/-- An extent behind the last delayed block of a file with two extents; and a file
with one extent, asked from behind the delayed blocks on. -/
theorem fillFiemapExtents_reports_three :
    ∃ st, run delayedFront EsState.init = some st
      ∧ (ext4FillFiemapExtents roomy 0 twoLeaves 0 30 st.sb).map (·.2.1.length) = some 3
      ∧ (∀ env, ReportsFile env 0 twoLeaves 0 30 st.sb)
      ∧ ∀ env, ReportsFile env 0 (oneExtent 5 3 100) 3 7 st.sb := by
  obtain ⟨st, hrun, hinv, hroot⟩ := delayedFront_state
  refine ⟨st, hrun, ?_, ?_, ?_⟩
  · cases hrun
    decide +kernel
  · refine (fillFiemapExtents_reports twoLeaves_ok (by unfold Placed; decide) hinv
      (coherent_of_root hinv hroot (by decide)) (by decide)).mpr ?_
    rintro ⟨-, ex, b, hone, -⟩
    exact absurd (congrArg List.length hone) (show twoLeaves.extents.length ≠ 1 by decide)
  · have hok : (oneExtent 5 3 100).Ok 4096 :=
      oneExtent_ok _ (by decide) (by decide) (by decide)
    refine (fillFiemapExtents_reports hok (by unfold Placed; decide) hinv
      (coherent_of_root hinv hroot (by decide)) (by decide)).mpr ?_
    rintro ⟨-, ex, b, -, hb, -, -, ⟨e, he, -, -, hlt⟩, -⟩
    rw [hroot, List.mem_singleton] at he
    rw [he] at hlt
    exact absurd hb (Nat.not_le.mpr hlt)

end Ext4.Fiemap
