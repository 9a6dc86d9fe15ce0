import Ext4.Lib.Dyadic
import Ext4.Mballoc.Buddy

/-!
# Multiblock allocator — the layout of the buddy block

The bitmaps of the orders stand one behind the other in the buddy block,
so a write to one order is not seen at another. From here on a buddy is
read as a family of chunks (`Laid`): which bits are 0, and how many of
them each counter counts. The two edits of the source, taking a buddy out
of the family and putting one in, are the two lemmas everything else uses.
-/

namespace Ext4.Mballoc

open Bitmap Dyadic Ext4Buddy

variable {geo : Geometry}

variable {o : Nat}

theorem sMbMaxs_eq (h : o ≤ geo.top) : geo.sMbMaxs o = 2 ^ (geo.blkbits + 3 - o) := by
  cases o with
  | zero =>
    rw [Geometry.sMbMaxs, Nat.shiftLeft_eq, ← pow_add]
    rfl
  | succ i =>
    rw [Geometry.top] at h
    rw [Geometry.sMbMaxs, Nat.shiftLeft_eq, ← pow_add, Nat.shiftRight_eq_div_pow,
      Nat.pow_div (by omega) (by omega)]
    congr 1
    omega

theorem offsets_succ (h1 : 1 ≤ o) (h2 : o ≤ geo.blkbits) :
    8 * geo.sMbOffsets (o + 1) = 8 * geo.sMbOffsets o + geo.sMbMaxs o := by
  obtain ⟨i, rfl⟩ : ∃ i, o = i + 1 := ⟨o - 1, by omega⟩
  rw [Geometry.sMbOffsets, sMbMaxs_eq (by rw [Geometry.top]; omega), Nat.mul_add,
    Nat.one_shiftLeft, Nat.shiftRight_eq_div_pow, Nat.pow_div (by omega) (by omega)]
  rw [show (8 : Nat) = 2 ^ 3 by norm_num, ← pow_add]
  congr 2
  omega

variable (geo) in
theorem offsets_le {o o' : Nat} (h1 : 1 ≤ o) (hlt : o < o') (h2 : o' ≤ geo.top) :
    8 * geo.sMbOffsets o + geo.sMbMaxs o ≤ 8 * geo.sMbOffsets o' := by
  rw [Geometry.top] at h2
  induction o' with
  | zero => omega
  | succ k ih =>
    rw [offsets_succ (by omega) (by omega)]
    rcases Nat.lt_succ_iff_lt_or_eq.mp hlt with hlt | rfl
    · have := ih hlt (by omega)
      omega
    · omega

variable (geo) in
/-- A chunk the buddy can speak about. -/
def Valid (o i : Nat) : Prop := o ≤ geo.top ∧ i < geo.sMbMaxs o

section Access

variable {e4b : Ext4Buddy} {o o' i i' : Nat}

theorem testBit_fillBits {lo len : Nat} (ho : o ≤ geo.top) (hle : lo + len ≤ geo.sMbMaxs o)
    (h' : Valid geo o' i') (v : Bool) :
    (e4b.fillBits geo o lo len v).testBit geo o' i'
      = if o' = o ∧ lo ≤ i' ∧ i' < lo + len then v else e4b.testBit geo o' i' := by
  unfold fillBits testBit
  by_cases hoo : o' = o
  · -- the bitmap of order 0 or a slice of the buddy: the same shift on both sides
    rw [hoo]
    split
    · exact if_congr (by omega) rfl rfl
    · unfold Geometry.pos
      exact if_congr (by omega) rfl rfl
  rw [if_neg fun hc : o' = o ∧ lo ≤ i' ∧ i' < lo + len => hoo hc.1]
  by_cases ho0 : o = 0
  · rw [if_pos ho0, if_neg (by omega), if_neg (by omega)]
  by_cases ho' : o' = 0
  · rw [if_neg ho0, if_pos ho', if_pos ho']
  rw [if_neg ho0, if_neg ho', if_neg ho']
  refine fill_out ?_
  have h2 := h'.2
  unfold Geometry.pos
  rcases Nat.lt_or_gt_of_ne hoo with hlt | hlt
  · have := offsets_le geo (by omega) hlt ho
    omega
  · have := offsets_le geo (by omega) hlt h'.1
    omega

theorem putBit_eq_fillBits (v : Bool) : e4b.putBit geo o i v = e4b.fillBits geo o i 1 v := by
  rw [putBit, put_eq_fill, put_eq_fill, fillBits]

theorem testBit_putBit (h : Valid geo o i) (h' : Valid geo o' i') (v : Bool) :
    (e4b.putBit geo o i v).testBit geo o' i'
      = if o' = o ∧ i' = i then v else e4b.testBit geo o' i' := by
  rw [putBit_eq_fillBits, testBit_fillBits h.1 h.2 h']
  exact if_congr (by omega) rfl rfl

@[simp] theorem testBit_addCounter (k : Nat) (d : Int) :
    (e4b.addCounter k d).testBit geo o i = e4b.testBit geo o i := rfl

@[simp] theorem counters_addCounter (k : Nat) (d : Int) :
    (e4b.addCounter k d).bdInfo.bbCounters o
      = if o = k then e4b.bdInfo.bbCounters o + d else e4b.bdInfo.bbCounters o := by
  unfold addCounter
  by_cases h : o = k
  · subst h
    simp
  · simp [h]

@[simp] theorem info_putBit (v : Bool) : (e4b.putBit geo o i v).bdInfo = e4b.bdInfo := by
  unfold putBit
  split <;> rfl

@[simp] theorem info_fillBits (lo len : Nat) (v : Bool) :
    (e4b.fillBits geo o lo len v).bdInfo = e4b.bdInfo := by
  unfold fillBits
  split <;> rfl

theorem putBit_addCounter (k : Nat) (d : Int) (v : Bool) :
    (e4b.addCounter k d).putBit geo o i v = (e4b.putBit geo o i v).addCounter k d := by
  unfold putBit
  split <;> rfl

end Access

/-! ## Families of buddies -/

variable (geo) in
/-- The buddy block shows the family `S`, and the counters count it. Order
0 has no bitmap in the buddy block. -/
structure Laid (e4b : Ext4Buddy) (S : Nat → Nat → Prop) : Prop where
  bits : ∀ o i, 1 ≤ o → Valid geo o i → (e4b.testBit geo o i = false ↔ S o i)
  counters : ∀ o, o ≤ geo.top → e4b.bdInfo.bbCounters o = cnt (geo.sMbMaxs o) (S o)

variable {a b c : Ext4Buddy} {d : Int}

namespace Laid

variable {e4b e4b' : Ext4Buddy} {S S' : Nat → Nat → Prop} {o i : Nat}

section

variable (h : Laid geo e4b S)
include h

theorem of_eq (hb : e4b'.bdBuddy = e4b.bdBuddy)
    (hc : e4b'.bdInfo.bbCounters = e4b.bdInfo.bbCounters) : Laid geo e4b' S where
  bits := fun o i h1 hv => by
    rw [← h.bits o i h1 hv, testBit, testBit, if_neg (by omega), if_neg (by omega), hb]
  counters := fun o ho => by rw [hc, h.counters o ho]

theorem congr (hS : ∀ o i, Valid geo o i → (S' o i ↔ S o i)) :
    Laid geo e4b S' where
  bits := fun o i h1 hv => by rw [h.bits o i h1 hv, hS o i hv]
  counters := fun o ho => by
    rw [h.counters o ho]
    exact (cnt_congr fun i hi => hS o i ⟨ho, hi⟩).symm

/-- One chunk changes, and the counter of its order follows. -/
theorem put (hv : Valid geo o i) {v : Bool} (hself : S' o i ↔ v = false)
    (hother : ∀ o' i', ¬ (o' = o ∧ i' = i) → (S' o' i' ↔ S o' i'))
    (hcnt : cnt (geo.sMbMaxs o) (S' o) = cnt (geo.sMbMaxs o) (S o) + d) :
    Laid geo ((e4b.putBit geo o i v).addCounter o d) S' where
  bits := fun o' i' h1 hv' => by
    rw [testBit_addCounter, testBit_putBit hv hv']
    split
    · rename_i hc
      rw [hc.1, hc.2, hself]
    · rename_i hc
      rw [h.bits o' i' h1 hv', hother o' i' hc]
  counters := fun o' ho' => by
    rw [counters_addCounter, info_putBit, h.counters o' ho']
    split
    · rename_i hc
      rw [hc, hcnt]
    · rename_i hc
      exact cnt_congr fun i' _ => (hother o' i' fun hh => hc hh.1).symm

theorem remove (hv : Valid geo o i) (hS : S o i) :
    Laid geo ((e4b.putBit geo o i true).addCounter o (-1))
      (fun o' i' => S o' i' ∧ ¬ (o' = o ∧ i' = i)) := by
  have hcnt := cnt_add_one (q := S o) (p := fun i' => S o i' ∧ ¬ (o = o ∧ i' = i)) hv.2 hS (by simp)
    (by simp +contextual)
  exact h.put hv (by simp) (fun o' i' hc => and_iff_left hc) (by omega)

theorem insert (hv : Valid geo o i) (hS : ¬ S o i) :
    Laid geo ((e4b.putBit geo o i false).addCounter o 1)
      (fun o' i' => S o' i' ∨ (o' = o ∧ i' = i)) := by
  have hcnt := cnt_add_one (p := S o) (q := fun i' => S o i' ∨ (o = o ∧ i' = i)) hv.2 (by simp) hS
    (by simp +contextual)
  exact h.put hv (by simp) (fun o' i' hc => or_iff_left hc) hcnt

theorem countZero (hS : ∀ o i, 1 ≤ o → (S' o i ↔ S o i))
    (hd : cnt (geo.sMbMaxs 0) (S' 0) = cnt (geo.sMbMaxs 0) (S 0) + d) :
    Laid geo (e4b.addCounter 0 d) S' where
  bits := fun o i h1 hv => by rw [testBit_addCounter, h.bits o i h1 hv, hS o i h1]
  counters := fun o ho => by
    rw [counters_addCounter, h.counters o ho]
    split
    · rename_i hc
      rw [hc, hd]
    · exact (cnt_congr fun i _ => hS o i (by omega)).symm

end

end Laid

/-! ## What a step leaves alone -/

theorem bitmap_putBit {e4b : Ext4Buddy} (o i : Nat) (v : Bool) (b : Nat) :
    (e4b.putBit geo o i v).bdBitmap b
      = if o = 0 ∧ b = i then v else e4b.bdBitmap b := by
  unfold putBit
  by_cases ho : o = 0
  · rw [if_pos ho]
    by_cases hb : b = i
    · rw [if_pos ⟨ho, hb⟩, hb]
      exact put_self ..
    · rw [if_neg fun hc => hb hc.2]
      exact put_ne _ _ hb
  · rw [if_neg ho, if_neg (fun hc => ho hc.1)]

@[simp] theorem bitmap_addCounter {e4b : Ext4Buddy} (o : Nat) (d : Int) :
    (e4b.addCounter o d).bdBitmap = e4b.bdBitmap := rfl

/-- What a turn of the loop leaves alone. -/
structure SameInfo (e4b e4b' : Ext4Buddy) : Prop where
  free : e4b'.bdInfo.bbFree = e4b.bdInfo.bbFree
  fragments : e4b'.bdInfo.bbFragments = e4b.bdInfo.bbFragments
  firstFree : e4b'.bdInfo.bbFirstFree = e4b.bdInfo.bbFirstFree
  corrupt : e4b'.bdInfo.bbitmapCorrupt = e4b.bdInfo.bbitmapCorrupt

theorem SameInfo.trans (h : SameInfo a b) (h' : SameInfo b c) : SameInfo a c :=
  ⟨h'.free.trans h.free, h'.fragments.trans h.fragments, h'.firstFree.trans h.firstFree,
    h'.corrupt.trans h.corrupt⟩

theorem sameInfo_addCounter (e4b : Ext4Buddy) (o : Nat) (d : Int) :
    SameInfo e4b (e4b.addCounter o d) := ⟨rfl, rfl, rfl, rfl⟩

theorem sameInfo_putBit (e4b : Ext4Buddy) (o i : Nat) (v : Bool) :
    SameInfo e4b (e4b.putBit geo o i v) := by
  refine ⟨?_, ?_, ?_, ?_⟩ <;> rw [info_putBit]

/-- What neither freeing nor allocating looks at on the way up. -/
structure Kept (e4b e4b' : Ext4Buddy) : Prop where
  info : SameInfo e4b e4b'
  bitmap : e4b'.bdBitmap = e4b.bdBitmap

theorem Kept.refl (e4b : Ext4Buddy) : Kept e4b e4b := ⟨⟨rfl, rfl, rfl, rfl⟩, rfl⟩

theorem Kept.trans (h : Kept a b) (h' : Kept b c) : Kept a c :=
  ⟨h.info.trans h'.info, h'.bitmap.trans h.bitmap⟩

theorem kept_addCounter (e4b : Ext4Buddy) (o : Nat) (d : Int) : Kept e4b (e4b.addCounter o d) :=
  ⟨sameInfo_addCounter e4b o d, rfl⟩

theorem kept_putBit (e4b : Ext4Buddy) (ho : 1 ≤ o) (i : Nat) (v : Bool) :
    Kept e4b (e4b.putBit geo o i v) := by
  refine ⟨sameInfo_putBit e4b o i v, ?_⟩
  funext b
  rw [bitmap_putBit, if_neg (fun hc => by omega)]

theorem kept_fillBits (e4b : Ext4Buddy) (ho : 1 ≤ o) (lo len : Nat) (v : Bool) :
    Kept e4b (e4b.fillBits geo o lo len v) := by
  refine ⟨⟨?_, ?_, ?_, ?_⟩, ?_⟩
  · rw [info_fillBits]
  · rw [info_fillBits]
  · rw [info_fillBits]
  · rw [info_fillBits]
  · unfold fillBits
    rw [if_neg (by omega)]

/-! ## The free clusters -/

variable (geo) in
/-- The clusters a bitmap shows as free. -/
def Free (m : Bits) (b : Nat) : Prop := b < geo.sMbMaxs 0 ∧ m b = false

variable (geo) in
theorem clusters_le_maxs : geo.clustersPerGroup ≤ geo.sMbMaxs 0 := by
  rw [sMbMaxs_eq (Nat.zero_le _), Nat.sub_zero, pow_add]
  exact geo.clusters_le

theorem valid_of_lt {o b : Nat} (ho : o ≤ geo.top) (hb : b < geo.sMbMaxs 0) :
    Valid geo o (b / 2 ^ o) := by
  refine ⟨ho, ?_⟩
  rw [sMbMaxs_eq (Nat.zero_le _)] at hb
  rw [sMbMaxs_eq ho, Nat.div_lt_iff_lt_mul (Nat.two_pow_pos o), ← pow_add]
  have : geo.blkbits + 3 - o + o = geo.blkbits + 3 - 0 := by
    rw [Geometry.top] at ho
    omega
  rwa [this]

theorem valid_of_whole {F : Nat → Prop} (hF : ∀ b, F b → b < geo.sMbMaxs 0) {o i : Nat}
    (ho : o ≤ geo.top) (hw : Whole F o i) : Valid geo o i := by
  have hb := start_div o i
  have := valid_of_lt ho (hF _ (hw _ hb))
  rwa [hb] at this

variable (geo) in
/-- The state `ext4_mb_generate_buddy` would compute from the bitmap, with
a first-free hint that may lag behind. -/
structure Canon (e4b : Ext4Buddy) : Prop where
  padded : ∀ b, geo.clustersPerGroup ≤ b → b < geo.sMbMaxs 0 → e4b.bdBitmap b = true
  laid : Laid geo e4b (Max (Free geo e4b.bdBitmap) geo.top)
  free : e4b.bdInfo.bbFree = cnt (geo.sMbMaxs 0) (Free geo e4b.bdBitmap)
  fragments : e4b.bdInfo.bbFragments = runs (geo.sMbMaxs 0) (Free geo e4b.bdBitmap)
  firstFree : ∀ b, b < e4b.bdInfo.bbFirstFree → ¬ Free geo e4b.bdBitmap b
  largest : e4b.bdInfo.bbLargestFreeOrder
    = largestFreeOrder e4b.bdInfo.bbCounters (geo.blkbits + 2)

end Ext4.Mballoc
