import Ext4.Mballoc.FreeBlocks

/-!
# Multiblock allocator — runs of one group's buddy

A group's buddy is set up by `ext4_mb_init_cache` and then maintained by
`mb_mark_used` and `mb_free_blocks`. In every such run it stays what
`ext4_mb_generate_buddy` would compute from the bitmap.
-/

namespace Ext4.Mballoc

open Bitmap Dyadic Ext4Buddy

variable (geo : Geometry)

/-- The buddy half of `ext4_mb_init_cache`: the counts are cleared, the
buddy block is filled with ones and generated from the in-core bitmap. -/
def ext4MbInitCache (incore : Bits) (grinfo : Ext4GroupInfo) : Ext4Buddy :=
  ext4MbGenerateBuddy geo
    { bdBitmap := incore
      bdBuddy := fun _ => true
      bdInfo := { grinfo with
        bbFragments := 0
        bbCounters := fun o => if o < geo.blkbits + 2 then 0 else grinfo.bbCounters o } }

/-- The bits behind the last cluster of the group are set, as
`ext4_mark_bitmap_end` leaves them. -/
def Padded (m : Bits) : Prop := ∀ b, geo.clustersPerGroup ≤ b → b < geo.sMbMaxs 0 → m b = true

inductive BuddyOp where
  | markUsed (start len : Nat)
  | freeBlocks (first count : Nat)

/-- One call; `none` is a `BUG_ON`. -/
def buddyStep (op : BuddyOp) (e4b : Ext4Buddy) : Option Ext4Buddy :=
  match op with
  | .markUsed start len => (mbMarkUsed geo e4b start len).map Prod.snd
  | .freeBlocks first count => mbFreeBlocks geo e4b first count

/-- `mb_mark_used` is called for a free range, `mb_free_blocks` for any
range of the group. -/
def BuddyOp.Legal (e4b : Ext4Buddy) : BuddyOp → Prop
  | .markUsed start len => 0 < len ∧ ∀ b, InRange start len b → Free geo e4b.bdBitmap b
  | .freeBlocks first count => first + count ≤ geo.clustersPerGroup

/-- What a call comes to for the bitmap and the mark of a corrupt group. -/
def BuddyOp.onBits : BuddyOp → Bits × Bool → Bits × Bool
  | .markUsed start len, (m, corrupt) => (fill m start len true, corrupt)
  | .freeBlocks first count, (m, corrupt) => freedBits first count m corrupt

def bitsAfter (ops : List BuddyOp) (bits : Bits × Bool) : Bits × Bool :=
  ops.foldl (fun bits op => op.onBits bits) bits

def buddyRun : List BuddyOp → Ext4Buddy → Option Ext4Buddy
  | [], e4b => some e4b
  | op :: ops, e4b => (buddyStep geo op e4b).bind (buddyRun ops)

/-- Every call of the run is legal in the state it finds. -/
def LegalRun : List BuddyOp → Ext4Buddy → Prop
  | [], _ => True
  | op :: ops, e4b => op.Legal geo e4b ∧ ∀ e4b', buddyStep geo op e4b = some e4b'
    → LegalRun ops e4b'

/-- The two states agree in all that `ext4_mb_generate_buddy` computes,
the first-free hint apart. -/
structure SameBuddy (e4b e4b' : Ext4Buddy) : Prop where
  bits : ∀ o i, o ≤ geo.top → i < geo.sMbMaxs o → e4b.testBit geo o i = e4b'.testBit geo o i
  counters : ∀ o, o ≤ geo.top → e4b.bdInfo.bbCounters o = e4b'.bdInfo.bbCounters o
  free : e4b.bdInfo.bbFree = e4b'.bdInfo.bbFree
  fragments : e4b.bdInfo.bbFragments = e4b'.bdInfo.bbFragments
  largest : e4b.bdInfo.bbLargestFreeOrder = e4b'.bdInfo.bbLargestFreeOrder

variable {geo}

theorem largestFreeOrder_congr {c c' : Nat → Int} {n : Nat} (h : ∀ o, o < n → c o = c' o) :
    largestFreeOrder c n = largestFreeOrder c' n := by
  induction n with
  | zero => rfl
  | succ n ih =>
    rw [largestFreeOrder, largestFreeOrder, h n (Nat.lt_succ_self n),
      ih fun o ho => h o (Nat.lt_succ_of_lt ho)]

theorem Canon.same {e4b e4b' : Ext4Buddy} (h : Canon geo e4b) (h' : Canon geo e4b')
    (hbm : e4b'.bdBitmap = e4b.bdBitmap) : SameBuddy geo e4b e4b' := by
  have hcounters : ∀ o, o ≤ geo.top → e4b.bdInfo.bbCounters o = e4b'.bdInfo.bbCounters o := by
    intro o ho
    rw [h.laid.counters o ho, h'.laid.counters o ho, hbm]
  refine ⟨?_, hcounters, ?_, ?_, ?_⟩
  · intro o i ho hi
    rcases Nat.eq_zero_or_pos o with rfl | hpos
    · rw [testBit, testBit, if_pos rfl, if_pos rfl, hbm]
    · have hiff := (h.laid.bits o i hpos ⟨ho, hi⟩).trans
        (hbm ▸ (h'.laid.bits o i hpos ⟨ho, hi⟩).symm)
      cases hb : e4b.testBit geo o i with
      | false => exact (hiff.mp hb).symm
      | true =>
        rw [← Bool.not_eq_false, hiff, Bool.not_eq_false] at hb
        exact hb.symm
  · rw [h.free, h'.free, hbm]
  · rw [h.fragments, h'.fragments, hbm]
  · rw [h.largest, h'.largest]
    refine largestFreeOrder_congr fun o ho => hcounters o ?_
    rw [Geometry.top]
    omega

/-- The state after `ext4_mb_init_cache`. -/
theorem ext4MbInitCache_spec {incore : Bits} (hpad : Padded geo incore) (grinfo : Ext4GroupInfo) :
    Canon geo (ext4MbInitCache geo incore grinfo) ∧
      (ext4MbInitCache geo incore grinfo).bdBitmap = incore ∧
      (grinfo.bbFree = cnt (geo.sMbMaxs 0) (Free geo incore) →
        (ext4MbInitCache geo incore grinfo).bdInfo.bbitmapCorrupt = grinfo.bbitmapCorrupt) := by
  have hblank : Blank geo { bdBitmap := incore, bdBuddy := fun _ => true, bdInfo := { grinfo with
      bbFragments := 0
      bbCounters := fun o => if o < geo.blkbits + 2 then 0 else grinfo.bbCounters o } } := by
    refine ⟨fun o i h1 _ => ?_, fun o ho => ?_⟩
    · rw [testBit, if_neg (by omega)]
      simp
    · rw [Geometry.top] at ho
      rw [cnt_false fun _ _ => id]
      exact if_pos (by omega)
  obtain ⟨hcanon, hbm, hsound, -⟩ := ext4MbGenerateBuddy_spec hblank hpad
  exact ⟨hcanon, hbm, hsound⟩

theorem buddyStep_spec {op : BuddyOp} {e4b : Ext4Buddy} (h : Canon geo e4b)
    (hop : op.Legal geo e4b) : ∃ e4b', buddyStep geo op e4b = some e4b' ∧ Canon geo e4b' ∧
      (e4b'.bdBitmap, e4b'.bdInfo.bbitmapCorrupt)
        = op.onBits (e4b.bdBitmap, e4b.bdInfo.bbitmapCorrupt) := by
  cases op with
  | markUsed start len =>
    obtain ⟨ret, e4b', heq, hcanon, hbits, hstays⟩ := mbMarkUsed_spec h hop.1 hop.2
    exact ⟨e4b', by rw [buddyStep, heq]; rfl, hcanon, Prod.ext hbits hstays⟩
  | freeBlocks first count => exact mbFreeBlocks_spec h hop

theorem buddyRun_spec {ops : List BuddyOp} (h : Canon geo e4b) (hlegal : LegalRun geo ops e4b) :
    ∃ e4b', buddyRun geo ops e4b = some e4b' ∧ Canon geo e4b' ∧
      (e4b'.bdBitmap, e4b'.bdInfo.bbitmapCorrupt)
        = bitsAfter ops (e4b.bdBitmap, e4b.bdInfo.bbitmapCorrupt) := by
  induction ops generalizing e4b with
  | nil => exact ⟨e4b, rfl, h, rfl⟩
  | cons op ops ih =>
    obtain ⟨e1, heq, h1, hbits1⟩ := buddyStep_spec h hlegal.1
    obtain ⟨e2, heq2, h2, hbits2⟩ := ih h1 (hlegal.2 e1 heq)
    refine ⟨e2, by rw [buddyRun, heq, Option.bind_some, heq2], h2, ?_⟩
    rw [hbits2, hbits1]
    rfl

/-- **The maintained buddy is the generated one.** After any sequence of
calls the state is the one `ext4_mb_generate_buddy` computes from the
resulting bitmap, no cluster in front of `bb_first_free` is free, and the
bitmap is the one the calls leave, each for itself. -/
theorem run_same_as_generated (geo : Geometry) (incore : Bits) (hpad : Padded geo incore)
    (grinfo : Ext4GroupInfo) (ops : List BuddyOp)
    (hlegal : LegalRun geo ops (ext4MbInitCache geo incore grinfo)) :
    ∃ e4b, buddyRun geo ops (ext4MbInitCache geo incore grinfo) = some e4b ∧
      (∀ grinfo', SameBuddy geo e4b (ext4MbInitCache geo e4b.bdBitmap grinfo')) ∧
      (∀ b, b < e4b.bdInfo.bbFirstFree → b < geo.clustersPerGroup → e4b.bdBitmap b = true) ∧
      e4b.bdBitmap = (bitsAfter ops
        (incore, (ext4MbInitCache geo incore grinfo).bdInfo.bbitmapCorrupt)).1 := by
  obtain ⟨hinit, hincore, -⟩ := ext4MbInitCache_spec hpad grinfo
  obtain ⟨e4b, heq, h, hbits⟩ := buddyRun_spec hinit hlegal
  rw [hincore] at hbits
  refine ⟨e4b, heq, fun grinfo' => ?_, fun b hb hlt => ?_, congrArg Prod.fst hbits⟩
  · obtain ⟨hgen, hbm, -⟩ := ext4MbInitCache_spec h.padded grinfo'
    exact h.same hgen hbm
  · by_contra hfree
    have := clusters_le_maxs geo
    exact h.firstFree b hb ⟨by omega, by simpa using hfree⟩

/-- A group of 13 clusters, all free: five are allocated, two of them freed
and then eight, of which some are free already. -/
theorem run_same_as_generated_small :
    ∃ e4b, buddyRun ⟨1, 13, by decide, by decide⟩
        [.markUsed 2 5, .freeBlocks 3 2, .freeBlocks 0 8]
        (ext4MbInitCache ⟨1, 13, by decide, by decide⟩ (fun b => decide (13 ≤ b))
          ⟨13, 0, 0, 0, fun _ => 0, false⟩) = some e4b ∧
      (∀ grinfo', SameBuddy ⟨1, 13, by decide, by decide⟩ e4b
        (ext4MbInitCache ⟨1, 13, by decide, by decide⟩ e4b.bdBitmap grinfo')) ∧
      (∀ b, b < e4b.bdInfo.bbFirstFree → b < 13 → e4b.bdBitmap b = true) ∧
      e4b.bdBitmap = (bitsAfter [.markUsed 2 5, .freeBlocks 3 2, .freeBlocks 0 8]
        (fun b => decide (13 ≤ b), (ext4MbInitCache ⟨1, 13, by decide, by decide⟩
          (fun b => decide (13 ≤ b))
            ⟨13, 0, 0, 0, fun _ => 0, false⟩).bdInfo.bbitmapCorrupt)).1 := by
  have hpad : Padded ⟨1, 13, by decide, by decide⟩ (fun b => decide (13 ≤ b)) :=
    fun b hb _ => decide_eq_true hb
  refine run_same_as_generated _ _ hpad _ _ ⟨⟨by decide, fun b hb => ?_⟩, fun _ _ => ?_⟩
  · rw [(ext4MbInitCache_spec hpad _).2.1]
    have hlt : b < 7 := hb.2
    exact ⟨Nat.lt_of_lt_of_le hlt (by decide), decide_eq_false (by omega)⟩
  · exact ⟨show 3 + 2 ≤ 13 by decide, fun _ _ => ⟨show 0 + 8 ≤ 13 by decide, fun _ _ => trivial⟩⟩

end Ext4.Mballoc
