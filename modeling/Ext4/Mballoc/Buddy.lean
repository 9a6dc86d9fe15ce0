import Ext4.Lib.Bitmap
import Mathlib.Data.Nat.Size

/-!
# Multiblock allocator — the buddy of a group

The in-core state of one block group (`struct ext4_buddy` with its
`ext4_group_info`): the cluster bitmap, the buddy block that holds one
bitmap for every order above 0 at the offsets `ext4_mb_init` lays out, and
the counters. A bit is 1 when the chunk it stands for is not a free buddy.

`BUG_ON` is `none`. The word-at-a-time paths of `mb_clear_bits`,
`mb_test_and_clear_bits` and `ext4_set_bits` do what the bit-at-a-time ones
do and are not told apart.
-/

namespace Ext4.Mballoc

open Bitmap

/-- The part of `struct ext4_group_info` the buddy code maintains. -/
structure Ext4GroupInfo where
  bbFree : Int
  bbFragments : Int
  bbFirstFree : Nat
  bbLargestFreeOrder : Int
  bbCounters : Nat → Int
  bbitmapCorrupt : Bool

/-- The sizes of a mounted filesystem the buddy depends on. A group has at
most as many clusters as its bitmap block has bits. -/
structure Geometry where
  blkbits : Nat
  clustersPerGroup : Nat
  blkbits_pos : 0 < blkbits
  clusters_le : clustersPerGroup ≤ 2 ^ blkbits * 8

/-- `struct ext4_buddy`. -/
structure Ext4Buddy where
  bdBitmap : Bits
  bdBuddy : Bits
  bdInfo : Ext4GroupInfo

variable (geo : Geometry)

/-! ## The layout -/

/-- `s_mb_offsets`, in bytes: the `do` loop of `ext4_mb_init`. -/
def Geometry.sMbOffsets : Nat → Nat
  | 0 => 0
  | 1 => 0
  | i + 2 => sMbOffsets (i + 1) + (1 <<< (geo.blkbits - 1)) >>> i

/-- `s_mb_maxs`. -/
def Geometry.sMbMaxs : Nat → Nat
  | 0 => 2 ^ geo.blkbits <<< 3
  | i + 1 => (2 ^ geo.blkbits <<< 2) >>> i

/-- The highest order a buddy can have. -/
def Geometry.top : Nat := geo.blkbits + 1

/-- Where bit `i` of the bitmap of order `order` stands in the buddy block. -/
def Geometry.pos (order i : Nat) : Nat := 8 * geo.sMbOffsets order + i

namespace Ext4Buddy

variable (e4b : Ext4Buddy)

/-- `mb_test_bit(i, mb_find_buddy(e4b, order, &max))`. -/
def testBit (order i : Nat) : Bool :=
  if order = 0 then e4b.bdBitmap i else e4b.bdBuddy (geo.pos order i)

/-- `mb_set_bit` and `mb_clear_bit` on the bitmap of an order. -/
def putBit (order i : Nat) (v : Bool) : Ext4Buddy :=
  if order = 0 then { e4b with bdBitmap := put e4b.bdBitmap i v }
  else { e4b with bdBuddy := put e4b.bdBuddy (geo.pos order i) v }

/-- `ext4_set_bits` and `mb_clear_bits` on the bitmap of an order. -/
def fillBits (order lo len : Nat) (v : Bool) : Ext4Buddy :=
  if order = 0 then { e4b with bdBitmap := fill e4b.bdBitmap lo len v }
  else { e4b with bdBuddy := fill e4b.bdBuddy (geo.pos order lo) len v }

/-- `bb_counters[order] += d`. -/
def addCounter (order : Nat) (d : Int) : Ext4Buddy :=
  { e4b with bdInfo := { e4b.bdInfo with
      bbCounters := Function.update e4b.bdInfo.bbCounters order
        (e4b.bdInfo.bbCounters order + d) } }

end Ext4Buddy

open Ext4Buddy

/-! ## Generating a buddy from the bitmap -/

/-- `ffs`. -/
def ffs (n : Nat) : Nat :=
  if n = 0 then 0 else if n % 2 = 1 then 1 else ffs (n / 2) + 1

/-- `fls` is `Nat.size`. -/
def fls (n : Nat) : Nat := Nat.size n

/-- The order of the next chunk of `ext4_mb_mark_free_simple`. -/
def nextOrder (first len : Nat) : Nat :=
  let border := 2 <<< geo.blkbits
  let max := ffs (first ||| border) - 1
  let min := fls len - 1
  if max < min then max else min

/-- `ext4_mb_mark_free_simple`: one turn of the loop per unit of fuel. -/
def markFreeLoop : Nat → Nat → Nat → Ext4Buddy → Ext4Buddy
  | 0, _, _, e4b => e4b
  | fuel + 1, first, len, e4b =>
      if 0 < len then
        let min := nextOrder geo first len
        let e4b := e4b.addCounter min 1
        let e4b := if 0 < min then e4b.putBit geo min (first >>> min) false else e4b
        markFreeLoop fuel (first + 1 <<< min) (len - 1 <<< min) e4b
      else e4b

/-- A chunk has at least one cluster, so `len` turns are enough. -/
def ext4MbMarkFreeSimple (first len : Nat) (e4b : Ext4Buddy) : Ext4Buddy :=
  markFreeLoop geo len first len e4b

/-- The loop of `mb_set_largest_free_order`, from order `n - 1` down. -/
def largestFreeOrder (counters : Nat → Int) : Nat → Int
  | 0 => -1
  | n + 1 => if 0 < counters n then n else largestFreeOrder counters n

/-- `mb_set_largest_free_order`. -/
def mbSetLargestFreeOrder (e4b : Ext4Buddy) : Ext4Buddy :=
  { e4b with bdInfo := { e4b.bdInfo with
      bbLargestFreeOrder := largestFreeOrder e4b.bdInfo.bbCounters (geo.blkbits + 2) } }

/-- The `while` loop of `ext4_mb_generate_buddy`, with the counts of free
clusters and fragments so far. -/
def generateLoop : Nat → Nat → Int → Int → Ext4Buddy → Int × Int × Ext4Buddy
  | 0, _, free, fragments, e4b => (free, fragments, e4b)
  | fuel + 1, i, free, fragments, e4b =>
      let max := geo.clustersPerGroup
      if i < max then
        let first := i
        let i := findNext e4b.bdBitmap true max i
        let len := i - first
        let e4b :=
          if 1 < len then ext4MbMarkFreeSimple geo first len e4b else e4b.addCounter 0 1
        let i := if i < max then findNext e4b.bdBitmap false max i else i
        generateLoop fuel i (free + len) (fragments + 1) e4b
      else (free, fragments, e4b)

/-- `ext4_mb_generate_buddy`. Every turn of the loop passes a cluster. -/
def ext4MbGenerateBuddy (e4b : Ext4Buddy) : Ext4Buddy :=
  let max := geo.clustersPerGroup
  let i := findNext e4b.bdBitmap false max 0
  let e4b := { e4b with bdInfo := { e4b.bdInfo with bbFirstFree := i } }
  let (free, fragments, e4b) := generateLoop geo max i 0 0 e4b
  let e4b := { e4b with bdInfo := { e4b.bdInfo with bbFragments := fragments } }
  let e4b :=
    if free ≠ e4b.bdInfo.bbFree then
      { e4b with bdInfo := { e4b.bdInfo with bbFree := free, bbitmapCorrupt := true } }
    else e4b
  mbSetLargestFreeOrder geo e4b

/-- The `while` loop of `mb_regenerate_buddy`, over the orders `1 .. n`. -/
def setAllBits : Nat → Ext4Buddy → Ext4Buddy
  | 0, e4b => e4b
  | n + 1, e4b => (setAllBits n e4b).fillBits geo (n + 1) 0 (geo.sMbMaxs (n + 1)) true

/-- `mb_regenerate_buddy`. -/
def mbRegenerateBuddy (e4b : Ext4Buddy) : Ext4Buddy :=
  let e4b := setAllBits geo geo.top e4b
  let counters := fun o => if o < geo.blkbits + 2 then 0 else e4b.bdInfo.bbCounters o
  ext4MbGenerateBuddy geo { e4b with bdInfo := { e4b.bdInfo with
    bbFragments := 0, bbCounters := counters } }

/-! ## Freeing -/

/-- `mb_buddy_adjust_border`: the new border and the change of the counter. -/
def mbBuddyAdjustBorder (order : Nat) (bit side : Int) (e4b : Ext4Buddy) : Int × Int × Ext4Buddy :=
  if e4b.testBit geo order (bit + side).toNat then
    (bit - side, 1, e4b.putBit geo order bit.toNat false)
  else (bit + side, -1, e4b.putBit geo order (bit + side).toNat true)

/-- `if (first & 1) bb_counters[order] += mb_buddy_adjust_border(&first, buddy, -1)`. -/
def adjustLeft (order : Nat) (first : Int) (e4b : Ext4Buddy) : Int × Ext4Buddy :=
  if first % 2 = 1 then
    let r := mbBuddyAdjustBorder geo order first (-1) e4b
    (r.1, r.2.2.addCounter order r.2.1)
  else (first, e4b)

/-- `if (!(last & 1)) bb_counters[order] += mb_buddy_adjust_border(&last, buddy, 1)`. -/
def adjustRight (order : Nat) (last : Int) (e4b : Ext4Buddy) : Int × Ext4Buddy :=
  if last % 2 = 0 then
    let r := mbBuddyAdjustBorder geo order last 1 e4b
    (r.1, r.2.2.addCounter order r.2.1)
  else (last, e4b)

/-- `mb_buddy_mark_free` from order `order` on; the fuel is the number of
orders left. -/
def markFreeUp : Nat → Nat → Int → Int → Ext4Buddy → Ext4Buddy
  | 0, _, _, _, e4b => e4b
  | fuel + 1, order, first, last, e4b =>
      let (first, e4b) := adjustLeft geo order first e4b
      let (last, e4b) := adjustRight geo order last e4b
      if last < first then e4b
      else if first = last ∨ geo.blkbits + 1 < order + 1 then
        (e4b.fillBits geo order first.toNat (last - first + 1).toNat false).addCounter order
          (last - first + 1)
      else markFreeUp fuel (order + 1) (first / 2) (last / 2) e4b

/-- `mb_buddy_mark_free`. -/
def mbBuddyMarkFree (first last : Int) (e4b : Ext4Buddy) : Ext4Buddy :=
  markFreeUp geo geo.top 1 first last e4b

/-- `if (first & 1) { first += !left_is_free; bb_counters[0] += left_is_free ? -1 : 1; }`. -/
def alignFirst (first : Nat) (leftIsFree : Bool) (e4b : Ext4Buddy) : Int × Ext4Buddy :=
  if first % 2 = 1 then
    (first + (if leftIsFree then 0 else 1), e4b.addCounter 0 (if leftIsFree then -1 else 1))
  else (first, e4b)

/-- `if (!(last & 1)) { last -= !right_is_free; bb_counters[0] += right_is_free ? -1 : 1; }`. -/
def alignLast (last : Nat) (rightIsFree : Bool) (e4b : Ext4Buddy) : Int × Ext4Buddy :=
  if last % 2 = 0 then
    (last - (if rightIsFree then 0 else 1), e4b.addCounter 0 (if rightIsFree then -1 else 1))
  else (last, e4b)

/-- `mb_free_blocks` with its range cleared and no cluster of it free
before: the buddies are merged upwards from order 0. -/
def coalesce (e4b : Ext4Buddy) (first last : Nat) (leftIsFree rightIsFree : Bool) : Ext4Buddy :=
  let (first, e4b) := alignFirst first leftIsFree e4b
  let (last, e4b) := alignLast last rightIsFree e4b
  if first ≤ last then mbBuddyMarkFree geo (first / 2) (last / 2) e4b else e4b

/-- `mb_free_blocks`. -/
def mbFreeBlocks (e4b : Ext4Buddy) (first count : Nat) : Option Ext4Buddy :=
  if count = 0 then some e4b
  else if 2 ^ geo.blkbits <<< 3 ≤ first + count - 1 then none
  else if e4b.bdInfo.bbitmapCorrupt then some e4b
  else
    let info := { e4b.bdInfo with
      bbFree := e4b.bdInfo.bbFree + count
      bbFirstFree :=
        if first < e4b.bdInfo.bbFirstFree then first else e4b.bdInfo.bbFirstFree }
    let leftIsFree := first ≠ 0 && !e4b.bdBitmap (first - 1)
    let block := findNext e4b.bdBitmap false (first + count) first
    let bitmap := fill e4b.bdBitmap first count false
    let rightIsFree := first + count < geo.sMbMaxs 0 && !bitmap (first + count)
    if block < first + count then
      -- a cluster was free already: the group is marked and its buddy rebuilt
      let e4b := { e4b with bdBitmap := bitmap, bdInfo := { info with bbitmapCorrupt := true } }
      some (mbSetLargestFreeOrder geo (mbRegenerateBuddy geo e4b))
    else
      let d : Int :=
        if leftIsFree && rightIsFree then -1 else if !leftIsFree && !rightIsFree then 1 else 0
      let e4b := { e4b with
        bdBitmap := bitmap, bdInfo := { info with bbFragments := info.bbFragments + d } }
      some (mbSetLargestFreeOrder geo
        (coalesce geo e4b first (first + count - 1) leftIsFree rightIsFree))

/-! ## Allocating -/

/-- The loop of `mb_find_order_for_block`, with its walk over the buddy
block: `bb` and `bbIncr` are in bytes. -/
def findOrderLoop (buddy : Bits) : Nat → Nat → Nat → Nat → Nat → Nat
  | 0, _, _, _, _ => 0
  | fuel + 1, order, block, bb, bbIncr =>
      let block := block >>> 1
      if !buddy (8 * bb + block) then order
      else findOrderLoop buddy fuel (order + 1) block (bb + bbIncr) (bbIncr >>> 1)

/-- `mb_find_order_for_block`. -/
def mbFindOrderForBlock (e4b : Ext4Buddy) (block : Nat) : Nat :=
  findOrderLoop e4b.bdBuddy (geo.blkbits + 1) 1 block 0 (1 <<< (geo.blkbits - 1))

/-- One split of `mb_mark_used`: the buddy of order `ord` around `start`
becomes two of order `ord - 1`. -/
def splitBuddy (e4b : Ext4Buddy) (start ord : Nat) : Ext4Buddy :=
  let e4b := (e4b.putBit geo ord (start >>> ord) true).addCounter ord (-1)
  let cur := (start >>> (ord - 1)) / 2 * 2
  let e4b := (e4b.putBit geo (ord - 1) cur false).putBit geo (ord - 1) (cur + 1) false
  (e4b.addCounter (ord - 1) 1).addCounter (ord - 1) 1

/-- The `while` loop of `mb_mark_used`; `none` is a `BUG_ON`, or fuel that
has run out. -/
def markUsedLoop : Nat → Nat → Nat → Nat → Ext4Buddy → Option (Nat × Ext4Buddy)
  | 0, _, len, ret, e4b => if len = 0 then some (ret, e4b) else none
  | fuel + 1, start, len, ret, e4b =>
      if len = 0 then some (ret, e4b)
      else
        let ord := mbFindOrderForBlock geo e4b start
        if (start >>> ord) <<< ord = start ∧ 1 <<< ord ≤ len then
          if geo.sMbMaxs ord ≤ start >>> ord then none
          else
            markUsedLoop fuel (start + 1 <<< ord) (len - 1 <<< ord) ret
              ((e4b.putBit geo ord (start >>> ord) true).addCounter ord (-1))
        else
          let ret := if ret = 0 then len ||| ord <<< 16 else ret
          if ord = 0 then none
          else markUsedLoop fuel start len ret (splitBuddy geo e4b start ord)

/-- Enough turns for `len` clusters: each cluster costs at most one split
per order and one chunk. -/
def markUsedFuel (len : Nat) : Nat := len * (geo.top + 2) + geo.top + 1

/-- The counts as `mb_mark_used` updates them before its loop. -/
def markUsedInfo (e4b : Ext4Buddy) (start len : Nat) : Ext4GroupInfo :=
  let mlen := start ≠ 0 && !e4b.bdBitmap (start - 1)
  let max := start + len < geo.sMbMaxs 0 && !e4b.bdBitmap (start + len)
  { e4b.bdInfo with
    bbFree := e4b.bdInfo.bbFree - len
    bbFirstFree :=
      if e4b.bdInfo.bbFirstFree = start then start + len else e4b.bdInfo.bbFirstFree
    bbFragments := e4b.bdInfo.bbFragments +
      if mlen && max then 1 else if !mlen && !max then -1 else 0 }

/-- `mb_mark_used`: the value it returns, and the new state. -/
def mbMarkUsed (e4b : Ext4Buddy) (start len : Nat) : Option (Nat × Ext4Buddy) :=
  if 2 ^ geo.blkbits <<< 3 < start + len then none
  else
    let e4b := { e4b with bdInfo := markUsedInfo geo e4b start len }
    match markUsedLoop geo (markUsedFuel geo len) start len 0 e4b with
    | none => none
    | some (ret, e4b) =>
        some (ret, (mbSetLargestFreeOrder geo e4b).fillBits geo 0 start len true)

end Ext4.Mballoc
