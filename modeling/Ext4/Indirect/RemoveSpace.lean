import Ext4.Lib.RadixTree

/-!
# Removing a range from an indirect map

`ext4_ind_remove_space` with all it calls. The map is a tree of pointers in
the inode: twelve to data blocks, then one to an indirect, a double and a
triple indirect block. A pointer is a tree with what can be reached through
it, and zero is a hole. The blocks are valid, and no journal or I/O call
fails. `freed` lists what has been given to `ext4_free_blocks`.
-/

namespace Ext4.Indirect

open Radix

def EXT4_NDIR_BLOCKS : Nat := 12
def EXT4_IND_BLOCK : Nat := 12
def EXT4_DIND_BLOCK : Nat := 13
def EXT4_TIND_BLOCK : Nat := 14

def MAX_LFS_FILESIZE : Int := 2 ^ 63 - 1

structure IndSb where
  blocksizeBits : Nat
  hugeFile : Bool
  blocksizeBits_ge : 10 ≤ blocksizeBits

namespace IndSb

variable (sb : IndSb)

/-- `EXT4_ADDR_PER_BLOCK`. -/
def addrPerBlock : Nat := 2 ^ (sb.blocksizeBits - 2)

/-- The number of blocks the tree has a place for. -/
def capacity : Nat :=
  EXT4_NDIR_BLOCKS + sb.addrPerBlock + sb.addrPerBlock ^ 2 + sb.addrPerBlock ^ 3

/-- `ext4_max_bitmap_size`. -/
def maxBitmapSize : Int :=
  let bits := sb.blocksizeBits
  let upperLimit : Int := if sb.hugeFile then 2 ^ 48 - 1 else (2 ^ 32 - 1) / 2 ^ (bits - 9)
  let metaBlocks : Int := 1 + (1 + 2 ^ (bits - 2)) + (1 + 2 ^ (bits - 2) + 2 ^ (2 * (bits - 2)))
  let upperLimit := (upperLimit - metaBlocks) * 2 ^ bits
  let res : Int := (sb.capacity : Int) * 2 ^ bits
  let res := if upperLimit < res then upperLimit else res
  if MAX_LFS_FILESIZE < res then MAX_LFS_FILESIZE else res

/-- The blocks of the largest file. -/
def maxBlocks : Int := (sb.maxBitmapSize + 2 ^ sb.blocksizeBits - 1) / 2 ^ sb.blocksizeBits

/-- `max_block`, which has 32 bits. -/
def maxBlock : Nat := (sb.maxBlocks % 2 ^ 32).toNat

end IndSb

/-- Offsets of a path, from its beginning. -/
def offsetsOf (l : List Nat) : Path := fun m => l.getD m 0

/-- `ext4_block_to_path`: the length of the path and the offsets. -/
def ext4BlockToPath (sb : IndSb) (iBlock : Nat) : Nat × Path :=
  let ptrs := sb.addrPerBlock
  if iBlock < EXT4_NDIR_BLOCKS then (1, offsetsOf [iBlock])
  else if iBlock - EXT4_NDIR_BLOCKS < ptrs then
    (2, offsetsOf [EXT4_IND_BLOCK, iBlock - EXT4_NDIR_BLOCKS])
  else if iBlock - EXT4_NDIR_BLOCKS - ptrs < ptrs ^ 2 then
    let iBlock := iBlock - EXT4_NDIR_BLOCKS - ptrs
    (3, offsetsOf [EXT4_DIND_BLOCK, iBlock / ptrs, iBlock % ptrs])
  else if (iBlock - EXT4_NDIR_BLOCKS - ptrs - ptrs ^ 2) / ptrs ^ 2 < ptrs then
    let iBlock := iBlock - EXT4_NDIR_BLOCKS - ptrs - ptrs ^ 2
    (4, offsetsOf [EXT4_TIND_BLOCK, iBlock / ptrs ^ 2, iBlock / ptrs % ptrs, iBlock % ptrs])
  else (0, offsetsOf [])

structure IndState where
  iData : Nat → Tree
  freed : List Block

/-! ## Freeing pointers -/

/-- The loop of `ext4_free_data` over `n` pointers from `p` on: the runs of
blocks it frees. -/
def freeDataRuns (ptr : Nat → Option Nat) : Nat → Nat → Nat → Nat → List (Nat × Nat)
  | 0, _, block, count => if 0 < count then [(block, count)] else []
  | n + 1, p, block, count =>
      match ptr p with
      | none => freeDataRuns ptr n (p + 1) block count
      | some nr =>
          if count = 0 then freeDataRuns ptr n (p + 1) nr 1
          else if nr = block + count then freeDataRuns ptr n (p + 1) block (count + 1)
          else (block, count) :: freeDataRuns ptr n (p + 1) nr 1

/-- `ext4_free_data`. -/
def ext4FreeData (ptr : Nat → Option Nat) (first last : Nat) : List Block :=
  (freeDataRuns ptr (last - first) first 0 0).flatMap fun r => (List.range' r.1 r.2).map .data

/-- `ext4_free_branches` for the pointers of a block, which have `depth`
levels below them. -/
def ext4FreeBranches (ptrs : Nat) : Nat → Tree → Nat → Nat → List Block
  | 0, bh, first, last => ext4FreeData (fun i => (bh.kid i).nr?) first last
  | depth + 1, bh, first, last =>
      (List.range' first (last - first)).reverse.flatMap fun i =>
        match bh.kid i with
        | .hole => []
        | .node nr kids => ext4FreeBranches ptrs depth (.node nr kids) 0 ptrs ++ [.index nr]

/-- A pointer in a variable of its own. -/
def single (nr : Tree) : Tree := .node 0 fun _ => nr

variable (sb : IndSb)

/-- Direct pointers are freed. -/
def freeDirect (first last : Nat) (st : IndState) : IndState where
  iData := fun i => if first ≤ i ∧ i < last then .hole else st.iData i
  freed := st.freed ++ ext4FreeData (fun i => (st.iData i).nr?) first last

/-- A whole tree is freed. -/
def killTree (slot depth : Nat) (st : IndState) : IndState :=
  if (st.iData slot).isHole then st
  else
    { iData := Function.update st.iData slot .hole
      freed := st.freed ++ ext4FreeBranches sb.addrPerBlock depth (single (st.iData slot)) 0 1 }

/-- Pointers of the block at level `j + 1` of a chain are freed; the inode
is at level zero. The tree of the chain is that of `slot`, of height
`h`. -/
def freeAt (slot h : Nat) (offsets : Path) (j first last : Nat) (st : IndState) : IndState where
  iData := Function.update st.iData slot ((st.iData slot).clearAt (rest offsets) j first last)
  freed := st.freed ++ ext4FreeBranches sb.addrPerBlock (h - (j + 1))
    ((st.iData slot).walk (rest offsets) j) first last

/-! ## The branch that is shared -/

/-- The levels of a path without the zero offsets at its end. -/
def significant (ds : Path) : Nat → Nat
  | 0 => 0
  | j + 1 => if ds j = 0 then significant ds j else j + 1

/-- `ext4_get_branch`: the level of the last pointer it looks at, which is
zero or the last one. -/
def getBranch : Path → Nat → Tree → Nat
  | _, 0, _ => 0
  | ds, k + 1, t => if t.isHole then 0 else getBranch (rest ds) k (t.kid (ds 0)) + 1

/-- `all_zeroes` of the pointers in front of `i`. -/
def allZeroes (bh : Tree) (i : Nat) : Bool := (List.range i).all fun m => (bh.kid m).isHole

/-- The loop of `ext4_find_shared`, from a level upwards. -/
def scanUp (t : Tree) (ds : Path) : Nat → Nat
  | 0 => 0
  | j + 1 => if allZeroes (t.walk ds j) (ds j) then scanUp t ds j else j + 1

/-- What `ext4_find_shared` returns: the level of `partial`, the index of
its pointer in its block, and `top`. -/
structure Shared where
  level : Nat
  p : Nat
  top : Tree

/-- `ext4_find_shared`. -/
def ext4FindShared (t : Tree) (h : Nat) (offsets : Path) : Shared :=
  let ds := rest offsets
  let k := significant ds h
  let q := scanUp t ds (getBranch ds k t)
  if q = k ∧ 0 < q then ⟨q, offsets q - 1, .hole⟩ else ⟨q, offsets q, t.walk ds q⟩

/-- The index of the pointer of a level of the chain. -/
def Shared.ptr (sh : Shared) (offsets : Path) (j : Nat) : Nat :=
  if j = sh.level then sh.p else offsets j

/-- The pointer behind the last one that a truncation would keep. -/
def Shared.next (sh : Shared) : Shared :=
  if sh.top.isHole then { sh with p := sh.p + 1 } else sh

/-! ## The two ends of the range -/

/-- The top of the shared branch is freed. -/
def freeTop (slot h : Nat) (offsets : Path) (sh : Shared) (st : IndState) : IndState :=
  if sh.top.isHole then st
  else
    match sh.level with
    | 0 =>
        { iData := Function.update st.iData slot .hole
          freed := st.freed ++ ext4FreeBranches sb.addrPerBlock h (single sh.top) 0 1 }
    | j + 1 => freeAt sb slot h offsets j sh.p (sh.p + 1) st

/-- The ends of the indirect blocks of a chain are freed, from a level
upwards. -/
def freeTails (slot h : Nat) (offsets : Path) (sh : Shared) : Nat → IndState → IndState
  | 0, st => st
  | j + 1, st => freeTails slot h offsets sh j
      (freeAt sb slot h offsets j (sh.ptr offsets (j + 1) + 1) sb.addrPerBlock st)

/-- Their beginnings are freed. -/
def freeHeads (slot h : Nat) (offsets : Path) (sh : Shared) : Nat → IndState → IndState
  | 0, st => st
  | j + 1, st => freeHeads slot h offsets sh j
      (freeAt sb slot h offsets j 0 (sh.ptr offsets (j + 1)) st)

/-- The part of `ext4_ind_remove_space` for the level of `start`. -/
def trimStart (slot h : Nat) (offsets : Path) (st : IndState) : IndState :=
  let sh := ext4FindShared (st.iData slot) h offsets
  freeTails sb slot h offsets sh sh.level (freeTop sb slot h offsets sh st)

/-- The part for the level of `end`. -/
def trimEnd (slot h : Nat) (offsets : Path) (st : IndState) : IndState :=
  let sh := ext4FindShared (st.iData slot) h offsets
  if !sh.top.isHole && sh.level = 0 then st
  else freeHeads sb slot h offsets sh.next sh.level st

/-- The cases of the switch, each with those it falls through to. -/
def killTind (n n2 : Nat) (st : IndState) : IndState :=
  if n2 ≤ n + 1 then st else killTree sb EXT4_TIND_BLOCK 3 st

def killDind (n n2 : Nat) (st : IndState) : IndState :=
  if n2 ≤ n + 1 then st else killTind sb (n + 1) n2 (killTree sb EXT4_DIND_BLOCK 2 st)

def killInd (n n2 : Nat) (st : IndState) : IndState :=
  if n2 ≤ n + 1 then st else killDind sb (n + 1) n2 (killTree sb EXT4_IND_BLOCK 1 st)

/-- `do_indirects`. -/
def doIndirects (slot n n2 : Nat) (st : IndState) : IndState :=
  if slot = EXT4_TIND_BLOCK then st
  else if slot = EXT4_DIND_BLOCK then killTind sb n n2 st
  else if slot = EXT4_IND_BLOCK then killDind sb n n2 st
  else killInd sb n n2 st

/-! ## Both ends in one tree -/

/-- The number of the block that holds the pointer of level `j`. -/
def blocknr (t : Tree) (offsets : Path) : Nat → Option Nat
  | 0 => none
  | j + 1 => (t.walk (rest offsets) j).nr?

section Converge

variable (slot h : Nat) (t : Tree) (offsets offsets2 : Path) (sh sh2 : Shared)

/-- The loop that goes up both chains until they meet; `a` and `b` are the
levels of `partial` and `partial2`. -/
def converge : Nat → Nat → Nat → IndState → IndState
  | 0, _, _, st => st
  | fuel + 1, a, b, st =>
      if a = 0 ∧ b = 0 then st
      else if 0 < a ∧ 0 < b ∧ blocknr t offsets a = blocknr t offsets2 b then
        freeAt sb slot h offsets (a - 1) (sh.ptr offsets a + 1) (sh2.ptr offsets2 b) st
      else
        let depth := h - a
        let depth2 := h - b
        let st := if 0 < a ∧ depth ≤ depth2 then
            freeAt sb slot h offsets (a - 1) (sh.ptr offsets a + 1) sb.addrPerBlock st
          else st
        let st := if 0 < b ∧ depth2 ≤ depth then
            freeAt sb slot h offsets2 (b - 1) 0 (sh2.ptr offsets2 b) st
          else st
        converge fuel (if 0 < a ∧ depth ≤ depth2 then a - 1 else a)
          (if 0 < b ∧ depth2 ≤ depth then b - 1 else b) st

end Converge

/-- The paths agree up to the higher one of two levels. -/
def isSubtree (offsets offsets2 : Path) (level : Nat) : Bool :=
  (List.range (level + 1)).all fun i => offsets i = offsets2 i

/-- The part of `ext4_ind_remove_space` for a range within one level. -/
def trimRange (slot h : Nat) (offsets offsets2 : Path) (st : IndState) : IndState :=
  let t := st.iData slot
  let sh := ext4FindShared t h offsets
  let sh2 := ext4FindShared t h offsets2
  let st := if isSubtree offsets offsets2 (min sh.level sh2.level) then st
    else freeTop sb slot h offsets sh st
  converge sb slot h t offsets offsets2 sh sh2.next (sh.level + sh2.level) sh.level sh2.level st

/-- `ext4_ind_remove_space`; `none` stands for `BUG_ON`. -/
def ext4IndRemoveSpace (start stop : Nat) (st : IndState) : Option IndState :=
  let stop := if sb.maxBlock ≤ stop then sb.maxBlock else stop
  if stop ≤ start ∨ sb.maxBlock < start then some st
  else
    let (n, offsets) := ext4BlockToPath sb start
    let (n2, offsets2) := ext4BlockToPath sb stop
    if n2 < n then none
    else if n = 1 ∧ n = n2 then some (freeDirect (offsets 0) (offsets2 0) st)
    else if n < n2 then
      let st := if n = 1 then freeDirect (offsets 0) EXT4_NDIR_BLOCKS st
        else trimStart sb (offsets 0) (n - 1) offsets st
      let st := trimEnd sb (offsets2 0) (n2 - 1) offsets2 st
      some (doIndirects sb (offsets 0) n n2 st)
    else some (trimRange sb (offsets 0) (n - 1) offsets offsets2 st)

/-! ## The map -/

/-- The block a logical block is mapped to. -/
def mapped (iData : Nat → Tree) (b : Nat) : Option Nat :=
  let (n, offsets) := ext4BlockToPath sb b
  if n = 0 then none else ((iData (offsets 0)).walk (rest offsets) (n - 1)).nr?

end Ext4.Indirect
