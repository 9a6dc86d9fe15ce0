import Ext4.BlockValidity.Zones
import Ext4.Extents.Leaf

/-!
# Extent trees — the check of a node

`__ext4_ext_check` (extents.c) looks at a node as it comes from the disk: a
header and slots of twelve bytes, which are extents in a leaf and index
entries above. `ext4_find_extent` then walks down through nodes that passed.

The check of a leaf keeps the last block of the previous extent in `prev` and
takes 0 for "no previous extent", so a second extent at block 0 is accepted
behind one that ends there. The check of an index node looks at the blocks the
entries point to, neither at their keys nor at their number.
-/

namespace Ext4.Extents

open IndexTree BinarySearch
open Ext4.ExtentsStatus (extMaxBlocks)

/-- Twelve bytes of a node, as three little-endian words. -/
structure Slot where
  w0 : BitVec 32
  w1 : BitVec 32
  w2 : BitVec 32
deriving DecidableEq, Repr

/-- The slot as `struct ext4_extent`. -/
def Slot.extent (s : Slot) : Extent where
  eeBlock := s.w0.toNat
  eeLen := s.w1.toNat % 2 ^ 16
  eeStart := s.w2.toNat + 2 ^ 32 * (s.w1.toNat / 2 ^ 16)

/-- `ei_block`. -/
def Slot.eiBlock (s : Slot) : Nat := s.w0.toNat

/-- `ext4_idx_pblock`. -/
def Slot.eiLeaf (s : Slot) : Nat := s.w1.toNat + 2 ^ 32 * (s.w2.toNat % 2 ^ 16)

/-- A node: `struct ext4_extent_header` and the slots behind it. -/
structure ExtNode where
  ehMagic : BitVec 16
  ehEntries : BitVec 16
  ehMax : BitVec 16
  ehDepth : BitVec 16
  slots : Nat → Slot

/-- The slots in use. -/
def ExtNode.entries (eh : ExtNode) : List Slot := (List.range eh.ehEntries.toNat).map eh.slots

/-- What the check reads besides the node: `ext4_data_block_valid` of the file
system, the block size, and `ext_depth(inode)`. -/
structure CheckEnv where
  valid : Nat → Nat → Bool
  blocksize : Nat
  inodeDepth : Nat

/-- `EXT4_EXT_MAGIC`. -/
def ext4ExtMagic : BitVec 16 := 0xf30a

def ext4ExtMaxEntries (env : CheckEnv) (depth : Nat) : Nat :=
  if depth = env.inodeDepth then ext4ExtSpaceRoot else ext4ExtSpaceBlock env.blocksize

/-- The sum is one of 32 bits. -/
def ext4ValidExtent (env : CheckEnv) (ext : Extent) : Bool :=
  let len := ext4ExtGetActualLen ext
  if (ext.eeBlock + len) % 2 ^ 32 ≤ ext.eeBlock then false else env.valid ext.eeStart len

def ext4ValidExtentIdx (env : CheckEnv) (s : Slot) : Bool := env.valid s.eiLeaf 1

/-- The loop over the extents of a leaf. -/
def validLeaf (env : CheckEnv) : List Extent → Nat → Bool
  | [], _ => true
  | ext :: rest, prev =>
      if !ext4ValidExtent env ext then false
      else if ext.eeBlock ≤ prev ∧ prev ≠ 0 then false
      else validLeaf env rest ((ext.eeBlock + ext4ExtGetActualLen ext + (2 ^ 32 - 1)) % 2 ^ 32)

def ext4ValidExtentEntries (env : CheckEnv) (eh : ExtNode) (depth : Nat) : Bool :=
  if eh.ehEntries = 0 then true
  else if depth = 0 then validLeaf env (eh.entries.map Slot.extent) 0
  else eh.entries.all (ext4ValidExtentIdx env)

/-- `__ext4_ext_check`, with the message of the error it reports. `csumOk` is
the result of `ext4_extent_block_csum_verify`. -/
def ext4ExtCheck (env : CheckEnv) (csumOk : Bool) (eh : ExtNode) (depth : Nat) :
    Except (String × Errno) Unit :=
  if eh.ehMagic ≠ ext4ExtMagic then .error ("invalid magic", .efscorrupted)
  else if eh.ehDepth.toNat ≠ depth then .error ("unexpected eh_depth", .efscorrupted)
  else if eh.ehMax = 0 then .error ("invalid eh_max", .efscorrupted)
  else if ext4ExtMaxEntries env depth < eh.ehMax.toNat then
    .error ("too large eh_max", .efscorrupted)
  else if eh.ehMax.toNat < eh.ehEntries.toNat then .error ("invalid eh_entries", .efscorrupted)
  else if !ext4ValidExtentEntries env eh depth then
    .error ("invalid extent entries", .efscorrupted)
  else if 32 < depth then .error ("too large eh_depth", .efscorrupted)
  else if env.inodeDepth ≠ depth ∧ csumOk = false then .error ("extent tree corrupted", .efsbadcrc)
  else .ok ()

/-! ## The walk over nodes -/

/-- A slot that was read, and `eh_entries` of its node. -/
structure Access where
  entries : Nat
  slot : Nat
deriving DecidableEq, Repr

/-- The positions the binary search compares with. -/
def probes (key : Nat → Nat) (b : Nat) : Nat → Nat → Nat → List Nat
  | 0, _, _ => []
  | fuel + 1, lo, hi =>
      if lo < hi then
        let m := lo + (hi - 1 - lo) / 2
        m :: if b < key m then probes key b fuel lo m else probes key b fuel (m + 1) hi
      else []

/-- `ext4_ext_binsearch_idx` and `ext4_ext_binsearch`: the slot they end at. -/
def binsearch (eh : ExtNode) (b : Nat) : Nat :=
  upperBound (fun i => (eh.slots i).eiBlock) b eh.ehEntries.toNat 1 eh.ehEntries.toNat - 1

/-- The slots read by a search in one node; the one it ends at is read for the
physical block. -/
def searched (eh : ExtNode) (b : Nat) : List Access :=
  (probes (fun i => (eh.slots i).eiBlock) b eh.ehEntries.toNat 1 eh.ehEntries.toNat
    ++ [binsearch eh b]).map fun slot => ⟨eh.ehEntries.toNat, slot⟩

/-- The blocks of the tree as they are on the disk. -/
structure Device where
  read : Nat → ExtNode
  csumOk : Nat → Bool

/-- The loop of `ext4_find_extent` from a node at depth `i` down, with the slots
it reads. -/
def findWalk (env : CheckEnv) (dev : Device) (b : Nat) :
    Nat → ExtNode → List Access × Except Errno Unit
  | 0, eh => (if eh.ehEntries = 0 then [] else searched eh b, .ok ())
  | i + 1, eh =>
      let blk := (eh.slots (binsearch eh b)).eiLeaf
      match ext4ExtCheck env (dev.csumOk blk) (dev.read blk) i with
      | .error (_, e) => (searched eh b, .error e)
      | .ok () =>
          let below := findWalk env dev b i (dev.read blk)
          (searched eh b ++ below.1, below.2)

/-- `ext4_find_extent`. -/
def ext4FindExtentOnDisk (env : CheckEnv) (dev : Device) (root : ExtNode) (b : Nat) :
    List Access × Except Errno Unit :=
  if ext4MaxExtentDepth < env.inodeDepth then ([], .error .efscorrupted)
  else findWalk env dev b env.inodeDepth root

/-! ## What an accepted node satisfies -/

/-- A node as the searches take it to be. -/
def Sound (eh : ExtNode) (depth : Nat) : Prop :=
  if depth = 0 then ExtentsOk (eh.entries.map Slot.extent)
  else eh.entries ≠ [] ∧ eh.entries.Pairwise fun x y => x.eiBlock ≤ y.eiBlock

/-- The same node with other keys. -/
def ExtNode.withKeys (eh : ExtNode) (keys : Nat → BitVec 32) : ExtNode :=
  { eh with slots := fun i => { eh.slots i with w0 := keys i } }

/-- The nodes that a lookup of `b` comes to, below a node of depth `i`: from an
index node to the block the search ends at, if it passes the check. -/
inductive OnPath (env : CheckEnv) (dev : Device) (b : Nat) : Nat → ExtNode → Nat → ExtNode → Prop
  | here {i : Nat} {eh : ExtNode} : OnPath env dev b i eh i eh
  | down {i j : Nat} {eh node : ExtNode} {blk : Nat}
      (hblk : blk = (eh.slots (binsearch eh b)).eiLeaf)
      (hcheck : ext4ExtCheck env (dev.csumOk blk) (dev.read blk) i = .ok ())
      (hbelow : OnPath env dev b i (dev.read blk) j node) : OnPath env dev b (i + 1) eh j node

variable {ext : Extent} {b fuel hi lo : Nat} {key : Nat → Nat}

section Leaf

variable {env : CheckEnv}

theorem extent_eeBlock_lt (s : Slot) : s.extent.eeBlock < 2 ^ 32 := s.w0.isLt

theorem extent_eeLen_lt (s : Slot) : s.extent.eeLen < 2 ^ 16 := Nat.mod_lt _ (by decide)

theorem actualLen_le_of_lt (h : ext.eeLen < 2 ^ 16) : ext4ExtGetActualLen ext ≤ 2 ^ 15 := by
  rw [ext4ExtGetActualLen, extInitMaxLen]
  split <;> omega

theorem validExtent_ok (hblock : ext.eeBlock < 2 ^ 32) (hlen : ext.eeLen < 2 ^ 16)
    (h : ext4ValidExtent env ext = true) : ext.Ok := by
  have hle := actualLen_le_of_lt hlen
  rw [ext4ValidExtent] at h
  split at h
  · nomatch h
  · refine ⟨?_, hlen, ?_⟩
    · omega
    · rw [Extent.eeEnd, extMaxBlocks]
      omega

/-- The loop, from an extent that ends at `prev`. -/
theorem validLeaf_spec {es : List Extent} {prev : Nat}
    (hes : ∀ ext ∈ es, ext.eeBlock < 2 ^ 32 ∧ ext.eeLen < 2 ^ 16)
    (h : validLeaf env es prev = true) :
    (∀ ext ∈ es, ext.Ok)
      ∧ ((∀ ext ∈ es, ext.eeBlock ≠ 0) → (∀ ext ∈ es, prev < ext.eeBlock)
        ∧ blockView.Separated es) := by
  induction es generalizing prev with
  | nil =>
    exact ⟨nofun,
      fun _ => ⟨nofun, List.Pairwise.nil⟩⟩
  | cons ext rest ih =>
    rw [validLeaf] at h
    split at h
    · nomatch h
    · rename_i hvalid
      rw [Bool.not_eq_true', Bool.not_eq_false] at hvalid
      have hok : ext.Ok :=
        validExtent_ok (hes ext (by simp)).1 (hes ext (by simp)).2 hvalid
      split at h
      · nomatch h
      · have hend := hok.end_le
        have hpos := hok.len_pos
        rw [Extent.eeEnd, extMaxBlocks] at hend
        have hlast : (ext.eeBlock + ext4ExtGetActualLen ext + (2 ^ 32 - 1)) % 2 ^ 32
            = ext.eeBlock + ext4ExtGetActualLen ext - 1 := by omega
        rw [hlast] at h
        obtain ⟨h1, h2⟩ := ih (fun e he => hes e (by simp [he])) h
        refine ⟨List.forall_mem_cons.mpr ⟨hok, h1⟩, fun hzero => ?_⟩
        obtain ⟨h3, h4⟩ := h2 fun e he => hzero e (by simp [he])
        have hext : prev < ext.eeBlock := by
          have := hzero ext (by simp)
          omega
        refine ⟨List.forall_mem_cons.mpr ⟨hext, fun e he => ?_⟩,
          List.pairwise_cons.mpr ⟨fun e he => ?_, h4⟩⟩
        · have := h3 e he
          omega
        · have := h3 e he
          show ext.eeBlock + ext4ExtGetActualLen ext ≤ e.eeBlock
          omega

end Leaf

variable {env : CheckEnv} {eh : ExtNode}

section

variable {csumOk : Bool} {depth : Nat} (h : ext4ExtCheck env csumOk eh depth = .ok ())
include h

theorem extCheck_entries : ext4ValidExtentEntries env eh depth = true := by
  unfold ext4ExtCheck at h
  split_ifs at h with _ _ _ _ _ hv
  simpa using hv

/-- The keys of an index node have no part in the check, and a node without
entries passes like one with them. -/
theorem extCheck_index (hdepth : depth ≠ 0) (keys : Nat → BitVec 32) :
    ext4ExtCheck env csumOk (eh.withKeys keys) depth = .ok ()
      ∧ ext4ExtCheck env csumOk { eh with ehEntries := 0 } depth = .ok () := by
  have hentries : (eh.withKeys keys).entries.all (ext4ValidExtentIdx env)
      = eh.entries.all (ext4ValidExtentIdx env) := by
    rw [ExtNode.entries, ExtNode.entries, List.all_map, List.all_map]
    rfl
  constructor
  · rw [← h, ext4ExtCheck, ext4ExtCheck, ext4ValidExtentEntries, ext4ValidExtentEntries, hentries]
    rw [if_neg hdepth, if_neg hdepth]
    rfl
  · rw [ext4ExtCheck] at h ⊢
    split at h
    · cases h
    split at h
    · cases h
    split at h
    · cases h
    split at h
    · cases h
    split at h
    · cases h
    split at h
    · cases h
    rename_i hmagic hdepth hmax hlarge _ _
    rw [if_neg hmagic, if_neg hdepth, if_neg hmax, if_neg hlarge]
    exact h

end

/-- An accepted leaf stores disjoint extents in order if and only if no extent
but the first begins at block 0. -/
theorem extCheck_leaf {csumOk : Bool} (h : ext4ExtCheck env csumOk eh 0 = .ok ()) :
    ExtentsOk (eh.entries.map Slot.extent)
      ↔ ∀ ext ∈ (eh.entries.map Slot.extent).tail, ext.eeBlock ≠ 0 := by
  have hvalid := extCheck_entries h
  have hes : ∀ ext ∈ eh.entries.map Slot.extent, ext.eeBlock < 2 ^ 32 ∧ ext.eeLen < 2 ^ 16 := by
    intro ext hext
    obtain ⟨s, -, rfl⟩ := List.mem_map.mp hext
    exact ⟨extent_eeBlock_lt s, extent_eeLen_lt s⟩
  have hleaf : validLeaf env (eh.entries.map Slot.extent) 0 = true := by
    rw [ext4ValidExtentEntries] at hvalid
    split at hvalid
    · rename_i hzero
      rw [ExtNode.entries, hzero]
      rfl
    · exact hvalid
  generalize eh.entries.map Slot.extent = es at *
  cases es with
  | nil =>
    exact ⟨nofun,
      fun _ => ⟨nofun, List.Pairwise.nil⟩⟩
  | cons ext rest =>
    obtain ⟨hok, -⟩ := validLeaf_spec hes hleaf
    constructor
    · intro hsound e he hzero
      have h1 : ext.eeEnd ≤ e.eeBlock := List.rel_of_pairwise_cons hsound.separated he
      have h2 := eeBlock_lt_eeEnd (hok ext (by simp))
      omega
    · intro hplain
      refine ⟨hok, ?_⟩
      rw [validLeaf] at hleaf
      split at hleaf
      · nomatch hleaf
      · split at hleaf
        · nomatch hleaf
        · have hend := (hok ext (by simp)).end_le
          rw [Extent.eeEnd, extMaxBlocks] at hend
          obtain ⟨-, h2⟩ := validLeaf_spec (fun e he => hes e (by simp [he])) hleaf
          obtain ⟨h3, h4⟩ := h2 hplain
          refine List.pairwise_cons.mpr ⟨fun e he => ?_, h4⟩
          have := h3 e he
          show ext.eeBlock + ext4ExtGetActualLen ext ≤ e.eeBlock
          omega

/-! ## The slots a walk reads -/

theorem probes_lt {n : Nat} (hhi : hi ≤ n) : ∀ i ∈ probes key b fuel lo hi, i < n := by
  induction fuel generalizing lo hi with
  | zero => exact nofun
  | succ fuel ih =>
    rw [probes]
    split
    · intro i hmem
      rcases List.mem_cons.mp hmem with rfl | hmem
      · omega
      · split at hmem
        · exact ih (by omega) i hmem
        · exact ih hhi i hmem
    · exact nofun

theorem upperBound_le (h : lo ≤ hi) : upperBound key b fuel lo hi ≤ hi := by
  induction fuel generalizing lo hi with
  | zero => exact h
  | succ fuel ih =>
    rw [upperBound]
    split
    · dsimp only
      split
      · have := ih (show lo ≤ lo + (hi - 1 - lo) / 2 by omega)
        omega
      · exact ih (by omega)
    · exact h

/-- A search reads entries only if and only if the node has one, in whatever
order they are. -/
theorem searched_lt_iff : (∀ a ∈ searched eh b, a.slot < a.entries) ↔ eh.ehEntries ≠ 0 := by
  constructor
  · intro hread h0
    have hlast : binsearch eh b < eh.ehEntries.toNat :=
      hread ⟨_, _⟩ (List.mem_map_of_mem (List.mem_append_right _ List.mem_cons_self))
    rw [h0] at hlast
    cases hlast
  · intro hne a ha
    have hpos : 0 < eh.ehEntries.toNat :=
      Nat.pos_of_ne_zero fun h0 => hne (BitVec.eq_of_toNat_eq h0)
    obtain ⟨slot, hslot, rfl⟩ := List.mem_map.mp ha
    rcases List.mem_append.mp hslot with hslot | hslot
    · exact probes_lt (Nat.le_refl _) slot hslot
    · rw [List.mem_singleton.mp hslot]
      have := @upperBound_le b eh.ehEntries.toNat _ 1 (fun i => (eh.slots i).eiBlock) hpos
      show binsearch eh b < eh.ehEntries.toNat
      rw [binsearch]
      omega

theorem findWalk_lt_iff {dev : Device} {i : Nat} :
    (∀ a ∈ (findWalk env dev b i eh).1, a.slot < a.entries)
      ↔ ∀ j node, OnPath env dev b i eh (j + 1) node → node.ehEntries ≠ 0 := by
  induction i generalizing eh with
  | zero =>
    refine iff_of_true ?_ ?_
    · rw [findWalk]
      split
      · exact nofun
      · rename_i hne
        exact searched_lt_iff.mpr hne
    · intro j node hpath
      cases hpath
  | succ i ih =>
    rw [findWalk]
    split
    · rename_i hcheck
      rw [searched_lt_iff]
      constructor
      · intro hne j node hpath
        cases hpath with
        | here => exact hne
        | down hblk hok => rw [← hblk, hok] at hcheck; cases hcheck
      · exact fun h => h i eh .here
    · rename_i hcheck
      simp only [List.forall_mem_append, searched_lt_iff, ih]
      constructor
      · rintro ⟨hne, hbelow⟩ j node hpath
        cases hpath with
        | here => exact hne
        | down hblk hok hpath =>
          subst hblk
          exact hbelow j node hpath
      · exact fun h => ⟨h i eh .here, fun j node hpath => h j node (.down rfl hcheck hpath)⟩

/-- What acceptance gives. A leaf stores disjoint extents in order if and only
if no extent but the first begins at block 0. Of an index node it says nothing
on keys and number of entries. A lookup reads no slot behind the entries of a
node if and only if the index nodes it comes to have entries. -/
theorem extCheck_find (env : CheckEnv) :
    (∀ csumOk eh, ext4ExtCheck env csumOk eh 0 = .ok () →
      (ExtentsOk (eh.entries.map Slot.extent)
        ↔ ∀ ext ∈ (eh.entries.map Slot.extent).tail, ext.eeBlock ≠ 0))
    ∧ (∀ csumOk eh depth, ext4ExtCheck env csumOk eh depth = .ok () → depth ≠ 0 → ∀ keys,
      ext4ExtCheck env csumOk (eh.withKeys keys) depth = .ok ()
        ∧ ext4ExtCheck env csumOk { eh with ehEntries := 0 } depth = .ok ())
    ∧ ∀ dev root b, (∀ a ∈ (ext4FindExtentOnDisk env dev root b).1, a.slot < a.entries)
      ↔ (env.inodeDepth ≤ ext4MaxExtentDepth → ∀ i node,
        OnPath env dev b env.inodeDepth root (i + 1) node → node.ehEntries ≠ 0) := by
  refine ⟨fun csumOk eh h => extCheck_leaf h, fun csumOk eh depth h => extCheck_index h, ?_⟩
  intro dev root b
  rw [ext4FindExtentOnDisk]
  split
  · rename_i hdepth
    exact iff_of_true nofun fun hle => absurd hle (Nat.not_le_of_lt hdepth)
  · rename_i hdepth
    rw [findWalk_lt_iff]
    exact ⟨fun h _ => h, fun h => h (Nat.le_of_not_lt hdepth)⟩

/-- A node with the given slots in use, with room for four. -/
def nodeOf (depth : BitVec 16) (es : List Slot) : ExtNode where
  ehMagic := ext4ExtMagic
  ehEntries := BitVec.ofNat 16 es.length
  ehMax := 4
  ehDepth := depth
  slots i := es.getD i ⟨0, 0, 0⟩

/-- A file system of 1000 blocks without system zones, and an inode with a tree
of the given depth. -/
def openEnv (inodeDepth : Nat) : CheckEnv where
  valid := BlockValidity.ext4DataBlockValid ⟨0, 1000⟩ (SearchTree.Shape.spine _) []
  blocksize := 1024
  inodeDepth := inodeDepth

/-- A leaf with two extents, and an index node over it. -/
theorem extCheck_find_twoLevels :
    ExtentsOk ((nodeOf 0 [⟨5, 3, 20⟩, ⟨8, 1, 30⟩]).entries.map Slot.extent)
      ∧ ext4ExtCheck (openEnv 1) true
          ((nodeOf 1 [⟨0, 7, 0⟩, ⟨5, 8, 0⟩]).withKeys fun i => if i = 0 then 9 else 4) 1 = .ok ()
      ∧ ∀ a ∈ (ext4FindExtentOnDisk (openEnv 1)
          ⟨fun _ => nodeOf 0 [⟨5, 3, 20⟩, ⟨8, 1, 30⟩], fun _ => true⟩
          (nodeOf 1 [⟨0, 7, 0⟩, ⟨5, 8, 0⟩]) 6).1, a.slot < a.entries := by
  obtain ⟨hleaf, hindex, hfind⟩ := extCheck_find (openEnv 1)
  refine ⟨(hleaf true _ rfl).mpr (by decide), ?_, (hfind _ _ 6).mpr ?_⟩
  · exact (hindex true (nodeOf 1 [⟨0, 7, 0⟩, ⟨5, 8, 0⟩]) 1 rfl (by decide) _).1
  · intro _ i node hpath
    cases hpath with
    | here => decide
    | down _ _ hpath => cases hpath

/-- A leaf with two extents at block 0 passes, and an index node without
entries, of which a search reads the slot behind the header; so does an index
node with its keys out of order. -/
theorem extCheck_accepts_unsound :
    (ext4ExtCheck (openEnv 0) true (nodeOf 0 [⟨0, 1, 20⟩, ⟨0, 1, 30⟩]) 0 = .ok ()
      ∧ ¬ Sound (nodeOf 0 [⟨0, 1, 20⟩, ⟨0, 1, 30⟩]) 0)
    ∧ (ext4ExtCheck (openEnv 1) true (nodeOf 1 [⟨5, 7, 0⟩, ⟨0, 8, 0⟩]) 1 = .ok ()
      ∧ ¬ Sound (nodeOf 1 [⟨5, 7, 0⟩, ⟨0, 8, 0⟩]) 1)
    ∧ ext4ExtCheck (openEnv 1) true (nodeOf 1 []) 1 = .ok ()
    ∧ ⟨0, 0⟩ ∈ (ext4FindExtentOnDisk (openEnv 1) ⟨fun _ => nodeOf 0 [], fun _ => true⟩
        (nodeOf 1 []) 0).1 := by
  refine ⟨⟨rfl, fun h => ?_⟩, ⟨rfl, fun h => ?_⟩, rfl, ?_⟩
  · have hsep : (1 : Nat) ≤ 0 := List.rel_of_pairwise_cons h.separated List.mem_cons_self
    nomatch hsep
  · have hle : (5 : Nat) ≤ 0 := List.rel_of_pairwise_cons h.2 List.mem_cons_self
    nomatch hle
  · decide

end Ext4.Extents
