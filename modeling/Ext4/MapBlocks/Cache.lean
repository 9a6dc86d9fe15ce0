import Ext4.Extents.Neighbours
import Ext4.ExtentsStatus.Delayed

/-!
# Mapping blocks — lookups and the extent status tree

A lookup in the extent tree leaves its traces in the extent status tree. When
`__read_extent_tree_block` (extents.c) has read a leaf for the first time, it
caches the extents of the leaf and the holes between them, as far as nothing
is known about these blocks; and a lookup that ends in a hole caches the hole
(`ext4_ext_put_gap_in_cache`), up to the next delayed block. Neither makes a
block delayed or takes the mark from one.
-/

namespace Ext4.MapBlocks

open Ext4.Extents IndexTree
open Ext4.ExtentsStatus hiding Errno

/-! ## The model -/

/-- What the surroundings decide about a lookup: an error of a read, whether
the leaf was read before, the shape of the extent status tree and the outcome
of allocations of its nodes. -/
structure LookupEnv where
  readErr : Option Errno
  verified : Bool
  rb : RbShape
  allocs : List Bool

/-- `EXTENT_STATUS_WRITTEN` or `EXTENT_STATUS_UNWRITTEN`. -/
def statusOf (unwritten : Bool) : BitVec 32 := if unwritten then 2#32 else 1#32

def statusHole : BitVec 32 := 8#32

/-- `ext4_es_cache_extent` for a range of blocks. -/
def cacheRange (env : LookupEnv) (i : Nat) (sb : Ext4SbInfo) (lblk len : Nat) (pblk : Fsblk)
    (status : BitVec 32) : Option Ext4SbInfo :=
  ext4EsCacheExtent env.rb env.allocs sb i (BitVec.ofNat 32 lblk) (BitVec.ofNat 32 len) pblk status

/-- The loop over the extents of a leaf; `prev` is the end of the extent
before. -/
def cacheExtents (env : LookupEnv) (i : Nat) : Nat → List Extent → Ext4SbInfo → Option Ext4SbInfo
  | _, [], sb => some sb
  | prev, ex :: rest, sb =>
      (if prev ≠ 0 ∧ prev ≠ ex.eeBlock then
          cacheRange env i sb prev (ex.eeBlock - prev) (BitVec.allOnes 64) statusHole
        else some sb).bind fun sb =>
      (cacheRange env i sb ex.eeBlock (ext4ExtGetActualLen ex) (BitVec.ofNat 64 ex.eeStart)
          (statusOf (ext4ExtIsUnwritten ex))).bind fun sb =>
      cacheExtents env i ex.eeEnd rest sb

/-- `ext4_find_extent` with the caching. No result is a `BUG_ON`. -/
def findExtentCached (env : LookupEnv) (i : Nat) (t : ExtTree) (lblk : Nat) (sb : Ext4SbInfo) :
    Option (Except Errno ExtPath × Ext4SbInfo) :=
  match findExtent env.readErr t lblk with
  | .error e => some (.error e, sb)
  | .ok p =>
      if p.depth = 0 ∨ env.verified then some (.ok p, sb)
      else (cacheExtents env i 0 (leaf p.depth p.path).toList sb).map fun sb => (.ok p, sb)

/-- `ext4_ext_put_gap_in_cache`. -/
def ext4ExtPutGapInCache (env : LookupEnv) (i : Nat) (sb : Ext4SbInfo)
    (holeStart holeLen : BitVec 32) :
    Option Ext4SbInfo :=
  (ext4EsFindDelayedExtentRange env.rb sb i holeStart (holeStart + holeLen - 1#32)).bind fun r =>
    match r.1 with
    | none =>
        (ext4EsInsertExtent env.rb env.allocs r.2 i holeStart holeLen (BitVec.allOnes 64)
          statusHole).map Prod.snd
    | some es =>
        if es.esLblk ≤ holeStart.toNat then some r.2
        else
          let len := min (es.esLblk - holeStart.toNat) holeLen.toNat
          (ext4EsInsertExtent env.rb env.allocs r.2 i holeStart (BitVec.ofNat 32 len)
            (BitVec.allOnes 64) statusHole).map Prod.snd

/-! ## What is kept -/

/-- The delayed blocks of the inode, with what is known about them, are the
same. -/
def SameDelayed (i : Nat) (sb sb' : Ext4SbInfo) : Prop :=
  ∀ b v, valDelayed v = true → (esMap sb' i b = some v ↔ esMap sb i b = some v)

namespace SameDelayed

variable {i : Nat} {sb sb' sb'' : Ext4SbInfo}

theorem refl (i : Nat) (sb : Ext4SbInfo) : SameDelayed i sb sb := fun _ _ _ => Iff.rfl

theorem trans (h : SameDelayed i sb sb') (h' : SameDelayed i sb' sb'') : SameDelayed i sb sb'' :=
  fun b v hv => (h' b v hv).trans (h b v hv)

theorem of_root (h : sb'.root i = sb.root i) : SameDelayed i sb sb' := by
  intro b v _
  rw [esMap, esMap, h]

end SameDelayed

/-- The same for every inode. -/
def KeepsDelayed (sb sb' : Ext4SbInfo) : Prop := ∀ i, SameDelayed i sb sb'

namespace KeepsDelayed

variable {sb sb' sb'' : Ext4SbInfo}

theorem refl (sb : Ext4SbInfo) : KeepsDelayed sb sb := fun i => .refl i sb

theorem trans (h : KeepsDelayed sb sb') (h' : KeepsDelayed sb' sb'') : KeepsDelayed sb sb'' :=
  fun i => (h i).trans (h' i)

theorem of_root (h : ∀ i, sb'.root i = sb.root i) : KeepsDelayed sb sb' := fun i => .of_root (h i)

end KeepsDelayed

variable {b hi lo : Nat} {f : Nat → EsVal} {failed : Prop}

theorem delayedAt_iff {sb : Ext4SbInfo} {i : Nat} (h : EsInv sb) :
    DelayedAt (sb.root i) b ↔ ∃ v, valDelayed v = true ∧ esMap sb i b = some v := by
  constructor
  · rintro ⟨e, he, hd, hlo, hhi⟩
    exact ⟨esView.val e b, hd, (get_eq_some_iff (h.tree i)).mpr ⟨e, he, ⟨hlo, hhi⟩, rfl⟩⟩
  · rintro ⟨v, hd, hv⟩
    obtain ⟨e, he, ⟨hlo, hhi⟩, rfl⟩ := (get_eq_some_iff (h.tree i)).mp hv
    exact ⟨e, he, hd, hlo, hhi⟩

theorem SameDelayed.delayedAt {sb sb' : Ext4SbInfo} {i : Nat} (hs : SameDelayed i sb sb')
    (h : EsInv sb) (h' : EsInv sb') : DelayedAt (sb'.root i) b ↔ DelayedAt (sb.root i) b := by
  rw [delayedAt_iff h, delayedAt_iff h']
  constructor
  · rintro ⟨v, hd, hv⟩
    exact ⟨v, hd, (hs b v hd).mp hv⟩
  · rintro ⟨v, hd, hv⟩
    exact ⟨v, hd, (hs b v hd).mpr hv⟩

theorem valDelayed_mkEs (lblk len : Nat) (pblk : Fsblk) (status : BitVec 32) (b : Nat) :
    valDelayed (esView.val (mkEs lblk len pblk status) b) = status.getLsbD 2 := by
  show ext4EsIsDelayed (mkEs lblk len pblk status) = _
  rw [isDelayed_eq, mkEs, storePblockStatus_bit _ _ _ (by decide), if_neg (by decide)]
  simp

theorem isMapped_mkEs_hole (lblk len : Nat) (pblk : Fsblk) :
    isMapped (mkEs lblk len pblk statusHole) = false := by
  have hhole : ext4EsIsHole (mkEs lblk len pblk statusHole) = true := by
    rw [isHole_eq, mkEs, storePblockStatus_bit _ _ _ (by decide), if_neg (by decide)]
    rfl
  rw [isMapped, freeKind, hhole, Bool.true_or, Bool.not_true, Bool.and_false]

/-- A written, unwritten or hole status. -/
def PlainStatus (status : BitVec 32) : Prop := status.getLsbD 2 = false

theorem plain_statusOf (unwritten : Bool) : PlainStatus (statusOf unwritten) := by
  cases unwritten <;> exact rfl

theorem plain_statusHole : PlainStatus statusHole := rfl

section Caching

variable {i : Nat} {sb : Ext4SbInfo} (env : LookupEnv)

variable {sb' : Ext4SbInfo}

theorem keepsDelayed_of_cacheSpec (h : CacheSpec (esMap sb) (esMap sb') i lo hi f failed)
    (hf : ∀ b, valDelayed (f b) = false) : KeepsDelayed sb sb' := by
  intro j b v hv
  rcases h with ⟨-, heq⟩ | ⟨hnone, heq | ⟨-, heq⟩⟩
  · rw [heq]
  · rw [heq]
    by_cases hb : j = i ∧ lo ≤ b ∧ b < hi
    · obtain ⟨rfl, hb⟩ := hb
      rw [PartialMap.override_in ⟨rfl, hb⟩, hnone b hb]
      refine ⟨fun heq => ?_, nofun⟩
      rw [← Option.some.inj heq, hf b] at hv
      nomatch hv
    · rw [PartialMap.override_out hb]
  · rw [heq]

/-- An insertion over blocks of which none is delayed: it fails, or puts values
there that are not delayed. -/
theorem keepsDelayed_of_insertSpec {err : Option ExtentsStatus.Errno} (h : EsInv sb)
    (hspec : InsertSpec (esMap sb) (esMap sb') i lo hi f failed err)
    (hclear : ∀ b, lo ≤ b → b < hi → ¬ DelayedAt (sb.root i) b)
    (hf : err = none → ∀ b, valDelayed (f b) = false) : KeepsDelayed sb sb' := by
  intro j b v hv
  by_cases hb : j = i ∧ lo ≤ b ∧ b < hi
  · obtain ⟨rfl, hb⟩ := hb
    have hno : esMap sb j b ≠ some v := fun heq =>
      hclear b hb.1 hb.2 ((delayedAt_iff h).mpr ⟨v, hv, heq⟩)
    refine ⟨fun heq => ?_, fun heq => absurd heq hno⟩
    cases err with
    | none =>
      rcases hspec.2 with hnew | ⟨-, hnew⟩
      · rw [← Option.some.inj ((hnew b hb).symm.trans heq), hf rfl b] at hv
        cases hv
      · exact nomatch (hnew b hb).1.symm.trans heq
    | some e =>
      rcases hspec.2.2.2 b hb with hold | hnone
      · exact hold.symm.trans heq
      · exact nomatch hnone.symm.trans heq
  · -- outside of the range delayed values stay
    have hout : PartialMap.Kept valDelayed failed (outside i lo hi) (esMap sb) (esMap sb') := by
      cases err with
      | none => exact hspec.1
      | some e => exact hspec.2.2.1
    rcases hout j b hb with heq | ⟨-, hnone, hpin⟩
    · rw [heq]
    · refine iff_of_false (fun h => ?_) fun h => ?_
      · cases hnone.symm.trans h
      · exact Bool.noConfusion (hv.symm.trans (hpin v h))

theorem toNat_ofNat_lblk {n : Nat} (h : n ≤ extMaxBlocks) : (BitVec.ofNat 32 n).toNat = n := by
  rw [BitVec.toNat_ofNat]
  exact Nat.mod_eq_of_lt (Nat.lt_of_le_of_lt h (by decide))

theorem cacheRange_spec (h : EsInv sb) {lblk len : Nat} {pblk : Fsblk} {status : BitVec 32}
    (hrange : lblk + len ≤ extMaxBlocks) (hst : PlainStatus status)
    (hphys : isMapped (mkEs lblk len pblk status) = true → pblk.toNat % 2 ^ 59 + len ≤ 2 ^ 59) :
    ∃ sb', cacheRange env i sb lblk len pblk status = some sb' ∧ EsInv sb'
      ∧ KeepsDelayed sb sb' := by
  have h1 : (BitVec.ofNat 32 lblk).toNat = lblk := toNat_ofNat_lblk (by omega)
  have h2 : (BitVec.ofNat 32 len).toNat = len := toNat_ofNat_lblk (by omega)
  have hargs : ArgsOk (BitVec.ofNat 32 lblk) (BitVec.ofNat 32 len) pblk status := by
    constructor
    · rwa [h1, h2]
    · rwa [h1, h2]
  obtain ⟨sb', hcall, hinv, hspec⟩ := ext4EsCacheExtent_spec env.rb env.allocs i h hargs
  refine ⟨sb', hcall, hinv, keepsDelayed_of_cacheSpec hspec fun b => ?_⟩
  rw [valDelayed_mkEs]
  exact hst

theorem cacheExtents_spec (es : List Extent) (hok : ∀ ex ∈ es, ex.Ok)
    (hphys : ∀ ex ∈ es, ex.eeStart < 2 ^ 48) :
    ∀ (prev : Nat) {sb : Ext4SbInfo}, EsInv sb → prev ≤ extMaxBlocks →
      ∃ sb', cacheExtents env i prev es sb = some sb' ∧ EsInv sb' ∧ KeepsDelayed sb sb' := by
  induction es with
  | nil => exact fun _ sb h _ => ⟨sb, rfl, h, .refl sb⟩
  | cons ex es ih =>
    intro prev sb h hprev
    have hex := hok ex List.mem_cons_self
    have hend := hex.end_le
    have hstart := hphys ex List.mem_cons_self
    obtain ⟨sb1, hcall1, hinv1, hsame1⟩ : ∃ sb', (if prev ≠ 0 ∧ prev ≠ ex.eeBlock then
        cacheRange env i sb prev (ex.eeBlock - prev) (BitVec.allOnes 64) statusHole
        else some sb) = some sb' ∧ EsInv sb' ∧ KeepsDelayed sb sb' := by
      split
      · refine cacheRange_spec env h ?_ plain_statusHole fun hm => ?_
        · rw [Extent.eeEnd] at hend
          omega
        · rw [isMapped_mkEs_hole] at hm
          cases hm
      · exact ⟨sb, rfl, h, .refl sb⟩
    have hlen := actualLen_le hex
    have hpblk : (BitVec.ofNat 64 ex.eeStart).toNat % 2 ^ 59 + ext4ExtGetActualLen ex ≤ 2 ^ 59 := by
      rw [BitVec.toNat_ofNat]
      rw [extInitMaxLen] at hlen
      omega
    obtain ⟨sb2, hcall2, hinv2, hsame2⟩ : ∃ sb', cacheRange env i sb1 ex.eeBlock
        (ext4ExtGetActualLen ex) (BitVec.ofNat 64 ex.eeStart) (statusOf (ext4ExtIsUnwritten ex))
        = some sb' ∧ EsInv sb' ∧ KeepsDelayed sb1 sb' :=
      cacheRange_spec env hinv1 hend (plain_statusOf _) fun _ => hpblk
    obtain ⟨sb3, hcall3, hinv3, hsame3⟩ := ih (fun x hx => hok x (List.mem_cons_of_mem _ hx))
      (fun x hx => hphys x (List.mem_cons_of_mem _ hx)) ex.eeEnd hinv2 hend
    refine ⟨sb3, ?_, hinv3, (hsame1.trans hsame2).trans hsame3⟩
    rw [cacheExtents, hcall1, Option.bind_some, hcall2, Option.bind_some, hcall3]

theorem findExtentCached_spec {blocksize : Nat} {t : ExtTree} (ht : t.Ok blocksize)
    (hphys : ∀ ex ∈ t.extents, ex.eeStart < 2 ^ 48) (h : EsInv sb) (lblk : Nat) :
    ∃ sb', findExtentCached env i t lblk sb = some (findExtent env.readErr t lblk, sb')
      ∧ EsInv sb' ∧ KeepsDelayed sb sb' := by
  rw [findExtentCached]
  cases hf : findExtent env.readErr t lblk with
  | error e => exact ⟨sb, rfl, h, .refl sb⟩
  | ok p =>
    dsimp only
    split
    · exact ⟨sb, rfl, h, .refl sb⟩
    · have hmem : ∀ ex ∈ (leaf p.depth p.path).toList, ex ∈ t.extents := by
        intro ex hex
        rw [← (findExtent_found ht hf).tree_eq]
        show ex ∈ flat p.depth (close p.depth p.path)
        rw [flat_close]
        simp [hex]
      obtain ⟨sb', hcall, hinv, hsame⟩ :=
        cacheExtents_spec env (i := i) (leaf p.depth p.path).toList
        (fun ex hex => ht.extents_ok ex (hmem ex hex)) (fun ex hex => hphys ex (hmem ex hex)) 0 h
        (Nat.zero_le _)
      exact ⟨sb', by rw [hcall]; rfl, hinv, hsame⟩

theorem insertHole_spec (h : EsInv sb) (start len : BitVec 32)
    (hrange : start.toNat + len.toNat ≤ extMaxBlocks)
    (hclear : ∀ b, start.toNat ≤ b → b < start.toNat + len.toNat → ¬ DelayedAt (sb.root i) b) :
    ∃ err sb', ext4EsInsertExtent env.rb env.allocs sb i start len (BitVec.allOnes 64) statusHole
        = some (err, sb') ∧ EsInv sb' ∧ KeepsDelayed sb sb' := by
  have hargs : ArgsOk start len (BitVec.allOnes 64) statusHole := by
    refine ⟨hrange, fun hm => ?_⟩
    rw [isMapped_mkEs_hole] at hm
    nomatch hm
  obtain ⟨err, sb', hcall, hinv, hspec⟩ := ext4EsInsertExtent_spec env.rb env.allocs i h hargs
  refine ⟨err, sb', hcall, hinv, keepsDelayed_of_insertSpec h hspec hclear fun _ b => ?_⟩
  rw [valDelayed_mkEs]
  exact plain_statusHole

theorem putGapInCache_spec (h : EsInv sb) {start len : BitVec 32} (hpos : 0 < len.toNat)
    (hrange : start.toNat + len.toNat ≤ extMaxBlocks) :
    ∃ sb', ext4ExtPutGapInCache env i sb start len = some sb' ∧ EsInv sb'
      ∧ KeepsDelayed sb sb' := by
  have hmax : extMaxBlocks < 2 ^ 32 := by decide
  have hlast : (start + len - 1#32).toNat = start.toNat + len.toNat - 1 := by bv_omega
  have hle : start ≤ start + len - 1#32 := by
    rw [BitVec.le_def, hlast]
    omega
  obtain ⟨res, sb1, hfind, hinv1, hroot, hres⟩ := findDelayed_blocks env.rb i h hle
  have hsame1 : KeepsDelayed sb sb1 := .of_root hroot
  -- the part of the gap that is inserted
  have hins : ∀ {k : BitVec 32}, k.toNat ≤ len.toNat →
      (∀ b, start.toNat ≤ b → b < start.toNat + k.toNat → ¬ DelayedAt (sb.root i) b) →
      ∃ sb', (ext4EsInsertExtent env.rb env.allocs sb1 i start k (BitVec.allOnes 64)
          statusHole).map Prod.snd = some sb' ∧ EsInv sb' ∧ KeepsDelayed sb sb' := by
    intro k hk hclear
    obtain ⟨err, sb', hcall, hinv, hsame⟩ :=
      insertHole_spec env hinv1 start k (by omega) (by rw [hroot i]; exact hclear)
    exact ⟨sb', by rw [hcall]; rfl, hinv, hsame1.trans hsame⟩
  rw [ext4ExtPutGapInCache, hfind, Option.bind_some]
  cases res with
  | none => exact hins (Nat.le_refl _) fun b hlo hhi => hres b hlo (by rw [hlast]; omega)
  | some e =>
    obtain ⟨he, -, -, hbefore⟩ := hres
    dsimp only
    split
    · exact ⟨sb1, rfl, hinv1, hsame1⟩
    · have hk : (BitVec.ofNat 32 (min (e.esLblk - start.toNat) len.toNat)).toNat
          = min (e.esLblk - start.toNat) len.toNat := toNat_ofNat_lblk (by omega)
      refine hins (by rw [hk]; omega) fun b hlo hhi => hbefore b hlo ?_
      rw [hk] at hhi
      omega

end Caching

end Ext4.MapBlocks
