import Ext4.Delalloc.Reserve

/-!
# Delayed allocation — `mpage_release_unused_pages`

When writeback gives up, the pages that it holds locked are dropped together
with the status of their blocks. The range that is removed ends with the first
block of the last page. `block_invalidatepage` drops the buffers of the pages,
but it returns no reservation.
-/

namespace Ext4.Delalloc

open Ext4.Extents
open Ext4.MapBlocks (delayedAt_iff single)
open Ext4.ExtentsStatus hiding Errno

/-- `mpage_release_unused_pages` for the pages `firstPage .. nextPage - 1` of
inode `i`, with `2 ^ bits` blocks to a page. The error of the removal is
dropped, and `none` is its `BUG_ON`. -/
def mpageReleaseUnusedPages (rb : RbShape) (allocs : List Bool) (bits i firstPage nextPage : Nat)
    (invalidate : Bool) (st : DaState) : Option DaState :=
  if firstPage ≥ nextPage then some st
  else if invalidate then
    let start := BitVec.ofNat 32 (firstPage <<< bits)
    let last := BitVec.ofNat 32 ((nextPage - 1) <<< bits)
    (ext4EsRemoveExtent rb allocs st.sb i start (last - start + 1#32)).map fun res =>
      { st with sb := res.2 }
  else some st

/-- The clusters with delayed blocks, all of them in `lo .. hi - 1`. -/
def discarded (r lo hi : Nat) (D : Nat → Prop) : Set Nat :=
  {k | (∃ b, lo ≤ b ∧ b < hi ∧ b / r = k ∧ D b) ∧ ∀ b, b / r = k → D b → lo ≤ b ∧ b < hi}

/-- What dropping the blocks `lo .. hi - 1` should come to. -/
structure Released (c : Clusters) (i lo hi : Nat) (st st' : DaState) : Prop where
  gone : ∀ b, lo ≤ b → b < hi → ¬ DelayedAt (st'.sb.root i) b
  kept : ∀ j b, outside i lo hi j b → esMap st'.sb j b = esMap st.sb j b
  returned : st'.reserved i + (discarded c.ratio lo hi (DelayedAt (st.sb.root i))).ncard
    = st.reserved i

theorem discarded_finite (r lo hi : Nat) (D : Nat → Prop) : (discarded r lo hi D).Finite := by
  refine ((Finset.range hi).image (· / r)).finite_toSet.subset ?_
  rintro k ⟨⟨b, -, hhi, rfl, -⟩, -⟩
  exact Finset.mem_coe.mpr (Finset.mem_image_of_mem _ (Finset.mem_range.mpr hhi))

section Release

variable (rb : RbShape) {allocs : List Bool} (bits i firstPage nextPage : Nat) {st : DaState}

/-- The removal, which ends with the first block of the last page. -/
theorem mpageReleaseUnusedPages_removes (h : EsInv st.sb)
    (hlast : (nextPage - 1) * 2 ^ bits < extMaxBlocks) :
    ∃ st', mpageReleaseUnusedPages rb allocs bits i firstPage nextPage true st = some st'
      ∧ EsInv st'.sb ∧ st'.reserved = st.reserved ∧ (nextPage ≤ firstPage → st' = st)
      ∧ (firstPage < nextPage → ∃ err, RemoveSpec (esMap st.sb) (esMap st'.sb) i
          (firstPage * 2 ^ bits) ((nextPage - 1) * 2 ^ bits + 1) (false ∈ allocs) err) := by
  rw [mpageReleaseUnusedPages]
  by_cases hge : firstPage ≥ nextPage
  · exact ⟨st, if_pos hge, h, rfl, fun _ => rfl, fun hlt => absurd hge (Nat.not_le.mpr hlt)⟩
  · have hle : firstPage * 2 ^ bits ≤ (nextPage - 1) * 2 ^ bits := Nat.mul_le_mul_right _ (by omega)
    rw [if_neg hge, if_pos rfl, Nat.shiftLeft_eq, Nat.shiftLeft_eq]
    generalize firstPage * 2 ^ bits = lo at *
    generalize (nextPage - 1) * 2 ^ bits = last at *
    rw [extMaxBlocks] at hlast
    have hlen : (BitVec.ofNat 32 last - BitVec.ofNat 32 lo + 1#32).toNat = last + 1 - lo := by
      bv_omega
    have hb : ¬ BitVec.ofNat 32 lo + (BitVec.ofNat 32 last - BitVec.ofNat 32 lo + 1#32) - 1#32
        < BitVec.ofNat 32 lo := by bv_omega
    obtain ⟨err, sb', heq, hinv, hspec⟩ := ext4EsRemoveExtent_spec rb allocs i h (.inr hb)
    rw [hlen, BitVec.toNat_ofNat, Nat.mod_eq_of_lt (by omega),
      Nat.add_sub_cancel' (by omega)] at hspec
    exact ⟨{ st with sb := sb' }, congrArg (Option.map _) heq, hinv, rfl, fun hle => absurd hle hge,
      fun _ => ⟨err, hspec⟩⟩

/-- Only the status of the blocks up to the first one of the last page goes. -/
theorem mpageReleaseUnusedPages_spec (h : EsInv st.sb)
    (hlast : (nextPage - 1) * 2 ^ bits < extMaxBlocks) (hallocs : false ∉ allocs) :
    ∃ st', mpageReleaseUnusedPages rb allocs bits i firstPage nextPage true st = some st'
      ∧ EsInv st'.sb ∧ st'.reserved = st.reserved
      ∧ ∀ j b, esMap st'.sb j b = if j = i ∧ firstPage * 2 ^ bits ≤ b ∧ b < nextPage * 2 ^ bits
          ∧ b ≤ (nextPage - 1) * 2 ^ bits then none else esMap st.sb j b := by
  obtain ⟨st', heq, hinv, hres, hsame, hspec⟩ :=
    @mpageReleaseUnusedPages_removes rb allocs bits i firstPage nextPage st h hlast
  refine ⟨st', heq, hinv, hres, fun j b => ?_⟩
  by_cases hlt : firstPage < nextPage
  · have hhi : (nextPage - 1) * 2 ^ bits < nextPage * 2 ^ bits :=
      Nat.mul_lt_mul_of_pos_right (by omega) (Nat.two_pow_pos _)
    obtain ⟨err, hspec⟩ := hspec hlt
    cases err with
    | some e => exact absurd hspec.2.1 hallocs
    | none =>
      split
      · rename_i hin
        rw [hin.1]
        exact hspec.2 b (by omega)
      · rename_i hout
        refine (hspec.1 j b fun hin => hout ?_).resolve_right (hallocs ·.1)
        omega
  · have hnone : nextPage * 2 ^ bits ≤ firstPage * 2 ^ bits := Nat.mul_le_mul_right _ (by omega)
    rw [if_neg (by omega), hsame (by omega)]

/-- **Giving up writeback** does what it should exactly if the last page has no
delayed block but its first one, and no cluster loses its last delayed block.
If an allocation fails, values that are not delayed may be forgotten
elsewhere, or nothing is removed and every delayed block stays. -/
theorem mpageReleaseUnusedPages_released (c : Clusters) (h : EsInv st.sb)
    (hlast : (nextPage - 1) * 2 ^ bits < extMaxBlocks) :
    ∃ st', mpageReleaseUnusedPages rb allocs bits i firstPage nextPage true st = some st'
      ∧ (false ∉ allocs → (Released c i (firstPage * 2 ^ bits) (nextPage * 2 ^ bits) st st'
        ↔ (∀ b, firstPage * 2 ^ bits ≤ b → b < nextPage * 2 ^ bits → DelayedAt (st.sb.root i) b →
            b ≤ (nextPage - 1) * 2 ^ bits)
          ∧ discarded c.ratio (firstPage * 2 ^ bits) (nextPage * 2 ^ bits)
              (DelayedAt (st.sb.root i)) = ∅))
      ∧ (false ∈ allocs → st'.reserved = st.reserved ∧ (nextPage ≤ firstPage → st' = st)
        ∧ (firstPage < nextPage → ∃ err, RemoveSpec (esMap st.sb) (esMap st'.sb) i
          (firstPage * 2 ^ bits) ((nextPage - 1) * 2 ^ bits + 1) True err)) := by
  by_cases hallocs : false ∈ allocs
  · obtain ⟨st', heq, -, hres, hsame, hspec⟩ :=
      @mpageReleaseUnusedPages_removes rb allocs bits i firstPage nextPage st h hlast
    rw [eq_true hallocs] at hspec
    exact ⟨st', heq, fun hno => absurd hallocs hno, fun _ => ⟨hres, hsame, hspec⟩⟩
  obtain ⟨st', heq, hinv, hres, hmap⟩ :=
    mpageReleaseUnusedPages_spec rb bits i firstPage nextPage h hlast hallocs
  refine ⟨st', heq, fun _ => ⟨fun hrel => ⟨fun b hlo hhi hd => ?_, ?_⟩,
    fun ⟨hfirst, hnone⟩ => ⟨?_, ?_, ?_⟩⟩, fun hin => absurd hin hallocs⟩
  · -- a delayed block behind the range has kept its status
    by_contra hb
    refine hrel.gone b hlo hhi ((delayedAt_iff hinv).mpr ?_)
    rw [hmap, if_neg (hb ·.2.2.2)]
    exact (delayedAt_iff h).mp hd
  · have hzero := hrel.returned
    rw [hres, Nat.add_eq_left] at hzero
    exact (Set.ncard_eq_zero (discarded_finite ..)).mp hzero
  · intro b hlo hhi hd
    obtain ⟨v, hv, hget⟩ := (delayedAt_iff hinv).mp hd
    rw [hmap] at hget
    split at hget
    · cases hget
    · rename_i hin
      exact hin ⟨rfl, hlo, hhi, hfirst b hlo hhi ((delayedAt_iff h).mpr ⟨v, hv, hget⟩)⟩
  · intro j b hout
    rw [hmap, if_neg fun hin => hout ⟨hin.1, hin.2.1, hin.2.2.1⟩]
  · rw [hnone, Set.ncard_empty, hres, Nat.add_zero]

end Release

/-- Block 3 is delayed, in a page of four blocks. It stays delayed, and where
a page has one block its reservation stays. -/
theorem mpageReleaseUnusedPages_leaks :
    ∃ st₁, DaRun 1024 single .empty st₁ ∧ st₁.reserved 0 = 1
      ∧ (∃ st', mpageReleaseUnusedPages (.spine _) [] 2 0 0 1 true st₁ = some st'
        ∧ DelayedAt (st'.sb.root 0) 3 ∧ ¬ Released single 0 0 4 st₁ st')
      ∧ ∃ st', mpageReleaseUnusedPages (.spine _) [] 0 0 3 4 true st₁ = some st'
        ∧ (∀ b, ¬ DelayedAt (st'.sb.root 0) b) ∧ st'.reserved 0 = 1 := by
  have h3 : DelayedAt [mkEs 3 1 (~~~0#64) 4#32] 3 := ⟨_, .head _, rfl, by decide, by decide⟩
  refine ⟨_, .step (writeBlock [true]) .refl (writeBlock_ok _) (show _ = some (.ok 0, _) from rfl),
    rfl, ⟨_, rfl, h3, fun h => h.gone 3 (by decide) (by decide) h3⟩, _, rfl, ?_, rfl⟩
  rintro b ⟨e, he, -⟩
  nomatch he

/-- A write of block 2 behind that of block 3, in one cluster. -/
theorem mpageReleaseUnusedPages_released_shared :
    ∃ st₁ st', DaRun 1024 ⟨2, by decide⟩ .empty st₁ ∧ DelayedAt (st₁.sb.root 0) 2
      ∧ mpageReleaseUnusedPages (.spine _) [] 0 0 2 3 true st₁ = some st'
      ∧ Released ⟨2, by decide⟩ 0 2 3 st₁ st' := by
  have hrun : DaRun 1024 ⟨2, by decide⟩ .empty _ :=
    .step { writeBlock [true] with lblk := 2 }
      (.step (writeBlock [true]) .refl (writeBlock_ok _) (show _ = some (.ok 0, _) from rfl))
      ⟨by decide, by decide, trivial⟩ (show _ = some (.ok 0, _) from rfl)
  obtain ⟨st', heq, hiff, -⟩ := @mpageReleaseUnusedPages_released (.spine _) [] 0 0 2 3 _
    ⟨2, by decide⟩
    (hrun.esInv runInv_init.inv) (by decide)
  refine ⟨_, st', hrun, ⟨_, .head _, rfl, by decide, by decide⟩, heq,
    (hiff List.not_mem_nil).mpr ⟨fun b _ hb _ => by omega, Set.eq_empty_of_forall_notMem ?_⟩⟩
  -- block 3 is of the same cluster
  rintro k ⟨⟨b, hlo, hhi, rfl, -⟩, hall⟩
  obtain rfl : b = 2 := by omega
  exact absurd (hall 3 rfl ⟨_, .head _, rfl, by decide, by decide⟩).2 (by decide)

end Ext4.Delalloc
