import Ext4.Extents.Convert
import Ext4.Extents.SplitUndo

/-!
# Extent trees — what a conversion exposes

Reads of an unwritten block give zeroes, whatever the disk holds. So a block
may become written only if the caller writes it or if it was zeroed on disk.
The split behind a range treats all that is in front of it as valid data, and
so do its zeroes when it runs out of space: they miss the blocks of the extent
in front of the range, which become written as well.
-/

namespace Ext4.Extents

/-- Every block stays where it is, and a block of `ex` is written only if it is
one of `lblk .. stop - 1` or was zeroed by the call. -/
structure Covered (t : ExtTree) (ex : Extent) (lblk stop : Nat) (r : RangeDone) : Prop where
  places : ∀ x, (r.tree.mapping x).map Prod.fst = (t.mapping x).map Prod.fst
  written : ∀ x v, ex.eeBlock ≤ x ∧ x < ex.eeEnd → r.tree.mapping x = some (v, false) →
    (lblk ≤ x ∧ x < stop) ∨ ∃ z ∈ r.zeroed, z.eeBlock ≤ x ∧ x < z.eeEnd

section

variable {blocksize : Nat} {t : ExtTree} {ex : Extent} {lblk stop : Nat} {r : RangeDone}
  (ht : t.Ok blocksize) (hex : ex ∈ t.extents) (hun : ext4ExtIsUnwritten ex = true)

include ht hex hun

theorem covered_of_setState {lo hi : Nat} {u : Bool}
    (hm : r.tree.mapping = setState t.mapping lo hi u)
    (hz : ∀ x, lo ≤ x → x < hi →
      (lblk ≤ x ∧ x < stop) ∨ ∃ z ∈ r.zeroed, z.eeBlock ≤ x ∧ x < z.eeEnd) :
    Covered t ex lblk stop r := by
  refine ⟨fun x => ?_, fun x v hx hv => ?_⟩
  · rw [hm]
    by_cases hin : lo ≤ x ∧ x < hi
    · rw [setState_of_mem hin, Option.map_map]
      rfl
    · rw [setState_of_not_mem hin]
  · by_cases hin : lo ≤ x ∧ x < hi
    · exact hz x hin.1 hin.2
    · -- outside of the change the extent is unwritten
      rw [hm, setState_of_not_mem hin, mapping_of_mem ht hex hx, hun] at hv
      cases hv

omit hun in
/-- If the whole extent is written and nothing in front of the range was
zeroed, the first block of the extent is exposed. -/
theorem not_covered_of_exposed (hlt : ex.eeBlock < lblk) (hstop : lblk < stop)
    (hm : r.tree.mapping = setState t.mapping ex.eeBlock ex.eeEnd false)
    (hz : ∀ z ∈ r.zeroed, stop ≤ z.eeBlock) : ¬ Covered t ex lblk stop r := by
  intro hcov
  have hin : ex.eeBlock ≤ ex.eeBlock ∧ ex.eeBlock < ex.eeEnd :=
    ⟨Nat.le_refl _, eeBlock_lt_eeEnd (ht.extents_ok ex hex)⟩
  have hv : r.tree.mapping ex.eeBlock = some (ex.eeStart + (ex.eeBlock - ex.eeBlock), false) := by
    rw [hm, setState_of_mem hin, mapping_of_mem ht hex hin]
    rfl
  rcases hcov.written _ _ hin hv with hr | ⟨z, hmem, hr⟩
  · omega
  · have hle := hz z hmem
    omega

theorem Converts.covered_iff {spills : Prop}
    (h : Converts blocksize t.mapping ex false lblk stop spills r)
    (hlt : spills → ex.eeBlock < lblk ∧ lblk < stop) : Covered t ex lblk stop r ↔ ¬ spills := by
  refine ⟨fun hcov hs => ?_, fun hs => ?_⟩
  · obtain ⟨hm, hz⟩ := h.exposes hs
    exact not_covered_of_exposed ht hex (hlt hs).1 (hlt hs).2 hm hz hcov
  · obtain ⟨lo, hi, -, -, hm, -, hz⟩ := h.restates
    exact covered_of_setState ht hex hun hm fun x h1 h2 => (hz hs x h1 h2).imp_right And.right

theorem RangeSpec.covered_iff {env : RangeEnv blocksize} {flags : SplitFlags} {preIo : Bool}
    {p : ExtPath} {len : Nat} {spills : Prop}
    (h : RangeSpec env flags preIo p t.mapping ex lblk len r)
    (hx : ex.eeBlock ≤ lblk ∧ lblk < ex.clip lblk len ∧ ex.clip lblk len ≤ ex.eeEnd)
    (hs : spills ↔ env.Short flags p ex lblk len ∧ flags.dataValid2 = true ∧ ex.eeBlock < lblk) :
    Covered t ex lblk (ex.clip lblk len) r ↔ ¬ spills := by
  rcases h.outcome hx hs with ⟨hns, -, -, hm⟩ | ⟨hns, hm, -⟩ | ⟨-, hi, hm, hz⟩
  · refine iff_of_true (covered_of_setState (u := true) ht hex hun
      (hm.trans (setState_of_le hx.1).symm) ?_) hns
    exact fun x h1 h2 => absurd (Nat.lt_of_le_of_lt h1 h2) (Nat.not_lt.mpr hx.1)
  · exact iff_of_true (covered_of_setState ht hex hun hm fun x h1 h2 => .inl ⟨h1, h2⟩) hns
  · refine ⟨fun hcov hsp => ?_, fun hns => covered_of_setState ht hex hun hm (hz.covers hns)⟩
    obtain ⟨rfl, hzs⟩ := hz.exposes hsp
    exact not_covered_of_exposed ht hex (hs.mp hsp).2.2 hx.2.1 hm hzs hcov

end

/-- **No stale data**: a split or a conversion of an unwritten extent makes no
block written that is neither in the range nor zeroed, unless the split behind
the range finds no space and writes zeroes instead, with a part of the extent
in front of the range. -/
theorem conversion_covered_iff {blocksize : Nat} {t : ExtTree} {p : ExtPath} {ex : Extent}
    {lblk len : Nat} (hbs : 1024 ≤ blocksize) (ht : t.Ok blocksize)
    (hp : ext4FindExtent t lblk = .ok p) (hext : p.ext = some ex)
    (hun : ext4ExtIsUnwritten ex = true) (hx : ex.eeBlock ≤ lblk ∧ lblk < ex.eeEnd)
    (hlen : 0 < len) :
    (∀ (env : RangeEnv blocksize) flags preIo, env.Calm →
        (Covered t ex lblk (ex.clip lblk len) (ext4SplitExtent env flags preIo lblk len p)
          ↔ ¬ (flags.dataValid2 = true ∧ Spills env flags.mayZeroout p ex lblk len)))
      ∧ (∀ (env : InitEnv blocksize) preIo, env.range.Calm →
        (Covered t ex lblk (ex.clip lblk len) (ext4ExtConvertToInitialized env preIo lblk len p)
          ↔ ¬ (Spills env.range (mayZero env.eofBlock ex lblk len) p ex lblk len
            ∧ Large (env.limit ex lblk len) ex lblk len)))
      ∧ ∀ env : MarkEnv blocksize, env.range.Calm →
        (Covered t ex lblk (ex.clip lblk len) (ext4ConvertUnwrittenExtentsEndio env lblk len p)
          ↔ ¬ Spills env.range (mayZero env.eofBlock ex lblk len) p ex lblk len) := by
  have h := found_of_find ht hp
  have hmem := h.ext_mem hext
  have hclip : ex.eeBlock ≤ lblk ∧ lblk < ex.clip lblk len ∧ ex.clip lblk len ≤ ex.eeEnd := by
    rw [Extent.clip]
    omega
  refine ⟨fun env flags preIo hcalm => ?_, fun env preIo hcalm => ?_, fun env hcalm => ?_⟩
  · have hspec := splitExtent_spec env flags preIo hbs ht h hext hx hlen (.inl hcalm)
    refine hspec.covered_iff ht hmem hun hclip ?_
    rw [Spills, RangeEnv.Short, hun]
    obtain ⟨may, unwrit1, unwrit2, valid1, valid2⟩ := flags
    cases valid2 with
    | false => exact iff_of_false (fun hc => by cases hc.1) fun hc => by cases hc.2.1
    | true => exact ⟨fun hc => ⟨hc.2.1, rfl, hc.2.2⟩, fun hc => ⟨rfl, hc.1, hc.2.2⟩⟩
  · have hspec := convertToInitialized_spec ht h hext hun hx hlen env preIo hbs (.inl hcalm)
    exact hspec.1.covered_iff ht hmem hun fun hs => ⟨hs.1.2, hclip.2.1⟩
  · have hspec := markRange_spec (u := false) env .bug hbs ht h hext hx hlen hun (.inl hcalm)
    exact hspec.covered_iff ht hmem hun fun hs => ⟨hs.2, hclip.2.1⟩

/-- An unwritten extent in a root without a free slot. -/
def fullRoot : ExtTree :=
  ⟨0, [⟨0, 10 + 2 ^ 15, 100⟩, ⟨20, 1, 200⟩, ⟨30, 1, 300⟩, ⟨40, 1, 400⟩]⟩

theorem fullRoot_ok : fullRoot.Ok 1024 :=
  .of_root (by decide) (by decide) (by decide)

/-- The path to the unwritten extent. -/
def fullRootPath : ExtPath := ⟨0, ⟨[], fullRoot.extents⟩⟩

/-- There is no space for either split, and zeroes are written instead. -/
def zeroInstead : RangeEnv 1024 :=
  ⟨noSpace none noStatus, none, noSpace none noStatus, rfl, rfl⟩

def endioEnv : MarkEnv 1024 := ⟨10, zeroInstead, none, none, ⟨1024, false, true, [], none⟩, none⟩

/-- The range begins with the extent: the rest of it is zeroed. -/
theorem conversion_covered_front : Covered fullRoot ⟨0, 10 + 2 ^ 15, 100⟩ 0 4
    (ext4ConvertUnwrittenExtentsEndio endioEnv 0 4 fullRootPath) :=
  ((conversion_covered_iff (by decide) fullRoot_ok (p := fullRootPath) rfl rfl rfl (by decide)
    (by decide : 0 < 4)).2.2 endioEnv ⟨⟨rfl, rfl⟩, rfl, rfl⟩).mpr fun hs =>
      absurd hs.2 (Nat.lt_irrefl 0)

/-- Blocks 4 and 5 are converted, from the middle of the extent: block 0
becomes written as well, and nothing below block 6 was zeroed. -/
theorem conversion_exposes :
    ext4FindExtent fullRoot 4 = .ok fullRootPath ∧ fullRoot.mapping 0 = some (100, true)
      ∧ zeroInstead.Calm
      ∧ ∀ r ∈ [ext4SplitExtent zeroInstead ⟨true, false, false, false, true⟩ false 4 2 fullRootPath,
          ext4ExtConvertToInitialized ⟨10, 0, false, none, none, none, zeroInstead, noStatus⟩ false
            4 2 fullRootPath,
          ext4ConvertUnwrittenExtentsEndio endioEnv 4 2 fullRootPath],
        r.tree.mapping 0 = some (100, false) ∧ ∀ z ∈ r.zeroed, 6 ≤ z.eeBlock :=
  ⟨rfl, by decide, ⟨⟨rfl, rfl⟩, rfl, rfl⟩, by decide +kernel⟩

end Ext4.Extents
