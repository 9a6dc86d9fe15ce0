import Ext4.Lib.ClusterMap
import Ext4.MapBlocks.Model

/-!
# Mapping blocks — blocks in a hole

A path that ends outside of every extent ends next to a hole. A lookup reports
the rest of that hole; an allocation places an extent in it. What decides where
the new blocks come from is which clusters the neighbours reach into: if one
of them is in the cluster of the block, that cluster is shared, and otherwise
none of the clusters of the new extent has a mapped block.
-/

namespace Ext4.MapBlocks

open IndexTree Ext4.Extents
open Ext4.Delalloc (Clusters)
open Ext4.ExtentsStatus hiding Errno

/-- The path ends at an extent that does not have the block, or at none. -/
def Misses (p : ExtPath) (lblk : Nat) : Prop :=
  ∀ ex, p.ext = some ex → ¬ (ex.eeBlock ≤ lblk ∧ lblk < ex.eeEnd)

/-- What the path to a block without extent says about the blocks around. -/
inductive Gap (t : ExtTree) (p : ExtPath) (lblk : Nat) : Prop
  | empty (ext : p.ext = none) (depth : p.depth = 0) (free : ∀ x, t.mapping x = none)
  | front (ex : Extent) (ext : p.ext = some ex) (lt : lblk < ex.eeBlock)
      (free : ∀ x < ex.eeBlock, t.mapping x = none)
  | behind (ex : Extent) (ext : p.ext = some ex) (le : ex.eeEnd ≤ lblk)
      (lt : lblk < ext4ExtNextAllocatedBlock p)
      (free : ∀ x, ex.eeEnd ≤ x → x < ext4ExtNextAllocatedBlock p → t.mapping x = none)

variable {sb : Ext4SbInfo} {ex : Extent} {i x : Nat} {n : Neighbour}

section Gap

variable {blocksize lblk : Nat} {t : ExtTree} {p : ExtPath}

theorem gap_of_misses (ht : t.Ok blocksize) (h : Found t lblk p) (hmiss : Misses p lblk)
    (hlt : lblk < extMaxBlocks) : Gap t p lblk := by
  cases hext : p.ext with
  | none =>
    have hafter : (leaf p.depth p.path).after = [] := List.head?_eq_none_iff.mp hext
    obtain ⟨hd, hnil⟩ := h.empty ht hafter
    refine .empty hext hd fun x => ?_
    rw [ExtTree.mapping, hnil]
    rfl
  | some ex =>
    obtain ⟨rest, hafter⟩ := List.head?_eq_some_iff.mp hext
    have hout := hmiss ex hext
    by_cases hfront : lblk < ex.eeBlock
    · exact .front ex hext hfront fun x hx => h.gap_before ht hafter hfront hx
    · exact .behind ex hext (by omega) (h.lt_next ht hlt) fun x hx hnext =>
        h.gap_next ht hafter hx hnext

theorem Gap.unmapped (hgap : Gap t p lblk) : t.mapping lblk = none := by
  cases hgap with
  | empty ext depth free => exact free lblk
  | front ex ext lt free => exact free lblk lt
  | behind ex ext le lt free => exact free lblk le lt

theorem start_mapped (ht : t.Ok blocksize) (hex : ex ∈ t.extents) :
    t.mapping ex.eeBlock ≠ none := by
  rw [mapping_eeBlock ht hex]
  exact nofun

theorem next_le_max (ht : t.Ok blocksize) (h : Found t lblk p) :
    ext4ExtNextAllocatedBlock p ≤ extMaxBlocks := by
  rcases h.next_start ht with hmax | ⟨ex, hex, hstart⟩
  · exact Nat.le_of_eq hmax
  · rw [hstart]
    exact Nat.le_of_lt (mapped_lt_max ht (start_mapped ht hex))

/-- `ext4_ext_determine_hole` finds unmapped blocks around the block. -/
theorem determineHole_spec (ht : t.Ok blocksize) (h : Found t lblk p) (hgap : Gap t p lblk)
    (hlt : lblk < extMaxBlocks) :
    ∃ start len, ext4ExtDetermineHole p lblk = some (start, len) ∧ start ≤ lblk
      ∧ lblk < start + len ∧ start + len ≤ extMaxBlocks
      ∧ ∀ x, start ≤ x → x < start + len → t.mapping x = none := by
  rw [ext4ExtDetermineHole]
  cases hgap with
  | empty ext depth free =>
    rw [ext]
    exact ⟨0, extMaxBlocks, rfl, Nat.zero_le _, by omega, by omega, fun x _ _ => free x⟩
  | front ex ext lt free =>
    have hmax := mapped_lt_max ht (start_mapped ht (h.ext_mem ext))
    rw [ext]
    exact ⟨lblk, ex.eeBlock - lblk, if_pos lt, Nat.le_refl _, by omega, by omega,
      fun x _ hx => free x (by omega)⟩
  | behind ex ext le lt free =>
    have hle : ex.eeBlock ≤ ex.eeEnd := Nat.le_add_right _ _
    have hmax := next_le_max ht h
    rw [ext]
    dsimp only
    rw [if_neg (by omega), if_pos le, if_neg (by omega)]
    exact ⟨_, _, rfl, le, by omega, by omega, fun x hx hlt => free x hx (by omega)⟩

end Gap

theorem mapHole_spec {blocksize : Nat} (env : MapEnv blocksize) {t : ExtTree} {p : ExtPath}
    {map : Ext4MapBlocks} (ht : t.Ok blocksize) (h : Found t map.mLblk p) (hgap : Gap t p map.mLblk)
    (hes : EsInv sb) (hlen : 0 < map.mLen) (hlt : map.mLblk < extMaxBlocks) :
    ∃ r sb', mapHole env i map p sb = some (r, sb') ∧ EsInv sb' ∧ KeepsDelayed sb sb'
      ∧ r.res = .ok 0 ∧ r.tree = t ∧ r.map.mLblk = map.mLblk ∧ 0 < r.map.mLen
      ∧ r.map.mLen ≤ map.mLen ∧ ∀ k < r.map.mLen, t.mapping (map.mLblk + k) = none := by
  obtain ⟨start, len, hhole, hle, hin, hend, hfree⟩ := determineHole_spec ht h hgap hlt
  have h1 : (BitVec.ofNat 32 start).toNat = start := toNat_ofNat_lblk (by omega)
  have h2 : (BitVec.ofNat 32 len).toNat = len := toNat_ofNat_lblk (by omega)
  obtain ⟨sb', hput, hes', hsame⟩ := putGapInCache_spec env.lookup (i := i) hes
    (by rw [h2]; omega : 0 < (BitVec.ofNat 32 len).toNat)
    (by rw [h1, h2]; exact hend : (BitVec.ofNat 32 start).toNat + _ ≤ _)
  rw [mapHole, hhole, Option.bind_some]
  dsimp only
  rw [hput]
  refine ⟨_, sb', rfl, hes', hsame, rfl, h.tree_eq, rfl, ?_, Nat.min_le_left _ _, fun k hk => ?_⟩
  · show 0 < min map.mLen (len - (map.mLblk - start))
    omega
  · replace hk : k < min map.mLen (len - (map.mLblk - start)) := hk
    exact hfree _ (by omega) (by omega)

/-! ## The extent that is inserted -/

section NewExtent

variable {lblk len pblk : Nat} {u : Bool}

@[simp] theorem newExtent_eeBlock : (newExtent lblk len pblk u).eeBlock = lblk := by
  rw [newExtent, withLen_eeBlock]

@[simp] theorem newExtent_eeStart : (newExtent lblk len pblk u).eeStart = pblk := by
  rw [newExtent, withLen_eeStart]

/-- The mark of an unwritten extent replaces the upper bit of its length. -/
theorem newExtent_eeLen_unwritten :
    (newExtent lblk len pblk true).eeLen = extInitMaxLen + len % extInitMaxLen := by
  show len % 2 ^ 16 ||| 2 ^ 15 = 2 ^ 15 + len % 2 ^ 15
  have hlow : len % 2 ^ 15 < 2 ^ 15 := Nat.mod_lt _ (by decide)
  have hsum : len % 2 ^ 16 = 2 ^ 15 * (len / 2 ^ 15 % 2) + len % 2 ^ 15 := by omega
  have hmark := Nat.two_pow_add_eq_or_of_lt hlow 1
  rw [Nat.mul_one] at hmark
  rw [hsum, Nat.two_pow_add_eq_or_of_lt hlow, Nat.or_assoc, Nat.or_comm (len % 2 ^ 15), hmark,
    ← Nat.or_assoc]
  rcases Nat.mod_two_eq_zero_or_one (len / 2 ^ 15) with hbit | hbit
  · rw [hbit, Nat.mul_zero, Nat.zero_or]
  · rw [hbit, Nat.mul_one, Nat.or_self]

section

variable (hbug : ¬ (u = true ∧ len % extInitMaxLen = 0))

include hbug

theorem newExtent_actualLen_le : ext4ExtGetActualLen (newExtent lblk len pblk u) ≤ len := by
  rw [ext4ExtGetActualLen]
  cases u with
  | false =>
    have hmod : (newExtent lblk len pblk false).eeLen ≤ len := Nat.mod_le len (2 ^ 16)
    split <;> omega
  | true =>
    have hmod := Nat.mod_le len extInitMaxLen
    have hne : len % extInitMaxLen ≠ 0 := fun h => hbug ⟨rfl, h⟩
    rw [newExtent_eeLen_unwritten, if_neg (by omega)]
    omega

theorem newExtent_ok (hpos : ext4ExtGetActualLen (newExtent lblk len pblk u) ≠ 0)
    (hend : lblk + len ≤ extMaxBlocks) :
    (newExtent lblk len pblk u).Ok where
  len_pos := Nat.pos_of_ne_zero hpos
  len_lt := by
    cases u with
    | false => exact Nat.mod_lt len (by decide)
    | true =>
      have hlow := Nat.mod_lt len (by decide : extInitMaxLen > 0)
      rw [newExtent_eeLen_unwritten]
      rw [extInitMaxLen] at *
      omega
  end_le := by
    have hle : ext4ExtGetActualLen (newExtent lblk len pblk u) ≤ len := newExtent_actualLen_le hbug
    rw [Extent.eeEnd, newExtent_eeBlock]
    omega

end

end NewExtent

/-! ## Where new blocks come from -/

/-- The origin of `len` physical blocks from `pblk` on for the logical ones
from `lblk` on: the cluster of a mapped block, or clusters of the allocator
for logical clusters in which no block is mapped. -/
inductive Origin {blocksize : Nat} (env : MapEnv blocksize) (c : Clusters) (t : ExtTree)
    (lblk pblk len : Nat) : Prop
  | shared (b q : Nat) (u : Bool) (mapped : t.mapping b = some (q, u))
      (same : b / c.ratio = lblk / c.ratio) (fits : lblk % c.ratio + len ≤ c.ratio)
      (pblk_eq : pblk = q - q % c.ratio + lblk % c.ratio)
  | fresh (wanted base n : Nat) (found : env.newBlocks wanted = .ok (base, n))
      (pblk_eq : pblk = base + lblk % c.ratio) (fits : ∀ d < len, lblk % c.ratio + d < n * c.ratio)
      (alone : ∀ x, t.mapping x ≠ none → ∀ d < len, x / c.ratio ≠ (lblk + d) / c.ratio)

/-- `len` blocks for a request, where nothing is mapped. -/
structure Places {blocksize : Nat} (env : MapEnv blocksize) (c : Clusters) (t : ExtTree)
    (lblk pblk len : Nat) : Prop where
  free : ∀ x, lblk ≤ x → x < lblk + len → t.mapping x = none
  origin : Origin env c t lblk pblk len

section Place

variable {blocksize : Nat} {env : MapEnv blocksize} {c : Clusters} {flags : GetBlocks} {t : ExtTree}
  {p : ExtPath} {map : Ext4MapBlocks}

variable {next : Nat} {map' : Ext4MapBlocks}

/-- `get_implied_cluster_alloc` with an extent of the tree. -/
theorem implied_spec (env : MapEnv blocksize) (ht : t.Ok blocksize) (hex : ex ∈ t.extents)
    (hi : getImpliedClusterAlloc c map ex next = some map') :
    map'.mLblk = map.mLblk ∧ map'.mFlags = map.mFlags ∧ map'.mLen ≤ map.mLen
      ∧ map'.mLen ≤ c.ratio
      ∧ (map.mLblk < ex.eeBlock → map.mLblk + map'.mLen ≤ ex.eeBlock)
      ∧ (ex.eeBlock < map.mLblk → map'.mLen ≤ next - map.mLblk)
      ∧ Origin env c t map.mLblk map'.mPblk map'.mLen := by
  have hlt := eeBlock_lt_eeEnd (ht.extents_ok ex hex)
  have hoff := Nat.mod_lt map.mLblk c.ratio_pos
  rw [getImpliedClusterAlloc] at hi
  dsimp only at hi
  split at hi
  · rename_i hsame
    generalize hlen : (if ex.eeBlock < map.mLblk then _ else _) = len at hi
    have hbound : len ≤ map.mLen ∧ len ≤ c.ratio - map.mLblk % c.ratio
        ∧ (map.mLblk < ex.eeBlock → len ≤ ex.eeBlock - map.mLblk)
        ∧ (ex.eeBlock < map.mLblk → len ≤ next - map.mLblk) := by
      rw [← hlen]
      split <;> split <;> omega
    obtain ⟨hle, hfit, hfront, hbehind⟩ := hbound
    obtain rfl := Option.some.inj hi
    refine ⟨rfl, rfl, hle, Nat.le_trans hfit (Nat.sub_le _ _), fun h => ?_, hbehind, ?_⟩
    · have := hfront h
      show map.mLblk + len ≤ ex.eeBlock
      omega
    · have hin : map.mLblk % c.ratio + len ≤ c.ratio := by omega
      by_cases hlast : map.mLblk / c.ratio = (ex.eeEnd - 1) / c.ratio
      · have hq : ex.eeStart + ext4ExtGetActualLen ex - 1
            = ex.eeStart + (ex.eeEnd - 1 - ex.eeBlock) := by
          rw [Extent.eeEnd] at hlt ⊢
          omega
        rw [if_pos hlast, hq]
        exact .shared _ _ _ (mapping_of_mem ht hex ⟨by omega, by omega⟩) hlast.symm hin rfl
      · rw [if_neg hlast]
        refine .shared _ _ _ (mapping_of_mem ht hex ⟨Nat.le_refl _, hlt⟩)
          (hsame.resolve_left hlast).symm hin ?_
        rw [Nat.sub_self, Nat.add_zero]
  · cases hi

/-- Where `get_implied_cluster_alloc` finds nothing. -/
theorem not_implied (hi : getImpliedClusterAlloc c map ex next = none) :
    map.mLblk / c.ratio ≠ (ex.eeEnd - 1) / c.ratio
      ∧ map.mLblk / c.ratio ≠ ex.eeBlock / c.ratio := by
  rw [getImpliedClusterAlloc] at hi
  split at hi
  · cases hi
  · rename_i hne
    exact not_or.mp hne

theorem implied_path (env : MapEnv blocksize) (ht : t.Ok blocksize) (h : Found t map.mLblk p)
    (hgap : Gap t p map.mLblk)
    (hi : (p.ext.bind fun ex => getImpliedClusterAlloc c map ex (ext4ExtNextAllocatedBlock p)) =
      some map') :
    map'.mLblk = map.mLblk ∧ map'.mFlags = map.mFlags ∧ map'.mLen ≤ map.mLen
      ∧ map'.mLen ≤ c.ratio ∧ Places env c t map.mLblk map'.mPblk map'.mLen := by
  cases hgap with
  | empty ext depth free =>
    rw [ext] at hi
    nomatch hi
  | front ex ext lt free =>
    rw [ext, Option.bind_some] at hi
    obtain ⟨h1, h2, h3, h4, hfront, -, ho⟩ := implied_spec env ht (h.ext_mem ext) hi
    have := hfront lt
    exact ⟨h1, h2, h3, h4, fun x _ hx => free x (by omega), ho⟩
  | behind ex ext le lt free =>
    rw [ext, Option.bind_some] at hi
    have hpos := eeBlock_lt_eeEnd (ht.extents_ok ex (h.ext_mem ext))
    obtain ⟨h1, h2, h3, h4, -, hbehind, ho⟩ := implied_spec env ht (h.ext_mem ext) hi
    have := hbehind (by omega)
    exact ⟨h1, h2, h3, h4, fun x hlo hx => free x (by omega) (by omega), ho⟩

theorem implied_right (env : MapEnv blocksize) (ht : t.Ok blocksize) {ex : Option Extent}
    (hfree : t.mapping map.mLblk = none) (hright : RightOf t map.mLblk (n, ex))
    (hi : (ex.bind fun ex => getImpliedClusterAlloc c map ex next) = some map') :
    map'.mLblk = map.mLblk ∧ map'.mFlags = map.mFlags ∧ map'.mLen ≤ map.mLen
      ∧ map'.mLen ≤ c.ratio ∧ Places env c t map.mLblk map'.mPblk map'.mLen := by
  rcases hright with ⟨hnone, -⟩ | ⟨-, hfirst, ex', hex, hsome, hn⟩
  · obtain rfl : ex = none := (Prod.mk.inj hnone).2
    cases hi
  · obtain rfl : ex = some ex' := hsome
    obtain rfl : n = ⟨ex'.eeBlock, ex'.eeStart⟩ := hn
    have habove : map.mLblk < ex'.eeBlock := hfirst.above
    obtain ⟨h1, h2, h3, h4, hfront, -, ho⟩ := implied_spec env ht hex hi
    have := hfront habove
    refine ⟨h1, h2, h3, h4, fun x hlo hx => ?_, ho⟩
    rcases Nat.eq_or_lt_of_le hlo with rfl | hlt
    · exact hfree
    · exact hfirst.first x hlt (show x < ex'.eeBlock by omega)

/-- The extent of the path is in another cluster: so are all blocks below. -/
theorem below_alone (hgap : Gap t p map.mLblk)
    (hi : (if map.mLblk % c.ratio = 0 then none else p.ext.bind fun ex =>
      getImpliedClusterAlloc c map ex (ext4ExtNextAllocatedBlock p)) = none) (hx : x < map.mLblk)
    (hm : t.mapping x ≠ none) : x / c.ratio < map.mLblk / c.ratio := by
  have hdiv : x / c.ratio ≤ map.mLblk / c.ratio := Nat.div_le_div_right (Nat.le_of_lt hx)
  split at hi
  · refine ClusterMap.div_lt_of_lt_start ?_
    omega
  · cases hgap with
    | empty ext depth free => exact absurd (free x) hm
    | front ex ext lt free => exact absurd (free x (by omega)) hm
    | behind ex ext le lt free =>
      rw [ext, Option.bind_some] at hi
      have hend : x ≤ ex.eeEnd - 1 := by
        by_contra hgt
        exact hm (free x (by omega) (by omega))
      have hlast : (ex.eeEnd - 1) / c.ratio ≤ map.mLblk / c.ratio := Nat.div_le_div_right (by omega)
      have hmono : x / c.ratio ≤ (ex.eeEnd - 1) / c.ratio := Nat.div_le_div_right hend
      have := (not_implied hi).1
      omega

/-- The extent behind is in another cluster: so are all blocks above. -/
theorem above_alone {ex : Option Extent} (hright : RightOf t map.mLblk (n, ex))
    (hi : (if 1 < c.ratio then ex.bind fun ex => getImpliedClusterAlloc c map ex next else none) =
      none) (hx : map.mLblk < x) (hm : t.mapping x ≠ none) : map.mLblk / c.ratio < x / c.ratio := by
  have hpos := c.ratio_pos
  by_cases hone : 1 < c.ratio
  · rw [if_pos hone] at hi
    rcases hright with ⟨-, hnone⟩ | ⟨-, hfirst, ex', hex, hsome, hn⟩
    · exact absurd (hnone x hx) hm
    · obtain rfl : ex = some ex' := hsome
      obtain rfl : n = ⟨ex'.eeBlock, ex'.eeStart⟩ := hn
      have habove : map.mLblk < ex'.eeBlock := hfirst.above
      have hle : ex'.eeBlock ≤ x := by
        by_contra hlt
        exact hm (hfirst.first x hx (Nat.lt_of_not_le hlt))
      have h1 : map.mLblk / c.ratio ≤ ex'.eeBlock / c.ratio :=
        Nat.div_le_div_right (Nat.le_of_lt habove)
      have h2 : ex'.eeBlock / c.ratio ≤ x / c.ratio := Nat.div_le_div_right hle
      have := (not_implied hi).2
      omega
  · rw [show c.ratio = 1 by omega, Nat.div_one, Nat.div_one]
    exact hx

/-- `ext4_ext_check_overlap` cuts a request off before the cluster of the next
mapped block. -/
theorem checkOverlap_spec (ht : t.Ok blocksize) (h : Found t map.mLblk p)
    (hgap : Gap t p map.mLblk) {len : Nat} (hend : map.mLblk + len ≤ extMaxBlocks)
    (habove : ∀ x, map.mLblk < x → t.mapping x ≠ none → map.mLblk / c.ratio < x / c.ratio) :
    (ext4ExtCheckOverlap c map.mLblk len p).getD len ≤ len
      ∧ ∀ x, map.mLblk < x → t.mapping x ≠ none →
        ∀ d < (ext4ExtCheckOverlap c map.mLblk len p).getD len,
          (map.mLblk + d) / c.ratio < x / c.ratio := by
  have hwrap : ¬ 2 ^ 32 ≤ map.mLblk + len := by
    have hmax : extMaxBlocks < 2 ^ 32 := by decide
    omega
  -- a cut at the cluster of a block that is not behind any mapped one
  have hcut : ∀ s, map.mLblk < s - s % c.ratio →
      (∀ x, map.mLblk < x → t.mapping x ≠ none → s ≤ x) → ∀ l,
      l = (if s - s % c.ratio < map.mLblk + len then some (s - s % c.ratio - map.mLblk)
        else none).getD len →
      l ≤ len ∧ ∀ x, map.mLblk < x → t.mapping x ≠ none → ∀ d < l,
        (map.mLblk + d) / c.ratio < x / c.ratio := by
    intro s hs hfirst l hl
    have hle : l ≤ len ∧ map.mLblk + l ≤ s - s % c.ratio := by
      split at hl <;> rw [hl] <;> dsimp only [Option.getD] <;> omega
    refine ⟨hle.1, fun x hx hmx d hd => ?_⟩
    exact Nat.lt_of_lt_of_le (ClusterMap.div_lt_of_lt_start (by omega))
      (Nat.div_le_div_right (hfirst x hx hmx))
  rw [ext4ExtCheckOverlap]
  cases hgap with
  | empty ext depth free =>
    rw [ext]
    exact ⟨Nat.le_refl _, fun x _ hm => absurd (free x) hm⟩
  | front ex ext lt free =>
    have hm := start_mapped ht (h.ext_mem ext)
    have hb2 := ClusterMap.lt_start (habove ex.eeBlock lt hm)
    rw [ext]
    have hnot : ¬ ex.eeBlock - ex.eeBlock % c.ratio < map.mLblk := by omega
    simp only [if_neg hnot, if_neg hwrap, if_neg (not_and_of_not_left _ hnot)]
    refine hcut ex.eeBlock hb2 (fun x _ hmx => ?_) _ rfl
    by_contra hlt
    exact hmx (free x (Nat.lt_of_not_le hlt))
  | behind ex ext le lt free =>
    have hle := Nat.mod_le ex.eeBlock c.ratio
    have hpos := eeBlock_lt_eeEnd (ht.extents_ok ex (h.ext_mem ext))
    have hnext : ∀ x, map.mLblk < x → t.mapping x ≠ none → ext4ExtNextAllocatedBlock p ≤ x := by
      intro x hx hmx
      by_contra hlt
      exact hmx (free x (by omega) (by omega))
    rw [ext]
    dsimp only
    rcases h.next_start ht with hend' | ⟨y, hy, hstart⟩
    · rw [if_pos ⟨by omega, hend'⟩]
      refine ⟨Nat.le_refl _, fun x hx hmx => ?_⟩
      have h1 := hnext x hx hmx
      have h2 := mapped_lt_max ht hmx
      omega
    · have hm := start_mapped ht hy
      have hlt := mapped_lt_max ht hm
      have hlt' : map.mLblk < y.eeBlock := hstart ▸ lt
      have hb2 := ClusterMap.lt_start (habove y.eeBlock hlt' hm)
      have hlow : ex.eeBlock - ex.eeBlock % c.ratio < map.mLblk := by omega
      rw [hstart]
      simp only [if_pos hlow, if_neg hwrap,
        if_neg (not_and_of_not_right _ (Nat.ne_of_lt hlt) : ¬ (_ < _ ∧ y.eeBlock = extMaxBlocks))]
      exact hcut y.eeBlock hb2 (fun x hx hmx => hstart ▸ hnext x hx hmx) _ rfl

/-- What an allocation comes to: an error before anything is inserted, an
insertion that fails, or a new extent. -/
inductive NewCase (env : MapEnv blocksize) (c : Clusters) (flags : GetBlocks) (t : ExtTree)
    (map : Ext4MapBlocks) (r : Mapped) : Prop
  | failed (e : Errno) (err : r.res = .error e) (same : r.tree = t) (inserted : r.inserted = none)
  | inserted (pblk len : Nat) (places : Places env c t map.mLblk pblk len) (le : len ≤ map.mLen)
      (short : len ≤ c.ratio ∨ len ≤ maxLen flags.unwritExt)
      (nobug : ¬ (flags.unwritExt = true ∧ len % extInitMaxLen = 0))
      (inserted : r.inserted = some (newExtent map.mLblk len pblk flags.unwritExt))
      (tree_ok : r.tree.Ok blocksize)
      (done : (∃ e, r.res = .error e) ∧ r.tree.mapping = t.mapping
        ∨ (newExtent map.mLblk len pblk flags.unwritExt).Ok
          ∧ r.res = .ok (ext4ExtGetActualLen (newExtent map.mLblk len pblk flags.unwritExt))
          ∧ r.map.mPblk = pblk
          ∧ r.map.mFlags.unwritten = (map.mFlags.unwritten || flags.unwritExt)
          ∧ ∀ x, r.tree.mapping x
            = if map.mLblk ≤ x
                ∧ x < (newExtent map.mLblk len pblk flags.unwritExt).eeEnd
              then some (pblk + (x - map.mLblk),
                ext4ExtIsUnwritten (newExtent map.mLblk len pblk flags.unwritExt))
              else t.mapping x)

section

variable (hbs : 1024 ≤ blocksize) (hearly : env.insert.early = true) (ht : t.Ok blocksize)
  (h : Found t map.mLblk p) (hend : map.mLblk + map.mLen ≤ extMaxBlocks)

include hbs hearly ht h hend

theorem gotAllocated_spec {pblk len : Nat} (claimed : Option (Nat × Nat))
    (hlblk : map'.mLblk = map.mLblk) (hflags : map'.mFlags = map.mFlags) (hle : len ≤ map'.mLen)
    (hle' : map'.mLen ≤ map.mLen) (hpl : Places env c t map.mLblk pblk len)
    (hshort : len ≤ c.ratio ∨ len ≤ maxLen flags.unwritExt) :
    NewCase env c flags t map (gotAllocatedBlocks env flags map' p pblk len claimed) := by
  rw [gotAllocatedBlocks, hlblk, hflags]
  dsimp only
  by_cases hbug : flags.unwritExt = true ∧ len % extInitMaxLen = 0
  · rw [if_pos hbug]
    exact .failed .bug rfl h.tree_eq rfl
  rw [if_neg hbug]
  generalize (if flags.keepSize = true then none else env.eofblocks) = eof
  cases eof with
  | some e => exact .failed e rfl h.tree_eq rfl
  | none =>
    by_cases hzero : ext4ExtGetActualLen (newExtent map.mLblk len pblk flags.unwritExt) = 0
    · rw [ext4ExtInsertExtent, if_pos hzero]
      exact .inserted pblk len hpl (Nat.le_trans hle hle') hshort hbug rfl (h.ok ht)
        (.inl ⟨⟨_, rfl⟩, h.mapping_eq⟩)
    have hlen : ext4ExtGetActualLen (newExtent map.mLblk len pblk flags.unwritExt) ≤ len :=
      newExtent_actualLen_le hbug
    have hnew : (newExtent map.mLblk len pblk flags.unwritExt).Ok :=
      newExtent_ok hbug hzero (by omega)
    have hfound : Found t (newExtent map.mLblk len pblk flags.unwritExt).eeBlock p := by
      rw [newExtent_eeBlock]
      exact h
    have hfree : ∀ x, (newExtent map.mLblk len pblk flags.unwritExt).eeBlock ≤ x →
        x < (newExtent map.mLblk len pblk flags.unwritExt).eeEnd → t.mapping x = none := by
      intro x hlo hhi
      rw [Extent.eeEnd, newExtent_eeBlock] at hhi
      rw [newExtent_eeBlock] at hlo
      exact hpl.free x hlo (by omega)
    have hb := env.insert_blocksize
    rw [← hb] at hbs ht
    have hdone := hfound.insert flags.preIo hbs ht hnew hfree
    have hundone := fun e => hfound.insert_failed (e := e) flags.preIo hbs ht hnew hfree hearly
    rw [hb] at hdone hundone
    generalize ext4ExtInsertExtent env.insert flags.preIo
      (newExtent map.mLblk len pblk flags.unwritExt) p = r at hdone hundone ⊢
    cases herr : r.err with
    | some e =>
      obtain ⟨htree, hm⟩ := hundone e herr
      exact .inserted pblk len hpl (Nat.le_trans hle hle') hshort hbug rfl htree
        (.inl ⟨⟨e, rfl⟩, hm⟩)
    | none =>
      obtain ⟨htree, hmap⟩ := hdone herr
      refine .inserted pblk len hpl (Nat.le_trans hle hle') hshort hbug rfl htree
        (.inr ⟨hnew, ?_, ?_, rfl, fun x => ?_⟩)
      · exact congrArg Except.ok (Nat.min_eq_left (Nat.le_trans hlen hle))
      · exact newExtent_eeStart
      · have := hmap x
        rw [newExtent_eeBlock, newExtent_eeStart] at this
        exact this

theorem mapFromAllocator_spec (hgap : Gap t p map.mLblk)
    (hbelow : ∀ x, x < map.mLblk → t.mapping x ≠ none → x / c.ratio < map.mLblk / c.ratio)
    (habove : ∀ x, map.mLblk < x → t.mapping x ≠ none → map.mLblk / c.ratio < x / c.ratio) :
    NewCase env c flags t map (mapFromAllocator env c flags map p) := by
  have hmin := Nat.min_le_left map.mLen (maxLen flags.unwritExt)
  obtain ⟨hle, hcut⟩ := checkOverlap_spec ht h hgap (Nat.le_trans (Nat.add_le_add_left hmin _) hend)
    habove
  rw [mapFromAllocator]
  generalize (ext4ExtCheckOverlap c map.mLblk (min map.mLen (maxLen flags.unwritExt)) p).getD
    (min map.mLen (maxLen flags.unwritExt)) = allocated at hle hcut ⊢
  cases hnew : env.newBlocks ((map.mLblk % c.ratio + allocated + c.ratio - 1) / c.ratio) with
  | error e => exact .failed e rfl h.tree_eq rfl
  | ok found =>
    obtain ⟨base, n⟩ := found
    have hcount : min (n * c.ratio - map.mLblk % c.ratio) allocated ≤ allocated :=
      Nat.min_le_right _ _
    have hfits : ∀ d < min (n * c.ratio - map.mLblk % c.ratio) allocated,
        map.mLblk % c.ratio + d < n * c.ratio := by
      intro d hd
      omega
    dsimp only
    generalize min (n * c.ratio - map.mLblk % c.ratio) allocated = len at hcount hfits ⊢
    refine gotAllocated_spec hbs hearly ht h hend _ rfl rfl (Nat.le_trans hcount hle) hmin
      ⟨fun x hlo hhi => ?_, .fresh _ base n hnew rfl hfits fun x hm d hd => ?_⟩
      (.inr (Nat.le_trans (Nat.le_trans hcount hle) (Nat.min_le_right _ _)))
    · by_contra hm
      rcases Nat.eq_or_lt_of_le hlo with rfl | hlt
      · exact hm hgap.unmapped
      · have := hcut x hlt hm (x - map.mLblk) (by omega)
        rw [Nat.add_sub_cancel' hlo] at this
        exact Nat.lt_irrefl _ this
    · rcases Nat.lt_trichotomy x map.mLblk with hlt | rfl | hgt
      · have h1 := hbelow x hlt hm
        have h2 : map.mLblk / c.ratio ≤ (map.mLblk + d) / c.ratio :=
          Nat.div_le_div_right (Nat.le_add_right _ _)
        omega
      · exact absurd hgap.unmapped hm
      · exact Nat.ne_of_gt (hcut x hgt hm d (by omega))

/-- **An allocation** in a hole. -/
theorem mapNew_cases (hphys : ∀ ex ∈ t.extents, 0 < ex.eeStart) (hgap : Gap t p map.mLblk) :
    NewCase env c flags t map (mapNew env c flags map p) := by
  have hfree := hgap.unmapped
  rw [mapNew]
  generalize hleft : (if map.mLblk % c.ratio = 0 then none else p.ext.bind fun ex =>
    getImpliedClusterAlloc c map ex (ext4ExtNextAllocatedBlock p)) = fromPath
  cases fromPath with
  | some map' =>
    split at hleft
    · cases hleft
    · obtain ⟨h1, h2, h3, h4, hpl⟩ := implied_path env ht h hgap hleft
      exact gotAllocated_spec hbs hearly ht h hend none h1 h2 (Nat.le_refl _) h3 hpl (.inl h4)
  | none =>
    obtain ⟨n, hsl, -⟩ := searchLeft_spec ht h hphys hfree
    rw [hsl]
    rcases searchRight_spec ht h hphys hfree env.read with ⟨blk, e, -, hfail⟩
      | ⟨⟨m, ex2⟩, hsr, hright⟩
    · rw [hfail]
      exact .failed e rfl h.tree_eq rfl
    rw [hsr]
    dsimp only
    generalize hi : (if 1 < c.ratio then ex2.bind fun ex =>
      getImpliedClusterAlloc c map ex (ext4ExtNextAllocatedBlock p) else none) = fromRight
    cases fromRight with
    | some map' =>
      have hi' : (ex2.bind fun ex => getImpliedClusterAlloc c map ex (ext4ExtNextAllocatedBlock p))
          = some map' := by
        split at hi
        · exact hi
        · nomatch hi
      obtain ⟨h1, h2, h3, h4, hpl⟩ := implied_right env ht hfree hright hi'
      exact gotAllocated_spec hbs hearly ht h hend none h1 h2 (Nat.le_refl _) h3 hpl (.inl h4)
    | none =>
      exact mapFromAllocator_spec hbs hearly ht h hend hgap (fun x => below_alone hgap hleft)
        (fun x => above_alone hright hi)

end

end Place

/-! ## A call -/

/-- The ways a call goes after the lookup, which may have cached extents. -/
inductive CallCase {blocksize : Nat} (env : MapEnv blocksize) (c : Clusters) (flags : GetBlocks)
    (i : Nat) (t : ExtTree) (map : Ext4MapBlocks) (sb : Ext4SbInfo)
    (out : Option (Mapped × Ext4SbInfo)) : Prop
  | unread (e : Errno) (eq : out = some (⟨.error e, map, t, [], [], [], none, none⟩, sb))
  | found (p : ExtPath) (ex : Extent) (path : Found t map.mLblk p) (ext : p.ext = some ex)
      (mem : ex.eeBlock ≤ map.mLblk ∧ map.mLblk < ex.eeEnd)
      (eq : out = some (mapFound (env.on (env.status i sb)) flags map p ex,
        ((env.status i sb).record
          (mapFound (env.on (env.status i sb)) flags map p ex).recorded).sb))
  | new (p : ExtPath) (path : Found t map.mLblk p) (gap : Gap t p map.mLblk)
      (create : flags.create = true) (eq : out = some (mapNew env c flags map p, sb))
  | hole (p : ExtPath) (path : Found t map.mLblk p) (gap : Gap t p map.mLblk)
      (create : flags.create = false) (eq : out = mapHole env i map p sb)

theorem mapBlocks_cases {blocksize : Nat} (env : MapEnv blocksize) (c : Clusters)
    (flags : GetBlocks) {t : ExtTree} {map : Ext4MapBlocks} (ht : t.Ok blocksize)
    (hphys : ∀ ex ∈ t.extents, ex.eeStart < 2 ^ 48) (hes : EsInv sb)
    (hlt : map.mLblk < extMaxBlocks) :
    ∃ sb', EsInv sb' ∧ KeepsDelayed sb sb'
      ∧ CallCase env c flags i t map sb' (ext4ExtMapBlocks env c flags i t map sb) := by
  obtain ⟨sb', hfind, hes', hsame⟩ :=
    findExtentCached_spec env.lookup (i := i) ht hphys hes map.mLblk
  refine ⟨sb', hes', hsame, ?_⟩
  rw [ext4ExtMapBlocks, hfind, Option.bind_some]
  cases hp : findExtent env.lookup.readErr t map.mLblk with
  | error e => exact .unread e rfl
  | ok p =>
    have hfound := findExtent_found ht hp
    have hhole : Gap t p map.mLblk →
        CallCase env c flags i t map sb' (if flags.create then some (mapNew env c flags map p, sb')
          else mapHole env i map p sb') := by
      intro hgap
      by_cases hcreate : flags.create = true
      · exact .new p hfound hgap hcreate (if_pos hcreate)
      · exact .hole p hfound hgap (Bool.not_eq_true _ ▸ hcreate) (if_neg hcreate)
    dsimp only
    cases hext : p.ext with
    | none =>
      have hgap := gap_of_misses ht hfound (fun ex h => nomatch hext.symm.trans h) hlt
      have hdepth : ¬ p.depth ≠ 0 := by
        cases hgap with
        | empty ext depth free => exact not_not_intro depth
        | front ex ext => exact nomatch hext.symm.trans ext
        | behind ex ext => exact nomatch hext.symm.trans ext
      rw [if_neg hdepth]
      exact hhole hgap
    | some ex =>
      dsimp only
      by_cases hin : ex.eeBlock ≤ map.mLblk ∧ map.mLblk < ex.eeEnd
      · rw [if_pos hin]
        exact .found p ex hfound hext hin rfl
      · rw [if_neg hin]
        refine hhole (gap_of_misses ht hfound (fun y hy => ?_) hlt)
        obtain rfl := Option.some.inj (hext.symm.trans hy)
        exact hin

/-- One block in a cluster, and four. -/
def single : Clusters := ⟨0, by decide⟩
def fourBlocks : Clusters := ⟨2, by decide⟩

end Ext4.MapBlocks
