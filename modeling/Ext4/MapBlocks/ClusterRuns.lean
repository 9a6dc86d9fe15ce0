import Ext4.Extents.SplitUndo
import Ext4.MapBlocks.Hole

/-!
# Mapping blocks — clusters in runs of allocating calls

The mapping of a file respects clusters (`ClusterMap.Respects`) if a block
keeps its offset in the cluster, and two blocks share a physical cluster
exactly where they are in one logical cluster. An allocating call keeps that:
a change of state moves no block, and a new extent is placed in the cluster of
a neighbour or in clusters of its own.
-/

namespace Ext4.MapBlocks

open IndexTree Ext4.Extents
open Ext4.Delalloc (Clusters)
open Ext4.ExtentsStatus hiding Errno

/-- The physical block of a logical one. -/
def pblk (t : ExtTree) (x : Nat) : Option Nat := (t.mapping x).map Prod.fst

variable {u : Bool} {t' : ExtTree} {allocated lblk newblock q stop x : Nat} {d r : RangeDone}

section Keeps

variable {blocksize : Nat} {t : ExtTree} {p : ExtPath} {ex : Extent} {map : Ext4MapBlocks}

/-- A valid tree in which every block is where it was. -/
def KeepsBlocks (blocksize : Nat) (t t' : ExtTree) : Prop := t'.Ok blocksize ∧ pblk t' = pblk t

theorem KeepsBlocks.of_setState {lo hi : Nat} (hok : t'.Ok blocksize)
    (h : t'.mapping = setState t.mapping lo hi u) : KeepsBlocks blocksize t t' := by
  refine ⟨hok, funext fun x => ?_⟩
  rw [pblk, h, setState_fst]
  rfl

theorem keeps_of_converts {spills : Prop}
    (h : Converts blocksize t.mapping ex u lblk stop spills r) :
    KeepsBlocks blocksize t r.tree := by
  obtain ⟨lo, hi, -, -, hm, -⟩ := h.restates
  exact .of_setState h.tree_ok hm

theorem keeps_of_range {env : RangeEnv blocksize} {flags : SplitFlags} {preIo : Bool}
    {len : Nat} (h : RangeSpec env flags preIo p t.mapping ex lblk len r) :
    KeepsBlocks blocksize t r.tree := by
  by_cases hshort : env.Short flags p ex lblk len
  · exact .of_setState h.tree_ok (h.short hshort).1
  · cases h.mapping hshort with
    | kept e err mapping => exact ⟨h.tree_ok, funext fun x => by rw [pblk, mapping]; rfl⟩
    | marked mapping piece => exact .of_setState h.tree_ok mapping
    | zeroedFront may mapping => exact .of_setState h.tree_ok mapping

variable {env : MapEnv blocksize} {flags : GetBlocks}

/-- What a call leaves behind that changes the state of blocks and inserts no
extent. -/
structure Restates (blocksize : Nat) (t : ExtTree) (r : Mapped) : Prop where
  keeps : KeepsBlocks blocksize t r.tree
  recorded : ∀ z ∈ r.recorded, Recordable t.mapping z
  inserted : r.inserted = none

/-- The same of the change of a range. -/
def RestatesRange (blocksize : Nat) (t : ExtTree) (d : RangeDone) : Prop :=
  KeepsBlocks blocksize t d.tree ∧ ∀ z ∈ d.recorded, Recordable t.mapping z

theorem Restates.of_mapOut {map : Ext4MapBlocks} (h : RestatesRange blocksize t d) :
    Restates blocksize t (mapOut env flags d map allocated newblock) := by
  rw [mapOut]
  split <;> exact ⟨h.1, h.2, rfl⟩

theorem Restates.of_converted {map : Ext4MapBlocks} {unwritten : Bool}
    (h : RestatesRange blocksize t d) :
    Restates blocksize t (converted env flags d map unwritten allocated newblock) := by
  rw [converted]
  split
  · exact ⟨h.1, h.2, rfl⟩
  · exact ⟨h.1, h.2, rfl⟩
  · exact .of_mapOut h

/-- What `convert_initialized_extent` does to the tree. -/
theorem convertInitialized_tree (env : MarkEnv blocksize) (eofblocks : Option Errno)
    (lblk allocated : Nat) (p : ExtPath) {mLen : Nat} (hlen : 0 < mLen) :
    ∃ len, 0 < len ∧ (convertInitializedExtent env eofblocks lblk mLen allocated p).tree
        = (markRange env true .efscorrupted lblk len p).tree
      ∧ (convertInitializedExtent env eofblocks lblk mLen allocated p).recorded
        = (markRange env true .efscorrupted lblk len p).recorded := by
  unfold convertInitializedExtent
  generalize hlen' : (if extUnwrittenMaxLen < mLen then extUnwrittenMaxLen / 2 else mLen) = len
  have hpos : 0 < len := by
    rw [← hlen', extUnwrittenMaxLen, extInitMaxLen]
    split <;> omega
  refine ⟨len, hpos, ?_⟩
  dsimp only
  cases (markRange env true .efscorrupted lblk len p).res with
  | error e => exact ⟨rfl, rfl⟩
  | ok k => cases eofblocks <;> exact ⟨rfl, rfl⟩

theorem mapFound_restates (hbs : 1024 ≤ blocksize) (ht : t.Ok blocksize) (h : Found t map.mLblk p)
    (hext : p.ext = some ex) (hx : ex.eeBlock ≤ map.mLblk ∧ map.mLblk < ex.eeEnd)
    (hlen : 0 < map.mLen) (hmark : env.mark.range.Calm) (hinit : env.init.range.Calm) :
    Restates blocksize t (mapFound env flags map p ex) := by
  have hsame : RestatesRange blocksize t ⟨.ok 0, p.tree, [], [], []⟩ := by
    rw [h.tree_eq]
    exact ⟨⟨ht, rfl⟩, fun z hz => absurd hz List.not_mem_nil⟩
  rw [mapFound]
  dsimp only
  split
  · rename_i hw
    split
    · obtain ⟨len, hpos, htree, hrec⟩ := convertInitialized_tree env.mark env.eofblocks map.mLblk
        (ext4ExtGetActualLen ex - (map.mLblk - ex.eeBlock)) p hlen
      have hspec := markRange_spec (u := true) env.mark .efscorrupted hbs ht h hext hx hpos hw
        (.inl hmark)
      have hkeeps := keeps_of_converts hspec
      have hrecorded := hspec.recorded
      rw [← htree] at hkeeps
      rw [← hrec] at hrecorded
      split <;> exact ⟨hkeeps, hrecorded, rfl⟩
    · exact ⟨hsame.1, hsame.2, rfl⟩
  · rename_i hu
    rw [Bool.not_eq_false] at hu
    rw [ext4ExtHandleUnwrittenExtents]
    dsimp only
    split
    · have hspec := splitExtent_spec env.mark.range (if flags.convertUnwritten then
          ⟨false, false, false, true, false⟩
        else ⟨mayZero env.mark.eofBlock ex map.mLblk map.mLen, false, true, false, true⟩)
          true hbs ht h
        hext hx hlen (.inl hmark)
      refine .of_converted ?_
      rw [ext4SplitConvertExtents, hext]
      exact ⟨keeps_of_range hspec, hspec.recorded⟩
    · split
      · split
        · exact ⟨hsame.1, hsame.2, rfl⟩
        · have hspec := markRange_spec (u := false) env.mark .bug hbs ht h hext hx hlen hu
            (.inl hmark)
          exact ⟨keeps_of_converts hspec, hspec.recorded, rfl⟩
      · split
        · exact .of_mapOut hsame
        · split
          · exact ⟨hsame.1, hsame.2, rfl⟩
          · have hspec := (convertToInitialized_spec ht h hext hu hx hlen env.init flags.preIo hbs
              (.inl hinit)).1
            exact .of_converted ⟨keeps_of_converts hspec, hspec.recorded⟩

/-- `ext4_zeroout_es` keeps the extent status tree well formed. -/
theorem zerooutEs_inv {es : StatusEnv} {z : Extent} (h : EsInv es.sb) (hz : z.Ok)
    (hphys : z.eeStart < 2 ^ 48) : EsInv (ext4ZerooutEs es z).2.sb := by
  have hlen := actualLen_le hz
  have hend := hz.end_le
  rw [Extent.eeEnd] at hend
  have h1 : (BitVec.ofNat 32 z.eeBlock).toNat = z.eeBlock := toNat_ofNat_lblk (by omega)
  have h2 : (BitVec.ofNat 32 (ext4ExtGetActualLen z)).toNat = ext4ExtGetActualLen z :=
    toNat_ofNat_lblk (by omega)
  have h3 : (BitVec.ofNat 64 z.eeStart).toNat = z.eeStart := by
    rw [BitVec.toNat_ofNat]
    omega
  have hargs : ArgsOk (BitVec.ofNat 32 z.eeBlock) (BitVec.ofNat 32 (ext4ExtGetActualLen z))
      (BitVec.ofNat 64 z.eeStart) 1#32 := by
    refine ⟨?_, fun _ => ?_⟩
    · rw [h1, h2]
      exact hend
    · rw [h2, h3]
      rw [extInitMaxLen] at hlen
      omega
  obtain ⟨err, sb', hcall, hinv, -⟩ := ext4EsInsertExtent_spec es.rb es.allocs es.inode h hargs
  rw [ext4ZerooutEs]
  split
  · exact h
  · rw [hcall]
    exact hinv

theorem record_inv {zs : List Extent} (hzs : ∀ z ∈ zs, z.Ok ∧ z.eeStart < 2 ^ 48) :
    ∀ {es : StatusEnv}, EsInv es.sb → EsInv (es.record zs).sb := by
  induction zs with
  | nil => exact fun h => h
  | cons z zs ih =>
    intro es h
    obtain ⟨hz, hphys⟩ := hzs z List.mem_cons_self
    exact ih (fun y hy => hzs y (List.mem_cons_of_mem z hy)) (zerooutEs_inv h hz hphys)

end Keeps

/-! ## Runs -/

/-- A call with what its surroundings decide. -/
structure Call (blocksize : Nat) where
  env : MapEnv blocksize
  flags : GetBlocks
  map : Ext4MapBlocks

def Call.run {blocksize : Nat} (call : Call blocksize) (c : Clusters) (i : Nat) (t : ExtTree)
    (sb : Ext4SbInfo) : Option (Mapped × Ext4SbInfo) :=
  ext4ExtMapBlocks call.env c call.flags i t call.map sb

/-- `n` clusters from the block `base` on that no block of the file is in. The
first cluster of a file system has its superblock. -/
structure Unused (c : Clusters) (t : ExtTree) (base n : Nat) : Prop where
  aligned : base % c.ratio = 0
  lo : c.ratio ≤ base
  hi : base + n * c.ratio ≤ 2 ^ 48
  unused : ∀ x q, pblk t x = some q → q < base ∨ base + n * c.ratio ≤ q

/-- An allocating call for blocks of the file, with an allocator that finds
unused clusters. -/
structure Call.Allocates {blocksize : Nat} (c : Clusters) (t : ExtTree) (call : Call blocksize) :
    Prop where
  create : call.flags.create = true
  pos : 0 < call.map.mLen
  stop : call.map.mLblk + call.map.mLen ≤ extMaxBlocks
  allocator : ∀ wanted base n, call.env.newBlocks wanted = .ok (base, n) → Unused c t base n

/-- No call into the journal fails once the tree has begun to change. -/
def Call.Journaled {blocksize : Nat} (call : Call blocksize) : Prop :=
  call.env.mark.range.Calm ∧ call.env.init.range.Calm ∧ call.env.insert.early = true

/-- The states that allocating calls under the condition `cond` lead to. -/
inductive AllocRun {blocksize : Nat} (c : Clusters) (i : Nat) (cond : Call blocksize → Prop)
    (t : ExtTree) (sb : Ext4SbInfo) : ExtTree → Ext4SbInfo → Prop
  | start : AllocRun c i cond t sb t sb
  | call {t₁ : ExtTree} {sb₁ sb₂ : Ext4SbInfo} {r : Mapped} (call : Call blocksize)
      (before : AllocRun c i cond t sb t₁ sb₁) (allocates : call.Allocates c t₁) (ok : cond call)
      (eq : call.run c i t₁ sb₁ = some (r, sb₂)) : AllocRun c i cond t sb r.tree sb₂

/-- A valid state in which the mapping of the file respects clusters. -/
structure Clustered (blocksize : Nat) (c : Clusters) (t : ExtTree) (sb : Ext4SbInfo) : Prop where
  tree_ok : t.Ok blocksize
  es : EsInv sb
  bounds : ∀ x q, pblk t x = some q → c.ratio ≤ q ∧ q < 2 ^ 48
  respects : ClusterMap.Respects c.ratio (pblk t)

section Step

variable {blocksize i : Nat} {c : Clusters} {t : ExtTree} {sb : Ext4SbInfo} {call : Call blocksize}

theorem pblk_of_mapping (h : t.mapping x = some (q, u)) : pblk t x = some q := by
  rw [pblk, h]
  rfl

theorem mapped_of_pblk (h : pblk t x = some q) : t.mapping x ≠ none := by
  intro hnone
  rw [pblk, hnone] at h
  nomatch h

theorem Clustered.eeStart (h : Clustered blocksize c t sb) {ex : Extent} (hex : ex ∈ t.extents) :
    0 < ex.eeStart ∧ ex.eeStart < 2 ^ 48 := by
  have hlt := eeBlock_lt_eeEnd (h.tree_ok.extents_ok ex hex)
  have hmap := mapping_of_mem h.tree_ok hex ⟨Nat.le_refl _, hlt⟩
  rw [Nat.sub_self, Nat.add_zero] at hmap
  have hpos := c.ratio_pos
  have := h.bounds _ _ (pblk_of_mapping hmap)
  omega

theorem Clustered.recordable (h : Clustered blocksize c t sb) {z : Extent}
    (hz : Recordable t.mapping z) : z.Ok ∧ z.eeStart < 2 ^ 48 :=
  ⟨hz.1, (h.bounds z.eeBlock z.eeStart hz.2).2⟩

theorem Clustered.of_keeps {sb' : Ext4SbInfo} (h : Clustered blocksize c t sb)
    (hk : KeepsBlocks blocksize t t') (hes : EsInv sb') : Clustered blocksize c t' sb' := by
  refine ⟨hk.1, hes, ?_, ?_⟩
  · rw [hk.2]
    exact h.bounds
  · rw [hk.2]
    exact h.respects

theorem ratio_dvd_max (c : Clusters) : c.ratio ∣ 2 ^ 48 :=
  Nat.pow_dvd_pow 2 (Nat.le_trans (Nat.le_of_lt c.bits_lt) (by decide))

theorem cluster_bounds {d : Nat} (hq : c.ratio ≤ q ∧ q < 2 ^ 48) (hd : d < c.ratio) :
    c.ratio ≤ q - q % c.ratio + d ∧ q - q % c.ratio + d < 2 ^ 48 := by
  have hpos := c.ratio_pos
  obtain ⟨k, hk⟩ := ratio_dvd_max c
  have hlow : 1 ≤ q / c.ratio := (Nat.le_div_iff_mul_le hpos).mpr (by omega)
  have hhigh : q / c.ratio < k := Nat.div_lt_of_lt_mul (by omega)
  have h1 : c.ratio * 1 ≤ c.ratio * (q / c.ratio) := Nat.mul_le_mul_left _ hlow
  have h2 : c.ratio * (q / c.ratio + 1) ≤ c.ratio * k := Nat.mul_le_mul_left _ hhigh
  rw [ClusterMap.start_eq]
  rw [Nat.mul_add] at h2
  omega

theorem Clustered.place (h : Clustered blocksize c t sb) (hcall : call.Allocates c t)
    {pb len len' : Nat} (hpl : Origin call.env c t lblk pb len) (hle : len' ≤ len) :
    ClusterMap.Respects c.ratio (ClusterMap.place (pblk t) lblk len' pb)
      ∧ ∀ d < len', c.ratio ≤ pb + d ∧ pb + d < 2 ^ 48 := by
  have hpos := c.ratio_pos
  cases hpl with
  | shared b q u mapped same fits pblk_eq =>
    have hb := pblk_of_mapping mapped
    subst pblk_eq
    refine ⟨h.respects.place_shared hb same (by omega), fun d hd => ?_⟩
    rw [Nat.add_assoc]
    exact cluster_bounds (h.bounds b q hb) (by omega)
  | fresh wanted base n found pblk_eq fits alone =>
    obtain ⟨haligned, hlo, hhi, hunused⟩ := hcall.allocator wanted base n found
    subst pblk_eq
    refine ⟨h.respects.place_fresh ?_ (fun b q hb d hd => alone b (mapped_of_pblk hb) d (by omega))
      fun b q hb d hd heq => ?_, fun d hd => ?_⟩
    · rw [Nat.add_mod, haligned, Nat.zero_add, Nat.mod_mod, Nat.mod_mod]
    · rw [Nat.add_assoc] at heq
      exact ClusterMap.div_ne_of_outside hpos haligned (hunused b q hb) (fits d (by omega)) heq
    · have := fits d (by omega)
      omega

theorem Clustered.step (hbs : 1024 ≤ blocksize) (h : Clustered blocksize c t sb)
    (hcall : call.Allocates c t) (hj : call.Journaled) :
    ∃ r sb', call.run c i t sb = some (r, sb') ∧ Clustered blocksize c r.tree sb'
      ∧ ∀ newex, r.inserted = some newex →
        ∀ x, newex.eeBlock ≤ x → x < newex.eeEnd → t.mapping x = none := by
  have hstop := hcall.stop
  have hpos := hcall.pos
  obtain ⟨sb', hes, -, hcase⟩ := mapBlocks_cases (i := i) call.env c call.flags h.tree_ok
    (fun ex hex => (h.eeStart hex).2) h.es (by omega : call.map.mLblk < extMaxBlocks)
  have hsame : KeepsBlocks blocksize t t := ⟨h.tree_ok, rfl⟩
  cases hcase with
  | unread e eq => exact ⟨_, sb', eq, h.of_keeps hsame hes, nofun⟩
  | hole p path gap create => exact nomatch create.symm.trans hcall.create
  | found p ex path ext mem eq =>
    have hr : Restates blocksize t
        (mapFound (call.env.on (call.env.status i sb')) call.flags call.map p ex) :=
      mapFound_restates hbs h.tree_ok path ext mem hpos hj.1 hj.2.1
    refine ⟨_, _, eq, h.of_keeps hr.keeps ?_, fun newex hn => nomatch hr.inserted.symm.trans hn⟩
    exact record_inv (fun z hz => h.recordable (hr.recorded z hz)) hes
  | new p path gap create eq =>
    refine ⟨_, sb', eq, ?_⟩
    have hnew : NewCase call.env c call.flags t call.map
        (mapNew call.env c call.flags call.map p) :=
      mapNew_cases hbs hj.2.2 h.tree_ok path hstop (fun ex hex => (h.eeStart hex).1) gap
    generalize mapNew call.env c call.flags call.map p = r at hnew
    cases hnew with
    | failed e err same inserted =>
      rw [same]
      exact ⟨h.of_keeps hsame hes, fun newex hn => nomatch inserted.symm.trans hn⟩
    | inserted pb len places le short nobug inserted tree_ok done =>
      have hlen : ext4ExtGetActualLen (newExtent call.map.mLblk len pb call.flags.unwritExt)
          ≤ len :=
        newExtent_actualLen_le nobug
      refine ⟨?_, fun newex hn x hlo hhi => ?_⟩
      · rcases done with ⟨-, hm⟩ | ⟨-, -, -, -, hm⟩
        · exact h.of_keeps ⟨tree_ok, funext fun x => by rw [pblk, hm]; rfl⟩ hes
        · obtain ⟨hresp, hbounds⟩ := h.place hcall places.origin hlen
          have hp : pblk r.tree = ClusterMap.place (pblk t) call.map.mLblk
              (ext4ExtGetActualLen (newExtent call.map.mLblk len pb call.flags.unwritExt)) pb := by
            funext x
            rw [pblk, hm, ClusterMap.place, Extent.eeEnd, newExtent_eeBlock]
            split <;> rfl
          refine ⟨tree_ok, hes, fun x q hq => ?_, hp ▸ hresp⟩
          rw [hp] at hq
          rcases ClusterMap.place_eq_some hq with ⟨d, hd, -, rfl⟩ | hq
          · exact hbounds d hd
          · exact h.bounds x q hq
      · obtain rfl := Option.some.inj (inserted.symm.trans hn)
        rw [Extent.eeEnd, newExtent_eeBlock] at hhi
        rw [newExtent_eeBlock] at hlo
        exact places.free x hlo (by omega)

/-- **Runs of allocating calls keep clusters together**: in every state each
block keeps its offset in its cluster, two blocks are in one physical cluster
exactly where they are in one logical cluster, and no extent is inserted over
another. -/
theorem allocRun_clustered (hbs : 1024 ≤ blocksize) (h : Clustered blocksize c t sb)
    {t' : ExtTree} {sb' : Ext4SbInfo}
    (hrun : AllocRun c i (fun call : Call blocksize => call.Journaled) t sb t' sb') :
    Clustered blocksize c t' sb'
      ∧ ∀ call : Call blocksize, call.Allocates c t' → call.Journaled →
        ∃ r sb'', call.run c i t' sb' = some (r, sb'')
          ∧ ∀ newex, r.inserted = some newex →
            ∀ x, newex.eeBlock ≤ x → x < newex.eeEnd → t'.mapping x = none := by
  have hinv : Clustered blocksize c t' sb' := by
    induction hrun with
    | start => exact h
    | call call before allocates ok eq ih =>
      obtain ⟨r, sb₂, hr, hnext, -⟩ := ih.step (i := i) hbs allocates ok
      obtain ⟨rfl, rfl⟩ := Prod.mk.inj (Option.some.inj (hr.symm.trans eq))
      exact hnext
  refine ⟨hinv, fun call hcall hj => ?_⟩
  obtain ⟨r, sb₂, hr, -, hfree⟩ := hinv.step (i := i) hbs hcall hj
  exact ⟨r, sb₂, hr, hfree⟩

end Step

/-! ## Concrete runs -/

/-- A file system in which nothing fails but for a lack of blocks for the
tree. -/
def plainSplits (blocks : List Nat) : RangeEnv 1024 :=
  ⟨⟨⟨1024, false, true, blocks, none⟩, none, none, none, none, noStatus⟩, none,
    ⟨⟨1024, false, true, blocks, none⟩, none, none, none, none, noStatus⟩, rfl, rfl⟩

theorem plainSplits_calm (blocks : List Nat) : (plainSplits blocks).Calm :=
  ⟨⟨rfl, rfl⟩, rfl, rfl⟩

def plainEnv (blocks : List Nat) : MapEnv 1024 where
  lookup := ⟨none, true, .spine _, []⟩
  mark := ⟨10, plainSplits blocks, none, none, ⟨1024, false, true, [], none⟩, none⟩
  init := ⟨10, 0, false, none, none, none, plainSplits blocks, noStatus⟩
  zeroout := none
  eofblocks := none
  read := fun _ => none
  newBlocks := fun n => .ok (1000, min n 8)
  insert := ⟨1024, false, true, blocks, none⟩
  insert_blocksize := rfl

def request (lblk len : Nat) : Ext4MapBlocks := ⟨0, lblk, len, ⟨false, false, false⟩⟩

/-- A full root: an unwritten extent between two written ones, and the block
behind the second. -/
def crowdedRoot : ExtTree :=
  ⟨0, [⟨0, 4, 100⟩, ⟨4, 4 + 2 ^ 15, 104⟩, ⟨8, 1, 300⟩, ⟨30, 1, 301⟩]⟩

theorem crowdedRoot_ok : crowdedRoot.Ok 1024 :=
  .of_root (by decide) (by decide) (by decide)

theorem pblk_mem {t : ExtTree} (h : pblk t x = some q) :
    ∃ ex ∈ t.extents, ex.eeBlock ≤ x ∧ x < ex.eeEnd ∧ q = ex.eeStart + (x - ex.eeBlock) := by
  obtain ⟨v, hv, rfl⟩ := Option.map_eq_some_iff.mp h
  obtain ⟨ex, hex, hc, rfl⟩ := blockView.get_eq_some_mem hv
  exact ⟨ex, hex, hc.1, hc.2, rfl⟩

theorem crowdedRoot_pblk (h : pblk crowdedRoot x = some q) :
    x < 8 ∧ q = 100 + x ∨ x = 8 ∧ q = 300 ∨ x = 30 ∧ q = 301 := by
  obtain ⟨ex, hex, hlo, hhi, rfl⟩ := pblk_mem h
  have hall : ∀ ex ∈ crowdedRoot.extents, ex.eeEnd ≤ 8 ∧ ex.eeStart = 100 + ex.eeBlock
      ∨ ex.eeBlock = 8 ∧ ex.eeEnd = 9 ∧ ex.eeStart = 300
      ∨ ex.eeBlock = 30 ∧ ex.eeEnd = 31 ∧ ex.eeStart = 301 := by decide
  rcases hall ex hex with h | h | h <;> omega

theorem crowdedRoot_clustered : Clustered 1024 single crowdedRoot EsState.init.sb := by
  have hone : single.ratio = 1 := rfl
  refine ⟨crowdedRoot_ok, runInv_init.inv, fun x q h => ?_, fun b q _ => ?_,
    fun b q b' q' h h' => ?_⟩
  · have := crowdedRoot_pblk h
    rw [hone]
    omega
  · rw [hone, Nat.mod_one, Nat.mod_one]
  · have h1 := crowdedRoot_pblk h
    have h2 := crowdedRoot_pblk h'
    simp only [hone, Nat.div_one]
    omega

/-- The journal refuses the extent after it was zeroed. -/
def aborted : MapEnv 1024 :=
  { plainEnv [] with
    init := ⟨10, 0, false, none, none, none,
      ⟨⟨⟨1024, false, true, [], none⟩, none, none, none, some .eio, noStatus⟩, none,
        ⟨⟨1024, false, true, [], none⟩, none, none, none, none, noStatus⟩, rfl, rfl⟩, noStatus⟩ }

/-- `EXT4_GET_BLOCKS_CREATE`. -/
def create : GetBlocks := ⟨true, false, false, false, false, false, false⟩

/-- A write into the unwritten extent finds no space for the split, zeroes the
extent and merges it with the one in front; when the journal fails after that,
the old length goes to the next extent, which then reaches over the block of
another one. -/
theorem allocRun_shares_block :
    Clustered 1024 single crowdedRoot EsState.init.sb
      ∧ (⟨aborted, create, request 5 1⟩ : Call 1024).Allocates single crowdedRoot
      ∧ ∃ t' sb', AllocRun single 0 (fun _ : Call 1024 => True) crowdedRoot EsState.init.sb t' sb'
        ∧ pblk t' 9 = some 301 ∧ pblk t' 30 = some 301 := by
  have halloc : (⟨aborted, create, request 5 1⟩ : Call 1024).Allocates single crowdedRoot := by
    refine ⟨rfl, by decide, by decide, fun wanted base n hnew => ?_⟩
    obtain ⟨rfl, rfl⟩ := Prod.mk.inj (Except.ok.inj hnew)
    have hone : single.ratio = 1 := rfl
    refine ⟨rfl, by decide, by rw [hone]; omega, fun x q h => ?_⟩
    have := crowdedRoot_pblk h
    omega
  refine ⟨crowdedRoot_clustered, halloc, _, _, .call _ .start halloc trivial rfl, ?_, ?_⟩
  · decide +kernel
  · decide +kernel

/-- Three blocks in a cluster of an empty file, and then the block in front of
them. -/
theorem allocRun_clustered_two :
    ∃ t' sb', AllocRun fourBlocks 0 (fun call : Call 1024 => call.Journaled) ⟨0, []⟩ EsState.init.sb
        t' sb'
      ∧ pblk t' 5 = some 1001 ∧ pblk t' 4 = some 1000 ∧ Clustered 1024 fourBlocks t' sb' := by
  have hempty : Clustered 1024 fourBlocks ⟨0, []⟩ EsState.init.sb :=
    ⟨⟨trivial, by decide, nofun, .nil⟩, runInv_init.inv, nofun, nofun, nofun⟩
  have hfour : fourBlocks.ratio = 4 := rfl
  have hfirst : (⟨plainEnv [], create, request 5 3⟩ : Call 1024).Allocates fourBlocks ⟨0, []⟩ := by
    refine ⟨rfl, by decide, by decide, fun wanted base n hnew => ?_⟩
    obtain ⟨rfl, rfl⟩ := Prod.mk.inj (Except.ok.inj hnew)
    exact ⟨rfl, by decide, by rw [hfour]; omega, nofun⟩
  have hrun : AllocRun fourBlocks 0 (fun call : Call 1024 => call.Journaled) ⟨0, []⟩ EsState.init.sb
      _ _ :=
    .call ⟨{ plainEnv [] with newBlocks := fun _ => .error .enospc }, create, request 4 1⟩
      (.call _ .start hfirst ⟨plainSplits_calm [], plainSplits_calm [], rfl⟩ rfl)
      ⟨rfl, by decide, by decide, nofun⟩ ⟨plainSplits_calm [], plainSplits_calm [], rfl⟩ rfl
  refine ⟨_, _, hrun, ?_, ?_, (allocRun_clustered (by decide) hempty hrun).1⟩
  · decide +kernel
  · decide +kernel

end Ext4.MapBlocks
