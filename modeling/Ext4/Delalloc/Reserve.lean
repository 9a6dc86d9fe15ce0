import Ext4.MapBlocks.Hole

/-!
# Delayed allocation — `ext4_da_map_blocks`

A write without blocks reserves a cluster (`ext4_da_reserve_space`: quota,
`s_dirtyclusters_counter`, `i_reserved_data_blocks`) and marks its block
delayed in the extent status tree. A failure in front of the reservation or in
it leaves nothing behind. The mark itself can fail as well, and then the
reservation stays.
-/

namespace Ext4.Delalloc

open Ext4.Extents Ext4.MapBlocks
open Ext4.ExtentsStatus hiding Errno

/-- What delayed writes change: the extent status trees,
`i_reserved_data_blocks` and the reserved quota of each inode, and
`s_dirtyclusters_counter`. -/
structure DaState where
  sb : Ext4SbInfo
  reserved : Nat → Nat
  quota : Nat → Nat
  dirty : Int

/-- What decides about a reservation: the result of `dquot_reserve_block`, the
counter of free clusters as `percpu_counter_read_positive` and
`percpu_counter_sum_positive` give it, the approximation of the dirty ones,
`ext4_r_blocks_count` in clusters, `s_resv_clusters`, the watermark and whether
the caller may use the blocks reserved for root. -/
structure SpaceEnv where
  dquot : Option Errno
  freeRead : Int
  freeSum : Int
  dirtyRead : Int
  rClusters : Int
  resvClusters : Int
  watermark : Int
  root : Bool

/-- `ext4_has_free_clusters` without flags. -/
def ext4HasFreeClusters (env : SpaceEnv) (dirty nclusters : Int) : Bool :=
  let rsv := env.rClusters + env.resvClusters
  let exact := decide (env.freeRead - (nclusters + rsv + env.dirtyRead) < env.watermark)
  let free := if exact then env.freeSum else env.freeRead
  let dirty := if exact then max dirty 0 else env.dirtyRead
  decide (rsv + nclusters + dirty ≤ free)
    || env.root && decide (nclusters + dirty + env.resvClusters ≤ free)

/-- `ext4_da_reserve_space`, with `ext4_claim_free_clusters`. -/
def ext4DaReserveSpace (env : SpaceEnv) (c : Clusters) (i : Nat) (st : DaState) :
    Option Errno × DaState :=
  match env.dquot with
  | some e => (some e, st)
  | none =>
      let st := { st with quota := Function.update st.quota i (st.quota i + c.ratio) }
      if ext4HasFreeClusters env st.dirty 1 then
        (none, { st with
          dirty := st.dirty + 1
          reserved := Function.update st.reserved i (st.reserved i + 1) })
      else
        (some .enospc, { st with quota := Function.update st.quota i (st.quota i - c.ratio) })

/-- How the blocks of a file are mapped; for indirect blocks this is the
result of `ext4_ind_map_blocks` and what it fills in. -/
inductive FileMap (blocksize : Nat) where
  | inline
  | extents (t : ExtTree) (env : MapEnv blocksize)
  | indirect (res : Except Errno Nat) (pblk len : Nat) (unwritten : Bool)

/-- The request, and what the surroundings decide about it. `allocs` are the
node allocations of the last insertion into the extent status tree. -/
structure DaCall (blocksize : Nat) where
  i : Nat
  lblk : Nat
  len : Nat
  file : FileMap blocksize
  rb : RbShape
  space : SpaceEnv
  allocs : List Bool

/-- No flag of `EXT4_GET_BLOCKS_…`. -/
def lookupFlags : GetBlocks := ⟨false, false, false, false, false, false, false⟩

section Model

variable {blocksize : Nat} (c : Clusters) (call : DaCall blocksize)

def DaCall.map : Ext4MapBlocks := ⟨0, call.lblk, call.len, ⟨false, false, false⟩⟩

/-- The lookup in the file itself. -/
def lookupBlocks (sb : Ext4SbInfo) : Option (Except Errno Nat × Ext4MapBlocks × Ext4SbInfo) :=
  match call.file with
  | .inline => some (.ok 0, call.map, sb)
  | .extents t env =>
      (ext4ExtMapBlocks env c lookupFlags call.i t call.map sb).map fun (r, sb) =>
        (r.res, r.map, sb)
  | .indirect res pblk len unwritten =>
      some (res, ⟨pblk, call.lblk, len, ⟨false, true, unwritten⟩⟩, sb)

/-- `ext4_es_insert_extent`, and the value that is returned behind it. -/
def insertStatus (map : Ext4MapBlocks) (pblk : Fsblk) (status : BitVec 32) (retval : Nat)
    (st : DaState) : Option (Except Errno Nat × DaState) :=
  (ext4EsInsertExtent call.rb call.allocs st.sb call.i (BitVec.ofNat 32 map.mLblk)
      (BitVec.ofNat 32 map.mLen) pblk status).map fun (err, sb) =>
    (match err with
      | some .enomem => .error .enomem
      | some .einval => .error .einval
      | none => .ok retval, { st with sb })

/-- The label `add_delayed` for a block without mapping. -/
def addDelayed (map : Ext4MapBlocks) (st : DaState) : Option (Except Errno Nat × DaState) :=
  (if c.ratio = 1 then some (false, st.sb)
    else ext4FindDelallocCluster call.rb c call.i st.sb (BitVec.ofNat 32 map.mLblk)).bind
      fun (found, sb) =>
    let r := if found then (none, { st with sb })
      else ext4DaReserveSpace call.space c call.i { st with sb }
    match r.1 with
    | some e => some (.error e, r.2)
    | none => insertStatus call map (BitVec.allOnes 64) 4#32 0 r.2

/-- `ext4_da_map_blocks`. -/
def ext4DaMapBlocks (st : DaState) : Option (Except Errno Nat × DaState) :=
  match ext4EsLookupExtent call.rb st.sb call.i (BitVec.ofNat 32 call.lblk) with
  | (some es, sb) =>
      let st := { st with sb }
      if ext4EsIsHole es then addDelayed c call call.map st
      else if ext4EsIsDelayed es ∧ ¬ ext4EsIsUnwritten es then some (.ok 0, st)
      else if ext4EsIsWritten es ∨ ext4EsIsUnwritten es then
        some (.ok (min (es.esLen - (call.lblk - es.esLblk)) call.len), st)
      else some (.error .bug, st)
  | (none, sb) =>
      (lookupBlocks c call sb).bind fun (retval, map, sb) =>
        let st := { st with sb }
        match retval with
        | .error e => some (.error e, st)
        | .ok 0 => addDelayed c call map st
        | .ok (n + 1) =>
            insertStatus call map (BitVec.ofNat 64 map.mPblk) (statusOf map.mFlags.unwritten)
              (n + 1)
              st

end Model

/-! ## What a failed call leaves behind -/

/-- The reservations and the delayed blocks are as before. -/
structure SameReservation (st st' : DaState) : Prop where
  reserved : st'.reserved = st.reserved
  quota : st'.quota = st.quota
  dirty : st'.dirty = st.dirty
  delayed : KeepsDelayed st.sb st'.sb

/-- What is known about the lookup in a file. -/
def FileMap.Ok {blocksize : Nat} (call : DaCall blocksize) : FileMap blocksize → Prop
  | .inline => True
  | .extents t _ => t.Ok blocksize ∧ ∀ ex ∈ t.extents, 0 < ex.eeStart ∧ ex.eeStart < 2 ^ 48
  | .indirect _ pblk len _ => pblk < 2 ^ 32 ∧ len ≤ call.len

structure DaCall.Ok {blocksize : Nat} (call : DaCall blocksize) : Prop where
  pos : 0 < call.len
  stop : call.lblk + call.len ≤ extMaxBlocks
  file : call.file.Ok call

/-- A cluster of the file with a delayed block is reserved already. -/
def Reserved (c : Clusters) (st : DaState) (i lblk : Nat) : Prop :=
  c.ratio ≠ 1 ∧ ∃ b, b / c.ratio = lblk / c.ratio ∧ DelayedAt (st.sb.root i) b

/-- The mark cannot fail, or the call reserves nothing for its one block. -/
def DaCall.Safe {blocksize : Nat} (c : Clusters) (st : DaState) (call : DaCall blocksize) : Prop :=
  false ∉ call.allocs
    ∨ call.len = 1 ∧ Reserved c st call.i call.lblk ∧ ¬ DelayedAt (st.sb.root call.i) call.lblk

section Failed

variable {blocksize : Nat} {c : Clusters} {call : DaCall blocksize} {st : DaState}

variable {sb : Ext4SbInfo}

theorem SameReservation.of_sb (h : KeepsDelayed st.sb sb) :
    SameReservation st { st with sb } := ⟨rfl, rfl, rfl, h⟩

theorem reserveSpace_error (env : SpaceEnv) (i : Nat) (st : DaState) (e : Errno)
    (h : (ext4DaReserveSpace env c i st).1 = some e) : (ext4DaReserveSpace env c i st).2 = st := by
  rw [ext4DaReserveSpace] at h ⊢
  cases hq : env.dquot with
  | some e => rfl
  | none =>
    rw [hq] at h
    by_cases hfree : ext4HasFreeClusters env st.dirty 1 = true
    · rw [if_pos hfree] at h
      cases h
    · rw [if_neg hfree]
      simp

theorem reserveSpace_sb (env : SpaceEnv) (i : Nat) (st : DaState) :
    (ext4DaReserveSpace env c i st).2.sb = st.sb := by
  rw [ext4DaReserveSpace]
  cases env.dquot with
  | some e => rfl
  | none =>
    dsimp only
    split <;> rfl

/-- The insertion behind a lookup. If it fails and no delayed block was in the
way, none is lost. -/
theorem insertStatus_spec (call : DaCall blocksize) (map : Ext4MapBlocks) (pblk : Fsblk)
    (status : BitVec 32) (n : Nat) (st : DaState) (h : EsInv st.sb)
    (hstop : map.mLblk + map.mLen ≤ extMaxBlocks)
    (hphys : isMapped (mkEs map.mLblk map.mLen pblk status) = true →
      pblk.toNat % 2 ^ 59 + map.mLen ≤ 2 ^ 59) :
    ∃ res st', insertStatus call map pblk status n st = some (res, st') ∧ EsInv st'.sb
      ∧ ∀ e, res = .error e → false ∈ call.allocs
        ∧ ((∀ b, map.mLblk ≤ b → b < map.mLblk + map.mLen → ¬ DelayedAt (st.sb.root call.i) b) →
          SameReservation st st') := by
  have h1 : (BitVec.ofNat 32 map.mLblk).toNat = map.mLblk := toNat_ofNat_lblk (by omega)
  have h2 : (BitVec.ofNat 32 map.mLen).toNat = map.mLen := toNat_ofNat_lblk (by omega)
  have hargs : ArgsOk (BitVec.ofNat 32 map.mLblk) (BitVec.ofNat 32 map.mLen) pblk status := by
    constructor <;> rwa [h1, h2]
  obtain ⟨err, sb', hcall, hinv, hspec⟩ :=
    ext4EsInsertExtent_spec call.rb call.allocs call.i h hargs
  rw [h1, h2] at hspec
  rw [insertStatus, hcall, Option.map_some]
  refine ⟨_, _, rfl, hinv, fun e he => ?_⟩
  cases err with
  | none => nomatch he
  | some e' =>
    exact ⟨hspec.2.1, fun hclear => .of_sb (keepsDelayed_of_insertSpec h hspec hclear nofun)⟩

theorem SameReservation.trans {st' st'' : DaState} (h : SameReservation st st')
    (h' : SameReservation st' st'') : SameReservation st st'' where
  reserved := h'.reserved.trans h.reserved
  quota := h'.quota.trans h.quota
  dirty := h'.dirty.trans h.dirty
  delayed := h.delayed.trans h'.delayed

theorem DaCall.Safe.of_keeps (hsafe : call.Safe c st) (h : EsInv st.sb) (h' : EsInv sb)
    (hk : KeepsDelayed st.sb sb) : call.Safe c { st with sb } := by
  refine hsafe.imp_right fun ⟨hlen, ⟨hr, b, hb, hd⟩, hclear⟩ => ⟨hlen, ⟨hr, b, hb, ?_⟩, ?_⟩
  · exact ((hk call.i).delayedAt h h').mpr hd
  · exact fun hd => hclear (((hk call.i).delayedAt h h').mp hd)

theorem isMapped_mkEs_delayed (lblk len : Nat) (pblk : Fsblk) :
    isMapped (mkEs lblk len pblk 4#32) = false := by
  have hdelayed : ext4EsIsDelayed (mkEs lblk len pblk 4#32) = true := by
    rw [isDelayed_eq, mkEs, storePblockStatus_bit _ _ _ (by decide), if_neg (by decide)]
    rfl
  have hunwritten : ext4EsIsUnwritten (mkEs lblk len pblk 4#32) = false := by
    rw [isUnwritten_eq, mkEs, storePblockStatus_bit _ _ _ (by decide), if_neg (by decide)]
    rfl
  rw [isMapped, freeKind, hdelayed, hunwritten, Bool.not_false, Bool.and_true, Bool.or_true,
    Bool.not_true, Bool.and_false]

theorem mapFound_lookup (env : MapEnv blocksize) (map : Ext4MapBlocks) (p : ExtPath) (ex : Extent) :
    ∃ flags, mapFound env lookupFlags map p ex
      = fillIn ⟨.ok 0, p.tree, [], [], []⟩ { map with mFlags := flags }
        (ext4ExtGetActualLen ex - (map.mLblk - ex.eeBlock))
          (map.mLblk - ex.eeBlock + ex.eeStart) := by
  rw [mapFound]
  split
  · exact ⟨_, rfl⟩
  · exact ⟨_, rfl⟩

theorem lookupBlocks_spec (c : Clusters) (hok : call.Ok) (h : EsInv sb) :
    ∃ res map sb', lookupBlocks c call sb = some (res, map, sb') ∧ EsInv sb' ∧ KeepsDelayed sb sb'
      ∧ map.mLblk = call.lblk ∧ map.mLen ≤ call.len
      ∧ ∀ n, res = .ok (n + 1) → map.mPblk < 2 ^ 49 := by
  obtain ⟨hpos, hstop, hfile⟩ := hok
  have hlt : call.lblk < extMaxBlocks := by omega
  have hmax : extMaxBlocks < 2 ^ 32 := by decide
  rw [lookupBlocks]
  cases hf : call.file with
  | inline => exact ⟨_, _, sb, rfl, h, .refl sb, rfl, Nat.le_refl _, nofun⟩
  | indirect res pblk len unwritten =>
    rw [hf] at hfile
    exact ⟨_, _, sb, rfl, h, .refl sb, rfl, hfile.2,
      fun _ _ => Nat.lt_trans hfile.1 (by decide)⟩
  | extents t env =>
    rw [hf] at hfile
    obtain ⟨ht, hphys⟩ := hfile
    obtain ⟨sb1, h1, hk1, hcase⟩ := mapBlocks_cases (i := call.i) env c lookupFlags ht
      (fun ex hex => (hphys ex hex).2) h (show call.map.mLblk < _ from hlt)
    dsimp only
    cases hcase with
    | unread e eq =>
      rw [eq, Option.map_some]
      exact ⟨_, _, sb1, rfl, h1, hk1, rfl, Nat.le_refl _, nofun⟩
    | found p ex path ext mem eq =>
      obtain ⟨flags, hfill⟩ := mapFound_lookup (env.on (env.status call.i sb1)) call.map p ex
      have hstart := (hphys ex (path.ext_mem ext)).2
      rw [eq, hfill, Option.map_some]
      refine ⟨_, _, sb1, rfl, h1, hk1, rfl, Nat.min_le_right _ _, fun _ _ => ?_⟩
      show call.lblk - ex.eeBlock + ex.eeStart < 2 ^ 49
      omega
    | new p path gap create => exact nomatch create
    | hole p path gap create eq =>
      obtain ⟨r, sb2, hr, h2, hk2, hres, -, hlblk, -, hle, -⟩ :=
        mapHole_spec (i := call.i) env ht path gap h1 (show 0 < call.map.mLen from hpos) hlt
      rw [eq, hr, Option.map_some]
      exact ⟨_, _, sb2, rfl, h2, hk1.trans hk2, hlblk, hle, fun n hn => nomatch hres.symm.trans hn⟩

/-- `add_delayed`: where the blocks before the mark are kept, only the mark can
leave a reservation behind. -/
theorem addDelayed_spec {map : Ext4MapBlocks} (st : DaState) (hok : call.Ok) (h : EsInv st.sb)
    (hlblk : map.mLblk = call.lblk) (hlen : map.mLen ≤ call.len) :
    ∃ res st', addDelayed c call map st = some (res, st') ∧ EsInv st'.sb
      ∧ ∀ e, res = .error e → call.Safe c st → SameReservation st st' := by
  have hstop : map.mLblk + map.mLen ≤ extMaxBlocks := by
    have := hok.stop
    omega
  have hphys : isMapped (mkEs map.mLblk map.mLen (BitVec.allOnes 64) 4#32) = true →
      (BitVec.allOnes 64).toNat % 2 ^ 59 + map.mLen ≤ 2 ^ 59 := by
    rw [isMapped_mkEs_delayed]
    nofun
  obtain ⟨found, sb, hfind, h', hroot, hhit⟩ : ∃ found sb,
      (if c.ratio = 1 then some (false, st.sb)
        else ext4FindDelallocCluster call.rb c call.i st.sb (BitVec.ofNat 32 map.mLblk))
          = some (found, sb)
      ∧ EsInv sb ∧ (∀ j, sb.root j = st.sb.root j)
      ∧ (Reserved c st call.i call.lblk → found = true) := by
    split
    · exact ⟨_, _, rfl, h, fun _ => rfl, fun hr => absurd ‹c.ratio = 1› hr.1⟩
    · obtain ⟨hit, sb, hcall, h', hroot, hiff⟩ := findDelallocCluster_spec call.rb call.i c h
        (BitVec.ofNat 32 map.mLblk)
      rw [toNat_ofNat_lblk (by omega), hlblk] at hiff
      exact ⟨hit, sb, hcall, h', hroot, fun hr => hiff.mpr hr.2⟩
  have hkeep : SameReservation st { st with sb } := .of_sb (.of_root hroot)
  rw [addDelayed, hfind, Option.bind_some]
  cases found with
  | true =>
    obtain ⟨res, st', hins, hinv, herr⟩ := insertStatus_spec call map _ 4#32 0 { st with sb } h'
      hstop hphys
    refine ⟨res, st', hins, hinv, fun e he hsafe => ?_⟩
    obtain ⟨hbad, hsame⟩ := herr e he
    rcases hsafe with hgood | ⟨hone, -, hclear⟩
    · exact absurd hbad hgood
    · refine hkeep.trans (hsame fun b hlo hhi => ?_)
      obtain rfl : b = call.lblk := by omega
      rwa [hroot]
  | false =>
    simp only [Bool.false_eq_true, if_false]
    have hsb := reserveSpace_sb (c := c) call.space call.i { st with sb }
    have hback := reserveSpace_error (c := c) call.space call.i { st with sb }
    generalize ext4DaReserveSpace call.space c call.i { st with sb } = r at hsb hback ⊢
    obtain ⟨err, st₁⟩ := r
    have h1 : EsInv st₁.sb := hsb ▸ h'
    cases err with
    | some e => exact ⟨_, _, rfl, h1, fun _ _ _ => hback e rfl ▸ hkeep⟩
    | none =>
      obtain ⟨res, st', hins, hinv, herr⟩ := insertStatus_spec call map _ 4#32 0 st₁ h1 hstop hphys
      refine ⟨res, st', hins, hinv, fun e he hsafe => ?_⟩
      rcases hsafe with hgood | ⟨-, hres, -⟩
      · exact absurd (herr e he).1 hgood
      · exact nomatch hhit hres

theorem daMapBlocks_spec (hok : call.Ok) (h : EsInv st.sb) :
    ∃ res st', ext4DaMapBlocks c call st = some (res, st') ∧ EsInv st'.sb
      ∧ ∀ e, res = .error e → call.Safe c st → SameReservation st st' := by
  obtain ⟨h1, hsame, hfound⟩ := ext4EsLookupExtent_spec call.rb call.i h (BitVec.ofNat 32 call.lblk)
  rw [ext4DaMapBlocks]
  generalize ext4EsLookupExtent call.rb st.sb call.i (BitVec.ofNat 32 call.lblk)
    = out at h1 hsame hfound
  obtain ⟨es, sb1⟩ := out
  have hk1 : KeepsDelayed st.sb sb1 := fun i b v _ => by rw [hsame]
  have hdelay : ∀ map sb, map.mLblk = call.lblk → map.mLen ≤ call.len → EsInv sb →
      KeepsDelayed st.sb sb → ∃ res st', addDelayed c call map { st with sb } = some (res, st')
        ∧ EsInv st'.sb ∧ ∀ e, res = .error e → call.Safe c st → SameReservation st st' := by
    intro map sb hlblk hlen h' hk
    obtain ⟨res, st', heq, hinv, herr⟩ := addDelayed_spec (c := c) { st with sb } hok h' hlblk hlen
    exact ⟨res, st', heq, hinv, fun e he hsafe =>
      (SameReservation.of_sb hk).trans (herr e he (hsafe.of_keeps h h' hk))⟩
  cases es with
  | some es =>
    dsimp only
    split
    · exact hdelay call.map sb1 rfl (Nat.le_refl _) h1 hk1
    · split
      · exact ⟨_, _, rfl, h1, nofun⟩
      · split
        · exact ⟨_, _, rfl, h1, nofun⟩
        · exact ⟨_, _, rfl, h1, fun _ _ _ => .of_sb hk1⟩
  | none =>
    obtain ⟨retval, map, sb2, hlook, h2, hk2, hlblk, hlen, hpblk⟩ := lookupBlocks_spec c hok h1
    have hk := hk1.trans hk2
    dsimp only
    rw [hlook, Option.bind_some]
    match retval with
    | .error e => exact ⟨_, _, rfl, h2, fun _ _ _ => .of_sb hk⟩
    | .ok 0 => exact hdelay map sb2 hlblk hlen h2 hk
    | .ok (n + 1) =>
      have hstop := hok.stop
      have hmax : extMaxBlocks < 2 ^ 32 := by decide
      obtain ⟨res, st', hins, hinv, herr⟩ := insertStatus_spec call map
        (BitVec.ofNat 64 map.mPblk) (statusOf map.mFlags.unwritten) (n + 1) { st with sb := sb2 } h2
        (by omega) (fun _ => by
          have := hpblk n rfl
          rw [BitVec.toNat_ofNat]
          omega)
      refine ⟨res, st', hins, hinv, fun e he hsafe => ?_⟩
      obtain ⟨hbad, hkeep⟩ := herr e he
      rcases hsafe with hgood | ⟨hone, -, hclear⟩
      · exact absurd hbad hgood
      · refine (SameReservation.of_sb hk).trans (hkeep fun b hlo hhi hd => hclear ?_)
        obtain rfl : b = call.lblk := by omega
        exact ((hk call.i).delayedAt h h2).mp hd

end Failed

/-! ## Runs -/

/-- The states reached by delayed writes. -/
inductive DaRun (blocksize : Nat) (c : Clusters) (st : DaState) : DaState → Prop
  | refl : DaRun blocksize c st st
  | step {st₁ st₂ : DaState} {res : Except Errno Nat} (call : DaCall blocksize)
      (prev : DaRun blocksize c st st₁) (ok : call.Ok)
      (eq : ext4DaMapBlocks c call st₁ = some (res, st₂)) : DaRun blocksize c st st₂

theorem DaRun.esInv {blocksize : Nat} {c : Clusters} {st st' : DaState}
    (hrun : DaRun blocksize c st st') (h : EsInv st.sb) : EsInv st'.sb := by
  induction hrun with
  | refl => exact h
  | step call prev ok eq ih =>
    obtain ⟨res, st₂, heq, hinv, -⟩ := daMapBlocks_spec ok ih
    obtain ⟨-, rfl⟩ := Prod.mk.inj (Option.some.inj (heq.symm.trans eq))
    exact hinv

/-- **Failed delayed writes**: in every run, a call whose mark cannot fail, or
that reserves nothing for its block, leaves the reservations and the delayed
blocks as they were when it returns an error. -/
theorem daMapBlocks_failed {blocksize : Nat} (c : Clusters) {st st₁ : DaState} (h : EsInv st.sb)
    (hrun : DaRun blocksize c st st₁) (call : DaCall blocksize) (hok : call.Ok)
    (hsafe : call.Safe c st₁) :
    ∃ res st₂, ext4DaMapBlocks c call st₁ = some (res, st₂)
      ∧ ∀ e, res = .error e → SameReservation st₁ st₂ := by
  obtain ⟨res, st₂, heq, -, herr⟩ := daMapBlocks_spec (c := c) hok (hrun.esInv h)
  exact ⟨res, st₂, heq, fun e he => herr e he hsafe⟩

/-! ## Concrete calls -/

/-- A file system with free clusters, and a write of block 3 to a new file. -/
def spacious : SpaceEnv := ⟨none, 100, 100, 0, 0, 0, 10, false⟩

def writeBlock (allocs : List Bool) : DaCall 1024 := ⟨0, 3, 1, .inline, .spine _, spacious, allocs⟩

def DaState.empty : DaState := ⟨EsState.init.sb, fun _ => 0, fun _ => 0, 0⟩

theorem writeBlock_ok (allocs : List Bool) : (writeBlock allocs).Ok :=
  ⟨show 0 < 1 by decide, show 3 + 1 ≤ extMaxBlocks by decide, trivial⟩

/-- Without memory for the entry of the status tree, the call fails and its
reservation stays. -/
theorem daMapBlocks_leaks :
    ∃ st', ext4DaMapBlocks single (writeBlock [false, false]) .empty = some (.error .enomem, st')
      ∧ (writeBlock [false, false]).Ok ∧ EsInv DaState.empty.sb
      ∧ st'.reserved 0 = 1 ∧ st'.quota 0 = 1 ∧ st'.dirty = 1
      ∧ (∀ b, ¬ DelayedAt (st'.sb.root 0) b) ∧ ¬ SameReservation .empty st' := by
  refine ⟨_, rfl, writeBlock_ok _, runInv_init.inv, rfl, rfl, rfl, ?_, fun h => ?_⟩
  · rintro b ⟨e, he, -⟩
    nomatch he
  · exact absurd h.dirty (by decide)

/-- A second write where the quota is exhausted. -/
theorem daMapBlocks_failed_quota :
    ∃ st₁, DaRun 1024 single .empty st₁ ∧ st₁.dirty = 1
      ∧ ∃ st₂, ext4DaMapBlocks single
          { writeBlock [true] with lblk := 5, space := { spacious with dquot := some .enospc } } st₁
            = some (.error .enospc, st₂)
        ∧ SameReservation st₁ st₂ := by
  have hrun : DaRun 1024 single .empty _ :=
    .step (writeBlock [true]) .refl (writeBlock_ok _) (show _ = some (.ok 0, _) from rfl)
  refine ⟨_, hrun, rfl, ?_⟩
  obtain ⟨res, st₂, heq, h⟩ := daMapBlocks_failed single runInv_init.inv hrun
    { writeBlock [true] with lblk := 5, space := { spacious with dquot := some .enospc } }
    ⟨by decide, by decide, trivial⟩ (.inl (by decide))
  obtain rfl : res = .error .enospc := congrArg Prod.fst (Option.some.inj (heq.symm.trans rfl))
  exact ⟨st₂, heq, h _ rfl⟩

end Ext4.Delalloc
