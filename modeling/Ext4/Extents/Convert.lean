import Ext4.Extents.SplitRange

/-!
# Extent trees — converting between written and unwritten

The functions of extents.c that change the state of a range of blocks inside
one extent: `ext4_ext_convert_to_initialized` for a write into unwritten
space, `ext4_convert_unwritten_extents_endio` for a write that is done, and
`convert_initialized_extent` for the other direction. All of them split the
extent, unless a neighbour can take the blocks over or the rest of the extent
is small enough to be zeroed. None of them moves a block.
-/

namespace Ext4.Extents

open IndexTree

/-! ## The model -/

section Model

variable {blocksize : Nat}

/-- `EXT4_EXT_MAY_ZEROOUT`: the extent ends within the file. -/
def mayZero (eofBlock : Nat) (ex : Extent) (lblk len : Nat) : Bool :=
  decide (ex.eeEnd ≤ max eofBlock (lblk + len))

/-- `ext4_split_convert_extents`. `eofBlock` is the size of the file in
blocks; the direction is that of `EXT4_GET_BLOCKS_CONVERT_UNWRITTEN`. -/
def ext4SplitConvertExtents (env : RangeEnv blocksize) (eofBlock : Nat) (toUnwritten : Bool)
    (lblk len : Nat) (p : ExtPath) : RangeDone :=
  let may := match p.ext with
    | none => false
    | some ex => mayZero eofBlock ex lblk len
  let flags : SplitFlags :=
    if toUnwritten then ⟨false, false, false, true, false⟩ else ⟨may, false, true, false, true⟩
  ext4SplitExtent env flags true lblk len p

/-- What the surroundings decide about a change of state by
`ext4_split_convert_extents`. -/
structure MarkEnv (blocksize : Nat) where
  eofBlock : Nat
  range : RangeEnv blocksize
  readErr : Option Errno
  access : Option Errno
  merge : InsertEnv
  dirty : Option Errno

/-- The extent of the path gets its new state and is merged. -/
def markExtent (env : MarkEnv blocksize) (toUnwritten : Bool) (missing : Errno) (q : ExtPath) :
    RangeDone :=
  match q.ext with
  | none => ⟨.error missing, q.tree, [], [], []⟩
  | some ex =>
      match env.access with
      | some e => ⟨.error e, q.tree, [], [], []⟩
      | none =>
          -- `BUG_ON` in `ext4_ext_mark_unwritten`
          if toUnwritten = true ∧ ex.eeLen % extInitMaxLen = 0 then
            ⟨.error .bug, q.tree, [], [], []⟩
          else
            let ex' := if toUnwritten then ext4ExtMarkUnwritten ex else ext4ExtMarkInitialized ex
            let m := tryToMergeAt env.merge q.depth (setExt q.depth q.path ex')
            ⟨match env.dirty with
              | some e => .error e
              | none => .ok 0, m.1.tree, m.2, [], []⟩

/-- The common body of `ext4_convert_unwritten_extents_endio` and
`convert_initialized_extent`; `missing` is for an extent that is gone after the
split. -/
def markRange (env : MarkEnv blocksize) (toUnwritten : Bool) (missing : Errno) (lblk len : Nat)
    (p : ExtPath) : RangeDone :=
  match p.ext with
  | none => ⟨.error .bug, p.tree, [], [], []⟩
  | some ex =>
      if ex.eeBlock ≠ lblk ∨ len < ext4ExtGetActualLen ex then
        let r := ext4SplitConvertExtents env.range env.eofBlock toUnwritten lblk len p
        match r.res with
        | .error e => { r with res := .error e }
        | .ok _ =>
            match findExtent env.readErr r.tree lblk with
            | .error e => { r with res := .error e }
            | .ok q =>
                let s := markExtent env toUnwritten missing q
                { s with freed := r.freed ++ s.freed, zeroed := r.zeroed, recorded := r.recorded }
      else markExtent env toUnwritten missing p

/-- `ext4_convert_unwritten_extents_endio`, which does not check for a missing
extent. -/
def ext4ConvertUnwrittenExtentsEndio (env : MarkEnv blocksize) (lblk len : Nat) (p : ExtPath) :
    RangeDone :=
  markRange env false .bug lblk len p

/-- `convert_initialized_extent`, with the length it may cut down first. The
last error is that of `check_eofblocks_fl`. -/
def convertInitializedExtent (env : MarkEnv blocksize) (eofblocks : Option Errno)
    (lblk mLen allocated : Nat) (p : ExtPath) : RangeDone :=
  let len := if extUnwrittenMaxLen < mLen then extUnwrittenMaxLen / 2 else mLen
  let r := markRange env true .efscorrupted lblk len p
  match r.res with
  | .error e => { r with res := .error e }
  | .ok _ =>
      match eofblocks with
      | some e => { r with res := .error e }
      | none => { r with res := .ok (min allocated len) }

/-- The attempt of `ext4_ext_convert_to_initialized` to give the blocks to the
written extent in front or behind. -/
def transfer (access : Option Errno) (lblk len : Nat) (p : ExtPath) (ex : Extent) :
    Option RangeDone :=
  let c := leaf p.depth p.path
  let done : Cut Extent → RangeDone := fun c' =>
    match access with
    | some e => ⟨.error e, p.tree, [], [], []⟩
    | none => ⟨.ok len, ⟨p.depth, close p.depth (setLeaf p.depth p.path c')⟩, [], [], []⟩
  if lblk = ex.eeBlock ∧ len < ext4ExtGetActualLen ex ∧ c.before ≠ [] then
    match c.before.getLast? with
    | none => none
    | some abut =>
        if ext4ExtIsUnwritten abut = false ∧ abut.eeEnd = ex.eeBlock
            ∧ abut.eeStart + ext4ExtGetActualLen abut = ex.eeStart
            ∧ ext4ExtGetActualLen abut < extInitMaxLen - len then
          some (done ⟨c.before.dropLast, abut.withLen (ext4ExtGetActualLen abut + len) false
            :: ex.back (ex.eeBlock + len) true :: c.after.tail⟩)
        else none
  else if lblk + len = ex.eeEnd ∧ len < ext4ExtGetActualLen ex then
    match c.after.tail with
    | [] => none
    | abut :: rest =>
        if ext4ExtIsUnwritten abut = false ∧ lblk + len = abut.eeBlock
            ∧ ex.eeStart + ext4ExtGetActualLen ex = abut.eeStart
            ∧ ext4ExtGetActualLen abut < extInitMaxLen - len then
          some (done ⟨c.before, ex.front lblk true
            :: Extent.withLen ⟨abut.eeBlock - len, 0, abut.eeStart - len⟩
              (ext4ExtGetActualLen abut + len) false :: rest⟩)
        else none
  else none

/-- What `ext4_ext_convert_to_initialized` zeroes, the range it splits out
then, and the number of blocks it returns. -/
structure ZeroPlan where
  tail : Option Extent
  head : Option Extent
  lblk : Nat
  len : Nat
  allocated : Nat

/-- Case 3 or 5: the blocks behind the range are zeroed. -/
def ZeroPlan.zeroTail (z : ZeroPlan) (ex : Extent) : ZeroPlan :=
  { z with
    tail := some ⟨z.lblk + z.len, z.allocated - z.len, ex.eeStart + z.lblk + z.len - ex.eeBlock⟩
    len := z.allocated }

/-- Case 2 or 5: the blocks in front of the range, of length `len`, are
zeroed. -/
def ZeroPlan.zeroHead (z : ZeroPlan) (ex : Extent) (len : Nat) : ZeroPlan :=
  { z with
    head := if z.lblk ≠ ex.eeBlock then some ⟨ex.eeBlock, z.lblk - ex.eeBlock, ex.eeStart⟩ else none
    lblk := ex.eeBlock
    len := z.len + (z.lblk - ex.eeBlock)
    allocated := len }

def zeroPlan (maxZeroout : Nat) (ex : Extent) (lblk len : Nat) : ZeroPlan :=
  let z : ZeroPlan := ⟨none, none, lblk, len, ext4ExtGetActualLen ex - (lblk - ex.eeBlock)⟩
  if maxZeroout ≠ 0 ∧ len < z.allocated then
    let z := if z.allocated ≤ maxZeroout then z.zeroTail ex else z
    if z.lblk - ex.eeBlock + z.len < maxZeroout then z.zeroHead ex len else z
  else z

/-- What the surroundings decide about `ext4_ext_convert_to_initialized`.
`maxZeroout` is `s_extent_max_zeroout_kb`, in blocks. -/
structure InitEnv (blocksize : Nat) where
  eofBlock : Nat
  maxZeroout : Nat
  encrypted : Bool
  access : Option Errno
  zeroout1 : Option Errno
  zeroout2 : Option Errno
  range : RangeEnv blocksize
  es : StatusEnv

/-- The size up to which `ext4_ext_convert_to_initialized` zeroes, if it may. -/
def InitEnv.limit (env : InitEnv blocksize) (ex : Extent) (lblk len : Nat) : Nat :=
  if mayZero env.eofBlock ex lblk len && !env.encrypted then env.maxZeroout else 0

/-- The end of `ext4_ext_convert_to_initialized`, after a split with the result
`r`: the extent status tree gets what was zeroed beside the range. -/
def recordPlan (env : InitEnv blocksize) (z : ZeroPlan) (r : RangeDone) : RangeDone :=
  let zeroed := z.tail.toList ++ z.head.toList ++ r.zeroed
  match r.res with
  | .error e => { r with res := .error e, zeroed := zeroed }
  | .ok _ =>
      let tailErr := z.tail.bind fun x => (ext4ZerooutEs (env.es.record r.recorded) x).1
      match tailErr with
      | some e =>
          { r with res := .error e, zeroed := zeroed, recorded := r.recorded ++ z.tail.toList }
      | none =>
          let recorded := r.recorded ++ z.tail.toList
          let headErr := z.head.bind fun x => (ext4ZerooutEs (env.es.record recorded) x).1
          { r with
            res := match headErr with
              | some e => .error e
              | none => .ok z.allocated
            zeroed := zeroed
            recorded := recorded ++ z.head.toList }

/-- `ext4_ext_convert_to_initialized`. -/
def ext4ExtConvertToInitialized (env : InitEnv blocksize) (preIo : Bool) (lblk len : Nat)
    (p : ExtPath) : RangeDone :=
  match p.ext with
  | none => ⟨.error .bug, p.tree, [], [], []⟩
  | some ex =>
      if ext4ExtIsUnwritten ex = false ∨ ¬ (ex.eeBlock ≤ lblk ∧ lblk < ex.eeEnd) then
        ⟨.error .bug, p.tree, [], [], []⟩
      else
        match transfer env.access lblk len p ex with
        | some r => r
        | none =>
            let z := zeroPlan (env.limit ex lblk len) ex lblk len
            match z.tail.bind fun _ => env.zeroout1, z.head.bind fun _ => env.zeroout2 with
            | some e, _ => ⟨.error e, p.tree, [], [], []⟩
            | none, some e => ⟨.error e, p.tree, [], z.tail.toList, []⟩
            | none, none =>
                recordPlan env z (ext4SplitExtent env.range
                  ⟨mayZero env.eofBlock ex lblk len, false, false, false, true⟩
                    preIo z.lblk z.len p)

end Model

/-! ## What a conversion comes to -/

/-- There is no space for the split behind the range, and the zeroes written
in its place leave out what is in front of the range. -/
def Spills {blocksize : Nat} (env : RangeEnv blocksize) (may : Bool) (p : ExtPath) (ex : Extent)
    (lblk len : Nat) : Prop :=
  env.first.Short ⟨may, true, true, true, false⟩ true p ex (lblk + len) ∧ ex.eeBlock < lblk

/-- Blocks of `ex` around the range `lblk .. stop - 1` have got the state `u`,
and all of the range if there is no error. Unless the call `spills`, every
block outside of the range that has changed became written and was zeroed; if
it does, the whole extent is written, and zeroed behind the range only. -/
structure Converts (blocksize : Nat) (m : Nat → Option (Nat × Bool)) (ex : Extent) (u : Bool)
    (lblk stop : Nat) (spills : Prop) (r : RangeDone) : Prop where
  tree_ok : r.tree.Ok blocksize
  recorded : ∀ z ∈ r.recorded, Recordable m z
  restates : ∃ lo hi, ex.eeBlock ≤ lo ∧ hi ≤ ex.eeEnd ∧ r.tree.mapping = setState m lo hi u
    ∧ ((∃ n, r.res = .ok n) → lo ≤ lblk ∧ stop ≤ hi)
    ∧ (¬ spills → ∀ x, lo ≤ x → x < hi →
        (lblk ≤ x ∧ x < stop) ∨ u = false ∧ ∃ z ∈ r.zeroed, z.eeBlock ≤ x ∧ x < z.eeEnd)
  exposes : spills → r.tree.mapping = setState m ex.eeBlock ex.eeEnd false
    ∧ ∀ z ∈ r.zeroed, stop ≤ z.eeBlock

/-- What is zeroed where zeroes take the place of a split, up to the block
`hi`. -/
structure ZeroesFor (spills : Prop) (ex : Extent) (lblk stop hi : Nat) (zs : List Extent) :
    Prop where
  stop_le : stop ≤ hi
  le_end : hi ≤ ex.eeEnd
  covers : ¬ spills → ∀ x, ex.eeBlock ≤ x → x < hi →
    (lblk ≤ x ∧ x < stop) ∨ ∃ z ∈ zs, z.eeBlock ≤ x ∧ x < z.eeEnd
  exposes : spills → hi = ex.eeEnd ∧ ∀ z ∈ zs, stop ≤ z.eeBlock

variable {zs : List Extent} {b : Nat}

section Converts

variable {blocksize : Nat} {m : Nat → Option (Nat × Bool)} {ex : Extent} {u : Bool}
  {lblk stop : Nat} {spills : Prop} {r : RangeDone}

section

variable (hrec : ∀ z ∈ r.recorded, Recordable m z) (hs : ¬ spills)

include hrec hs

theorem Converts.of_same {e : Errno} (hok : r.tree.Ok blocksize) (hex : ex.Ok)
    (hm : r.tree.mapping = m) (herr : r.res = .error e) :
    Converts blocksize m ex u lblk stop spills r := by
  have hlt := eeBlock_lt_eeEnd hex
  refine ⟨hok, hrec, ⟨ex.eeBlock, ex.eeBlock, Nat.le_refl _, Nat.le_of_lt hlt, ?_, ?_, ?_⟩,
    fun h => absurd h hs⟩
  · rw [hm, setState_of_le (Nat.le_refl _)]
  · rintro ⟨n, hn⟩
    rw [herr] at hn
    cases hn
  · intro _ x h1 h2
    omega

theorem Converts.of_marked (hok : r.tree.Ok blocksize) (hlo : ex.eeBlock ≤ lblk)
    (hhi : stop ≤ ex.eeEnd) (hm : r.tree.mapping = setState m lblk stop u) :
    Converts blocksize m ex u lblk stop spills r :=
  ⟨hok, hrec, ⟨lblk, stop, hlo, hhi, hm, fun _ => ⟨Nat.le_refl _, Nat.le_refl _⟩,
    fun _ _ h1 h2 => .inl ⟨h1, h2⟩⟩, fun h => absurd h hs⟩

end

theorem Converts.of_zeroes {hi : Nat} (hok : r.tree.Ok blocksize)
    (hrec : ∀ z ∈ r.recorded, Recordable m z) (hlo : ex.eeBlock ≤ lblk)
    (hm : r.tree.mapping = setState m ex.eeBlock hi false)
    (hz : ZeroesFor spills ex lblk stop hi r.zeroed) :
    Converts blocksize m ex false lblk stop spills r := by
  refine ⟨hok, hrec, ⟨ex.eeBlock, hi, Nat.le_refl _, hz.le_end, hm, fun _ => ⟨hlo, hz.stop_le⟩,
    fun hs x h1 h2 => (hz.covers hs x h1 h2).imp_right fun h => ⟨rfl, h⟩⟩, fun hs => ?_⟩
  obtain ⟨rfl, hzs⟩ := hz.exposes hs
  exact ⟨hm, hzs⟩

theorem exists_zeroed {lo hi x : Nat} (h : (lo, hi) ∈ zs.map Extent.bounds)
    (hx : lo ≤ x ∧ x < hi) : ∃ z ∈ zs, z.eeBlock ≤ x ∧ x < z.eeEnd := by
  obtain ⟨z, hz, hb⟩ := List.mem_map.mp h
  obtain ⟨rfl, rfl⟩ := Prod.mk.inj hb
  exact ⟨z, hz, hx⟩

variable {env : RangeEnv blocksize} {flags : SplitFlags} {preIo : Bool} {p : ExtPath} {len : Nat}

/-- The three ends of `ext4_split_extent`, and what it spills. -/
theorem RangeSpec.outcome (h : RangeSpec env flags preIo p m ex lblk len r)
    (hx : ex.eeBlock ≤ lblk ∧ lblk < ex.clip lblk len ∧ ex.clip lblk len ≤ ex.eeEnd)
    (hs : spills ↔ env.Short flags p ex lblk len ∧ flags.dataValid2 = true ∧ ex.eeBlock < lblk) :
    (¬ spills ∧ ∃ e, r.res = .error e ∧ r.tree.mapping = m)
      ∨ (¬ spills
        ∧ r.tree.mapping
          = setState m lblk (ex.clip lblk len) (ext4ExtIsUnwritten ex && flags.markUnwrit2)
        ∧ ∀ n, r.res = .ok n → preIo = true → HasPiece r.tree.extents lblk (ex.clip lblk len))
      ∨ flags.mayZeroout = true ∧ ∃ hi, r.tree.mapping = setState m ex.eeBlock hi false
        ∧ ZeroesFor spills ex lblk (ex.clip lblk len) hi r.zeroed := by
  by_cases hshort : env.Short flags p ex lblk len
  · obtain ⟨hm, hz⟩ := h.short hshort
    refine .inr (.inr ⟨hshort.may, ex.eeEnd, hm, hx.2.2, Nat.le_refl _, fun hns x h1 h2 => ?_,
      fun hsp => ⟨rfl, fun z hzm => ?_⟩⟩)
    · have hmem : zeroedBehind flags ex lblk len ∈ r.zeroed.map Extent.bounds := by
        rw [hz]
        exact List.mem_singleton_self _
      rw [zeroedBehind] at hmem
      by_cases hin : lblk ≤ x ∧ x < ex.clip lblk len
      · exact .inl hin
      · refine .inr (exists_zeroed hmem ⟨?_, h2⟩)
        split
        · rename_i hv
          have hle : ¬ ex.eeBlock < lblk := fun hlt => hns (hs.mpr ⟨hshort, hv, hlt⟩)
          omega
        · exact h1
    · have hmem : z.bounds ∈ r.zeroed.map Extent.bounds := List.mem_map_of_mem hzm
      rw [hz, List.mem_singleton, zeroedBehind, if_pos (hs.mp hsp).2.1] at hmem
      exact Nat.le_of_eq (Prod.mk.inj hmem).1.symm
  · have hns : ¬ spills := fun hsp => hshort (hs.mp hsp).1
    cases h.mapping hshort with
    | kept e err mapping => exact .inl ⟨hns, e, err, mapping⟩
    | marked mapping piece => exact .inr (.inl ⟨hns, mapping, piece⟩)
    | zeroedFront may mapping zeroes =>
      refine .inr (.inr ⟨may, _, mapping, Nat.le_refl _, hx.2.2, fun _ x h1 h2 => ?_,
        fun hsp => absurd hsp hns⟩)
      by_cases hin : lblk ≤ x
      · exact .inl ⟨hin, h2⟩
      · refine .inr (exists_zeroed zeroes ⟨h1, ?_⟩)
        split <;> omega

theorem RangeSpec.converts (h : RangeSpec env flags preIo p m ex lblk len r)
    (hx : ex.eeBlock ≤ lblk ∧ lblk < ex.clip lblk len ∧ ex.clip lblk len ≤ ex.eeEnd)
    (hs : spills ↔ env.Short flags p ex lblk len ∧ flags.dataValid2 = true ∧ ex.eeBlock < lblk)
    (hmark : flags.markUnwrit2 = false) (hex : ex.Ok) :
    Converts blocksize m ex false lblk (ex.clip lblk len) spills r := by
  rcases h.outcome hx hs with ⟨hns, e, herr, hm⟩ | ⟨hns, hm, -⟩ | ⟨-, hi, hm, hz⟩
  · exact .of_same h.recorded hns h.tree_ok hex hm herr
  · rw [hmark, Bool.and_false] at hm
    exact .of_marked h.recorded hns h.tree_ok hx.1 hx.2.2 hm
  · exact .of_zeroes h.tree_ok h.recorded hx.1 hm hz

end Converts

/-! ## Marking the range itself -/

section Mark

variable {blocksize : Nat} {t : ExtTree} {p : ExtPath} {ex : Extent} {lblk len : Nat}
  {spills : Prop}

theorem markExtent_recorded (env : MarkEnv blocksize) (u : Bool) (missing : Errno) :
    (markExtent env u missing p).recorded = [] := by
  rw [markExtent]
  split
  · rfl
  · split
    · rfl
    · split <;> rfl

/-- `ext4_ext_mark_unwritten`, where its `BUG_ON` does not apply. -/
theorem markUnwritten_spec (h : ex.Ok) (hlen : ex.eeLen % extInitMaxLen ≠ 0) :
    (ext4ExtMarkUnwritten ex).Ok ∧ (ext4ExtMarkUnwritten ex).eeEnd = ex.eeEnd
      ∧ ext4ExtIsUnwritten (ext4ExtMarkUnwritten ex) = true := by
  cases hu : ext4ExtIsUnwritten ex with
  | true =>
    rw [markUnwritten_of_unwritten h hu]
    exact ⟨h, rfl, hu⟩
  | false =>
    have hle : ex.eeLen ≤ extInitMaxLen := Nat.le_of_not_lt (of_decide_eq_false hu)
    have hactual : ext4ExtGetActualLen ex = ex.eeLen := if_pos hle
    have hlt : ex.eeLen < extInitMaxLen := by
      refine Nat.lt_of_le_of_ne hle fun heq => hlen ?_
      rw [heq, Nat.mod_self]
    have hpos := h.len_pos
    have hend := h.end_le
    rw [Extent.eeEnd, hactual] at hend
    rw [hactual] at hpos
    have hmax : ex.eeLen ≤ maxLen true := by
      show ex.eeLen ≤ extUnwrittenMaxLen
      rw [extUnwrittenMaxLen]
      omega
    have hmark : ext4ExtMarkUnwritten ex = ex.withLen ex.eeLen true := rfl
    rw [hmark]
    refine ⟨withLen_ok hpos hmax hend, ?_, withLen_unwritten hpos hmax⟩
    rw [withLen_eeEnd hpos hmax, Extent.eeEnd, hactual]

theorem markExtent_cases (env : MarkEnv blocksize) (u : Bool) (missing : Errno)
    (ht : t.Ok blocksize) (h : Found t lblk p) (hext : p.ext = some ex) :
    (markExtent env u missing p).tree.Ok blocksize
      ∧ ((∃ e, (markExtent env u missing p).res = .error e
          ∧ (markExtent env u missing p).tree.mapping = t.mapping)
        ∨ (markExtent env u missing p).tree.mapping
          = setState t.mapping ex.eeBlock ex.eeEnd u) := by
  obtain ⟨rest, hafter⟩ := List.head?_eq_some_iff.mp hext
  have hex := ht.extents_ok ex (h.ext_mem hext)
  rw [markExtent, hext]
  have hsame : p.tree.Ok blocksize ∧ p.tree.mapping = t.mapping := ⟨h.ok ht, h.mapping_eq⟩
  cases env.access with
  | some e => exact ⟨hsame.1, .inl ⟨e, rfl, hsame.2⟩⟩
  | none =>
    dsimp only
    split
    · exact ⟨hsame.1, .inl ⟨.bug, rfl, hsame.2⟩⟩
    · rename_i hbug
      generalize hy' : (if u = true then ext4ExtMarkUnwritten ex else ext4ExtMarkInitialized ex) = y
      have hy : y.Ok ∧ y.eeBlock = ex.eeBlock ∧ y.eeEnd = ex.eeEnd ∧ y.eeStart = ex.eeStart
          ∧ ext4ExtIsUnwritten y = u := by
        cases u with
        | true =>
          rw [if_pos rfl] at hy'
          obtain ⟨h1, h2, h3⟩ := markUnwritten_spec hex fun hlen => hbug ⟨rfl, hlen⟩
          rw [← hy']
          exact ⟨h1, rfl, h2, rfl, h3⟩
        | false =>
          rw [if_neg Bool.false_ne_true] at hy'
          obtain ⟨h1, h2, h3⟩ := initialized_spec (y := ext4ExtMarkInitialized ex) hex rfl rfl
          rw [← hy']
          exact ⟨h1, rfl, h2, rfl, h3⟩
      obtain ⟨hyok, hyb, hye, hys, hyu⟩ := hy
      have hflat := flat_of_after hafter
      have hes := hsame.1.around hafter
      obtain ⟨h1, h2⟩ := remark_spec (q := p) env.merge hsame.1 hflat hafter hes hyok rfl hyb hye
        hys
      rw [← hflat, h.extents_eq_flat, hyu] at h2
      exact ⟨h1, .inr h2⟩

/-- The range is marked after it was split out, which keeps its state unless
zeroes were written. -/
theorem markExtent_after_split (env : MarkEnv blocksize) {u : Bool} (missing : Errno) {q : ExtPath}
    {m : Nat → Option (Nat × Bool)} {stop : Nat} {freed : List Nat} {recorded : List Extent}
    (ht : t.Ok blocksize) (hrec : ∀ z ∈ recorded, Recordable m z) (h : Found t lblk q)
    (hx : ex.eeBlock ≤ lblk ∧ lblk < stop ∧ stop ≤ ex.eeEnd) (hex : ex.Ok)
    (hsplit : (¬ spills ∧ t.mapping = m ∧ HasPiece t.extents lblk stop)
      ∨ u = false ∧ ∃ hi v, t.mapping = setState m ex.eeBlock hi false
        ∧ t.mapping lblk = some (v, false) ∧ ZeroesFor spills ex lblk stop hi zs) :
    Converts blocksize m ex u lblk stop spills
      { markExtent env u missing q with
        freed := freed ++ (markExtent env u missing q).freed
        zeroed := zs
        recorded := recorded } := by
  rcases hsplit with ⟨hns, hm, y, hy, hyb, hye⟩ | ⟨rfl, hi, v, hm, hv, hz⟩
  · have hext := h.ext_eq ht hy (by omega)
    obtain ⟨hok, ⟨e, herr, hsame⟩ | hmark⟩ := markExtent_cases env u missing ht h hext
    · exact .of_same hrec hns hok hex (hsame.trans hm) herr
    · rw [hyb, hye, hm] at hmark
      exact .of_marked hrec hns hok hx.1 hx.2.2 hmark
  · obtain ⟨y, hy, hcov, hval⟩ := blockView.get_eq_some_mem hv
    have hu : ext4ExtIsUnwritten y = false := congrArg Prod.snd hval
    have hext := h.ext_eq ht hy hcov
    obtain ⟨hok, hcase⟩ := markExtent_cases env false missing ht h hext
    -- the extent is written already, so that marking it changes nothing
    have hsame : (markExtent env false missing q).tree.mapping = t.mapping := by
      rcases hcase with ⟨-, -, hsame⟩ | hmark
      · exact hsame
      · have hself := ht.setState_self hy (Nat.le_refl y.eeBlock) (Nat.le_refl y.eeEnd)
        rw [hu] at hself
        exact hmark.trans hself
    exact .of_zeroes hok hrec hx.1 (hsame.trans hm) hz

theorem markRange_spec (env : MarkEnv blocksize) {u : Bool} (missing : Errno)
    (hbs : 1024 ≤ blocksize) (ht : t.Ok blocksize) (h : Found t lblk p) (hext : p.ext = some ex)
    (hx : ex.eeBlock ≤ lblk ∧ lblk < ex.eeEnd) (hlen : 0 < len) (hu : ext4ExtIsUnwritten ex = !u)
    (hj : env.range.Calm ∨ ∃ n, (markRange env u missing lblk len p).res = .ok n) :
    Converts blocksize t.mapping ex u lblk (ex.clip lblk len)
      (Spills env.range (mayZero env.eofBlock ex lblk len) p ex lblk len)
      (markRange env u missing lblk len p) := by
  have hmem := h.ext_mem hext
  have hex := ht.extents_ok ex hmem
  have hclip : ex.eeBlock ≤ lblk ∧ lblk < ex.clip lblk len ∧ ex.clip lblk len ≤ ex.eeEnd := by
    rw [Extent.clip]
    omega
  rw [markRange, hext] at hj ⊢
  dsimp only at hj ⊢
  by_cases hsplit : ex.eeBlock ≠ lblk ∨ len < ext4ExtGetActualLen ex
  · rw [if_pos hsplit] at hj ⊢
    rw [ext4SplitConvertExtents, hext] at hj ⊢
    generalize hflags : (if u = true then (⟨false, false, false, true, false⟩ : SplitFlags)
      else ⟨mayZero env.eofBlock ex lblk len, false, true, false, true⟩) = flags at hj ⊢
    have hmark : (ext4ExtIsUnwritten ex && flags.markUnwrit2) = ext4ExtIsUnwritten ex := by
      rw [← hflags, hu]
      cases u <;> rfl
    have hmay : flags.mayZeroout = true → u = false := by
      rw [← hflags]
      cases u with
      | true => simp
      | false => exact fun _ => rfl
    have hspills : Spills env.range (mayZero env.eofBlock ex lblk len) p ex lblk len
        ↔ env.range.Short flags p ex lblk len ∧ flags.dataValid2 = true ∧ ex.eeBlock < lblk := by
      cases u with
      | true =>
        rw [← hflags]
        refine iff_of_false (fun hs => ?_) fun hs => ?_
        · have hw := hs.1.unwritten
          rw [hu] at hw
          cases hw
        · cases hs.2.1
      | false =>
        rw [Spills, RangeEnv.Short, hu, ← hflags]
        exact ⟨fun hs => ⟨hs.1, rfl, hs.2⟩, fun hs => ⟨hs.1, hs.2.2⟩⟩
    have hj' : env.range.Calm
        ∨ ∃ n, (ext4SplitExtent env.range flags true lblk len p).res = .ok n := by
      refine hj.imp_right ?_
      rintro ⟨n, hn⟩
      split at hn
      · cases hn
      · rename_i n' hn'
        exact ⟨n', hn'⟩
    have hspec := splitExtent_spec env.range flags true hbs ht h hext hx hlen hj'
    have hcases := hspec.outcome hclip hspills
    rw [hmark, ht.setState_self hmem hclip.1 hclip.2.2] at hcases
    generalize ext4SplitExtent env.range flags true lblk len p = r at hspec hcases
    obtain ⟨res, t', freed, zs, recorded⟩ := r
    -- an error on the way: the state is that of the split
    have herror : ∀ e, Converts blocksize t.mapping ex u lblk (ex.clip lblk len)
        (Spills env.range (mayZero env.eofBlock ex lblk len) p ex lblk len)
        ⟨.error e, t', freed, zs, recorded⟩ := by
      intro e
      rcases hcases with ⟨hns, -, -, hm⟩ | ⟨hns, hm, -⟩ | ⟨may, hi, hm, hz⟩
      · exact .of_same hspec.recorded hns hspec.tree_ok hex hm rfl
      · exact .of_same hspec.recorded hns hspec.tree_ok hex hm rfl
      · obtain rfl := hmay may
        exact .of_zeroes hspec.tree_ok hspec.recorded hclip.1 hm hz
    cases res with
    | error e => exact herror e
    | ok n =>
      cases hfind : findExtent env.readErr t' lblk with
      | error e => exact herror e
      | ok q =>
        refine markExtent_after_split env missing hspec.tree_ok hspec.recorded
          (findExtent_found hspec.tree_ok hfind) hclip hex ?_
        rcases hcases with ⟨-, e, herr, -⟩ | ⟨hns, hm, hpiece⟩ | ⟨may, hi, hm, hz⟩
        · cases herr
        · exact .inl ⟨hns, hm, hpiece n rfl rfl⟩
        · obtain rfl := hmay may
          refine .inr ⟨rfl, hi, ex.eeStart + (lblk - ex.eeBlock), hm, ?_, hz⟩
          have hle := hz.stop_le
          rw [hm, setState_of_mem ⟨hclip.1, by omega⟩, mapping_of_mem ht hmem hx]
          rfl
  · rw [if_neg hsplit]
    have hwhole : lblk = ex.eeBlock ∧ ex.clip lblk len = ex.eeEnd := by
      rw [Extent.clip, Extent.eeEnd]
      omega
    have hns : ¬ Spills env.range (mayZero env.eofBlock ex lblk len) p ex lblk len := fun hs =>
      absurd hs.2 (by omega)
    have hrec : ∀ z ∈ (markExtent env u missing p).recorded, Recordable t.mapping z := by
      rw [markExtent_recorded]
      exact fun z hz => absurd hz List.not_mem_nil
    obtain ⟨hok, ⟨e, herr, hsame⟩ | hmark⟩ := markExtent_cases env u missing ht h hext
    · exact .of_same hrec hns hok hex hsame herr
    · refine .of_marked hrec hns hok hclip.1 hclip.2.2 ?_
      rw [hmark, hwhole.2, hwhole.1]

end Mark

/-! ## Giving the range to a neighbour -/

section Transfer

variable {blocksize d : Nat} {path : Path Extent d} {ex front back abut : Extent}
  {split : Nat} {A B : List Extent}

theorem Pieces.both (h : Pieces ex front back split) (hes : ExtentsOk (A ++ ex :: B)) :
    ExtentsOk (A ++ front :: back :: B)
      ∧ mapping (A ++ front :: back :: B) = setState (setState (mapping (A ++ ex :: B)) ex.eeBlock
        split (ext4ExtIsUnwritten front)) split ex.eeEnd (ext4ExtIsUnwritten back) := by
  have hgap := h.gap hes
  have hins : Inserts back (A ++ front :: B) (A ++ front :: back :: B) :=
    ⟨A ++ [front], B, by simp, hgap, by simpa using Merges.refl _⟩
  refine ⟨?_, h.mapping_eq hes hins⟩
  simpa using hgap.extentsOk h.back_ok (by simpa using h.shorten hes)

/-- With the leaf `c` the tree is in order, and `ex` is cut in two pieces with
states of their own. -/
def Recuts (blocksize : Nat) (path : Path Extent d) (ex front back : Extent) (split : Nat)
    (c : Cut Extent) : Prop :=
  ExtTree.Ok blocksize ⟨d, close d (setLeaf d path c)⟩
    ∧ ExtTree.mapping ⟨d, close d (setLeaf d path c)⟩
      = setState (setState (mapping (flat d (close d path))) ex.eeBlock split
        (ext4ExtIsUnwritten front)) split ex.eeEnd (ext4ExtIsUnwritten back)

section

variable (ht : ExtTree.Ok blocksize ⟨d, close d path⟩) {before rest : List Extent}
  (h : Pieces ex front back split)

include ht h

/-- A leaf may be replaced by one in which pieces of its extents are merged. -/
theorem recuts_of_merges {c : Cut Extent} (hleaf : leaf d path = ⟨before, ex :: rest⟩)
    (hm : Merges (left d path ++ before ++ front :: back :: (rest ++ right d path))
      (left d path ++ c.toList ++ right d path)) (hne : c.toList ≠ [])
    (hfirst : c.toList.head?.map Extent.eeBlock = (before ++ [ex]).head?.map Extent.eeBlock)
    (hlen : c.toList.length ≤ (before ++ ex :: rest).length) :
    Recuts blocksize path ex front back split c := by
  have hflat := flat_of_after (show (leaf d path).after = ex :: rest by rw [hleaf])
  have hes := ht.extentsOk
  rw [ExtTree.extents, hflat, hleaf] at hes
  obtain ⟨hboth, hmap⟩ := h.both hes
  refine ⟨ht.setLeaf hne ?_ (by rwa [hleaf]) (hm.extentsOk hboth), ?_⟩
  · rw [hfirst, hleaf]
    cases before <;> rfl
  · show mapping (flat d (close d (setLeaf d path c))) = _
    rw [hflat, hleaf, ← hmap, flat_setLeaf, hm.mapping_eq hboth.ok]

theorem giveLeft_spec (hleaf : leaf d path = ⟨before ++ [abut], ex :: rest⟩)
    (hm : Mergeable abut front) :
    Recuts blocksize path ex front back split ⟨before, abut.append front :: back :: rest⟩ := by
  refine recuts_of_merges ht h hleaf ?_ (by simp [Cut.toList]) ?_ (by simp [Cut.toList])
  · have hstep : Merges ((left d path ++ before) ++ abut :: front :: (back :: rest ++ right d path))
        ((left d path ++ before) ++ abut.append front :: (back :: rest ++ right d path)) :=
      .step hm (.refl _)
    simpa [Cut.toList] using hstep
  · cases before with
    | nil => exact congrArg some (append_eeBlock abut front)
    | cons x xs => rfl

theorem giveRight_spec (hleaf : leaf d path = ⟨before, ex :: abut :: rest⟩)
    (hm : Mergeable back abut) :
    Recuts blocksize path ex front back split ⟨before, front :: back.append abut :: rest⟩ := by
  refine recuts_of_merges ht h hleaf ?_ (by simp [Cut.toList]) ?_ (by simp [Cut.toList])
  · have hstep : Merges
        ((left d path ++ before ++ [front]) ++ back :: abut :: (rest ++ right d path))
        ((left d path ++ before ++ [front]) ++ back.append abut :: (rest ++ right d path)) :=
      .step hm (.refl _)
    simpa [Cut.toList] using hstep
  · cases before with
    | nil => exact congrArg some h.front_block
    | cons x xs => rfl

end

end Transfer

section Initialize

variable {blocksize : Nat} {t : ExtTree} {p : ExtPath} {ex : Extent} {lblk len : Nat}

/-- Neither side of the range is small enough to be zeroed. -/
def Large (maxZeroout : Nat) (ex : Extent) (lblk len : Nat) : Prop :=
  maxZeroout = 0 ∨ maxZeroout < ex.eeEnd - lblk ∧ maxZeroout ≤ lblk - ex.eeBlock + len

/-- `y` is a stretch of the blocks of `ex`. -/
structure Extent.Holds (ex y : Extent) : Prop where
  ok : y.Ok
  le_block : ex.eeBlock ≤ y.eeBlock
  end_le : y.eeEnd ≤ ex.eeEnd
  start : y.eeStart = ex.eeStart + (y.eeBlock - ex.eeBlock)

/-- What the plan for zeroing guarantees: the range split out holds the one
asked for, and what it holds beside it is zeroed. -/
structure ZeroPlan.For (z : ZeroPlan) (ex : Extent) (lblk len : Nat) : Prop where
  inside : ex.eeBlock ≤ z.lblk ∧ z.lblk < ex.eeEnd
  len_pos : 0 < z.len
  holds : z.lblk ≤ lblk ∧ ex.clip lblk len ≤ ex.clip z.lblk z.len
  count : min z.allocated len = ex.clip lblk len - lblk
  stretches : ∀ y ∈ z.tail.toList ++ z.head.toList, ex.Holds y
  zeroes : ∀ x, z.lblk ≤ x → x < ex.clip z.lblk z.len → (lblk ≤ x ∧ x < ex.clip lblk len)
    ∨ ∃ y ∈ z.tail.toList ++ z.head.toList, y.eeBlock ≤ x ∧ x < y.eeEnd

theorem eeEnd_of_le {l : Nat} (s : Nat) (h : l ≤ extInitMaxLen) : Extent.eeEnd ⟨b, l, s⟩ = b + l :=
  congrArg (b + ·) (if_pos h)

theorem Extent.Holds.of_le {l : Nat} (hex : ex.Ok) (hb : ex.eeBlock ≤ b) (hl : 0 < l)
    (hend : b + l ≤ ex.eeEnd) : ex.Holds ⟨b, l, ex.eeStart + (b - ex.eeBlock)⟩ := by
  have hle := actualLen_le hex
  have hmax := hex.end_le
  have hl' : l ≤ extInitMaxLen := by
    rw [Extent.eeEnd] at hend
    omega
  have hend' := eeEnd_of_le (b := b) (ex.eeStart + (b - ex.eeBlock)) hl'
  refine ⟨⟨?_, ?_, ?_⟩, hb, ?_, rfl⟩
  · show 0 < if l ≤ extInitMaxLen then l else l - extInitMaxLen
    rw [if_pos hl']
    exact hl
  · exact Nat.lt_of_le_of_lt hl' (by decide)
  · rw [hend']
    omega
  · rw [hend']
    exact hend

theorem Extent.Holds.recordable {y : Extent} (h : ex.Holds y) (ht : t.Ok blocksize)
    (hmem : ex ∈ t.extents) : Recordable t.mapping y := by
  have hlt := eeBlock_lt_eeEnd h.ok
  have hend := h.end_le
  refine ⟨h.ok, ?_⟩
  rw [mapping_of_mem ht hmem ⟨h.le_block, by omega⟩, h.start]
  rfl

theorem ZeroPlan.For.plain (hx : ex.eeBlock ≤ lblk ∧ lblk < ex.eeEnd) (hlen : 0 < len) :
    ZeroPlan.For ⟨none, none, lblk, len, ext4ExtGetActualLen ex - (lblk - ex.eeBlock)⟩
      ex lblk len := by
  refine ⟨hx, hlen, ⟨Nat.le_refl _, Nat.le_refl _⟩, ?_, fun y hy => absurd hy List.not_mem_nil,
    fun x h1 h2 => .inl ⟨h1, h2⟩⟩
  show min (ext4ExtGetActualLen ex - (lblk - ex.eeBlock)) len = _
  rw [Extent.clip, Extent.eeEnd] at *
  omega

theorem ZeroPlan.For.tail (hex : ex.Ok) (hx : ex.eeBlock ≤ lblk ∧ lblk < ex.eeEnd)
    (hrest : len < ext4ExtGetActualLen ex - (lblk - ex.eeBlock)) :
    ZeroPlan.For (ZeroPlan.zeroTail
      ⟨none, none, lblk, len, ext4ExtGetActualLen ex - (lblk - ex.eeBlock)⟩ ex) ex lblk len := by
  have hle := actualLen_le hex
  have hend : ex.eeEnd = ex.eeBlock + ext4ExtGetActualLen ex := rfl
  have hclip : ex.clip lblk len = lblk + len := Nat.min_eq_left (by omega)
  have hall : ex.clip lblk (ext4ExtGetActualLen ex - (lblk - ex.eeBlock)) = ex.eeEnd :=
    Nat.min_eq_right (by omega)
  refine ⟨hx, Nat.zero_lt_of_lt hrest, ⟨Nat.le_refl _, ?_⟩, ?_, fun y hy => ?_, fun x h1 h2 => ?_⟩
  · show _ ≤ ex.clip lblk (ext4ExtGetActualLen ex - (lblk - ex.eeBlock))
    omega
  · show min (ext4ExtGetActualLen ex - (lblk - ex.eeBlock)) len = _
    omega
  · obtain rfl := List.mem_singleton.mp hy
    have hstretch := Extent.Holds.of_le (b := lblk + len) hex (by omega) (Nat.sub_pos_of_lt hrest)
      (by omega)
    rwa [show ex.eeStart + (lblk + len - ex.eeBlock)
      = ex.eeStart + lblk + len - ex.eeBlock by omega]
      at hstretch
  · have h2' : x < ex.eeEnd := hall ▸ h2
    rw [hclip]
    by_cases hhi : x < lblk + len
    · exact .inl ⟨h1, hhi⟩
    · refine .inr ⟨_, List.mem_singleton_self _, Nat.le_of_not_lt hhi, ?_⟩
      rw [eeEnd_of_le _ (by show ext4ExtGetActualLen ex - (lblk - ex.eeBlock) - len ≤ _; omega)]
      show x < lblk + len + (ext4ExtGetActualLen ex - (lblk - ex.eeBlock) - len)
      omega

theorem ZeroPlan.For.head {z : ZeroPlan} (h : z.For ex lblk len) (hex : ex.Ok)
    (hrest : len < ext4ExtGetActualLen ex - (lblk - ex.eeBlock)) (hlblk : z.lblk = lblk)
    (hhead : z.head = none) : (z.zeroHead ex len).For ex lblk len := by
  have hle := actualLen_le hex
  have hpos := eeBlock_lt_eeEnd hex
  have hend : ex.eeEnd = ex.eeBlock + ext4ExtGetActualLen ex := rfl
  have hin := h.inside
  have hclip : ex.clip (z.zeroHead ex len).lblk (z.zeroHead ex len).len = ex.clip z.lblk z.len := by
    show min (ex.eeBlock + (z.len + (z.lblk - ex.eeBlock))) ex.eeEnd = min (z.lblk + z.len) ex.eeEnd
    rw [show ex.eeBlock + (z.len + (z.lblk - ex.eeBlock)) = z.lblk + z.len by omega]
  refine ⟨⟨Nat.le_refl _, hpos⟩, Nat.add_pos_left h.len_pos _, ⟨?_, ?_⟩, ?_,
    fun y hy => ?_, fun x h1 h2 => ?_⟩
  · show ex.eeBlock ≤ lblk
    omega
  · rw [hclip]
    exact h.holds.2
  · show min len len = _
    rw [Extent.clip]
    omega
  · rcases List.mem_append.mp hy with hy | hy
    · exact h.stretches y (List.mem_append_left _ hy)
    · have hy' : y ∈ (if z.lblk ≠ ex.eeBlock then
          some ⟨ex.eeBlock, z.lblk - ex.eeBlock, ex.eeStart⟩ else none : Option Extent).toList := hy
      split at hy'
      · obtain rfl := List.mem_singleton.mp hy'
        have hstart := Extent.Holds.of_le hex (Nat.le_refl ex.eeBlock)
          (l := z.lblk - ex.eeBlock) (by omega) (by omega)
        rwa [Nat.sub_self, Nat.add_zero] at hstart
      · cases hy'
  · rw [hclip] at h2
    by_cases hlo : z.lblk ≤ x
    · rcases h.zeroes x hlo h2 with hin | ⟨y, hy, hxy⟩
      · exact .inl hin
      · rw [hhead, Option.toList_none, List.append_nil] at hy
        exact .inr ⟨y, List.mem_append_left _ hy, hxy⟩
    · refine .inr ⟨⟨ex.eeBlock, z.lblk - ex.eeBlock, ex.eeStart⟩, List.mem_append_right _ ?_, h1,
        ?_⟩
      · show _ ∈ (if z.lblk ≠ ex.eeBlock then _ else _ : Option Extent).toList
        have h1' : ex.eeBlock ≤ x := h1
        rw [if_pos (by omega)]
        exact List.mem_singleton_self _
      · rw [eeEnd_of_le _ (by omega)]
        omega

theorem zeroPlan_for (maxZeroout : Nat) (hex : ex.Ok) (hx : ex.eeBlock ≤ lblk ∧ lblk < ex.eeEnd)
    (hlen : 0 < len) : (zeroPlan maxZeroout ex lblk len).For ex lblk len := by
  rw [zeroPlan]
  dsimp only
  split
  · rename_i hrest
    generalize hz : (if ext4ExtGetActualLen ex - (lblk - ex.eeBlock) ≤ maxZeroout then _ else _) = z
    have hfor : z.For ex lblk len ∧ z.lblk = lblk ∧ z.head = none := by
      rw [← hz]
      split
      · exact ⟨.tail hex hx hrest.2, rfl, rfl⟩
      · exact ⟨.plain hx hlen, rfl, rfl⟩
    split
    · exact hfor.1.head hex hrest.2 hfor.2.1 hfor.2.2
    · exact hfor.1
  · exact .plain hx hlen

variable {r : RangeDone}

/-- The plan leaves the range as it is if both sides of it are large, and only
then does a part of the extent stay in front of and behind what it splits out. -/
theorem zeroPlan_large (maxZeroout : Nat) (hx : ex.eeBlock ≤ lblk ∧ lblk < ex.eeEnd)
    (hl : Large maxZeroout ex lblk len) :
    zeroPlan maxZeroout ex lblk len
      = ⟨none, none, lblk, len, ext4ExtGetActualLen ex - (lblk - ex.eeBlock)⟩ := by
  have hend : ex.eeEnd = ex.eeBlock + ext4ExtGetActualLen ex := rfl
  rw [zeroPlan]
  dsimp only
  rcases hl with hl | hl
  · rw [if_neg fun h => h.1 hl]
  · rw [if_neg (show ¬ _ ≤ maxZeroout by omega), if_neg (Nat.not_lt.mpr hl.2), ite_self]

theorem large_of_zeroPlan (maxZeroout : Nat) (hx : ex.eeBlock ≤ lblk ∧ lblk < ex.eeEnd)
    (h1 : ex.eeBlock < (zeroPlan maxZeroout ex lblk len).lblk)
    (h2 : (zeroPlan maxZeroout ex lblk len).lblk + (zeroPlan maxZeroout ex lblk len).len
    < ex.eeEnd) :
    Large maxZeroout ex lblk len := by
  have hend : ex.eeEnd = ex.eeBlock + ext4ExtGetActualLen ex := rfl
  by_contra hl
  rw [Large, not_or] at hl
  rw [zeroPlan] at h1 h2
  dsimp only at h1 h2
  by_cases hrest : maxZeroout ≠ 0 ∧ len < ext4ExtGetActualLen ex - (lblk - ex.eeBlock)
  · rw [if_pos hrest] at h1 h2
    by_cases htail : ext4ExtGetActualLen ex - (lblk - ex.eeBlock) ≤ maxZeroout
    · rw [if_pos htail] at h1 h2
      split at h1
      · exact Nat.lt_irrefl _ h1
      · rename_i hhead
        rw [if_neg hhead] at h2
        have h2' : lblk + (ext4ExtGetActualLen ex - (lblk - ex.eeBlock)) < ex.eeEnd := h2
        omega
    · rw [if_neg htail] at h1
      split at h1
      · exact Nat.lt_irrefl _ h1
      · rename_i hhead
        exact hl.2 ⟨by omega, Nat.le_of_not_lt hhead⟩
  · rw [if_neg hrest] at h2
    have h2' : lblk + len < ex.eeEnd := h2
    exact hrest ⟨hl.1, by omega⟩

/-- A wider range that holds the one asked for, the rest of it zeroed. -/
theorem Converts.widen {m : Nat → Option (Nat × Bool)} {lblk' stop stop' : Nat} {spills : Prop}
    {res : Except Errno Nat} {rec : List Extent}
    (h : Converts blocksize m ex false lblk' stop' spills r) (hin : lblk' ≤ lblk ∧ stop ≤ stop')
    (hs : spills → zs = []) (hres : ∀ n, res = .ok n → ∃ n', r.res = .ok n')
    (hrec : ∀ z ∈ rec, Recordable m z)
    (hz : ∀ x, lblk' ≤ x → x < stop' → (lblk ≤ x ∧ x < stop)
      ∨ ∃ y ∈ zs, y.eeBlock ≤ x ∧ x < y.eeEnd) :
    Converts blocksize m ex false lblk stop spills
      { r with res := res, zeroed := zs ++ r.zeroed, recorded := rec } := by
  obtain ⟨lo, hi, h1, h2, h3, h4, h5⟩ := h.restates
  refine ⟨h.tree_ok, hrec, ⟨lo, hi, h1, h2, h3, ?_, fun hns x hlo hhi => ?_⟩, fun hsp => ?_⟩
  · rintro ⟨n, hn⟩
    have hwide := h4 (hres n hn)
    omega
  · rcases h5 hns x hlo hhi with hx | ⟨hu, z, hmem, hx⟩
    · refine (hz x hx.1 hx.2).imp_right ?_
      rintro ⟨y, hy, hxy⟩
      exact ⟨rfl, y, List.mem_append_left _ hy, hxy⟩
    · exact .inr ⟨hu, z, List.mem_append_right _ hmem, hx⟩
  · obtain ⟨hm, hzs⟩ := h.exposes hsp
    refine ⟨hm, fun z hmem => ?_⟩
    rw [hs hsp] at hmem
    exact Nat.le_trans hin.2 (hzs z hmem)

/-- What `recordPlan` adds to a split. -/
theorem recordPlan_spec (env : InitEnv blocksize) (z : ZeroPlan) (r : RangeDone) :
    ∃ res rec, recordPlan env z r
        = { r with
            res := res, zeroed := z.tail.toList ++ z.head.toList ++ r.zeroed, recorded := rec }
      ∧ (∀ n, res = .ok n → (∃ n', r.res = .ok n') ∧ n = z.allocated)
      ∧ ∀ y ∈ rec, y ∈ r.recorded ∨ y ∈ z.tail.toList ++ z.head.toList := by
  rw [recordPlan]
  dsimp only
  split
  · exact ⟨_, _, rfl, fun n hn => (by cases hn), fun y hy => .inl hy⟩
  · rename_i n' hn'
    split
    · refine ⟨_, _, rfl, fun n hn => (by cases hn), fun y hy => ?_⟩
      exact (List.mem_append.mp hy).imp_right (List.mem_append_left _)
    · refine ⟨_, _, rfl, fun n hn => ?_, fun y hy => ?_⟩
      · split at hn
        · cases hn
        · exact ⟨⟨n', hn'⟩, (Except.ok.inj hn).symm⟩
      · rw [List.append_assoc] at hy
        exact List.mem_append.mp hy

/-- The path of a lookup is that of every block in front of it in the extent. -/
theorem Found.earlier {b' : Nat} (h : Found t b p) (hext : p.ext = some ex)
    (hb : ex.eeBlock ≤ b' ∧ b' ≤ b) : Found t b' p := by
  obtain ⟨rest, hafter⟩ := List.head?_eq_some_iff.mp hext
  refine ⟨h.tree_eq, h.depth_le, fun x hx => ?_, fun y hy hlow => ?_, h.located.empty⟩
  · exact Nat.lt_of_le_of_lt hb.2 (h.located.high x hx)
  · rw [hafter] at hy
    cases hy
    exact absurd hlow (Nat.not_lt.mpr hb.1)

/-- Only a split inside the extent spills, which no neighbour can stand in
for. -/
theorem transfer_of_inside {access : Option Errno} (h1 : ex.eeBlock < lblk)
    (h2 : lblk + len < ex.eeEnd) : transfer access lblk len p ex = none := by
  rw [transfer]
  rw [if_neg fun hc => Nat.ne_of_gt h1 hc.1, if_neg fun hc => Nat.ne_of_lt h2 hc.1]

theorem transfer_recorded {access : Option Errno} (hr : transfer access lblk len p ex = some r) :
    r.recorded = [] := by
  rw [transfer] at hr
  split at hr
  · split at hr
    · cases hr
    · split at hr
      · rw [← Option.some.inj hr]
        split <;> rfl
      · cases hr
  · split at hr
    · split at hr
      · cases hr
      · split at hr
        · rw [← Option.some.inj hr]
          split <;> rfl
        · cases hr
    · cases hr

variable (ht : t.Ok blocksize) (h : Found t lblk p) (hext : p.ext = some ex)
  (hun : ext4ExtIsUnwritten ex = true) (hx : ex.eeBlock ≤ lblk ∧ lblk < ex.eeEnd) (hlen : 0 < len)

include ht h hext hun hx hlen

theorem transfer_spec {access : Option Errno} (hr : transfer access lblk len p ex = some r) :
    r.tree.Ok blocksize
      ∧ ((∃ e, r.res = .error e ∧ r.tree.mapping = t.mapping)
        ∨ r.res = .ok len ∧ lblk + len ≤ ex.eeEnd
          ∧ r.tree.mapping = setState t.mapping lblk (lblk + len) false) := by
  obtain ⟨rest, hafter⟩ := List.head?_eq_some_iff.mp hext
  have hmem := h.ext_mem hext
  have hex := ht.extents_ok ex hmem
  have hp := h.ok ht
  have hm : mapping (flat p.depth (close p.depth p.path)) = t.mapping := h.mapping_eq
  have hpieces := fun split u1 u2 (hlt : ex.eeBlock < split) (hend : split < ex.eeEnd) =>
    pieces hex hlt hend fun h0 => show (u1 || u2) = false from nomatch hun.symm.trans h0
  have hself : ∀ lo hi, ex.eeBlock ≤ lo → hi ≤ ex.eeEnd →
      setState t.mapping lo hi true = t.mapping := by
    intro lo hi hlo hhi
    rw [← hun]
    exact ht.setState_self hmem hlo hhi
  have hend : ex.eeEnd = ex.eeBlock + ext4ExtGetActualLen ex := rfl
  rw [transfer] at hr
  split at hr
  · -- to the extent in front
    rename_i hcond
    split at hr
    · nomatch hr
    · rename_i abut hlast
      split at hr
      · rename_i habut
        obtain ⟨before, hbefore⟩ := List.getLast?_eq_some_iff.mp hlast
        obtain rfl := Option.some.inj hr
        cases access with
        | some e => exact ⟨hp, .inl ⟨e, rfl, hm⟩⟩
        | none =>
          obtain ⟨hh, hu1, hu2⟩ := hpieces (ex.eeBlock + len) false true (by omega) (by omega)
          have hleaf : leaf p.depth p.path = ⟨before ++ [abut], ex :: rest⟩ := by
            rw [← hafter, ← hbefore]
          have hflen := hh.actualLen.1
          have hmerge : Mergeable abut (ex.front (ex.eeBlock + len) false) := by
            refine ⟨habut.1.trans hu1.symm, habut.2.1.trans hh.front_block.symm, ?_,
              habut.2.2.1.trans hh.front_start.symm⟩
            rw [habut.1, hflen]
            show _ ≤ extInitMaxLen
            omega
          have happend : abut.append (ex.front (ex.eeBlock + len) false)
              = abut.withLen (ext4ExtGetActualLen abut + len) false := by
            rw [Extent.append, habut.1, hflen, Nat.add_sub_cancel_left]
          obtain ⟨h1, h2⟩ := giveLeft_spec hp hh hleaf hmerge
          rw [happend, hu1, hu2, hm, setState_comm (Nat.le_refl _),
            hself _ _ (by omega) (Nat.le_refl _)] at h2
          rw [happend] at h1
          rw [hbefore, hafter, List.dropLast_concat, hcond.1]
          exact ⟨h1, .inr ⟨rfl, by omega, h2⟩⟩
      · nomatch hr
  · split at hr
    · -- to the extent behind
      rename_i hcond
      split at hr
      · nomatch hr
      · rename_i abut rest' htail
        split at hr
        · rename_i habut
          obtain rfl := Option.some.inj hr
          cases access with
          | some e => exact ⟨hp, .inl ⟨e, rfl, hm⟩⟩
          | none =>
            obtain ⟨hh, hu1, hu2⟩ := hpieces lblk true false (by omega) (by omega)
            rw [hafter, List.tail_cons] at htail
            subst htail
            have hleaf : leaf p.depth p.path
                = ⟨(leaf p.depth p.path).before, ex :: abut :: rest'⟩ := by
              rw [← hafter]
            have hblen := hh.actualLen.2
            have hmerge : Mergeable (ex.back lblk false) abut := by
              refine ⟨hu2.trans habut.1.symm, ?_, ?_, ?_⟩
              · rw [hh.back_end, ← habut.2.1]
                exact hcond.1.symm
              · rw [hu2, hblen]
                show _ ≤ extInitMaxLen
                omega
              · rw [hh.back_start, hblen]
                omega
            have happend : (ex.back lblk false).append abut
                = Extent.withLen ⟨abut.eeBlock - len, 0, abut.eeStart - len⟩
                  (ext4ExtGetActualLen abut + len) false := by
              rw [Extent.append, hu2, hblen]
              refine Extent.ext ?_ ?_ ?_
              · rw [withLen_eeBlock, withLen_eeBlock, hh.back_block]
                show lblk = abut.eeBlock - len
                omega
              · show ex.eeEnd - lblk + ext4ExtGetActualLen abut = ext4ExtGetActualLen abut + len
                omega
              · rw [withLen_eeStart, withLen_eeStart, hh.back_start]
                show _ = abut.eeStart - len
                omega
            obtain ⟨h1, h2⟩ := giveRight_spec hp hh hleaf hmerge
            rw [happend, hu1, hu2, hm, hself _ _ (Nat.le_refl _) (Nat.le_of_lt hx.2)] at h2
            rw [happend] at h1
            rw [hcond.1]
            exact ⟨h1, .inr ⟨rfl, Nat.le_refl _, h2⟩⟩
        · nomatch hr
    · nomatch hr

/-- `ext4_ext_convert_to_initialized`. -/
theorem convertToInitialized_spec (env : InitEnv blocksize) (preIo : Bool) (hbs : 1024 ≤ blocksize)
    (hj : env.range.Calm ∨ ∃ n, (ext4ExtConvertToInitialized env preIo lblk len p).res = .ok n) :
    Converts blocksize t.mapping ex false lblk (ex.clip lblk len)
        (Spills env.range (mayZero env.eofBlock ex lblk len) p ex lblk len
          ∧ Large (env.limit ex lblk len) ex lblk len)
        (ext4ExtConvertToInitialized env preIo lblk len p)
      ∧ ∀ n, (ext4ExtConvertToInitialized env preIo lblk len p).res = .ok n →
        min n len = ex.clip lblk len - lblk := by
  have hmem := h.ext_mem hext
  have hex := ht.extents_ok ex hmem
  have hbug : ¬ (ext4ExtIsUnwritten ex = false ∨ ¬ (ex.eeBlock ≤ lblk ∧ lblk < ex.eeEnd)) := by
    rw [hun]
    exact fun hb => hb.elim (fun h0 => (by cases h0)) fun hn => hn hx
  rw [ext4ExtConvertToInitialized, hext] at hj ⊢
  dsimp only at hj ⊢
  rw [if_neg hbug] at hj ⊢
  cases htr : transfer env.access lblk len p ex with
  | some r =>
    have hns : ¬ (Spills env.range (mayZero env.eofBlock ex lblk len) p ex lblk len
        ∧ Large (env.limit ex lblk len) ex lblk len) := by
      rintro ⟨hs, -⟩
      rw [transfer_of_inside hs.2 hs.1.inside.2] at htr
      cases htr
    have hrec : ∀ z ∈ r.recorded, Recordable t.mapping z := by
      rw [transfer_recorded htr]
      exact fun z hz => absurd hz List.not_mem_nil
    obtain ⟨hok, ⟨e, herr, hm⟩ | ⟨hres, hle, hm⟩⟩ := transfer_spec ht h hext hun hx hlen htr
    · refine ⟨.of_same hrec hns hok hex hm herr, fun n hn => ?_⟩
      rw [herr] at hn
      cases hn
    · have hclip : ex.clip lblk len = lblk + len := Nat.min_eq_left hle
      rw [hclip]
      refine ⟨.of_marked hrec hns hok hx.1 hle hm, fun n hn => ?_⟩
      obtain rfl := Except.ok.inj (hres.symm.trans hn)
      omega
  | none =>
    rw [htr] at hj
    have hz := zeroPlan_for (env.limit ex lblk len) hex hx hlen
    have hlarge := @zeroPlan_large ex lblk len (env.limit ex lblk len) hx
    have hedge := @large_of_zeroPlan ex lblk len (env.limit ex lblk len) hx
    generalize zeroPlan (env.limit ex lblk len) ex lblk len = z at hz hlarge hedge hj ⊢
    have hfound : Found t z.lblk p := h.earlier hext ⟨hz.inside.1, hz.holds.1⟩
    -- an error in front of the split: only the disk has changed
    have hfail : (z.tail.bind fun _ => env.zeroout1) ≠ none
          ∨ (z.head.bind fun _ => env.zeroout2) ≠ none → ∀ e zs,
        Converts blocksize t.mapping ex false lblk (ex.clip lblk len)
          (Spills env.range (mayZero env.eofBlock ex lblk len) p ex lblk len
            ∧ Large (env.limit ex lblk len) ex lblk len) ⟨.error e, p.tree, [], zs, []⟩ := by
      intro hne e zs
      refine .of_same (fun y hy => absurd hy List.not_mem_nil) (fun hs => ?_) (h.ok ht) hex
        h.mapping_eq rfl
      rw [hlarge hs.2] at hne
      exact hne.elim (fun h0 => h0 rfl) fun h0 => h0 rfl
    cases htail : z.tail.bind fun _ => env.zeroout1 with
    | some e =>
      exact ⟨hfail (.inl (by rw [htail]; exact Option.some_ne_none e)) e _,
        fun n hn => (by cases hn)⟩
    | none =>
    cases hhead : z.head.bind fun _ => env.zeroout2 with
    | some e =>
      exact ⟨hfail (.inr (by rw [hhead]; exact Option.some_ne_none e)) e _,
        fun n hn => (by cases hn)⟩
    | none =>
      rw [htail, hhead] at hj
      generalize hflags :
        (⟨mayZero env.eofBlock ex lblk len, false, false, false, true⟩ : SplitFlags) = flags at hj ⊢
      obtain ⟨res, rec, hplan, hres, hrec⟩ := recordPlan_spec env z
        (ext4SplitExtent env.range flags preIo z.lblk z.len p)
      rw [hplan] at hj ⊢
      have hspec := splitExtent_spec env.range flags preIo hbs ht hfound hext hz.inside hz.len_pos
        (hj.imp_right fun ⟨n, hn⟩ => (hres n hn).1)
      have hstop : z.lblk < ex.clip z.lblk z.len ∧ ex.clip z.lblk z.len ≤ ex.eeEnd := by
        have h1 := hz.inside
        have h2 := hz.len_pos
        rw [Extent.clip]
        omega
      have hspills : (Spills env.range (mayZero env.eofBlock ex lblk len) p ex lblk len
            ∧ Large (env.limit ex lblk len) ex lblk len)
          ↔ env.range.Short flags p ex z.lblk z.len ∧ flags.dataValid2 = true
            ∧ ex.eeBlock < z.lblk := by
        rw [Spills, RangeEnv.Short, hun, ← hflags]
        constructor
        · rintro ⟨⟨hshort, hlt⟩, hl⟩
          rw [hlarge hl]
          exact ⟨hshort, rfl, hlt⟩
        · rintro ⟨hshort, -, hlt⟩
          have hl := hedge hlt hshort.inside.2
          rw [hlarge hl] at hshort hlt
          exact ⟨⟨hshort, hlt⟩, hl⟩
      have hconv := hspec.converts ⟨hz.inside.1, hstop⟩ hspills (by rw [← hflags]) hex
      refine ⟨hconv.widen hz.holds (fun hs => ?_) (fun n hn => (hres n hn).1) (fun y hy => ?_)
        hz.zeroes, fun n hn => ?_⟩
      · rw [hlarge hs.2]
        rfl
      · rcases hrec y hy with hy | hy
        · exact hspec.recorded y hy
        · exact (hz.stretches y hy).recordable ht hmem
      · rw [(hres n hn).2]
        exact hz.count

end Initialize

end Ext4.Extents
