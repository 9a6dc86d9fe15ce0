import Ext4.Extents.SplitState

/-!
# Extent trees — splitting a range out of an extent

`ext4_split_extent` (extents.c) splits an extent behind a range of blocks and
then in front of it, with a lookup in between. The second split decides the
state of the range. Either split may end in zeroing instead, when there is no
space for another extent: then more than the range becomes written.
-/

namespace Ext4.Extents

open IndexTree

/-! ## The model -/

/-- What the surroundings decide about `ext4_split_extent`: both splits, and
the lookup between them. -/
structure RangeEnv (blocksize : Nat) where
  first : SplitEnv
  readErr : Option Errno
  second : SplitEnv
  first_blocksize : first.blocksize = blocksize
  second_blocksize : second.blocksize = blocksize

/-- A split in which no call fails once the tree has changed. -/
def SplitEnv.Calm (env : SplitEnv) : Prop := env.early = true ∧ env.dirtyZeroed = none

theorem SplitEnv.Calm.for {env : SplitEnv} (h : env.Calm) (flags : SplitFlags) (preIo : Bool)
    (p : ExtPath) (ex : Extent) (split : Nat) : env.CalmFor flags preIo p ex split :=
  ⟨h.1, fun _ => h.2⟩

/-- The same for both splits. -/
def RangeEnv.Calm {blocksize : Nat} (env : RangeEnv blocksize) : Prop :=
  env.first.Calm ∧ env.second.Calm

/-- What a change of a range leaves behind: the number of blocks, or an error,
the tree, the blocks that left it, the extents that were zeroed on disk, and
those passed to `ext4_zeroout_es`. -/
structure RangeDone where
  res : Except Errno Nat
  tree : ExtTree
  freed : List Nat
  zeroed : List Extent
  recorded : List Extent

section Model

variable {blocksize : Nat} (env : RangeEnv blocksize) (flags : SplitFlags) (preIo : Bool)
  (lblk len : Nat)

/-- The flags of the split behind the range. -/
def firstFlags (unwritten : Bool) : SplitFlags :=
  ⟨flags.mayZeroout, unwritten, unwritten, flags.dataValid2, false⟩

/-- The flags of the split in front of it. -/
def secondFlags (unwritten : Bool) : SplitFlags :=
  ⟨unwritten && flags.mayZeroout, unwritten, unwritten && flags.markUnwrit2, false,
    flags.dataValid2⟩

/-- The split behind the range, if the extent goes on there. -/
def splitBehind (p : ExtPath) (ex : Extent) : SplitDone :=
  if lblk + len < ex.eeEnd then
    ext4SplitExtentAt env.first (firstFlags flags (ext4ExtIsUnwritten ex)) true (lblk + len) p
  else ⟨⟨none, p, []⟩, none, none⟩

/-- The part of `ext4_split_extent` from the second lookup on. -/
def splitInFront (eeBlock allocated : Nat) (t : ExtTree) : RangeDone :=
  match findExtent env.readErr t lblk with
  | .error e => ⟨.error e, t, [], [], []⟩
  | .ok q =>
      match q.ext with
      | none => ⟨.error .efscorrupted, t, [], [], []⟩
      | some ex =>
          if eeBlock ≤ lblk then
            let r := ext4SplitExtentAt env.second (secondFlags flags (ext4ExtIsUnwritten ex)) preIo
              lblk q
            ⟨match r.err with
              | some e => .error e
              | none => .ok allocated, r.path.tree, r.freed, r.zeroed.toList, r.recorded.toList⟩
          else ⟨.ok allocated, t, [], [], []⟩

/-- `ext4_split_extent`. -/
def ext4SplitExtent (p : ExtPath) : RangeDone :=
  match p.ext with
  | none => ⟨.error .bug, p.tree, [], [], []⟩
  | some ex =>
      let r := splitBehind env flags lblk len p ex
      let allocated := if lblk + len < ex.eeEnd then len
        else ext4ExtGetActualLen ex - (lblk - ex.eeBlock)
      match r.err with
      | some e => ⟨.error e, r.path.tree, r.freed, r.zeroed.toList, r.recorded.toList⟩
      | none =>
          let s := splitInFront env flags preIo lblk ex.eeBlock allocated r.path.tree
          { s with
            freed := r.freed ++ s.freed
            zeroed := r.zeroed.toList ++ s.zeroed
            recorded := r.recorded.toList ++ s.recorded }

end Model

/-! ## What the splits come to -/

/-- The first and the last block of an extent, as a range. -/
def Extent.bounds (ex : Extent) : Nat × Nat := (ex.eeBlock, ex.eeEnd)

/-- The end of a range, which may go on behind the extent. -/
def Extent.clip (ex : Extent) (lblk len : Nat) : Nat := min (lblk + len) ex.eeEnd

section Cases

variable {blocksize : Nat} (env : RangeEnv blocksize) (flags : SplitFlags) (preIo : Bool)
  (p : ExtPath) (m : Nat → Option (Nat × Bool)) (ex : Extent) (lblk len : Nat)

/-- There is no space for the first split, which zeroes instead. -/
def RangeEnv.Short : Prop :=
  env.first.Short (firstFlags flags (ext4ExtIsUnwritten ex)) true p ex (lblk + len)

/-- What the first split zeroes then. -/
def zeroedBehind : Nat × Nat :=
  (if flags.dataValid2 then ex.clip lblk len else ex.eeBlock, ex.eeEnd)

/-- The mapping after a range `lblk .. stop - 1` of `ex` was split out. -/
inductive RangeCase (stop : Nat) (r : RangeDone) : Prop
  /-- an error, and everything as before -/
  | kept (e : Errno) (err : r.res = .error e) (mapping : r.tree.mapping = m)
  /-- the range alone has changed its state -/
  | marked (mapping : r.tree.mapping
        = setState m lblk stop (ext4ExtIsUnwritten ex && flags.markUnwrit2))
      (piece : ∀ n, r.res = .ok n → preIo = true → HasPiece r.tree.extents lblk stop)
  /-- no space for the second split: what is in front is written as well -/
  | zeroedFront (may : flags.mayZeroout = true)
      (mapping : r.tree.mapping = setState m ex.eeBlock stop false)
      (zeroes : (ex.eeBlock, if flags.dataValid2 then lblk else stop) ∈ r.zeroed.map Extent.bounds)

/-- What splitting out a range comes to. If there is no space for the first
split, the whole extent is written. -/
structure RangeSpec (r : RangeDone) : Prop where
  tree_ok : r.tree.Ok blocksize
  len_eq : ∀ n, r.res = .ok n → n = ex.clip lblk len - lblk
  recorded : ∀ z ∈ r.recorded, Recordable m z
  short : env.Short flags p ex lblk len → r.tree.mapping = setState m ex.eeBlock ex.eeEnd false
    ∧ r.zeroed.map Extent.bounds = [zeroedBehind flags ex lblk len]
  mapping : ¬ env.Short flags p ex lblk len →
    RangeCase flags preIo m ex lblk (ex.clip lblk len) r

/-- The same after the first split alone. -/
structure BehindSpec (r : SplitDone) : Prop where
  tree_ok : r.path.tree.Ok blocksize
  recorded : ∀ z, r.recorded = some z → Recordable m z
  short : env.Short flags p ex lblk len →
    r.path.tree.mapping = setState m ex.eeBlock ex.eeEnd false
      ∧ r.zeroed.toList.map Extent.bounds = [zeroedBehind flags ex lblk len]
  same : ¬ env.Short flags p ex lblk len → r.path.tree.mapping = m
    ∧ (r.err = none → HasPiece r.path.tree.extents ex.eeBlock (ex.clip lblk len))

end Cases

variable {allocated b eeBlock hi lo : Nat}

section Range

variable {blocksize : Nat} {env : RangeEnv blocksize} {t : ExtTree} {p : ExtPath} {ex : Extent}
  {lblk len : Nat}

section

variable (flags : SplitFlags) (hbs : 1024 ≤ blocksize) (ht : t.Ok blocksize)

include hbs ht

theorem splitBehind_spec (h : Found t lblk p) (hext : p.ext = some ex)
    (hx : ex.eeBlock ≤ lblk ∧ lblk < ex.eeEnd) (hlen : 0 < len)
    (hj : env.first.Calm ∨ (splitBehind env flags lblk len p ex).err = none) :
    BehindSpec env flags p t.mapping ex lblk len (splitBehind env flags lblk len p ex) := by
  have hmem := h.ext_mem hext
  rw [splitBehind] at hj ⊢
  by_cases hlt : lblk + len < ex.eeEnd
  · have hclip : ex.clip lblk len = lblk + len := Nat.min_eq_left (Nat.le_of_lt hlt)
    rw [if_pos hlt] at hj ⊢
    obtain ⟨hok, hrec, -, hcase⟩ := h.splitExtentAt (firstFlags flags (ext4ExtIsUnwritten ex)) true
      (lblk + len) env.first_blocksize hbs ht hext (hj.imp_left fun hc => hc.for _ _ _ _ _)
    rw [env.first_blocksize] at hok
    refine ⟨hok, hrec, fun hs => ?_, fun hs => ?_⟩
    · cases hcase with
      | undone short => exact absurd hs short
      | marked block => omega
      | halved short => exact absurd hs short
      | zeroed short z zeroed eq err mapping bounds =>
        refine ⟨mapping, ?_⟩
        rw [zeroed, Option.toList_some, List.map_singleton, Extent.bounds, bounds, zeroRange,
          zeroedBehind, hclip]
        cases hv : flags.dataValid2 <;> simp [firstFlags, hv]
    · rw [hclip]
      cases hcase with
      | undone _ _ e err mapping => exact ⟨mapping, fun hnone => absurd (err.symm.trans hnone)
          (Option.some_ne_none e)⟩
      | marked block => omega
      | halved _ block err mapping pieces =>
        refine ⟨?_, fun _ => (pieces rfl).1⟩
        rw [mapping]
        show setState (setState _ _ _ (ext4ExtIsUnwritten ex)) _ _ (ext4ExtIsUnwritten ex) = _
        rw [ht.setState_self hmem (Nat.le_refl _) (by omega),
          ht.setState_self hmem (by omega) (Nat.le_refl _)]
      | zeroed short => exact absurd short hs
  · have hclip : ex.clip lblk len = ex.eeEnd := Nat.min_eq_right (Nat.le_of_not_lt hlt)
    rw [if_neg hlt]
    refine ⟨h.ok ht, fun z hz => absurd hz (Option.some_ne_none z).symm,
      fun hs => absurd hs.inside.2 hlt, fun _ => ⟨h.mapping_eq, fun _ => ?_⟩⟩
    rw [h.tree_eq, hclip]
    exact ⟨ex, hmem, rfl, rfl⟩

/-- The second split: an error of the lookup, or a split of the extent `y`
that has the block. -/
theorem splitInFront_cases (preIo : Bool) {y : Extent} (hy : y ∈ t.extents)
    (hcov : y.eeBlock ≤ lblk ∧ lblk < y.eeEnd) (hblock : eeBlock ≤ lblk)
    (hj : env.second.Calm
      ∨ ∃ n, (splitInFront env flags preIo lblk eeBlock allocated t).res = .ok n) :
    (∃ e, splitInFront env flags preIo lblk eeBlock allocated t = ⟨.error e, t, [], [], []⟩)
      ∨ ∃ (q : ExtPath) (s : SplitDone), splitInFront env flags preIo lblk eeBlock allocated t
          = ⟨match s.err with
            | some e => .error e
            | none => .ok allocated, s.path.tree, s.freed, s.zeroed.toList, s.recorded.toList⟩
        ∧ SplitSpec env.second (secondFlags flags (ext4ExtIsUnwritten y)) preIo q t.mapping y lblk
          s := by
  rw [splitInFront] at hj ⊢
  cases hfind : findExtent env.readErr t lblk with
  | error e => exact .inl ⟨e, rfl⟩
  | ok q =>
    have hq := findExtent_found ht hfind
    have hext := hq.ext_eq ht hy hcov
    rw [hfind] at hj
    dsimp only at hj ⊢
    rw [hext] at hj ⊢
    dsimp only at hj ⊢
    rw [if_pos hblock] at hj ⊢
    refine .inr ⟨q, _, rfl, hq.splitExtentAt _ preIo lblk env.second_blocksize hbs ht hext ?_⟩
    refine hj.imp (fun hc => hc.for _ _ _ _ _) ?_
    rintro ⟨n, hn⟩
    split at hn
    · cases hn
    · assumption

theorem splitInFront_of_piece (preIo : Bool) {stop : Nat}
    (hpiece : HasPiece t.extents ex.eeBlock stop)
    (hstate : ∀ y ∈ t.extents, y.eeBlock ≤ lblk ∧ lblk < y.eeEnd →
      ext4ExtIsUnwritten y = ext4ExtIsUnwritten ex) (hx : ex.eeBlock ≤ lblk ∧ lblk < stop)
    (hj : env.second.Calm
      ∨ ∃ n, (splitInFront env flags preIo lblk ex.eeBlock allocated t).res = .ok n) :
    (splitInFront env flags preIo lblk ex.eeBlock allocated t).tree.Ok blocksize
      ∧ (∀ z ∈ (splitInFront env flags preIo lblk ex.eeBlock allocated t).recorded,
        Recordable t.mapping z)
      ∧ RangeCase flags preIo t.mapping ex lblk stop
        (splitInFront env flags preIo lblk ex.eeBlock allocated t) := by
  obtain ⟨y, hy, hyb, hye⟩ := hpiece
  have hcov : y.eeBlock ≤ lblk ∧ lblk < y.eeEnd := by omega
  have hu := hstate y hy hcov
  rcases splitInFront_cases flags hbs ht preIo hy hcov hx.1 hj with ⟨e, heq⟩ | ⟨q, s, heq, hspec⟩
  · rw [heq]
    exact ⟨ht, fun z hz => absurd hz List.not_mem_nil, .kept e rfl rfl⟩
  · rw [heq]
    obtain ⟨hok, hrec, -, hcase⟩ := hspec
    rw [env.second_blocksize] at hok
    refine ⟨hok, fun z hz => hrec z (Option.mem_toList.mp hz), ?_⟩
    cases hcase with
    | undone _ _ e err mapping =>
      refine .kept e ?_ mapping
      rw [err]
    | marked block _ err mapping piece =>
      refine .marked ?_ fun n _ hpre => ?_
      · rw [mapping, ← block, hye, ← hu]
        rfl
      · have := piece hpre
        rwa [← block, hye] at this
    | halved _ block err mapping pieces =>
      refine .marked ?_ fun n _ hpre => ?_
      · rw [mapping, hye, ← hu]
        show setState (setState _ _ _ (ext4ExtIsUnwritten y)) _ _ _ = _
        rw [ht.setState_self hy (Nat.le_refl _) (by omega)]
        rfl
      · have := (pieces hpre).2
        rwa [hye] at this
    | zeroed short z zeroed eq err mapping bounds =>
      have hmay : flags.mayZeroout = true := (Bool.and_eq_true_iff.mp short.may).2
      refine .zeroedFront hmay ?_ ?_
      · rw [mapping, hyb, hye]
      · rw [zeroed, Option.toList_some, List.map_singleton, List.mem_singleton, Extent.bounds,
          bounds, zeroRange, secondFlags]
        cases flags.dataValid2 <;> simp [hyb, hye]

theorem splitInFront_of_written (preIo : Bool) {v : Nat} (hv : t.mapping lblk = some (v, false))
    (hblock : eeBlock ≤ lblk) (hj : env.second.Calm
      ∨ ∃ n, (splitInFront env flags preIo lblk eeBlock allocated t).res = .ok n) :
    (splitInFront env flags preIo lblk eeBlock allocated t).tree.Ok blocksize
      ∧ (∀ z ∈ (splitInFront env flags preIo lblk eeBlock allocated t).recorded,
        Recordable t.mapping z)
      ∧ (splitInFront env flags preIo lblk eeBlock allocated t).zeroed = []
      ∧ (splitInFront env flags preIo lblk eeBlock allocated t).tree.mapping = t.mapping := by
  obtain ⟨y, hy, hcov, hval⟩ := blockView.get_eq_some_mem hv
  have hu : ext4ExtIsUnwritten y = false := congrArg Prod.snd hval
  have hself : ∀ lo hi, y.eeBlock ≤ lo → hi ≤ y.eeEnd →
      setState t.mapping lo hi false = t.mapping := by
    intro lo hi hlo hhi
    rw [← hu]
    exact ht.setState_self hy hlo hhi
  rcases splitInFront_cases flags hbs ht preIo hy hcov hblock hj with ⟨e, heq⟩ | ⟨q, s, heq, hspec⟩
  · rw [heq]
    exact ⟨ht, fun z hz => absurd hz List.not_mem_nil, rfl, rfl⟩
  · rw [heq]
    obtain ⟨hok, hrec, hnone, hcase⟩ := hspec
    rw [env.second_blocksize] at hok
    have hlong : ¬ env.second.Short (secondFlags flags (ext4ExtIsUnwritten y)) preIo q y lblk := by
      intro hs
      rw [hs.unwritten] at hu
      cases hu
    refine ⟨hok, fun z hz => hrec z (Option.mem_toList.mp hz), ?_, ?_⟩
    · rw [hnone hlong]
      rfl
    rw [hu] at hcase
    cases hcase with
    | undone _ _ e err mapping => exact mapping
    | marked block _ err mapping piece =>
      exact mapping.trans (hself _ _ (Nat.le_refl _) (Nat.le_refl _))
    | halved _ block err mapping pieces =>
      refine mapping.trans ?_
      show setState (setState _ _ _ false) _ _ false = _
      rw [hself _ _ (Nat.le_refl _) (Nat.le_of_lt hcov.2), hself _ _ hcov.1 (Nat.le_refl _)]
    | zeroed short => cases short.may

end

theorem splitInFront_res (flags : SplitFlags) (preIo : Bool) {n : Nat}
    (h : (splitInFront env flags preIo lblk eeBlock allocated t).res = .ok n) : n = allocated := by
  rw [splitInFront] at h
  split at h
  · nomatch h
  · split at h
    · nomatch h
    · split at h
      · dsimp only at h
        split at h
        · cases h
        · exact (Except.ok.inj h).symm
      · exact (Except.ok.inj h).symm

theorem Recordable.of_fst {m m' : Nat → Option (Nat × Bool)}
    (h : ∀ x, (m' x).map Prod.fst = (m x).map Prod.fst) {z : Extent} (hz : Recordable m' z) :
    Recordable m z :=
  ⟨hz.1, (h _).symm.trans hz.2⟩

/-- `ext4_split_extent`. -/
theorem splitExtent_spec (env : RangeEnv blocksize) (flags : SplitFlags) (preIo : Bool)
    (hbs : 1024 ≤ blocksize) (ht : t.Ok blocksize) (h : Found t lblk p) (hext : p.ext = some ex)
    (hx : ex.eeBlock ≤ lblk ∧ lblk < ex.eeEnd) (hlen : 0 < len)
    (hj : env.Calm ∨ ∃ n, (ext4SplitExtent env flags preIo lblk len p).res = .ok n) :
    RangeSpec env flags preIo p t.mapping ex lblk len
      (ext4SplitExtent env flags preIo lblk len p) := by
  have hstop : lblk < ex.clip lblk len := by
    rw [Extent.clip]
    omega
  have hallocated : (if lblk + len < ex.eeEnd then len
      else ext4ExtGetActualLen ex - (lblk - ex.eeBlock)) = ex.clip lblk len - lblk := by
    rw [Extent.clip]
    split
    · omega
    · rw [Extent.eeEnd] at *
      omega
  have hlblk : t.mapping lblk = some (ex.eeStart + (lblk - ex.eeBlock), ext4ExtIsUnwritten ex) :=
    mapping_of_mem ht (h.ext_mem hext) hx
  rw [ext4SplitExtent, hext] at hj ⊢
  dsimp only at hj ⊢
  rw [hallocated] at hj ⊢
  -- the first split fails only together with the whole
  have hj1 : env.first.Calm ∨ (splitBehind env flags lblk len p ex).err = none := by
    rcases hj with hj | ⟨n, hn⟩
    · exact .inl hj.1
    · refine .inr ?_
      cases herr : (splitBehind env flags lblk len p ex).err with
      | none => rfl
      | some e =>
        rw [herr] at hn
        cases hn
  obtain ⟨hok1, hrec1, hshort1, hsame1⟩ := splitBehind_spec flags hbs ht h hext hx hlen hj1
  generalize splitBehind env flags lblk len p ex = r1 at hj hok1 hrec1 hshort1 hsame1
  cases herr : r1.err with
  | some e =>
    exact ⟨hok1, fun n hn => (by cases hn), fun z hz => hrec1 z (Option.mem_toList.mp hz), hshort1,
      fun hs => .kept e rfl (hsame1 hs).1⟩
  | none =>
    rw [herr] at hj
    have hj2 := hj.imp_left And.right
    by_cases hs : env.Short flags p ex lblk len
    · obtain ⟨hmap, hzeroed⟩ := hshort1 hs
      have hv : r1.path.tree.mapping lblk = some (ex.eeStart + (lblk - ex.eeBlock), false) := by
        rw [hmap, setState_of_mem hx, hlblk]
        rfl
      obtain ⟨hok2, hrec2, hnone, hsame⟩ := splitInFront_of_written flags hbs hok1 preIo hv hx.1 hj2
      refine ⟨hok2, fun n hn => splitInFront_res flags preIo hn, fun z hz => ?_,
        fun _ => ⟨hsame.trans hmap, ?_⟩, fun h => absurd hs h⟩
      · rcases List.mem_append.mp hz with hz | hz
        · exact hrec1 z (Option.mem_toList.mp hz)
        · refine (hrec2 z hz).of_fst fun x => ?_
          rw [hmap, setState_fst]
      · rw [hnone, List.append_nil, hzeroed]
    · obtain ⟨hmap, hpiece⟩ := hsame1 hs
      rw [← hmap] at hlblk
      have hstate : ∀ y ∈ r1.path.tree.extents, y.eeBlock ≤ lblk ∧ lblk < y.eeEnd →
          ext4ExtIsUnwritten y = ext4ExtIsUnwritten ex := by
        intro y hy hcov
        rw [mapping_of_mem hok1 hy hcov] at hlblk
        exact congrArg Prod.snd (Option.some.inj hlblk)
      obtain ⟨hok2, hrec2, hcase2⟩ := splitInFront_of_piece flags hbs hok1 preIo (hpiece herr)
        hstate
        ⟨hx.1, hstop⟩ hj2
      rw [hmap] at hrec2 hcase2
      refine ⟨hok2, fun n hn => splitInFront_res flags preIo hn, fun z hz => ?_,
        fun h => absurd h hs, fun _ => ?_⟩
      · rcases List.mem_append.mp hz with hz | hz
        · exact hrec1 z (Option.mem_toList.mp hz)
        · exact hrec2 z hz
      · cases hcase2 with
        | kept e err mapping => exact .kept e err mapping
        | marked mapping piece => exact .marked mapping piece
        | zeroedFront may mapping zeroes =>
          exact .zeroedFront may mapping
            (by rw [List.map_append]; exact List.mem_append_right _ zeroes)

end Range

end Ext4.Extents
