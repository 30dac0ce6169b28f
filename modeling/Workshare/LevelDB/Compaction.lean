import Workshare.LevelDB.Table

/-!
# Compactions and `expand`

A compaction (`compaction` in `session_compaction.go`) is a single-use job: a source level, the
source tables `levels[0]`, the overlapping tables `levels[1]` one level down, the grandparent tables
two levels down, a skip list, and the cursors the builder advances while it runs.

`expand` turns an initial pick into the two input sets. On level 0 it first absorbs every table a
user key may hop across; it then takes the overlapping target tables, tries to grow the source set
over the combined range when that picks up no further target table and stays under the expansion
limit, and finally records the grandparents over the combined range.

## Implementation notes

`expand` runs before the record has keys: the source fills `imin`, `imax` from `nil`. Here `expand`
returns the four fields it sets, `Expanded`, and `newCompaction` (in `Reduce`) builds the record
from them. The `dst` arguments of `getOverlaps` only recycle slice storage; `expand` reads nothing
but lengths of the slices it overwrites, so values are enough. `none` stands for the panic that an
empty pick would cause.

## Main results

* `expandBase_wf`, `growStep_wf` — the two stages keep `ExpandState.WF`
* `expand_spec` — the six properties of an expanded compaction
-/

namespace Workshare

namespace LevelDB

variable {K : Type} [LinearOrder K]

/-- The options the compaction code reads, one field per `opt.Options` getter. -/
structure Options (K : Type) where
  /-- `GetCompactionExpandLimit(level)`. -/
  compactionExpandLimit : ℕ → ℕ
  /-- `GetCompactionGPOverlaps(level)`. -/
  compactionGPOverlaps : ℕ → ℕ
  /-- `GetCompactionTableSize(level)`. -/
  compactionTableSize : ℕ → ℕ
  /-- `GetStrict(opt.StrictCompaction)`. -/
  strict : Bool
  /-- `GetBlockSize()`. -/
  blockSize : ℕ
  /-- Whether a user key lies under the overflow prefix `oPrefix = GetOverflowPrefix()`, that is
  `len(oPrefix) > 0 && bytes.HasPrefix(ukey, oPrefix)`. -/
  hasOPrefix : K → Bool

/-- Why a compaction was picked (`level0Compaction`, `nonLevel0Compaction`, `seekCompaction`). -/
inductive CompactionType
  | level0
  | nonLevel0
  | seek
  deriving DecidableEq, Repr

/-- A compaction job (`compaction`). The fields after `imax` are the cursors of a running build and
the snapshot `save` takes of them. -/
structure Compaction (K : Type) [LinearOrder K] where
  /-- The catalog the job was built from. -/
  v : Version K
  /-- The kind of pick. -/
  typ : CompactionType
  /-- The level the source tables come from. -/
  sourceLevel : ℕ
  /-- `levels[0]`, the source tables, and `levels[1]`, the target tables one level down. -/
  levels : TFiles K × TFiles K
  /-- `GetCompactionGPOverlaps(sourceLevel)`. -/
  maxGPOverlaps : ℕ
  /-- Target tables `reduce` leaves in place. -/
  skips : TFiles K
  /-- The grandparent tables over the job's range. -/
  gp : TFiles K
  /-- The smallest key of the source tables. -/
  imin : InternalKey K
  /-- The largest key of the source tables. -/
  imax : InternalKey K
  /-- The pick came from the overflow prefix. -/
  overflowed : Bool
  skipIndex : ℕ
  gpi : ℕ
  seenKey : Bool
  gpOverlappedBytes : ℕ
  tPtrs : List ℕ
  snapGPI : ℕ
  snapSeenKey : Bool
  snapGPOverlappedBytes : ℕ
  snapTPtrs : List ℕ
  snapSkipIndex : ℕ

namespace Compaction

/-- Snapshot the cursors (`compaction.save`). -/
def save (c : Compaction K) : Compaction K :=
  { c with snapGPI := c.gpi, snapSeenKey := c.seenKey, snapGPOverlappedBytes := c.gpOverlappedBytes,
           snapTPtrs := c.tPtrs, snapSkipIndex := c.skipIndex }

/-- Put the cursors back to the snapshot (`compaction.restore`). -/
def restore (c : Compaction K) : Compaction K :=
  { c with gpi := c.snapGPI, seenKey := c.snapSeenKey, gpOverlappedBytes := c.snapGPOverlappedBytes,
           tPtrs := c.snapTPtrs, skipIndex := c.snapSkipIndex }

/-- A single source table, nothing to merge with, and few grandparent bytes
(`compaction.trivial`). -/
def trivial (c : Compaction K) : Bool :=
  c.levels.1.length == 1 && c.levels.2.length == 0 && decide (tFilesSize c.gp ≤ c.maxGPOverlaps)

end Compaction

/-! ## `expand` -/

/-- The sets and ranges `expand` works on: source tables `t0` with range `imin, imax`, target tables
`t1`, and the range `amin, amax` of both. -/
structure ExpandState (K : Type) [LinearOrder K] where
  t0 : TFiles K
  t1 : TFiles K
  imin : InternalKey K
  imax : InternalKey K
  amin : InternalKey K
  amax : InternalKey K

/-- `expand` up to its growth step: on level 0 absorb the tables a user key may hop across, then
take the overlapping target tables. -/
def expandBase (v : Version K) (sourceLevel : ℕ) (t0 : TFiles K) : Option (ExpandState K) := do
  let (imin, imax) ← getRange t0
  -- For non-zero levels, the ukey can't hop across tables at all.
  let (t0', imin, imax) ← if sourceLevel = 0 then
      let t0' := getOverlaps (v.level sourceLevel) (some imin.ukey) (some imax.ukey) true
      if t0'.length ≠ t0.length then (getRange t0').map fun r => (t0', r.1, r.2)
      else pure (t0', imin, imax)
    else pure (t0, imin, imax)
  let t1 := getOverlaps (v.level (sourceLevel + 1)) (some imin.ukey) (some imax.ukey) false
  let (amin, amax) ← getRange (t0' ++ t1)
  return ⟨t0', t1, imin, imax, amin, amax⟩

/-- The growth step of `expand`: grow the source set over the whole range when that picks up no
further target table and both sets stay under `limit` bytes. -/
def growStep (limit : ℕ) (v : Version K) (sourceLevel : ℕ) (st : ExpandState K) :
    Option (ExpandState K) :=
  if 0 < st.t1.length then
    let exp0 := getOverlaps (v.level sourceLevel) (some st.amin.ukey) (some st.amax.ukey)
      (sourceLevel == 0)
    if st.t0.length < exp0.length ∧ tFilesSize st.t1 + tFilesSize exp0 < limit then do
      let (xmin, xmax) ← getRange exp0
      let exp1 := getOverlaps (v.level (sourceLevel + 1)) (some xmin.ukey) (some xmax.ukey) false
      if exp1.length = st.t1.length then do
        let (amin, amax) ← getRange (exp0 ++ exp1)
        return ⟨exp0, exp1, xmin, xmax, amin, amax⟩
      else return st
    else return st
  else return st

/-- The fields `expand` sets: `levels`, `imin`, `imax` and `gp`. -/
structure Expanded (K : Type) [LinearOrder K] where
  levels : TFiles K × TFiles K
  imin : InternalKey K
  imax : InternalKey K
  gp : TFiles K

/-- Expand the pick `t0` at `sourceLevel` (`compaction.expand`). -/
def expand (limit : ℕ) (v : Version K) (sourceLevel : ℕ) (t0 : TFiles K) : Option (Expanded K) := do
  let st ← expandBase v sourceLevel t0
  let st ← growStep limit v sourceLevel st
  let gp := if sourceLevel + 2 < v.levels.length then
      getOverlaps (v.level (sourceLevel + 2)) (some st.amin.ukey) (some st.amax.ukey) false
    else []
  return ⟨(st.t0, st.t1), st.imin, st.imax, gp⟩

/-! ## What `expand` keeps true -/

/-- What the working sets of `expand` satisfy, for the pick `t0` at level `s`. -/
structure ExpandState.WF (v : Version K) (s : ℕ) (t0 : TFiles K) (st : ExpandState K) : Prop where
  pick_mem : ∀ t ∈ t0, t ∈ st.t0
  mem_level : ∀ t ∈ st.t0, t ∈ v.level s
  range : getRange st.t0 = some (st.imin, st.imax)
  target : st.t1 = (v.level (s + 1)).filter fun t => t.overlaps (some st.imin.ukey) (some st.imax.ukey)
  arange : getRange (st.t0 ++ st.t1) = some (st.amin, st.amax)
  closed : s = 0 → ∀ t ∈ v.level 0,
    t.overlaps (some st.imin.ukey) (some st.imax.ukey) = true → t ∈ st.t0

/-- A sublist all of whose members pass the filter is a sublist of the filtered list. -/
theorem sublist_filter_of_forall {l L : TFiles K} {p : TFile K → Bool} (h : l.Sublist L)
    (hp : ∀ t ∈ l, p t = true) : l.Sublist (L.filter p) := by
  simpa [List.filter_eq_self.mpr hp] using h.filter p

/-- Once the source set `t0'` and its range are fixed, the target set and the combined range
complete a well-formed state. -/
theorem target_wf {v : Version K} {s : ℕ} (t0 : TFiles K) {t0' : TFiles K} {imin imax : InternalKey K}
    (hpick : ∀ t ∈ t0, t ∈ t0') (hmem : ∀ t ∈ t0', t ∈ v.level s)
    (hr : getRange t0' = some (imin, imax))
    (hclosed : s = 0 → ∀ t ∈ v.level 0,
      t.overlaps (some imin.ukey) (some imax.ukey) = true → t ∈ t0') :
    ∃ amin amax, getRange (t0' ++ getOverlaps (v.level (s + 1)) (some imin.ukey)
        (some imax.ukey) false) = some (amin, amax) ∧
      ExpandState.WF v s t0
        ⟨t0', getOverlaps (v.level (s + 1)) (some imin.ukey) (some imax.ukey) false, imin, imax,
          amin, amax⟩ := by
  have hne : t0' ≠ [] := by rintro rfl; cases hr
  obtain ⟨amin, amax, ha⟩ := getRange_eq_some_of_ne_nil (l := t0' ++ _) (by simp [hne])
  exact ⟨amin, amax, ha, ⟨hpick, hmem, hr, rfl, ha, hclosed⟩⟩

/-- The first stage of `expand` establishes `ExpandState.WF` for any non-empty pick of tables of
the source level. -/
theorem expandBase_wf {v : Version K} {s : ℕ} {t0 : TFiles K} (hne : t0 ≠ [])
    (hsub : t0.Sublist (v.level s)) : ∃ st, expandBase v s t0 = some st ∧ st.WF v s t0 := by
  obtain ⟨imin, imax, hr⟩ := getRange_eq_some_of_ne_nil hne
  by_cases hs : s = 0
  swap
  · obtain ⟨amin, amax, ha, hwf⟩ := target_wf t0 (fun _ h => h)
      (fun _ h => hsub.subset h) hr (fun h => absurd h hs)
    exact ⟨_, by simp [expandBase, hr, hs, ha], hwf⟩
  subst hs
  set t0' := getOverlaps (v.level 0) (some imin.ukey) (some imax.ukey) true with ht0'
  have hpick : ∀ t ∈ t0, t ∈ t0' := fun t ht =>
    mem_getOverlaps_of_overlaps true (hsub.subset ht) (overlaps_getRange hr ht)
  have hmem : ∀ t ∈ t0', t ∈ v.level 0 := fun t ht => mem_of_mem_getOverlaps ht
  by_cases hlen : t0'.length = t0.length
  · -- the closure added nothing, so it is the pick itself and the range is kept
    have heq : t0 = t0' := by
      have hfix := getOverlaps_true_fixed (v.level 0) (some imin.ukey) (some imax.ukey)
      rw [← ht0'] at hfix
      refine List.Sublist.eq_of_length ?_ hlen.symm
      rw [← hfix]
      refine sublist_filter_of_forall hsub fun t ht => ?_
      have h : t ∈ overlapRound (v.level 0) (some imin.ukey) (some imax.ukey) t0' := by
        rw [hfix]; exact hpick t ht
      exact (List.mem_filter.mp h).2
    have hr' : getRange t0' = some (imin, imax) := heq ▸ hr
    obtain ⟨amin, amax, ha, hwf⟩ := target_wf t0 hpick hmem hr'
      (fun _ t ht ho => mem_getOverlaps_true_of_overlaps hr' ht ho)
    exact ⟨_, by simp [expandBase, hr, ← ht0', hlen, ha], hwf⟩
  · obtain ⟨lo, hi, hr'⟩ := getRange_eq_some_of_ne_nil (l := t0') fun h => hne
      (List.eq_nil_iff_forall_not_mem.mpr (by simpa [h] using hpick))
    obtain ⟨amin, amax, ha, hwf⟩ := target_wf t0 hpick hmem hr'
      (fun _ t ht ho => mem_getOverlaps_true_of_overlaps hr' ht ho)
    exact ⟨_, by simp [expandBase, hr, ← ht0', hlen, hr', ha], hwf⟩

/-- The growth step keeps `ExpandState.WF`; when it grows the source set, the target set is the
one it had before and the two sets together stay under the limit. -/
theorem growStep_wf (limit : ℕ) {v : Version K} {s : ℕ} {t0 : TFiles K} {st : ExpandState K}
    (h : st.WF v s t0) :
    ∃ st', growStep limit v s st = some st' ∧ st'.WF v s t0 ∧
      (st'.t0 ≠ st.t0 → st'.t1 = st.t1 ∧ tFilesSize st.t1 + tFilesSize st'.t0 < limit) := by
  have keep : ∃ st', some st = some st' ∧ st'.WF v s t0 ∧
      (st'.t0 ≠ st.t0 → st'.t1 = st.t1 ∧ tFilesSize st.t1 + tFilesSize st'.t0 < limit) :=
    ⟨st, rfl, h, fun hne => absurd rfl hne⟩
  unfold growStep
  by_cases h1 : 0 < st.t1.length
  swap; · rw [if_neg h1]; exact keep
  rw [if_pos h1]
  dsimp only
  set exp0 := getOverlaps (v.level s) (some st.amin.ukey) (some st.amax.ukey) (s == 0) with hexp0
  by_cases h2 : st.t0.length < exp0.length ∧ tFilesSize st.t1 + tFilesSize exp0 < limit
  swap; · rw [if_neg h2]; exact keep
  rw [if_pos h2]
  have hsub : ∀ t ∈ st.t0, t ∈ exp0 := fun t ht =>
    mem_getOverlaps_of_overlaps _ (h.mem_level t ht)
      (overlaps_getRange h.arange (List.mem_append_left _ ht))
  obtain ⟨xmin, xmax, hx⟩ := getRange_eq_some_of_ne_nil (l := exp0) fun he => by
    simp [he] at h2
  obtain ⟨hlo, hhi⟩ := getRange_mono h.range hx hsub
  set exp1 := getOverlaps (v.level (s + 1)) (some xmin.ukey) (some xmax.ukey) false with hexp1
  by_cases h3 : exp1.length = st.t1.length
  swap; · simpa [hx, ← hexp1, h3] using keep
  -- the wider range can only add target tables, and it added none
  have ht1 : st.t1 = exp1 := by
    refine List.Sublist.eq_of_length ?_ h3.symm
    rw [h.target]
    exact List.monotone_filter_right _ fun t => TFile.overlaps_mono
      (InternalKey.ukey_le_of_le hlo) (InternalKey.ukey_le_of_le hhi)
  obtain ⟨amin, amax, ha⟩ := getRange_eq_some_of_ne_nil (l := exp0 ++ exp1) fun he => by
    simp [List.append_eq_nil.mp he |>.1] at h2
  refine ⟨⟨exp0, exp1, xmin, xmax, amin, amax⟩, by simp [hx, ← hexp1, h3, ha], ⟨fun t ht =>
    hsub t (h.pick_mem t ht), fun t ht => mem_of_mem_getOverlaps ht, hx, rfl, ha, ?_⟩,
    fun _ => ⟨ht1.symm, h2.2⟩⟩
  rintro rfl t ht ho
  exact mem_getOverlaps_true_of_overlaps hx ht ho

/-- What an expanded compaction satisfies, for the pick `t0` at level `s`. -/
structure ExpandContract (limit : ℕ) (v : Version K) (s : ℕ) (t0 : TFiles K) (e : Expanded K) :
    Prop where
  /-- The source set contains the pick. -/
  pick_mem : ∀ t ∈ t0, t ∈ e.levels.1
  /-- The source set holds only tables of the source level. -/
  mem_level : ∀ t ∈ e.levels.1, t ∈ v.level s
  /-- `imin`, `imax` is the range of the source set. -/
  range : getRange e.levels.1 = some (e.imin, e.imax)
  /-- The target set is every table one level down meeting that range, in level order. -/
  target : e.levels.2 = (v.level (s + 1)).filter
    fun t => t.overlaps (some e.imin.ukey) (some e.imax.ukey)
  /-- On level 0 no table left out meets the range. -/
  closed : s = 0 → ∀ t ∈ v.level 0, t ∉ e.levels.1 →
    t.overlaps (some e.imin.ukey) (some e.imax.ukey) = false
  /-- Growing the source set kept the target set and stayed under the limit. -/
  grown : ∀ st, expandBase v s t0 = some st → e.levels.1 ≠ st.t0 →
    e.levels.2 = st.t1 ∧ tFilesSize st.t1 + tFilesSize e.levels.1 < limit
  /-- The grandparents are the tables two levels down meeting the range of both sets. -/
  grandparents : ∃ amin amax, getRange (e.levels.1 ++ e.levels.2) = some (amin, amax) ∧
    e.gp = (v.level (s + 2)).filter fun t => t.overlaps (some amin.ukey) (some amax.ukey)

/-- **`expand` meets its contract** for every non-empty pick of tables of the source level. -/
theorem expand_spec {limit : ℕ} {v : Version K} {s : ℕ} {t0 : TFiles K} (hne : t0 ≠ [])
    (hsub : t0.Sublist (v.level s)) :
    ∃ e, expand limit v s t0 = some e ∧ ExpandContract limit v s t0 e := by
  obtain ⟨st, hst, hwf⟩ := expandBase_wf hne hsub
  obtain ⟨st', hst', hwf', hgrow⟩ := growStep_wf limit hwf
  refine ⟨⟨(st'.t0, st'.t1), st'.imin, st'.imax, if s + 2 < v.levels.length then
      getOverlaps (v.level (s + 2)) (some st'.amin.ukey) (some st'.amax.ukey) false else []⟩,
    by simp [expand, hst, hst'], hwf'.pick_mem, hwf'.mem_level, hwf'.range, hwf'.target,
    fun hs t ht hn => Bool.eq_false_iff.mpr fun ho => hn (hwf'.closed hs t ht ho),
    fun st₀ h₀ => by cases hst.symm.trans h₀; exact hgrow, st'.amin, st'.amax, hwf'.arange, ?_⟩
  dsimp only
  split_ifs with hl
  · rfl
  · rw [Version.level_of_le (not_lt.mp hl)]; rfl

/-- A level-0 table over user keys `1 … 5`. -/
def exampleTable0 : TFile ℕ := ⟨1, 10, ⟨1, 257⟩, ⟨5, 257⟩, by decide⟩

/-- A catalog with `exampleTable0` on level 0 and a table over `4 … 8` on level 1. -/
def exampleVersion : Version ℕ := ⟨[[exampleTable0], [⟨2, 10, ⟨4, 257⟩, ⟨8, 257⟩, by decide⟩]]⟩

theorem expand_spec_level0 :
    ([exampleTable0] ≠ [] ∧ [exampleTable0].Sublist (exampleVersion.level 0)) ∧
      ∃ e, expand 100 exampleVersion 0 [exampleTable0] = some e ∧
        ExpandContract 100 exampleVersion 0 [exampleTable0] e :=
  ⟨⟨by decide, by decide⟩, expand_spec (by decide) (by decide)⟩

end LevelDB

end Workshare
