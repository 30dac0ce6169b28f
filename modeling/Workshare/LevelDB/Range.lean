import Workshare.LevelDB.Commit
import Mathlib.Data.DFinsupp.WellFounded

/-!
# Compacting a key range

`DB.tableRangeCompaction` with a negative level compacts the user-key range `[umin, umax]` down
the whole tree. Each pass finds `m`, the deepest level from 1 on with a table meeting the range,
then asks `getCompactionRange` for a compaction on each level below `m` in turn, against the
catalog as the commits before it left it, and commits every compaction it gets. The loop stops
after a pass that got none.

The loop ends whatever the builds write. A compaction from level `L` deletes from `L` at least one
table meeting the range, leaves the levels above `L` alone, and adds tables only to `L + 1`, in any
number. A pass compacts only levels below `m`, so the catalog gains a level only from a one-level
catalog, and never has more than two levels or the levels it started with. So the counts of tables
meeting the range on that many levels, level by level from level 0, go down lexicographically with
every commit, and on vectors of a fixed length that order is well founded.

## Implementation notes

The builds are not modelled: a commit adds to `L + 1` whatever tables the build wrote, and these
are the outputs `outs n` of the `n`-th compaction of the run, for any sequence `outs`. A compaction
always completes, and no other commit changes the catalog during the loop. The option
`CompactionSourceLimit`, which `Options` does not carry, is passed as `sourceLimit`. The number
of passes is bounded by `fuel`, and a run that runs out of it is `none`.

## Main results

* `getCompactionRange_spec` — a compaction for a range takes a table meeting the range
* `rangeCounts_commit_lt` — committing it lowers the counts of tables meeting the range
* `tableRangeCompaction_terminates` — the retry loop ends, after a pass that finds nothing to
  compact on every level below its `m`
-/

namespace Workshare

namespace LevelDB

variable {K : Type} [LinearOrder K]

/-! ## The loop -/

/-- The first tables of `t0`, up to the one at which their sizes reach `limit` (`total` being the
sizes before): the source limit of `getCompactionRange`. -/
def limitSources (limit : ℕ) : ℕ → TFiles K → TFiles K
  | _, [] => []
  | total, t :: ts =>
    if limit ≤ total + t.size then [t] else t :: limitSources limit (total + t.size) ts

/-- `session.getCompactionRange`: a compaction of the tables of `sourceLevel` meeting
`[umin, umax]`, limited in size on levels from 1 on unless `noLimit`; `none` when there are no such
tables. -/
def getCompactionRange (o : Options K) (tableIter : TFiles K → SourceIter K)
    (sourceLimit : ℕ → ℕ) (v : Version K) (sourceLevel : ℕ) (umin umax : Option K)
    (noLimit : Bool) : Option (Compaction K) :=
  if v.levels.length ≤ sourceLevel then none
  else
    let t0 := getOverlaps (v.level sourceLevel) umin umax (sourceLevel == 0)
    if t0.isEmpty then none
    else
      -- Avoid compacting too much in one shot in case the range is large.
      let t0 := if !noLimit && 0 < sourceLevel then limitSources (sourceLimit sourceLevel) 0 t0
        else t0
      let typ := if sourceLevel = 0 then CompactionType.level0 else .nonLevel0
      newCompaction o tableIter v sourceLevel t0 typ

/-- Modelled from the spec: `tFiles.overlaps` (table.go, not among the sources), whether some table
of the level meets `[umin, umax]`. -/
def tFilesOverlaps (tf : TFiles K) (umin umax : Option K) : Bool :=
  tf.any fun t => t.overlaps umin umax

/-- The scan for `m`: the deepest level from 1 on with a table meeting the range, `1` if none. -/
def rangeTop (v : Version K) (umin umax : Option K) : ℕ :=
  (List.range' 1 (v.levels.length - 1)).foldl
    (fun m i => if tFilesOverlaps (v.level i) umin umax then i else m) 1

section Loop

variable (o : Options K) (tableIter : TFiles K → SourceIter K) (sourceLimit : ℕ → ℕ)
  (umin umax : Option K) (outs : ℕ → TFiles K)

/-- The inner loop of a pass over the levels `ls`, from the catalog and the number of compactions
made so far: `getCompactionRange` on each level, committing each compaction it gets
(`tableCompaction(c, true)`, never a trivial move) with the next outputs. The flag is
`compacted`. -/
def rangePass : List ℕ → Version K × ℕ → Bool × (Version K × ℕ)
  | [], st => (false, st)
  | level :: ls, (v, n) =>
    match getCompactionRange o tableIter sourceLimit v level umin umax false with
    | some c => (true, (rangePass ls (v.applyEdit (c.record (outs n)), n + 1)).2)
    | none => rangePass ls (v, n)

/-- The retry loop, for at most `fuel` passes: each pass recomputes `m` from the catalog it starts
from, and the loop ends after a pass that compacted nothing. -/
def tableRangeLoop : ℕ → Version K × ℕ → Option (Version K × ℕ)
  | 0, _ => none
  | fuel + 1, st =>
    let r := rangePass o tableIter sourceLimit umin umax outs
      (List.range (rangeTop st.1 umin umax)) st
    if r.1 then tableRangeLoop fuel r.2 else some r.2

/-- `DB.tableRangeCompaction(level, umin, umax)`: one compaction of `level` when it is not
negative, the retry loop over all levels otherwise. -/
def tableRangeCompaction (fuel : ℕ) (level : ℤ) (v : Version K) : Option (Version K × ℕ) :=
  if 0 ≤ level then
    match getCompactionRange o tableIter sourceLimit v level.toNat umin umax true with
    | some c => some (v.applyEdit (c.record (outs 0)), 1)
    | none => some (v, 0)
  else tableRangeLoop o tableIter sourceLimit umin umax outs fuel (v, 0)

end Loop

/-! ## A compaction for a range -/

theorem limitSources_sublist (limit : ℕ) :
    ∀ (total : ℕ) (ts : TFiles K), (limitSources limit total ts).Sublist ts
  | _, [] => List.Sublist.slnil
  | total, t :: ts => by
    rw [limitSources]
    split
    · exact (List.nil_sublist ts).cons₂ t
    · exact (limitSources_sublist limit _ ts).cons₂ t

theorem limitSources_ne_nil (limit total : ℕ) {ts : TFiles K} (h : ts ≠ []) :
    limitSources limit total ts ≠ [] := by
  obtain ⟨t, ts, rfl⟩ := List.exists_cons_of_ne_nil h
  rw [limitSources]
  split <;> exact List.cons_ne_nil _ _

theorem getOverlaps_sublist (tf : TFiles K) (umin umax : Option K) (b : Bool) :
    (getOverlaps tf umin umax b).Sublist tf := by
  cases b
  · exact List.filter_sublist tf
  · rw [← getOverlaps_true_fixed]
    exact List.filter_sublist tf

/-- A level with overlapping tables returned has one meeting the range itself: on level 0 the
widening starts from the range. -/
theorem exists_overlaps_of_getOverlaps_ne_nil {tf : TFiles K} {umin umax : Option K} {b : Bool}
    (h : getOverlaps tf umin umax b ≠ []) : ∃ t ∈ tf, t.overlaps umin umax = true := by
  cases b
  · obtain ⟨t, ht⟩ := List.exists_mem_of_ne_nil _ h
    exact ⟨t, List.mem_filter.mp ht⟩
  · simp only [getOverlaps, ite_true, overlapClosure, List.length_nil] at h
    split_ifs at h with h0
    · exact absurd rfl h
    · obtain ⟨t, ht⟩ := List.exists_mem_of_length_pos (Nat.pos_of_ne_zero h0)
      obtain ⟨htf, hto⟩ := List.mem_filter.mp ht
      exact ⟨t, htf, by simpa [widenMin, widenMax] using hto⟩

/-- **A compaction for a range** is on a level of the catalog, and takes from it a table meeting
the range. -/
theorem getCompactionRange_spec {o : Options K} {tableIter : TFiles K → SourceIter K}
    {sourceLimit : ℕ → ℕ} {v : Version K} {L : ℕ} {umin umax : Option K} {noLimit : Bool}
    {c : Compaction K} (h : getCompactionRange o tableIter sourceLimit v L umin umax noLimit = some c) :
    L < v.levels.length ∧ c.sourceLevel = L ∧
      ∃ t ∈ c.levels.1, t ∈ v.level L ∧ t.overlaps umin umax = true := by
  by_cases hlen : v.levels.length ≤ L
  · simp [getCompactionRange, hlen] at h
  set t0 := getOverlaps (v.level L) umin umax (L == 0) with ht0
  have hne : t0 ≠ [] := by
    rintro h'
    simp [getCompactionRange, hlen, ← ht0, h'] at h
  simp only [getCompactionRange, if_neg hlen, ← ht0] at h
  rw [if_neg (by simpa using hne)] at h
  set t0' := if !noLimit && 0 < L then limitSources (sourceLimit L) 0 t0 else t0 with ht0'
  have hsub : t0'.Sublist t0 ∧ t0' ≠ [] := by
    rw [ht0']
    split
    · exact ⟨limitSources_sublist _ 0 t0, limitSources_ne_nil _ 0 hne⟩
    · exact ⟨List.Sublist.refl t0, hne⟩
  have hover : ∃ t ∈ t0', t.overlaps umin umax = true := by
    by_cases hL : L = 0
    · obtain ⟨t, htv, hto⟩ := exists_overlaps_of_getOverlaps_ne_nil hne
      have ht' : t0' = t0 := by simp [ht0', hL]
      exact ⟨t, ht' ▸ mem_getOverlaps_of_overlaps _ htv hto, hto⟩
    · obtain ⟨t, ht⟩ := List.exists_mem_of_ne_nil _ hsub.2
      have hft : t ∈ t0 := hsub.1.subset ht
      rw [ht0, show (L == 0) = false by simpa using hL, getOverlaps_false] at hft
      exact ⟨t, ht, (List.mem_filter.mp hft).2⟩
  have hsubv := hsub.1.trans (getOverlaps_sublist _ _ _ _)
  obtain ⟨st, hwf, h1, -⟩ := newCompaction_expandState hsub.2 hsubv h
  obtain ⟨t, ht, hto⟩ := hover
  exact ⟨Nat.lt_of_not_le hlen, (newCompaction_fresh h).2.1,
    t, h1 ▸ hwf.pick_mem t ht, hsubv.subset ht, hto⟩

/-! ## What a commit does to the range -/

/-- The tables of a level meeting `[umin, umax]`. -/
def rangeCount (umin umax : Option K) (tf : TFiles K) : ℕ := tf.countP fun t => t.overlaps umin umax

/-- The counts of tables meeting the range on the first `n` levels, compared lexicographically
from level 0. -/
def rangeCounts (umin umax : Option K) (n : ℕ) (v : Version K) : Lex (Fin n → ℕ) :=
  toLex fun i => rangeCount umin umax (v.level i)

theorem Compaction.record_adds_other (c : Compaction K) (outputs : TFiles K) {i : ℕ}
    (hi : i ≠ c.sourceLevel + 1) :
    ((c.record outputs).2.filterMap fun (j, t) => if j = i then some t else none) = [] := by
  simp [Compaction.record, List.filterMap_map, Function.comp_def, Ne.symm hi]

theorem Compaction.record_keeps_above (c : Compaction K) (outputs : TFiles K) {i : ℕ}
    (hi : i < c.sourceLevel) (n : ℕ) : (i, n) ∉ (c.record outputs).1 := by
  simp only [Compaction.record, List.mem_append, List.mem_map, Prod.mk.injEq, not_or, not_exists,
    not_and]
  constructor <;> intro t _ h <;> omega

theorem Compaction.record_deletes_source (c : Compaction K) (outputs : TFiles K) {t : TFile K}
    (ht : t ∈ c.levels.1) : (c.sourceLevel, t.num) ∈ (c.record outputs).1 :=
  List.mem_append_left _ (List.mem_map_of_mem _ ht)

/-- **A commit keeps the levels above its source level.** -/
theorem rangeCount_commit_above (umin umax : Option K) (v : Version K) (c : Compaction K)
    (outputs : TFiles K) {i : ℕ} (hi : i < c.sourceLevel) :
    rangeCount umin umax ((v.applyEdit (c.record outputs)).level i) =
      rangeCount umin umax (v.level i) := by
  rw [rangeCount, (v.applyEdit_level_perm _ i).countP_eq, Version.editLevel,
    c.record_adds_other outputs (by omega), List.append_nil,
    List.filter_eq_self.mpr fun t _ => by simp [c.record_keeps_above outputs hi]]
  rfl

/-- **A commit lowers the count of its source level**, by a source table meeting the range. -/
theorem rangeCount_commit_source (umin umax : Option K) {v : Version K} {c : Compaction K}
    (outputs : TFiles K) {t : TFile K} (htc : t ∈ c.levels.1) (htv : t ∈ v.level c.sourceLevel)
    (hto : t.overlaps umin umax = true) :
    rangeCount umin umax ((v.applyEdit (c.record outputs)).level c.sourceLevel) <
      rangeCount umin umax (v.level c.sourceLevel) := by
  unfold rangeCount
  rw [(v.applyEdit_level_perm _ _).countP_eq, Version.editLevel,
    c.record_adds_other outputs (by omega), List.append_nil]
  set keep : TFile K → Bool := fun t => !(c.record outputs).1.contains (c.sourceLevel, t.num)
  have hdel : keep t = false := by simp [keep, c.record_deletes_source outputs htc]
  have hpos : 0 < ((v.level c.sourceLevel).filter fun t => !keep t).countP
      fun t => t.overlaps umin umax :=
    List.countP_pos_iff.mpr ⟨t, List.mem_filter.mpr ⟨htv, by simp [hdel]⟩, hto⟩
  rw [List.countP_eq_countP_filter_add (v.level c.sourceLevel) _ keep]
  omega

/-- **Committing a compaction for a range lowers the counts** of tables meeting the range on the
first `N` levels, lexicographically, whatever tables the build wrote, when the catalog has at most
`N` levels. -/
theorem rangeCounts_commit_lt {o : Options K} {tableIter : TFiles K → SourceIter K}
    {sourceLimit : ℕ → ℕ} {v : Version K} {L : ℕ} {umin umax : Option K} {noLimit : Bool}
    {c : Compaction K} {N : ℕ} (hN : v.levels.length ≤ N)
    (h : getCompactionRange o tableIter sourceLimit v L umin umax noLimit = some c)
    (outputs : TFiles K) :
    rangeCounts umin umax N (v.applyEdit (c.record outputs)) < rangeCounts umin umax N v := by
  obtain ⟨hL, rfl, t, htc, htv, hto⟩ := getCompactionRange_spec h
  refine ⟨⟨c.sourceLevel, hL.trans_le hN⟩, fun j hj => ?_, ?_⟩
  · exact rangeCount_commit_above umin umax v c outputs hj
  · exact rangeCount_commit_source umin umax outputs htc htv hto

/-- A commit from a level `L` with `L + 1 < N` keeps a catalog of at most `N` levels within `N`:
it adds to `L + 1` only. -/
theorem Compaction.record_depth_le {v : Version K} {c : Compaction K} (outputs : TFiles K) {N : ℕ}
    (hN : v.levels.length ≤ N) (hL : c.sourceLevel + 1 < N) :
    (v.applyEdit (c.record outputs)).levels.length ≤ N := by
  rw [Version.applyEdit_depth]
  refine editDepth_le (fun p hp => ?_) hN
  obtain ⟨t, -, rfl⟩ := List.mem_map.mp hp
  exact hL

/-- The scan for `m` ends below any bound of at least 2 on the number of levels. -/
theorem rangeTop_lt {v : Version K} (umin umax : Option K) {N : ℕ} (hN : v.levels.length ≤ N)
    (h2 : 2 ≤ N) : rangeTop v umin umax < N := by
  suffices ∀ (l : List ℕ) (m : ℕ), m < N → (∀ i ∈ l, i < N) →
      l.foldl (fun m i => if tFilesOverlaps (v.level i) umin umax then i else m) m < N from
    this _ 1 (by omega) fun i hi => by rw [List.mem_range'_1] at hi; omega
  intro l
  induction l with
  | nil => exact fun m hm _ => hm
  | cons i l ih =>
    intro m hm hl
    refine ih _ ?_ fun j hj => hl j (List.mem_cons_of_mem _ hj)
    dsimp only
    split
    · exact hl i (List.mem_cons_self _ _)
    · exact hm

/-! ## The loop ends -/

section Loop

variable {o : Options K} {tableIter : TFiles K → SourceIter K} {sourceLimit : ℕ → ℕ}
  {umin umax : Option K} {outs : ℕ → TFiles K}

/-- A pass that compacted nothing left the catalog as it was, and found nothing on its levels. -/
theorem rangePass_quiet :
    ∀ {ls : List ℕ} {st : Version K × ℕ},
      (rangePass o tableIter sourceLimit umin umax outs ls st).1 = false →
      (rangePass o tableIter sourceLimit umin umax outs ls st).2 = st ∧
        ∀ L ∈ ls, getCompactionRange o tableIter sourceLimit st.1 L umin umax false = none
  | [], _, _ => ⟨rfl, by simp⟩
  | L :: ls, (v, k), h => by
    cases hc : getCompactionRange o tableIter sourceLimit v L umin umax false with
    | some c => simp [rangePass, hc] at h
    | none =>
      simp only [rangePass, hc] at h ⊢
      obtain ⟨hst, hnone⟩ := rangePass_quiet h
      exact ⟨hst, List.forall_mem_cons.mpr ⟨hc, hnone⟩⟩

/-- **One pass** over levels `L` with `L + 1 < N` keeps a catalog within `N` levels and never raises
the counts on them; a pass that compacted lowers them. -/
theorem rangePass_measure {N : ℕ} :
    ∀ (ls : List ℕ) (st : Version K × ℕ), (∀ L ∈ ls, L + 1 < N) → st.1.levels.length ≤ N →
      (rangePass o tableIter sourceLimit umin umax outs ls st).2.1.levels.length ≤ N ∧
        rangeCounts umin umax N (rangePass o tableIter sourceLimit umin umax outs ls st).2.1 ≤
          rangeCounts umin umax N st.1 ∧
        ((rangePass o tableIter sourceLimit umin umax outs ls st).1 = true →
          rangeCounts umin umax N (rangePass o tableIter sourceLimit umin umax outs ls st).2.1 <
            rangeCounts umin umax N st.1)
  | [], _, _, hn => ⟨hn, le_rfl, by simp [rangePass]⟩
  | L :: ls, (v, k), hls, hn => by
    have hls' : ∀ L ∈ ls, L + 1 < N := fun L' h => hls L' (List.mem_cons_of_mem _ h)
    cases hc : getCompactionRange o tableIter sourceLimit v L umin umax false with
    | none =>
      simp only [rangePass, hc]
      exact rangePass_measure ls (v, k) hls' hn
    | some c =>
      have hL : c.sourceLevel + 1 < N :=
        (getCompactionRange_spec hc).2.1 ▸ hls L (List.mem_cons_self _ _)
      obtain ⟨hlen, hle, -⟩ := rangePass_measure ls (v.applyEdit (c.record (outs k)), k + 1) hls'
        (Compaction.record_depth_le _ hn hL)
      have hlt := lt_of_le_of_lt hle (rangeCounts_commit_lt hn hc (outs k))
      simp only [rangePass, hc]
      exact ⟨hlen, hlt.le, fun _ => hlt⟩

/-- The retry loop from any catalog ends, after a pass that finds nothing below its `m`. The
catalog may gain a level, from a pass over a one-level catalog, and then stays within two levels
or the levels it had: a pass compacts only levels below `m`, which is below that bound. -/
theorem tableRangeLoop_terminates (v : Version K) (k : ℕ) :
    ∃ fuel st, tableRangeLoop o tableIter sourceLimit umin umax outs fuel (v, k) = some st ∧
      ∀ L < rangeTop st.1 umin umax,
        getCompactionRange o tableIter sourceLimit st.1 L umin umax false = none := by
  suffices h : ∀ N, 2 ≤ N → ∀ (v : Version K) (k : ℕ), v.levels.length ≤ N → ∃ fuel st,
      tableRangeLoop o tableIter sourceLimit umin umax outs fuel (v, k) = some st ∧
        ∀ L < rangeTop st.1 umin umax,
          getCompactionRange o tableIter sourceLimit st.1 L umin umax false = none from
    h (v.levels.length + 2) (by omega) v k (by omega)
  intro N h2 v
  induction v using WellFounded.induction (InvImage.wf (rangeCounts umin umax N) wellFounded_lt) with
  | _ v ih =>
    intro k hn
    set r := rangePass o tableIter sourceLimit umin umax outs
      (List.range (rangeTop v umin umax)) (v, k) with hr
    cases h1 : r.1
    · obtain ⟨hst, hnone⟩ := rangePass_quiet h1
      replace hst : r.2 = (v, k) := hst
      refine ⟨1, (v, k), by simp [tableRangeLoop, ← hr, h1, hst], fun L hL => ?_⟩
      exact hnone L (List.mem_range.mpr hL)
    · have htop := rangeTop_lt umin umax hn h2
      obtain ⟨hlen, -, hlt⟩ := rangePass_measure (List.range (rangeTop v umin umax)) (v, k)
        (fun L hL => by rw [List.mem_range] at hL; omega) hn
      obtain ⟨fuel, st, hrun, hq⟩ := ih r.2.1 (hlt h1) r.2.2 hlen
      exact ⟨fuel + 1, st, by simpa only [tableRangeLoop, ← hr, h1] using hrun, hq⟩

/-- **The range compaction loop ends.** Called with a negative level, whatever the range, the
catalog and the tables each build writes, `tableRangeCompaction` returns after finitely many
passes, the last of which finds, on every level below the `m` it recomputed, no compaction for the
range. -/
theorem tableRangeCompaction_terminates (level : ℤ) (hl : level < 0) (v : Version K) :
    ∃ fuel st, tableRangeCompaction o tableIter sourceLimit umin umax outs fuel level v = some st ∧
      ∀ L < rangeTop st.1 umin umax,
        getCompactionRange o tableIter sourceLimit st.1 L umin umax false = none := by
  simp only [tableRangeCompaction, if_neg (show ¬0 ≤ level by omega)]
  exact tableRangeLoop_terminates v 0

end Loop

theorem tableRangeCompaction_terminates_exVersion :
    (-1 : ℤ) < 0 ∧ ∃ fuel st, tableRangeCompaction exampleOptions (fun _ => exIter) (fun _ => 1000)
        none none (fun _ => []) fuel (-1) exVersion = some st ∧
      ∀ L < rangeTop st.1 none none,
        getCompactionRange exampleOptions (fun _ => exIter) (fun _ => 1000) st.1 L none none false =
          none :=
  ⟨by decide, tableRangeCompaction_terminates (-1) (by decide) exVersion⟩

/-- Compacting everything in `exVersion`, with builds that write nothing: the first pass compacts
`[b, m]` into level 2, where `reduce` left `[d, f]`; the second finds nothing. -/
example : (tableRangeCompaction exampleOptions (fun _ => exIter) (fun _ => 1000) none none
    (fun _ => []) 2 (-1) exVersion).map (fun st => (st.1.levels.map (·.map TFile.num), st.2)) =
      some ([[], [], [3]], 1) := by
  decide

end LevelDB

end Workshare
