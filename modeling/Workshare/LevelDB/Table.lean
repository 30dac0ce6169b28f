import Workshare.LevelDB.Key
import Mathlib.Data.List.Sort
import Mathlib.Data.List.GetD
import Mathlib.Order.MinMax
import Mathlib.Algebra.BigOperators.Group.List

/-!
# Table files and levels

A `TFile` is the catalog's descriptor of one sorted table: its file number, its size and its
smallest and largest internal keys. A level is a list of them. Level 0 receives flushed tables
and may overlap; every deeper level is kept sorted with pairwise disjoint user-key ranges, which
is `LevelSorted` below and the invariant `Version.Sorted` of a whole catalog.

## Implementation notes

`table.go` and `version.go` are not among the sources. `getRange` and `overlaps` are the two
obvious loops the compaction code relies on. `getOverlaps` is modelled from the spec: on a sorted
level (`overlapped = false`) it returns the tables whose user-key range meets `[umin, umax]`, in
level order; on level 0 (`overlapped = true`) the range is first widened until no table meeting it
reaches outside it ("re-absorb any additional level-0 files whose range overlaps", in the spec's
words), and the tables meeting the widened range are returned. The widening is computed by
`overlapClosure` with one round per table, which `overlapClosure_fixed` shows is always enough.

A `nil` bound, meaning "unbounded" in `getCompactionRange`, is `none`.

## Main results

* `TFile.overlaps_widen_iff` — what meeting a widened range means
* `getRange_bounds` — the range returned bounds every table and is attained
* `overlapClosure_fixed` — the level-0 closure is a fixed point of one widening round
-/

namespace Workshare

namespace LevelDB

/-- A table file descriptor (`tFile`): file number, size in bytes, smallest and largest key.
A table is written in key order, so its smallest key is at most its largest. -/
structure TFile (K : Type) [LinearOrder K] where
  /-- `fd.Num`. -/
  num : ℕ
  /-- The file size. -/
  size : ℕ
  /-- The smallest internal key of the table. -/
  imin : InternalKey K
  /-- The largest internal key of the table. -/
  imax : InternalKey K
  /-- The first key written precedes the last. -/
  imin_le_imax : imin ≤ imax
  deriving DecidableEq

variable {K : Type} [LinearOrder K]

/-- A list of tables (`tFiles`). -/
abbrev TFiles (K : Type) [LinearOrder K] := List (TFile K)

/-- Total size of the tables (`tFiles.size`). -/
def tFilesSize : TFiles K → ℕ
  | [] => 0
  | t :: tf => t.size + tFilesSize tf

@[simp] theorem tFilesSize_append (a b : TFiles K) : tFilesSize (a ++ b) = tFilesSize a + tFilesSize b := by
  induction a with
  | nil => simp [tFilesSize]
  | cons t a ih => simp [tFilesSize, ih, Nat.add_assoc]

namespace TFile

theorem imin_ukey_le (t : TFile K) : t.imin.ukey ≤ t.imax.ukey :=
  InternalKey.ukey_le_of_le t.imin_le_imax

/-- The key lies after the table's largest user key (`tFile.after`); `nil` never does. -/
def after (t : TFile K) : Option K → Bool
  | some u => t.imax.ukey < u
  | none => false

/-- The key lies before the table's smallest user key (`tFile.before`); `nil` never does. -/
def before (t : TFile K) : Option K → Bool
  | some u => u < t.imin.ukey
  | none => false

/-- The table's user-key range meets `[umin, umax]` (`tFile.overlaps`). -/
def overlaps (t : TFile K) (umin umax : Option K) : Bool :=
  !t.after umin && !t.before umax

@[simp] theorem overlaps_some (t : TFile K) (u w : K) :
    t.overlaps (some u) (some w) = true ↔ u ≤ t.imax.ukey ∧ t.imin.ukey ≤ w := by
  simp [overlaps, after, before]

@[simp] theorem overlaps_none_none (t : TFile K) : t.overlaps none none = true := rfl

end TFile

/-! ## The key range of a list of tables -/

/-- One step of `tFiles.getRange`: keep the smaller smallest key and the larger largest key. -/
def rangeStep (r : InternalKey K × InternalKey K) (t : TFile K) : InternalKey K × InternalKey K :=
  (min r.1 t.imin, max r.2 t.imax)

/-- The smallest and largest internal key of a non-empty list of tables (`tFiles.getRange`).
The source returns `nil` keys for an empty list, and every caller then panics on `ukey()`. -/
def getRange : TFiles K → Option (InternalKey K × InternalKey K)
  | [] => none
  | t :: ts => some (ts.foldl rangeStep (t.imin, t.imax))

theorem foldl_rangeStep_le (ts : TFiles K) (r : InternalKey K × InternalKey K) :
    (ts.foldl rangeStep r).1 ≤ r.1 ∧ r.2 ≤ (ts.foldl rangeStep r).2 := by
  induction ts generalizing r with
  | nil => simp
  | cons t ts ih =>
    obtain ⟨h1, h2⟩ := ih (rangeStep r t)
    exact ⟨h1.trans (min_le_left _ _), (le_max_left _ _).trans h2⟩

theorem foldl_rangeStep_bound (ts : TFiles K) (r : InternalKey K × InternalKey K) :
    ∀ t ∈ ts, (ts.foldl rangeStep r).1 ≤ t.imin ∧ t.imax ≤ (ts.foldl rangeStep r).2 := by
  induction ts generalizing r with
  | nil => simp
  | cons t ts ih =>
    intro u hu
    rcases List.mem_cons.mp hu with rfl | hu
    · obtain ⟨h1, h2⟩ := foldl_rangeStep_le ts (rangeStep r u)
      exact ⟨h1.trans (min_le_right _ _), (le_max_right _ _).trans h2⟩
    · exact ih (rangeStep r t) u hu

theorem foldl_rangeStep_attained (ts : TFiles K) (r : InternalKey K × InternalKey K) :
    ((ts.foldl rangeStep r).1 = r.1 ∨ ∃ t ∈ ts, (ts.foldl rangeStep r).1 = t.imin) ∧
      ((ts.foldl rangeStep r).2 = r.2 ∨ ∃ t ∈ ts, (ts.foldl rangeStep r).2 = t.imax) := by
  induction ts generalizing r with
  | nil => simp
  | cons t ts ih =>
    obtain ⟨h1, h2⟩ := ih (rangeStep r t)
    simp only [List.foldl_cons, List.mem_cons, exists_eq_or_imp]
    refine ⟨?_, ?_⟩
    · rcases h1 with h | h
      · rcases min_choice r.1 t.imin with hm | hm
        · exact .inl (h.trans hm)
        · exact .inr (.inl (h.trans hm))
      · exact .inr (.inr h)
    · rcases h2 with h | h
      · rcases max_choice r.2 t.imax with hm | hm
        · exact .inl (h.trans hm)
        · exact .inr (.inl (h.trans hm))
      · exact .inr (.inr h)

/-- **The range bounds every table and is attained.** -/
theorem getRange_bounds {tf : TFiles K} {lo hi : InternalKey K}
    (h : getRange tf = some (lo, hi)) :
    (∀ t ∈ tf, lo ≤ t.imin ∧ t.imax ≤ hi) ∧ (∃ t ∈ tf, lo = t.imin) ∧ ∃ t ∈ tf, hi = t.imax := by
  cases tf with
  | nil => cases h
  | cons t ts =>
    simp only [getRange, Option.some.injEq] at h
    have hb := foldl_rangeStep_bound ts (t.imin, t.imax)
    obtain ⟨h1, h2⟩ := foldl_rangeStep_le ts (t.imin, t.imax)
    obtain ⟨h4, h5⟩ := foldl_rangeStep_attained ts (t.imin, t.imax)
    rw [h] at hb h1 h2 h4 h5
    refine ⟨fun u hu => ?_, ?_, ?_⟩
    · rcases List.mem_cons.mp hu with rfl | hu
      · exact ⟨h1, h2⟩
      · exact hb u hu
    · rcases h4 with h | ⟨u, hu, h⟩
      · exact ⟨t, List.mem_cons_self _ _, h⟩
      · exact ⟨u, List.mem_cons_of_mem _ hu, h⟩
    · rcases h5 with h | ⟨u, hu, h⟩
      · exact ⟨t, List.mem_cons_self _ _, h⟩
      · exact ⟨u, List.mem_cons_of_mem _ hu, h⟩

theorem getRange_eq_some_of_ne_nil {l : TFiles K} (h : l ≠ []) :
    ∃ lo hi, getRange l = some (lo, hi) := by
  cases l with
  | nil => exact absurd rfl h
  | cons t ts => exact ⟨_, _, rfl⟩

/-! ## Overlapping tables -/

/-- The lower bound widened to the smallest user key of the tables `s`; `nil` stays `nil`. -/
def widenMin (umin : Option K) (s : TFiles K) : Option K :=
  umin.map fun u => s.foldr (fun t m => min t.imin.ukey m) u

/-- The upper bound widened to the largest user key of the tables `s`; `nil` stays `nil`. -/
def widenMax (umax : Option K) (s : TFiles K) : Option K :=
  umax.map fun u => s.foldr (fun t m => max t.imax.ukey m) u

theorem foldr_min_le_iff (s : TFiles K) (u x : K) :
    s.foldr (fun t m => min t.imin.ukey m) u ≤ x ↔ u ≤ x ∨ ∃ t ∈ s, t.imin.ukey ≤ x := by
  induction s with
  | nil => simp
  | cons t s ih =>
    simp only [List.foldr_cons, min_le_iff, ih, List.mem_cons, exists_eq_or_imp]
    exact or_left_comm

theorem le_foldr_max_iff (s : TFiles K) (u x : K) :
    x ≤ s.foldr (fun t m => max t.imax.ukey m) u ↔ x ≤ u ∨ ∃ t ∈ s, x ≤ t.imax.ukey := by
  induction s with
  | nil => simp
  | cons t s ih =>
    simp only [List.foldr_cons, le_max_iff, ih, List.mem_cons, exists_eq_or_imp]
    exact or_left_comm

/-- A table meets `[umin, umax]` widened by `s` when it meets the original range or reaches one of
the tables of `s`, on each side. -/
theorem TFile.overlaps_widen_iff (t : TFile K) (umin umax : Option K) (s : TFiles K) :
    t.overlaps (widenMin umin s) (widenMax umax s) = true ↔
      (∀ u ∈ umin, u ≤ t.imax.ukey ∨ ∃ t' ∈ s, t'.imin.ukey ≤ t.imax.ukey) ∧
      (∀ w ∈ umax, t.imin.ukey ≤ w ∨ ∃ t' ∈ s, t.imin.ukey ≤ t'.imax.ukey) := by
  cases umin <;> cases umax <;>
    simp [widenMin, widenMax, overlaps, after, before, foldr_min_le_iff, le_foldr_max_iff,
      ← not_le]

/-- One round of the level-0 search: the tables meeting the range widened by `s`. -/
def overlapRound (tf : TFiles K) (umin umax : Option K) (s : TFiles K) : TFiles K :=
  tf.filter fun t => t.overlaps (widenMin umin s) (widenMax umax s)

/-- Rounds of `overlapRound` from `s` until one adds no table, at most `fuel` of them. -/
def overlapClosure (tf : TFiles K) (umin umax : Option K) : ℕ → TFiles K → TFiles K
  | 0, s => s
  | fuel + 1, s =>
    let s' := overlapRound tf umin umax s
    if s'.length = s.length then s else overlapClosure tf umin umax fuel s'

/-- Modelled from the spec: `tFiles.getOverlaps` (table.go, not among the sources). The tables of
`tf` whose user-key range meets `[umin, umax]`, in the order of `tf`; with `overlapped` (level 0)
the range is first widened until no table meeting it reaches outside it. The `dst` argument only
recycles a slice's storage and is not modelled. -/
def getOverlaps (tf : TFiles K) (umin umax : Option K) (overlapped : Bool) : TFiles K :=
  if overlapped then overlapClosure tf umin umax (tf.length + 1) []
  else tf.filter fun t => t.overlaps umin umax

theorem overlapRound_mono (tf : TFiles K) (umin umax : Option K) {s s' : TFiles K}
    (h : ∀ t ∈ s, t ∈ s') : (overlapRound tf umin umax s).Sublist (overlapRound tf umin umax s') := by
  refine List.monotone_filter_right tf fun t ht => ?_
  rw [TFile.overlaps_widen_iff] at ht ⊢
  exact ⟨fun u hu => (ht.1 u hu).imp_right fun ⟨x, hx, hle⟩ => ⟨x, h x hx, hle⟩,
    fun w hw => (ht.2 w hw).imp_right fun ⟨x, hx, hle⟩ => ⟨x, h x hx, hle⟩⟩

/-- **The closure is a fixed point of one round.** Started from a list below its own round, with
one round per table still missing, the search stops at a list equal to its own round. -/
theorem overlapClosure_fixed (tf : TFiles K) (umin umax : Option K) :
    ∀ (fuel : ℕ) (s : TFiles K), s.Sublist (overlapRound tf umin umax s) →
      tf.length < fuel + s.length →
      overlapRound tf umin umax (overlapClosure tf umin umax fuel s) =
        overlapClosure tf umin umax fuel s
  | 0, s, hs, hlen => by
    have := (hs.trans (List.filter_sublist tf)).length_le
    omega
  | fuel + 1, s, hs, hlen => by
    simp only [overlapClosure]
    split
    · next heq => exact (hs.eq_of_length heq.symm).symm
    · next hne =>
      have hlt : s.length < (overlapRound tf umin umax s).length :=
        lt_of_le_of_ne hs.length_le (Ne.symm hne)
      exact overlapClosure_fixed tf umin umax fuel _
        (overlapRound_mono tf umin umax fun t ht => hs.subset ht) (by omega)

theorem getOverlaps_true_fixed (tf : TFiles K) (umin umax : Option K) :
    overlapRound tf umin umax (getOverlaps tf umin umax true) = getOverlaps tf umin umax true :=
  overlapClosure_fixed tf umin umax _ [] (List.nil_sublist _) (by simp)

theorem getOverlaps_false (tf : TFiles K) (umin umax : Option K) :
    getOverlaps tf umin umax false = tf.filter fun t => t.overlaps umin umax := rfl

theorem mem_of_mem_getOverlaps {tf : TFiles K} {umin umax : Option K} {b : Bool} {t : TFile K}
    (h : t ∈ getOverlaps tf umin umax b) : t ∈ tf := by
  cases b
  · exact List.mem_of_mem_filter h
  · rw [← getOverlaps_true_fixed] at h
    exact List.mem_of_mem_filter h

/-- Every table meeting the range is returned, whatever the mode. -/
theorem mem_getOverlaps_of_overlaps {tf : TFiles K} {umin umax : Option K} (b : Bool)
    {t : TFile K} (ht : t ∈ tf) (ho : t.overlaps umin umax = true) :
    t ∈ getOverlaps tf umin umax b := by
  cases b
  · exact List.mem_filter.mpr ⟨ht, ho⟩
  · rw [← getOverlaps_true_fixed]
    refine (overlapRound_mono tf umin umax (s := []) (by simp)).subset ?_
    simpa [overlapRound, widenMin, widenMax] using ⟨ht, ho⟩

theorem TFile.overlaps_mono {t : TFile K} {u u' w w' : K} (hu : u' ≤ u) (hw : w ≤ w')
    (h : t.overlaps (some u) (some w) = true) : t.overlaps (some u') (some w') = true := by
  rw [TFile.overlaps_some] at h ⊢
  exact ⟨hu.trans h.1, h.2.trans hw⟩

/-- A member of a list meets the list's range. -/
theorem overlaps_getRange {l : TFiles K} {lo hi : InternalKey K} (h : getRange l = some (lo, hi))
    {t : TFile K} (ht : t ∈ l) : t.overlaps (some lo.ukey) (some hi.ukey) = true := by
  obtain ⟨hb, -⟩ := getRange_bounds h
  rw [TFile.overlaps_some]
  exact ⟨InternalKey.ukey_le_of_le ((hb t ht).1.trans t.imin_le_imax),
    InternalKey.ukey_le_of_le (t.imin_le_imax.trans (hb t ht).2)⟩

/-- The range of a list covers the range of any list whose members it contains. -/
theorem getRange_mono {a b : TFiles K} {lo hi lo' hi' : InternalKey K}
    (ha : getRange a = some (lo, hi)) (hb : getRange b = some (lo', hi'))
    (hab : ∀ t ∈ a, t ∈ b) : lo' ≤ lo ∧ hi ≤ hi' := by
  obtain ⟨-, ⟨t, ht, rfl⟩, u, hu, rfl⟩ := getRange_bounds ha
  obtain ⟨bb, -⟩ := getRange_bounds hb
  exact ⟨(bb t (hab t ht)).1, (bb u (hab u hu)).2⟩

/-- **The level-0 search is closed.** A table of the level meeting the range of the returned
tables is one of them. -/
theorem mem_getOverlaps_true_of_overlaps {tf : TFiles K} {umin umax : Option K}
    {lo hi : InternalKey K} (hr : getRange (getOverlaps tf umin umax true) = some (lo, hi))
    {t : TFile K} (ht : t ∈ tf) (ho : t.overlaps (some lo.ukey) (some hi.ukey) = true) :
    t ∈ getOverlaps tf umin umax true := by
  obtain ⟨-, ⟨t₁, h₁, rfl⟩, t₂, h₂, rfl⟩ := getRange_bounds hr
  rw [TFile.overlaps_some] at ho
  rw [← getOverlaps_true_fixed]
  refine List.mem_filter.mpr ⟨ht, (TFile.overlaps_widen_iff _ _ _ _).mpr ⟨?_, ?_⟩⟩
  · exact fun _ _ => .inr ⟨t₁, h₁, ho.1⟩
  · exact fun _ _ => .inr ⟨t₂, h₂, ho.2⟩

/-! ## Sorted levels and versions -/

/-- A sorted level: each table lies entirely before every later one, by user key. -/
def LevelSorted (tf : TFiles K) : Prop :=
  tf.Pairwise fun a b => a.imax.ukey < b.imin.ukey

instance (tf : TFiles K) : Decidable (LevelSorted tf) :=
  inferInstanceAs (Decidable (List.Pairwise _ _))

/-- A catalog snapshot (`version`): its levels of tables, level 0 first. -/
structure Version (K : Type) [LinearOrder K] where
  /-- `v.levels`. -/
  levels : List (TFiles K)
  deriving DecidableEq

/-- The tables of one level; a level past the last is empty. -/
def Version.level (v : Version K) (i : ℕ) : TFiles K := v.levels.getD i []

/-- The catalog invariant: every level from 1 on is sorted. -/
def Version.Sorted (v : Version K) : Prop := ∀ tf ∈ v.levels.drop 1, LevelSorted tf

instance (v : Version K) : Decidable v.Sorted := inferInstanceAs (Decidable (∀ _ ∈ _, _))

theorem Version.level_of_le {v : Version K} {i : ℕ} (h : v.levels.length ≤ i) : v.level i = [] :=
  List.getD_eq_default _ _ h

theorem Version.Sorted.level {v : Version K} (h : v.Sorted) {i : ℕ} (hi : 1 ≤ i) :
    LevelSorted (v.level i) := by
  unfold Version.level
  rcases Nat.lt_or_ge i v.levels.length with hl | hl
  · rw [List.getD_eq_getElem _ _ hl]
    refine h _ ?_
    rw [List.mem_iff_getElem]
    exact ⟨i - 1, by simp; omega, by simp; congr 1; omega⟩
  · rw [List.getD_eq_default _ _ hl]
    exact List.Pairwise.nil

theorem Version.sorted_of_level {v : Version K} (h : ∀ i, 1 ≤ i → LevelSorted (v.level i)) :
    v.Sorted := by
  intro tf htf
  obtain ⟨j, hj⟩ := List.mem_iff_getElem?.mp htf
  rw [List.getElem?_drop] at hj
  simpa [Version.level, hj] using h (1 + j) (by omega)

end LevelDB

end Workshare
