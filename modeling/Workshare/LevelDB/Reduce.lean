import Workshare.LevelDB.Compaction

/-!
# `reduce` and `newCompaction`

`reduce` trims the target set of a compaction. Every target table that is not the first, not the
last and not small is probed with one `Seek` into the iterator over the source tables: if the first
source key at or after the table's smallest key lies beyond its largest user key, and the key
before it lies before its smallest user key, no source entry falls inside the table. The table is
then moved to the skip list and left in place by the compaction.

The comparison is on user keys on purpose: a source entry may share a user key with the table's
boundary key at a different sequence number, and a user key must never be split across two tables
of one level.

## Implementation notes

The iterator over the source tables is a parameter, `SourceIter`: the internal keys it yields, in
order, and whether it ended with an error. `Seek` and `Prev` are positions in that list. Table
contents are not part of the catalog model, so `newCompaction` takes the iterator as a function of
the source tables.

## Main results

* `reduceLoop_perm`, `reduceLoop_head`, `reduceLoop_getLast` — the loop partitions the target set
  in order, keeping its ends
* `reduceSkips_clear` — a skipped table holds no source user key, for any iterator in key order
* `reduce_spec` — the outcome of `reduce`
-/

namespace Workshare

namespace LevelDB

variable {K : Type} [LinearOrder K]

/-- The iterator `reduce` seeks in: the internal keys of the source tables in iteration order, and
whether iteration ended with an error (`it.Error()`). -/
structure SourceIter (K : Type) where
  keys : List (InternalKey K)
  err : Bool

/-- Whether the probe of `reduce` skips the `i`-th of `n` target tables: it is neither first, last
nor small, `Seek(t.imin)` lands after its largest user key, and `Prev` lands before its smallest. -/
def reduceSkips (it : SourceIter K) (targetTableSize n i : ℕ) (t : TFile K) : Bool :=
  -- the first, the last and small tables are ignored.
  if i = 0 ∨ i = n - 1 ∨ t.size < targetTableSize / 10 then false
  else
    let p := it.keys.findIdx (t.imin ≤ ·)
    match it.keys[p]? with
    | none => false
    | some k =>
      if t.imax.ukey < k.ukey then
        match p with
        | 0 => false
        | p' + 1 => match it.keys[p']? with
          | some k' => decide (k'.ukey < t.imin.ukey)
          | none => false
      else false

/-- The loop of `reduce` from position `i`: the tables kept (`ft`) and the tables skipped. -/
def reduceLoop (skip : ℕ → TFile K → Bool) : ℕ → TFiles K → TFiles K × TFiles K
  | _, [] => ([], [])
  | i, t :: ts =>
    let r := reduceLoop skip (i + 1) ts
    if skip i t then (r.1, t :: r.2) else (t :: r.1, r.2)

/-- The loop of `reduce` over the whole target set of `c`. -/
def Compaction.reduceSplit (o : Options K) (it : SourceIter K) (c : Compaction K) :
    TFiles K × TFiles K :=
  reduceLoop (reduceSkips it (o.compactionTableSize (c.sourceLevel + 1)) c.levels.2.length) 0
    c.levels.2

/-- Trim the target set of a compaction (`compaction.reduce`). -/
def Compaction.reduce (o : Options K) (it : SourceIter K) (c : Compaction K) : Compaction K :=
  if c.levels.2.length ≤ 2 then c
  else
    let r := c.reduceSplit o it
    if !it.err ∧ 0 < r.2.length then { c with levels := (c.levels.1, r.1), skips := r.2 } else c

/-- `reduce` leaves `c` as it is, or, with no iterator error and a table to skip, replaces the
target set and the skip list by the loop's result. -/
theorem Compaction.reduce_cases (o : Options K) (it : SourceIter K) (c : Compaction K) :
    c.reduce o it = c ∨ (it.err = false ∧ 0 < (c.reduceSplit o it).2.length ∧
      c.reduce o it =
        { c with levels := (c.levels.1, (c.reduceSplit o it).1), skips := (c.reduceSplit o it).2 })
    := by
  unfold Compaction.reduce
  dsimp only
  split_ifs with h1 h2
  · exact .inl rfl
  · simp only [Bool.not_eq_true', decide_eq_true_eq] at h2
    exact .inr ⟨h2.1, h2.2, rfl⟩
  · exact .inl rfl

/-! ## The loop partitions the target set -/

section Loop

variable (skip : ℕ → TFile K → Bool)

theorem reduceLoop_perm (i : ℕ) (l : TFiles K) :
    ((reduceLoop skip i l).1 ++ (reduceLoop skip i l).2).Perm l := by
  induction l generalizing i with
  | nil => rfl
  | cons t ts ih =>
    simp only [reduceLoop]
    split
    · exact List.perm_middle.trans ((ih (i + 1)).cons t)
    · exact (ih (i + 1)).cons t

theorem reduceLoop_sublist (i : ℕ) (l : TFiles K) :
    (reduceLoop skip i l).1.Sublist l ∧ (reduceLoop skip i l).2.Sublist l := by
  induction l generalizing i with
  | nil => exact ⟨List.Sublist.slnil, List.Sublist.slnil⟩
  | cons t ts ih =>
    obtain ⟨h1, h2⟩ := ih (i + 1)
    simp only [reduceLoop]
    split
    · exact ⟨h1.cons t, h2.cons₂ t⟩
    · exact ⟨h1.cons₂ t, h2.cons t⟩

/-- A table the probe keeps stays in `ft`. -/
theorem mem_reduceLoop_of_not_skip {i : ℕ} {l : TFiles K} {t : TFile K}
    (h : ∀ j, skip j t = false) (ht : t ∈ l) : t ∈ (reduceLoop skip i l).1 := by
  induction l generalizing i with
  | nil => cases ht
  | cons u us ih =>
    simp only [reduceLoop]
    rcases List.mem_cons.mp ht with rfl | ht
    · simp [h]
    · split <;> simp [ih ht]

/-- A skipped table is one the probe skips at some position. -/
theorem skip_of_mem_reduceLoop {i : ℕ} {l : TFiles K} {t : TFile K}
    (ht : t ∈ (reduceLoop skip i l).2) : ∃ j, skip j t = true := by
  induction l generalizing i with
  | nil => cases ht
  | cons u us ih =>
    simp only [reduceLoop] at ht
    split at ht
    · rcases List.mem_cons.mp ht with rfl | ht
      · exact ⟨i, by assumption⟩
      · exact ih ht
    · exact ih ht

theorem reduceLoop_head {i : ℕ} {l : TFiles K} (h : ∀ t, skip i t = false) :
    (reduceLoop skip i l).1.head? = l.head? := by
  cases l with
  | nil => rfl
  | cons t ts => simp [reduceLoop, h]

theorem reduceLoop_getLast {i : ℕ} {l : TFiles K}
    (h : ∀ t, skip (i + l.length - 1) t = false) :
    (reduceLoop skip i l).1.getLast? = l.getLast? := by
  induction l generalizing i with
  | nil => rfl
  | cons t ts ih =>
    cases ts with
    | nil => simp_all [reduceLoop]
    | cons u us =>
      have hrest := ih (i := i + 1) fun t' => by
        simpa [Nat.add_assoc, Nat.add_comm 1] using h t'
      rw [reduceLoop, List.getLast?_cons_cons]
      generalize reduceLoop skip (i + 1) (u :: us) = r at hrest ⊢
      cases hr1 : r.1 with
      | nil =>
        rw [hr1] at hrest
        exact absurd hrest.symm (List.getLast?_eq_none_iff.not.mpr (List.cons_ne_nil _ _))
      | cons x xs =>
        rw [hr1] at hrest
        split
        · exact hrest
        · rw [List.getLast?_cons_cons, hrest]

end Loop

/-! ## A skipped table holds no source key -/

/-- **The probe is sound.** When the source keys are in internal-key order, a table the probe skips
contains the user key of no source entry. -/
theorem reduceSkips_clear {it : SourceIter K} (hs : it.keys.Sorted (· ≤ ·)) {tts n i : ℕ}
    {t : TFile K} (hskip : reduceSkips it tts n i t = true) :
    ∀ k ∈ it.keys, k.ukey < t.imin.ukey ∨ t.imax.ukey < k.ukey := by
  unfold reduceSkips at hskip
  split_ifs at hskip
  dsimp only at hskip
  generalize it.keys.findIdx (t.imin ≤ ·) = p at hskip
  cases hk : it.keys[p]? with
  | none => simp [hk] at hskip
  | some k =>
    simp only [hk] at hskip
    by_cases hlt : t.imax.ukey < k.ukey
    swap; · simp [hlt] at hskip
    rw [if_pos hlt] at hskip
    obtain _ | p' := p
    · cases hskip
    cases hk' : it.keys[p']? with
    | none => simp [hk'] at hskip
    | some k' =>
      simp only [hk', decide_eq_true_eq] at hskip
      obtain ⟨hp, rfl⟩ := List.getElem?_eq_some_iff.mp hk
      obtain ⟨hp', rfl⟩ := List.getElem?_eq_some_iff.mp hk'
      intro x hx
      obtain ⟨j, rfl⟩ := List.get_of_mem hx
      rcases Nat.lt_or_ge j.1 (p' + 1) with hj | hj
      · have := hs.rel_get_of_le (a := j) (b := ⟨p', hp'⟩) (Nat.le_of_lt_succ hj)
        exact .inl ((InternalKey.ukey_le_of_le this).trans_lt hskip)
      · have := hs.rel_get_of_le (a := ⟨p' + 1, hp⟩) (b := j) hj
        exact .inr (hlt.trans_le (InternalKey.ukey_le_of_le this))

/-! ## The outcome of `reduce` -/

/-- What a compaction `c'` that `reduce` changed from `c` satisfies. -/
structure ReduceContract (o : Options K) (it : SourceIter K) (c c' : Compaction K) : Prop where
  /-- Only the target set and the skip list change. -/
  eq : c' = { c with levels := (c.levels.1, c'.levels.2), skips := c'.skips }
  /-- The kept and the skipped tables together are the old target set. -/
  perm : (c'.levels.2 ++ c'.skips).Perm c.levels.2
  /-- Both keep the order of the old target set. -/
  kept_sublist : c'.levels.2.Sublist c.levels.2
  skips_sublist : c'.skips.Sublist c.levels.2
  /-- The first and the last target table are kept. -/
  head : c'.levels.2.head? = c.levels.2.head?
  getLast : c'.levels.2.getLast? = c.levels.2.getLast?
  /-- Tables below a tenth of the target table size are kept. -/
  small : ∀ t ∈ c.levels.2, t.size < o.compactionTableSize (c.sourceLevel + 1) / 10 →
    t ∈ c'.levels.2
  /-- No source entry has a user key inside a skipped table. -/
  clear : ∀ t ∈ c'.skips, ∀ k ∈ it.keys, ¬(t.imin.ukey ≤ k.ukey ∧ k.ukey ≤ t.imax.ukey)

/-- **`reduce` either leaves the compaction as it is or splits its target set soundly.** For any
source iterator in internal-key order, exactly one of the two happens, and an iterator error always
leaves the compaction unchanged. -/
theorem reduce_spec (o : Options K) {it : SourceIter K} (hs : it.keys.Sorted (· ≤ ·))
    (c : Compaction K) :
    (it.err = true → c.reduce o it = c) ∧
      (c.reduce o it = c ∨ c.reduce o it ≠ c ∧ ReduceContract o it c (c.reduce o it)) := by
  rcases Compaction.reduce_cases o it c with h | ⟨herr, hpos, h⟩
  · exact ⟨fun _ => h, .inl h⟩
  refine ⟨fun he => by simp [he] at herr, .inr ?_⟩
  rw [h]
  simp only [Compaction.reduceSplit] at hpos ⊢
  set skip := reduceSkips it (o.compactionTableSize (c.sourceLevel + 1)) c.levels.2.length
  have hperm := reduceLoop_perm skip 0 c.levels.2
  have hsub := reduceLoop_sublist skip 0 c.levels.2
  refine ⟨fun heq => ?_, rfl, hperm, hsub.1, hsub.2,
    reduceLoop_head skip fun t => by simp [skip, reduceSkips],
    reduceLoop_getLast skip fun t => by simp [skip, reduceSkips],
    fun t ht hsmall => mem_reduceLoop_of_not_skip skip
      (fun j => by simp [skip, reduceSkips, hsmall]) ht,
    fun t ht k hk hin => ?_⟩
  · -- a skipped table makes the kept set shorter than the old target set
    have hlen := hperm.length_eq
    have := congrArg (fun c : Compaction K => c.levels.2.length) heq
    simp only [List.length_append] at hlen this
    omega
  · obtain ⟨j, hj⟩ := skip_of_mem_reduceLoop skip ht
    rcases reduceSkips_clear hs hj k hk with h | h
    · exact absurd hin.1 (not_le.mpr h)
    · exact absurd hin.2 (not_le.mpr h)

/-! ## Building a compaction -/

/-- The record `newCompaction` starts from once `expand` has set its fields: no skips, every cursor
at its start, one table cursor per level. -/
def Compaction.ofExpanded (o : Options K) (v : Version K) (sourceLevel : ℕ) (typ : CompactionType)
    (e : Expanded K) : Compaction K :=
  { v, typ, sourceLevel, levels := e.levels, maxGPOverlaps := o.compactionGPOverlaps sourceLevel,
    skips := [], gp := e.gp, imin := e.imin, imax := e.imax, overflowed := false,
    skipIndex := 0, gpi := 0, seenKey := false, gpOverlappedBytes := 0,
    tPtrs := List.replicate v.levels.length 0,
    snapGPI := 0, snapSeenKey := false, snapGPOverlappedBytes := 0, snapTPtrs := [],
    snapSkipIndex := 0 }

/-- Build a compaction from a pick (`newCompaction`): expand it, reduce it against the iterator over
its source tables, and save the cursors. -/
def newCompaction (o : Options K) (tableIter : TFiles K → SourceIter K) (v : Version K)
    (sourceLevel : ℕ) (t0 : TFiles K) (typ : CompactionType) : Option (Compaction K) := do
  let e ← expand (o.compactionExpandLimit sourceLevel) v sourceLevel t0
  let c := Compaction.ofExpanded o v sourceLevel typ e
  return (c.reduce o (tableIter c.levels.1)).save

/-! ## A compaction `reduce` trims

User keys `1 … 26` stand for `a … z`. One source table on level 1 holds `b`, `k` and `m`; level 2
holds `[a, c]`, `[d, f]` and `[l, z]`. No source key falls in `[d, f]`, so `reduce` skips it. -/

/-- Options with 100-byte target tables, so that a table of 50 bytes is not small. -/
def exampleOptions : Options ℕ :=
  ⟨fun _ => 1000, fun _ => 1000, fun _ => 100, false, 4096, fun _ => false⟩

/-- The source table `[b, m]` on level 1. -/
def exSource : TFile ℕ := ⟨1, 30, makeInternalKey 2 5 .val, makeInternalKey 13 5 .val, by decide⟩
/-- The target table `[a, c]`. -/
def exLeft : TFile ℕ := ⟨2, 30, makeInternalKey 1 3 .val, makeInternalKey 3 3 .val, by decide⟩
/-- The target table `[d, f]`, holding no source key. -/
def exMiddle : TFile ℕ := ⟨3, 50, makeInternalKey 4 3 .val, makeInternalKey 6 3 .val, by decide⟩
/-- The target table `[l, z]`. -/
def exRight : TFile ℕ := ⟨4, 30, makeInternalKey 12 3 .val, makeInternalKey 26 3 .val, by decide⟩

/-- The catalog: nothing on level 0, the source on level 1, the three targets on level 2. -/
def exVersion : Version ℕ := ⟨[[], [exSource], [exLeft, exMiddle, exRight]]⟩

/-- The compaction of `exSource` into level 2, before `reduce`. -/
def exCompaction : Compaction ℕ :=
  Compaction.ofExpanded exampleOptions exVersion 1 .nonLevel0
    ⟨([exSource], [exLeft, exMiddle, exRight]), exSource.imin, exSource.imax, []⟩

/-- The source iterator: `b` and `m` are values, `k` a deletion. -/
def exIter : SourceIter ℕ :=
  ⟨[makeInternalKey 2 5 .val, makeInternalKey 11 4 .del, makeInternalKey 13 5 .val], false⟩

theorem reduce_spec_skipping :
    exIter.keys.Sorted (· ≤ ·) ∧
      ((exIter.err = true → exCompaction.reduce exampleOptions exIter = exCompaction) ∧
        (exCompaction.reduce exampleOptions exIter = exCompaction ∨
          exCompaction.reduce exampleOptions exIter ≠ exCompaction ∧
            ReduceContract exampleOptions exIter exCompaction
              (exCompaction.reduce exampleOptions exIter))) :=
  ⟨by decide, reduce_spec exampleOptions (by decide) exCompaction⟩

/-- The compaction `newCompaction` builds from `exSource`: reduced, with its cursors saved. -/
def exFresh : Compaction ℕ := (exCompaction.reduce exampleOptions exIter).save

theorem newCompaction_exSource :
    newCompaction exampleOptions (fun _ => exIter) exVersion 1 [exSource] .nonLevel0 = some exFresh :=
  rfl

example : (exCompaction.reduce exampleOptions exIter).skips = [exMiddle] ∧
    (exCompaction.reduce exampleOptions exIter).levels.2 = [exLeft, exRight] := by decide

end LevelDB

end Workshare
