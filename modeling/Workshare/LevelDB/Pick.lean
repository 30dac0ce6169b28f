import Workshare.LevelDB.Reduce

/-!
# Picking a compaction

`session.pickCompaction` chooses what the next automatic compaction works on. When a level is over
its score it compacts one table of it: the first table of level 0, or on a deeper level the table
`pickTablesSorted` finds. Otherwise it compacts the table a seek marked, if there is one.

`pickTablesSorted` looks up a sorted level twice with `sort.Search`, a binary search. The first
search finds the first table starting at or after the overflow prefix, and takes it when it starts
under the prefix. The second finds the first table ending past the level's compaction pointer.
With neither, the pick is the first table. This module shows that on a sorted level each binary
search finds what a scan of the level from its start finds. It also shows that testing the prefix
on one table is enough: when any table starts under the prefix, the pick is the first of them.

## Implementation notes

`sort.Search` is the Go library's and is not among the sources. `searchLoop` is its loop on
`[i, j)`, with `h = (i + j) / 2`, as `int(uint(i+j) >> 1)` computes for non-negative bounds. Each
round shrinks the interval, so `sortSearch n` runs `n` rounds at most and never stops early
(`searchLoop_spec`).

`version.computeCompaction` is not among the sources either. The score test `v.cScore >= 1`,
`v.cLevel` and `v.cSeek` are the arguments `overScore`, `cLevel` and `cSeek`. `GetOverflowPrefix`
is read twice: as the user key `oPrefix` of the search (`none` when the prefix is empty), and as
`o.hasOPrefix` for `bytes.HasPrefix`. The compaction pointer of each level, `s.getCompPtr`, is
`compPtr`. Indexing an empty level, a panic in Go, is `none`.

## Main results

* `searchLoop_spec` — on a monotone test, `sort.Search` returns the first index the test holds at
* `pickTablesSorted_eq_scan` — on a sorted level both searches find what a scan finds
* `pickTablesSorted_overflow` — if any table of a sorted level starts under the overflow prefix,
  the pick is the first such table, marked overflowed
-/

namespace Workshare

namespace LevelDB

/-! ## `sort.Search` -/

/-- The loop of `sort.Search` on `[i, j)`, for at most `fuel` rounds: halve at `h = (i + j) / 2`,
and keep `[h + 1, j)` when `f h` fails, `[i, h)` when it holds. -/
def searchLoop (f : ℕ → Bool) : ℕ → ℕ → ℕ → ℕ
  | 0, i, _ => i
  | fuel + 1, i, j =>
    if i < j then
      let h := (i + j) / 2
      if !f h then searchLoop f fuel (h + 1) j else searchLoop f fuel i h
    else i

/-- `sort.Search(n, f)`: the loop on `[0, n)`, which never needs more than `n` rounds. -/
def sortSearch (n : ℕ) (f : ℕ → Bool) : ℕ := searchLoop f n 0 n

/-- `r` is the first index of `[i, j)` at which `f` holds, or `j` when there is none. -/
structure FirstIn (f : ℕ → Bool) (i j r : ℕ) : Prop where
  lower : i ≤ r
  upper : r ≤ j
  below : ∀ k, i ≤ k → k < r → f k = false
  found : r < j → f r = true

/-- **`sort.Search` finds the first index.** With enough rounds for the interval, and `f`
monotone on it, the loop returns the first index at which `f` holds. -/
theorem searchLoop_spec {f : ℕ → Bool} {fuel i j : ℕ} (hf : j - i ≤ fuel) (hij : i ≤ j)
    (hmono : ∀ a b, a ≤ b → b < j → f a = true → f b = true) :
    FirstIn f i j (searchLoop f fuel i j) := by
  induction fuel generalizing i j with
  | zero =>
    obtain rfl : i = j := by omega
    show FirstIn f i i i
    exact ⟨le_rfl, le_rfl, fun k hk hk' => absurd hk' (by omega), fun h => absurd h (lt_irrefl _)⟩
  | succ fuel ih =>
    rw [searchLoop]
    by_cases hlt : i < j
    · rw [if_pos hlt]
      dsimp only
      cases hm : f ((i + j) / 2) with
      | false =>
        rw [Bool.not_false, if_pos rfl]
        have hr := ih (i := (i + j) / 2 + 1) (j := j) (by omega) (by omega) hmono
        refine ⟨by have := hr.lower; omega, hr.upper, fun k hk hkr => ?_, hr.found⟩
        by_cases hk' : k ≤ (i + j) / 2
        · cases hfk : f k with
          | false => rfl
          | true => exact absurd (hmono k _ hk' (by omega) hfk) (by simp [hm])
        · exact hr.below k (by omega) hkr
      | true =>
        rw [Bool.not_true, if_neg Bool.false_ne_true]
        have hr := ih (i := i) (j := (i + j) / 2) (by omega) (by omega)
          fun a b hab hb => hmono a b hab (by omega)
        refine ⟨hr.lower, by have := hr.upper; omega, hr.below, fun _ => ?_⟩
        rcases Nat.lt_or_ge (searchLoop f fuel i ((i + j) / 2)) ((i + j) / 2) with h | h
        · exact hr.found h
        · rw [le_antisymm hr.upper h, hm]
    · rw [if_neg hlt]
      exact ⟨le_rfl, hij, fun k hk hk' => absurd hk' (by omega), fun h => absurd h hlt⟩

theorem sortSearch_spec {n : ℕ} {f : ℕ → Bool}
    (hmono : ∀ a b, a ≤ b → b < n → f a = true → f b = true) :
    FirstIn f 0 n (sortSearch n f) :=
  searchLoop_spec (by omega) (Nat.zero_le n) hmono

/-- The entry at the first index where `p` holds is the first entry where `p` holds. -/
theorem getElem?_eq_find? {α : Type} {p : α → Bool} {l : List α} {r : ℕ} (hr : r ≤ l.length)
    (hbelow : ∀ k (hk : k < l.length), k < r → p l[k] = false)
    (hfound : ∀ h : r < l.length, p l[r] = true) :
    l[r]? = l.find? p := by
  induction l generalizing r with
  | nil => rfl
  | cons a l ih =>
    cases r with
    | zero =>
      have ha : p a = true := hfound (by simp)
      rw [List.find?_cons, ha, List.getElem?_cons_zero]
    | succ r =>
      have ha : p a = false := hbelow 0 (by simp) (by omega)
      rw [List.find?_cons, ha, List.getElem?_cons_succ]
      exact ih (by simpa using hr) (fun k hk hkr => hbelow (k + 1) (by simpa using hk) (by omega))
        fun h => hfound (by simpa using h)

/-! ## `pickTablesSorted` -/

variable {K : Type} [LinearOrder K]

/-- `sort.Search(len(tables), f)` over the tables of a level, and the table at the index it
returns when that is below `len(tables)`. The search only tests indexes below `len(tables)`. -/
def searchTables (tables : TFiles K) (f : TFile K → Bool) : Option (TFile K) :=
  tables[sortSearch tables.length fun i => tables[i]?.all f]?

/-- `session.pickTablesSorted`: the first table starting at or after the overflow prefix, when it
starts under the prefix (overflowed); else the first table ending past the compaction pointer;
else the first table. -/
def pickTablesSorted (o : Options K) (oPrefix : Option K) (compPtr : ℕ → Option (InternalKey K))
    (tables : TFiles K) (sourceLevel : ℕ) : Option (TFile K × Bool) :=
  let byPrefix := oPrefix.bind fun p =>
    (searchTables tables fun t => decide (p ≤ t.imin.ukey)).filter fun t => o.hasOPrefix t.imin.ukey
  let byPtr := (compPtr sourceLevel).bind fun cptr =>
    searchTables tables fun t => decide (cptr < t.imax)
  match byPrefix, byPtr with
  | some t, _ => some (t, true)
  | none, some t => some (t, false)
  | none, none => tables.head?.map (·, false)

/-- `pickTablesSorted` with each binary search replaced by a scan from the start of the level. -/
def pickTablesScan (o : Options K) (oPrefix : Option K) (compPtr : ℕ → Option (InternalKey K))
    (tables : TFiles K) (sourceLevel : ℕ) : Option (TFile K × Bool) :=
  let byPrefix := oPrefix.bind fun p =>
    (tables.find? fun t => decide (p ≤ t.imin.ukey)).filter fun t => o.hasOPrefix t.imin.ukey
  let byPtr := (compPtr sourceLevel).bind fun cptr => tables.find? fun t => decide (cptr < t.imax)
  match byPrefix, byPtr with
  | some t, _ => some (t, true)
  | none, some t => some (t, false)
  | none, none => tables.head?.map (·, false)

/-- On a list whose test, once it holds, holds for every later table, the binary search finds the
first table the test holds for. -/
theorem searchTables_eq_find? {tables : TFiles K} {f : TFile K → Bool}
    (hmono : tables.Pairwise fun a b => f a = true → f b = true) :
    searchTables tables f = tables.find? f := by
  have hs := sortSearch_spec (n := tables.length) (f := fun i => tables[i]?.all f) fun a b hab hb ha => by
    have ha' : a < tables.length := by omega
    dsimp only at ha ⊢
    rw [List.getElem?_eq_getElem ha', Option.all_some] at ha
    rw [List.getElem?_eq_getElem hb, Option.all_some]
    rcases Nat.lt_or_eq_of_le hab with h | rfl
    · exact List.pairwise_iff_getElem.mp hmono a b ha' hb h ha
    · exact ha
  refine getElem?_eq_find? hs.upper (fun k hk hkr => ?_) fun h => ?_
  · simpa [List.getElem?_eq_getElem hk] using hs.below k (Nat.zero_le k) hkr
  · simpa [List.getElem?_eq_getElem h] using hs.found h

/-- On a sorted level, tables start in order. -/
theorem LevelSorted.imin_mono {tables : TFiles K} (hs : LevelSorted tables) (p : K) :
    tables.Pairwise fun a b => decide (p ≤ a.imin.ukey) = true → decide (p ≤ b.imin.ukey) = true :=
  hs.imp fun {a b} h ha => by
    simp only [decide_eq_true_eq] at ha ⊢
    exact ha.trans ((a.imin_ukey_le.trans_lt h).le)

/-- On a sorted level, tables end in order. -/
theorem LevelSorted.imax_mono {tables : TFiles K} (hs : LevelSorted tables) (cptr : InternalKey K) :
    tables.Pairwise fun a b => decide (cptr < a.imax) = true → decide (cptr < b.imax) = true :=
  hs.imp fun {a b} h ha => by
    simp only [decide_eq_true_eq] at ha ⊢
    exact ha.trans (InternalKey.lt_of_ukey_lt (h.trans_le b.imin_ukey_le))

/-- Keys `10 … 19` stand for the keys under a prefix `1`, written `10`. -/
def overflowOptions : Options ℕ :=
  ⟨fun _ => 1000, fun _ => 1000, fun _ => 100, false, 4096, fun u => decide (10 ≤ u ∧ u < 20)⟩

/-- A sorted level whose second table starts under the prefix. -/
def overflowLevel : TFiles ℕ :=
  [⟨1, 10, ⟨1, 257⟩, ⟨5, 257⟩, by decide⟩, ⟨2, 10, ⟨12, 257⟩, ⟨15, 257⟩, by decide⟩,
    ⟨3, 10, ⟨30, 257⟩, ⟨40, 257⟩, by decide⟩]

/-- **The binary searches agree with scans.** On a sorted level, whatever the overflow prefix and
the compaction pointers, `pickTablesSorted` picks what a scan of the level from its start picks:
the first table starting under the prefix if the first table starting at or after it does, else
the first table ending past the pointer, else the first table. -/
theorem pickTablesSorted_eq_scan (o : Options K) (oPrefix : Option K)
    (compPtr : ℕ → Option (InternalKey K)) {tables : TFiles K} (hs : LevelSorted tables)
    (sourceLevel : ℕ) :
    pickTablesSorted o oPrefix compPtr tables sourceLevel =
      pickTablesScan o oPrefix compPtr tables sourceLevel := by
  simp only [pickTablesSorted, pickTablesScan, searchTables_eq_find? (hs.imin_mono _),
    searchTables_eq_find? (hs.imax_mono _)]

theorem pickTablesSorted_eq_scan_overflowLevel :
    LevelSorted overflowLevel ∧
      pickTablesSorted overflowOptions (some 10) (fun _ => some ⟨5, 0⟩) overflowLevel 1 =
        pickTablesScan overflowOptions (some 10) (fun _ => some ⟨5, 0⟩) overflowLevel 1 :=
  ⟨by decide, pickTablesSorted_eq_scan _ _ _ (by decide) 1⟩

/-- **One prefix test is enough.** On a sorted level, with keys under the prefix at or after the
prefix and every key between the prefix and a key under it under it too (as for byte strings), if
some table starts under the overflow prefix, `pickTablesSorted` picks the first such table and marks
it overflowed. -/
theorem pickTablesSorted_overflow (o : Options K) {p : K} (compPtr : ℕ → Option (InternalKey K))
    {tables : TFiles K} (hs : LevelSorted tables) (sourceLevel : ℕ)
    (hge : ∀ u, o.hasOPrefix u = true → p ≤ u)
    (hconv : ∀ u w, p ≤ u → u ≤ w → o.hasOPrefix w = true → o.hasOPrefix u = true)
    (hex : ∃ t ∈ tables, o.hasOPrefix t.imin.ukey = true) :
    ∃ t, tables.find? (fun t => o.hasOPrefix t.imin.ukey) = some t ∧
      pickTablesSorted o (some p) compPtr tables sourceLevel = some (t, true) := by
  obtain ⟨t, ht, htp⟩ := hex
  obtain ⟨t₁, h₁⟩ : ∃ t₁, tables.find? (fun t => decide (p ≤ t.imin.ukey)) = some t₁ :=
    Option.ne_none_iff_exists'.mp fun h => by
      simp only [List.find?_eq_none, decide_eq_true_eq] at h
      exact h t ht (hge _ htp)
  obtain ⟨hp₁, as, bs, rfl, has⟩ := List.find?_eq_some.mp h₁
  simp only [decide_eq_true_eq, Bool.not_eq_true', decide_eq_false_iff_not, not_le] at hp₁ has
  have hno : ∀ a ∈ as, o.hasOPrefix a.imin.ukey = false := fun a ha =>
    Bool.eq_false_iff.mpr fun h => absurd (hge _ h) (not_le.mpr (has a ha))
  have hpre₁ : o.hasOPrefix t₁.imin.ukey = true := by
    rcases List.mem_append.mp ht with ht | ht
    · exact absurd htp (by simp [hno t ht])
    · rcases List.mem_cons.mp ht with rfl | ht
      · exact htp
      · have hlt := List.rel_of_pairwise_cons (List.pairwise_append.mp hs).2.1 ht
        exact hconv _ _ hp₁ (t₁.imin_ukey_le.trans hlt.le) htp
  refine ⟨t₁, List.find?_eq_some.mpr ⟨hpre₁, as, bs, rfl, fun a ha => by simp [hno a ha]⟩, ?_⟩
  simp only [pickTablesSorted_eq_scan o _ compPtr hs, pickTablesScan, Option.some_bind, h₁,
    Option.filter, hpre₁, if_true]

theorem pickTablesSorted_overflow_overflowLevel :
    LevelSorted overflowLevel ∧ (∀ u, overflowOptions.hasOPrefix u = true → 10 ≤ u) ∧
      (∀ u w, 10 ≤ u → u ≤ w → overflowOptions.hasOPrefix w = true →
        overflowOptions.hasOPrefix u = true) ∧
      (∃ t ∈ overflowLevel, overflowOptions.hasOPrefix t.imin.ukey = true) ∧
      ∃ t, overflowLevel.find? (fun t => overflowOptions.hasOPrefix t.imin.ukey) = some t ∧
        pickTablesSorted overflowOptions (some 10) (fun _ => none) overflowLevel 1 = some (t, true) := by
  have hs : LevelSorted overflowLevel := by decide
  have hge : ∀ u, overflowOptions.hasOPrefix u = true → 10 ≤ u := fun u h => by
    simp only [overflowOptions, decide_eq_true_eq] at h; omega
  have hconv : ∀ u w, 10 ≤ u → u ≤ w → overflowOptions.hasOPrefix w = true →
      overflowOptions.hasOPrefix u = true := fun u w hu huw h => by
    simp only [overflowOptions, decide_eq_true_eq] at h ⊢; omega
  have hex : ∃ t ∈ overflowLevel, overflowOptions.hasOPrefix t.imin.ukey = true := by decide
  exact ⟨hs, hge, hconv, hex, pickTablesSorted_overflow overflowOptions _ hs 1 hge hconv hex⟩

/-- A pointer past the first table's end makes the second table the pick, and with the prefix the
same table is picked overflowed. -/
example :
    pickTablesSorted overflowOptions none (fun _ => some ⟨5, 0⟩) overflowLevel 1 =
        some (overflowLevel[1], false) ∧
      pickTablesSorted overflowOptions (some 10) (fun _ => some ⟨20, 0⟩) overflowLevel 1 =
        some (overflowLevel[1], true) := by
  decide

/-! ## `pickCompaction` -/

/-- `session.pickCompaction`: over the score, one table of level `cLevel` (the first on level 0,
the pick of `pickTablesSorted` deeper), marked overflowed as picked; else the table a seek marked;
else nothing. -/
def pickCompaction (o : Options K) (oPrefix : Option K) (compPtr : ℕ → Option (InternalKey K))
    (tableIter : TFiles K → SourceIter K) (v : Version K) (overScore : Bool) (cLevel : ℕ)
    (cSeek : Option (ℕ × TFile K)) : Option (Compaction K) :=
  if overScore then
    let tables := v.level cLevel
    let picked := if 0 < cLevel then pickTablesSorted o oPrefix compPtr tables cLevel
      else tables.head?.map (·, false)
    picked.bind fun (t, overflowed) =>
      (newCompaction o tableIter v cLevel [t] (if cLevel = 0 then .level0 else .nonLevel0)).map
        fun c => { c with overflowed }
  else
    cSeek.bind fun (level, t) => newCompaction o tableIter v level [t] .seek

end LevelDB

end Workshare
