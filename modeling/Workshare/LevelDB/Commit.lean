import Workshare.LevelDB.Order

/-!
# Committing a compaction

`DB.tableCompaction` ends in one of two commits. A trivial move deletes the one source table from
`sourceLevel` and adds it, as it is, to `sourceLevel + 1`. Otherwise the record deletes the source
tables from `sourceLevel` and the target tables from `sourceLevel + 1`, and, once the build is
done, adds the tables the build wrote at `sourceLevel + 1`. `compactionCommit` then applies the
record to the current catalog. The catalog invariant is that every level from 1 on stays sorted
with disjoint key ranges.

A commit can only break the invariant on the level it adds to, and only through an added table
that meets a table the record keeps: a trivial move never does, since `trivial` asks for an empty
target set, which `expand` makes every table one level down meeting the moved table. The tables of
a build are sorted and apart among themselves (`Workshare.LevelDB.Order`), so what is left is
whether they avoid the tables the record keeps on the output level.

`reduce` leaves some target tables in place, as skips, on the promise that no output table will
overlap them: `shouldStopBefore` forces a cut when the input passes one. The cut is decided before
`run` decides to drop the entry, and it is lost with a dropped entry, so an output table can span a
skipped one and the committed level overlaps itself.

## Implementation notes

Applying a record (`version.go`, `session_record.go`) is not among the sources; `Version.applyEdit`
follows the spec's catalog edit, all of whose entries land: a move or a build out of the last level
adds the level below it. Neither is `tWriter.finish`, which describes a written table by
the first and the last key appended to it; `TFile.Describes` is that relation.

## Main results

* `Version.applyEdit_level_perm` — every level after an edit holds what the edit leaves on it
* `trivialMove_keeps_sorted` — a trivial move keeps the catalog sorted
* `build_commit_sorted` — a build's commit keeps the catalog sorted when its tables avoid the
  tables the record keeps on the output level
* `run_spans_skipped_table` — a dropped deletion lets an output table span a skipped table, and the
  committed catalog is no longer sorted
-/

namespace Workshare

namespace LevelDB

variable {K : Type} [LinearOrder K]

/-- What `tableCompaction` records for a compaction: the tables deleted (`rec.delTable`, level and
file number) and those added (`rec.addTableFile`) at `sourceLevel + 1`. -/
def Compaction.record (c : Compaction K) (outputs : TFiles K) : List (ℕ × ℕ) × List (ℕ × TFile K) :=
  (c.levels.1.map (fun t => (c.sourceLevel, t.num)) ++ c.levels.2.map (fun t => (c.sourceLevel + 1, t.num)),
    outputs.map fun t => (c.sourceLevel + 1, t))

/-- What `tableCompaction` records for a trivial move: the source table `c.levels[0][0]` leaves
`sourceLevel` and is added to `sourceLevel + 1`. `trivial` holds only with one source table. -/
def Compaction.moveRecord (c : Compaction K) : List (ℕ × ℕ) × List (ℕ × TFile K) :=
  match c.levels.1 with
  | t :: _ => ([(c.sourceLevel, t.num)], [(c.sourceLevel + 1, t)])
  | [] => ([], [])

/-- The tables level `i` holds once `edit` is applied, before they are put in order: the tables of
the level it does not delete, then those it adds to the level. -/
def Version.editLevel (v : Version K) (edit : List (ℕ × ℕ) × List (ℕ × TFile K)) (i : ℕ) :
    TFiles K :=
  (v.level i).filter (fun t => !edit.1.contains (i, t.num)) ++
    edit.2.filterMap fun (j, t) => if j = i then some t else none

/-- The number of levels a catalog of `n` levels has once the tables `adds` are added to it: `n`, or
one past the deepest level they go to. -/
def editDepth : List (ℕ × TFile K) → ℕ → ℕ
  | [], n => n
  | (j, _) :: adds, n => editDepth adds (if j < n then n else j + 1)

/-- Modelled from the spec: the catalog after a catalog edit is applied (`applyEdit`). All of the
edit lands: each level loses the tables deleted from it and gains those added to it, and the
catalog grows to the deepest level the edit adds to. A level from 1 on is kept in order of
smallest key. -/
def Version.applyEdit (v : Version K) (edit : List (ℕ × ℕ) × List (ℕ × TFile K)) : Version K :=
  ⟨(List.range (editDepth edit.2 v.levels.length)).map fun i =>
    if i = 0 then v.editLevel edit i else (v.editLevel edit i).insertionSort fun a b => a.imin ≤ b.imin⟩

/-- Two tables whose user-key ranges do not meet: `a` does not overlap the range of `b`. -/
def TFile.Apart (a b : TFile K) : Prop := a.overlaps (some b.imin.ukey) (some b.imax.ukey) = false

instance (a b : TFile K) : Decidable (a.Apart b) := inferInstanceAs (Decidable (_ = false))

/-- The table descriptor `f` describes the entries `t` written to it: `tWriter.finish` takes the
first key appended as the smallest and the last as the largest. -/
def TFile.Describes {V : Type} (f : TFile K) (t : List (Entry K V)) : Prop :=
  t.head?.map Entry.ikey = some f.imin ∧ t.getLast?.map Entry.ikey = some f.imax

instance {V : Type} (f : TFile K) (t : List (Entry K V)) : Decidable (f.Describes t) :=
  inferInstanceAs (Decidable (_ ∧ _))

/-! ## Tables apart and sorted levels -/

theorem TFile.apart_iff {a b : TFile K} :
    a.Apart b ↔ a.imax.ukey < b.imin.ukey ∨ b.imax.ukey < a.imin.ukey := by
  rw [TFile.Apart, Bool.eq_false_iff, ne_eq, overlaps_some, not_and_or, not_le, not_le]

theorem TFile.Apart.symm {a b : TFile K} (h : a.Apart b) : b.Apart a :=
  TFile.apart_iff.mpr (TFile.apart_iff.mp h).symm

theorem LevelSorted.apart {tf : TFiles K} (h : LevelSorted tf) : tf.Pairwise TFile.Apart :=
  h.imp fun hab => TFile.apart_iff.mpr (.inl hab)

/-- Tables apart from each other and in order of smallest key are a sorted level: a table whose
smallest key comes first cannot lie entirely after a later one. -/
theorem levelSorted_of_apart {tf : TFiles K} (hs : tf.Sorted fun a b => a.imin ≤ b.imin)
    (ha : tf.Pairwise TFile.Apart) : LevelSorted tf :=
  (hs.and ha).imp fun {_ b} ⟨hle, hab⟩ => (TFile.apart_iff.mp hab).resolve_right fun hba =>
    lt_irrefl _ (((InternalKey.ukey_le_of_le hle).trans b.imin_ukey_le).trans_lt hba)

theorem levelSorted_insertionSort {tf : TFiles K} (h : tf.Pairwise TFile.Apart) :
    LevelSorted (tf.insertionSort fun a b => a.imin ≤ b.imin) := by
  have : IsTotal (TFile K) fun a b => a.imin ≤ b.imin := ⟨fun a b => le_total a.imin b.imin⟩
  have : IsTrans (TFile K) fun a b => a.imin ≤ b.imin := ⟨fun _ _ _ => le_trans⟩
  exact levelSorted_of_apart (List.sorted_insertionSort _ tf)
    ((List.perm_insertionSort _ tf).symm.pairwise h TFile.Apart.symm)

/-! ## Applying an edit -/

theorem le_editDepth : ∀ (adds : List (ℕ × TFile K)) (n : ℕ), n ≤ editDepth adds n
  | [], _ => le_rfl
  | (j, _) :: adds, n =>
    (show n ≤ if j < n then n else j + 1 by split <;> omega).trans (le_editDepth adds _)

theorem lt_editDepth_of_mem {adds : List (ℕ × TFile K)} {j : ℕ} {t : TFile K} (h : (j, t) ∈ adds) :
    ∀ n, j < editDepth adds n := by
  induction adds with
  | nil => cases h
  | cons p adds ih =>
    intro n
    rcases List.mem_cons.mp h with rfl | h
    · exact (show j < if j < n then n else j + 1 by split <;> omega).trans_le (le_editDepth adds _)
    · exact ih h _

/-- The catalog stays within `N` levels when it had at most `N` and every table goes to a level
below `N`. -/
theorem editDepth_le {N : ℕ} {adds : List (ℕ × TFile K)} (h : ∀ p ∈ adds, p.1 < N) :
    ∀ {n}, n ≤ N → editDepth adds n ≤ N := by
  induction adds with
  | nil => exact id
  | cons p adds ih =>
    intro n hn
    have hp : p.1 < N := h p (List.mem_cons_self _ _)
    exact ih (fun q hq => h q (List.mem_cons_of_mem _ hq)) (by split <;> omega)

@[simp] theorem Version.applyEdit_depth (v : Version K) (edit : List (ℕ × ℕ) × List (ℕ × TFile K)) :
    (v.applyEdit edit).levels.length = editDepth edit.2 v.levels.length := by
  simp [Version.applyEdit]

/-- Past the new depth, a level neither holds nor gains a table. -/
theorem Version.editLevel_of_depth_le {v : Version K} {edit : List (ℕ × ℕ) × List (ℕ × TFile K)}
    {i : ℕ} (h : editDepth edit.2 v.levels.length ≤ i) : v.editLevel edit i = [] := by
  rw [Version.editLevel, Version.level_of_le ((le_editDepth _ _).trans h), List.filter_nil,
    List.nil_append, List.filterMap_eq_nil_iff]
  rintro ⟨j, t⟩ hjt
  have := lt_editDepth_of_mem hjt v.levels.length
  simp only [ite_eq_right_iff, reduceCtorEq, imp_false]
  omega

theorem Version.applyEdit_level (v : Version K) (edit : List (ℕ × ℕ) × List (ℕ × TFile K)) (i : ℕ) :
    (v.applyEdit edit).level i = if i = 0 then v.editLevel edit i else
      (v.editLevel edit i).insertionSort fun a b => a.imin ≤ b.imin := by
  rcases Nat.lt_or_ge i (editDepth edit.2 v.levels.length) with h | h
  · simp [Version.applyEdit, Version.level, h]
  · rw [Version.level_of_le (by simpa using h), v.editLevel_of_depth_le h]
    split <;> rfl

/-- Level `i` after an edit holds the tables the edit leaves there, in some order. -/
theorem Version.applyEdit_level_perm (v : Version K) (edit : List (ℕ × ℕ) × List (ℕ × TFile K))
    (i : ℕ) : List.Perm ((v.applyEdit edit).level i) (v.editLevel edit i) := by
  rw [Version.applyEdit_level]
  split
  · exact List.Perm.refl _
  · exact List.perm_insertionSort _ _

/-- An edit leaves the catalog sorted when, on every level from 1 on, the tables it keeps and the
tables it adds are apart from each other. -/
theorem Version.applyEdit_sorted {v : Version K} {edit : List (ℕ × ℕ) × List (ℕ × TFile K)}
    (h : ∀ i, 1 ≤ i → (v.editLevel edit i).Pairwise TFile.Apart) : (v.applyEdit edit).Sorted :=
  Version.sorted_of_level fun i hi => by
    rw [Version.applyEdit_level, if_neg (by omega)]
    exact levelSorted_insertionSort (h i hi)

/-- An edit of a sorted catalog that adds the tables `A` to level `L` and nothing elsewhere keeps
it sorted when they are apart from each other and from every table it keeps on `L`. -/
theorem Version.Sorted.applyEdit_of_adds {v : Version K} (hv : v.Sorted)
    {edit : List (ℕ × ℕ) × List (ℕ × TFile K)} {L : ℕ} {A : TFiles K}
    (hadd : ∀ i, (edit.2.filterMap fun (j, t) => if j = i then some t else none) =
      if i = L then A else [])
    (ha : A.Pairwise TFile.Apart)
    (hkept : ∀ t ∈ v.level L, edit.1.contains (L, t.num) = false → ∀ f ∈ A, t.Apart f) :
    (v.applyEdit edit).Sorted :=
  Version.applyEdit_sorted fun i hi => by
    rw [Version.editLevel, hadd]
    refine List.pairwise_append.mpr ⟨(hv.level hi).apart.sublist (List.filter_sublist _), ?_, ?_⟩
    · split_ifs
      exacts [ha, List.Pairwise.nil]
    · intro t ht f hf
      split_ifs at hf with hiL
      · subst hiL
        obtain ⟨htl, hc⟩ := List.mem_filter.mp ht
        exact hkept t htl (by simpa using hc) f hf
      · cases hf

/-! ## A trivial move -/

/-- What `newCompaction` builds from a non-empty pick of tables of its level: the source set, its
range and the first target table of a well-formed state of `expand` (`reduce` keeps the first
target table). -/
theorem newCompaction_expandState {o : Options K} {tableIter : TFiles K → SourceIter K}
    {v : Version K} {s : ℕ} {t0 : TFiles K} {typ : CompactionType} {c : Compaction K}
    (hne : t0 ≠ []) (hsub : t0.Sublist (v.level s)) (h : newCompaction o tableIter v s t0 typ = some c) :
    ∃ st : ExpandState K, st.WF v s t0 ∧ c.levels.1 = st.t0 ∧ c.imin = st.imin ∧ c.imax = st.imax ∧
      c.levels.2.head? = st.t1.head? := by
  obtain ⟨st, hst, hwf⟩ := expandBase_wf hne hsub
  obtain ⟨st', hst', hwf', -⟩ := growStep_wf (o.compactionExpandLimit s) hwf
  simp only [newCompaction, expand, hst, hst', Option.pure_def, Option.bind_eq_bind,
    Option.some_bind, Option.some.injEq] at h
  subst h
  refine ⟨st', hwf', ?_⟩
  set c₀ := Compaction.ofExpanded o v s typ ⟨(st'.t0, st'.t1), st'.imin, st'.imax, _⟩
  rcases Compaction.reduce_cases o (tableIter c₀.levels.1) c₀ with h' | ⟨-, -, h'⟩ <;>
    simp only [Compaction.save, h']
  · exact ⟨rfl, rfl, rfl, rfl⟩
  · exact ⟨rfl, rfl, rfl, reduceLoop_head _ fun t => by simp [reduceSkips]⟩

/-- The tables of a compaction `newCompaction` built from a pick of tables of its level: the source
set has range `imin, imax`, and with no target table left, no table one level down meets that
range. -/
theorem newCompaction_levels {o : Options K} {tableIter : TFiles K → SourceIter K} {v : Version K}
    {s : ℕ} {t0 : TFiles K} {typ : CompactionType} {c : Compaction K} (hne : t0 ≠ [])
    (hsub : t0.Sublist (v.level s)) (h : newCompaction o tableIter v s t0 typ = some c) :
    getRange c.levels.1 = some (c.imin, c.imax) ∧ (c.levels.2 = [] →
      ∀ t ∈ v.level (s + 1), t.overlaps (some c.imin.ukey) (some c.imax.ukey) = false) := by
  obtain ⟨st, hwf, h1, hmin, hmax, hhead⟩ := newCompaction_expandState hne hsub h
  refine ⟨by rw [h1, hmin, hmax]; exact hwf.range, fun h2 t ht => ?_⟩
  have ht1 : st.t1 = [] := List.head?_eq_none_iff.mp (by rw [← hhead, h2]; rfl)
  rw [hwf.target, List.filter_eq_nil_iff] at ht1
  rw [hmin, hmax]
  exact Bool.eq_false_iff.mpr (ht1 t ht)

/-- **A trivial move keeps the catalog sorted.** For a compaction `newCompaction` builds from tables
of a sorted catalog, when `trivial` holds the moved table meets no table one level down, and the
catalog with the move committed is sorted. -/
theorem trivialMove_keeps_sorted {o : Options K} {tableIter : TFiles K → SourceIter K}
    {v : Version K} {s : ℕ} {t0 : TFiles K} {typ : CompactionType} {c : Compaction K}
    (hv : v.Sorted) (hne : t0 ≠ []) (hsub : t0.Sublist (v.level s))
    (h : newCompaction o tableIter v s t0 typ = some c) (ht : c.trivial = true) :
    (v.applyEdit c.moveRecord).Sorted := by
  obtain ⟨hr, hclear⟩ := newCompaction_levels hne hsub h
  obtain ⟨-, hs, -⟩ := newCompaction_fresh h
  simp only [Compaction.trivial, Bool.and_eq_true, beq_iff_eq, List.length_eq_zero] at ht
  obtain ⟨⟨h1, h2⟩, -⟩ := ht
  obtain ⟨t, ht1⟩ := List.length_eq_one.mp h1
  simp only [ht1, getRange, List.foldl_nil, Option.some.injEq, Prod.mk.injEq] at hr
  have hmove : c.moveRecord = ([(s, t.num)], [(s + 1, t)]) := by
    simp [Compaction.moveRecord, ht1, hs]
  rw [hmove]
  refine hv.applyEdit_of_adds (L := s + 1) (A := [t]) (fun i => ?_) (List.pairwise_singleton _ _)
    fun u hu _ f hf => ?_
  · by_cases hi : i = s + 1
    · simp [hi]
    · simp [hi, Ne.symm hi]
  · rw [List.mem_singleton.mp hf, TFile.Apart, hr.1, hr.2]
    exact hclear h2 u hu

/-- A catalog with `exSource` on level 1 and one table over `t … z` on level 2, which `exSource`
does not meet. -/
def moveVersion : Version ℕ :=
  ⟨[[], [exSource], [⟨5, 30, makeInternalKey 20 3 .val, makeInternalKey 26 3 .val, by decide⟩]]⟩

theorem trivialMove_keeps_sorted_moveVersion :
    moveVersion.Sorted ∧ ∃ c, newCompaction exampleOptions (fun _ => ⟨[], false⟩) moveVersion 1
      [exSource] .nonLevel0 = some c ∧ c.trivial = true ∧ (moveVersion.applyEdit c.moveRecord).Sorted :=
  ⟨by decide, _, rfl, rfl, @trivialMove_keeps_sorted ℕ _ exampleOptions (fun _ => ⟨[], false⟩)
    moveVersion 1 [exSource] .nonLevel0 _ (by decide) (by decide) (by decide) rfl rfl⟩

/-- A trivial move out of the last level adds the level below it, and the moved table lands there. -/
example : (newCompaction exampleOptions (fun _ => ⟨[], false⟩) ⟨[[], [exSource]]⟩ 1 [exSource]
    .nonLevel0).map (fun c => ((⟨[[], [exSource]]⟩ : Version ℕ).applyEdit c.moveRecord).levels) =
      some [[], [], [exSource]] := by
  decide

/-! ## The commit of a build -/

/-- Each element on the left of a `Forall₂` correspondence has a partner on the right. -/
theorem exists_of_forall₂ {α β : Type} {R : α → β → Prop} :
    ∀ {l₁ : List α} {l₂ : List β}, List.Forall₂ R l₁ l₂ → ∀ a ∈ l₁, ∃ b ∈ l₂, R a b
  | _, _, .nil => by simp
  | _, _, .cons hab h => by
    rintro a (_ | ⟨_, ha⟩)
    · exact ⟨_, List.mem_cons_self _ _, hab⟩
    · obtain ⟨b, hb, h'⟩ := exists_of_forall₂ h a ha
      exact ⟨b, List.mem_cons_of_mem _ hb, h'⟩

section Build

variable {V : Type}

theorem TFile.Describes.exists_imin {f : TFile K} {t : List (Entry K V)} (h : f.Describes t) :
    ∃ e ∈ t, e.ikey = f.imin := by
  obtain ⟨e, he, hk⟩ := Option.map_eq_some'.mp h.1
  exact ⟨e, List.mem_of_mem_head? he, hk⟩

theorem TFile.Describes.exists_imax {f : TFile K} {t : List (Entry K V)} (h : f.Describes t) :
    ∃ e ∈ t, e.ikey = f.imax := by
  obtain ⟨e, he, hk⟩ := Option.map_eq_some'.mp h.2
  exact ⟨e, List.mem_of_getLast?_eq_some he, hk⟩

/-- The descriptors of tables with increasing user-key ranges are a sorted level. -/
theorem levelSorted_of_describes {outputs : TFiles K} {ts : List (List (Entry K V))}
    (hd : List.Forall₂ TFile.Describes outputs ts) (hts : ts.Pairwise KeysBelow) :
    LevelSorted outputs := by
  induction hd with
  | nil => exact List.Pairwise.nil
  | @cons f t fs ts hf hfs ih =>
    rw [List.pairwise_cons] at hts
    refine List.pairwise_cons.mpr ⟨fun f' hf' => ?_, ih hts.2⟩
    obtain ⟨t', ht', hd'⟩ := exists_of_forall₂ hfs f' hf'
    obtain ⟨e, he, hk⟩ := hf.exists_imax
    obtain ⟨e', he', hk'⟩ := hd'.exists_imin
    rw [← hk, ← hk']
    exact hts.1 t' ht' e he e' he'

theorem record_adds (c : Compaction K) (outputs : TFiles K) (i : ℕ) :
    ((c.record outputs).2.filterMap fun (j, t) => if j = i then some t else none) =
      if i = c.sourceLevel + 1 then outputs else [] := by
  by_cases h : i = c.sourceLevel + 1
  · simp [Compaction.record, List.filterMap_map, Function.comp_def, h]
  · simp [Compaction.record, List.filterMap_map, Function.comp_def, h, Ne.symm h]

/-- A table of the output level that the record keeps is not a target table. -/
theorem record_kept {c : Compaction K} {outputs : TFiles K} {t : TFile K}
    (hc : (c.record outputs).1.contains (c.sourceLevel + 1, t.num) = false) : t ∉ c.levels.2 := by
  simp [Compaction.record] at hc
  exact fun ht => hc t ht rfl

/-- **A build's commit keeps the catalog sorted when its tables avoid what stays.** For input in
internal-key order whose keys all parse, the tables the writer makes of one attempt's kept entries
are sorted and apart among themselves; described as table files and committed with the
compaction's record to a sorted catalog, they leave it sorted as long as each is apart from every
table of the output level that is not a target table. -/
theorem build_commit_sorted {c : Compaction K} {o : Options K} {minSeq : ℕ}
    {es : List (Entry K V)} (hes : es.Pairwise fun a b => a.ikey ≤ b.ikey)
    (hp : ∀ e ∈ es, (parseInternalKey e.ikey).isSome) {tableSize : ℕ}
    {bytesLen : List (Entry K V) → ℕ} {r : List (Kept K V) × RunState K}
    (hr : r ∈ c.runKept o minSeq es) {outputs : TFiles K}
    (hd : List.Forall₂ TFile.Describes outputs (writeTables tableSize bytesLen r.1))
    {v : Version K} (hv : v.Sorted)
    (hleft : ∀ t ∈ v.level (c.sourceLevel + 1), t ∉ c.levels.2 → ∀ f ∈ outputs, f.Apart t) :
    (v.applyEdit (c.record outputs)).Sorted := by
  have hts : (writeTables tableSize bytesLen r.1).Pairwise KeysBelow :=
    (writeTables_ordered (runLoop_cutOrder hes hp (fun _ hu => Option.noConfusion hu) hr).1).2
  exact hv.applyEdit_of_adds (record_adds c outputs) (levelSorted_of_describes hd hts).apart
    fun t ht hc f hf => (hleft t ht (record_kept hc) f hf).symm

end Build

/-- The table the build writes from `readsInput` with one table per user key: the two values of
`m`. -/
def readsTable : TFile ℕ := ⟨7, 0, makeInternalKey 13 6 .val, makeInternalKey 13 2 .val, by decide⟩

theorem build_commit_sorted_readsInput :
    ∃ r ∈ exFresh.runKept exampleOptions 5 readsInput,
      List.Forall₂ TFile.Describes [readsTable] (writeTables 1 List.length r.1) ∧
        (exVersion.applyEdit (exFresh.record [readsTable])).Sorted :=
  ⟨_, rfl, by decide, @build_commit_sorted ℕ _ ℕ exFresh exampleOptions 5 readsInput (by decide)
    (by decide) 1 List.length _ rfl [readsTable] (by decide) exVersion (by decide) (by decide)⟩

/-! ## An output table across a skipped table -/

/-- The merged input of `exFresh`: `a`, `c`, `l` and `z` from the target tables it kept, `b`, `m` and
a deletion of `k` from the source table. -/
def hopInput : List (Entry ℕ ℕ) :=
  [⟨makeInternalKey 1 3 .val, 1⟩, ⟨makeInternalKey 2 5 .val, 2⟩, ⟨makeInternalKey 3 3 .val, 3⟩,
    ⟨makeInternalKey 11 4 .del, 0⟩, ⟨makeInternalKey 12 3 .val, 4⟩, ⟨makeInternalKey 13 5 .val, 5⟩,
    ⟨makeInternalKey 26 3 .val, 6⟩]

/-- The table the build writes from `hopInput`, from `a` to `z`. -/
def hopTable : TFile ℕ := ⟨7, 0, makeInternalKey 1 3 .val, makeInternalKey 26 3 .val, by decide⟩

/-- **An output table spans a skipped table.** With `minSeq = 5` and nothing below level 2, rule (B)
drops the deletion of `k`, the entry at which `shouldStopBefore` hopped over the skipped table
`[d, f]`; no later entry cuts, and the build writes one table from `a` to `z`. Committed, it
overlaps `[d, f]` on level 2. -/
theorem run_spans_skipped_table :
    (exFresh.runKept exampleOptions 5 hopInput).map
        (fun r => writeTables (exampleOptions.compactionTableSize 2) (fun _ => 0) r.1) =
      some [hopInput.eraseIdx 3] ∧
      exFresh.skips = [exMiddle] ∧ hopTable.overlaps (some exMiddle.imin.ukey) (some exMiddle.imax.ukey) ∧
      ¬ (exVersion.applyEdit (exFresh.record [hopTable])).Sorted := by
  decide

end LevelDB

end Workshare
